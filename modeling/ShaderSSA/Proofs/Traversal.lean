import ShaderSSA.Dominators
import ShaderSSA.Proofs.Dominance
import ShaderSSA.Proofs.Membership

/-! The search behind the dominator tree. It visits what the entry reaches and nothing else, a block
is left before the one that it was entered from, and only an edge that closes a cycle leads to a
block that is left later. -/

namespace ShaderSSA

/-- Edges lead from the first block to the second. -/
abbrev Blocks.Leads (blocks : Blocks) : BlockId → BlockId → Prop :=
  Relation.ReflTransGen fun b c => c ∈ blocks.successors b

namespace Search

variable {blocks : Blocks} {s : Search} {b c : BlockId}

/-- The blocks of the path. -/
def trail (s : Search) : List BlockId := s.path.map (·.1)

/-- The successors of a block of the path that are still to look at, and what the others are. -/
structure Pending (blocks : Blocks) (visited : BitSet) (b : BlockId) (ts : List BlockId) :
    Prop where
  length : ts.length ≤ 2
  sub : ∀ c ∈ ts, c ∈ blocks.successors b
  seen : ∀ c ∈ blocks.successors b, c ∈ ts ∨ visited.contains c.index

/-- What holds all through a search. -/
structure Sound (blocks : Blocks) (s : Search) : Prop where
  visited : ∀ x : BlockId, s.visited.contains x.index ↔ x ∈ s.trail ∨ x ∈ s.finished
  nodup : (s.trail ++ s.finished).Nodup
  reached : ∀ x, x ∈ s.trail ∨ x ∈ s.finished → blocks.Reachable x
  entry : entryBlock ∈ s.trail ∨ entryBlock ∈ s.finished
  pending : ∀ p ∈ s.path, Pending blocks s.visited p.1 p.2
  closed : ∀ x ∈ s.finished, ∀ c ∈ blocks.successors x, s.visited.contains c.index
  bottom : ∀ b ∈ s.trail.getLast?, b = entryBlock
  chain : s.trail.IsChain fun inner outer => inner ∈ blocks.successors outer
  left : ∀ first x rest, s.finished = first ++ x :: rest →
    x = entryBlock ∨ ∃ y, (y ∈ s.trail ∨ y ∈ first) ∧ x ∈ blocks.successors y
  back : ∀ first x rest, s.finished = first ++ x :: rest →
    ∀ c ∈ blocks.successors x, c ∈ rest ∨ blocks.Leads c x

theorem length_successors (blocks : Blocks) (b : BlockId) : (blocks.successors b).length ≤ 2 := by
  unfold Blocks.successors
  split
  · rename_i block _
    cases block.terminator <;> simp [Terminator.successors]
  · simp

theorem index_inj {x y : BlockId} : x.index = y.index ↔ x = y := by
  cases x
  cases y
  simp

namespace Pending

variable {t : BlockId} {ts : List BlockId} {visited visited' : BitSet}

theorem start (blocks : Blocks) (visited : BitSet) (b : BlockId) :
    Pending blocks visited b (blocks.successors b) :=
  ⟨length_successors blocks b, fun _ hc => hc, fun _ hc => .inl hc⟩

theorem mono (h : Pending blocks visited b ts)
    (hsub : ∀ c : BlockId, visited.contains c.index → visited'.contains c.index) :
    Pending blocks visited' b ts :=
  ⟨h.length, h.sub, fun c hc => (h.seen c hc).imp_right (hsub c)⟩

theorem tail (h : Pending blocks visited b (t :: ts)) (ht : visited.contains t.index) :
    Pending blocks visited b ts := by
  refine ⟨?_, fun c hc => h.sub c (List.mem_cons_of_mem t hc), fun c hc => ?_⟩
  · have hlen := h.length
    rw [List.length_cons] at hlen
    omega
  · rcases h.seen c hc with hc | hc
    · rcases List.mem_cons.mp hc with rfl | hc
      · exact .inr ht
      · exact .inl hc
    · exact .inr hc

end Pending

theorem Sound.leads {trail : List BlockId} (h : Sound blocks s) (ht : s.trail = b :: trail)
    (hc : c ∈ s.trail) : blocks.Leads c b := by
  have hchain : (b :: trail).IsChain fun inner outer => blocks.Leads outer inner :=
    (ht ▸ h.chain).imp fun _ _ hedge => .single hedge
  have : IsTrans BlockId fun inner outer => blocks.Leads outer inner :=
    ⟨fun _ _ _ hab hbc => hbc.trans hab⟩
  rw [ht] at hc
  rcases List.mem_cons.mp hc with rfl | hc
  · exact .refl
  · exact hchain.rel_cons hc

theorem Sound.ofEntry : Sound blocks (ofEntry blocks) := by
  refine ⟨fun x => ?_, by simp [trail, Search.ofEntry], fun x hx => ?_,
    .inl (by simp [trail, Search.ofEntry]), fun p hp => ?_, by simp [Search.ofEntry],
    by simp [trail, Search.ofEntry], by simp [trail, Search.ofEntry], by simp [Search.ofEntry],
    by simp [Search.ofEntry]⟩
  · simp only [Search.ofEntry, BitSet.contains_insert, BitSet.contains_ofCapacity, Bool.or_false,
      decide_eq_true_eq, index_inj, trail]
    simp [eq_comm]
  · obtain rfl : x = entryBlock := by simpa [trail, Search.ofEntry] using hx
    exact .entry (by simp)
  · obtain rfl := List.mem_singleton.mp hp
    exact .start blocks _ entryBlock

theorem Sound.pop {rest : List (BlockId × List BlockId)} (h : Sound blocks s)
    (hp : s.path = (b, []) :: rest) :
    Sound blocks { s with path := rest, finished := b :: s.finished } := by
  have htrail : s.trail = b :: rest.map (·.1) := by simp [trail, hp]
  have hmem : ∀ x, x ∈ s.trail ∨ x ∈ s.finished ↔ x ∈ rest.map (·.1) ∨ x ∈ b :: s.finished := by
    intro x
    simp only [htrail, List.mem_cons]
    tauto
  have hnd := h.nodup
  rw [htrail, List.cons_append] at hnd
  have hseen : ∀ c ∈ blocks.successors b, s.visited.contains c.index := fun c hc =>
    ((h.pending (b, []) (by simp [hp])).seen c hc).resolve_left (by simp)
  refine ⟨fun x => (h.visited x).trans (hmem x), List.nodup_middle.mpr hnd,
    fun x hx => h.reached x ((hmem x).mpr hx), (hmem entryBlock).mp h.entry, fun p hpr => ?_,
    fun x hx c hc => ?_, fun x hx => ?_, ?_, fun first x later hsplit => ?_,
    fun first x later hsplit => ?_⟩
  · exact h.pending p (by simp [hp, hpr])
  · rcases List.mem_cons.mp hx with rfl | hx
    · exact hseen c hc
    · exact h.closed x hx c hc
  · refine h.bottom x ?_
    have hlast : (rest.map (·.1)).getLast? = some x := hx
    rw [htrail, List.getLast?_cons, hlast]
    rfl
  · have hchain := h.chain
    rw [htrail] at hchain
    exact hchain.tail
  · cases first with
    | nil =>
      obtain ⟨rfl, -⟩ : b = x ∧ s.finished = later := by simpa using hsplit
      have hchain := h.chain
      cases rest with
      | nil => exact .inl (h.bottom b (by simp [htrail]))
      | cons p rest =>
        rw [htrail, List.map_cons, List.isChain_cons_cons] at hchain
        exact .inr ⟨p.1, .inl (by simp [trail]), hchain.1⟩
    | cons z first =>
      obtain ⟨rfl, hfinished⟩ : b = z ∧ s.finished = first ++ x :: later := by simpa using hsplit
      refine (h.left first x later hfinished).imp_right ?_
      rintro ⟨y, hy | hy, hx⟩
      · rw [htrail] at hy
        rcases List.mem_cons.mp hy with rfl | hy
        · exact ⟨y, .inr (by simp), hx⟩
        · exact ⟨y, .inl hy, hx⟩
      · exact ⟨y, .inr (by simp [hy]), hx⟩
  · cases first with
    | nil =>
      obtain ⟨rfl, rfl⟩ : b = x ∧ s.finished = later := by simpa using hsplit
      intro c hc
      exact ((h.visited c).mp (hseen c hc)).symm.imp_right (h.leads htrail)
    | cons z first => exact h.back first x later (by simpa using (List.cons.inj hsplit).2)

theorem Sound.skip {t : BlockId} {ts : List BlockId} {rest : List (BlockId × List BlockId)}
    (h : Sound blocks s) (hp : s.path = (b, t :: ts) :: rest)
    (ht : s.visited.contains t.index) : Sound blocks { s with path := (b, ts) :: rest } := by
  have htrail : ({ s with path := (b, ts) :: rest } : Search).trail = s.trail := by
    simp [trail, hp]
  refine ⟨?_, ?_, ?_, ?_, fun p hpm => ?_, h.closed, ?_, ?_, ?_, h.back⟩
  · rw [htrail]
    exact h.visited
  · rw [htrail]
    exact h.nodup
  · rw [htrail]
    exact h.reached
  · rw [htrail]
    exact h.entry
  · rcases List.mem_cons.mp hpm with rfl | hpm
    · exact (h.pending (b, t :: ts) (by simp [hp])).tail ht
    · exact h.pending p (by simp [hp, hpm])
  · rw [htrail]
    exact h.bottom
  · rw [htrail]
    exact h.chain
  · rw [htrail]
    exact h.left

theorem Sound.push {t : BlockId} {ts : List BlockId} {rest : List (BlockId × List BlockId)}
    (h : Sound blocks s) (hp : s.path = (b, t :: ts) :: rest)
    (ht : ¬ s.visited.contains t.index) :
    Sound blocks { s with
      visited := s.visited.insert t.index
      path := (t, blocks.successors t) :: (b, ts) :: rest } := by
  have htrail : s.trail = b :: rest.map Prod.fst := by simp [trail, hp]
  have hnew : ¬ (t ∈ s.trail ∨ t ∈ s.finished) := fun hx => ht ((h.visited t).mpr hx)
  have hpending := h.pending (b, t :: ts) (by simp [hp])
  have htb : t ∈ blocks.successors b := hpending.sub t List.mem_cons_self
  have hseen : ∀ x : BlockId, (s.visited.insert t.index).contains x.index ↔
      t = x ∨ s.visited.contains x.index := by
    intro x
    simp only [BitSet.contains_insert, Bool.or_eq_true, decide_eq_true_eq, index_inj]
  have hgrown : ∀ x : BlockId, s.visited.contains x.index →
      (s.visited.insert t.index).contains x.index := fun x hx => (hseen x).mpr (.inr hx)
  have htrail' : Search.trail { s with
      visited := s.visited.insert t.index
      path := (t, blocks.successors t) :: (b, ts) :: rest } = t :: s.trail := by
    rw [htrail]
    rfl
  refine ⟨fun x => ?_, ?_, ?_, ?_, fun p hpm => ?_, fun x hx c hc => ?_, ?_, ?_, ?_, h.back⟩
  · rw [hseen, htrail', h.visited, List.mem_cons, or_assoc, eq_comm]
  · rw [htrail', List.cons_append]
    exact List.nodup_cons.mpr ⟨fun hm => hnew (List.mem_append.mp hm), h.nodup⟩
  · rw [htrail']
    rintro x (hx | hx)
    · rcases List.mem_cons.mp hx with rfl | hx
      · exact .step (h.reached b (.inl (by simp [htrail]))) htb (by simp)
      · exact h.reached x (.inl hx)
    · exact h.reached x (.inr hx)
  · rw [htrail']
    exact h.entry.imp_left (List.mem_cons_of_mem t)
  · rcases List.mem_cons.mp hpm with rfl | hpm
    · exact .start blocks _ t
    · rcases List.mem_cons.mp hpm with rfl | hpm
      · exact (hpending.mono hgrown).tail ((hseen t).mpr (.inl rfl))
      · exact (h.pending p (by simp [hp, hpm])).mono hgrown
  · exact hgrown c (h.closed x hx c hc)
  · rw [htrail', htrail, List.getLast?_cons_cons, ← htrail]
    exact h.bottom
  · have hchain := h.chain
    rw [htrail] at hchain
    rw [htrail', htrail]
    exact .cons_cons htb hchain
  · rw [htrail']
    intro first x later hsplit
    refine (h.left first x later hsplit).imp_right ?_
    rintro ⟨y, hy, hx⟩
    exact ⟨y, hy.imp_left (List.mem_cons_of_mem t), hx⟩

theorem Sound.step (h : Sound blocks s) : Sound blocks (s.step blocks) := by
  unfold Search.step
  split
  · exact h
  · rename_i hp
    exact h.pop hp
  · rename_i hp
    split
    · rename_i ht
      exact h.skip hp ht
    · rename_i ht
      exact h.push hp ht

theorem Sound.run (h : Sound blocks s) (n : Nat) : Sound blocks (run blocks n s) := by
  induction n generalizing s with
  | zero => exact h
  | succ n ih =>
    unfold Search.run
    split
    · exact h
    · exact ih h.step

/-- Steps that are still to come at most. -/
def potential (blocks : Blocks) (s : Search) : Nat :=
  (s.path.map fun p => 1 + p.2.length).sum +
    3 * ((Finset.range blocks.size).filter fun k => ¬ s.visited.contains k).card

theorem card_unseen_insert {visited : BitSet} {n k : Nat} (hk : k < n)
    (hv : ¬ visited.contains k) :
    ((Finset.range n).filter fun j => ¬ (visited.insert k).contains j).card + 1 =
      ((Finset.range n).filter fun j => ¬ visited.contains j).card := by
  have herase : ((Finset.range n).filter fun j => ¬ (visited.insert k).contains j) =
      ((Finset.range n).filter fun j => ¬ visited.contains j).erase k := by
    ext j
    simp only [Finset.mem_filter, Finset.mem_erase, BitSet.contains_insert, Bool.or_eq_true,
      decide_eq_true_eq, not_or]
    constructor
    · rintro ⟨hj, hkj, hnot⟩
      exact ⟨fun h => hkj h.symm, hj, hnot⟩
    · rintro ⟨hjk, hj, hnot⟩
      exact ⟨hj, fun h => hjk h.symm, hnot⟩
  have hmem : k ∈ (Finset.range n).filter fun j => ¬ visited.contains j := by
    simp [hk, hv]
  rw [herase, Finset.card_erase_add_one hmem]

theorem potential_step (h : Sound blocks s)
    (hb : ∀ b, ∀ t ∈ blocks.successors b, t.index < blocks.size) (hne : s.path ≠ []) :
    potential blocks (s.step blocks) < potential blocks s := by
  unfold Search.step
  split
  · rename_i hp
    exact absurd hp hne
  · rename_i b rest hp
    simp only [potential, hp, List.map_cons, List.sum_cons, List.length_nil]
    omega
  · rename_i b t ts rest hp
    obtain ⟨-, hsub, -⟩ := h.pending (b, t :: ts) (by simp [hp])
    split
    · simp only [potential, hp, List.map_cons, List.sum_cons, List.length_cons]
      omega
    · rename_i ht
      have hcard := card_unseen_insert (hb b t (hsub t List.mem_cons_self)) ht
      have hlen := length_successors blocks t
      simp only [potential, hp, List.map_cons, List.sum_cons, List.length_cons]
      omega

theorem path_run (hb : ∀ b, ∀ t ∈ blocks.successors b, t.index < blocks.size) {n : Nat}
    (h : Sound blocks s) (hn : potential blocks s ≤ n) : (run blocks n s).path = [] := by
  induction n generalizing s with
  | zero =>
    cases hp : s.path with
    | nil => simpa [Search.run] using hp
    | cons p rest =>
      simp only [potential, hp, List.map_cons, List.sum_cons] at hn
      omega
  | succ n ih =>
    unfold Search.run
    split
    · rename_i hp
      simpa using hp
    · rename_i hp
      have hlt := potential_step h hb (by simpa using hp)
      exact ih h.step (by omega)

theorem potential_ofEntry (hz : 0 < blocks.size) :
    potential blocks (ofEntry blocks) ≤ 3 * blocks.size := by
  have hempty : ¬ (BitSet.ofCapacity blocks.size).contains entryBlock.index := by
    simp [BitSet.contains_ofCapacity]
  have hlen := length_successors blocks entryBlock
  unfold Search.ofEntry
  generalize BitSet.ofCapacity blocks.size = visited at hempty
  have hinsert := card_unseen_insert (n := blocks.size) (k := entryBlock.index) hz hempty
  have hle := Finset.card_filter_le (Finset.range blocks.size) fun k => ¬ visited.contains k
  rw [Finset.card_range] at hle
  simp only [potential, List.map_cons, List.map_nil, List.sum_cons, List.sum_nil]
  omega

theorem run_of_path (h : s.path = []) (n : Nat) : run blocks n s = s := by
  cases n with
  | zero => rfl
  | succ n => simp [Search.run, h]

theorem run_add (n m : Nat) : run blocks (n + m) s = run blocks m (run blocks n s) := by
  induction n generalizing s with
  | zero => simp [Search.run]
  | succ n ih =>
    rw [Nat.succ_add, Search.run, Search.run]
    split
    · rename_i hp
      rw [run_of_path (by simpa using hp)]
    · exact ih

theorem sound_complete (blocks : Blocks) : Sound blocks (complete blocks) := Sound.ofEntry.run _

end Search

namespace Blocks

variable {blocks : Blocks} {b : BlockId}

theorem nodup_reversePostorder (blocks : Blocks) : blocks.reversePostorder.Nodup :=
  (List.nodup_append.mp (Search.sound_complete blocks).nodup).2.1

section Complete

variable (hz : 0 < blocks.size) (hb : ∀ b, ∀ t ∈ blocks.successors b, t.index < blocks.size)
include hz hb

theorem path_complete : (Search.complete blocks).path = [] :=
  Search.path_run hb .ofEntry (Search.potential_ofEntry hz)

theorem trail_complete : (Search.complete blocks).trail = [] := by
  simp [Search.trail, path_complete hz hb]

theorem run_eq_complete {n : Nat} (hn : 3 * blocks.size ≤ n) :
    Search.run blocks n (.ofEntry blocks) = Search.complete blocks := by
  obtain ⟨m, rfl⟩ := Nat.exists_eq_add_of_le hn
  rw [Search.run_add]
  exact Search.run_of_path (path_complete hz hb) m

theorem mem_reversePostorder : b ∈ blocks.reversePostorder ↔ blocks.Reachable b := by
  have hs := Search.sound_complete blocks
  have htrail := trail_complete hz hb
  refine ⟨fun hx => hs.reached b (.inr hx), fun hx => ?_⟩
  induction hx with
  | entry hn =>
    have hentry := hs.entry
    rw [htrail] at hentry
    exact hentry.resolve_left (by simp)
  | @step y z _ hz hn ih =>
    have hz' := (hs.visited z).mp (hs.closed y ih z hz)
    rw [htrail] at hz'
    exact hz'.resolve_left (by simp)

theorem exists_pred_before {first rest : List BlockId}
    (h : blocks.reversePostorder = first ++ b :: rest) (hne : b ≠ entryBlock) :
    ∃ y ∈ first, b ∈ blocks.successors y := by
  rcases (Search.sound_complete blocks).left first b rest h with he | ⟨y, hy, hb'⟩
  · exact absurd he hne
  · rw [trail_complete hz hb] at hy
    exact ⟨y, by simpa using hy, hb'⟩

theorem head_reversePostorder : blocks.reversePostorder.head? = some entryBlock := by
  have hentry : entryBlock ∈ blocks.reversePostorder :=
    (mem_reversePostorder hz hb).mpr (.entry (by simp))
  cases horder : blocks.reversePostorder with
  | nil => simp [horder] at hentry
  | cons b rest =>
    by_contra hne
    have hsplit : blocks.reversePostorder = [] ++ b :: rest := horder
    obtain ⟨y, hy, -⟩ := exists_pred_before hz hb hsplit (by simpa using hne)
    simp at hy

end Complete

/-- Of two blocks with an edge, the one that it leads to comes later, or edges lead back. -/
theorem mem_or_leads {first rest : List BlockId} {u v : BlockId}
    (h : blocks.reversePostorder = first ++ u :: rest) (hv : v ∈ blocks.successors u) :
    v ∈ rest ∨ blocks.Leads v u := (Search.sound_complete blocks).back first u rest h v hv

/-- The blocks that the entry reaches, each once, in an order in which an edge leads forward unless
it closes a cycle. -/
structure VisitOrder (blocks : Blocks) (l : List BlockId) : Prop where
  nodup : l.Nodup
  mem : ∀ b, b ∈ l ↔ blocks.Reachable b
  entry : l.head? = some entryBlock
  pred : ∀ first b rest, l = first ++ b :: rest → b ≠ entryBlock →
    ∃ p ∈ first, b ∈ blocks.successors p
  back : ∀ first u rest, l = first ++ u :: rest →
    ∀ v ∈ first ++ [u], v ∈ blocks.successors u → blocks.Leads v u
  forward :
    (∀ b, blocks.Reachable b → ¬ Relation.TransGen (fun x y => y ∈ blocks.successors x) b b) →
      ∀ first u rest, l = first ++ u :: rest → ∀ v ∈ blocks.successors u, v ∈ rest

theorem visitOrder_reversePostorder (hw : blocks.Wired) :
    blocks.VisitOrder blocks.reversePostorder where
  nodup := nodup_reversePostorder blocks
  mem _ := mem_reversePostorder hw.entry hw.target
  entry := head_reversePostorder hw.entry hw.target
  pred _ _ _ := exists_pred_before hw.entry hw.target
  back first u rest h v hv hedge := by
    refine (mem_or_leads h hedge).resolve_left fun hrest => ?_
    have hnd := nodup_reversePostorder blocks
    rw [h, List.append_cons] at hnd
    exact (List.nodup_append.mp hnd).2.2 v hv v hrest rfl
  forward hacyclic first u rest h v hedge := by
    refine (mem_or_leads h hedge).resolve_right fun hleads => ?_
    have hu : u ∈ blocks.reversePostorder := by simp [h]
    exact hacyclic u ((mem_reversePostorder hw.entry hw.target).mp hu) (.head' hedge hleads)

end Blocks

end ShaderSSA
