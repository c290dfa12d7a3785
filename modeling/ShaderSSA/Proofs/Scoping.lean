import ShaderSSA.Proofs.Fusing
import ShaderSSA.Proofs.Stacks

/-! The stacks of a walk along the dominator tree. What is stacked stands in an open block above
the one being visited, or earlier in that block, and later visits stand behind earlier ones. -/

namespace ShaderSSA

/-- The entry of what stands where the entry's instruction stood. -/
def Entry.heir (m : Merged) (a : InstrId) (x : Entry) : Entry :=
  { x with instr := m.heir a x.instr }

namespace Walk

variable {f : Function} {limit : Nat} {anc : List BlockId} {done rest pending : List InstrId}
  {w w' : Walk} {i j : InstrId} {key : ClassKey} {b : BlockId} {e : Entry}

def Stacked (w : Walk) (e : Entry) : Prop := ∃ key, e ∈ w.stackOf key

/-- Stacked instructions have been visited in the order in which they stand. -/
structure Linear (w : Walk) : Prop where
  sorted : ∀ key, (w.stackOf key).Pairwise fun x y => y.seq < x.seq
  apart : ∀ x y, w.Stacked x → w.Stacked y → x.seq = y.seq → x = y
  bound : ∀ x, w.Stacked x → x.seq < w.nextSeq
  order : ∀ x y, w.Stacked x → w.Stacked y → x.seq < y.seq → w.func.Precedes x.instr y.instr

namespace Linear

theorem thin (h : w.Linear) (hstack : ∀ k, (w'.stackOf k).Sublist (w.stackOf k))
    (hseq : w'.nextSeq = w.nextSeq) (hfunc : w'.func = w.func) : w'.Linear := by
  have hold : ∀ x, w'.Stacked x → w.Stacked x := fun x ⟨k, hk⟩ => ⟨k, (hstack k).subset hk⟩
  refine ⟨fun k => (h.sorted k).sublist (hstack k),
    fun x y hx hy => h.apart x y (hold x hx) (hold y hy),
    fun x hx => hseq ▸ h.bound x (hold x hx), fun x y hx hy hlt => ?_⟩
  rw [hfunc]
  exact h.order x y (hold x hx) (hold y hy) hlt

theorem insert (h : w.Linear)
    (hstack : ∀ k, w'.stackOf k = if k = key then insertBySeq e (w.stackOf key) else w.stackOf k)
    (hfunc : w'.func = w.func) (hseq : w.nextSeq ≤ w'.nextSeq) (he : e.seq < w'.nextSeq)
    (hne : ∀ x, w.Stacked x → x.seq ≠ e.seq)
    (hbefore : ∀ x, w.Stacked x → x.seq < e.seq → w.func.Precedes x.instr e.instr)
    (hafter : ∀ x, w.Stacked x → e.seq < x.seq → w.func.Precedes e.instr x.instr) :
    w'.Linear := by
  have hcases : ∀ x, w'.Stacked x → x = e ∨ w.Stacked x := by
    rintro x ⟨k, hk⟩
    rw [hstack] at hk
    split at hk
    · rcases List.mem_cons.mp ((insertBySeq_perm e _).mem_iff.mp hk) with rfl | hx
      · exact .inl rfl
      · exact .inr ⟨key, hx⟩
    · exact .inr ⟨k, hk⟩
  refine ⟨fun k => ?_, fun x y hx hy hxy => ?_, fun x hx => ?_, fun x y hx hy hlt => ?_⟩
  · rw [hstack]
    split
    · exact insertBySeq_sorted (h.sorted key) fun x hx => hne x ⟨key, hx⟩
    · exact h.sorted k
  · rcases hcases x hx with rfl | hx
    · rcases hcases y hy with rfl | hy
      · rfl
      · exact absurd hxy.symm (hne y hy)
    · rcases hcases y hy with rfl | hy
      · exact absurd hxy (hne x hx)
      · exact h.apart x y hx hy hxy
  · rcases hcases x hx with rfl | hx
    · exact he
    · have hlt := h.bound x hx
      omega
  · rw [hfunc]
    rcases hcases x hx with rfl | hx
    · rcases hcases y hy with rfl | hy
      · omega
      · exact hafter y hy hlt
    · rcases hcases y hy with rfl | hy
      · exact hbefore x hx hlt
      · exact h.order x y hx hy hlt

theorem move {w₁ : Walk} {old : ClassKey} (h : w.Linear) (he : e ∈ w.stackOf old)
    (honce : ∀ k, e ∈ w.stackOf k → k = old)
    (hdetach : ∀ k, w₁.stackOf k = if k = old then (w.stackOf old).erase e else w.stackOf k)
    (hfunc₁ : w₁.func = w.func) (hseq₁ : w₁.nextSeq = w.nextSeq)
    (hstack : ∀ k, w'.stackOf k =
      if k = key then insertBySeq e (w₁.stackOf key) else w₁.stackOf k)
    (hfunc : w'.func = w₁.func) (hseq : w'.nextSeq = w₁.nextSeq) : w'.Linear := by
  have hnd : (w.stackOf old).Nodup :=
    (h.sorted old).imp fun hlt hxy => by
      rw [hxy] at hlt
      exact hlt.false
  have hthin : w₁.Linear := by
    refine h.thin (fun k => ?_) hseq₁ hfunc₁
    rw [hdetach]
    split
    · rename_i hk
      rw [hk]
      exact List.erase_sublist
    · exact List.Sublist.refl _
  have hold : ∀ x, w₁.Stacked x → w.Stacked x ∧ x ≠ e := by
    rintro x ⟨k, hx⟩
    rw [hdetach] at hx
    split at hx
    · obtain ⟨hxe, hx⟩ := hnd.mem_erase_iff.mp hx
      exact ⟨⟨old, hx⟩, hxe⟩
    · rename_i hne
      refine ⟨⟨k, hx⟩, ?_⟩
      rintro rfl
      exact hne (honce k hx)
  have hstacked : w.Stacked e := ⟨old, he⟩
  have hbound := h.bound e hstacked
  refine hthin.insert hstack hfunc hseq.ge (by omega) (fun x hx hxe => ?_) (fun x hx hlt => ?_)
    fun x hx hlt => ?_
  · exact (hold x hx).2 (h.apart x e (hold x hx).1 hstacked hxe)
  · rw [hfunc₁]
    exact h.order x e (hold x hx).1 hstacked hlt
  · rw [hfunc₁]
    exact h.order e x hstacked (hold x hx).1 hlt

theorem map (h : w.Linear) {φ : Entry → Entry} (hφ : ∀ x, (φ x).seq = x.seq)
    (hstack : ∀ k, w'.stackOf k = (w.stackOf k).map φ) (hseq : w'.nextSeq = w.nextSeq)
    (horder : ∀ x y, w.Stacked x → w.Stacked y → w.func.Precedes x.instr y.instr →
      w'.func.Precedes (φ x).instr (φ y).instr) : w'.Linear := by
  have hold : ∀ x, w'.Stacked x → ∃ y, w.Stacked y ∧ φ y = x := by
    rintro x ⟨k, hk⟩
    rw [hstack] at hk
    obtain ⟨y, hy, hyx⟩ := List.mem_map.mp hk
    exact ⟨y, ⟨k, hy⟩, hyx⟩
  refine ⟨fun k => ?_, fun x y hx hy hxy => ?_, fun x hx => ?_, fun x y hx hy hlt => ?_⟩
  · rw [hstack, List.pairwise_map]
    exact (h.sorted k).imp fun hlt => by rwa [hφ, hφ]
  · obtain ⟨x', hx', rfl⟩ := hold x hx
    obtain ⟨y', hy', rfl⟩ := hold y hy
    rw [hφ, hφ] at hxy
    rw [h.apart x' y' hx' hy' hxy]
  · obtain ⟨x', hx', rfl⟩ := hold x hx
    rw [hφ, hseq]
    exact h.bound x' hx'
  · obtain ⟨x', hx', rfl⟩ := hold x hx
    obtain ⟨y', hy', rfl⟩ := hold y hy
    rw [hφ, hφ] at hlt
    exact horder x' y' hx' hy' (h.order x' y' hx' hy' hlt)

end Linear

/-- The stacks name instructions that stand in blocks of `anc` or among `done`, each with its class
unless that is `pending`, in the order in which they stand. -/
structure Scoped (f : Function) (anc : List BlockId) (done pending : List InstrId) (w : Walk) :
    Prop where
  tidy : w.func.Tidy
  verified : w.func.Verified
  flow : ∀ b, w.func.blocks.successors b = f.blocks.successors b
  paired : Stacks w.groups w.classes
  classed : ∀ i key, Assoc.get? w.classes i = some key →
    ∃ key', w.func.InClass i key' ∧ (i ∉ pending → key' = key)
  standing : ∀ i key, Assoc.get? w.classes i = some key → w.func.Passed (· ∈ anc) done i
  linear : w.Linear

theorem Scoped.start (hf : f.Tidy) (hv : f.Verified) : Scoped f [] [] [] (.start f) where
  tidy := hf
  verified := hv
  flow _ := rfl
  paired := .empty
  classed := by simp [Walk.start, Assoc.get?]
  standing := by simp [Walk.start, Assoc.get?]
  linear := by
    have hnone : ∀ x, ¬ (Walk.start f).Stacked x := by
      rintro x ⟨k, hk⟩
      simp [Walk.start, stackOf, Assoc.get?] at hk
    refine ⟨fun k => by simp [Walk.start, stackOf, Assoc.get?], fun x _ hx => ?_, fun x hx => ?_,
      fun x _ hx => ?_⟩ <;> exact absurd hx (hnone x)

theorem Scoped.get?_of_mem (h : Scoped f anc done pending w) (he : e ∈ w.stackOf key) :
    Assoc.get? w.classes e.instr = some key :=
  (h.paired.mem_stackOf e.instr key).mpr (List.mem_map.mpr ⟨e, he, rfl⟩)

theorem Scoped.key_unique (h : Scoped f anc done pending w) {key' : ClassKey} {e' : Entry}
    (he : e ∈ w.stackOf key) (he' : e' ∈ w.stackOf key') (hsame : e.instr = e'.instr) :
    key = key' ∧ e = e' := by
  have hget := h.get?_of_mem he
  rw [hsame, h.get?_of_mem he', Option.some.injEq] at hget
  subst hget
  exact ⟨rfl, List.inj_on_of_nodup_map (h.paired.nodup_stackOf _) he he' hsame⟩

theorem Scoped.forget (h : Scoped f anc done (i :: pending) w)
    (hi : Assoc.get? w.classes i = none) : Scoped f anc done pending w := by
  refine ⟨h.tidy, h.verified, h.flow, h.paired, fun j k hj => ?_, h.standing, h.linear⟩
  obtain ⟨key', hkey', hsame⟩ := h.classed j k hj
  refine ⟨key', hkey', fun hnot => hsame ?_⟩
  have hji : j ≠ i := by
    rintro rfl
    simp [hi] at hj
  simp [hji, hnot]

theorem Scoped.stackOf_heir (h : Scoped f anc done pending w) {m : Merged}
    {above below : List Entry} (hs : w.stackOf key = above ++ e :: below)
    (hgroups : w'.groups = Assoc.set key (above ++ { e with instr := m.instr } :: below) w.groups)
    (k : ClassKey) : w'.stackOf k = (w.stackOf k).map (Entry.heir m e.instr) := by
  have hmem : e ∈ w.stackOf key := by simp [hs]
  have hkept : ∀ {k : ClassKey} {l : List Entry}, (∀ x ∈ l, x ∈ w.stackOf k ∧ x ≠ e) →
      l.map (Entry.heir m e.instr) = l := by
    intro k l hl
    refine (List.map_congr_left fun x hx => ?_).trans (List.map_id' l)
    have hne : x.instr ≠ e.instr := fun hsame =>
      (hl x hx).2 (h.key_unique (hl x hx).1 hmem hsame).2
    simp [Entry.heir, Merged.heir, hne]
  rw [stackOf_set hgroups]
  split
  · rename_i hk
    have hnd := List.Nodup.of_map _ (h.paired.nodup_stackOf key)
    rw [hs, List.nodup_append, List.nodup_cons] at hnd
    obtain ⟨-, ⟨hbelow, -⟩, habove⟩ := hnd
    have habove' : ∀ x ∈ above, x ∈ w.stackOf key ∧ x ≠ e := fun x hx =>
      ⟨by simp [hs, hx], habove x hx e (by simp)⟩
    have hbelow' : ∀ x ∈ below, x ∈ w.stackOf key ∧ x ≠ e := fun x hx =>
      ⟨by simp [hs, hx], fun hxe => hbelow (hxe ▸ hx)⟩
    rw [hk, hs, List.map_append, List.map_cons, hkept habove', hkept hbelow']
    simp [Entry.heir, Merged.heir]
  · rename_i hk
    refine (hkept fun x hx => ⟨hx, ?_⟩).symm
    rintro rfl
    exact hk (h.key_unique hx hmem rfl).1

/-- A stacked reader gets to the stack of its new class. -/
theorem Scoped.reclassify (h : Scoped f anc done (i :: pending) w) :
    ∃ w', w.reclassify i = .ok w' ∧ w'.func = w.func ∧
      (∀ j, (Assoc.get? w'.classes j).isSome = (Assoc.get? w.classes j).isSome) ∧
      Scoped f anc done pending w' := by
  cases hi : Assoc.get? w.classes i with
  | none =>
    exact ⟨w, by simp only [Walk.reclassify, hi]; rfl, rfl, fun _ => rfl, h.forget hi⟩
  | some old =>
    obtain ⟨e, groups, hrun, he, hd⟩ := h.paired.detach hi
    subst he
    obtain ⟨hmem, hstack, hseq⟩ := stackOf_detach hrun
    obtain ⟨key', hkey', -⟩ := h.classed e.instr old hi
    have hlinked : ∃ c, w.func.home? e.instr = some c := by
      obtain ⟨_, _, _, hm⟩ := hkey'
      exact hm.linked
    obtain ⟨c, hc⟩ := hlinked
    obtain ⟨k, hclass, hk⟩ := Function.classOf_ok h.tidy.linked.defined hc
    obtain rfl : k = some key' := (hk key').mpr hkey'
    let w₁ : Walk := { w with groups := groups, classes := Assoc.erase e.instr w.classes }
    let w₂ : Walk := { w with
      groups := Assoc.set key' (insertBySeq e (w₁.stackOf key')) groups
      classes := Assoc.set e.instr key' w₁.classes
      stats := { w.stats with reclassified := w.stats.reclassified + 1 } }
    have hgone : Assoc.get? w₁.classes e.instr = none := by
      simp only [w₁, Assoc.get?_erase, if_pos]
    have hpaired : Stacks w₂.groups w₂.classes :=
      Stacks.insert (w := w₁) hd hgone (insertBySeq_perm e (w₁.stackOf key'))
    have hlinear : w₂.Linear :=
      h.linear.move hmem (fun k hk => (h.key_unique hk hmem rfl).1) hstack rfl hseq
        (stackOf_set rfl) rfl rfl
    have hget : ∀ j, Assoc.get? w₂.classes j =
        if j = e.instr then some key' else Assoc.get? w.classes j := by
      intro j
      simp only [w₂, w₁, Assoc.get?_set, Assoc.get?_erase]
      split <;> rfl
    refine ⟨w₂, ?_, rfl, fun j => ?_, h.tidy, h.verified, h.flow, hpaired, fun j k hj => ?_,
      fun j k hj => ?_, hlinear⟩
    · simp only [Walk.reclassify, hi, hrun, ok_bind, hclass, Checked.orElse]
      rfl
    · rw [hget]
      split
      · rename_i hje
        rw [hje, hi]
        rfl
      · rfl
    · rw [hget] at hj
      split at hj
      · rename_i hje
        obtain rfl := Option.some.inj hj
        exact ⟨key', hje ▸ hkey', fun _ => rfl⟩
      · rename_i hje
        obtain ⟨k', hk', hsame⟩ := h.classed j k hj
        exact ⟨k', hk', fun hnot => hsame (by simp [hje, hnot])⟩
    · rw [hget] at hj
      split at hj
      · rename_i hje
        rw [hje]
        exact h.standing e.instr old hi
      · exact h.standing j k hj

theorem Scoped.reclassifyAll (h : Scoped f anc done pending w) :
    ∃ w', pending.foldlM Walk.reclassify w = .ok w' ∧ w'.func = w.func ∧
      (∀ j, (Assoc.get? w'.classes j).isSome = (Assoc.get? w.classes j).isSome) ∧
      Scoped f anc done [] w' := by
  induction pending generalizing w with
  | nil => exact ⟨w, rfl, rfl, fun _ => rfl, h⟩
  | cons i pending ih =>
    obtain ⟨w₁, hrun, hfunc, hsome, hs⟩ := h.reclassify
    obtain ⟨w₂, hruns, hfunc₂, hsome₂, hs₂⟩ := ih hs
    exact ⟨w₂, by simp only [List.foldlM_cons, hrun, ok_bind, hruns], hfunc₂.trans hfunc,
      fun j => (hsome₂ j).trans (hsome j), hs₂⟩

theorem Scoped.linked (h : Scoped f anc done [] w) (hi : Assoc.get? w.classes i = some key) :
    w.func.InClass i key ∧ ∃ c, w.func.home? i = some c := by
  obtain ⟨key', hkey', hsame⟩ := h.classed i key hi
  obtain rfl := hsame (by simp)
  obtain ⟨srcs, v, width, hm⟩ := hkey'
  exact ⟨⟨srcs, v, width, hm⟩, hm.linked⟩

theorem Scoped.skip (h : Scoped f anc done pending w) : Scoped f anc (done ++ [i]) pending w :=
  ⟨h.tidy, h.verified, h.flow, h.paired, h.classed,
    fun j k hj => (h.standing j k hj).imp_left fun hm => by simp [hm], h.linear⟩

/-- The entries of one class are tried in turn. -/
theorem mergeInto_ok {g : Function} {stack : List Entry} (hg : g.Tidy) (hv : g.Verified)
    (hlimit : limit ≤ 4) (hi : g.InClass i key)
    (hstack : ∀ e ∈ stack, g.InClass e.instr key ∧ e.instr ≠ i) :
    ∃ refused hit, mergeInto g i limit stack = .ok (refused, hit) ∧
      (hit = none → ∀ e ∈ stack, limit < g.width e.instr + g.width i) ∧
      ∀ h, hit = some h → ∃ above e below va vb x, stack = above ++ e :: below ∧
        h.candidate = e.instr ∧ h.stack = above ++ { e with instr := h.merged.instr } :: below ∧
        g.merge? e.instr i limit = .ok (some (h.merged, h.func)) ∧
        g.Fuses e.instr i key h.merged va vb x h.func := by
  induction stack with
  | nil => exact ⟨0, none, rfl, by simp, by simp⟩
  | cons e below ih =>
    obtain ⟨hclass, hne⟩ := hstack e (by simp)
    rcases Function.merge_ok hg hv hclass hi hne hlimit with
      ⟨hnone, hwide⟩ | ⟨_, _, va, vb, _, _, W, _, _, r, _, k, hsome, hfusion, -⟩
    · obtain ⟨refused, hit, hrun, hmiss, hhit⟩ := ih fun e' he' => hstack e' (by simp [he'])
      refine ⟨refused + 1, hit.map fun h => { h with stack := e :: h.stack }, ?_, fun hh => ?_,
        fun h hh => ?_⟩
      · simp only [mergeInto, hnone, ok_bind, hrun]
        rfl
      · rw [List.forall_mem_cons]
        exact ⟨hwide, hmiss (by simpa using hh)⟩
      · obtain ⟨h', hh', rfl⟩ := Option.map_eq_some_iff.mp hh
        obtain ⟨above, e', below', va, vb, x, hs, hc, hs', hm⟩ := hhit h' hh'
        exact ⟨e :: above, e', below', va, vb, x, by simp [hs], hc, by simp [hs'], hm⟩
    · refine ⟨0, some ⟨e.instr, { e with instr := W.instr } :: below,
        ⟨W.instr, r.rewired, r.copies⟩, k⟩, ?_, by simp, fun h hh => ?_⟩
      · simp only [mergeInto, hsome, ok_bind]
        rfl
      · obtain rfl := Option.some.inj hh
        exact ⟨[], e, below, va, vb, W.value, rfl, rfl, rfl, hsome, hfusion.fuses hg⟩

/-- What adding an instruction to the stacks comes to. -/
inductive Adds (limit : Nat) (w : Walk) (i : InstrId) (w' : Walk) : Prop
  | skip : (∀ key, ¬ w.func.InClass i key) → w' = w → Adds limit w i w'
  | push {key : ClassKey} : w.func.InClass i key →
      (∀ p, Assoc.get? w.classes p = some key → limit < w.func.width p + w.func.width i) →
      w.Idles w' →
      (∀ j, (Assoc.get? w'.classes j).isSome ↔ j = i ∨ (Assoc.get? w.classes j).isSome) →
      Adds limit w i w'
  | accept {key : ClassKey} {p : InstrId} {m : Merged} :
      w.func.InClass i key → Assoc.get? w.classes p = some key →
      w.func.merge? p i limit = .ok (some (m, w'.func)) →
      w'.stats.merged = w.stats.merged + 1 → w'.stats.copies = w.stats.copies + m.copies →
      (∀ j, (Assoc.get? w'.classes j).isSome ↔
        j = m.instr ∨ j ≠ p ∧ (Assoc.get? w.classes j).isSome) → Adds limit w i w'

theorem get?_replaced {classes : List (InstrId × ClassKey)} {n p : InstrId} {k : ClassKey}
    (h : Assoc.get? (Assoc.set n key (Assoc.erase p classes)) j = some k) :
    j = n ∧ k = key ∨ j ≠ p ∧ Assoc.get? classes j = some k := by
  rw [Assoc.get?_set, Assoc.get?_erase] at h
  split at h
  · rename_i hjn
    exact .inl ⟨hjn, (Option.some.inj h).symm⟩
  · split at h
    · cases h
    · rename_i hjp
      exact .inr ⟨hjp, h⟩

/-- Where the walk is: `done` of `b` is done, and `anc` are the blocks above `b`. -/
structure Scoped.At (h : Scoped f anc done [] w) (b : BlockId) (i : InstrId)
    (rest : List InstrId) : Prop where
  reachable : f.blocks.Reachable b
  above : ∀ p, p ∈ anc ↔ f.blocks.StrictlyDominates p b
  block : w.func.blockInstrs b = done ++ i :: rest

namespace Scoped.At

variable {h : Scoped f anc done [] w}

theorem reachable' (ha : h.At b i rest) : w.func.blocks.Reachable b := ha.reachable.congr h.flow

theorem before_iff (ha : h.At b i rest) :
    w.func.Before j b done ↔ w.func.Passed (· ∈ anc) done j := by
  refine or_congr_right (exists_congr fun c => ?_)
  rw [and_comm]
  refine and_congr_left fun _ => ⟨fun hd => ?_, fun hc => ?_⟩
  · exact (ha.above c).mpr (hd.congr fun b => (h.flow b).symm)
  · exact ((ha.above c).mp hc).congr h.flow

theorem before_of_stacked (ha : h.At b i rest) (hj : Assoc.get? w.classes j = some key) :
    w.func.Before j b done := ha.before_iff.mpr (h.standing j key hj)

theorem precedes_of_stacked (ha : h.At b i rest) (hj : Assoc.get? w.classes j = some key) :
    w.func.Precedes j i := ⟨b, done, rest, ha.reachable', ha.block, ha.before_of_stacked hj⟩

theorem unstacked (ha : h.At b i rest) : Assoc.get? w.classes i = none := by
  cases hi : Assoc.get? w.classes i with
  | none => rfl
  | some key =>
    exact absurd (ha.before_of_stacked hi) (Function.not_before_self h.tidy.linked.placed ha.block)

theorem push (ha : h.At b i rest) (hclass : w.func.InClass i key) :
    Scoped f anc (done ++ [i]) [] (w.push key i) := by
  have hget : ∀ j, Assoc.get? (w.push key i).classes j =
      if j = i then some key else Assoc.get? w.classes j := fun j => Assoc.get?_set ..
  have hlatest : ∀ x, w.Stacked x → x.seq < w.nextSeq := h.linear.bound
  have hstack : ∀ k, (w.push key i).stackOf k =
      if k = key then insertBySeq ⟨i, w.nextSeq⟩ (w.stackOf key) else w.stackOf k := by
    intro k
    rw [insertBySeq_latest fun x hx => hlatest x ⟨key, hx⟩]
    exact stackOf_set rfl k
  have hlinear : (w.push key i).Linear := by
    refine h.linear.insert hstack rfl (Nat.le_succ _) (Nat.lt_succ_self _)
      (fun x hx => (hlatest x hx).ne) (fun x hx _ => ?_) fun x hx hlt => ?_
    · obtain ⟨k, hk⟩ := hx
      exact ha.precedes_of_stacked (h.get?_of_mem hk)
    · exact absurd hlt (hlatest x hx).not_gt
  refine ⟨h.tidy, h.verified, h.flow, h.paired.insert (e := ⟨i, w.nextSeq⟩) ha.unstacked (.refl _),
    fun j k hj => ?_, fun j k hj => ?_, hlinear⟩
  · rw [hget] at hj
    split at hj
    · rename_i hji
      obtain rfl := Option.some.inj hj
      exact ⟨key, hji ▸ hclass, fun _ => rfl⟩
    · exact h.classed j k hj
  · rw [hget] at hj
    split at hj
    · rename_i hji
      exact .inl (by simp [hji])
    · exact (h.standing j k hj).imp_left fun hm => by simp [hm]

theorem accept (ha : h.At b i rest) {hit : Hit} {above below : List Entry} {va vb x : ValueId}
    (hs : w.stackOf key = above ++ e :: below) (hc : hit.candidate = e.instr)
    (hstack : hit.stack = above ++ { e with instr := hit.merged.instr } :: below)
    (hm : w.func.Fuses e.instr i key hit.merged va vb x hit.func) :
    ∃ w' done', w.accept key hit = .ok w' ∧ w'.func = hit.func ∧
      w'.stats.merged = w.stats.merged + 1 ∧ w'.stats.copies = w.stats.copies + hit.merged.copies ∧
      w'.func.blockInstrs b = done' ++ rest ∧
      (∀ j, (Assoc.get? w'.classes j).isSome ↔
        j = hit.merged.instr ∨ j ≠ e.instr ∧ (Assoc.get? w.classes j).isSome) ∧
      Scoped f anc done' [] w' := by
  have hp := h.tidy.linked.placed
  have hmem : e ∈ w.stackOf key := by simp [hs]
  have he := h.get?_of_mem hmem
  have heclass := (h.linked he).1
  have hi := ha.unstacked
  obtain ⟨done', hblock, hpassed⟩ := hm.split hp heclass ha.block (ha.before_of_stacked he)
  have hfresh : Assoc.get? w.classes hit.merged.instr = none := by
    cases hget : Assoc.get? w.classes hit.merged.instr with
    | none => rfl
    | some k =>
      obtain ⟨-, c, hhome⟩ := h.linked hget
      exact absurd hhome (hm.fresh c)
  have hget : ∀ j k, Assoc.get? (Assoc.set hit.merged.instr key
      (Assoc.erase e.instr w.classes)) j = some k →
      j = hit.merged.instr ∧ k = key ∨ j ≠ e.instr ∧ j ≠ i ∧ Assoc.get? w.classes j = some k := by
    intro j k hj
    rcases get?_replaced hj with hwide | ⟨hje, hj⟩
    · exact .inl hwide
    · refine .inr ⟨hje, ?_, hj⟩
      rintro rfl
      simp [hi] at hj
  let w₁ : Walk := { w with
    func := hit.func
    groups := Assoc.set key hit.stack w.groups
    classes := Assoc.set hit.merged.instr key (Assoc.erase hit.candidate w.classes)
    stats := { w.stats with
      merged := w.stats.merged + 1
      copies := w.stats.copies + hit.merged.copies }
    progress := true }
  have hlinear : w₁.Linear := by
    have hseq : ∀ x, (Entry.heir hit.merged e.instr x).seq = x.seq := fun _ => rfl
    have hgroups : w₁.groups =
        Assoc.set key (above ++ { e with instr := hit.merged.instr } :: below) w.groups := by
      simp only [w₁, hstack]
    refine h.linear.map hseq (h.stackOf_heir hs hgroups) rfl fun x y hx hy hxy => ?_
    have hne : ∀ x, w.Stacked x → x.instr ≠ i := by
      rintro x ⟨k, hk⟩ rfl
      simp [h.get?_of_mem hk] at hi
    exact hm.precedes_heir hp (hne x hx) (hne y hy) hxy
  have hscoped : Scoped f anc done' hit.merged.rewired w₁ := by
    have hpaired : Stacks w₁.groups w₁.classes := by
      let e' : Entry := { e with instr := hit.merged.instr }
      have hfresh' : Assoc.get? w.classes e'.instr = none := hfresh
      simp only [w₁, hc, hstack]
      exact h.paired.replace hs hfresh'
    refine ⟨hm.tidy, hm.verified, fun c => (hm.flow c).trans (h.flow c), hpaired,
      fun j k hj => ?_, fun j k hj => ?_, hlinear⟩
    · simp only [w₁, hc] at hj
      rcases hget j k hj with ⟨rfl, rfl⟩ | ⟨hje, hji, hj⟩
      · exact ⟨_, hm.wide, hm.settled⟩
      · have hold := (h.linked hj).1
        exact ⟨_, (hm.kept j k hold hje hji).1, fun hnot => hm.unturned j k hold hnot⟩
    · simp only [w₁, hc] at hj
      rcases hget j k hj with ⟨rfl, rfl⟩ | ⟨hje, hji, hj⟩
      · exact (hpassed _).2.1 (h.standing e.instr k he)
      · exact (hpassed _).1 j (h.standing j k hj) hje hji
  obtain ⟨w', hrun, hfunc, hsome, hw'⟩ := hscoped.reclassifyAll
  have hidle := idles_of_foldlM (fun _ _ _ => idles_of_reclassify) hrun
  refine ⟨w', done', hrun, hfunc, hidle.merged, hidle.copies, by rw [hfunc]; exact hblock,
    fun j => ?_, hw'⟩
  rw [hsome]
  simp only [w₁, hc, Assoc.get?_set, Assoc.get?_erase]
  by_cases hjm : j = hit.merged.instr
  · simp [hjm]
  · by_cases hje : j = e.instr <;> simp [hjm, hje]

theorem add (ha : h.At b i rest) (hlimit : limit ≤ 4) :
    ∃ w' done', w.add limit i = .ok w' ∧ w'.func.blockInstrs b = done' ++ rest ∧
      Scoped f anc done' [] w' ∧ Adds limit w i w' := by
  have hhome : w.func.home? i = some b := h.tidy.linked.placed.mem_iff.mp (by simp [ha.block])
  obtain ⟨k, hclass, hk⟩ := Function.classOf_ok h.tidy.linked.defined hhome
  cases k with
  | none =>
    have hnone : ∀ key, ¬ w.func.InClass i key := fun key hi =>
      absurd ((hk key).mpr hi) (by simp)
    refine ⟨w, done ++ [i], ?_, by simp [ha.block], h.skip, .skip hnone rfl⟩
    simp only [Walk.add, hclass, ok_bind]
    rfl
  | some key =>
    have hin : w.func.InClass i key := (hk key).mp rfl
    have hentries : ∀ e ∈ w.stackOf key, w.func.InClass e.instr key ∧ e.instr ≠ i := by
      intro e he
      have hget := h.get?_of_mem he
      refine ⟨(h.linked hget).1, ?_⟩
      rintro rfl
      simp [ha.unstacked] at hget
    obtain ⟨refused, hit, hrun, hmiss, hhit⟩ :=
      mergeInto_ok h.tidy h.verified hlimit hin hentries
    have hcount : Scoped f anc done [] { w with
        stats := { w.stats with tooWide := w.stats.tooWide + refused } } :=
      ⟨h.tidy, h.verified, h.flow, h.paired, h.classed, h.standing,
        h.linear.thin (fun _ => .refl _) rfl rfl⟩
    have hat : hcount.At b i rest := ⟨ha.reachable, ha.above, ha.block⟩
    cases hit with
    | none =>
      refine ⟨_, done ++ [i], ?_, ?_, hat.push hin,
        .push hin (fun p hp => ?_) ⟨rfl, rfl, rfl, rfl⟩ fun j => ?_⟩
      · simp only [Walk.add, hclass, ok_bind, hrun]
        rfl
      · simp [Walk.push, ha.block]
      · obtain ⟨e, he, rfl⟩ := List.mem_map.mp ((h.paired.mem_stackOf p key).mp hp)
        exact hmiss rfl e he
      · simp only [Walk.push, Assoc.get?_set]
        by_cases hji : j = i <;> simp [hji]
    | some hit =>
      obtain ⟨above, e, below, va, vb, x, hs, hc, hs', hmerge, hm⟩ := hhit hit rfl
      obtain ⟨w', done', haccept, hfunc, hmerged, hcopies, hblock, hsome, hw'⟩ :=
        hat.accept hs hc hs' hm
      have he : Assoc.get? w.classes e.instr = some key := h.get?_of_mem (by simp [hs])
      refine ⟨w', done', ?_, hblock, hw', .accept hin he (hfunc ▸ hmerge) hmerged hcopies hsome⟩
      simp only [Walk.add, hclass, ok_bind, hrun]
      exact haccept

end Scoped.At

end Walk

end ShaderSSA
