import ShaderSSA.Proofs.Takeover
import ShaderSSA.Proofs.Visiting
import ShaderSSA.Proofs.Walking

/-! What merging conserves. A merge puts one instruction in place of two and adds copies, so lanes
stay and the counters tell exactly how many instructions there are less and how many moves more. -/

namespace ShaderSSA

/-- The same instruction but for what it reads. -/
inductive Body.Alike : Body → Body → Prop
  | alu {al al' : Alu} : al'.op = al.op → al'.srcs.length = al.srcs.length →
      Alike (.alu al) (.alu al')
  | other {body : Body} (ρ : Nat → ValueId → ValueId) : body.alu? = none →
      Alike body (body.mapSrcs ρ)

namespace Body.Alike

variable {body body' body'' : Body}

theorem refl (body : Body) : body.Alike body := by
  cases halu : body.alu? with
  | none =>
    have h := Alike.other (fun _ v => v) halu
    rwa [mapSrcs_id] at h
  | some al =>
    cases body <;> cases halu
    exact .alu rfl rfl

theorem trans (h : body.Alike body') (h' : body'.Alike body'') : body.Alike body'' := by
  cases h with
  | @alu al al' hop hlen =>
    generalize hb : Body.alu al' = b at h'
    cases h' with
    | alu hop' hlen' =>
      cases hb
      exact .alu (hop'.trans hop) (hlen'.trans hlen)
    | other ρ hnone =>
      subst hb
      cases hnone
  | other ρ hnone =>
    generalize hb : body.mapSrcs ρ = b at h'
    have hnone' : b.alu? = none := hb ▸ (alu?_mapSrcs_of_none hnone).trans hnone
    cases h' with
    | alu => cases hnone'
    | other ρ' _ =>
      rw [← hb, mapSrcs_mapSrcs]
      exact .other _ hnone

theorem op (h : body.Alike body') : body'.alu?.map (·.op) = body.alu?.map (·.op) := by
  cases h with
  | alu hop _ => simp [alu?, hop]
  | other ρ hnone => rw [alu?_mapSrcs_of_none hnone, hnone]

end Body.Alike

namespace Function

variable {f g : Function} {i j a b : InstrId} {key : ClassKey} {c : BlockId} {op : AluOp}
  {bits limit merged copies : Nat}

/-- Opcode and bit size of an instruction that can be merged. -/
def sort? (f : Function) (i : InstrId) : Option (AluOp × Nat) :=
  (f.classOf i).toOption.join.map fun key => (key.op, key.bits)

def mergeable (f : Function) : List InstrId := f.liveInstrs.filter fun i => (f.sort? i).isSome

/-- The lanes that are computed with an opcode at a bit size. -/
def lanes (f : Function) (op : AluOp) (bits : Nat) : Nat :=
  ((f.liveInstrs.filter fun i => f.sort? i == some (op, bits)).map f.width).sum

def isMove (f : Function) (i : InstrId) : Bool := (f.alu? i).any (·.op.isMove)

def moves (f : Function) : List InstrId := f.liveInstrs.filter f.isMove

/-- What is in a block beside moves and what can be merged. -/
def others (f : Function) (b : BlockId) : List InstrId :=
  (f.blockInstrs b).filter fun i => !(f.sort? i).isSome && !f.isMove i

/-- What `merged` merges that made `copies` copies leave of `f`. -/
structure Conserves (limit merged copies : Nat) (f g : Function) : Prop where
  lanes : ∀ op bits, g.lanes op bits = f.lanes op bits
  mergeable : g.mergeable.length + merged = f.mergeable.length
  moves : g.moves.length = f.moves.length + copies
  others : ∀ b, g.others b = f.others b
  alike : ∀ b, ∀ i ∈ f.others b, g.dest? i = f.dest? i ∧ ∀ body, f.body? i = some body →
    ∃ body', g.body? i = some body' ∧ body.Alike body'
  live : g.liveInstrs.length + merged = f.liveInstrs.length + copies
  kept : ∀ i body, f.body? i = some body → (g.body? i).isSome ∧ g.width i = f.width i
  created : ∀ i, f.body? i = none → g.width i ≤ limit

theorem width_of_body (h : f.body? i = none) : f.width i = 0 := by
  have hx : f.instrs.get? i = none := by simpa [body?] using h
  simp [width, destShape?, dest?, hx]

namespace Conserves

theorem trans {k : Function} {merged' copies' : Nat} (h : f.Conserves limit merged copies g)
    (h' : g.Conserves limit merged' copies' k) :
    f.Conserves limit (merged + merged') (copies + copies') k where
  lanes op bits := (h'.lanes op bits).trans (h.lanes op bits)
  mergeable := by
    have hfirst := h.mergeable
    have hsecond := h'.mergeable
    omega
  moves := by
    have hfirst := h.moves
    have hsecond := h'.moves
    omega
  others b := (h'.others b).trans (h.others b)
  alike b i hi := by
    obtain ⟨hdest, hbody⟩ := h.alike b i hi
    obtain ⟨hdest', hbody'⟩ := h'.alike b i ((h.others b).symm ▸ hi)
    refine ⟨hdest'.trans hdest, fun body hb => ?_⟩
    obtain ⟨body', hb', halike⟩ := hbody body hb
    obtain ⟨body'', hb'', halike'⟩ := hbody' body' hb'
    exact ⟨body'', hb'', halike.trans halike'⟩
  live := by
    have hfirst := h.live
    have hsecond := h'.live
    omega
  kept i body hb := by
    obtain ⟨hsome, hwidth⟩ := h.kept i body hb
    obtain ⟨body', hb'⟩ := Option.isSome_iff_exists.mp hsome
    obtain ⟨hsome', hwidth'⟩ := h'.kept i body' hb'
    exact ⟨hsome', hwidth'.trans hwidth⟩
  created i hi := by
    cases hb : g.body? i with
    | none => exact h'.created i hb
    | some body => exact (h'.kept i body hb).2.trans_le (h.created i hi)

end Conserves

theorem SameCode.conserves (h : f.SameCode g) : f.Conserves limit 0 0 g := by
  have hsort : g.sort? = f.sort? := by
    funext i
    simp only [sort?, classOf, canMerge, instr, value, h.instrs, h.values]
  have hmove : g.isMove = f.isMove := by
    funext i
    simp only [isMove, alu?, h.body]
  have hwidth : g.width = f.width := by
    funext i
    simp only [width, destShape?, h.reshaped.dest, h.reshaped.shape]
  have hblock : g.blockInstrs = f.blockInstrs := by
    funext b
    simp only [blockInstrs, h.blocks]
  have hlive : g.liveInstrs = f.liveInstrs := by
    simp only [liveInstrs, layout, hblock, h.blocks]
  refine ⟨fun op bits => ?_, ?_, ?_, fun b => ?_, fun b i hi => ?_, by rw [hlive],
    fun i body hb => ?_, fun i hi => ?_⟩
  · simp only [lanes, hlive, hsort, hwidth]
  · simp only [mergeable, hlive, hsort, Nat.add_zero]
  · simp only [moves, hlive, hmove, Nat.add_zero]
  · simp only [others, hblock, hsort, hmove]
  · exact ⟨congrFun h.reshaped.dest i, fun body hb => ⟨body, by rw [h.body, hb], .refl body⟩⟩
  · rw [h.body, hb, hwidth]
    exact ⟨rfl, rfl⟩
  · rw [hwidth, width_of_body hi]
    exact Nat.zero_le limit

end Function

namespace Rewiring

variable {W : Wide} {h : Half} {r r' : Rewiring} {j : InstrId}

theorem Step.length_trail (hs : Step W h r r') :
    r'.copies + r.trail.length = r.copies + r'.trail.length := by
  cases hs with
  | copy hnone => simp [trail, hnone]
  | alu => rfl
  | other => rfl
  | branch => rfl

theorem Step.trail_subset (hs : Step W h r r') : r.trail ⊆ r'.trail := by
  cases hs with
  | copy hnone => simp [trail, hnone]
  | alu => exact List.Subset.refl _
  | other => exact List.Subset.refl _
  | branch => exact List.Subset.refl _

theorem Step.body_unknown (hs : Step W h r r') (hj : r.func.body? j = none)
    (hnot : j ∉ r'.trail) : r'.func.body? j = none := by
  cases hs with
  | alu _ hbody _ _ hg => rw [hg.body, if_neg (by rintro rfl; simp [hbody] at hj), hj]
  | other _ _ hbody _ hg => rw [hg.body, if_neg (by rintro rfl; simp [hbody] at hj), hj]
  | branch _ _ hg => rw [hg.body, hj]
  | copy hnone happ => rw [happ.body, if_neg (by simpa [trail] using hnot), hj]

theorem Steps.body_unknown (hs : Steps W h r r') (hj : r.func.body? j = none)
    (hnot : j ∉ r'.trail) : r'.func.body? j = none := by
  induction hs with
  | refl => exact hj
  | tail _ hstep ih =>
    exact hstep.body_unknown (ih fun hmem => hnot (hstep.trail_subset hmem)) hnot

theorem Steps.length_trail (hs : Steps W h r r') :
    r'.copies + r.trail.length = r.copies + r'.trail.length := by
  induction hs with
  | refl => rfl
  | tail _ hstep ih =>
    have hone := hstep.length_trail
    omega

end Rewiring

namespace Function

variable {f g f₁ f₂ : Function} {a b i j : InstrId} {key : ClassKey} {srcsA srcsB : List Operand}
  {va vb : ValueId} {widthA widthB limit : Nat} {W : Wide} {mid r : Rewiring} {c : BlockId}

/-- What is linked beside two instructions. -/
def besides (f : Function) (a b : InstrId) : List InstrId :=
  f.liveInstrs.filter fun j => j != a && j != b

theorem Placed.mem_besides (hf : f.Placed) :
    j ∈ f.besides a b ↔ (∃ c, f.home? j = some c) ∧ j ≠ a ∧ j ≠ b := by
  simp [besides, hf.mem_liveInstrs]

theorem sort?_eq_some (hf : f.Defined) (hi : f.home? i = some c) {p : AluOp × Nat} :
    f.sort? i = some p ↔ ∃ key, f.InClass i key ∧ (key.op, key.bits) = p := by
  obtain ⟨k, hk, hclass⟩ := classOf_ok hf hi
  simp [sort?, hk, Except.toOption, hclass]

theorem InClass.not_isMove (h : f.InClass i key) : f.isMove i = false := by
  obtain ⟨srcs, v, width, hm⟩ := h
  simp [isMove, alu?, hm.body, Body.alu?, hm.notMove]

theorem Placed.perm_besides {A B : BlockId} (hf : f.Placed) (hab : a ≠ b) (ha : f.home? a = some A)
    (hb : f.home? b = some B) : f.liveInstrs.Perm ([a, b] ++ f.besides a b) := by
  refine (List.perm_ext_iff_of_nodup hf.nodup_liveInstrs ?_).mpr fun j => ?_
  · have hnd : (f.besides a b).Nodup := hf.nodup_liveInstrs.filter _
    simp [hnd, hab, hf.mem_besides]
  · rw [hf.mem_liveInstrs, List.mem_append, hf.mem_besides]
    by_cases hja : j = a
    · simp [hja, ha]
    · by_cases hjb : j = b
      · simp [hjb, hb]
      · simp [hja, hjb]

namespace Fusion

variable (h : f.Fusion a b key srcsA srcsB va vb widthA widthB W f₁ mid r f₂ g)
include h

theorem copies_eq : r.copies = (mid.trail ++ r.trail).length := by
  have hfirst := h.turns.first.length_trail
  have hsecond := h.turns.second.length_trail
  simp only [Rewiring.trail, Option.isSome_none, Bool.false_eq_true, if_false,
    List.length_nil, Nat.add_zero, Nat.zero_add] at hfirst hsecond
  simp only [List.length_append, Rewiring.trail]
  omega

theorem body_unknown (hj : f.body? j = none)
    (hnot : j ∉ W.instr :: (mid.trail ++ r.trail)) : g.body? j = none := by
  simp only [List.mem_cons, List.mem_append, not_or] at hnot
  have hfirst : f₁.body? j = none := by rw [h.widens.appended.body, if_neg hnot.1, hj]
  have hmid := h.turns.first.body_unknown hfirst hnot.2.1
  rw [(shed_of_remove h.removeSecond).body, (shed_of_remove h.removeFirst).body]
  exact h.turns.second.body_unknown hmid hnot.2.2

theorem body_known {body : Body} (hf : f.Defined) (hb : f.body? j = some body) :
    (g.body? j).isSome ∧ g.dest? j = f.dest? j ∧ g.width j = f.width j := by
  obtain ⟨hA, hB⟩ := h.forwarded
  have happ := h.widens.appended
  have hne : j ≠ W.instr := by
    rintro rfl
    simp [h.body_new (List.mem_cons_self ..)] at hb
  have hb₁ : f₁.body? j = some body := by rw [happ.body, if_neg hne, hb]
  obtain ⟨body', hb', -⟩ := hA.body j body hb₁
  obtain ⟨body'', hb'', -⟩ := hB.body j body' hb'
  have hbody : g.body? j = some body'' := by
    rw [(shed_of_remove h.removeSecond).body, (shed_of_remove h.removeFirst).body, hb'']
  refine ⟨by simp [hbody], ?_⟩
  have hdest : g.dest? j = f.dest? j := by
    rw [h.without.dest, hB.dest j _ hb', hA.dest j _ hb₁, happ.dest, if_neg hne]
  refine ⟨hdest, ?_⟩
  cases hd : f.dest? j with
  | none => simp [width, destShape?, hdest, hd]
  | some v =>
    obtain ⟨z, hz, -⟩ := Option.map_eq_some_iff.mp ((hf.iff j v).mp hd)
    have hshape : f.shape? v = some z.shape := by simp [shape?, hz]
    simp only [width, destShape?, hdest, hd, Option.bind_some]
    rw [hshape, h.shape_eq (happ.shape_old hshape)]

theorem nodup_new (hf : f.Placed) : (W.instr :: (mid.trail ++ r.trail)).Nodup := by
  obtain ⟨A, hA⟩ := h.first.linked
  have hnd := h.without.tidy.linked.placed.nodup A
  rw [h.blocks_eq hf, List.nodup_flatMap] at hnd
  have hnew := hnd.1 a (hf.mem_iff.mpr hA)
  rwa [if_pos rfl] at hnew

theorem home_iff (hf : f.Placed) : (∃ c, g.home? j = some c) ↔
    j ∈ W.instr :: (mid.trail ++ r.trail) ∨ (∃ c, f.home? j = some c) ∧ j ≠ a ∧ j ≠ b := by
  have hg := h.without.tidy.linked.placed
  simp only [← hg.mem_iff, ← hf.mem_iff, h.blocks_eq hf, List.mem_flatMap]
  constructor
  · rintro ⟨c, k, hk, hj⟩
    split_ifs at hj with hka hkb
    · exact .inl hj
    · simp at hj
    · obtain rfl := List.mem_singleton.mp hj
      exact .inr ⟨⟨c, hk⟩, hka, hkb⟩
  · rintro (hnew | ⟨⟨c, hc⟩, hja, hjb⟩)
    · obtain ⟨A, hA⟩ := h.first.linked
      exact ⟨A, a, hf.mem_iff.mpr hA, by rwa [if_pos rfl]⟩
    · exact ⟨c, j, hc, by simp [hja, hjb]⟩

/-- Beside what was there stand the wide instruction and the copies. -/
theorem perm_live (hf : f.Placed) :
    g.liveInstrs.Perm (W.instr :: (mid.trail ++ r.trail) ++ f.besides a b) := by
  have hg := h.without.tidy.linked.placed
  refine (List.perm_ext_iff_of_nodup hg.nodup_liveInstrs ?_).mpr fun j => ?_
  · refine (h.nodup_new hf).append (hf.nodup_liveInstrs.filter _) fun j hnew hold => ?_
    obtain ⟨⟨c, hc⟩, -⟩ := hf.mem_besides.mp hold
    exact h.not_home hnew c hc
  · rw [hg.mem_liveInstrs, h.home_iff hf, List.mem_append, hf.mem_besides]

theorem alike (hf : f.Tidy) (hv : f.Verified) {body : Body} (hj : f.home? j = some c)
    (hja : j ≠ a) (hjb : j ≠ b) (hb : f.body? j = some body) :
    ∃ body', g.body? j = some body' ∧ body.Alike body' := by
  cases halu : body.alu? with
  | none => exact ⟨_, (h.other_eq hf hj hb halu).1, .other _ halu⟩
  | some al =>
    obtain rfl : body = .alu al := by cases body <;> simp_all [Body.alu?]
    obtain ⟨al', hb', hop, hlen, -⟩ := h.lanes_eq hf hv hj hb hja hjb
    exact ⟨_, hb', .alu hop hlen⟩

theorem sort_old (hf : f.Tidy) (hj : f.home? j = some c) (hja : j ≠ a) (hjb : j ≠ b) :
    g.sort? j = f.sort? j := by
  have hfuses := h.fuses hf
  have hhome := hfuses.home hf.linked.placed hj hja hjb
  refine Option.ext fun p => ?_
  rw [sort?_eq_some hfuses.tidy.linked.defined hhome, sort?_eq_some hf.linked.defined hj]
  constructor
  · rintro ⟨key', hkey', hp⟩
    rcases hfuses.inClass_cases hkey' with ⟨rfl, -⟩ | ⟨-, -, -, key'', hkey'', rfl, -⟩
    · exact absurd hj (hfuses.fresh c)
    · exact ⟨key'', hkey'', hp⟩
  · rintro ⟨key', hkey', hp⟩
    exact ⟨_, (hfuses.kept j key' hkey' hja hjb).1, hp⟩

theorem isMove_old (hf : f.Tidy) (hv : f.Verified) (hj : f.home? j = some c) (hja : j ≠ a)
    (hjb : j ≠ b) : g.isMove j = f.isMove j := by
  obtain ⟨body, hb⟩ := exists_body hj
  obtain ⟨body', hb', halike⟩ := h.alike hf hv hj hja hjb hb
  have hany : ∀ o : Option Alu, o.any (·.op.isMove) = (o.map (·.op)).any (·.isMove) := by
    rintro (_ | _) <;> rfl
  rw [isMove, isMove, alu?, alu?, hb, hb', Option.bind_some, Option.bind_some, hany, hany,
    halike.op]

theorem sort_pair (hf : f.Tidy) : f.sort? a = some (key.op, key.bits) ∧
    f.sort? b = some (key.op, key.bits) ∧ g.sort? W.instr = some (key.op, key.bits) := by
  have hdef := hf.linked.defined
  have hfuses := h.fuses hf
  obtain ⟨A, hA⟩ := h.first.linked
  obtain ⟨B, hB⟩ := h.second.linked
  have hW := hfuses.home_wide hf.linked.placed hA
  exact ⟨(sort?_eq_some hdef hA).mpr ⟨key, ⟨_, _, _, h.first⟩, rfl⟩,
    (sort?_eq_some hdef hB).mpr ⟨key, ⟨_, _, _, h.second⟩, rfl⟩,
    (sort?_eq_some hfuses.tidy.linked.defined hW).mpr ⟨_, hfuses.wide, rfl⟩⟩

theorem copies_move (hf : f.Tidy) (hj : j ∈ mid.trail ++ r.trail) :
    g.isMove j = true ∧ g.sort? j = none ∧ g.width j ≤ f.width a + f.width b := by
  have hdef := h.without.tidy.linked.defined
  obtain ⟨c, hc⟩ := (h.home_iff hf.linked.placed).mpr (.inl (List.mem_cons_of_mem W.instr hj))
  obtain ⟨k, v, hcopies, hk⟩ : ∃ (k : Half) (v : ValueId), W.Copies g k j v ∧
      k.width ≤ f.width a + f.width b := by
    rw [h.first.width_eq, h.second.width_eq]
    rcases List.mem_append.mp hj with hj | hj
    · exact ⟨_, _, h.copies_first hj, Nat.le_add_right ..⟩
    · exact ⟨_, _, h.copies_second hj, Nat.le_add_left ..⟩
  obtain ⟨o, hbody, -⟩ := hcopies.body
  refine ⟨by simp [isMove, alu?, hbody, Body.alu?, AluOp.isMove], ?_, ?_⟩
  · refine Option.eq_none_iff_forall_ne_some.mpr fun p hp => ?_
    obtain ⟨key', ⟨srcs, v', width, hm⟩, -⟩ := (sort?_eq_some hdef hc).mp hp
    have hop := hm.notMove
    have hsame := Option.some.inj (hbody.symm.trans hm.body)
    rw [Body.alu.injEq, Alu.mk.injEq] at hsame
    simp [← hsame.1, AluOp.isMove] at hop
  · simpa [width, destShape?, hcopies.dest, hcopies.shape] using hk

theorem perm_filter (hf : f.Placed) {p q : InstrId → Bool}
    (hold : ∀ j c, f.home? j = some c → j ≠ a → j ≠ b → q j = p j) :
    ∃ rest, (∀ j ∈ rest, ∃ c, f.home? j = some c) ∧
      (f.liveInstrs.filter p).Perm ([a, b].filter p ++ rest) ∧
      (g.liveInstrs.filter q).Perm ((W.instr :: (mid.trail ++ r.trail)).filter q ++ rest) := by
  obtain ⟨A, hA⟩ := h.first.linked
  obtain ⟨B, hB⟩ := h.second.linked
  have hmem : ∀ j ∈ f.besides a b, (∃ c, f.home? j = some c) ∧ q j = p j := by
    intro j hj
    obtain ⟨⟨c, hc⟩, hja, hjb⟩ := hf.mem_besides.mp hj
    exact ⟨⟨c, hc⟩, hold j c hc hja hjb⟩
  refine ⟨(f.besides a b).filter p, fun j hj => (hmem j (List.mem_of_mem_filter hj)).1, ?_, ?_⟩
  · have hperm := (hf.perm_besides h.apart hA hB).filter p
    rwa [List.filter_append] at hperm
  · have hperm := (h.perm_live hf).filter q
    rwa [List.filter_append, List.filter_congr fun j hj => (hmem j hj).2] at hperm

theorem lanes_conserved (hf : f.Tidy) (op : AluOp) (bits : Nat) :
    g.lanes op bits = f.lanes op bits := by
  have hfuses := h.fuses hf
  obtain ⟨hsortA, hsortB, hsortW⟩ := h.sort_pair hf
  obtain ⟨rest, hrest, hpermf, hpermg⟩ := h.perm_filter hf.linked.placed
    (p := fun i => f.sort? i == some (op, bits)) (q := fun i => g.sort? i == some (op, bits))
    fun j c hj hja hjb => by rw [h.sort_old hf hj hja hjb]
  have hnone : (mid.trail ++ r.trail).filter (fun i => g.sort? i == some (op, bits)) = [] :=
    List.filter_eq_nil_iff.mpr fun j hj => by simp [(h.copies_move hf hj).2.1]
  have hsame : rest.map g.width = rest.map f.width := List.map_congr_left fun j hj => by
    obtain ⟨c, hc⟩ := hrest j hj
    obtain ⟨body, hb⟩ := exists_body hc
    exact (h.body_known hf.linked.defined hb).2.2
  rw [lanes, lanes, (hpermf.map _).sum_eq, (hpermg.map _).sum_eq, List.filter_cons, hnone]
  by_cases hkey : (key.op, key.bits) = (op, bits)
  · have hW := hfuses.width
    simp [hsortA, hsortB, hsortW, hkey, hsame, hW, Nat.add_assoc]
  · simp [hsortA, hsortB, hsortW, hkey, hsame]

theorem others_conserved (hf : f.Tidy) (hv : f.Verified) (c : BlockId) :
    g.others c = f.others c := by
  obtain ⟨hsortA, hsortB, hsortW⟩ := h.sort_pair hf
  have hp := hf.linked.placed
  rw [others, others, h.blocks_eq hp, List.filter_flatMap]
  conv_rhs => rw [← List.flatMap_singleton' (f.blockInstrs c), List.filter_flatMap]
  refine List.flatMap_congr fun j hj => ?_
  by_cases hja : j = a
  · have hnew : (mid.trail ++ r.trail).filter (fun i => !(g.sort? i).isSome && !g.isMove i) = [] :=
      List.filter_eq_nil_iff.mpr fun n hn => by simp [(h.copies_move hf hn).1]
    rw [if_pos hja, List.filter_cons, hnew]
    simp [hja, hsortA, hsortW]
  · by_cases hjb : j = b
    · simp [hjb, hsortB, Ne.symm h.apart]
    · have hc := hp.mem_iff.mp hj
      simp [hja, hjb, List.filter_cons, h.sort_old hf hc hja hjb, h.isMove_old hf hv hc hja hjb]

theorem conserves (hf : f.Tidy) (hv : f.Verified) (hle : f.width a + f.width b ≤ limit) :
    f.Conserves limit 1 r.copies g := by
  have hp := hf.linked.placed
  have hfuses := h.fuses hf
  obtain ⟨hsortA, hsortB, hsortW⟩ := h.sort_pair hf
  have hmoveA := InClass.not_isMove ⟨_, _, _, h.first⟩
  have hmoveB := InClass.not_isMove ⟨_, _, _, h.second⟩
  have hmoveW : g.isMove W.instr = false := hfuses.wide.not_isMove
  have hcopies := fun j hj => h.copies_move hf (j := j) hj
  have hkept : ∀ j body, f.body? j = some body →
      (g.body? j).isSome ∧ g.dest? j = f.dest? j ∧ g.width j = f.width j :=
    fun j body hb => h.body_known hf.linked.defined hb
  refine ⟨h.lanes_conserved hf, ?_, ?_, h.others_conserved hf hv, fun c j hj => ?_, ?_,
    fun j body hb => ⟨(hkept j body hb).1, (hkept j body hb).2.2⟩, fun j hj => ?_⟩
  · obtain ⟨rest, -, hpermf, hpermg⟩ := h.perm_filter hp (p := fun i => (f.sort? i).isSome)
      (q := fun i => (g.sort? i).isSome) fun j c hj hja hjb => by rw [h.sort_old hf hj hja hjb]
    have hnone : (mid.trail ++ r.trail).filter (fun i => (g.sort? i).isSome) = [] :=
      List.filter_eq_nil_iff.mpr fun j hj => by simp [(hcopies j hj).2.1]
    rw [mergeable, mergeable, hpermf.length_eq, hpermg.length_eq, List.filter_cons, hnone]
    simp [hsortA, hsortB, hsortW]
  · obtain ⟨rest, -, hpermf, hpermg⟩ := h.perm_filter hp fun j c => h.isMove_old hf hv
    have hall : (mid.trail ++ r.trail).filter g.isMove = mid.trail ++ r.trail :=
      List.filter_eq_self.mpr fun j hj => (hcopies j hj).1
    rw [moves, moves, hpermf.length_eq, hpermg.length_eq, List.filter_cons, hall, h.copies_eq]
    simp [hmoveA, hmoveB, hmoveW]
    omega
  · obtain ⟨hmem, hother⟩ := List.mem_filter.mp hj
    have hhome := hp.mem_iff.mp hmem
    have hja : j ≠ a := by
      rintro rfl
      simp [hsortA] at hother
    have hjb : j ≠ b := by
      rintro rfl
      simp [hsortB] at hother
    obtain ⟨body, hb⟩ := exists_body hhome
    exact ⟨(hkept j body hb).2.1, fun body => h.alike hf hv hhome hja hjb⟩
  · obtain ⟨A, hA⟩ := h.first.linked
    obtain ⟨B, hB⟩ := h.second.linked
    rw [(h.perm_live hp).length_eq, (hp.perm_besides h.apart hA hB).length_eq, h.copies_eq]
    simp only [List.length_append, List.length_cons, List.length_nil]
    omega
  · by_cases hnew : j ∈ W.instr :: (mid.trail ++ r.trail)
    · rcases List.mem_cons.mp hnew with rfl | hcopy
      · exact hfuses.width.trans_le hle
      · exact (hcopies j hcopy).2.2.trans hle
    · rw [width_of_body (h.body_unknown hj hnew)]
      exact Nat.zero_le limit

end Fusion

end Function

namespace Walk

variable {f : Function} {limit : Nat} {anc anc' seen seen' : List BlockId}
  {done rest : List InstrId} {w w' : Walk} {b : BlockId} {i : InstrId}

/-- The walk has counted what it has merged and copied. -/
def Accounts (f : Function) (limit : Nat) (w : Walk) : Prop :=
  f.Conserves limit w.stats.merged w.stats.copies w.func

theorem Accounts.idles (h : w.Accounts f limit) (hi : w.Idles w') : w'.Accounts f limit := by
  rwa [Accounts, hi.func, hi.merged, hi.copies]

theorem Accounts.add {g : Function} (h : w.Accounts f limit) {hs : Scoped g anc done [] w}
    (ha : hs.At b i rest) (hlimit : limit ≤ 4) (hadds : Adds limit w i w') :
    w'.Accounts f limit := by
  cases hadds with
  | skip _ hw => exact hw ▸ h
  | push _ _ hidle _ => exact h.idles hidle
  | @accept key p m hin hp hmerge hmerged hcopies _ =>
    have hne : p ≠ i := by
      rintro rfl
      simp [ha.unstacked] at hp
    rcases Function.merge_ok hs.tidy hs.verified (hs.linked hp).1 hin hne hlimit with
      ⟨hnone, -⟩ | ⟨_, _, _, _, _, _, _, _, _, _, _, _, hagain, hfusion, hle⟩
    · simp [hnone] at hmerge
    · rw [hmerge, Except.ok.injEq, Option.some.injEq, Prod.mk.injEq] at hagain
      obtain ⟨rfl, rfl⟩ := hagain
      rw [Accounts, hmerged, hcopies]
      exact h.trans (hfusion.conserves hs.tidy hs.verified hle)

theorem Accounts.enter {g : Function} (h : w.Accounts f limit) (hs : Scoped g anc [] [] w)
    (hlimit : limit ≤ 4) (hr : g.blocks.Reachable b)
    (habove : ∀ p, p ∈ anc ↔ g.blocks.StrictlyDominates p b) :
    ∃ w', w.enter limit b = .ok w' ∧ Scoped g (b :: anc) [] [] w' ∧ w'.Accounts f limit := by
  have hall : w.func.blockInstrs b = [] ++ (w.func.blockInstrs b ++ []) := by simp
  obtain ⟨w', done', hrun, hb, hs', h'⟩ := adds_ok
    (P := fun done w => Scoped g anc done [] w ∧ w.Accounts f limit)
    (fun hp => hp.1.tidy.linked.placed)
    (fun {done w i rest} hp hb => by
      have ha : hp.1.At b i rest := ⟨hr, habove, hb⟩
      obtain ⟨w', done', hrun, hblock, hscoped, hadds⟩ := ha.add hlimit
      exact ⟨w', done', hrun, hblock, hscoped, hp.2.add ha hlimit hadds⟩) ⟨hs, h⟩ hall
  rw [List.append_nil] at hb
  exact ⟨w', enter_eq.trans hrun, Scoped.open (hb ▸ hs'), h'⟩

theorem Accounts.visits {g : Function} {visits : List DominatorTree.Visit} (hlimit : limit ≤ 4)
    (ht : g.blocks.Tours anc seen visits anc' seen') (hs : Scoped g anc [] [] w)
    (h : w.Accounts f limit) :
    ∃ w', visits.foldlM (Walk.visit limit) w = .ok w' ∧ Scoped g anc' [] [] w' ∧
      w'.Accounts f limit :=
  visits_ok (P := fun anc _ w => Scoped g anc [] [] w ∧ w.Accounts f limit)
    (fun hp hr habove _ => hp.2.enter hp.1 hlimit hr habove)
    (fun hp _ => by
      obtain ⟨w', hrun, hfunc, hstats, -, hs'⟩ := hp.1.leave
      refine ⟨w', hrun, hs', ?_⟩
      rw [Accounts, hfunc, hstats]
      exact hp.2) ht ⟨hs, h⟩

end Walk

namespace Function

variable {f : Function} {limit : Nat}

/-- Merging goes through, and what it has counted is what has changed. -/
theorem mergeAll_conserves (hr : f.Reached) (hcheck : f.check = .ok (.ok ()))
    (hlimit : limit ≤ 4) :
    ∃ changed counts g, f.MergesAll limit changed counts g ∧
      f.Conserves limit counts.merged counts.copies g ∧ (changed = true ↔ 0 < counts.merged) := by
  have hv := verified_of_check hr.linked hcheck
  have hf : f.Tidy := ⟨hr, hv.small hr.linked⟩
  obtain ⟨hf', seen, htours, -⟩ := hf.tours
  have hcode := SameCode.requireDominance f
  have hstart : (Walk.start f.requireDominance.2).Accounts f limit := hcode.conserves
  obtain ⟨w, hrun, hw, hcons⟩ :=
    hstart.visits hlimit htours (Walk.Scoped.start hf' (hcode.verified hv))
  exact ⟨_, _, _, mergesAll_of_tour hrun hw.eq_nil,
    hcons.trans (SameCode.preserve w.func .all).conserves, decide_eq_true_iff⟩

/-- Three sums of one class in two blocks; the first and the last are stored. -/
def ladderEdits : List Edit :=
  [.insert (.stop ⟨0⟩) (.const [3, 5]) (some ⟨2, 32⟩),
    .insert (.stop ⟨0⟩) (.const [0]) (some ⟨1, 32⟩),
    .insert (.stop ⟨0⟩) (.alu ⟨.iadd, [.channel ⟨0⟩ 0, .channel ⟨0⟩ 1]⟩) (some ⟨1, 32⟩),
    .insert (.stop ⟨0⟩) (.alu ⟨.iadd, [.channel ⟨0⟩ 1, .channel ⟨0⟩ 1]⟩) (some ⟨1, 32⟩),
    .insert (.stop ⟨0⟩) (.access ⟨.storeOutput, 1, [⟨2⟩, ⟨1⟩], 0, 0, 1⟩) none,
    .addBlock, .setTerminator ⟨0⟩ (.jump ⟨1⟩),
    .insert (.stop ⟨1⟩) (.alu ⟨.iadd, [.channel ⟨0⟩ 0, .channel ⟨0⟩ 0]⟩) (some ⟨1, 32⟩),
    .insert (.stop ⟨1⟩) (.access ⟨.storeOutput, 1, [⟨4⟩, ⟨1⟩], 0, 1, 1⟩) none]

/-- The second merge takes in what the first has made and turns its copy. Two merges are too many
for totals that have room for one. -/
theorem mergeAll_conserves_ladderEdits :
    (Edit.outcome ladderEdits).Reached ∧ (Edit.outcome ladderEdits).check = .ok (.ok ()) ∧
      (∃ g, (Edit.outcome ladderEdits).mergeAll 3 .zero = .ok (true, ⟨2, 2, 0, 0⟩, g) ∧
        (Edit.outcome ladderEdits).Conserves 3 2 2 g) ∧
      (Edit.outcome ladderEdits).mergeAll 3 ⟨2 ^ 64 - 2, 0, 0, 0⟩ = .error .overflow ∧
      (Edit.outcome ladderEdits).lanes .iadd 32 = 3 := by
  have hreached := Reached.outcome ladderEdits
  have hcheck : (Edit.outcome ladderEdits).check = .ok (.ok ()) := rfl
  obtain ⟨changed, counts, g, hg, hcons, -⟩ :=
    mergeAll_conserves hreached hcheck (show 3 ≤ 4 by decide)
  have hcounts : ((Edit.outcome ladderEdits).mergeWalk 3).toOption.map (fun r => (r.1, r.2.1)) =
      some (true, ⟨2, 2, 0, 0⟩) := by decide +kernel
  obtain ⟨rfl, rfl⟩ : changed = true ∧ counts = ⟨2, 2, 0, 0⟩ := by
    simpa [hg.walk, Except.toOption] using hcounts
  exact ⟨hreached, hcheck, ⟨g, hg.totals .zero, hcons⟩, hg.totals ⟨2 ^ 64 - 2, 0, 0, 0⟩,
    by decide +kernel⟩

end Function

end ShaderSSA
