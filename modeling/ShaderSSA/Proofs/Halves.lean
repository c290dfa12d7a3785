import ShaderSSA.Proofs.LaneWise
import ShaderSSA.Proofs.Rewriting

/-! Halves of a wide result. Where an instruction and a wider one of its kind have both been done,
the value of the first is found in the lanes of the second; so has been all that lines up behind
an instruction that has been done. -/

namespace ShaderSSA

namespace Function

variable {f : Function} {vars : Variables} {io : IoState} {a d t : InstrId} {b c : BlockId}
  {done rest tail : List InstrId} {e : Env} {v : ValueId}

/-- In a block that can be reached, `tail` lines up behind `a`. -/
def Trailed (f : Function) (a : InstrId) (tail : List InstrId) : Prop :=
  ∃ b pre post, f.blocks.Reachable b ∧ f.blockInstrs b = pre ++ a :: (tail ++ post)

theorem mem_of_trailed {pre tail post done rest : List InstrId}
    (h : pre ++ a :: (tail ++ post) = done ++ rest) (hnd : (done ++ rest).Nodup) (ha : a ∈ done)
    (hrest : ∀ t ∈ tail, rest.head? ≠ some t) : ∀ t ∈ tail, t ∈ done := by
  obtain ⟨done', done'', rfl⟩ := List.append_of_mem ha
  have hnot : a ∉ done' := by
    intro hm
    rw [List.append_assoc, List.nodup_append] at hnd
    exact hnd.2.2 a hm a (by simp) rfl
  have hnot' : a ∉ done'' ++ rest := by
    rw [List.append_assoc, List.nodup_append] at hnd
    exact (List.nodup_cons.mp hnd.2.1).1
  have hsame := (List.append_cons_inj_of_notMem hnot hnot').mp
    (show done' ++ a :: (done'' ++ rest) = pre ++ a :: (tail ++ post) by simpa using h.symm)
  obtain ⟨-, -, hback⟩ := hsame
  rcases List.append_eq_append_iff.mp hback with ⟨more, hmore, htail⟩ | ⟨more, hmore, -⟩
  · cases more with
    | nil =>
      intro t ht
      simp only [List.append_nil] at hmore
      simp [← hmore, ht]
    | cons k more =>
      have hk := hrest k (by simp [hmore])
      simp [htail] at hk
  · intro t ht
    simp [hmore, ht]

theorem Trailed.home (hp : f.Placed) (h : f.Trailed a tail) :
    ∃ b, f.blocks.Reachable b ∧ f.home? a = some b ∧ ∀ t ∈ tail, f.home? t = some b := by
  obtain ⟨b, pre, post, hr, hb⟩ := h
  refine ⟨b, hr, hp.mem_iff.mp (by simp [hb]), fun t ht => hp.mem_iff.mp ?_⟩
  simp [hb, ht]

theorem Trailed.before (hp : f.Placed) (h : f.Trailed a tail)
    (hc : f.blockInstrs c = done ++ rest) (ha : f.Before a c done)
    (hrest : ∀ t ∈ tail, rest.head? ≠ some t) (ht : t ∈ tail) : f.Before t c done := by
  obtain ⟨b, -, hab, htb⟩ := h.home hp
  rcases ha with ha | ⟨c', hc', hdom⟩
  · have hac : f.home? a = some c := hp.mem_iff.mp (by simp [hc, ha])
    obtain rfl : b = c := by simpa [hab] using hac
    obtain ⟨b', pre, post, -, hb'⟩ := h
    have hab' : f.home? a = some b' := hp.mem_iff.mp (by simp [hb'])
    obtain rfl : b = b' := by simpa [hab] using hab'
    exact .inl (mem_of_trailed (hb'.symm.trans hc) (hc ▸ hp.nodup b) ha hrest t ht)
  · obtain rfl : b = c' := by simpa [hab] using hc'
    exact .inr ⟨b, htb t ht, hdom⟩

/-- Wherever `d` has been done, `a` has. -/
def Leads (f : Function) (a d : InstrId) : Prop :=
  d = a ∨ ∃ c done rest, f.blocks.Reachable c ∧ f.blockInstrs c = done ++ d :: rest ∧
    f.Before a c done

theorem Leads.before (hp : f.Placed) (h : f.Leads a d) (hr : f.blocks.Reachable c)
    (hc : f.blockInstrs c = done ++ rest) (hd : f.Before d c done) : f.Before a c done := by
  rcases h with rfl | ⟨k, pre, post, -, hk, ha⟩
  · exact hd
  · exact hd.trans hp hr hc hk ha

theorem Leads.reachable (ht : f.Trailed a tail) (h : f.Leads a d) :
    ∃ c done rest, f.blocks.Reachable c ∧ f.blockInstrs c = done ++ d :: rest := by
  rcases h with rfl | ⟨k, pre, post, hk, hd, -⟩
  · obtain ⟨b, pre, post, hb, hd⟩ := ht
    exact ⟨b, pre, _, hb, hd⟩
  · exact ⟨k, pre, post, hk, hd⟩

theorem before_end_iff (hp : f.Placed) :
    f.Before d b (f.blockInstrs b) ↔ ∃ c, f.home? d = some c ∧ f.blocks.Dominates c b := by
  constructor
  · rintro (hd | ⟨c, hc, hdom⟩)
    · exact ⟨b, hp.mem_iff.mp hd, .refl _ b⟩
    · exact ⟨c, hc, hdom.2⟩
  · rintro ⟨c, hc, hdom⟩
    by_cases hcb : c = b
    · exact .inl (hp.mem_iff.mpr (hcb ▸ hc))
    · exact .inr ⟨c, hc, hcb, hdom⟩

theorem Arrives.places_none [FloatOps] (hdef : f.Defined) (ha : Arrives f vars io b done e)
    (hv : f.dest? d = some v) {al : Alu} (hbody : f.body? d = some (.alu al)) :
    e.places v = none := by
  induction ha with
  | start => rfl
  | goes _ _ _ ih => exact ih
  | @step b done i rest e e' _ _ hi ih =>
    simp only [step?, Option.bind_eq_some_iff, Option.map_eq_some_iff] at hi
    obtain ⟨bodyI, hbodyI, r, heff, rfl⟩ := hi
    cases r with
    | outputs t => exact ih
    | value x => cases hd : f.dest? i <;> exact ih
    | place p =>
      cases hd : f.dest? i with
      | none => exact ih
      | some w =>
        by_cases hvw : v = w
        · have hid : i = d := by
            have hsource := (hdef.iff d v).mp hv
            have hsource' := (hdef.iff i w).mp hd
            rw [hvw] at hsource
            simpa [hsource] using hsource'.symm
          rw [hid, hbody] at hbodyI
          obtain rfl := Option.some.inj hbodyI
          simp [Env.effect] at heff
        · simp [Env.apply, Env.definePlace, hvw, ih]

/-- Where an arithmetic instruction has been done, its value is what it computes. -/
theorem settled_alu [FloatOps] (hf : f.Ssa) (ha : Arrives f vars io c done e)
    (hd : f.Before d c done) {al : Alu} (hbody : f.body? d = some (.alu al))
    (hv : f.dest? d = some v) : ∃ x, e.values v = some x ∧ e.alu (f.destShape? d) al = some x := by
  have hs := settled hf.tidy.linked.placed hf.tidy.linked.defined hf.dominance ha hd hbody rfl
  simp only [step?, hbody, Option.bind_some, hv, Env.effect, Option.map_map,
    Option.map_eq_some_iff] at hs
  obtain ⟨x, hx, he⟩ := hs
  refine ⟨x, ?_, hx⟩
  rw [← he]
  simp [Env.apply, Env.define]

theorem AluFits.lanes {al : Alu} {dest : Option Shape} (hf : f.Defined) (h : f.AluFits dest al)
    {s n : Nat} {o : Operand} (ho : al.srcs[s]? = some o) (hn : al.op.readWidth? dest s = some n) :
    n ≤ 4 ∧ ∀ k ∈ o.swizzle.toList.take n, k < 4 := by
  obtain ⟨m, shape, hm, hshape, hm4, hlanes⟩ := h.2 s o ho
  obtain rfl : m = n := by simpa [hm] using hn
  have hw := (hf.width o.value shape hshape).2
  exact ⟨hm4, fun k hk => by have hlt := hlanes k hk; omega⟩

end Function

/-- An instruction that computes the lanes of several. -/
structure Wide where
  instr : InstrId
  value : ValueId
  op : AluOp
  srcs : List Operand
  width : Nat
  bits : Nat

/-- The wide instruction stands in the function, and `d` defines the lanes that `h` says. -/
structure Wide.Spans (W : Wide) (f : Function) (d : InstrId) (h : Half) : Prop where
  body : f.body? W.instr = some (.alu ⟨W.op, W.srcs⟩)
  dest : f.dest? W.instr = some W.value
  shape : f.shape? W.value = some ⟨W.width, W.bits⟩
  laneWise : W.op.isLaneWise
  notMove : W.op.isMove = false
  half : ∃ srcs, f.body? d = some (.alu ⟨W.op, srcs⟩) ∧ Covers W.srcs srcs h.offset h.width
  halfDest : f.dest? d = some h.value
  halfShape : f.shape? h.value = some ⟨h.width, W.bits⟩
  fit : h.offset + h.width ≤ W.width
  narrow : h.width < W.width

/-- The value `v` of `n` is a copy of the half. -/
structure Wide.Copies (W : Wide) (f : Function) (h : Half) (n : InstrId) (v : ValueId) : Prop where
  body : ∃ o, f.body? n = some (.alu ⟨.mov, [o]⟩) ∧ o.value = W.value ∧
    o.swizzle.toList.take h.width = (List.range h.width).map (h.offset + ·)
  dest : f.dest? n = some v
  shape : f.shape? v = some ⟨h.width, W.bits⟩

namespace Wide

variable {W : Wide} {h : Half} {f : Function} {vars : Variables} {io : IoState} {d n : InstrId}
  {c : BlockId} {done rest : List InstrId} {e : Env} {v : ValueId}

theorem Spans.destShape (hs : W.Spans f d h) :
    f.destShape? W.instr = some ⟨W.width, W.bits⟩ ∧ f.destShape? d = some ⟨h.width, W.bits⟩ := by
  simp [Function.destShape?, hs.dest, hs.shape, hs.halfDest, hs.halfShape]

theorem Spans.width_le (hs : W.Spans f d h) (hf : f.Ssa) : W.width ≤ 4 :=
  (hf.tidy.linked.defined.width W.value _ hs.shape).2

theorem lanes_of_fits (hf : f.Ssa) {b : BlockId} {op : AluOp} {srcs : List Operand} {w bits : Nat}
    (hop : op.isLaneWise) (hd : f.home? d = some b) (hbody : f.body? d = some (.alu ⟨op, srcs⟩))
    (hshape : f.destShape? d = some ⟨w, bits⟩) :
    srcs.length = op.arity ∧ ∀ o ∈ srcs, ∀ k ∈ o.swizzle.toList.take w, k < 4 := by
  have hfit := hf.verified.alu d b ⟨op, srcs⟩ hd hbody
  refine ⟨hfit.1, fun o ho => ?_⟩
  obtain ⟨s, hs⟩ := List.getElem?_of_mem ho
  obtain ⟨hlt, -⟩ := List.getElem?_eq_some_iff.mp hs
  have hread : op.readWidth? (f.destShape? d) s = some w := by
    rw [hshape, AluOp.readWidth?_laneWise hop (by rw [← hfit.1]; exact hlt)]
  exact (hfit.lanes hf.tidy.linked.defined hs hread).2

/-- Where both have been done, the half is in its lanes of the wide value. -/
theorem Spans.agree [FloatOps] (hs : W.Spans f d h) (hf : f.Ssa)
    (ha : Function.Arrives f vars io c done e) (hd : f.Before d c done)
    (hw : f.Before W.instr c done) :
    W.bits = 32 ∧ ∃ x y, e.values h.value = some x ∧ e.values W.value = some y ∧
      ∀ k, x.pick k = if k < h.width then y.pick (h.offset + k) else 0 := by
  obtain ⟨srcs, hbody, hcover⟩ := hs.half
  obtain ⟨hwshape, hdshape⟩ := hs.destShape
  obtain ⟨rest, hc⟩ := ha.split
  have hp := hf.tidy.linked.placed
  obtain ⟨bd, _, _, hbd, -⟩ := hd.position hp ha.reachable hc
  obtain ⟨bw, _, _, hbw, -⟩ := hw.position hp ha.reachable hc
  obtain ⟨x, hxv, hx⟩ := Function.settled_alu hf ha hd hbody hs.halfDest
  obtain ⟨y, hyv, hy⟩ := Function.settled_alu hf ha hw hs.body hs.dest
  obtain ⟨hlen, hlanes⟩ := lanes_of_fits hf hs.laneWise hbd hbody hdshape
  obtain ⟨-, hwide⟩ := lanes_of_fits hf hs.laneWise hbw hs.body hwshape
  rw [hdshape] at hx
  rw [hwshape] at hy
  have hbits : W.bits = 32 := (Env.ready_of_alu hx).1
  exact ⟨hbits, x, y, hxv, hyv,
    hcover.pick hs.laneWise hlen hs.fit (hs.width_le hf) hwide hlanes hx hy⟩

theorem Copies.holds [FloatOps] (hn : W.Copies f h n v) (hs : W.Spans f d h) (hf : f.Ssa)
    (ha : Function.Arrives f vars io c done e) (hd : f.Before d c done)
    (hw : f.Before W.instr c done) (hnb : f.Before n c done) : e.Holds h.value e v := by
  obtain ⟨hbits, x, y, hx, hy, hxy⟩ := hs.agree hf ha hd hw
  obtain ⟨o, hbody, hvalue, htake⟩ := hn.body
  obtain ⟨srcs, hbodyd, -⟩ := hs.half
  have hw4 := hs.width_le hf
  have hfit := hs.fit
  obtain ⟨z, hz, halu⟩ := Function.settled_alu hf ha hnb hbody hn.dest
  have hshape : f.destShape? n = some ⟨h.width, 32⟩ := by
    simp [Function.destShape?, hn.dest, hn.shape, hbits]
  have hlanes : ∀ k ∈ o.swizzle.toList.take h.width, k < 4 := by
    intro k hk
    rw [htake, List.mem_map] at hk
    obtain ⟨j, hj, rfl⟩ := hk
    have hj' := List.mem_range.mp hj
    omega
  have hmov : e.effect vars (some ⟨h.width, 32⟩) (.alu ⟨.mov, [o]⟩) = _ :=
    Env.effect_mov (hvalue ▸ hy) (by omega) hlanes
  rw [hshape] at halu
  simp only [Env.effect, halu, Option.map_some, Option.some.injEq, Effect.value.injEq] at hmov
  have hdef := hf.tidy.linked.defined
  refine ⟨?_, ?_⟩
  · rw [hz, hx, hmov]
    refine congrArg some (Lanes.ext_pick fun k hk => ?_)
    rw [hxy, Lanes.pick_ofList, if_pos hk, htake]
    by_cases hkw : k < h.width
    · simp [hkw]
    · simp [hkw]
  · rw [ha.places_none hdef hn.dest hbody, ha.places_none hdef hs.halfDest hbodyd]

end Wide

end ShaderSSA
