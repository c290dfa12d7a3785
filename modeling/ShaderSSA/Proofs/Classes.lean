import ShaderSSA.Merge.Class
import ShaderSSA.Proofs.Halves

/-! Classes of instructions, and what an instruction of the joint width of two members has to
read. -/

namespace ShaderSSA

namespace ClassKey

variable {key key' : ClassKey} {vs : List ValueId} {x : ValueId}

/-- The class of an instruction whose sources among `vs` have turned to `x`. -/
def turn (vs : List ValueId) (x : ValueId) (key : ClassKey) : ClassKey :=
  { key with srcs := key.srcs.map fun v => if v ∈ vs then x else v }

theorem turn_of_calm (h : ∀ w ∈ key.srcs, w ∉ vs) : key.turn vs x = key := by
  have hsame : key.srcs.map (fun v => if v ∈ vs then x else v) = key.srcs :=
    (List.map_congr_left fun w hw => if_neg (h w hw)).trans (List.map_id' key.srcs)
  rw [turn, hsame]

end ClassKey

namespace Function

variable {f g : Function} {i j a b : InstrId} {key key' : ClassKey}

/-- A linked instruction of the class, with its operands and the value it defines. -/
structure Member (f : Function) (key : ClassKey) (i : InstrId) (srcs : List Operand) (v : ValueId)
    (width : Nat) : Prop where
  linked : ∃ b, f.home? i = some b
  body : f.body? i = some (.alu ⟨key.op, srcs⟩)
  dest : f.dest? i = some v
  shape : f.shape? v = some ⟨width, key.bits⟩
  values : srcs.map (·.value) = key.srcs
  notMove : key.op.isMove = false
  laneWise : key.op.isLaneWise = true

def InClass (f : Function) (i : InstrId) (key : ClassKey) : Prop :=
  ∃ srcs v width, f.Member key i srcs v width

theorem InClass.unique (h : f.InClass i key) (h' : f.InClass i key') : key = key' := by
  obtain ⟨srcs, v, width, hm⟩ := h
  obtain ⟨srcs', v', width', hm'⟩ := h'
  have hbody := hm'.body
  have hdest := hm'.dest
  have hshape := hm'.shape
  rw [hm.body, Option.some.injEq, Body.alu.injEq, Alu.mk.injEq] at hbody
  rw [hm.dest, Option.some.injEq] at hdest
  rw [← hdest, hm.shape, Option.some.injEq, Shape.mk.injEq] at hshape
  have hvalues : key.srcs = key'.srcs := by rw [← hm.values, ← hm'.values, hbody.2]
  cases key
  cases key'
  simp_all

theorem classOf_ok {c : BlockId} (hf : f.Defined) (hi : f.home? i = some c) :
    ∃ k, f.classOf i = .ok k ∧ ∀ key, k = some key ↔ f.InClass i key := by
  obtain ⟨x, hx, hremoved, -⟩ := home?_eq_some.mp hi
  have hinstr : f.instr i = .ok x := instr_eq_ok.mpr hx
  have hbody : f.body? i = some x.body := by simp [body?, hx]
  have hdest : f.dest? i = x.dest := by simp [dest?, hx]
  cases hal : x.body.alu? with
  | none =>
    refine ⟨none, by simp [classOf, canMerge, hinstr, hal, ok_bind], fun key => ?_⟩
    refine ⟨by simp, fun hin => ?_⟩
    obtain ⟨srcs, v, width, hm⟩ := hin
    rw [Option.some.inj (hbody.symm.trans hm.body)] at hal
    cases hal
  | some al =>
    have hxb : x.body = .alu al := by
      cases hb : x.body <;> simp_all [Body.alu?]
    cases hd : x.dest with
    | none =>
      refine ⟨none, by simp [classOf, canMerge, hinstr, hd, ok_bind], fun key => ?_⟩
      refine ⟨by simp, fun hin => ?_⟩
      obtain ⟨srcs, v, width, hm⟩ := hin
      have hv := hm.dest
      simp [hdest, hd] at hv
    | some v =>
      obtain ⟨y, hy⟩ := Machine.dest_known hf hx v hd
      have hvalue : f.value v = .ok y := value_eq_ok.mpr hy
      have hshape : f.shape? v = some y.shape := by simp [shape?, hy]
      by_cases hm : al.op.isMove = false ∧ al.op.isLaneWise = true
      · have hin : f.InClass i ⟨al.op, y.shape.bits, al.srcs.map (·.value)⟩ :=
          ⟨al.srcs, v, y.shape.width, ⟨c, hi⟩, by rw [hbody, hxb], by rw [hdest, hd], hshape, rfl,
            hm.1, hm.2⟩
        refine ⟨some ⟨al.op, y.shape.bits, al.srcs.map (·.value)⟩, ?_, fun key => ?_⟩
        · simp [classOf, canMerge, hinstr, hal, hd, ok_bind, hremoved, hm, hvalue]
        · refine ⟨fun he => Option.some.inj he ▸ hin, fun hkey => ?_⟩
          rw [hkey.unique hin]
      · refine ⟨none, ?_, fun key => ⟨by simp, fun hin => ?_⟩⟩
        · have hnot : al.op.isMove = false → al.op.isLaneWise = false := by simpa using hm
          simp [classOf, canMerge, hinstr, hal, hd, ok_bind, hremoved]
          exact if_pos hnot
        · obtain ⟨srcs, v', width, hmem⟩ := hin
          have hsame := hmem.body
          rw [hbody, hxb, Option.some.injEq, Body.alu.injEq] at hsame
          rw [hsame] at hm
          exact absurd ⟨hmem.notMove, hmem.laneWise⟩ hm

theorem inClass_of_classOf {c : BlockId} (hf : f.Defined) (hi : f.home? i = some c)
    (h : f.classOf i = .ok (some key)) : f.InClass i key := by
  obtain ⟨k, hclass, hk⟩ := classOf_ok hf hi
  exact (hk key).mp (Except.ok.inj (hclass.symm.trans h))

/-- The lanes of the value that an instruction defines. -/
def width (f : Function) (i : InstrId) : Nat := (f.destShape? i).elim 0 (·.width)

section Members

variable {srcs srcs' : List Operand} {v x : ValueId} {width : Nat} {vs : List ValueId}

theorem Member.destShape (h : f.Member key i srcs v width) :
    f.destShape? i = some ⟨width, key.bits⟩ := by
  simp [destShape?, h.dest, h.shape]

theorem Member.width_eq (h : f.Member key i srcs v width) : f.width i = width := by
  simp [Function.width, h.destShape]

theorem Member.carry (h : f.Member key i srcs v width)
    (hhome : ∀ c, f.home? i = some c → g.home? i = some c)
    (hbody : g.body? i = some (.alu ⟨key.op, srcs'⟩)) (hdest : g.dest? i = f.dest? i)
    (hshape : ∀ t, f.shape? v = some t → g.shape? v = some t) :
    g.Member { key with srcs := srcs'.map (·.value) } i srcs' v width := by
  obtain ⟨c, hc⟩ := h.linked
  exact ⟨⟨c, hhome c hc⟩, hbody, hdest.trans h.dest, hshape _ h.shape, rfl, h.notMove, h.laneWise⟩

theorem Member.aluParts (hm : f.Member key i srcs v width) :
    f.aluParts i = .ok (⟨key.op, srcs⟩, v) := by
  obtain ⟨x, hx, hd⟩ := Option.bind_eq_some_iff.mp hm.dest
  have hinstr : f.instr i = .ok x := instr_eq_ok.mpr hx
  have hbody : x.body = .alu ⟨key.op, srcs⟩ := by simpa [body?, hx] using hm.body
  simp only [Function.aluParts, hinstr, hbody, hd, ok_bind, Checked.orElse, Body.alu?]
  rfl

theorem Member.value (hm : f.Member key i srcs v width) :
    ∃ x, f.value v = .ok x ∧ x.shape = ⟨width, key.bits⟩ := by
  obtain ⟨x, hx, hshape⟩ := Option.map_eq_some_iff.mp hm.shape
  exact ⟨x, value_eq_ok.mpr hx, hshape⟩

end Members

section Widening

variable {op : AluOp} {srcs srcsA srcsB : List Operand} {widthA widthB bits : Nat}
  {va vb : ValueId}

theorem AluFits.laneWise {shape : Shape} (hop : op.isLaneWise)
    (h : f.AluFits (some shape) ⟨op, srcs⟩) {o : Operand} (ho : o ∈ srcs) :
    ∃ t, f.shape? o.value = some t ∧ ∀ k ∈ o.swizzle.toList.take shape.width, k < t.width := by
  obtain ⟨s, hs⟩ := List.getElem?_of_mem ho
  obtain ⟨hlt, -⟩ := List.getElem?_eq_some_iff.mp hs
  obtain ⟨n, t, hn, ht, -, hlanes⟩ := h.2 s o hs
  have hlt' : s < op.arity := by
    rw [← h.1]
    exact hlt
  rw [AluOp.readWidth?_laneWise hop hlt', Option.some.injEq] at hn
  exact ⟨t, ht, hn ▸ hlanes⟩

theorem joined_fits (hop : op.isLaneWise) (hA : f.AluFits (some ⟨widthA, bits⟩) ⟨op, srcsA⟩)
    (hB : f.AluFits (some ⟨widthB, bits⟩) ⟨op, srcsB⟩) (h4 : widthA + widthB ≤ 4)
    (hlen : srcs.length = srcsA.length)
    (hjoin : ∀ o ∈ srcs, ∃ x ∈ srcsA, ∃ y ∈ srcsB, Joins x y widthA widthB o) :
    f.AluFits (some ⟨widthA + widthB, bits⟩) ⟨op, srcs⟩ := by
  refine ⟨hlen.trans hA.1, fun s o ho => ?_⟩
  obtain ⟨x, hx, y, hy, hj⟩ := hjoin o (List.mem_of_getElem? ho)
  obtain ⟨t, ht, hlanes⟩ := hA.laneWise hop hx
  obtain ⟨t', ht', hlanes'⟩ := hB.laneWise hop hy
  obtain rfl : t = t' := by
    rw [hj.other, ht', Option.some.injEq] at ht
    exact ht.symm
  obtain ⟨hlt, -⟩ := List.getElem?_eq_some_iff.mp ho
  have hlt' : s < op.arity := by
    rw [← hA.1, ← hlen]
    exact hlt
  refine ⟨widthA + widthB, t, AluOp.readWidth?_laneWise hop hlt' _, hj.value ▸ ht, h4,
    fun k hk => ?_⟩
  rw [hj.lanes] at hk
  rcases List.mem_append.mp hk with hk | hk
  · exact hlanes k hk
  · exact hlanes' k hk

theorem Member.fits (hm : f.Member key i srcs va widthA) (hf : f.Verified) :
    f.AluFits (some ⟨widthA, key.bits⟩) ⟨key.op, srcs⟩ := by
  obtain ⟨c, hc⟩ := hm.linked
  exact hm.destShape ▸ hf.alu i c _ hc hm.body

end Widening

end Function

end ShaderSSA
