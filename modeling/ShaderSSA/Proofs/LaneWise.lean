import ShaderSSA.Merge.Pair
import ShaderSSA.Proofs.LaneAlgebra

/-! Lane-wise opcodes, lane by lane. Operands that select the lanes of two instructions one after
the other give the results of the two, one after the other. -/

namespace ShaderSSA

namespace AluOp

variable {op : AluOp}

theorem length_sourceWidths (op : AluOp) : op.shape.sourceWidths.length = 4 := by
  cases op <;> rfl

theorem readWidth?_laneWise (h : op.isLaneWise) {s : Nat} (hs : s < op.arity) (shape : Shape) :
    op.readWidth? (some shape) s = some shape.width := by
  have hlen := length_sourceWidths op
  have hle : op.arity ≤ 4 := by cases op <;> decide
  have hall : ∀ n ∈ op.shape.sourceWidths.take op.arity, n = 0 := by
    simp only [isLaneWise, Bool.and_eq_true, List.all_eq_true, beq_iff_eq] at h
    exact h.2
  have hlt : s < op.shape.sourceWidths.length := by omega
  have hzero : op.shape.sourceWidths[s] = 0 := by
    refine hall _ (List.mem_of_getElem? (i := s) ?_)
    rw [List.getElem?_take_of_lt hs, List.getElem?_eq_getElem hlt]
  simp [readWidth?, List.getElem?_eq_getElem hlt, hzero]

theorem eval_laneWise [FloatOps] (h : op.isLaneWise) (w : Nat) (xs : List Lanes) :
    op.eval w xs = Vector.ofFn fun k : Fin 4 => if k < w then
      op.lane ((xs.getD 0 .zero).get k) ((xs.getD 1 .zero).get k) ((xs.getD 2 .zero).get k)
      else 0 := by
  cases op <;> first | rfl | cases h

end AluOp

namespace Env

variable {e : Env} {op : AluOp} {srcs wide half : List Operand} {w bits : Nat}

/-- What lane `k` of an instruction reads through source `s`. -/
def laneRead (e : Env) (srcs : List Operand) (k s : Nat) : UInt32 :=
  (srcs[s]?.bind fun o => (e.values o.value).map fun x =>
    x.pick (o.swizzle.toList.getD k 0)).getD 0

/-- Every operand has a value. -/
def Ready (e : Env) (srcs : List Operand) : Prop := ∀ o ∈ srcs, ∃ x, e.values o.value = some x

theorem mapM_eq_some_mem {α β : Type} {g : α → Option β} {l : List α} {r : List β}
    (h : l.mapM g = some r) {a : α} (ha : a ∈ l) : ∃ b, g a = some b := by
  induction l generalizing r with
  | nil => simp at ha
  | cons c l ih =>
    simp only [List.mapM_cons, Option.bind_eq_bind, Option.bind_eq_some_iff] at h
    obtain ⟨b, hb, bs, hbs, -⟩ := h
    rcases List.mem_cons.mp ha with rfl | ha
    · exact ⟨b, hb⟩
    · exact ih hbs ha

theorem ready_of_alu [FloatOps] {dest : Option Shape} {x : Lanes}
    (h : e.alu dest ⟨op, srcs⟩ = some x) : dest.elim 32 (·.bits) = 32 ∧ e.Ready srcs := by
  simp only [alu] at h
  split at h
  · rename_i hbits
    refine ⟨hbits, fun o ho => ?_⟩
    obtain ⟨xs, hxs, -⟩ := Option.map_eq_some_iff.mp h
    obtain ⟨s, hs⟩ := List.getElem?_of_mem ho
    have hmem : (o, s) ∈ srcs.zipIdx := List.mem_zipIdx_iff_getElem?.mpr hs
    obtain ⟨y, hy⟩ := mapM_eq_some_mem hxs hmem
    obtain ⟨n, -, hop⟩ := Option.bind_eq_some_iff.mp hy
    simp only [operand, Option.bind_eq_bind, Option.bind_eq_some_iff] at hop
    obtain ⟨raw, hraw, -⟩ := hop
    exact ⟨raw, hraw⟩
  · simp at h

/-- What an operand of a lane-wise instruction hands over. -/
def handed (e : Env) (w : Nat) (o : Operand) : Lanes :=
  .ofList ((o.swizzle.toList.take w).map ((e.values o.value).getD .zero).pick)

theorem get_handed {s : Nat} {k : Fin 4} (hk : k < w) (hready : e.Ready srcs) :
    ((srcs.map (e.handed w)).getD s .zero).get k = e.laneRead srcs k s := by
  rw [Lanes.get_eq_pick]
  cases ho : srcs[s]? with
  | none =>
    have hzero : Lanes.pick .zero k = 0 := by
      simp [Lanes.pick, Lanes.zero]
    simp [laneRead, ho, List.getD_eq_getElem?_getD, hzero]
  | some o =>
    obtain ⟨x, hx⟩ := hready o (List.mem_of_getElem? ho)
    have hlt : (k : Nat) < o.swizzle.toList.length := by simp
    simp [laneRead, ho, List.getD_eq_getElem?_getD, hx, handed, Lanes.pick_ofList, hk]

/-- A lane-wise instruction computes each lane from the lanes it reads. -/
theorem alu_laneWise [FloatOps] (h : op.isLaneWise) (hlen : srcs.length = op.arity) (hw : w ≤ 4)
    (hl : ∀ o ∈ srcs, ∀ k ∈ o.swizzle.toList.take w, k < 4) (hready : e.Ready srcs) :
    e.alu (some ⟨w, 32⟩) ⟨op, srcs⟩ = some (Vector.ofFn fun k : Fin 4 => if k < w then
      op.lane (e.laneRead srcs k 0) (e.laneRead srcs k 1) (e.laneRead srcs k 2) else 0) := by
  have hsrcs : (srcs.zipIdx.mapM fun p =>
      (op.readWidth? (some ⟨w, 32⟩) p.2).bind fun n => e.operand n p.1) =
      some (srcs.map (e.handed w)) := by
    refine zipIdx_mapM (by simp) fun s o y ho hy => ?_
    have hmem := List.mem_of_getElem? ho
    obtain ⟨x, hx⟩ := hready o hmem
    obtain ⟨hs, -⟩ := List.getElem?_eq_some_iff.mp ho
    obtain rfl : e.handed w o = y := by simpa [ho] using hy
    rw [AluOp.readWidth?_laneWise h (by omega), Option.bind_some,
      operand_eq_some hx hw (hl o hmem), handed, hx]
    rfl
  have halu : e.alu (some ⟨w, 32⟩) ⟨op, srcs⟩ = _ := if_pos rfl
  rw [halu, hsrcs, Option.map_some, AluOp.eval_laneWise h]
  refine congrArg some (congrArg Vector.ofFn (funext fun k => ?_))
  by_cases hk : (k : Nat) < w
  · simp only [Option.elim, hk, if_true, get_handed hk hready]
  · simp only [Option.elim, hk, if_false]

end Env

/-- The first `w` lanes of `half` are lanes of `wide`, from `offset` on. -/
structure Covers (wide half : List Operand) (offset w : Nat) : Prop where
  length : wide.length = half.length
  operand : ∀ (s : Nat) o o', wide[s]? = some o → half[s]? = some o' → o.value = o'.value ∧
    ∀ k < w, o.swizzle.toList[offset + k]? = o'.swizzle.toList[k]?

namespace Covers

variable {e : Env} {op : AluOp} {wide half : List Operand} {offset w width : Nat}

theorem counterpart (h : Covers wide half offset w) {s : Nat} {o : Operand}
    (ho : wide[s]? = some o) : ∃ o', half[s]? = some o' ∧ o.value = o'.value ∧
      ∀ k < w, o.swizzle.toList[offset + k]? = o'.swizzle.toList[k]? := by
  have hlt : s < half.length := by
    rw [← h.length]
    exact (List.getElem?_eq_some_iff.mp ho).1
  exact ⟨half[s], List.getElem?_eq_getElem hlt, h.operand s o _ ho (List.getElem?_eq_getElem hlt)⟩

theorem ready (h : Covers wide half offset w) (hready : e.Ready half) : e.Ready wide := by
  intro o ho
  obtain ⟨s, hs⟩ := List.getElem?_of_mem ho
  obtain ⟨o', ho', hvalue, -⟩ := h.counterpart hs
  rw [hvalue]
  exact hready o' (List.mem_of_getElem? ho')

theorem laneRead (h : Covers wide half offset w) {k : Nat} (hk : k < w) (s : Nat) :
    e.laneRead wide (offset + k) s = e.laneRead half k s := by
  simp only [Env.laneRead]
  cases ho : wide[s]? with
  | none =>
    have hnone : half[s]? = none := by
      rw [List.getElem?_eq_none_iff] at ho ⊢
      rw [← h.length]
      exact ho
    rw [hnone]
    rfl
  | some o =>
    obtain ⟨o', ho', hvalue, hlane⟩ := h.counterpart ho
    simp only [ho', Option.bind_some, hvalue, List.getD_eq_getElem?_getD, hlane k hk]

theorem pick [FloatOps] (h : Covers wide half offset w) (hop : op.isLaneWise)
    (hlen : half.length = op.arity) (hwidth : offset + w ≤ width) (h4 : width ≤ 4)
    (hwide : ∀ o ∈ wide, ∀ k ∈ o.swizzle.toList.take width, k < 4)
    (hhalf : ∀ o ∈ half, ∀ k ∈ o.swizzle.toList.take w, k < 4) {bits : Nat} {x y : Lanes}
    (hx : e.alu (some ⟨w, bits⟩) ⟨op, half⟩ = some x)
    (hy : e.alu (some ⟨width, bits⟩) ⟨op, wide⟩ = some y) (k : Nat) :
    x.pick k = if k < w then y.pick (offset + k) else 0 := by
  obtain ⟨hbits, hready⟩ := Env.ready_of_alu hx
  obtain rfl : bits = 32 := hbits
  rw [Env.alu_laneWise hop hlen (by omega) hhalf hready] at hx
  rw [Env.alu_laneWise hop (h.length.trans hlen) h4 hwide (h.ready hready)] at hy
  obtain rfl := Option.some.inj hx
  obtain rfl := Option.some.inj hy
  by_cases hk : k < w
  · have hk4 : k < 4 := by omega
    have hok : offset + k < 4 := by omega
    have hokw : offset + k < width := by omega
    simp only [Lanes.pick, hk, if_true, Vector.getElem?_ofFn, hk4, hok, dif_pos, Option.getD_some,
      hokw, h.laneRead hk]
  · by_cases hk4 : k < 4
    · simp [Lanes.pick, hk, hk4]
    · simp [Lanes.pick, hk, hk4]

end Covers

/-- The operand selects the lanes of the two, one after the other. -/
structure Joins (x y : Operand) (widthA widthB : Nat) (o : Operand) : Prop where
  value : o.value = x.value
  other : x.value = y.value
  lanes : o.swizzle.toList.take (widthA + widthB) =
    x.swizzle.toList.take widthA ++ y.swizzle.toList.take widthB

theorem joinOperands_ok {a b : InstrId} {widthA widthB : Nat} {x y : Operand}
    (hv : x.value = y.value) (hA : 1 ≤ widthA) (h4 : widthA + widthB ≤ 4) :
    ∃ o, Function.joinOperands a b widthA widthB x y = .ok o ∧ Joins x y widthA widthB o := by
  have hx : x.swizzle.lanes widthA = .ok (x.swizzle.toList.take widthA) :=
    Swizzle.lanes_eq_ok.mpr ⟨by omega, rfl⟩
  have hy : y.swizzle.lanes widthB = .ok (y.swizzle.toList.take widthB) :=
    Swizzle.lanes_eq_ok.mpr ⟨by omega, rfl⟩
  have hlen : (x.swizzle.toList.take widthA ++ y.swizzle.toList.take widthB).length =
      widthA + widthB := by
    simp
    omega
  have h1 : 1 ≤ (x.swizzle.toList.take widthA ++ y.swizzle.toList.take widthB).length := by omega
  obtain ⟨o, ho, hvalue, htake⟩ := Operand.select_eq_ok (v := x.value) h1 (by omega)
  rw [hlen] at htake
  refine ⟨o, ?_, hvalue, hv, htake⟩
  simp only [Function.joinOperands, hv, beq_self_eq_true, Checked.require, if_true, ok_bind, hx, hy]
  rw [← hv, ho]

theorem Joins.left {x y o : Operand} {widthA widthB : Nat} (h : Joins x y widthA widthB o)
    (h4 : widthA + widthB ≤ 4) {k : Nat} (hk : k < widthA) :
    o.swizzle.toList[0 + k]? = x.swizzle.toList[k]? := by
  have htake := congrArg (·[k]?) h.lanes
  simp only [List.getElem?_take] at htake
  rw [if_pos (by omega), List.getElem?_append_left (by simp; omega), List.getElem?_take,
    if_pos hk] at htake
  simpa using htake

theorem Joins.right {x y o : Operand} {widthA widthB : Nat} (h : Joins x y widthA widthB o)
    (h4 : widthA + widthB ≤ 4) {k : Nat} (hk : k < widthB) :
    o.swizzle.toList[widthA + k]? = y.swizzle.toList[k]? := by
  have htake := congrArg (·[widthA + k]?) h.lanes
  have hlen : (x.swizzle.toList.take widthA).length = widthA := by
    simp
    omega
  simp only [List.getElem?_take] at htake
  rw [if_pos (by omega), List.getElem?_append_right (by omega), hlen,
    List.getElem?_take, Nat.add_sub_cancel_left, if_pos hk] at htake
  exact htake

theorem joinAll_ok {a b : InstrId} {widthA widthB : Nat} {xs ys : List Operand}
    (hv : xs.map (·.value) = ys.map (·.value)) (hA : 1 ≤ widthA) (h4 : widthA + widthB ≤ 4) :
    ∃ wide, ((xs.zip ys).mapM fun (x, y) =>
        Function.joinOperands a b widthA widthB x y) = .ok wide ∧
      wide.map (·.value) = xs.map (·.value) ∧ Covers wide xs 0 widthA ∧
      Covers wide ys widthA widthB ∧ ∀ o ∈ wide, ∃ x ∈ xs, ∃ y ∈ ys, Joins x y widthA widthB o := by
  induction xs generalizing ys with
  | nil =>
    obtain rfl : ys = [] := by simpa using hv.symm
    exact ⟨[], rfl, rfl, ⟨rfl, by simp⟩, ⟨rfl, by simp⟩, by simp⟩
  | cons x xs ih =>
    cases ys with
    | nil => simp at hv
    | cons y ys =>
      obtain ⟨hxy, hrest⟩ : x.value = y.value ∧ xs.map (·.value) = ys.map (·.value) := by
        simpa using hv
      obtain ⟨o, ho, hjoin⟩ := joinOperands_ok (a := a) (b := b) hxy hA h4
      obtain ⟨wide, hwide, hvalues, hleft, hright, hall⟩ := ih hrest
      refine ⟨o :: wide, ?_, ?_, ⟨?_, ?_⟩, ⟨?_, ?_⟩, ?_⟩
      · simp only [List.zip_cons_cons, List.mapM_cons, ho, hwide, ok_bind]
        rfl
      · simp [hvalues, hjoin.value]
      · simp [hleft.length]
      · intro s p p' hp hp'
        cases s with
        | zero =>
          obtain rfl : o = p := by simpa using hp
          obtain rfl : x = p' := by simpa using hp'
          exact ⟨hjoin.value, fun k hk => hjoin.left h4 hk⟩
        | succ s => exact hleft.operand s p p' (by simpa using hp) (by simpa using hp')
      · simp [hright.length]
      · intro s p p' hp hp'
        cases s with
        | zero =>
          obtain rfl : o = p := by simpa using hp
          obtain rfl : y = p' := by simpa using hp'
          exact ⟨hjoin.value.trans hjoin.other, fun k hk => hjoin.right h4 hk⟩
        | succ s => exact hright.operand s p p' (by simpa using hp) (by simpa using hp')
      · intro p hp
        rcases List.mem_cons.mp hp with rfl | hp
        · exact ⟨x, by simp, y, by simp, hjoin⟩
        · obtain ⟨x', hx', y', hy', hj⟩ := hall p hp
          exact ⟨x', by simp [hx'], y', by simp [hy'], hj⟩

end ShaderSSA
