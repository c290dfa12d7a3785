import ShaderSSA.Builder

/-! Merging two instructions of one class into a wider one. The lanes of the first come first.
Arithmetic readers select from the wide result directly; every other reader, and every branch,
gets a copy of its half. -/

namespace ShaderSSA

structure Merged where
  instr : InstrId
  /-- Arithmetic readers that now read the wide result. -/
  rewired : List InstrId
  /-- Copies made of a half. -/
  copies : Nat
  deriving DecidableEq

/-- The lanes of the wide result that used to be a value of their own. -/
structure Half where
  value : ValueId
  offset : Nat
  width : Nat

/-- The readers of one half on their way to the wide result. Copies line up behind the wide
instruction; `anchor` is the last of them. -/
structure Rewiring where
  func : Function
  anchor : InstrId
  rewired : List InstrId
  copies : Nat
  copy : Option ValueId

/-- Moves the lanes that are read up by `offset`. -/
def Swizzle.shift (s : Swizzle) (offset read : Nat) : Checked Swizzle := do
  let lanes ← s.lanes read
  if lanes.all (· + offset < 256) then
    return Vector.ofFn fun k => if k < read then s.get k + offset else s.get k
  throw .overflow

namespace Rewiring

/-- The copy of the half, made when it is first needed. -/
def copied (r : Rewiring) (wide : ValueId) (h : Half) : Checked (ValueId × Rewiring) :=
  match r.copy with
  | some v => return (v, r)
  | none => do
    let lanes := (List.range h.width).map (h.offset + ·)
    let (v, func) ← r.func.build (.after r.anchor) (Build.swizzle wide lanes)
    let anchor ← if v = wide then pure r.anchor else pure (← func.value v).source
    return (v, { r with func, anchor, copies := r.copies + 1, copy := some v })

def aluReader (r : Rewiring) (wide : ValueId) (h : Half) (u : Use) : Checked Rewiring := do
  let func ← r.func.replaceSource u.instr u.slot wide
  let func ← if h.offset = 0 then pure func else do
    let read ← func.lanesRead u.instr u.slot
    func.modifySwizzle u.instr u.slot (.swizzleOfNonAlu u.instr) (·.shift h.offset read)
  return { r with
    func
    rewired := if u.instr ∈ r.rewired then r.rewired else r.rewired ++ [u.instr] }

def reader (wide : ValueId) (h : Half) (r : Rewiring) (u : Use) : Checked Rewiring := do
  if (← r.func.instr u.instr).body.isAlu then r.aluReader wide h u
  else
    let (v, r) ← r.copied wide h
    return { r with func := ← r.func.replaceSource u.instr u.slot v }

def branch (wide : ValueId) (h : Half) (r : Rewiring) (b : BlockId) : Checked Rewiring := do
  let (v, r) ← r.copied wide h
  return { r with func := ← r.func.setCondition b v }

/-- Moves every reader of a half. -/
def half (wide : ValueId) (r : Rewiring) (h : Half) : Checked Rewiring := do
  let r := { r with copy := none }
  let r ← (← r.func.value h.value).uses.foldlM (reader wide h) r
  let r ← (← r.func.value h.value).branchUses.foldlM (branch wide h) r
  Checked.require (!(← r.func.value h.value).isRead) (.readAfterMerge h.value)
  return r

end Rewiring

namespace Function

def aluParts (f : Function) (i : InstrId) : Checked (Alu × ValueId) := do
  let instr ← f.instr i
  let a ← Checked.orElse (.notAlu i) instr.body.alu?
  let v ← Checked.orElse (.noDest i) instr.dest
  return (a, v)

/-- The operand that selects the lanes of both. -/
def joinOperands (a b : InstrId) (widthA widthB : Nat) (x y : Operand) : Checked Operand := do
  Checked.require (x.value == y.value) (.acrossSources a b)
  Operand.select x.value ((← x.swizzle.lanes widthA) ++ (← y.swizzle.lanes widthB))

/-- Puts one instruction in place of `a` and `b`, which must be of one class with `a` dominating
`b`. Nothing happens when the result would be wider than `limit`. -/
def merge? (f : Function) (a b : InstrId) (limit : Nat) : Checked (Option (Merged × Function)) := do
  let (aluA, destA) ← f.aluParts a
  let (aluB, destB) ← f.aluParts b
  Checked.require (aluA.op == aluB.op) (.acrossOpcodes a b)
  let shapeA := (← f.value destA).shape
  let shapeB := (← f.value destB).shape
  Checked.require (shapeA.bits == shapeB.bits) (.acrossBitSizes a b)
  let width := shapeA.width + shapeB.width
  if limit < width then return none
  let srcs ← (aluA.srcs.zip aluB.srcs).mapM fun (x, y) =>
    joinOperands a b shapeA.width shapeB.width x y
  let (i, f) ← f.insert (.after a) (.alu ⟨aluA.op, srcs⟩) (some ⟨width, shapeA.bits⟩)
  let wide ← Checked.orElse (.noDest i) (← f.instr i).dest
  let halves : List Half := [⟨destA, 0, shapeA.width⟩, ⟨destB, shapeA.width, shapeB.width⟩]
  let r ← halves.foldlM (Rewiring.half wide) ⟨f, i, [], 0, none⟩
  let f ← r.func.remove a
  let f ← f.remove b
  return some (⟨i, r.rewired, r.copies⟩, f)

end Function

end ShaderSSA
