import ShaderSSA.Function

/-! Classes of instructions that can be merged: the same lane-wise opcode on the same values at
the same bit size. Which lanes are selected does not matter, so `a.x + b.x` and `a.y + b.y` are
of one class. -/

namespace ShaderSSA

structure ClassKey where
  op : AluOp
  bits : Nat
  srcs : List ValueId
  deriving DecidableEq

namespace Function

/-- A linked lane-wise instruction with a result; moves are left alone. -/
def canMerge (f : Function) (i : InstrId) : Checked Bool := do
  let instr ← f.instr i
  return !instr.removed && instr.dest.isSome &&
    instr.body.alu?.any fun a => !a.op.isMove && a.op.isLaneWise

def classOf (f : Function) (i : InstrId) : Checked (Option ClassKey) := do
  let instr ← f.instr i
  if !(← f.canMerge i) then return none
  match instr.body.alu?, instr.dest with
  | some a, some v => return some ⟨a.op, (← f.value v).shape.bits, a.srcs.map (·.value)⟩
  | _, _ => return none

end Function

end ShaderSSA
