import ShaderSSA.Defect
import ShaderSSA.Shader

/-! Checking a function: the first defect in layout order, then the recorded readers of every
value whose definition is still there. -/

namespace ShaderSSA

abbrev Checking := ExceptT Defect Checked

namespace Checking

def refuse {α : Type} (d : Defect) : Checking α := .ok (.error d)

def require (p : Bool) (d : Defect) : Checking Unit := if p then .ok (.ok ()) else refuse d

end Checking

namespace Function

def checkSource (f : Function) (i : InstrId) (slot : Nat) (v : ValueId) : Checking Unit := do
  Checking.require (f.hasValue v) (.danglingSource i slot v)
  Checking.require (!(← f.definition v).removed) (.sourceRemoved i slot v)
  Checking.require ((← f.value v).uses.contains (.record i slot)) (.missingUse v i slot)

/-- Every lane that is read lies within the value. -/
def checkLanes (f : Function) (i : InstrId) (slot : Nat) (o : Operand) : Checking Unit := do
  let width := (← f.value o.value).shape.width
  let lanes ← o.swizzle.lanes (← f.lanesRead i slot)
  match lanes.find? (width ≤ ·) with
  | some lane => Checking.refuse (.laneOutOfRange i slot lane width)
  | none => pure ()

def checkAlu (f : Function) (i : InstrId) (a : Alu) : Checking Unit := do
  Checking.require (a.srcs.length == a.op.arity) (.arityMismatch i a.op.arity a.srcs.length)
  a.srcs.zipIdx.forM fun (o, slot) => f.checkLanes i slot o

/-- A store's mask stays within its channels. -/
def checkAccess (i : InstrId) (a : Access) : Checking Unit := do
  Checking.require (a.srcs.length == a.kind.arity) (.arityMismatch i a.kind.arity a.srcs.length)
  if a.kind.hasWriteMask then
    Checking.require ((← Checked.maskFrom a.writeMask a.width) == 0)
      (.badWriteMask i a.writeMask a.width)

def checkInstr (f : Function) (b : BlockId) (i : InstrId) : Checking Unit := do
  let instr ← f.instr i
  Checking.require (!instr.removed) (.removedLinked i b)
  Checking.require (instr.block == b) (.blockMismatch i b instr.block)
  instr.body.srcs.zipIdx.forM fun (v, slot) => f.checkSource i slot v
  if let some v := instr.dest then
    let width := (← f.value v).shape.width
    Checking.require (1 ≤ width && width ≤ maxWidth) (.badWidth v width)
  match instr.body with
  | .alu a => f.checkAlu i a
  | .access a => checkAccess i a
  | _ => pure ()

def checkTerminator (f : Function) (b : BlockId) : Checking Unit := do
  if let some v := (← f.block b).terminator.condition? then
    Checking.require (f.hasValue v) (.danglingCondition b v)
    Checking.require (!(← f.definition v).removed) (.danglingCondition b v)

def checkBlock (f : Function) (b : BlockId) : Checking Unit := do
  (← f.block b).instrs.forM (f.checkInstr b)
  f.checkTerminator b

/-- A recorded use is still a read of the value. -/
def checkUse (f : Function) (v : ValueId) (u : Use) : Checking Unit := do
  let reader ← f.instr u.instr
  Checking.require (!reader.removed && reader.body.srcs[u.slot]? == some v)
    (.staleUse v u.instr u.slot)

def checkBranchUse (f : Function) (v : ValueId) (b : BlockId) : Checking Unit := do
  Checking.require ((← f.block b).terminator.condition? == some v) (.staleBranchUse v b)

def checkReaders (f : Function) (v : ValueId) : Checking Unit := do
  let value ← f.value v
  unless (← f.instr value.source).removed do
    value.uses.forM (f.checkUse v)
    value.branchUses.forM (f.checkBranchUse v)

def check (f : Function) : Checking Unit := do
  f.layout.forM f.checkBlock
  f.values.ids.forM f.checkReaders

end Function

def Shader.check (s : Shader) : Checking Unit := s.functions.forM Function.check

end ShaderSSA
