import ShaderSSA.Edit
import ShaderSSA.Shader

/-! Chains of derefs, and the sweep of the steps that nobody reads. -/

namespace ShaderSSA

namespace Function

/-- The deref that defines a value, if it is one. -/
def deref (f : Function) (v : ValueId) : Checked (Option Deref) :=
  return (← f.definition v).body.deref?

def derefParent (f : Function) (v : ValueId) : Checked (Option ValueId) := do
  match ← f.deref v with
  | some ⟨.element parent _, _, _⟩ => return some parent
  | _ => return none

/-- The variable at the root of a chain of at most `steps` derefs. -/
def rootWithin (f : Function) : Nat → ValueId → Checked (Option VarId)
  | 0, _ => .error .endless
  | steps + 1, v => do
    match ← f.deref v with
    | some ⟨.element parent _, _, _⟩ => f.rootWithin steps parent
    | some ⟨.var root, _, _⟩ => return some root
    | none => return none

/-- A chain longer than the number of values goes round in a circle. -/
def derefRoot (f : Function) (v : ValueId) : Checked (Option VarId) :=
  f.rootWithin (f.values.size + 1) v

def isUnread (f : Function) (v : ValueId) : Bool := (f.values.get? v).all (!·.isRead)

def isDeadDeref (f : Function) (i : InstrId) : Bool :=
  (f.instrs.get? i).any fun instr => instr.body.deref?.isSome && instr.dest.all f.isUnread

def deadDerefs (f : Function) : List InstrId := f.liveInstrs.filter f.isDeadDeref

/-- Removing a step may leave its parent unread, so the sweep goes on until no step is dead. -/
def sweepWithin : Nat → Function → Checked Function
  | 0, _ => .error .endless
  | rounds + 1, f => do
    let dead := f.deadDerefs
    if dead.isEmpty then return f
    sweepWithin rounds (← dead.reverse.foldlM remove f)

/-- Every round but the last takes an instruction away. -/
def sweepDerefs (f : Function) : Checked Function := sweepWithin (f.liveInstrs.length + 1) f

end Function

namespace Shader

def hasDeadDeref (s : Shader) : Bool := s.functions.any (!·.deadDerefs.isEmpty)

/-- Sweeps every function and says whether a deref was removed. -/
def sweepDerefs (s : Shader) : Checked (Bool × Shader) := do
  let functions ← s.functions.mapM (·.sweepDerefs)
  return (s.hasDeadDeref, { s with functions })

end Shader

end ShaderSSA
