import ShaderSSA.Ident

/-! What can be wrong with a function body, and how it is reported. -/

namespace ShaderSSA

inductive Defect where
  | danglingSource (instr : InstrId) (slot : Nat) (value : ValueId)
  | sourceRemoved (instr : InstrId) (slot : Nat) (value : ValueId)
  | missingUse (value : ValueId) (instr : InstrId) (slot : Nat)
  | staleUse (value : ValueId) (instr : InstrId) (slot : Nat)
  | removedLinked (instr : InstrId) (block : BlockId)
  | blockMismatch (instr : InstrId) (linked recorded : BlockId)
  | badWidth (value : ValueId) (width : Nat)
  | badWriteMask (instr : InstrId) (mask width : Nat)
  | laneOutOfRange (instr : InstrId) (slot lane width : Nat)
  | arityMismatch (instr : InstrId) (expected found : Nat)
  | danglingCondition (block : BlockId) (value : ValueId)
  | staleBranchUse (value : ValueId) (block : BlockId)
  deriving DecidableEq

namespace Defect

/-- A mask in binary with at least four digits. -/
def renderMask (m : Nat) : String :=
  let digits := Nat.toDigits 2 m
  "0b" ++ String.ofList (List.replicate (4 - digits.length) '0' ++ digits)

def message : Defect → String
  | danglingSource i s v =>
    i.render ++ " source " ++ s.repr ++ " references unknown value " ++ v.render
  | sourceRemoved i s v =>
    i.render ++ " source " ++ s.repr ++ " reads " ++ v.render ++ ", whose definition was removed"
  | missingUse v i s =>
    v.render ++ " has no use record for " ++ i.render ++ " source " ++ s.repr
  | staleUse v i s => v.render ++ " lists a stale use by " ++ i.render ++ " source " ++ s.repr
  | removedLinked i b =>
    "removed instruction " ++ i.render ++ " is still linked into " ++ b.render
  | blockMismatch i linked recorded =>
    i.render ++ " is linked into " ++ linked.render ++ " but records " ++ recorded.render
  | badWidth v n => v.render ++ " has " ++ n.repr ++ " components"
  | badWriteMask i m n =>
    i.render ++ " write mask " ++ renderMask m ++ " exceeds " ++ n.repr ++ " components"
  | laneOutOfRange i s lane n =>
    i.render ++ " source " ++ s.repr ++ " selects lane " ++ lane.repr ++ " of a " ++ n.repr ++
      "-wide value"
  | arityMismatch i expected found =>
    i.render ++ " has " ++ found.repr ++ " sources, expected " ++ expected.repr
  | danglingCondition b v =>
    "branch in " ++ b.render ++ " tests invalid condition " ++ v.render
  | staleBranchUse v b => v.render ++ " lists a stale if-use by " ++ b.render

end Defect

end ShaderSSA
