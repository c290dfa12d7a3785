import ShaderSSA.Ident

/-! Basic blocks: instructions in program order, the way out, and the blocks that lead in. -/

namespace ShaderSSA

inductive Terminator where
  | jump (target : BlockId)
  /-- Goes to `yes` when lane 0 of the condition is not zero. -/
  | branch (cond : ValueId) (yes no : BlockId)
  | ret
  deriving DecidableEq

namespace Terminator

def successors : Terminator → List BlockId
  | jump t => [t]
  | branch _ yes no => [yes, no]
  | ret => []

def condition? : Terminator → Option ValueId
  | branch c _ _ => some c
  | _ => none

def withCondition (c : ValueId) : Terminator → Terminator
  | branch _ yes no => branch c yes no
  | t => t

end Terminator

structure Block where
  instrs : List InstrId
  terminator : Terminator
  preds : List BlockId
  deriving DecidableEq

def Block.empty : Block := ⟨[], .ret, []⟩

/-- How many instructions stand before `i`. -/
def Block.position? (b : Block) (i : InstrId) : Option Nat := b.instrs.idxOf? i

end ShaderSSA
