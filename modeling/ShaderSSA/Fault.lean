import ShaderSSA.Ident
import ShaderSSA.Intrinsic
import ShaderSSA.Opcode
import ShaderSSA.VarType

/-! What ends an operation for good. A breach is a caller's mistake and carries its cause; the
wording is in one place. Indexing past an end and leaving the range of a fixed-width number are
faults too, and so is a walk that would never come back. -/

namespace ShaderSSA

inductive Breach where
  | noChannelType (type : VarType)
  | noConstruct (scalars : Nat)
  | laneCount (lanes : Nat)
  | noDerefSlot (slot : Nat)
  | noSlot (slot : Nat)
  | lanesOfNonAlu
  | branchUseMissing (value : ValueId) (block : BlockId)
  | notABranch (block : BlockId)
  | cursorUnlinked (instr : InstrId)
  | unknownSource (slot : Nat) (value : ValueId)
  | destWidth (width : Nat)
  | useMissing (value : ValueId) (instr : InstrId) (slot : Nat)
  | operandOfNonAlu (instr : InstrId)
  | swizzleOfNonAlu (instr : InstrId)
  | ontoItself (value : ValueId)
  | removedTwice (instr : InstrId)
  | destStillRead (instr : InstrId) (dest : ValueId)
  | aluArity (op : AluOp)
  | accessArity (kind : Intrinsic)
  | parentNotDeref (value : ValueId)
  | notAnArray (type : VarType)
  | notADeref (value : ValueId)
  | inputWithoutDest (instr : InstrId)
  | loadWithoutDest (instr : InstrId)
  | sourceNotDeref (kind : Intrinsic) (instr : InstrId)
  | noRootVariable (instr : InstrId)
  | channelPastSlot (channel : Nat) (variableName : String)
  | notAlu (instr : InstrId)
  | noDest (instr : InstrId)
  | acrossOpcodes (a b : InstrId)
  | acrossBitSizes (a b : InstrId)
  | acrossSources (a b : InstrId)
  | readAfterMerge (value : ValueId)
  | lostClass (instr : InstrId)
  | noStack (instr : InstrId)
  | notOnStack (instr : InstrId)
  | stacksLeft

inductive Fault where
  | breach (cause : Breach)
  | overflow
  | outOfBounds
  /-- The operation would never return. -/
  | endless

abbrev Checked := Except Fault

namespace Breach

def message : Breach → String
  | noChannelType t => "no channel type for " ++ t.render
  | noConstruct n => "no vector-construct opcode for " ++ n.repr ++ " components"
  | laneCount n => "swizzle needs 1..=4 lanes, got " ++ n.repr
  | noDerefSlot s => "deref array has no source slot " ++ s.repr
  | noSlot s => "instruction has no source slot " ++ s.repr
  | lanesOfNonAlu => "alu_src_components on non-ALU instruction"
  | branchUseMissing v b => "if-use of " ++ v.render ++ " by " ++ b.render ++ " missing"
  | notABranch b => "block " ++ b.render ++ " does not end in a branch"
  | cursorUnlinked i => "cursor instruction " ++ i.render ++ " is not linked"
  | unknownSource s v =>
    "source " ++ s.repr ++ " of new instruction references unknown value " ++ v.render
  | destWidth n => "destination width " ++ n.repr ++ " out of range"
  | useMissing v i s =>
    "use of " ++ v.render ++ " by " ++ i.render ++ "[" ++ s.repr ++ "] missing"
  | operandOfNonAlu i => "rewrite_alu_src on non-ALU instruction " ++ i.render
  | swizzleOfNonAlu i => "alu_swizzle_mut on non-ALU instruction " ++ i.render
  | ontoItself v => "cannot rewrite " ++ v.render ++ " onto itself"
  | removedTwice i => "instruction " ++ i.render ++ " removed twice"
  | destStillRead i v =>
    "removing " ++ i.render ++ " while its destination " ++ v.render ++ " still has readers"
  | aluArity op => op.name ++ " takes " ++ op.arity.repr ++ " sources"
  | accessArity k => k.name ++ " takes " ++ k.arity.repr ++ " sources"
  | parentNotDeref v => "array deref parent " ++ v.render ++ " is not a deref"
  | notAnArray t => "cannot index non-array type " ++ t.render
  | notADeref v => v.render ++ " is not a deref"
  | inputWithoutDest i => "load_input " ++ i.render ++ " has no destination"
  | loadWithoutDest i => i.render ++ " loads without a destination"
  | sourceNotDeref k i => k.name ++ " source 0 of " ++ i.render ++ " is not a deref"
  | noRootVariable i => "deref chain of " ++ i.render ++ " has no root variable"
  | channelPastSlot c n => "channel " ++ c.repr ++ " of " ++ n ++ " is past the end of its slot"
  | notAlu i => i.render ++ " is not an ALU instruction"
  | noDest i => i.render ++ " has no destination"
  | acrossOpcodes a b => "combining " ++ a.render ++ " and " ++ b.render ++ " across opcodes"
  | acrossBitSizes a b => "combining " ++ a.render ++ " and " ++ b.render ++ " across bit sizes"
  | acrossSources a b => "combining " ++ a.render ++ " and " ++ b.render ++ " across sources"
  | readAfterMerge v => v.render ++ " still read after combine"
  | lostClass i => i.render ++ " lost eligibility after a source rewrite"
  | noStack i => i.render ++ " tracked under a class with no stack"
  | notOnStack i => i.render ++ " missing from its class stack"
  | stacksLeft => "equivalence stacks not unwound"

end Breach

namespace Checked

def breach {α : Type} (b : Breach) : Checked α := .error (.breach b)

/-- Refuses with `b` unless the condition holds. -/
def require (p : Bool) (b : Breach) : Checked Unit := if p then .ok () else breach b

def orElse {α : Type} (b : Breach) : Option α → Checked α
  | some a => .ok a
  | none => breach b

def inBounds {α : Type} : Option α → Checked α
  | some a => .ok a
  | none => .error .outOfBounds

def noOverflow {α : Type} : Option α → Checked α
  | some a => .ok a
  | none => .error .overflow

/-- A number of `bits` bits, or an overflow. -/
def fit (bits n : Nat) : Checked Nat := if n < 1 <<< bits then .ok n else .error .overflow

/-- Bit `i` of an 8-bit mask. -/
def maskBit (m i : Nat) : Checked Bool := if i < 8 then .ok (m.testBit i) else .error .overflow

/-- An 8-bit mask without its first `n` bits. -/
def maskFrom (m n : Nat) : Checked Nat := if n < 8 then .ok (m >>> n) else .error .overflow

end Checked

end ShaderSSA
