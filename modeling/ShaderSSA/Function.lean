import ShaderSSA.Dominators
import ShaderSSA.Instr

/-! Function bodies: instructions, values and blocks, with the dominator tree kept until an edge
of the control flow changes. -/

namespace ShaderSSA

/-- Analyses that are known to be up to date. -/
structure Metadata where
  blockIndex : Bool
  dominance : Bool
  deriving DecidableEq

namespace Metadata

def empty : Metadata := ⟨false, false⟩

def all : Metadata := ⟨true, true⟩

def inter (m n : Metadata) : Metadata :=
  ⟨m.blockIndex && n.blockIndex, m.dominance && n.dominance⟩

def ofBits (n : Nat) : Metadata := ⟨n.testBit 0, n.testBit 1⟩

def toBits (m : Metadata) : Nat := m.blockIndex.toNat + 2 * m.dominance.toNat

end Metadata

structure Function where
  name : String
  instrs : Arena .instr Instr
  values : Arena .value Value
  blocks : Blocks
  dominance : Option DominatorTree
  valid : Metadata

/-- Where the next instruction goes. -/
inductive Cursor where
  | before (i : InstrId)
  | after (i : InstrId)
  | start (b : BlockId)
  | stop (b : BlockId)
  deriving DecidableEq

namespace Function

/-- A function with an empty entry block. -/
def ofName (name : String) : Function :=
  ⟨name, .empty, .empty, (Arena.empty.alloc Block.empty).2, none, .empty⟩

def instr (f : Function) (i : InstrId) : Checked Instr := Checked.inBounds (f.instrs.get? i)

def value (f : Function) (v : ValueId) : Checked Value := Checked.inBounds (f.values.get? v)

def block (f : Function) (b : BlockId) : Checked Block := Checked.inBounds (f.blocks.get? b)

def hasValue (f : Function) (v : ValueId) : Bool := (f.values.get? v).isSome

/-- The instruction that defines a value. -/
def definition (f : Function) (v : ValueId) : Checked Instr := do
  f.instr (← f.value v).source

def layout (f : Function) : List BlockId := f.blocks.ids

def blockInstrs (f : Function) (b : BlockId) : List InstrId :=
  match f.blocks.get? b with
  | some block => block.instrs
  | none => []

/-- The instructions of every block in layout order. -/
def liveInstrs (f : Function) : List InstrId := f.layout.flatMap f.blockInstrs

def destWidth (f : Function) (i : Instr) : Checked Nat :=
  match i.dest with
  | some v => return (← f.value v).shape.width
  | none => return 0

/-- How many lanes an arithmetic instruction reads through one of its sources. -/
def lanesRead (f : Function) (i : InstrId) (slot : Nat) : Checked Nat := do
  let instr ← f.instr i
  let alu ← Checked.orElse .lanesOfNonAlu instr.body.alu?
  match ← Checked.inBounds alu.op.shape.sourceWidths[slot]? with
  | 0 => f.destWidth instr
  | n => return n

/-- The dominator tree, built if there is none to reuse. -/
def requireDominance (f : Function) : DominatorTree × Function :=
  match f.dominance with
  | some tree => (tree, f)
  | none =>
    let tree := DominatorTree.build f.blocks
    (tree, { f with dominance := some tree, valid := { f.valid with dominance := true } })

/-- Forgets the analyses that are not in `kept`. -/
def preserve (f : Function) (kept : Metadata) : Function :=
  let valid := f.valid.inter kept
  { f with valid, dominance := if valid.dominance then f.dominance else none }

end Function

end ShaderSSA
