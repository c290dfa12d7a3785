import ShaderSSA.Edit
import ShaderSSA.Variable

/-! Building instructions at a cursor. After each insertion the cursor stands behind the new
instruction, so a run of builds lands in program order. -/

namespace ShaderSSA

structure Builder where
  func : Function
  cursor : Cursor

/-- Steps that insert at the cursor and may fail. -/
abbrev Build := StateT Builder Checked

namespace Build

def func : Build Function := return (← get).func

def insert (body : Body) (dest : Option Shape) : Build InstrId := do
  let b ← get
  let (i, func) ← b.func.insert b.cursor body dest
  set (⟨func, .after i⟩ : Builder)
  return i

/-- Inserts an instruction with a destination and returns the new value. -/
def insertValue (body : Body) (shape : Shape) : Build ValueId := do
  let i ← insert body (some shape)
  Checked.orElse (.noDest i) (← (← func).instr i).dest

def shape (v : ValueId) : Build Shape := return (← (← func).value v).shape

/-! Arithmetic, constants and lane shuffles. -/

/-- The result has the bit size of the last source. -/
def aluSwizzled (op : AluOp) (srcs : List Operand) (width : Nat) : Build ValueId := do
  let bits ← match srcs.getLast? with
    | some o => pure (← shape o.value).bits
    | none => pure 32
  insertValue (.alu ⟨op, srcs⟩) ⟨width, bits⟩

/-- As wide as the widest of the lane-wise sources, unless the opcode fixes it. -/
def resultWidth (op : AluOp) (widths : List Nat) : Nat :=
  if op.shape.resultWidth ≠ 0 then op.shape.resultWidth
  else (((widths.zip op.shape.sourceWidths).filter (·.2 == 0)).map (·.1)).max?.getD 1

/-- A scalar is read in every lane. -/
def broadcast (v : ValueId) (width : Nat) : Operand :=
  if width = 1 then .channel v 0 else .whole v

def alu (op : AluOp) (srcs : List ValueId) : Build ValueId := do
  Checked.require (srcs.length == op.arity) (.aluArity op)
  let widths ← srcs.mapM fun v => return (← shape v).width
  aluSwizzled op (List.zipWith broadcast srcs widths) (resultWidth op widths)

def const (lanes : List UInt32) : Build ValueId :=
  insertValue (.const lanes) ⟨lanes.length % 256, 32⟩

def undef (shape : Shape) : Build ValueId := insertValue .undef shape

def mov (o : Operand) (width : Nat) : Build ValueId := aluSwizzled .mov [o] width

/-- A vector of scalars; one scalar is its own vector. -/
def vec : List ValueId → Build ValueId
  | [v] => return v
  | scalars => do
    let op ← Checked.orElse (.noConstruct scalars.length) (AluOp.construct? scalars.length)
    aluSwizzled op (scalars.map (.channel · 0)) scalars.length

/-- Chosen lanes of a value, which is the value itself when they are all of its lanes in order. -/
def swizzle (v : ValueId) (lanes : List Nat) : Build ValueId := do
  if lanes = List.range (← shape v).width then return v
  mov (← Operand.select v lanes) lanes.length

def channel (v : ValueId) (lane : Nat) : Build ValueId := swizzle v [lane]

/-- The first `n` lanes that an operand selects, as a value. -/
def materialize (o : Operand) (n : Nat) : Build ValueId := do
  let width := (← shape o.value).width
  if n = width ∧ o.swizzle.toList.take n = List.range n then return o.value
  mov (← Operand.select o.value (← o.swizzle.lanes n)) n

/-! Blocks and terminators. -/

def addBlock : Build BlockId := modifyGet fun b =>
  let (id, func) := b.func.addBlock
  (id, { b with func })

def switchTo (b : BlockId) : Build Unit := modify ({ · with cursor := .stop b })

def currentBlock : Build BlockId := do
  match (← get).cursor with
  | .start b | .stop b => return b
  | .before i | .after i => return (← (← func).instr i).block

/-- Ends the block that the cursor is in. -/
def terminate (t : Terminator) : Build Unit := do
  let func ← (← func).setTerminator (← currentBlock) t
  modify ({ · with func })

/-! Input and output. -/

def access (a : Access) (bits : Nat) : Build (Option ValueId) := do
  Checked.require (a.srcs.length == a.kind.arity) (.accessArity a.kind)
  if a.kind.hasDest then return some (← insertValue (.access a) ⟨a.width, bits⟩)
  let _ ← insert (.access a) none
  return none

def loadInput (shape : Shape) (offset : ValueId) (base component : Nat) : Build ValueId :=
  insertValue (.access ⟨.loadInput, shape.width, [offset], base, component, 0⟩) shape

def loadUniform (shape : Shape) (offset : ValueId) (base : Nat) : Build ValueId :=
  insertValue (.access ⟨.loadUniform, shape.width, [offset], base, 0, 0⟩) shape

def storeOutput (v offset : ValueId) (base component writeMask : Nat) : Build InstrId := do
  let width := (← shape v).width
  insert (.access ⟨.storeOutput, width, [v, offset], base, component, writeMask⟩) none

/-! Derefs. -/

def derefOf (v : ValueId) (otherwise : Breach) : Build Deref := do
  Checked.orElse otherwise (← (← func).definition v).body.deref?

def derefType (v : ValueId) : Build VarType := return (← derefOf v (.notADeref v)).type

def derefVar (v : VarId) (declaration : Variable) : Build ValueId :=
  insertValue (.deref ⟨.var v, declaration.mode, declaration.type⟩) ⟨1, 32⟩

def derefElement (parent index : ValueId) : Build ValueId := do
  let d ← derefOf parent (.parentNotDeref parent)
  match d.type with
  | .array element _ => insertValue (.deref ⟨.element parent index, d.mode, element⟩) ⟨1, 32⟩
  | other => Checked.breach (.notAnArray other)

/-- A read through a deref, of the shape the deref's type has. -/
def readDeref (kind : Intrinsic) (deref : ValueId) (rest : List ValueId) : Build ValueId := do
  let type ← derefType deref
  insertValue (.access (.ofSources kind type.components (deref :: rest)))
    ⟨type.components, type.bits⟩

def storeDeref (deref v : ValueId) (writeMask : Nat) : Build InstrId := do
  let width := (← shape v).width
  insert (.access ⟨.storeDeref, width, [deref, v], 0, 0, writeMask⟩) none

end Build

/-- Runs a build at a cursor and keeps the function it leaves. -/
def Function.build {α : Type} (f : Function) (c : Cursor) (m : Build α) :
    Checked (α × Function) := do
  let (a, b) ← m.run ⟨f, c⟩
  return (a, b.func)

end ShaderSSA
