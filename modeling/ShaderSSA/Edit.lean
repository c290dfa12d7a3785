import ShaderSSA.Function
import ShaderSSA.SwapErase

/-! Edits of a function. Each keeps the recorded readers of a value, the branches on it and the
predecessors of a block in step with the instructions and terminators they repeat. -/

namespace ShaderSSA

namespace Function

def modifyInstr (f : Function) (i : InstrId) (g : Instr → Instr) : Function :=
  { f with instrs := f.instrs.modify i g }

def modifyValue (f : Function) (v : ValueId) (g : Value → Value) : Function :=
  { f with values := f.values.modify v g }

def modifyBlock (f : Function) (b : BlockId) (g : Block → Block) : Function :=
  { f with blocks := f.blocks.modify b g }

def addUse (f : Function) (v : ValueId) (u : Use) : Checked Function := do
  let _ ← f.value v
  return f.modifyValue v fun x => { x with uses := x.uses ++ [u] }

/-- Drops the record that `i` reads `v` through `slot`. -/
def dropUse (f : Function) (v : ValueId) (i : InstrId) (slot : Nat) : Checked Function := do
  let uses ← Checked.orElse (.useMissing v i slot)
    (swapErase? (· == (⟨i, slot⟩ : Use)) (← f.value v).uses)
  return f.modifyValue v fun x => { x with uses }

def addBranchUse (f : Function) (v : ValueId) (b : BlockId) : Checked Function := do
  let _ ← f.value v
  return f.modifyValue v fun x => { x with branchUses := x.branchUses ++ [b] }

def dropBranchUse (f : Function) (v : ValueId) (b : BlockId) : Checked Function := do
  let branchUses ← Checked.orElse (.branchUseMissing v b)
    (swapErase? (· == b) (← f.value v).branchUses)
  return f.modifyValue v fun x => { x with branchUses }

def addPred (f : Function) (b pred : BlockId) : Checked Function := do
  let _ ← f.block b
  return f.modifyBlock b fun x => { x with preds := x.preds ++ [pred] }

def dropPred (f : Function) (b pred : BlockId) : Checked Function := do
  let preds := (← f.block b).preds
  return f.modifyBlock b fun x => { x with preds := (swapErase? (· == pred) preds).getD preds }

/-- Forgets what depends on the edges of the control flow. -/
def flowChanged (f : Function) : Function := { f with dominance := none, valid := .empty }

/-- Appends an empty block that returns. -/
def addBlock (f : Function) : BlockId × Function :=
  let (b, blocks) := f.blocks.alloc Block.empty
  (b, { f with blocks }.flowChanged)

def setTerminator (f : Function) (b : BlockId) (t : Terminator) : Checked Function := do
  let old := (← f.block b).terminator
  let f ← old.successors.foldlM (fun f s => f.dropPred s b) f
  let f ← old.condition?.elim (pure f) (f.dropBranchUse · b)
  let f ← t.successors.foldlM (fun f s => f.addPred s b) f
  let f ← t.condition?.elim (pure f) (f.addBranchUse · b)
  return (f.modifyBlock b fun x => { x with terminator := t }).flowChanged

/-- Makes the branch that ends `b` test another value. The edges stay as they are. -/
def setCondition (f : Function) (b : BlockId) (v : ValueId) : Checked Function := do
  let t := (← f.block b).terminator
  let old ← Checked.orElse (.notABranch b) t.condition?
  let f ← f.dropBranchUse old b
  let f ← f.addBranchUse v b
  return f.modifyBlock b fun x => { x with terminator := t.withCondition v }

/-- The block an instruction is in and its position there. -/
def position (f : Function) (i : InstrId) : Checked (BlockId × Nat) := do
  let b := (← f.instr i).block
  let pos ← Checked.orElse (.cursorUnlinked i) ((← f.block b).position? i)
  return (b, pos)

/-- The block and the position a cursor points at. -/
def resolve (f : Function) : Cursor → Checked (BlockId × Nat)
  | .start b => return (b, 0)
  | .stop b => return (b, (← f.block b).instrs.length)
  | .before i => f.position i
  | .after i => do
    let (b, pos) ← f.position i
    return (b, pos + 1)

/-- Records a new instruction as a reader of its sources, slot by slot. -/
def linkSources (f : Function) (i : InstrId) (srcs : List ValueId) : Checked Function :=
  srcs.zipIdx.foldlM (fun f (v, slot) => do
    Checked.require (f.hasValue v) (.unknownSource slot v)
    f.addUse v (.record i slot)) f

def allocDest (f : Function) (i : InstrId) (shape : Shape) : Checked Function := do
  Checked.require (1 ≤ shape.width && shape.width ≤ maxWidth) (.destWidth shape.width)
  let (v, values) := f.values.alloc ⟨i, shape, [], []⟩
  return { f with values }.modifyInstr i fun x => { x with dest := some v }

/-- Creates an instruction at the cursor, with a new value as its destination when a shape is
given. -/
def insert (f : Function) (c : Cursor) (body : Body) (dest : Option Shape) :
    Checked (InstrId × Function) := do
  let (b, pos) ← f.resolve c
  let (i, instrs) := f.instrs.alloc ⟨body, b, none, false⟩
  let f ← { f with instrs }.linkSources i body.srcs
  let f ← dest.elim (pure f) (f.allocDest i)
  let _ ← f.block b
  return (i, f.modifyBlock b fun x => { x with instrs := x.instrs.insertIdx pos i })

/-- Overwrites one source and leaves the records of readers alone. -/
def setSource (f : Function) (i : InstrId) (slot : Nat) (v : ValueId) : Checked Function := do
  let body ← (← f.instr i).body.setSrc slot v
  return f.modifyInstr i fun x => { x with body }

/-- Points one source at another value and moves the record of the reader. -/
def replaceSource (f : Function) (i : InstrId) (slot : Nat) (v : ValueId) : Checked Function := do
  let old ← (← f.instr i).body.src slot
  if old = v then return f
  let f ← f.dropUse old i slot
  let f ← f.addUse v (.record i slot)
  f.setSource i slot v

/-- Changes the lanes that an arithmetic instruction selects from one source. -/
def modifySwizzle (f : Function) (i : InstrId) (slot : Nat) (nonAlu : Breach)
    (g : Swizzle → Checked Swizzle) : Checked Function := do
  let alu ← Checked.orElse nonAlu (← f.instr i).body.alu?
  let swizzle ← g (← Checked.inBounds alu.srcs[slot]?).swizzle
  let srcs := alu.srcs.modify slot fun o => { o with swizzle }
  return f.modifyInstr i fun x => { x with body := .alu { alu with srcs } }

def setSwizzle (f : Function) (i : InstrId) (slot : Nat) (s : Swizzle) : Checked Function :=
  f.modifySwizzle i slot (.swizzleOfNonAlu i) fun _ => return s

/-- Replaces an arithmetic source, its lane selection included. -/
def replaceOperand (f : Function) (i : InstrId) (slot : Nat) (o : Operand) : Checked Function := do
  let f ← f.replaceSource i slot o.value
  f.modifySwizzle i slot (.operandOfNonAlu i) fun _ => return o.swizzle

/-- Hands every reader of `old`, branches included, over to `new`. -/
def replaceUses (f : Function) (old new : ValueId) : Checked Function := do
  Checked.require (old != new) (.ontoItself old)
  let uses := (← f.value old).uses
  let f := f.modifyValue old fun x => { x with uses := [] }
  let f ← uses.foldlM (fun f u => f.setSource u.instr u.slot new) f
  let _ ← f.value new
  let f := f.modifyValue new fun x => { x with uses := x.uses ++ uses }
  let branchUses := (← f.value old).branchUses
  let f := f.modifyValue old fun x => { x with branchUses := [] }
  let f := branchUses.foldl (fun f b =>
    f.modifyBlock b fun x => { x with terminator := x.terminator.withCondition new }) f
  return f.modifyValue new fun x => { x with branchUses := x.branchUses ++ branchUses }

/-- Takes an instruction that nobody reads out of its block and off the lists of its sources. -/
def remove (f : Function) (i : InstrId) : Checked Function := do
  let instr ← f.instr i
  Checked.require (!instr.removed) (.removedTwice i)
  if let some v := instr.dest then
    Checked.require (!(← f.value v).isRead) (.destStillRead i v)
  let f ← instr.body.srcs.zipIdx.foldlM (fun f (v, slot) => f.dropUse v i slot) f
  let f := f.modifyBlock instr.block fun x => { x with instrs := x.instrs.erase i }
  return f.modifyInstr i fun x => { x with removed := true }

end Function

end ShaderSSA
