import ShaderSSA.Channels
import ShaderSSA.Lanes
import ShaderSSA.Shader

/-! Running the first function of a shader. Flat accesses reach slot `base + offset` and component
`component + lane`; deref accesses reach slot `location + flattened index` and component
`channel + lane`. A run is a sequence of block transitions, and only instructions are charged
against the step limit. -/

namespace ShaderSSA

inductive EvalError where
  | noFunction
  | unsupportedBits (instr : InstrId) (bits : Nat)
  | undefinedValue (value : ValueId)
  | notADeref (value : ValueId)
  | stepLimit (limit : Nat)
  deriving DecidableEq

def EvalError.message : EvalError → String
  | noFunction => "shader has no function to run"
  | unsupportedBits i n => i.render ++ " operates on unsupported " ++ n.repr ++ "-bit values"
  | undefinedValue v => v.render ++ " read before it was defined"
  | notADeref v => v.render ++ " is not a deref"
  | stepLimit n => "execution exceeded " ++ n.repr ++ " steps"

/-- Why a run stopped early. -/
inductive Halt where
  | error (e : EvalError)
  | fault (f : Fault)

abbrev Eval := Except Halt

def Eval.ofChecked {α : Type} : Checked α → Eval α
  | .ok a => .ok a
  | .error f => .error (.fault f)

instance : MonadLift Checked Eval := ⟨Eval.ofChecked⟩

/-- Where a deref chain points: a variable and a number of slots into it. -/
structure Place where
  var : VarId
  offset : Nat
  deriving DecidableEq

/-- What does not change during a run. -/
structure Setting where
  vars : Variables
  func : Function
  limit : Nat

structure Machine where
  values : SideTable .value (Option Lanes)
  places : SideTable .value (Option Place)
  io : IoState
  steps : Nat

namespace Machine

def start (io : IoState) : Machine := ⟨.empty, .empty, io, 0⟩

def read (m : Machine) (v : ValueId) : Eval Lanes :=
  match m.values.find? v with
  | some lanes => .ok lanes
  | none => .error (.error (.undefinedValue v))

def place (m : Machine) (v : ValueId) : Eval Place :=
  match m.places.find? v with
  | some p => .ok p
  | none => .error (.error (.notADeref v))

def define (m : Machine) (dest : Option ValueId) (lanes : Lanes) : Machine :=
  match dest with
  | some v => { m with values := m.values.set v (some lanes) }
  | none => m

def definePlace (m : Machine) (dest : Option ValueId) (p : Place) : Machine :=
  match dest with
  | some v => { m with places := m.places.set v (some p) }
  | none => m

/-- The lanes one operand hands to the instruction, zeros past those it reads. -/
def operand (m : Machine) (f : Function) (i : InstrId) (slot : Nat) (o : Operand) : Eval Lanes := do
  let raw ← m.read o.value
  let selected ← o.swizzle.lanes (← f.lanesRead i slot)
  let lanes ← selected.mapM fun lane => Checked.inBounds raw[lane]?
  return .ofList lanes

variable [FloatOps]

def alu (m : Machine) (f : Function) (i : InstrId) (dest : Option ValueId) (a : Alu) :
    Eval Lanes := do
  let shape ← match dest with
    | some v => pure (← f.value v).shape
    | none => pure ⟨1, 32⟩
  if shape.bits ≠ 32 then throw (.error (.unsupportedBits i shape.bits))
  let srcs ← a.srcs.zipIdx.mapM fun (o, slot) => m.operand f i slot o
  return a.op.eval shape.width srcs

/-- The channels of `n` lanes, in order, from one component on. -/
def channels (slot first n : Nat) : Checked (List Channel) :=
  (List.range n).mapM fun lane => return ⟨slot, ← Checked.fit 8 (first + lane)⟩

def load (table : Channels) (slot first width : Nat) : Checked Lanes := do
  return .ofList ((← channels slot first (min width 4)).map table.read)

/-- Writes the lanes of the mask, one after the other. -/
def store (slot first mask : Nat) (x : Lanes) (outputs : Channels) (lane : Nat) :
    Checked Channels := do
  if !(← Checked.maskBit mask lane) then return outputs
  let component ← Checked.fit 8 (first + lane)
  return outputs.write ⟨slot, component⟩ (← Checked.inBounds x[lane]?)

def storeAll (m : Machine) (slot first width mask : Nat) (x : Lanes) : Checked Machine := do
  let outputs ← (List.range width).foldlM (store slot first mask x) m.io.outputs
  return { m with io := { m.io with outputs } }

/-- The slot of a flat access. -/
def flatSlot (m : Machine) (a : Access) (offset : ValueId) : Eval Nat := do
  Checked.fit 32 (a.base + (← m.read offset).first.toNat)

/-- The variable that a deref reaches, and the slot within all slots. -/
def derefSlot (m : Machine) (s : Setting) (deref : ValueId) : Eval (Variable × Nat) := do
  let p ← m.place deref
  let var ← s.vars.get p.var
  return (var, ← Checked.fit 32 (var.location.toNat + p.offset))

def tableOf (io : IoState) (mode : Mode) : Channels :=
  if mode.output then io.outputs else if mode.uniform then io.uniforms else io.inputs

def access (m : Machine) (s : Setting) (dest : Option ValueId) (a : Access) : Eval Machine := do
  match a.kind with
  | .loadInput =>
    let slot ← m.flatSlot a (← a.src 0)
    return m.define dest (← load m.io.inputs slot a.component a.width)
  | .loadUniform =>
    let slot ← m.flatSlot a (← a.src 0)
    return m.define dest (← load m.io.uniforms slot a.component a.width)
  | .storeOutput =>
    let x ← m.read (← a.src 0)
    let slot ← m.flatSlot a (← a.src 1)
    m.storeAll slot a.component a.width a.writeMask x
  | .loadDeref | .interpAtCentroid | .interpAtSample | .interpAtOffset =>
    let (var, slot) ← m.derefSlot s (← a.src 0)
    return m.define dest (← load (tableOf m.io var.mode) slot var.channel a.width)
  | .storeDeref =>
    let (var, slot) ← m.derefSlot s (← a.src 0)
    let x ← m.read (← a.src 1)
    m.storeAll slot var.channel a.width a.writeMask x

/-- Where a deref step points; an array step moves by whole elements. -/
def derefPlace (m : Machine) (d : Deref) : Eval Place := do
  match d.step with
  | .var v => return ⟨v, 0⟩
  | .element parent index =>
    let p ← m.place parent
    let stride ← Checked.noOverflow d.type.slotCount?
    let offset ← Checked.fit 32 ((← m.read index).first.toNat * stride)
    return ⟨p.var, ← Checked.fit 32 (p.offset + offset)⟩

def perform (m : Machine) (s : Setting) (i : InstrId) (instr : Instr) : Eval Machine := do
  match instr.body with
  | .alu a => return m.define instr.dest (← m.alu s.func i instr.dest a)
  | .access a => m.access s instr.dest a
  | .deref d => return m.definePlace instr.dest (← m.derefPlace d)
  | .const lanes =>
    if lanes.length ≤ 4 then return m.define instr.dest (.ofList lanes)
    throw (.fault .outOfBounds)
  | .undef => return m.define instr.dest .zero

/-- Charges one step and performs the instruction. -/
def step (m : Machine) (s : Setting) (i : InstrId) : Eval Machine := do
  if s.limit ≤ m.steps then throw (.error (.stepLimit s.limit))
  let instr ← s.func.instr i
  { m with steps := m.steps + 1 }.perform s i instr

/-- Performs instructions until one halts the run, which leaves the machine as it was before. -/
def stepAll (s : Setting) : List InstrId → Machine → Machine × Option Halt
  | [], m => (m, none)
  | i :: rest, m =>
    match m.step s i with
    | .ok m => stepAll s rest m
    | .error h => (m, some h)

/-- Where a terminator leads; nowhere from a return. -/
def next (m : Machine) : Terminator → Eval (Option BlockId)
  | .ret => .ok none
  | .jump t => .ok (some t)
  | .branch c yes no => do return some (if (← m.read c).first != 0 then yes else no)

/-- A run between two blocks, or at its end. -/
inductive State where
  | entering (m : Machine) (b : BlockId)
  | finished (m : Machine) (halt : Option Halt)

/-- One block transition. -/
def transition (s : Setting) (m : Machine) (b : BlockId) : State :=
  match s.func.blocks.get? b with
  | none => .finished m (some (.fault .outOfBounds))
  | some block =>
    match stepAll s block.instrs m with
    | (m, some h) => .finished m (some h)
    | (m, none) =>
      match m.next block.terminator with
      | .error h => .finished m (some h)
      | .ok none => .finished m none
      | .ok (some t) => .entering m t

/-- What a run has come to after at most `n` block transitions, if it has ended. -/
def runFor (s : Setting) : Nat → State → Option (Machine × Option Halt)
  | _, .finished m h => some (m, h)
  | 0, .entering _ _ => none
  | n + 1, .entering m b => runFor s n (transition s m b)

end Machine

structure Outcome where
  io : IoState
  halt : Option Halt

/-- Steps allowed when no limit is given. -/
def defaultStepLimit : Nat := 100000

namespace Shader

/-- Enough block transitions for any run that ends: between two charged steps no block is entered
twice, since nothing changes there. -/
def transitionBound (f : Function) (limit : Nat) : Nat := (limit + 1) * (f.blocks.size + 1)

variable [FloatOps]

/-- Runs the first function. There is no outcome when the run goes round for ever in blocks that
hold no instruction. -/
def run (s : Shader) (io : IoState) (limit : Nat) : Option Outcome :=
  match s.functions with
  | [] => some ⟨io, some (.error .noFunction)⟩
  | f :: _ =>
    (Machine.runFor ⟨s.vars, f, limit⟩ (transitionBound f limit)
      (.entering (.start io) entryBlock)).map fun r => ⟨r.1.io, r.2⟩

end Shader

end ShaderSSA
