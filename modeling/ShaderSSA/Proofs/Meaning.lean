import ShaderSSA.Machine
import ShaderSSA.Proofs.Views

/-! What a function means. A run is described by what it has computed and not by the tables that
hold it or the steps it took, and an instruction by the effect of its body alone. -/

namespace ShaderSSA

/-- What a run has computed so far. -/
structure Env where
  values : ValueId → Option Lanes
  places : ValueId → Option Place
  io : IoState

/-- What an instruction leaves behind: a value, a place or new outputs. -/
inductive Effect where
  | value (x : Lanes)
  | place (p : Place)
  | outputs (t : Channels)

/-- Lanes read through a source slot by an instruction with this destination. -/
def AluOp.readWidth? (op : AluOp) (dest : Option Shape) (slot : Nat) : Option Nat :=
  op.shape.sourceWidths[slot]?.map fun n => if n = 0 then dest.elim 0 (·.width) else n

namespace Env

def start (io : IoState) : Env := ⟨fun _ => none, fun _ => none, io⟩

def operand (e : Env) (n : Nat) (o : Operand) : Option Lanes := do
  let raw ← e.values o.value
  let selected ← (o.swizzle.lanes n).toOption
  let lanes ← selected.mapM fun k => raw[k]?
  return .ofList lanes

variable [FloatOps]

def alu (e : Env) (dest : Option Shape) (a : Alu) : Option Lanes :=
  if dest.elim 32 (·.bits) = 32 then
    (a.srcs.zipIdx.mapM fun p => (a.op.readWidth? dest p.2).bind fun n => e.operand n p.1).map
      (a.op.eval (dest.elim 1 (·.width)))
  else none

def flatSlot (e : Env) (base : Nat) (offset : ValueId) : Option Nat := do
  (Checked.fit 32 (base + (← e.values offset).first.toNat)).toOption

/-- The variable and the slot that a deref reaches. -/
def derefSlot (e : Env) (vars : Variables) (deref : ValueId) : Option (Variable × Nat) := do
  let p ← e.places deref
  let var ← vars.get? p.var
  return (var, ← (Checked.fit 32 (var.location.toNat + p.offset)).toOption)

/-- The outputs once the lanes of the mask are written. -/
def stored (e : Env) (slot first width mask : Nat) (x : Lanes) : Option Effect :=
  (((List.range width).foldlM (Machine.store slot first mask x) e.io.outputs).toOption).map .outputs

def loaded (table : Channels) (slot first width : Nat) : Option Effect :=
  (Machine.load table slot first width).toOption.map .value

def access (e : Env) (vars : Variables) (a : Access) : Option Effect := do
  match a.kind with
  | .loadInput => loaded e.io.inputs (← e.flatSlot a.base (← a.srcs[0]?)) a.component a.width
  | .loadUniform => loaded e.io.uniforms (← e.flatSlot a.base (← a.srcs[0]?)) a.component a.width
  | .storeOutput =>
    let x ← e.values (← a.srcs[0]?)
    e.stored (← e.flatSlot a.base (← a.srcs[1]?)) a.component a.width a.writeMask x
  | .loadDeref | .interpAtCentroid | .interpAtSample | .interpAtOffset =>
    let (var, slot) ← e.derefSlot vars (← a.srcs[0]?)
    loaded (Machine.tableOf e.io var.mode) slot var.channel a.width
  | .storeDeref =>
    let (var, slot) ← e.derefSlot vars (← a.srcs[0]?)
    e.stored slot var.channel a.width a.writeMask (← e.values (← a.srcs[1]?))

def derefPlace (e : Env) (d : Deref) : Option Place := do
  match d.step with
  | .var v => return ⟨v, 0⟩
  | .element parent index =>
    let p ← e.places parent
    let stride ← d.type.slotCount?
    let offset ← (Checked.fit 32 ((← e.values index).first.toNat * stride)).toOption
    return ⟨p.var, ← (Checked.fit 32 (p.offset + offset)).toOption⟩

/-- What a body does for a destination of the given shape, unless it halts the run. -/
def effect (e : Env) (vars : Variables) (dest : Option Shape) : Body → Option Effect
  | .alu a => (e.alu dest a).map .value
  | .access a => e.access vars a
  | .deref d => (e.derefPlace d).map .place
  | .const lanes => if lanes.length ≤ 4 then some (.value (.ofList lanes)) else none
  | .undef => some (.value .zero)

def define (e : Env) (v : ValueId) (x : Lanes) : Env :=
  { e with values := fun w => if w = v then some x else e.values w }

def definePlace (e : Env) (v : ValueId) (p : Place) : Env :=
  { e with places := fun w => if w = v then some p else e.places w }

def apply (e : Env) (dest : Option ValueId) : Effect → Env
  | .value x => dest.elim e (e.define · x)
  | .place p => dest.elim e (e.definePlace · p)
  | .outputs t => { e with io := { e.io with outputs := t } }

/-- Where a terminator leads: nowhere from a return. -/
def next (e : Env) : Terminator → Option (Option BlockId)
  | .ret => some none
  | .jump t => some (some t)
  | .branch c yes no => (e.values c).map fun x => some (if x.first != 0 then yes else no)

end Env

namespace Function

variable [FloatOps]

/-- The shape of an instruction's result, if it has one. -/
def destShape? (f : Function) (i : InstrId) : Option Shape := (f.dest? i).bind f.shape?

def step? (f : Function) (vars : Variables) (i : InstrId) (e : Env) : Option Env :=
  (f.body? i).bind fun b => (e.effect vars (f.destShape? i) b).map (e.apply (f.dest? i))

def exec? (f : Function) (vars : Variables) (is : List InstrId) (e : Env) : Option Env :=
  is.foldlM (fun e i => f.step? vars i e) e

/-- A run from the start of a block to a return, with what it leaves outside. -/
inductive Runs (f : Function) (vars : Variables) : BlockId → Env → IoState → Prop
  | ret {b e e' t} : f.terminator? b = some t → f.exec? vars (f.blockInstrs b) e = some e' →
      e'.next t = some none → Runs f vars b e e'.io
  | goes {b e e' t c io} : f.terminator? b = some t →
      f.exec? vars (f.blockInstrs b) e = some e' → e'.next t = some (some c) →
      Runs f vars c e' io → Runs f vars b e io

end Function

end ShaderSSA
