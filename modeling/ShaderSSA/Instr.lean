import ShaderSSA.Fault
import ShaderSSA.Mode

/-! Instructions and the values they define. An instruction reads its sources by slot, and each
value records its readers as pairs of instruction and slot. -/

namespace ShaderSSA

/-- Lane `i` of the reader takes lane `swizzle[i]` of the value. -/
abbrev Swizzle := Vector Nat 4

def Swizzle.identity : Swizzle := #v[0, 1, 2, 3]

/-- The lanes that a reader of width `n` selects. -/
def Swizzle.lanes (s : Swizzle) (n : Nat) : Checked (List Nat) :=
  if n ≤ 4 then .ok (s.toList.take n) else .error .outOfBounds

structure Operand where
  value : ValueId
  swizzle : Swizzle
  deriving DecidableEq

namespace Operand

def whole (v : ValueId) : Operand := ⟨v, .identity⟩

def channel (v : ValueId) (lane : Nat) : Operand := ⟨v, Vector.replicate 4 lane⟩

/-- The given lanes, the last one repeated to the end. -/
def select (v : ValueId) (lanes : List Nat) : Checked Operand :=
  match lanes.getLast? with
  | some last =>
    if lanes.length ≤ 4 then .ok ⟨v, Vector.ofFn fun i => lanes.getD i last⟩
    else Checked.breach (.laneCount lanes.length)
  | none => Checked.breach (.laneCount 0)

end Operand

structure Alu where
  op : AluOp
  srcs : List Operand
  deriving DecidableEq

/-- A load, store or interpolation. `base` and `component` place a flat access, `writeMask`
chooses the channels of a store. -/
structure Access where
  kind : Intrinsic
  width : Nat
  srcs : List ValueId
  base : Nat
  component : Nat
  writeMask : Nat
  deriving DecidableEq

def Access.ofSources (kind : Intrinsic) (width : Nat) (srcs : List ValueId) : Access :=
  ⟨kind, width, srcs, 0, 0, 0⟩

def Access.src (a : Access) (slot : Nat) : Checked ValueId := Checked.inBounds a.srcs[slot]?

inductive DerefStep where
  | var (v : VarId)
  | element (parent index : ValueId)
  deriving DecidableEq

/-- One step of a chain, with the type of the place it reaches. -/
structure Deref where
  step : DerefStep
  mode : Mode
  type : VarType

inductive Body where
  | alu (a : Alu)
  | access (a : Access)
  | deref (d : Deref)
  | const (lanes : List UInt32)
  | undef

namespace Body

def srcs : Body → List ValueId
  | alu a => a.srcs.map (·.value)
  | access a => a.srcs
  | deref ⟨.element parent index, _, _⟩ => [parent, index]
  | _ => []

def src : Body → Nat → Checked ValueId
  | alu a, slot => Checked.inBounds (a.srcs[slot]?.map (·.value))
  | access a, slot => a.src slot
  | deref ⟨.element parent _, _, _⟩, 0 => .ok parent
  | deref ⟨.element _ index, _, _⟩, 1 => .ok index
  | deref ⟨.element _ _, _, _⟩, slot => Checked.breach (.noDerefSlot slot)
  | _, slot => Checked.breach (.noSlot slot)

def setSrc : Body → Nat → ValueId → Checked Body
  | alu a, slot, v =>
    if slot < a.srcs.length then
      .ok (.alu { a with srcs := a.srcs.modify slot fun o => { o with value := v } })
    else .error .outOfBounds
  | access a, slot, v =>
    if slot < a.srcs.length then .ok (.access { a with srcs := a.srcs.set slot v })
    else .error .outOfBounds
  | deref d, slot, v =>
    match d.step, slot with
    | .element _ index, 0 => .ok (.deref { d with step := .element v index })
    | .element parent _, 1 => .ok (.deref { d with step := .element parent v })
    | .element _ _, _ => Checked.breach (.noDerefSlot slot)
    | .var _, _ => Checked.breach (.noSlot slot)
  | _, slot, _ => Checked.breach (.noSlot slot)

def alu? : Body → Option Alu
  | alu a => some a
  | _ => none

def access? : Body → Option Access
  | access a => some a
  | _ => none

def deref? : Body → Option Deref
  | deref d => some d
  | _ => none

def isAlu (b : Body) : Bool := b.alu?.isSome

end Body

structure Instr where
  body : Body
  block : BlockId
  dest : Option ValueId
  removed : Bool

/-- Width and bit size of a value. -/
structure Shape where
  width : Nat
  bits : Nat
  deriving DecidableEq

structure Use where
  instr : InstrId
  slot : Nat
  deriving DecidableEq

/-- Slots are recorded in eight bits. -/
def Use.record (i : InstrId) (slot : Nat) : Use := ⟨i, slot % 256⟩

structure Value where
  source : InstrId
  shape : Shape
  uses : List Use
  branchUses : List BlockId
  deriving DecidableEq

def Value.isRead (v : Value) : Bool := !v.uses.isEmpty || !v.branchUses.isEmpty

end ShaderSSA
