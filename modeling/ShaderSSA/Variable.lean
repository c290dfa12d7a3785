import ShaderSSA.Arena
import ShaderSSA.Fault
import ShaderSSA.Mode

/-! Variables and their declared list. Dropping a variable takes it off the list and keeps its
data, so a deref that still names it can be read. -/

namespace ShaderSSA

structure VarFlags where
  /-- One value for a whole patch. -/
  patch : Bool
  /-- Every channel stays live, read or not. -/
  alwaysActive : Bool
  invariant : Bool
  deriving DecidableEq

namespace VarFlags

def ofBits (n : Nat) : VarFlags := ⟨n.testBit 0, n.testBit 1, n.testBit 2⟩

def toBits (f : VarFlags) : Nat := f.patch.toNat + 2 * f.alwaysActive.toNat + 4 * f.invariant.toNat

end VarFlags

structure Variable where
  name : String
  mode : Mode
  type : VarType
  /-- The varying slot, or -1 when none is assigned. -/
  location : Int
  /-- The first channel within the slot. -/
  channel : Nat
  flags : VarFlags
  driverLocation : Nat

namespace Variable

/-- The first slot that is not a built-in. -/
def firstGenericSlot : Int := 32

def isBuiltin (v : Variable) : Bool := 0 ≤ v.location && v.location < firstGenericSlot

end Variable

structure Variables where
  arena : Arena .var Variable
  declared : List VarId

namespace Variables

def empty : Variables := ⟨.empty, []⟩

def get? (vs : Variables) (i : VarId) : Option Variable := vs.arena.get? i

def get (vs : Variables) (i : VarId) : Checked Variable := Checked.inBounds (vs.get? i)

def add (vs : Variables) (v : Variable) : VarId × Variables :=
  let (i, arena) := vs.arena.alloc v
  (i, ⟨arena, vs.declared ++ [i]⟩)

def modify (vs : Variables) (i : VarId) (f : Variable → Variable) : Variables :=
  { vs with arena := vs.arena.modify i f }

def drop (vs : Variables) (i : VarId) : Variables :=
  { vs with declared := vs.declared.filter (· != i) }

def isDeclared (vs : Variables) (i : VarId) : Bool := vs.declared.contains i

def holds (vs : Variables) (p : Variable → Bool) (i : VarId) : Bool := (vs.get? i).any p

def withMode (vs : Variables) (m : Mode) : List VarId :=
  vs.declared.filter (vs.holds (·.mode.intersects m))

def find? (vs : Variables) (name : String) : Option VarId :=
  vs.declared.find? (vs.holds (·.name == name))

end Variables

end ShaderSSA
