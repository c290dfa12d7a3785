/-! Kinds of input and output access. Flat accesses address a slot by base and offset, deref
accesses go through a chain of derefs to a variable. -/

namespace ShaderSSA

inductive Intrinsic where
  /-- Source: offset. -/
  | loadInput
  /-- Sources: value, offset. -/
  | storeOutput
  /-- Source: offset. -/
  | loadUniform
  /-- Source: deref. -/
  | loadDeref
  /-- Sources: deref, value. -/
  | storeDeref
  /-- Source: deref. -/
  | interpAtCentroid
  /-- Sources: deref, sample. -/
  | interpAtSample
  /-- Sources: deref, offset. -/
  | interpAtOffset
  deriving DecidableEq

namespace Intrinsic

def name : Intrinsic → String
  | loadInput => "load_input"
  | storeOutput => "store_output"
  | loadUniform => "load_uniform"
  | loadDeref => "load_deref"
  | storeDeref => "store_deref"
  | interpAtCentroid => "interp_deref_at_centroid"
  | interpAtSample => "interp_deref_at_sample"
  | interpAtOffset => "interp_deref_at_offset"

def all : List Intrinsic :=
  [loadInput, storeOutput, loadUniform, loadDeref, storeDeref, interpAtCentroid, interpAtSample,
    interpAtOffset]

def ofName? (s : String) : Option Intrinsic := all.find? (·.name == s)

def arity : Intrinsic → Nat
  | loadInput | loadUniform | loadDeref | interpAtCentroid => 1
  | storeOutput | storeDeref | interpAtSample | interpAtOffset => 2

def isStore : Intrinsic → Bool
  | storeOutput | storeDeref => true
  | _ => false

def hasDest (k : Intrinsic) : Bool := !k.isStore

def hasWriteMask (k : Intrinsic) : Bool := k.isStore

def isInterp : Intrinsic → Bool
  | interpAtCentroid | interpAtSample | interpAtOffset => true
  | _ => false

def isDerefAccess : Intrinsic → Bool
  | loadDeref | storeDeref | interpAtCentroid | interpAtSample | interpAtOffset => true
  | _ => false

def hasBase : Intrinsic → Bool
  | loadInput | storeOutput | loadUniform => true
  | _ => false

def hasComponent : Intrinsic → Bool
  | loadInput | storeOutput => true
  | _ => false

/-- Where a store finds the value it writes. -/
def storedSlot? : Intrinsic → Option Nat
  | storeOutput => some 0
  | storeDeref => some 1
  | _ => none

end Intrinsic

end ShaderSSA
