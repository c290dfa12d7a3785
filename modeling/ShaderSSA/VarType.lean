/-! Types of shader variables. What the passes ask of a type is its shape: the innermost
vector once arrays are stripped, and the number of 32-bit counted slots it fills. -/

namespace ShaderSSA

inductive BaseType where
  | float
  | int
  | uint
  | bool
  deriving DecidableEq

inductive VarType where
  /-- A scalar when it has one component. -/
  | vector (base : BaseType) (bits components : Nat)
  | matrix (base : BaseType) (bits columns rows : Nat)
  | record (name : String) (fields : List VarType)
  | array (element : VarType) (length : Nat)

namespace BaseType

def letter : BaseType → String
  | .float => ""
  | .int => "i"
  | .uint => "u"
  | .bool => "b"

def name : BaseType → String
  | .float => "float"
  | .int => "int"
  | .uint => "uint"
  | .bool => "bool"

def all : List BaseType := [.float, .int, .uint, .bool]

def ofName? (s : String) : Option BaseType := all.find? (·.name == s)

end BaseType

namespace VarType

def floats (n : Nat) : VarType := .vector .float 32 n

def ints (n : Nat) : VarType := .vector .int 32 n

def doubles (n : Nat) : VarType := .vector .float 64 n

def floatMatrix (columns rows : Nat) : VarType := .matrix .float 32 columns rows

def isArray : VarType → Bool
  | .array .. => true
  | _ => false

def isMatrix : VarType → Bool
  | .matrix .. => true
  | _ => false

def isRecord : VarType → Bool
  | .record .. => true
  | _ => false

def is64Bit : VarType → Bool
  | .vector _ bits _ => bits == 64
  | .matrix _ bits _ _ => bits == 64
  | _ => false

def withoutArray : VarType → VarType
  | .array t _ => t.withoutArray
  | t => t

/-- Channels of the innermost vector, none for a record. -/
def components (t : VarType) : Nat :=
  match t.withoutArray with
  | .vector _ _ n => n
  | .matrix _ _ _ rows => rows
  | _ => 0

def bits (t : VarType) : Nat :=
  match t.withoutArray with
  | .vector _ b _ => b
  | .matrix _ b _ _ => b
  | _ => 0

/-- The same arrays around a single channel. Matrices and records have no channels. -/
def channelType? : VarType → Option VarType
  | .vector base b _ => some (.vector base b 1)
  | .array t n => t.channelType?.map (.array · n)
  | _ => none

def fit32? (n : Nat) : Option Nat := if n < 1 <<< 32 then some n else none

mutual

/-- Slots a variable of this type fills. There is no count once a product or a sum on the way
leaves 32 bits. -/
def slotCount? : VarType → Option Nat
  | .vector .. => some 1
  | .matrix _ _ columns _ => some columns
  | .record _ fields => fieldSlots? fields
  | .array t n => t.slotCount?.bind fun k => fit32? (k * n)

def fieldSlots? : List VarType → Option Nat
  | [] => some 0
  | t :: ts => t.slotCount?.bind fun k => (fieldSlots? ts).bind fun m => fit32? (k + m)

end

def render : VarType → String
  | .vector .float 64 1 => "double"
  | .vector base _ 1 => base.name
  | .vector base b n => (if b == 64 then "d" else base.letter) ++ "vec" ++ n.repr
  | .matrix _ _ c r => if c == r then "mat" ++ c.repr else "mat" ++ c.repr ++ "x" ++ r.repr
  | .record name _ => "struct " ++ name
  | .array t n => t.render ++ "[" ++ n.repr ++ "]"

end VarType

end ShaderSSA
