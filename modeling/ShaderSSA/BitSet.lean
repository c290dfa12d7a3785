/-! Sets of small numbers, one bit each in 64-bit words. The words grow when a member past
the end is added and never shrink, and two sets are equal when their words are. -/

namespace ShaderSSA

structure BitSet where
  words : Array UInt64
  deriving DecidableEq

namespace BitSet

def empty : BitSet := ⟨#[]⟩

/-- An empty set with room for `bits` members. -/
def ofCapacity (bits : Nat) : BitSet := ⟨Array.replicate ((bits + 63) / 64) 0⟩

def mask (b : Nat) : UInt64 := 1 <<< UInt64.ofNat (b % 64)

def contains (s : BitSet) (b : Nat) : Bool :=
  match s.words[b / 64]? with
  | some w => w &&& mask b != 0
  | none => false

/-- The words, with zeros added up to the one that holds `b`. -/
def reserve (s : BitSet) (b : Nat) : BitSet :=
  ⟨s.words ++ Array.replicate (b / 64 + 1 - s.words.size) 0⟩

def insert (s : BitSet) (b : Nat) : BitSet :=
  ⟨(s.reserve b).words.modify (b / 64) (· ||| mask b)⟩

/-- Whether `b` was there, and the set with it. -/
def containsThenInsert (s : BitSet) (b : Nat) : Bool × BitSet :=
  ((s.reserve b).contains b, s.insert b)

def erase (s : BitSet) (b : Nat) : BitSet := ⟨s.words.modify (b / 64) (· &&& ~~~ mask b)⟩

def popCount (w : UInt64) : Nat := (List.range 64).countP w.toNat.testBit

def count (s : BitSet) : Nat := s.words.toList.foldr (fun w n => popCount w + n) 0

end BitSet

end ShaderSSA
