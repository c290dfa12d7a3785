/-! Typed indices. Instructions, values, blocks and variables are named by the position at
which an arena stored them, and no position is handed out twice. -/

namespace ShaderSSA

inductive Entity where
  | instr
  | value
  | block
  | var
  deriving DecidableEq

structure Id (e : Entity) where
  index : Nat
  deriving DecidableEq

abbrev InstrId := Id .instr
abbrev ValueId := Id .value
abbrev BlockId := Id .block
abbrev VarId := Id .var

namespace Id

variable {e : Entity}

/-- The name of nothing: the largest 32-bit index. -/
def absent : Id e := ⟨4294967295⟩

instance : Inhabited (Id e) := ⟨absent⟩

instance : Ord (Id e) := ⟨fun a b => compare a.index b.index⟩

def isValid (i : Id e) : Bool := i != absent

def render (i : Id e) : String :=
  if i.isValid then "#" ++ i.index.repr else "#INVALID"

end Id

end ShaderSSA
