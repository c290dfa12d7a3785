/-! Storage classes. The same flags say where one variable lives and which variables a pass
works on. -/

namespace ShaderSSA

structure Mode where
  input : Bool
  output : Bool
  uniform : Bool
  temporary : Bool
  deriving DecidableEq

namespace Mode

def empty : Mode := ⟨false, false, false, false⟩

def shaderIn : Mode := ⟨true, false, false, false⟩

def shaderOut : Mode := ⟨false, true, false, false⟩

/-- Inputs and outputs. -/
def inOut : Mode := ⟨true, true, false, false⟩

def isEmpty (m : Mode) : Bool := m == empty

def intersects (m n : Mode) : Bool :=
  m.input && n.input || m.output && n.output || m.uniform && n.uniform ||
    m.temporary && n.temporary

def ofBits (n : Nat) : Mode := ⟨n.testBit 0, n.testBit 1, n.testBit 2, n.testBit 3⟩

def toBits (m : Mode) : Nat :=
  m.input.toNat + 2 * m.output.toNat + 4 * m.uniform.toNat + 8 * m.temporary.toNat

theorem ofBits_toBits (m : Mode) : ofBits m.toBits = m := by
  obtain ⟨a, b, c, d⟩ := m
  cases a <;> cases b <;> cases c <;> cases d <;> rfl

end Mode

end ShaderSSA
