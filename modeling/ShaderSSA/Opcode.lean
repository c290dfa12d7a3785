import ShaderSSA.VarType

/-! Arithmetic opcodes. A lane-wise opcode computes lane `i` of its result from lane `i` of
each source, so its width is free; dot products and vector constructs have fixed widths. -/

namespace ShaderSSA

/-- Widest value. -/
def maxWidth : Nat := 4

inductive AluOp where
  | mov
  | fadd
  | fsub
  | fmul
  | fneg
  | fabs
  | fmin
  | fmax
  | ffma
  | iadd
  | isub
  | imul
  | ineg
  | iand
  | ior
  | ixor
  | flt
  | fge
  | feq
  | ilt
  | ieq
  | bcsel
  | fdot2
  | fdot3
  | fdot4
  | vec2
  | vec3
  | vec4
  deriving DecidableEq

/-- Operand shape of an opcode. A width of zero follows the width of the instruction. -/
structure OpShape where
  name : String
  arity : Nat
  resultWidth : Nat
  sourceWidths : List Nat
  resultType : BaseType

namespace OpShape

def laneWise (name : String) (arity : Nat) (result : BaseType) : OpShape :=
  ⟨name, arity, 0, List.replicate maxWidth 0, result⟩

def fixed (name : String) (arity resultWidth sourceWidth : Nat) (result : BaseType) : OpShape :=
  ⟨name, arity, resultWidth,
    List.replicate arity sourceWidth ++ List.replicate (maxWidth - arity) 0, result⟩

end OpShape

namespace AluOp

def shape : AluOp → OpShape
  | mov => .laneWise "mov" 1 .uint
  | fadd => .laneWise "fadd" 2 .float
  | fsub => .laneWise "fsub" 2 .float
  | fmul => .laneWise "fmul" 2 .float
  | fneg => .laneWise "fneg" 1 .float
  | fabs => .laneWise "fabs" 1 .float
  | fmin => .laneWise "fmin" 2 .float
  | fmax => .laneWise "fmax" 2 .float
  | ffma => .laneWise "ffma" 3 .float
  | iadd => .laneWise "iadd" 2 .int
  | isub => .laneWise "isub" 2 .int
  | imul => .laneWise "imul" 2 .int
  | ineg => .laneWise "ineg" 1 .int
  | iand => .laneWise "iand" 2 .uint
  | ior => .laneWise "ior" 2 .uint
  | ixor => .laneWise "ixor" 2 .uint
  | flt => .laneWise "flt" 2 .bool
  | fge => .laneWise "fge" 2 .bool
  | feq => .laneWise "feq" 2 .bool
  | ilt => .laneWise "ilt" 2 .bool
  | ieq => .laneWise "ieq" 2 .bool
  | bcsel => .laneWise "bcsel" 3 .uint
  | fdot2 => .fixed "fdot2" 2 1 2 .float
  | fdot3 => .fixed "fdot3" 2 1 3 .float
  | fdot4 => .fixed "fdot4" 2 1 4 .float
  | vec2 => .fixed "vec2" 2 2 1 .uint
  | vec3 => .fixed "vec3" 3 3 1 .uint
  | vec4 => .fixed "vec4" 4 4 1 .uint

def name (op : AluOp) : String := op.shape.name

def arity (op : AluOp) : Nat := op.shape.arity

def all : List AluOp :=
  [mov, fadd, fsub, fmul, fneg, fabs, fmin, fmax, ffma, iadd, isub, imul, ineg, iand, ior, ixor,
    flt, fge, feq, ilt, ieq, bcsel, fdot2, fdot3, fdot4, vec2, vec3, vec4]

def ofName? (s : String) : Option AluOp := all.find? (·.name == s)

/-- The opcode that builds a vector of `n` scalars. -/
def construct? : Nat → Option AluOp
  | 2 => some vec2
  | 3 => some vec3
  | 4 => some vec4
  | _ => none

def isMove (op : AluOp) : Bool := op == mov

def isLaneWise (op : AluOp) : Bool :=
  op.shape.resultWidth == 0 && (op.shape.sourceWidths.take op.arity).all (· == 0)

end AluOp

end ShaderSSA
