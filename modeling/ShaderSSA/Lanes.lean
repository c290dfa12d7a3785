import ShaderSSA.Binary32
import ShaderSSA.Opcode

/-! Values at run time: four 32-bit lanes, and what each opcode computes from them. -/

namespace ShaderSSA

abbrev Lanes := Vector UInt32 4

namespace Lanes

def zero : Lanes := Vector.replicate 4 0

/-- Lane 0, where scalars live. -/
def first (x : Lanes) : UInt32 := x.get ⟨0, Nat.zero_lt_succ 3⟩

/-- The given lanes first, zeros after them. -/
def ofList (xs : List UInt32) : Lanes := Vector.ofFn fun i => xs.getD i 0

end Lanes

/-- All ones for true. -/
def boolWord (b : Bool) : UInt32 := if b then 0xffffffff else 0

/-- Two's complement order. -/
def signedLt (a b : UInt32) : Bool := a.toInt32 < b.toInt32

/-- What floating-point opcodes compute from the bits of their operands. -/
class FloatOps where
  add (a b : UInt32) : UInt32
  sub (a b : UInt32) : UInt32
  mul (a b : UInt32) : UInt32
  negate (a : UInt32) : UInt32
  abs (a : UInt32) : UInt32
  min (a b : UInt32) : UInt32
  max (a b : UInt32) : UInt32
  fma (a b c : UInt32) : UInt32
  dot (xs ys : List UInt32) : UInt32
  lt (a b : UInt32) : Bool
  ge (a b : UInt32) : Bool
  eq (a b : UInt32) : Bool

/-- A dot product is the rounded products added from the left, starting at minus zero. -/
instance : FloatOps where
  add := Binary32.add
  sub := Binary32.sub
  mul := Binary32.mul
  negate := Binary32.negate
  abs := Binary32.abs
  min := Binary32.min
  max := Binary32.max
  fma := Binary32.fma
  dot xs ys := (List.zipWith Binary32.mul xs ys).foldl Binary32.add 0x80000000
  lt := Binary32.lt
  ge := Binary32.ge
  eq := Binary32.eq

namespace AluOp

variable [FloatOps]

/-- One lane of a lane-wise opcode. Integer arithmetic wraps. -/
def lane (op : AluOp) (a b c : UInt32) : UInt32 :=
  match op with
  | mov => a
  | fadd => FloatOps.add a b
  | fsub => FloatOps.sub a b
  | fmul => FloatOps.mul a b
  | fneg => FloatOps.negate a
  | fabs => FloatOps.abs a
  | fmin => FloatOps.min a b
  | fmax => FloatOps.max a b
  | ffma => FloatOps.fma a b c
  | iadd => a + b
  | isub => a - b
  | imul => a * b
  | ineg => -a
  | iand => a &&& b
  | ior => a ||| b
  | ixor => a ^^^ b
  | flt => boolWord (FloatOps.lt a b)
  | fge => boolWord (FloatOps.ge a b)
  | feq => boolWord (FloatOps.eq a b)
  | ilt => boolWord (signedLt a b)
  | ieq => boolWord (a == b)
  | bcsel => if a != 0 then b else c
  | fdot2 | fdot3 | fdot4 | vec2 | vec3 | vec4 => 0

/-- What an instruction of width `width` computes from the lanes it reads; a missing source reads
as zeros. -/
def eval (op : AluOp) (width : Nat) (srcs : List Lanes) : Lanes :=
  let src (k : Nat) : Lanes := srcs.getD k Lanes.zero
  match op with
  | fdot2 => .ofList [FloatOps.dot ((src 0).toList.take 2) ((src 1).toList.take 2)]
  | fdot3 => .ofList [FloatOps.dot ((src 0).toList.take 3) ((src 1).toList.take 3)]
  | fdot4 => .ofList [FloatOps.dot (src 0).toList (src 1).toList]
  | vec2 | vec3 | vec4 => .ofList (srcs.map Lanes.first)
  | _ => Vector.ofFn fun i =>
    if i < width then op.lane ((src 0).get i) ((src 1).get i) ((src 2).get i) else 0

end AluOp

end ShaderSSA
