/-! Single-precision arithmetic on bit patterns. A finite pattern stands for an integer times a
power of two; sums, products and fused products are computed exactly and rounded once, to the
nearest pattern and to the even one on a tie. -/

namespace ShaderSSA.Binary32

def isNaN (a : UInt32) : Bool := 0x7f800000 < a &&& 0x7fffffff

def isInf (a : UInt32) : Bool := a &&& 0x7fffffff == 0x7f800000

def isNeg (a : UInt32) : Bool := a &&& 0x80000000 != 0

def exponentField (a : UInt32) : Nat := (a >>> 23 &&& 0xff).toNat

def fractionField (a : UInt32) : Nat := (a &&& 0x7fffff).toNat

/-- A finite number `± mantissa * 2 ^ (exponent - 298)`. The offset keeps exponents of products of
two patterns natural. -/
structure Dyadic where
  neg : Bool
  mantissa : Nat
  exponent : Nat

namespace Dyadic

/-- The pattern's exponent is at least that of the least subnormal, 149 below the unit. -/
def ofBits (a : UInt32) : Dyadic :=
  if exponentField a = 0 then ⟨isNeg a, fractionField a, 149⟩
  else ⟨isNeg a, 0x800000 + fractionField a, exponentField a + 148⟩

def signed (x : Dyadic) (exponent : Nat) : Int :=
  let m : Int := (x.mantissa <<< (x.exponent - exponent) : Nat)
  if x.neg then -m else m

/-- A zero sum is negative when both terms are. -/
def add (x y : Dyadic) : Dyadic :=
  let e := min x.exponent y.exponent
  let s := x.signed e + y.signed e
  ⟨if s = 0 then x.neg && y.neg else decide (s < 0), s.natAbs, e⟩

def mul (x y : Dyadic) : Dyadic :=
  ⟨x.neg != y.neg, x.mantissa * y.mantissa, x.exponent + y.exponent - 298⟩

/-- `mantissa / 2 ^ shift`, a half going to the even neighbour. -/
def roundShift (mantissa shift : Nat) : Nat :=
  let unit := 1 <<< shift
  let q := mantissa / unit
  let r := 2 * (mantissa % unit)
  if r > unit ∨ r = unit ∧ q % 2 = 1 then q + 1 else q

def signBit (neg : Bool) : UInt32 := if neg then 0x80000000 else 0

/-- The pattern nearest to the number. The last place kept is that of 24 significant bits, but
never below that of the subnormals; past the largest pattern comes infinity. -/
def toBits (x : Dyadic) : UInt32 :=
  if x.mantissa = 0 then signBit x.neg else
  let top := x.exponent + (x.mantissa.log2 + 1)
  let place := max (top - 24) 149
  let m := if place ≤ x.exponent then x.mantissa <<< (x.exponent - place)
    else roundShift x.mantissa (place - x.exponent)
  signBit x.neg ||| UInt32.ofNat (min ((place - 149) * 0x800000 + m) 0x7f800000)

end Dyadic

def defaultNaN : UInt32 := 0xffc00000

/-- The first operand that is a NaN, made quiet. -/
def nanOf? (xs : List UInt32) : Option UInt32 := (xs.find? isNaN).map (· ||| 0x400000)

def negate (a : UInt32) : UInt32 := a ^^^ 0x80000000

def abs (a : UInt32) : UInt32 := a &&& 0x7fffffff

/-- The sum of patterns that are not NaNs. -/
def addNumbers (a b : UInt32) : UInt32 :=
  if isInf a then (if isInf b ∧ isNeg a ≠ isNeg b then defaultNaN else a)
  else if isInf b then b
  else ((Dyadic.ofBits a).add (Dyadic.ofBits b)).toBits

def add (a b : UInt32) : UInt32 := (nanOf? [a, b]).getD (addNumbers a b)

def sub (a b : UInt32) : UInt32 := (nanOf? [a, b]).getD (addNumbers a (negate b))

def isZero (a : UInt32) : Bool := abs a == 0

/-- The product of two infinite or zero patterns that are not both numbers. -/
def mulSpecial? (a b : UInt32) : Option UInt32 :=
  if isInf a ∨ isInf b then
    some (if isZero a ∨ isZero b then defaultNaN
      else Dyadic.signBit (isNeg a != isNeg b) ||| 0x7f800000)
  else none

def mul (a b : UInt32) : UInt32 :=
  (nanOf? [a, b]).getD
    ((mulSpecial? a b).getD ((Dyadic.ofBits a).mul (Dyadic.ofBits b)).toBits)

/-- `a * b + c`, rounded once. -/
def fma (a b c : UInt32) : UInt32 :=
  (nanOf? [a, b, c]).getD <|
    match mulSpecial? a b with
    | some p => if isNaN p then p else addNumbers p c
    | none =>
      if isInf c then c
      else (((Dyadic.ofBits a).mul (Dyadic.ofBits b)).add (Dyadic.ofBits c)).toBits

/-- A number whose order is that of the patterns, the two zeros together. -/
def orderKey (a : UInt32) : Int := if isNeg a then -((abs a).toNat : Int) else (abs a).toNat

def lt (a b : UInt32) : Bool := !isNaN a && !isNaN b && orderKey a < orderKey b

def ge (a b : UInt32) : Bool := !isNaN a && !isNaN b && orderKey b ≤ orderKey a

def eq (a b : UInt32) : Bool := !isNaN a && !isNaN b && orderKey a == orderKey b

/-- The lesser operand, or the other one when one is a NaN. -/
def min (a b : UInt32) : UInt32 := if isNaN a ∨ lt b a then b else a

/-- The greater operand, or the other one when one is a NaN. -/
def max (a b : UInt32) : UInt32 := if isNaN a ∨ lt a b then b else a

end ShaderSSA.Binary32
