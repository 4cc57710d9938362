/-! The reals of the language: floating point numbers of 64 bits, a sign bit, eleven bits of
exponent and 52 of fraction. A decimal is read as the nearest such number. Everything here is exact
arithmetic on natural numbers. -/
namespace Seudocodigo

structure Binary64 where
  bits : UInt64
deriving DecidableEq, Repr

namespace Binary64

def infinity : Nat := 0x7ff * Nat.pow 2 52

def ofSize (negative : Bool) (size : Nat) : Binary64 :=
  ⟨UInt64.ofNat (if negative then Nat.pow 2 63 + size else size)⟩

def notANumber : Binary64 := ofSize false (infinity + Nat.pow 2 51)

def isNegative (x : Binary64) : Bool := Nat.pow 2 63 ≤ x.bits.toNat

/-- The bits without the sign. They grow with the absolute value. -/
def size (x : Binary64) : Nat := x.bits.toNat % Nat.pow 2 63

def roundDiv (n d : Nat) : Nat :=
  if 2 * (n % d) < d then n / d
  else if d < 2 * (n % d) then n / d + 1
  else n / d + n / d % 2

/-- The size nearest to the positive quotient `n / d`, ties to an even significand. The quotient is
counted in units of `2 ^ q`, where `q` leaves 53 bits before the point or is the least exponent. -/
def nearest (n d : Nat) : Nat :=
  let k : Int := n.log2 - d.log2
  let e := if d * Nat.pow 2 k.toNat ≤ n * Nat.pow 2 (-k).toNat then k else k - 1
  let q := max (e - 52) (-1074)
  min infinity <|
    (q + 1074).toNat * Nat.pow 2 52 + roundDiv (n * Nat.pow 2 (-q).toNat) (d * Nat.pow 2 q.toNat)

/-- The number nearest to `digits * 10 ^ exponent`. The first two cases spare powers of ten that
could only lead to zero or infinity. -/
def ofDecimal (negative : Bool) (digits : Nat) (exponent : Int) : Binary64 :=
  ofSize negative <|
    if digits = 0 ∨ (digits.log2 : Int) + 1 + 3 * exponent < -1080 then 0
    else if 310 < exponent then infinity
    else nearest (digits * Nat.pow 10 exponent.toNat) (Nat.pow 10 (-exponent).toNat)

example : ofDecimal false 1 0 = ⟨0x3ff0000000000000⟩ := by decide +kernel
example : ofDecimal false 9007199254740993 0 = ⟨0x4340000000000000⟩ := by decide +kernel
example : ofDecimal true 5 (-324) = ⟨0x8000000000000001⟩ := by decide +kernel
example : ofDecimal false 2 308 = ⟨0x7ff0000000000000⟩ := by decide +kernel

end Binary64
end Seudocodigo
