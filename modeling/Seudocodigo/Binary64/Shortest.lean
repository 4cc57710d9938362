import Seudocodigo.Binary64

/-! The fewest decimal digits that read back as a given real, and of those with as few digits the
nearest, found by search over ever finer decimal grids. -/
namespace Seudocodigo.Binary64

/-- A positive decimal: its digits, the first before the point and the others behind it, and the
power of ten they are multiplied by. -/
structure Scientific where
  digits : List Char
  exponent : Int
deriving DecidableEq, Repr

/-- A finite size is `significand * 2 ^ unit`. -/
def significand (x : Binary64) : Nat :=
  if x.size < Nat.pow 2 52 then x.size else Nat.pow 2 52 + x.size % Nat.pow 2 52

def unit (x : Binary64) : Int :=
  if x.size < Nat.pow 2 52 then -1074 else (x.size / Nat.pow 2 52 : Nat) - 1075

def decimalLe (a : Nat) (i : Int) (b : Nat) (j : Int) : Bool :=
  a * Nat.pow 10 i.toNat * Nat.pow 2 (-j).toNat ≤ b * Nat.pow 2 j.toNat * Nat.pow 10 (-i).toNat

def leDecimal (b : Nat) (j : Int) (a : Nat) (i : Int) : Bool :=
  b * Nat.pow 2 j.toNat * Nat.pow 10 (-i).toNat ≤ a * Nat.pow 10 i.toNat * Nat.pow 2 (-j).toNat

/-- Whether `a * 10 ^ i` rounds to the size of `x`: it lies between the midpoints to the two
neighbours, and may be a midpoint when the significand is even. Below a power of two the neighbour
is twice as near. -/
def readsBack (x : Binary64) (a : Nat) (i : Int) : Bool :=
  let narrow := x.size % Nat.pow 2 52 = 0 ∧ Nat.pow 2 53 ≤ x.size
  let low := if narrow then 4 * x.significand - 1 else 4 * x.significand - 2
  let high := 4 * x.significand + 2
  if x.significand % 2 = 0 then leDecimal low (x.unit - 2) a i && decimalLe a i high (x.unit - 2)
  else !decimalLe a i low (x.unit - 2) && !leDecimal high (x.unit - 2) a i

def leading (x : Binary64) : Int :=
  let b := ((x.significand.log2 : Int) + x.unit) * 30103 / 100000
  if decimalLe 1 (b + 1) x.significand x.unit then b + 1
  else if decimalLe 1 b x.significand x.unit then b
  else b - 1

/-- The multiple of `10 ^ i` that rounds to `x` and lies next to it, the nearer of two and the
upper one of two as near. -/
def onGrid (x : Binary64) (i : Int) : Option Nat :=
  let below := x.significand * Nat.pow 2 x.unit.toNat * Nat.pow 10 (-i).toNat
    / (Nat.pow 2 (-x.unit).toNat * Nat.pow 10 i.toNat)
  match x.readsBack below i, x.readsBack (below + 1) i with
  | true, true =>
    some (if decimalLe (2 * below + 1) i (2 * x.significand) x.unit then below + 1 else below)
  | true, false => some below
  | false, true => some (below + 1)
  | false, false => none

def Scientific.ofNat (a : Nat) (i : Int) : Scientific :=
  let ds := (Nat.repr a).toList
  ⟨(ds.reverse.dropWhile (· = '0')).reverse, i + ds.length - 1⟩

/-- The shortest decimal that reads back as the finite, positive size of `x`. Seventeen digits are
enough; past them the exact value would be written. -/
def shortest (x : Binary64) : Scientific :=
  let found := (List.range 17).findSome? fun (n : Nat) =>
    (x.onGrid (x.leading - n)).map (Scientific.ofNat · (x.leading - n))
  found.getD <|
    Scientific.ofNat (x.significand * Nat.pow 2 x.unit.toNat * Nat.pow 5 (-x.unit).toNat)
      (min x.unit 0)

end Seudocodigo.Binary64
