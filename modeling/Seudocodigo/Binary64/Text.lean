import Seudocodigo.Binary64.Shortest

/-! How reals are written and read. The shortest digits are written with a point and at least one
digit on both sides of it from `0.0001` up to `10 ^ 16`, and with an exponent elsewhere. -/
namespace Seudocodigo.Binary64

def Scientific.positional (s : Scientific) : List Char :=
  if s.exponent < 0 then
    '0' :: '.' :: (List.replicate ((-s.exponent).toNat - 1) '0' ++ s.digits)
  else
    let whole := s.exponent.toNat + 1
    let fraction := s.digits.drop whole
    s.digits.take whole ++ List.replicate (whole - s.digits.length) '0'
      ++ '.' :: (if fraction = [] then ['0'] else fraction)

def Scientific.exponential (s : Scientific) : List Char :=
  let point := if s.digits.length ≤ 1 then [] else ['.']
  s.digits.take 1 ++ point ++ s.digits.drop 1 ++ 'e' :: (toString s.exponent).toList

def Scientific.chars (s : Scientific) : List Char :=
  if -4 ≤ s.exponent ∧ s.exponent < 16 then s.positional else s.exponential

def text (x : Binary64) : String :=
  if infinity < x.size then "NaN"
  else
    let digits :=
      if x.size = infinity then ['i', 'n', 'f']
      else if x.size = 0 then ['0', '.', '0']
      else x.shortest.chars
    String.ofList (if x.isNegative then '-' :: digits else digits)

def natOfDigits (cs : List Char) : Nat :=
  cs.foldl (fun n c => 10 * n + (c.toNat - '0'.toNat)) 0

def exponentOf? : List Char → Option Int
  | [] => some 0
  | c :: cs =>
    if c ≠ 'e' ∧ c ≠ 'E' then none
    else
      let (negative, ds) := match cs with
        | '-' :: ds => (true, ds)
        | '+' :: ds => (false, ds)
        | ds => (false, ds)
      if ds = [] ∨ ¬ ds.all Char.isDigit then none
      else some (if negative then -(natOfDigits ds : Int) else natOfDigits ds)

/-- Reads the size of a real: digits around an optional point and an optional exponent, or the
name of infinity or of no number. -/
def ofChars? (negative : Bool) (cs : List Char) : Option Binary64 :=
  let name := String.ofList (cs.map Char.toLower)
  if name = "inf" ∨ name = "infinity" then some (ofSize negative infinity)
  else if name = "nan" then some notANumber
  else
    let whole := cs.takeWhile Char.isDigit
    let (fraction, rest) := match cs.dropWhile Char.isDigit with
      | '.' :: cs => (cs.takeWhile Char.isDigit, cs.dropWhile Char.isDigit)
      | cs => ([], cs)
    if whole = [] ∧ fraction = [] then none
    else (exponentOf? rest).map fun e =>
      ofDecimal negative (natOfDigits (whole ++ fraction)) (e - fraction.length)

def ofString? (s : String) : Option Binary64 :=
  match s.toList with
  | '-' :: cs => ofChars? true cs
  | '+' :: cs => ofChars? false cs
  | cs => ofChars? false cs

example : (ofDecimal false 1 (-1)).text = "0.1" := by decide +kernel
example : (ofDecimal false 3 0).text = "3.0" := by decide +kernel
example : (ofDecimal false 298023223876953125 (-25)).text = "2.9802322387695313e-8" := by
  decide +kernel
example : (ofDecimal true 1 16).text = "-1e16" := by decide +kernel
example : (ofDecimal false 5 (-324)).text = "5e-324" := by decide +kernel

end Seudocodigo.Binary64
