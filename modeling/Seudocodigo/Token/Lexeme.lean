import Seudocodigo.LexicalError
import Seudocodigo.Text.Alphabetic
import Seudocodigo.Text.Blank
import Seudocodigo.Text.Numeric
import Seudocodigo.Token

/-! Lexemes: the stretch of characters at the head of a text that makes up one token, and what that
token is. Between lexemes stand gaps of blanks and comments. -/
namespace Seudocodigo

def isInlineBlank (c : Char) : Bool := Text.isBlank c && c ≠ '\n'

/-- Cuts off the blanks at the head of a text and the comment behind them, which ends with its
line. -/
def splitGap : List Char → List Char × List Char
  | '/' :: '/' :: cs =>
    ('/' :: '/' :: cs.takeWhile (· ≠ '\n'), cs.dropWhile (· ≠ '\n'))
  | c :: cs =>
    if isInlineBlank c then (c :: (splitGap cs).1, (splitGap cs).2) else ([], c :: cs)
  | [] => ([], [])

theorem splitGap_append (cs : List Char) : (splitGap cs).1 ++ (splitGap cs).2 = cs := by
  fun_induction splitGap cs with
  | case1 cs => simp
  | case2 c cs _ _ ih => simp [ih]
  | case3 => rfl
  | case4 => rfl

/-- What is wrong with a lexeme that is no token: the reason, whether the fault lies behind the
lexeme or at its first character, and what could have stood there. -/
structure Fault where
  reason : LexicalReason
  behind : Bool
  expected : List String
deriving DecidableEq, Repr

structure Lexeme where
  text : List Char
  meaning : Except Fault TokenKind

namespace Lexeme

def maxInteger : Nat := Nat.pow 2 63 - 1

def integer (digits : List Char) : Except Fault TokenKind :=
  let n := Binary64.natOfDigits digits
  if n ≤ maxInteger then .ok (.integer n)
  else .error ⟨.unknownToken, false, ["integer in range"]⟩

def real (whole fraction : List Char) : TokenKind :=
  .real (.ofDecimal false (Binary64.natOfDigits (whole ++ fraction)) (-fraction.length))

/-- Digits, or digits around a point. A point needs digits behind it. -/
def number (cs : List Char) : Lexeme :=
  let whole := cs.takeWhile Char.isDigit
  match cs.dropWhile Char.isDigit with
  | '.' :: cs =>
    let fraction := cs.takeWhile Char.isDigit
    if fraction = [] then ⟨whole ++ ['.'], .error ⟨.badFraction, true, ["digit"]⟩⟩
    else ⟨whole ++ '.' :: fraction, .ok (real whole fraction)⟩
  | _ => ⟨whole, integer whole⟩

def string (cs : List Char) : Lexeme :=
  let body := cs.takeWhile fun c => c ≠ '"' && c ≠ '\n'
  match cs.dropWhile fun c => c ≠ '"' && c ≠ '\n' with
  | '"' :: _ => ⟨'"' :: body ++ ['"'], .ok (.string (String.ofList body))⟩
  | _ => ⟨'"' :: body, .error ⟨.openString, true, ["\""]⟩⟩

def isWordChar (c : Char) : Bool := Text.isLetter c || Text.isNumeral c || c = '_'

def word (cs : List Char) : Lexeme :=
  let name := cs.takeWhile isWordChar
  ⟨name, .ok <| match Keyword.ofWord? (String.ofList name) with
    | some k => .keyword k
    | none => .word (String.ofList name)⟩

def symbol (c : Char) (cs : List Char) : Lexeme :=
  match Symbol.atHead? (c :: cs) with
  | some s => ⟨s.text.toList, .ok (.symbol s)⟩
  | none => ⟨[c], .error ⟨.unknownToken, false, ["number", "word", "string", "symbol"]⟩⟩

def read (c : Char) (cs : List Char) : Lexeme :=
  if c = '\n' then ⟨[c], .ok .endOfLine⟩
  else if c.isDigit then number (c :: cs)
  else if c = '"' then string cs
  else if Text.isLetter c then word (c :: cs)
  else symbol c cs

theorem number_text_ne_nil {c : Char} (h : c.isDigit = true) (cs : List Char) :
    (number (c :: cs)).text ≠ [] := by
  simp only [number, List.takeWhile_cons, h, if_true]
  split
  · split <;> simp
  · simp

theorem string_text_ne_nil (cs : List Char) : (string cs).text ≠ [] := by
  simp only [string]
  split <;> simp

theorem word_text_ne_nil {c : Char} (h : Text.isLetter c = true) (cs : List Char) :
    (word (c :: cs)).text ≠ [] := by
  simp [word, isWordChar, h]

theorem symbol_text_ne_nil (c : Char) (cs : List Char) : (symbol c cs).text ≠ [] := by
  simp only [symbol]
  split
  · next s _ => cases s <;> decide
  · simp

/-- Every lexeme takes at least one character. -/
theorem read_text_ne_nil (c : Char) (cs : List Char) : (read c cs).text ≠ [] := by
  simp only [read]
  split
  · simp
  · split
    · next h => exact number_text_ne_nil h cs
    · split
      · exact string_text_ne_nil cs
      · split
        · next h => exact word_text_ne_nil h cs
        · exact symbol_text_ne_nil c cs

end Lexeme
end Seudocodigo
