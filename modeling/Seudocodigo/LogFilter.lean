import Seudocodigo.Text.Alphabetic
import Seudocodigo.Text.Blank
import Seudocodigo.Text.Numeric
import Seudocodigo.Text.Pieces

/-! The log filter: directives with commas between them. A directive is a level alone, or a target,
a span in brackets that may list fields in braces, or both, and then perhaps an equals sign and a
level. Filters are read as the library that writes the log documents them; only the command line
looks at them, and what is compiled does not depend on them. -/
namespace Seudocodigo.LogFilter

inductive Fault where
  /-- A directive is not of the form above. -/
  | form
  /-- There is no such level. -/
  | level
deriving DecidableEq, Repr

def Fault.text : Fault → String
  | .form => "ParseError \x7b kind: Other(None) \x7d"
  | .level => "ParseError \x7b kind: Level(ParseLevelFilterError(())) \x7d"

def isLevelNumber (cs : List Char) : Bool :=
  let digits := if cs.head? = some '+' then cs.tail else cs
  match digits.dropWhile (· = '0') with
  | [] => !digits.isEmpty
  | [d] => '1' ≤ d && d ≤ '5'
  | _ => false

def isLevelName (cs : List Char) : Bool :=
  ["off", "error", "warn", "info", "debug", "trace"].contains
    (String.ofList (cs.map Char.toLower))

def isLevel (cs : List Char) : Bool := isLevelNumber cs || isLevelName cs

def trim (cs : List Char) : List Char :=
  ((cs.dropWhile Text.isBlank).reverse.dropWhile Text.isBlank).reverse

section Directive

variable (levelFault? : List Char → Option Fault)

def afterSpan? : List Char → Option Fault
  | [] => none
  | '=' :: cs => levelFault? cs
  | _ => some .form

def fields? (cs : List Char) : Option Fault :=
  match cs.takeWhile (· ≠ '}'), cs.dropWhile (· ≠ '}') with
  | _ :: _, '}' :: ']' :: rest => afterSpan? levelFault? rest
  | _, _ => some .form

def span? : List Char → Option Fault
  | [] => some .form
  | ']' :: cs => afterSpan? levelFault? cs
  | '{' :: cs => fields? levelFault? cs
  | _ :: cs => span? cs

def target? : List Char → Option Fault
  | [] => none
  | '=' :: cs => levelFault? cs
  | '[' :: cs => span? levelFault? cs
  | _ :: cs => target? cs

end Directive

def startsTarget (c : Char) : Bool :=
  c = '-' || c = ':' || c = '_' || Text.isLetter c || Text.isNumeral c

/-- What is wrong with a directive. The level behind an equals sign may be left empty, but no blank
may stand around a directive with an equals sign. -/
def directiveFault? (text : List Char) : Option Fault :=
  let levelFault? level := if trim text = text && (level.isEmpty || isLevel level) then none
    else some .level
  match trim text with
  | [] => some .form
  | '[' :: cs => span? levelFault? cs
  | c :: cs => if startsTarget c then target? levelFault? cs else some .form

/-- What is wrong with a filter: the fault of its first faulty directive. Nothing between two commas
is no directive. -/
def fault? (filter : String) : Option Fault :=
  ((Text.pieces ',' filter.toList).filter (!·.isEmpty)).findSome? directiveFault?

end Seudocodigo.LogFilter
