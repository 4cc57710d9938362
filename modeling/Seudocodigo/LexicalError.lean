import Seudocodigo.Location

/-! What can be wrong with a stretch of text that is no token. -/
namespace Seudocodigo

inductive LexicalReason where
  /-- No token begins here, or the token means nothing. -/
  | unknownToken
  /-- A point with no digit behind it. -/
  | badFraction
  /-- A string that its line does not close. -/
  | openString
deriving DecidableEq, Repr

namespace LexicalReason

def tag : LexicalReason → String
  | .unknownToken => "unknownToken"
  | .badFraction => "unexpectedCharAtFloat"
  | .openString => "unexpectedCharAtString"

def all : List LexicalReason := [.unknownToken, .badFraction, .openString]

def ofTag? (s : String) : Option LexicalReason := all.find? (·.tag = s)

end LexicalReason

structure LexicalError where
  reason : LexicalReason
  /-- The character that stands at the location, none at the end of the text. -/
  unexpected : Option Char
  /-- What could have stood there. -/
  expected : List String
  location : Location
deriving DecidableEq, Repr

namespace LexicalError

def describe : Option Char → String
  | none => "end of input"
  | some c => if c = '\n' then "end of line" else "'" ++ String.singleton c ++ "'"

def message (e : LexicalError) : String :=
  "Lexer error at " ++ e.location.text ++ ": " ++ e.reason.tag ++ ", unexpected "
    ++ describe e.unexpected ++ ", expected " ++ " or ".intercalate e.expected

end LexicalError
end Seudocodigo
