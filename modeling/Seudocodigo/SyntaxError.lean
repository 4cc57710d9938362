import Seudocodigo.Token

/-! What can be wrong with the order of the tokens of a program. -/
namespace Seudocodigo

/-- Why a token is out of place, where there is more to say than what was expected. -/
inductive SyntaxReason where
  | missingSi | missingEntonces | missingFinsi
  | missingMientras | missingFinmientras
  | missingRepetir | missingHasta | missingQue
  | missingPara | missingFinpara
  | missingRetornar
  | missingInicio | missingFin | missingFinfuncion | missingFinprocedimiento
  /-- Something else stands where a value is to be stored. -/
  | badAssignmentOperator
  | mismatchedParenthesis
  | emptyLoopBody
  | missingMain
  | duplicateMain
  | duplicateModule
  | arrayTooLarge
deriving DecidableEq, Repr

namespace SyntaxReason

def tag : SyntaxReason → String
  | .missingSi => "missing-si"
  | .missingEntonces => "missing-entonces"
  | .missingFinsi => "missing-finsi"
  | .missingMientras => "missing-mientras"
  | .missingFinmientras => "missing-finmientras"
  | .missingRepetir => "missing-repetir"
  | .missingHasta => "missing-hasta"
  | .missingQue => "missing-que"
  | .missingPara => "missing-para"
  | .missingFinpara => "missing-finpara"
  | .missingRetornar => "missing-retornar"
  | .missingInicio => "missing-inicio"
  | .missingFin => "missing-fin"
  | .missingFinfuncion => "missing-finfuncion"
  | .missingFinprocedimiento => "missing-finprocedimiento"
  | .badAssignmentOperator => "bad-assignment-operator"
  | .mismatchedParenthesis => "mismatched-parenthesis"
  | .emptyLoopBody => "empty-loop-body"
  | .missingMain => "missing-main"
  | .duplicateMain => "duplicate-main"
  | .duplicateModule => "duplicate-module"
  | .arrayTooLarge => "array-too-large"

def all : List SyntaxReason :=
  [.missingSi, .missingEntonces, .missingFinsi, .missingMientras, .missingFinmientras,
    .missingRepetir, .missingHasta, .missingQue, .missingPara, .missingFinpara, .missingRetornar,
    .missingInicio, .missingFin, .missingFinfuncion, .missingFinprocedimiento,
    .badAssignmentOperator, .mismatchedParenthesis, .emptyLoopBody, .missingMain, .duplicateMain,
    .duplicateModule, .arrayTooLarge]

def ofTag? (s : String) : Option SyntaxReason := all.find? (·.tag = s)

end SyntaxReason

structure SyntaxError where
  found : TokenKind
  expected : List String
  location : Location
  reason : Option SyntaxReason
deriving DecidableEq, Repr

namespace SyntaxError

def ofToken (t : Token) (expected : List String) (reason : Option SyntaxReason) : SyntaxError :=
  ⟨t.kind, expected, t.location, reason⟩

def message (e : SyntaxError) : String :=
  let note := match e.reason with
    | some r => " (" ++ r.tag ++ ")"
    | none => ""
  "Syntax error at " ++ e.location.text ++ ": unexpected " ++ e.found.text ++ ", expected "
    ++ " or ".intercalate e.expected ++ note

end SyntaxError
end Seudocodigo
