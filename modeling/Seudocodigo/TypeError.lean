import Seudocodigo.Location
import Seudocodigo.Operator
import Seudocodigo.Ty

/-! What can be wrong with the types of a program. -/
namespace Seudocodigo

inductive TypeProblem where
  | assignment (expected received : Ty)
  | argumentCount (module : String) (expected received : Nat)
  /-- Positions count from one. -/
  | argument (module : String) (position : Nat) (expected received : Ty)
  /-- An array, or nothing at all, cannot be read or written. -/
  | builtinArgument (module : String) (position : Nat) (received : Ty)
  | counter (received : Ty)
  | counterStart (received : Ty)
  | counterBound (received : Ty)
  | condition (received : Ty)
  | resultType (module : String) (expected received : Ty)
  | missingResult (module : String)
  | resultOutsideFunction
  | operand (op : Operator) (received : Ty)
  | operands (op : Operator) (left right : Ty)
  | index (name : String) (received : Ty)
  | tooManyIndices (name : String) (dimensions received : Nat)
  | undefinedVariable (name : String)
  | undefinedModule (name : String)
  | duplicateVariable (name : String)
  | referenceNeedsVariable (module : String) (position : Nat)
deriving DecidableEq, Repr

namespace TypeProblem

def tag : TypeProblem → String
  | .assignment .. => "assignment-incompatible-types"
  | .argumentCount .. => "call-incorrect-arg-number"
  | .argument .. => "call-wrong-argument-type"
  | .builtinArgument .. => "io-wrong-argument-type"
  | .counter _ => "for-non-integer-counter"
  | .counterStart _ => "for-non-integer-init"
  | .counterBound _ => "for-non-integer-goal"
  | .condition _ => "condition-invalid-expression"
  | .resultType .. => "function-bad-return-type"
  | .missingResult _ => "function-missing-return"
  | .resultOutsideFunction => "return-outside-function"
  | .operand .. => "expression-incompatible-type"
  | .operands .. => "expression-incompatible-types"
  | .index .. => "non-integer-index"
  | .tooManyIndices .. => "too-many-indices"
  | .undefinedVariable _ => "undefined-variable"
  | .undefinedModule _ => "undefined-module"
  | .duplicateVariable _ => "duplicate-variable"
  | .referenceNeedsVariable .. => "reference-needs-variable"

def quote (name : String) : String := "'" ++ name ++ "'"

def text : TypeProblem → String
  | .assignment expected received => "cannot assign " ++ received.text ++ " to " ++ expected.text
  | .argumentCount module expected received =>
    quote module ++ s!" takes {expected} argument(s), {received} given"
  | .argument module position expected received =>
    s!"argument {position} of " ++ quote module ++ " must be " ++ expected.text ++ ", found "
      ++ received.text
  | .builtinArgument module position received =>
    s!"argument {position} of " ++ quote module ++ " cannot be " ++ received.text
  | .counter received => "loop counter must be entero, found " ++ received.text
  | .counterStart received => "loop start must be entero, found " ++ received.text
  | .counterBound received => "loop bound must be entero, found " ++ received.text
  | .condition received => "condition must be logico, found " ++ received.text
  | .resultType module expected received =>
    quote module ++ " must return " ++ expected.text ++ ", found " ++ received.text
  | .missingResult module => "function " ++ quote module ++ " does not end with retornar"
  | .resultOutsideFunction => "retornar outside of a function"
  | .operand op received => "operator " ++ op.symbol ++ " cannot take " ++ received.text
  | .operands op left right =>
    "operator " ++ op.symbol ++ " cannot take " ++ left.text ++ " and " ++ right.text
  | .index name received =>
    "index into " ++ quote name ++ " must be entero, found " ++ received.text
  | .tooManyIndices name dimensions received =>
    quote name ++ s!" has {dimensions} dimension(s), {received} indices given"
  | .undefinedVariable name => "undefined variable " ++ quote name
  | .undefinedModule name => "undefined module " ++ quote name
  | .duplicateVariable name => "variable " ++ quote name ++ " declared twice"
  | .referenceNeedsVariable module position =>
    s!"argument {position} of " ++ quote module ++ " must be a variable"

end TypeProblem

structure TypeError where
  problem : TypeProblem
  location : Location
deriving DecidableEq, Repr

def TypeError.message (e : TypeError) : String :=
  "Type error at " ++ e.location.text ++ ": " ++ e.problem.text

structure Report where
  module : String
  errors : List TypeError
deriving DecidableEq, Repr

def Report.text (r : Report) : String :=
  r.errors.foldl
    (fun s e => s ++ "\n  " ++ e.message ++ " [" ++ e.problem.tag ++ "]")
    (s!"{r.errors.length} error(s) in " ++ TypeProblem.quote r.module)

end Seudocodigo
