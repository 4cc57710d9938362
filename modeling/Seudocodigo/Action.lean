import Seudocodigo.Operator
import Seudocodigo.Value

/-! The actions of the stack machine that runs compiled modules. -/
namespace Seudocodigo

inductive Action where
  /-- Puts a value on the stack. -/
  | push (value : Value)
  /-- Puts the value of a variable on the stack, the whole of an array. -/
  | load (name : String)
  /-- Takes the indices and puts the part of the array that they select. -/
  | subscript (name : String) (indices : Nat)
  /-- Takes the indices and puts a reference to what they select. -/
  | reference (name : String) (indices : Nat)
  /-- Takes the operands and puts the result. -/
  | apply (op : Operator)
  /-- Takes the arguments and runs a module; a function puts its result. -/
  | call (name : String) (args : Nat)
  /-- Takes one value. -/
  | discard
  /-- Takes the indices, then the value, and stores it. -/
  | assign (name : String) (indices : Nat)
  /-- Takes the result and leaves the function. -/
  | result
deriving DecidableEq, Repr

def Action.text : Action → String
  | .push value => "push " ++ value.text
  | .load name => "load " ++ name
  | .subscript name indices => "subscript " ++ name ++ s!" {indices}"
  | .reference name indices => "reference " ++ name ++ s!" {indices}"
  | .apply op => "apply " ++ op.symbol
  | .call name args => "module_call " ++ name ++ s!" {args}"
  | .discard => "discard"
  | .assign name indices => "assign " ++ name ++ s!" {indices}"
  | .result => "return"

end Seudocodigo
