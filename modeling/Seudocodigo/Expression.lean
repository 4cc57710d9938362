import Seudocodigo.Location
import Seudocodigo.Operator
import Seudocodigo.Value

/-! Expressions. An expression is kept as the list of its elements with operands before their
operator, which is the order in which a stack machine meets them. -/
namespace Seudocodigo

mutual

/-- A variable, or the part of an array that the indices select: `v`, `m[i, j]`. -/
structure Access where
  name : String
  indices : List Expression

structure Call where
  name : String
  args : List Expression
  location : Location

inductive Element where
  | literal (value : Value)
  | access (access : Access)
  | operator (op : Operator)
  | call (call : Call)

structure Expression where
  elements : List Element
  location : Location

end

def Expression.access? (e : Expression) : Option Access :=
  match e.elements with
  | [.access a] => some a
  | _ => none

end Seudocodigo
