/-! The operators of expressions. -/
namespace Seudocodigo

inductive Operator where
  | plus | minus | times | divide | power | div | mod
  /-- The minus sign before its only operand. -/
  | neg
  | less | lessEqual | greater | greaterEqual | equal | different
  | and | or | not
deriving DecidableEq, Repr

namespace Operator

/-- How strongly an operator binds; of two, the stronger takes its operands first. -/
def precedence : Operator → Nat
  | .neg | .not => 7
  | .power => 6
  | .times | .divide | .div | .mod => 5
  | .plus | .minus => 4
  | .less | .lessEqual | .greater | .greaterEqual => 3
  | .equal | .different => 2
  | .and => 1
  | .or => 0

def leadsOperand : Operator → Bool
  | .neg | .not => true
  | _ => false

def arity (op : Operator) : Nat := if op.leadsOperand then 1 else 2

def symbol : Operator → String
  | .plus => "+"
  | .minus => "-"
  | .times => "*"
  | .divide => "/"
  | .power => "^"
  | .div => "div"
  | .mod => "mod"
  | .neg => "neg"
  | .less => "<"
  | .lessEqual => "<="
  | .greater => ">"
  | .greaterEqual => ">="
  | .equal => "="
  | .different => "<>"
  | .and => "and"
  | .or => "or"
  | .not => "not"

def all : List Operator :=
  [.plus, .minus, .times, .divide, .power, .div, .mod, .neg, .less, .lessEqual, .greater,
    .greaterEqual, .equal, .different, .and, .or, .not]

def ofSymbol? (s : String) : Option Operator := all.find? (·.symbol = s)

/-- The operators that stand before an operand bind more strongly than all others. -/
theorem precedence_lt_of_not_leadsOperand {op lead : Operator} (h : op.leadsOperand = false)
    (hl : lead.leadsOperand = true) : op.precedence < lead.precedence := by
  revert h hl
  cases op <;> cases lead <;> decide

end Operator
end Seudocodigo
