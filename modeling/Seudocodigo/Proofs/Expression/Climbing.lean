import Seudocodigo.Expression.Parse
import Seudocodigo.Proofs.Parse.Forward

/-! Expressions as trees, and the grammar of expressions by precedence climbing: what stands to the
right of an operator is joined by stronger operators only, so that equals associate to the left. The
grammar names the operators and their levels itself. -/
namespace Seudocodigo

inductive Tree where
  | operand (e : Element)
  | unary (op : Operator) (t : Tree)
  | binary (op : Operator) (l r : Tree)

def Tree.postorder : Tree → List Element
  | .operand e => [e]
  | .unary op t => t.postorder ++ [.operator op]
  | .binary op l r => l.postorder ++ r.postorder ++ [.operator op]

inductive OperandStart where
  | literal (value : Value)
  | name (name : String)
  /-- An operator before its only operand. -/
  | sign (op : Operator)
  | parenthesis

def Token.operandStart? (t : Token) : Option OperandStart :=
  match t.literal?, t.kind with
  | some value, _ => some (.literal value)
  | none, .word name => some (.name name)
  | none, .symbol .minus => some (.sign .neg)
  | none, .keyword .not => some (.sign .not)
  | none, .symbol .leftParen => some .parenthesis
  | none, _ => none

namespace Climbing

open Parse

/-- The operators between operands, each with its level. -/
def infix? : TokenKind → Option (Operator × Nat)
  | .keyword .or => some (.or, 0)
  | .keyword .and => some (.and, 1)
  | .symbol .equal => some (.equal, 2)
  | .symbol .notEqual => some (.different, 2)
  | .symbol .less => some (.less, 3)
  | .symbol .lessEqual => some (.lessEqual, 3)
  | .symbol .greater => some (.greater, 3)
  | .symbol .greaterEqual => some (.greaterEqual, 3)
  | .symbol .plus => some (.plus, 4)
  | .symbol .minus => some (.minus, 4)
  | .symbol .star => some (.times, 5)
  | .symbol .slash => some (.divide, 5)
  | .keyword .div => some (.div, 5)
  | .keyword .mod => some (.mod, 5)
  | .symbol .caret => some (.power, 6)
  | _ => none

def named (expr : Parse Expression) (n : Nat) (name : String) (p : Location) : Parse Element := do
  if ← takeSymbol .leftParen then
    if ← takeSymbol .rightParen then return .call ⟨name, [], p⟩
    else
      let args ← commaList expr n
      let _ ← symbol .rightParen (some .mismatchedParenthesis)
      return .call ⟨name, args, p⟩
  else if ← takeSymbol .leftBracket then
    let indices ← commaList expr n
    let _ ← symbol .rightBracket none
    return .access ⟨name, indices⟩
  else return .access ⟨name, []⟩

def flattened (tree : Parse Tree) : Parse Expression := do
  let p ← Parse.location
  let t ← tree
  return ⟨t.postorder, p⟩

mutual

def operand : Nat → Parse Tree
  | 0 => fail ["expression"] none
  | n + 1 => do
    let t ← current
    match t.operandStart? with
    | some (.literal value) =>
      let _ ← advance
      return .operand (.literal value)
    | some (.name name) =>
      let _ ← advance
      let e ← named (flattened do joined n 0 (← operand n)) n name t.location
      return .operand e
    | some (.sign op) =>
      let _ ← advance
      return .unary op (← operand n)
    | some .parenthesis =>
      let _ ← advance
      let t ← joined n 0 (← operand n)
      let _ ← symbol .rightParen (some .mismatchedParenthesis)
      return t
    | none => fail ["expression"] none

/-- Joins to `l` the operators from here on that bind at least as strongly as the level. -/
def joined : Nat → Nat → Tree → Parse Tree
  | 0, _, _ => fail ["expression"] none
  | n + 1, level, l => do
    match infix? (← current).kind with
    | some (op, strength) =>
      if level ≤ strength then
        let _ ← advance
        let r ← joined n (strength + 1) (← operand n)
        joined n level (.binary op l r)
      else return l
    | none => return l

end

def tree (n : Nat) : Parse Tree := do joined n 0 (← operand n)

def expression (n : Nat) : Parse Expression := flattened (tree n)

/-- The grammar has the operators and the levels that the scan goes by. -/
theorem infix?_eq (k : TokenKind) :
    infix? k = k.binaryOperator?.map fun op => (op, op.precedence) := by
  cases k with
  | keyword k => cases k <;> rfl
  | symbol s => cases s <;> rfl
  | _ => rfl

theorem joined_succ (n level : Nat) (l : Tree) :
    joined (n + 1) level l = (do
      match (← current).kind.binaryOperator? with
      | some op =>
        if level ≤ op.precedence then
          let _ ← advance
          let r ← joined n (op.precedence + 1) (← operand n)
          joined n level (.binary op l r)
        else return l
      | none => return l) := by
  simp only [joined, infix?_eq]
  refine congrArg (Parse.current >>= ·) (funext fun t => ?_)
  cases t.kind.binaryOperator? <;> rfl

theorem forward_flattened {tree : Parse Tree} (h : tree.Forward) : (flattened tree).Forward :=
  Forward.location.bind fun _ => h.bind fun _ => .pure _

theorem forward_named {expr : Parse Expression} (h : expr.Forward) (n : Nat) (name : String)
    (p : Location) : (named expr n name p).Forward := by
  refine (Forward.takeSymbol _).bind fun _ => .ite ?_ ?_
  · refine (Forward.takeSymbol _).bind fun _ => .ite (.pure _) ?_
    exact (Forward.commaList h n).bind fun _ => (Forward.symbol _ _).bind fun _ => .pure _
  · refine (Forward.takeSymbol _).bind fun _ => .ite ?_ (.pure _)
    exact (Forward.commaList h n).bind fun _ => (Forward.symbol _ _).bind fun _ => .pure _

theorem forward (n : Nat) :
    (operand n).Forward ∧ ∀ level l, (joined n level l).Forward := by
  induction n with
  | zero => exact ⟨.fail _ _, fun _ _ => .fail _ _⟩
  | succ n ih =>
    obtain ⟨ho, hj⟩ := ih
    have ht : (tree n).Forward := ho.bind fun l => hj 0 l
    constructor
    · refine Forward.current.bind fun t => ?_
      split
      · exact Forward.advance.bind fun _ => .pure _
      · exact Forward.advance.bind fun _ =>
          (forward_named (forward_flattened ht) n _ _).bind fun _ => .pure _
      · exact Forward.advance.bind fun _ => ho.bind fun _ => .pure _
      · exact Forward.advance.bind fun _ => ho.bind fun l => (hj 0 l).bind fun _ =>
          (Forward.symbol _ _).bind fun _ => .pure _
      · exact .fail _ _
    · intro level l
      rw [joined_succ]
      refine Forward.current.bind fun t => ?_
      split
      · refine .ite ?_ (.pure _)
        exact Forward.advance.bind fun _ => ho.bind fun l => (hj _ l).bind fun _ => hj level _
      · exact .pure _

/-- Where joining stops, no operator of the level or a stronger one follows. -/
theorem joined_stops {n level : Nat} {l t : Tree} {c d : Cursor} {op : Operator}
    (h : (joined n level l).outcome c = (.ok t, d))
    (hd : d.current.kind.binaryOperator? = some op) : op.precedence < level := by
  induction n generalizing level l t c with
  | zero => cases h
  | succ n ih =>
    simp only [joined_succ, outcome_bind, outcome_current] at h
    split at h
    · next o ho =>
      split at h
      · obtain ⟨_, e, _, h⟩ := outcome_bind_ok h
        obtain ⟨_, e, _, h⟩ := outcome_bind_ok h
        obtain ⟨_, e, _, h⟩ := outcome_bind_ok h
        exact ih h
      · next hlt =>
        cases h
        rw [ho] at hd
        cases hd
        omega
    · next ho =>
      cases h
      rw [ho] at hd
      cases hd

end Climbing
end Seudocodigo
