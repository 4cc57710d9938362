import Seudocodigo.Expression
import Seudocodigo.Parse

/-! Parsing expressions in one scan from left to right. Operands go out as they come; operators
wait, the latest first, until one that binds no more strongly, a closing parenthesis or the end lets
them go. An opening parenthesis puts the operators before it aside. -/
namespace Seudocodigo

def TokenKind.binaryOperator? : TokenKind → Option Operator
  | .symbol .plus => some .plus
  | .symbol .minus => some .minus
  | .symbol .star => some .times
  | .symbol .slash => some .divide
  | .symbol .caret => some .power
  | .symbol .less => some .less
  | .symbol .lessEqual => some .lessEqual
  | .symbol .greater => some .greater
  | .symbol .greaterEqual => some .greaterEqual
  | .symbol .equal => some .equal
  | .symbol .notEqual => some .different
  | .keyword .div => some .div
  | .keyword .mod => some .mod
  | .keyword .and => some .and
  | .keyword .or => some .or
  | _ => none

namespace Expression

def emit (ops : List Operator) : List Element := ops.map .operator

open Parse

def located (elements : Parse (List Element)) : Parse Expression := do
  let p ← Parse.location
  let es ← elements
  return ⟨es, p⟩

def argumentList (item : Parse Expression) (n : Nat) : Parse (List Expression) := do
  let _ ← symbol .leftParen none
  if ← takeSymbol .rightParen then return []
  else
    let args ← commaList item n
    let _ ← symbol .rightParen (some .mismatchedParenthesis)
    return args

def indexList (item : Parse Expression) (n : Nat) : Parse (List Expression) := do
  if ← takeSymbol .leftBracket then
    let indices ← commaList item n
    let _ ← symbol .rightBracket none
    return indices
  else return []

def named (item : Parse Expression) (n : Nat) (name : String) : Parse Element := do
  let p ← Parse.location
  let _ ← advance
  if ← atSymbol .leftParen then
    let args ← argumentList item n
    return .call ⟨name, args, p⟩
  else
    let indices ← indexList item n
    return .access ⟨name, indices⟩

mutual

/-- The elements from here on, where an operand has to follow. `ops` wait within the innermost open
parenthesis, `outer` within those around it. -/
def operand : Nat → List Operator → List (List Operator) → Parse (List Element)
  | 0, _, _ => fail ["expression"] none
  | n + 1, ops, outer => do
    let t ← current
    match t.literal?, t.kind with
    | some value, _ =>
      let _ ← advance
      let es ← afterOperand n ops outer
      return .literal value :: es
    | none, .word name =>
      let e ← named (located (operand n [] [])) n name
      let es ← afterOperand n ops outer
      return e :: es
    | none, .symbol .minus =>
      let _ ← advance
      operand n (.neg :: ops) outer
    | none, .keyword .not =>
      let _ ← advance
      operand n (.not :: ops) outer
    | none, .symbol .leftParen =>
      let _ ← advance
      operand n [] (ops :: outer)
    | none, _ => fail ["expression"] none

/-- The elements from here on, where an operand has just ended. A token that cannot continue the
expression ends it and is left to be read. -/
def afterOperand : Nat → List Operator → List (List Operator) → Parse (List Element)
  | 0, _, _ => fail ["expression"] none
  | n + 1, ops, outer => do
    let t ← current
    match t.kind.binaryOperator?, outer with
    | some op, _ =>
      let stronger := ops.takeWhile (op.precedence ≤ ·.precedence)
      let _ ← advance
      let es ← operand n (op :: ops.drop stronger.length) outer
      return emit stronger ++ es
    | none, [] => return emit ops
    | none, around :: outer =>
      if t.kind = .symbol .rightParen then
        let _ ← advance
        let es ← afterOperand n around outer
        return emit ops ++ es
      else fail [Symbol.rightParen.text] (some .mismatchedParenthesis)

end

def parse : Parse Expression := do
  located (operand (← budget) [] [])

def parseArguments : Parse (List Expression) := do
  argumentList parse (← budget)

def parseIndices : Parse (List Expression) := do
  indexList parse (← budget)

end Expression

def Access.parse : Parse Access := do
  let name ← Parse.word
  let indices ← Expression.parseIndices
  return ⟨name, indices⟩

end Seudocodigo
