import Seudocodigo.Proofs.Expression.Budget
import Seudocodigo.Proofs.Parse.Local

/-! What an expression is does not depend on the token behind it, unless that token could continue
the expression. -/
namespace Seudocodigo

/-- No operator between operands, and nothing that makes more of a name. -/
structure Token.EndsExpression (t : Token) : Prop where
  binaryOperator? : t.kind.binaryOperator? = none
  not_leftParen : t.kind ≠ .symbol .leftParen
  not_leftBracket : t.kind ≠ .symbol .leftBracket

namespace Expression

open Parse

theorem passing_argumentList {item : Parse Expression} (h : item.Forward) (n : Nat) :
    (argumentList item n).Passing := by
  refine (Passing.symbol _ _).bind fun _ => (Forward.takeSymbol _).bind fun _ => .ite (.pure _) ?_
  exact (Forward.commaList h n).bind fun _ => (Forward.symbol _ _).bind fun _ => .pure _

theorem local_argumentList {item : Parse Expression} (h : IsLocal Token.EndsExpression item)
    (hf : item.Forward) (n : Nat) : IsLocal Token.EndsExpression (argumentList item n) := by
  have hclose (s : Symbol) (reason : Option SyntaxReason) (args : List Expression) :
      (symbol s reason >>= fun _ => pure args : Parse (List Expression)).Passing :=
    (Passing.symbol s reason).bind fun _ => .pure _
  refine (IsLocal.symbol _ _).bind fun _ => IsLocal.takeSymbol_bind (.pure _) ?_ ?_
  · exact (IsLocal.commaList h n).bind_of_passes
      (fun _ => (IsLocal.symbol _ _).bind fun _ => .pure _) (hclose _ _)
  · exact Passing.bind_right (Forward.commaList hf n) (hclose _ _)

theorem local_indexList {item : Parse Expression} (h : IsLocal Token.EndsExpression item)
    (n : Nat) : IsLocal Token.EndsExpression (indexList item n) := by
  refine (IsLocal.takeSymbol fun _ ht => ht.not_leftBracket).bind fun b => ?_
  cases b with
  | true =>
    exact (IsLocal.commaList h n).bind_of_passes
      (fun _ => (IsLocal.symbol _ _).bind fun _ => .pure _)
      fun _ => (Passing.symbol _ _).bind fun _ => .pure _
  | false => exact .pure _

def behindName (item : Parse Expression) (n : Nat) (name : String) (p : Location) :
    Parse Element := do
  if ← atSymbol .leftParen then
    let args ← argumentList item n
    return .call ⟨name, args, p⟩
  else
    let indices ← indexList item n
    return .access ⟨name, indices⟩

theorem outcome_named_advance (item : Parse Expression) (n : Nat) (name : String) (c : Cursor) :
    (named item n name).outcome c = (behindName item n name c.location).outcome c.advance := by
  simp only [named, outcome_location_bind, outcome_advance_bind]
  rfl

theorem forward_behindName {item : Parse Expression} (h : item.Forward) (n : Nat) (name : String)
    (p : Location) : (behindName item n name p).Forward := by
  refine (Forward.atSymbol _).bind fun _ => .ite ?_ ?_
  · exact (forward_argumentList h n).bind fun _ => .pure _
  · exact (forward_indexList h n).bind fun _ => .pure _

theorem local_behindName {item : Parse Expression} (h : IsLocal Token.EndsExpression item)
    (hf : item.Forward) (n : Nat) (name : String) (p : Location) :
    IsLocal Token.EndsExpression (behindName item n name p) := by
  refine IsLocal.atSymbol_bind (fun _ ht => ht.not_leftParen) ?_ ?_ ?_
  · exact (local_argumentList h hf n).bind fun _ => .pure _
  · exact (passing_argumentList hf n).bind fun _ => .pure _
  · exact (local_indexList h n).bind fun _ => .pure _

theorem local_located {elements : Parse (List Element)}
    (h : IsLocal Token.EndsExpression elements) (hpass : elements.Passing) :
    IsLocal Token.EndsExpression (located elements) := by
  intro c
  refine IsLocal.of_current (q := elements >>= fun es => pure ⟨es, c.location⟩) (fun c' hc' => ?_)
    (h.bind (fun _ => .pure _) c) (hpass.bind fun _ => .pure _)
  rw [located, outcome_location_bind, Cursor.location, hc', Cursor.location]

theorem passing_operand (n : Nat) (ops : List Operator) (outer : List (List Operator)) :
    (operand n ops outer).Passing := by
  intro c es d h
  cases n with
  | zero => cases h
  | succ n =>
    have hf := forward_scan n
    rw [operand_succ, outcome_current_bind] at h
    cases hs : c.current.operandStart? with
    | none => rw [hs] at h; cases h
    | some start =>
      rw [hs] at h
      have hl := Cursor.length_rest_advance
        (Cursor.atEnd_eq_false rfl (Token.ne_endOfFile_of_operandStart? hs))
      have hle : d.rest.length ≤ c.advance.rest.length := by
        cases start with
        | literal v =>
          rw [outcome_advance_bind] at h
          exact ((hf ops outer).2.bind fun _ => .pure _).length_le h
        | name name =>
          rw [outcome_bind, outcome_named_advance, ← outcome_bind] at h
          have hb := forward_behindName (forward_located (hf [] []).1) n name c.location
          exact (hb.bind fun _ => (hf ops outer).2.bind fun _ => .pure _).length_le h
        | sign op =>
          rw [outcome_advance_bind] at h
          exact (hf _ outer).1.length_le h
        | parenthesis =>
          rw [outcome_advance_bind] at h
          exact (hf _ _).1.length_le h
      omega

/-- With the given budget, scanning does not depend on what could not continue an expression. -/
def ScanLocal (n : Nat) : Prop :=
  ∀ ops outer, IsLocal Token.EndsExpression (operand n ops outer) ∧
    IsLocal Token.EndsExpression (afterOperand n ops outer)

namespace ScanLocal

variable {n : Nat}

theorem operand (ih : ScanLocal n) (ops : List Operator) (outer : List (List Operator)) :
    IsLocal Token.EndsExpression (Expression.operand (n + 1) ops outer) := by
  have hitem : IsLocal Token.EndsExpression (located (Expression.operand n [] [])) :=
    local_located (ih [] []).1 (passing_operand n [] [])
  have hf : (located (Expression.operand n [] [])).Forward :=
    forward_located (forward_scan n [] []).1
  have hpass := passing_operand (n + 1) ops outer
  intro c
  rw [operand_succ] at hpass ⊢
  refine IsLocal.current_bind ?_ hpass
  cases hs : c.current.operandStart? with
  | none => exact IsLocal.fail _ _ c
  | some start =>
    have hc := Cursor.atEnd_eq_false rfl (Token.ne_endOfFile_of_operandStart? hs)
    cases start with
    | literal v => exact IsLocal.advance_bind hc ((ih ops outer).2.bind (fun _ => .pure _) _)
    | name name =>
      refine IsLocal.bindAt (IsLocal.step hc (fun c' hc' => ?_)
        (local_behindName hitem hf n name c.location _))
        fun _ => (ih ops outer).2.bind fun _ => .pure _
      rw [outcome_named_advance, Cursor.location, hc', Cursor.location]
    | sign op => exact IsLocal.advance_bind hc ((ih _ outer).1 _)
    | parenthesis => exact IsLocal.advance_bind hc ((ih _ _).1 _)

/-- Where no operator follows, the scan of an expression without open parentheses stops. -/
theorem stops (ops : List Operator) {c : Cursor} (hc : c.current.kind.binaryOperator? = none) :
    LocalAt Token.EndsExpression (afterOperand (n + 1) ops []) c := by
  have hstop (e : Cursor) (he : e.current.kind.binaryOperator? = none) :
      (afterOperand (n + 1) ops []).outcome e = (.ok (emit ops), e) := by
    simp only [afterOperand, outcome_current_bind, he, outcome_pure]
  intro es d h
  rw [hstop c hc] at h
  cases h
  refine ⟨[], .refl c, fun e he => hstop e ?_⟩
  cases he with
  | inl he => rw [he]; exact hc
  | inr he => exact he.binaryOperator?

/-- Otherwise the innermost open parenthesis has to be closed. -/
theorem closes (ih : ScanLocal n) (ops around : List Operator) (outer : List (List Operator))
    {c : Cursor} (hc : c.current.kind.binaryOperator? = none) :
    LocalAt Token.EndsExpression (afterOperand (n + 1) ops (around :: outer)) c := by
  by_cases hp : c.current.kind = .symbol .rightParen
  · have hstep (c' : Cursor) (hc' : c'.current = c.current) :
        (afterOperand (n + 1) ops (around :: outer)).outcome c' = (do
          let es ← afterOperand n around outer
          return emit ops ++ es : Parse (List Element)).outcome c'.advance := by
      simp only [afterOperand, outcome_current_bind, hc', hc]
      rw [if_pos hp, outcome_advance_bind]
    have hend := Cursor.atEnd_eq_false hp (by simp)
    exact IsLocal.step hend hstep ((ih around outer).2.bind (fun _ => .pure _) _)
  · refine IsLocal.of_fails fun es d h => ?_
    simp only [afterOperand, outcome_current_bind, hc, hp, if_false] at h
    cases h

theorem afterOperand (ih : ScanLocal n) (ops : List Operator) (outer : List (List Operator)) :
    IsLocal Token.EndsExpression (Expression.afterOperand (n + 1) ops outer) := by
  intro c
  cases hb : c.current.kind.binaryOperator? with
  | some op =>
    have hc := Cursor.atEnd_eq_false rfl (TokenKind.ne_endOfFile_of_binaryOperator? hb)
    have hstep (c' : Cursor) (hc' : c'.current = c.current) :
        (Expression.afterOperand (n + 1) ops outer).outcome c' = (do
          let stronger := ops.takeWhile (op.precedence ≤ ·.precedence)
          let es ← Expression.operand n (op :: ops.drop stronger.length) outer
          return emit stronger ++ es : Parse (List Element)).outcome c'.advance := by
      simp only [Expression.afterOperand, outcome_current_bind, hc', hb, outcome_advance_bind]
    exact IsLocal.step hc hstep ((ih _ outer).1.bind (fun _ => .pure _) _)
  | none =>
    cases outer with
    | nil => exact stops ops hb
    | cons around outer => exact ih.closes ops around outer hb

end ScanLocal

theorem local_scan (n : Nat) : ScanLocal n := by
  induction n with
  | zero => exact fun _ _ => ⟨.fail _ _, .fail _ _⟩
  | succ n ih => exact fun ops outer => ⟨ih.operand ops outer, ih.afterOperand ops outer⟩

/-- An expression is read alike before all tokens that could not continue it. -/
theorem local_parse : IsLocal Token.EndsExpression Expression.parse := by
  intro c a d h
  have hlocal (n : Nat) := local_located (local_scan n [] []).1 (passing_operand n [] [])
  obtain ⟨ts, ht, _⟩ := hlocal _ c a d (parse_budget (Nat.lt_succ_self _) ▸ h)
  refine ⟨ts, ht, fun e he => ?_⟩
  have hn : (Cursor.before ts e).rest.length < c.rest.length + ts.length + e.rest.length + 1 := by
    rw [Cursor.length_rest_before]
    omega
  rw [parse_budget hn]
  rw [parse_budget (n := c.rest.length + ts.length + e.rest.length + 1) (by omega)] at h
  obtain ⟨us, hu, hr⟩ := hlocal _ c a d h
  cases (List.append_cancel_right (hu.1.symm.trans ht.1) : us = ts)
  exact hr e he

end Expression
end Seudocodigo
