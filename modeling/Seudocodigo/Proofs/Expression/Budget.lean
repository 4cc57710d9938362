import Seudocodigo.Expression.Parse
import Seudocodigo.Proofs.Expression.Climbing

/-! Budgets of the scan of expressions. A step passes a token, so with more steps than tokens left
the budget has no influence on what is read. -/
namespace Seudocodigo

namespace Parse

variable {α : Type} {p q : Parse α} {c : Cursor}

theorem commaList_congr (hq : q.Forward) {n m : Nat}
    (h : ∀ d : Cursor, d.rest.length ≤ c.rest.length → p.outcome d = q.outcome d)
    (hn : c.rest.length < n) (hm : c.rest.length < m) :
    (commaList p n).outcome c = (commaList q m).outcome c := by
  induction n generalizing m c with
  | zero => omega
  | succ n ih =>
    cases m with
    | zero => omega
    | succ m =>
      refine outcome_bind_congr (h c (Nat.le_refl _)) fun a d hd => ?_
      have hle := hq.length_le hd
      rw [outcome_takeSymbol_bind, outcome_takeSymbol_bind]
      split
      · next hs =>
        have hl := Cursor.length_rest_advance (Cursor.atEnd_of_atSymbol hs)
        refine outcome_bind_congr ?_ fun _ _ _ => rfl
        exact ih (fun e he => h e (by omega)) (by omega) (by omega)
      · rfl

end Parse

theorem TokenKind.ne_endOfFile_of_binaryOperator? {k : TokenKind} {op : Operator}
    (h : k.binaryOperator? = some op) : k ≠ .endOfFile := by
  intro hk
  rw [hk] at h
  cases h

theorem TokenKind.leadsOperand_of_binaryOperator? {k : TokenKind} {op : Operator}
    (h : k.binaryOperator? = some op) : op.leadsOperand = false := by
  unfold TokenKind.binaryOperator? at h
  split at h <;> cases h <;> rfl

theorem Token.ne_endOfFile_of_operandStart? {t : Token} {s : OperandStart}
    (h : t.operandStart? = some s) : t.kind ≠ .endOfFile := by
  intro hk
  simp [Token.operandStart?, Token.literal?, TokenKind.literal?, hk] at h

theorem Token.leadsOperand_of_operandStart? {t : Token} {op : Operator}
    (h : t.operandStart? = some (.sign op)) : op.leadsOperand = true := by
  unfold Token.operandStart? at h
  split at h <;> cases h <;> rfl

namespace Expression

open Parse

theorem operand_succ (n : Nat) (ops : List Operator) (outer : List (List Operator)) :
    operand (n + 1) ops outer = (do
      match (← current).operandStart? with
      | some (.literal value) =>
        let _ ← advance
        let es ← afterOperand n ops outer
        return .literal value :: es
      | some (.name name) =>
        let e ← named (located (operand n [] [])) n name
        let es ← afterOperand n ops outer
        return e :: es
      | some (.sign op) =>
        let _ ← advance
        operand n (op :: ops) outer
      | some .parenthesis =>
        let _ ← advance
        operand n [] (ops :: outer)
      | none => fail ["expression"] none) := by
  rw [operand]
  refine congrArg _ (funext fun t => ?_)
  unfold Token.operandStart?
  generalize t.literal? = value
  generalize t.kind = kind
  cases value with
  | some value => rfl
  | none =>
    cases kind with
    | symbol s => cases s <;> rfl
    | keyword k => cases k <;> rfl
    | _ => rfl

theorem forward_located {elements : Parse (List Element)} (h : elements.Forward) :
    (located elements).Forward :=
  Forward.location.bind fun _ => h.bind fun _ => .pure _

theorem forward_argumentList {item : Parse Expression} (h : item.Forward) (n : Nat) :
    (argumentList item n).Forward := by
  refine (Forward.symbol _ _).bind fun _ => (Forward.takeSymbol _).bind fun _ => .ite (.pure _) ?_
  exact (Forward.commaList h n).bind fun _ => (Forward.symbol _ _).bind fun _ => .pure _

theorem forward_indexList {item : Parse Expression} (h : item.Forward) (n : Nat) :
    (indexList item n).Forward := by
  refine (Forward.takeSymbol _).bind fun _ => .ite ?_ (.pure _)
  exact (Forward.commaList h n).bind fun _ => (Forward.symbol _ _).bind fun _ => .pure _

theorem forward_named {item : Parse Expression} (h : item.Forward) (n : Nat) (name : String) :
    (named item n name).Forward := by
  refine Forward.location.bind fun _ => Forward.advance.bind fun _ =>
    (Forward.atSymbol _).bind fun _ => .ite ?_ ?_
  · exact (forward_argumentList h n).bind fun _ => .pure _
  · exact (forward_indexList h n).bind fun _ => .pure _

theorem forward_scan (n : Nat) : ∀ ops outer,
    (operand n ops outer).Forward ∧ (afterOperand n ops outer).Forward := by
  induction n with
  | zero => exact fun _ _ => ⟨.fail _ _, .fail _ _⟩
  | succ n ih =>
    intro ops outer
    constructor
    · rw [operand_succ]
      refine Forward.current.bind fun t => ?_
      split
      · exact Forward.advance.bind fun _ => (ih _ _).2.bind fun _ => .pure _
      · exact (forward_named (forward_located (ih _ _).1) n _).bind fun _ =>
          (ih _ _).2.bind fun _ => .pure _
      · exact Forward.advance.bind fun _ => (ih _ _).1
      · exact Forward.advance.bind fun _ => (ih _ _).1
      · exact .fail _ _
    · refine Forward.current.bind fun t => ?_
      split
      · exact Forward.advance.bind fun _ => (ih _ _).1.bind fun _ => .pure _
      · exact .pure _
      · exact .ite (Forward.advance.bind fun _ => (ih _ _).2.bind fun _ => .pure _) (.fail _ _)

theorem forward_parse : Expression.parse.Forward :=
  forward_located (Forward.budget.bind fun n => (forward_scan n [] []).1)

/-- What begins with a name is read alike, whether the name is passed first or last looked at. -/
theorem outcome_named {p q : Parse Expression} {c : Cursor} (hq : q.Forward)
    (h : ∀ d : Cursor, d.rest.length < c.rest.length → p.outcome d = q.outcome d)
    (hc : c.atEnd = false) {n k : Nat} (hn : c.rest.length ≤ n) (hk : c.rest.length ≤ k)
    (name : String) :
    (named p n name).outcome c = (Climbing.named q k name c.location).outcome c.advance := by
  have hl := Cursor.length_rest_advance hc
  have hlist {d : Cursor} (hd : d.rest.length < c.rest.length) :
      (commaList p n).outcome d = (commaList q k).outcome d :=
    commaList_congr hq (fun e he => h e (by omega)) (by omega) (by omega)
  simp only [named, Climbing.named, outcome_location_bind, outcome_advance_bind,
    outcome_atSymbol_bind, outcome_takeSymbol_bind]
  cases hs : c.advance.atSymbol .leftParen with
  | true =>
    have ha := Cursor.length_rest_advance (Cursor.atEnd_of_atSymbol hs)
    simp only [if_true, argumentList, bind_assoc, outcome_symbol_bind, outcome_takeSymbol_bind, hs]
    split
    · rfl
    · simp only [Bool.false_eq_true, if_false, bind_assoc, pure_bind]
      exact outcome_bind_congr (hlist (by omega)) fun _ _ _ => rfl
  | false =>
    simp only [Bool.false_eq_true, if_false, indexList, bind_assoc, outcome_takeSymbol_bind]
    split
    · next hb =>
      have ha := Cursor.length_rest_advance (Cursor.atEnd_of_atSymbol hb)
      simp only [if_true, bind_assoc, pure_bind]
      exact outcome_bind_congr (hlist (by omega)) fun _ _ _ => rfl
    · rfl

theorem outcome_located {p q : Parse (List Element)} {c : Cursor} (h : p.outcome c = q.outcome c) :
    (located p).outcome c = (located q).outcome c := by
  simp only [located, outcome_location_bind]
  exact outcome_bind_congr h fun _ _ _ => rfl

def AlikeBehind (n k : Nat) (c : Cursor) : Prop :=
  ∀ d : Cursor, d.rest.length < c.rest.length → ∀ ops outer,
    (operand n ops outer).outcome d = (operand k ops outer).outcome d ∧
      (afterOperand n ops outer).outcome d = (afterOperand k ops outer).outcome d

namespace AlikeBehind

variable {n k : Nat} {c : Cursor}

theorem operand (h : AlikeBehind n k c) (hn : c.rest.length ≤ n) (hk : c.rest.length ≤ k)
    (ops : List Operator) (outer : List (List Operator)) :
    (Expression.operand (n + 1) ops outer).outcome c =
      (Expression.operand (k + 1) ops outer).outcome c := by
  simp only [operand_succ, outcome_current_bind]
  cases hs : c.current.operandStart? with
  | none => rfl
  | some start =>
    have hc : c.atEnd = false := Cursor.atEnd_eq_false rfl (Token.ne_endOfFile_of_operandStart? hs)
    have hlt := Cursor.length_rest_advance hc
    cases start with
    | literal v =>
      simp only [outcome_advance_bind]
      exact outcome_bind_congr (h _ (by omega) ops outer).2 fun _ _ _ => rfl
    | name name =>
      have hf := forward_located (forward_scan k [] []).1
      have hitem (d : Cursor) (hd : d.rest.length < c.rest.length) :=
        outcome_located (h d hd [] []).1
      refine outcome_bind_congr ?_ fun _ d hd => ?_
      · rw [outcome_named (k := k) hf hitem hc hn hk,
          outcome_named (k := k) hf (fun _ _ => rfl) hc hk hk]
      · rw [outcome_named (k := k) hf (fun _ _ => rfl) hc hk hk] at hd
        have hle := (Climbing.forward_named hf k name c.location).length_le hd
        exact outcome_bind_congr (h d (by omega) ops outer).2 fun _ _ _ => rfl
    | sign op =>
      simp only [outcome_advance_bind]
      exact (h _ (by omega) _ outer).1
    | parenthesis =>
      simp only [outcome_advance_bind]
      exact (h _ (by omega) _ _).1

theorem afterOperand (h : AlikeBehind n k c) (ops : List Operator) (outer : List (List Operator)) :
    (Expression.afterOperand (n + 1) ops outer).outcome c =
      (Expression.afterOperand (k + 1) ops outer).outcome c := by
  simp only [Expression.afterOperand, outcome_current_bind]
  cases hb : c.current.kind.binaryOperator? with
  | some op =>
    have hc := Cursor.length_rest_advance
      (Cursor.atEnd_eq_false rfl (TokenKind.ne_endOfFile_of_binaryOperator? hb))
    simp only [outcome_advance_bind]
    exact outcome_bind_congr (h _ (by omega) _ outer).1 fun _ _ _ => rfl
  | none =>
    cases outer with
    | nil => rfl
    | cons around outer =>
      dsimp only
      split
      · next hp =>
        have hc := Cursor.length_rest_advance (Cursor.atEnd_eq_false hp (by simp))
        rw [outcome_advance_bind, outcome_advance_bind]
        exact outcome_bind_congr (h _ (by omega) around outer).2 fun _ _ _ => rfl
      · rfl

end AlikeBehind

theorem scan_budget {c : Cursor} {n k : Nat} (hn : c.rest.length < n) (hk : c.rest.length < k)
    (ops : List Operator) (outer : List (List Operator)) :
    (operand n ops outer).outcome c = (operand k ops outer).outcome c ∧
      (afterOperand n ops outer).outcome c = (afterOperand k ops outer).outcome c := by
  induction hl : c.rest.length using Nat.strongRecOn generalizing c n k ops outer with
  | ind len ih =>
    subst hl
    obtain ⟨n, rfl⟩ := Nat.exists_eq_succ_of_ne_zero (Nat.ne_zero_of_lt hn)
    obtain ⟨k, rfl⟩ := Nat.exists_eq_succ_of_ne_zero (Nat.ne_zero_of_lt hk)
    have h : AlikeBehind n k c :=
      fun d hd ops outer => ih _ hd (by omega) (by omega) ops outer rfl
    exact ⟨h.operand (by omega) (by omega) ops outer, h.afterOperand ops outer⟩

theorem parse_budget {c : Cursor} {n : Nat} (hn : c.rest.length < n) :
    Expression.parse.outcome c = (located (operand n [] [])).outcome c := by
  rw [← outcome_located (scan_budget (Nat.lt_succ_self _) hn [] []).1]
  simp only [Expression.parse, located, outcome_location_bind, outcome_budget_bind]

end Expression
end Seudocodigo
