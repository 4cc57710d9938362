import Seudocodigo.Proofs.Expression.Budget

/-! The scan with waiting operators reads the postorder of the tree that precedence climbing
reads. Operators that wait are the levels that climbing has open, the strongest of them first. -/
namespace Seudocodigo

namespace Expression

open Parse

def behind (es : List Element) (p : Parse (List Element)) : Parse (List Element) := do
  return es ++ (← p)

theorem behind_bind {α : Type} (es : List Element) (p : Parse α) (f : α → Parse (List Element)) :
    behind es (p >>= f) = p >>= fun a => behind es (f a) := by
  simp only [behind, bind_assoc]

theorem behind_pure (es fs : List Element) : behind es (pure fs) = pure (es ++ fs) := by
  simp only [behind, pure_bind]

theorem behind_behind (es fs : List Element) (p : Parse (List Element)) :
    behind es (behind fs p) = behind (es ++ fs) p := by
  simp only [behind, bind_assoc, pure_bind, List.append_assoc]

theorem outcome_behind_congr {p q : Parse (List Element)} {c : Cursor} (es : List Element)
    (h : p.outcome c = q.outcome c) : (behind es p).outcome c = (behind es q).outcome c :=
  outcome_bind_congr h fun _ _ _ => rfl

/-- The least precedence of an operator that does not let go of those that wait. -/
def threshold : List Operator → Nat
  | [] => 0
  | op :: _ => op.precedence + 1

theorem takeWhile_of_threshold {op : Operator} {ops : List Operator}
    (h : threshold ops ≤ op.precedence) :
    ops.takeWhile (fun o => decide (op.precedence ≤ o.precedence)) = [] := by
  cases ops with
  | nil => rfl
  | cons o ops =>
    have hlt : ¬ op.precedence ≤ o.precedence := Nat.not_le.2 h
    simp [hlt]

/-- An operator that waits comes out first where no stronger one follows. -/
theorem outcome_afterOperand_cons {c : Cursor} {op : Operator}
    (h : ∀ o, c.current.kind.binaryOperator? = some o → o.precedence ≤ op.precedence)
    (n : Nat) (ops : List Operator) (outer : List (List Operator)) :
    (afterOperand n (op :: ops) outer).outcome c =
      (behind [.operator op] (afterOperand n ops outer)).outcome c := by
  cases n with
  | zero => rfl
  | succ n =>
    simp only [afterOperand, behind_bind, outcome_current_bind]
    cases hb : c.current.kind.binaryOperator? with
    | some o =>
      have ho := h o hb
      simp only [behind_bind, behind_pure, List.takeWhile_cons, ho, decide_true, if_true,
        List.length_cons, List.drop_succ_cons, emit, List.map_cons, List.cons_append,
        List.nil_append]
    | none =>
      cases outer with
      | nil => rfl
      | cons around outer =>
        dsimp only
        split
        · simp only [behind_bind, behind_pure, emit, List.map_cons, List.cons_append,
            List.nil_append]
        · rfl

theorem outcome_afterOperand_nil {c : Cursor} (h : c.current.kind.binaryOperator? = none)
    (n : Nat) : (afterOperand (n + 1) [] []).outcome c = (.ok [], c) := by
  simp only [afterOperand, outcome_current_bind, h]
  rfl

theorem outcome_afterOperand_close {c : Cursor} (h : c.current.kind.binaryOperator? = none)
    (n : Nat) (around : List Operator) (outer : List (List Operator)) :
    (afterOperand (n + 1) [] (around :: outer)).outcome c =
      (symbol .rightParen (some .mismatchedParenthesis) >>= fun _ =>
        afterOperand n around outer).outcome c := by
  simp only [afterOperand, outcome_current_bind, h, outcome_symbol_bind, Cursor.atSymbol,
    decide_eq_true_eq]
  split
  · simp only [outcome_advance_bind, emit, List.map_nil, List.nil_append, bind_pure]
  · rfl

theorem behind_emit (l r : Tree) (op : Operator) (p : Parse (List Element)) :
    behind l.postorder (behind r.postorder (behind [.operator op] p)) =
      behind (Tree.binary op l r).postorder p := by
  simp only [behind_behind, Tree.postorder, List.append_assoc]

/-- With the given budget, scanning from an operand on and from behind an operand on is climbing
followed by what else waits. -/
def Climbs (n : Nat) : Prop :=
  ∀ c : Cursor, c.rest.length < n → ∀ ops outer,
    (operand n ops outer).outcome c =
        (Climbing.operand n >>= fun t =>
          behind t.postorder (afterOperand n ops outer)).outcome c ∧
      ∀ l : Tree, (behind l.postorder (afterOperand n ops outer)).outcome c =
        (Climbing.joined n (threshold ops) l >>= fun t =>
          behind t.postorder (afterOperand n ops outer)).outcome c

theorem no_operator_behind_joined {n : Nat} {l t : Tree} {c d : Cursor}
    (h : (Climbing.joined n 0 l).outcome c = (.ok t, d)) :
    d.current.kind.binaryOperator? = none := by
  cases hd : d.current.kind.binaryOperator? with
  | none => rfl
  | some op => exact absurd (Climbing.joined_stops h hd) (Nat.not_lt_zero _)

theorem Climbs.outcome_located {n : Nat} (h : Climbs n) {c : Cursor} (hc : c.rest.length < n) :
    (located (operand n [] [])).outcome c = (Climbing.expression n).outcome c := by
  have hscan : (operand n [] []).outcome c =
      (Climbing.tree n >>= fun t => pure t.postorder).outcome c := by
    rw [(h c hc [] []).1, Climbing.tree, bind_assoc]
    refine outcome_bind_congr rfl fun l d hd => ?_
    have hle := (Climbing.forward n).1.length_le hd
    rw [(h d (by omega) [] []).2]
    refine outcome_bind_congr rfl fun t e he => ?_
    have hstop := no_operator_behind_joined he
    cases n with
    | zero => omega
    | succ n => rw [behind, outcome_bind_of_ok (outcome_afterOperand_nil hstop n), List.append_nil]
  rw [Expression.outcome_located hscan]
  simp only [located, Climbing.expression, Climbing.flattened, bind_assoc, pure_bind]

/-- A closing parenthesis ends the innermost group, whose tree is an operand of what is around. -/
theorem outcome_close {n : Nat} {c : Cursor} (hn : c.rest.length < n)
    (hc : c.current.kind.binaryOperator? = none) (t : Tree) (ops : List Operator)
    (outer : List (List Operator)) :
    (behind t.postorder (afterOperand n [] (ops :: outer))).outcome c =
      (symbol .rightParen (some .mismatchedParenthesis) >>= fun _ =>
        behind t.postorder (afterOperand (n + 1) ops outer)).outcome c := by
  cases n with
  | zero => omega
  | succ n =>
    rw [outcome_behind_congr _ (outcome_afterOperand_close hc n ops outer), behind_bind,
      outcome_symbol_bind, outcome_symbol_bind]
    split
    · next hs =>
      have hl := Cursor.length_rest_advance (Cursor.atEnd_of_atSymbol hs)
      exact outcome_behind_congr _ (scan_budget (by omega) (by omega) ops outer).2
    · rfl

theorem outcome_behind_budget {n : Nat} {c : Cursor} (h : c.rest.length < n) (es : List Element)
    (ops : List Operator) (outer : List (List Operator)) :
    (behind es (afterOperand (n + 1) ops outer)).outcome c =
      (behind es (afterOperand n ops outer)).outcome c :=
  outcome_behind_congr es (scan_budget (by omega) h ops outer).2

namespace Climbs

variable {n : Nat} {c : Cursor}

theorem operand (ih : Climbs n) (hn : c.rest.length < n + 1) (ops : List Operator)
    (outer : List (List Operator)) :
    (Expression.operand (n + 1) ops outer).outcome c =
      (Climbing.operand (n + 1) >>= fun t =>
        behind t.postorder (afterOperand (n + 1) ops outer)).outcome c := by
  obtain ⟨hfo, hfj⟩ := Climbing.forward n
  simp only [operand_succ, Climbing.operand, bind_assoc, outcome_current_bind]
  cases h : c.current.operandStart? with
  | none => rfl
  | some start =>
    have hend := Cursor.atEnd_eq_false rfl (Token.ne_endOfFile_of_operandStart? h)
    have hc := Cursor.length_rest_advance hend
    cases start with
    | literal v =>
      simp only [outcome_advance_bind, pure_bind, bind_assoc, Tree.postorder]
      rw [outcome_behind_budget (by omega)]
      simp only [behind, List.cons_append, List.nil_append]
    | name name =>
      have hf : (Climbing.expression n).Forward :=
        Climbing.forward_flattened (hfo.bind fun l => hfj 0 l)
      have hitem (d : Cursor) (hd : d.rest.length < c.rest.length) :=
        ih.outcome_located (c := d) (by omega)
      simp only [outcome_advance_bind, bind_assoc, pure_bind, Tree.postorder]
      refine outcome_bind_congr
        (outcome_named hf hitem hend (by omega) (by omega) name) fun e d hd => ?_
      have hle := (Climbing.forward_named hf n name _).length_le hd
      rw [outcome_behind_budget (by omega)]
      simp only [behind, List.cons_append, List.nil_append]
    | sign op =>
      simp only [outcome_advance_bind, bind_assoc, pure_bind, Tree.postorder]
      rw [(ih c.advance (by omega) _ _).1]
      refine outcome_bind_congr rfl fun t d hd => ?_
      have hle := hfo.length_le hd
      have hop := Token.leadsOperand_of_operandStart? h
      rw [outcome_behind_budget (by omega), ← behind_behind]
      refine outcome_behind_congr _ (outcome_afterOperand_cons (fun o ho => ?_) n ops outer)
      exact Nat.le_of_lt (Operator.precedence_lt_of_not_leadsOperand
        (TokenKind.leadsOperand_of_binaryOperator? ho) hop)
    | parenthesis =>
      simp only [outcome_advance_bind, bind_assoc, pure_bind]
      rw [(ih c.advance (by omega) _ _).1]
      refine outcome_bind_congr rfl fun l d hd => ?_
      have hle := hfo.length_le hd
      rw [(ih d (by omega) _ _).2]
      refine outcome_bind_congr rfl fun t e he => ?_
      have hle' := (hfj 0 l).length_le he
      exact outcome_close (by omega) (no_operator_behind_joined he) t ops outer

/-- Behind the right operand of an operator comes what climbing joins to it, then the operator. -/
theorem right (ih : Climbs n) (hn : c.rest.length < n) (l : Tree) (op : Operator)
    (ops : List Operator) (outer : List (List Operator)) :
    (Climbing.operand n >>= fun r => behind l.postorder
        (behind r.postorder (afterOperand n (op :: ops) outer))).outcome c =
      (Climbing.operand n >>= fun r => Climbing.joined n (op.precedence + 1) r >>= fun r =>
        Climbing.joined n (threshold ops) (.binary op l r) >>= fun t =>
          behind t.postorder (afterOperand (n + 1) ops outer)).outcome c := by
  obtain ⟨hfo, hfj⟩ := Climbing.forward n
  refine outcome_bind_congr rfl fun r d hd => ?_
  have hle := hfo.length_le hd
  rw [outcome_behind_congr _ ((ih d (by omega) (op :: ops) outer).2 r), behind_bind]
  refine outcome_bind_congr rfl fun r e he => ?_
  have hle' := (hfj _ _).length_le he
  have hweaker (o : Operator) (ho : e.current.kind.binaryOperator? = some o) :
      o.precedence ≤ op.precedence :=
    Nat.le_of_lt_succ (Climbing.joined_stops he ho)
  rw [outcome_behind_congr _
      (outcome_behind_congr _ (outcome_afterOperand_cons hweaker n ops outer)),
    behind_emit, (ih e (by omega) ops outer).2]
  refine outcome_bind_congr rfl fun t f hf => ?_
  have hle'' := (hfj _ _).length_le hf
  exact (outcome_behind_budget (by omega) _ _ _).symm

theorem joined (ih : Climbs n) (hn : c.rest.length < n + 1) (ops : List Operator)
    (outer : List (List Operator)) (l : Tree) :
    (behind l.postorder (afterOperand (n + 1) ops outer)).outcome c =
      (Climbing.joined (n + 1) (threshold ops) l >>= fun t =>
        behind t.postorder (afterOperand (n + 1) ops outer)).outcome c := by
  simp only [Climbing.joined_succ, bind_assoc, outcome_current_bind]
  cases hb : c.current.kind.binaryOperator? with
  | none => rfl
  | some o =>
    dsimp only
    split
    · next hlevel =>
      have hc := Cursor.length_rest_advance
        (Cursor.atEnd_eq_false rfl (TokenKind.ne_endOfFile_of_binaryOperator? hb))
      simp only [bind_assoc, outcome_advance_bind]
      calc
        _ = (behind l.postorder (Expression.operand n (o :: ops) outer)).outcome c.advance := by
          simp only [afterOperand, behind_bind, outcome_current_bind, hb,
            outcome_advance_bind, takeWhile_of_threshold hlevel, List.length_nil,
            List.drop_zero, emit, List.map_nil, List.nil_append, bind_pure]
        _ = (Climbing.operand n >>= fun r => behind l.postorder
              (behind r.postorder (afterOperand n (o :: ops) outer))).outcome c.advance := by
          rw [← behind_bind]
          exact outcome_behind_congr _ (ih c.advance (by omega) _ _).1
        _ = _ := ih.right (by omega) l o ops outer
    · rfl

end Climbs

theorem climbs (n : Nat) : Climbs n := by
  induction n with
  | zero => intro c hc; omega
  | succ n ih => exact fun c hn ops outer => ⟨ih.operand hn ops outer, ih.joined hn ops outer⟩

/-- The budget of climbing has no influence. -/
theorem outcome_parse (c : Cursor) (k : Nat) :
    Expression.parse.outcome c = (Climbing.expression (c.rest.length + 1 + k)).outcome c := by
  have hn : c.rest.length < c.rest.length + 1 + k := by omega
  have hbudget := (scan_budget (Nat.lt_succ_self c.rest.length) hn [] []).1
  rw [← (climbs _).outcome_located hn, ← Expression.outcome_located hbudget]
  simp only [Expression.parse, located, outcome_location_bind, outcome_budget_bind]

/-- Parsing an expression gives the postorder of the tree that climbing reads, at the place of the
first token, and stops where climbing does, before a token that is no operator between operands. It
fails where climbing fails, with the same error. -/
theorem parse_climbs (c : Cursor) (k : Nat) :
    match (Climbing.tree (c.rest.length + 1 + k)).outcome c with
    | (.ok t, d) =>
      Expression.parse.outcome c = (.ok ⟨t.postorder, c.location⟩, d) ∧
        d.current.kind.binaryOperator? = none
    | (.error e, d) => Expression.parse.outcome c = (.error e, d) := by
  rw [outcome_parse c k, Climbing.expression, Climbing.flattened, outcome_location_bind,
    outcome_bind]
  cases h : (Climbing.tree (c.rest.length + 1 + k)).outcome c with
  | mk r d =>
    cases r with
    | error e => rfl
    | ok t =>
      obtain ⟨l, e, _, he⟩ := outcome_bind_ok h
      exact ⟨rfl, no_operator_behind_joined he⟩

end Expression
end Seudocodigo
