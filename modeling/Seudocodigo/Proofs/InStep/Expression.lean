import Seudocodigo.Proofs.Blame.Expression
import Seudocodigo.Proofs.Parse.InStep

/-! Expressions in two texts at the same time. -/
namespace Seudocodigo

theorem Token.operandStart?_congr {t u : Token} (h : t.kind = u.kind) :
    t.operandStart? = u.operandStart? := by
  rw [operandStart?, operandStart?, literal?, literal?, h]

theorem Token.ne_endOfLine_of_operandStart? {t : Token} {s : OperandStart}
    (h : t.operandStart? = some s) : t.kind ≠ .endOfLine := by
  intro hk
  simp [operandStart?, literal?, TokenKind.literal?, hk] at h

theorem TokenKind.ne_endOfLine_of_binaryOperator? {k : TokenKind} {op : Operator}
    (h : k.binaryOperator? = some op) : k ≠ .endOfLine := by
  intro hk
  rw [hk] at h
  cases h

namespace Likeness

open Expression Parse

variable {L : Likeness} {n m : Nat} {item item' : Parse Expression}

theorem inStep_located {P Q : Cursor → Cursor → Prop} {p q : Parse (List Element)}
    (hP : ∀ {c d}, P c d → L.Like c d) (h : L.InStep P Q (relocateElements L.place) p q) :
    L.InStep P Q (Expression.relocate L.place) (located p) (located q) := by
  refine (inStep_location hP).bind fun a b hab => h.map fun es fs hes => ?_
  rw [Expression.relocate, Expression.relocate, hes, hab]

section Item

variable (h : L.InStep (L.Within n m) (L.Within n m) (Expression.relocate L.place) item item')

include h

theorem inStep_argumentList :
    L.InStep (L.Within n m) (L.Within n m) (List.map (Expression.relocate L.place))
      (argumentList item n) (argumentList item' m) := by
  refine ((takes_symbol _ _).keeps n m).bind fun _ _ _ => takeSymbol_bind (.loosen (.pure rfl)) ?_
  exact h.commaList.bind fun _ _ hargs => ((takes_symbol _ _).keeps n m).map fun _ _ _ => hargs

theorem inStep_indexList :
    L.InStep (L.Within n m) (L.Within n m) (List.map (Expression.relocate L.place))
      (indexList item n) (indexList item' m) := by
  have hlist := h.commaList.bind fun _ _ hindices =>
    ((takes_symbol (L := L) .rightBracket none).keeps n m).map fun _ _ _ => hindices
  exact takeSymbol_bind hlist.behind (.pure rfl)

theorem inStep_behindName (name : String) {p q : Location} (hpq : L.place p = L.place q) :
    L.InStep (L.Within n m) (L.Within n m) (Element.relocate L.place) (behindName item n name p)
      (behindName item' m name q) := by
  refine atSymbol_bind fun b => ?_
  cases b with
  | true =>
    refine (inStep_argumentList h).map fun es fs hes => ?_
    simp only [Element.relocate, Call.relocate, relocateExpressions_eq_map, hes, hpq]
  | false =>
    refine (inStep_indexList h).map fun es fs hes => ?_
    simp only [Element.relocate, Access.relocate, relocateExpressions_eq_map, hes]

end Item

def ScansInStep (L : Likeness) (n m : Nat) : Prop :=
  ∀ turn ops outer, L.InStep (L.Within n m) (L.Within n m) (relocateElements L.place)
    (scan turn n ops outer) (scan turn m ops outer)

namespace ScansInStep

variable (h : L.ScansInStep n m) (ops : List Operator) (outer : List (List Operator))

include h

theorem operand :
    L.InStep (L.Within (n + 1) (m + 1)) (L.Within (n + 1) (m + 1)) (relocateElements L.place)
      (Expression.operand (n + 1) ops outer) (Expression.operand (m + 1) ops outer) := by
  rw [operand_succ, operand_succ]
  refine current_bind fun t u htu _ => ?_
  rw [← Token.operandStart?_congr htu]
  cases hs : t.operandStart? with
  | none => exact (inStep_fail _ _ _).forAt
  | some start =>
    have hline := Token.ne_endOfLine_of_operandStart? hs
    have hend := Token.ne_endOfFile_of_operandStart? hs
    cases start with
    | literal value =>
      refine (advance_bind hline hend fun _ _ _ =>
        (h .operator ops outer).map fun es fs hes => ?_).loosen
      rw [relocateElements, relocateElements, hes]
    | name name =>
      have hitem := inStep_located Within.like (h .operand [] [])
      have hnamed := (inStep_location (P := L.At t.kind (n + 1) (m + 1)) (·.like)).bind
        fun p q hpq => advance_bind hline hend fun _ _ _ => inStep_behindName hitem name hpq
      refine (hnamed.bind fun e f hef => (h .operator ops outer).map fun es fs hes => ?_).loosen
      rw [relocateElements, relocateElements, hef, hes]
    | sign op => exact (advance_bind hline hend fun _ _ _ => h .operand (op :: ops) outer).loosen
    | parenthesis =>
      exact (advance_bind hline hend fun _ _ _ => h .operand [] (ops :: outer)).loosen

theorem afterOperand :
    L.InStep (L.Within (n + 1) (m + 1)) (L.Within (n + 1) (m + 1)) (relocateElements L.place)
      (Expression.afterOperand (n + 1) ops outer) (Expression.afterOperand (m + 1) ops outer) := by
  refine current_bind fun t u htu _ => ?_
  rw [← htu]
  cases hop : t.kind.binaryOperator? with
  | some op =>
    have hline := TokenKind.ne_endOfLine_of_binaryOperator? hop
    have hend := TokenKind.ne_endOfFile_of_binaryOperator? hop
    refine (advance_bind hline hend fun _ _ _ =>
      (h .operand _ outer).map fun es fs hes => ?_).loosen
    rw [relocateElements_append, relocateElements_append, hes]
  | none =>
    cases outer with
    | nil => exact (InStep.pure rfl).forAt
    | cons around outer =>
      dsimp only
      split
      · next hclose =>
        refine (advance_bind (by simp [hclose]) (by simp [hclose]) fun _ _ _ =>
          (h .operator around outer).map fun es fs hes => ?_).loosen
        rw [relocateElements_append, relocateElements_append, hes]
      · exact (inStep_fail _ _ _).forAt

end ScansInStep

theorem scansInStep (n m : Nat) : L.ScansInStep n m := by
  let scanAt (n : Nat) (i : Turn × List Operator × List (List Operator)) := scan i.1 n i.2.1 i.2.2
  intro turn ops outer
  refine inStep_of_step (S := Eq) scanAt scanAt ?_ ?_ n m (rfl : (turn, ops, outer) = _)
  · rintro ⟨turn, ops, outer⟩ _ rfl
    cases turn with
    | operand => exact ⟨.fail _ _, .fail _ _⟩
    | operator => exact ⟨.fail _ _, .fail _ _⟩
  · rintro n m h ⟨turn, ops, outer⟩ _ rfl
    have hscans : L.ScansInStep n m := fun turn ops outer => h (turn, ops, outer) _ rfl
    cases turn with
    | operand => exact hscans.operand ops outer
    | operator => exact hscans.afterOperand ops outer

theorem keeps_expression :
    L.Keeps (Expression.relocate L.place) Expression.parse Expression.parse := fun n m =>
  inStep_located Within.like (keeps_budget (fun n m => scansInStep n m .operand [] []) n m)

theorem keeps_arguments :
    L.Keeps (List.map (Expression.relocate L.place)) parseArguments parseArguments :=
  keeps_budget fun n m => inStep_argumentList (keeps_expression n m)

theorem keeps_indices :
    L.Keeps (List.map (Expression.relocate L.place)) parseIndices parseIndices :=
  keeps_budget fun n m => inStep_indexList (keeps_expression n m)

theorem keeps_access : L.Keeps (Access.relocate L.place) Access.parse Access.parse := fun n m =>
  (takes_word.keeps n m).bind fun a b hab => (keeps_indices n m).map fun es fs hes => by
    rw [Access.relocate, Access.relocate, relocateExpressions_eq_map, relocateExpressions_eq_map,
      hes, show a = b from hab]

end Likeness

end Seudocodigo
