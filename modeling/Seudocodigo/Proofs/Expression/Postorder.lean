import Seudocodigo.Proofs.Expression.Precedence

/-! What the parser of expressions yields: every operator stands behind its operands, and so at all
depths. -/
namespace Seudocodigo

open Parse

/-- The elements make up one operand, and so do those of every index and argument in them. -/
inductive Postorder : List Element → Prop where
  | literal (value : Value) : Postorder [.literal value]
  | access {a : Access} : (∀ e ∈ a.indices, Postorder e.elements) → Postorder [.access a]
  | call {c : Call} : (∀ e ∈ c.args, Postorder e.elements) → Postorder [.call c]
  | unary {op : Operator} {es : List Element} :
    op.leadsOperand = true → Postorder es → Postorder (es ++ [.operator op])
  | binary {op : Operator} {ls rs : List Element} :
    op.leadsOperand = false → Postorder ls → Postorder rs → Postorder (ls ++ rs ++ [.operator op])

theorem commaList_forall {α : Type} {item : Parse α} {P : α → Prop} {n : Nat} {c d : Cursor}
    {as : List α} (hitem : ∀ {c a d}, item.outcome c = (.ok a, d) → P a)
    (h : (commaList item n).outcome c = (.ok as, d)) : ∀ a ∈ as, P a := by
  induction n generalizing c as with
  | zero => cases h
  | succ n ih =>
    obtain ⟨a, e, ha, h⟩ := outcome_bind_ok h
    rw [outcome_takeSymbol_bind] at h
    split at h
    · obtain ⟨bs, f, hb, h⟩ := outcome_bind_ok h
      cases h
      exact List.forall_mem_cons.2 ⟨hitem ha, ih hb⟩
    · cases h
      exact List.forall_mem_singleton.2 (hitem ha)

namespace Climbing

theorem postorder_named {expr : Parse Expression} {n : Nat} {name : String} {p : Location}
    {c d : Cursor} {e : Element}
    (hexpr : ∀ {c e d}, expr.outcome c = (.ok e, d) → Postorder e.elements)
    (h : (named expr n name p).outcome c = (.ok e, d)) : Postorder [e] := by
  rw [named, outcome_takeSymbol_bind] at h
  split at h
  · rw [if_pos rfl, outcome_takeSymbol_bind] at h
    split at h
    · cases h
      exact .call (by simp)
    · obtain ⟨args, f, hargs, h⟩ := outcome_bind_ok h
      obtain ⟨_, f, _, h⟩ := outcome_bind_ok h
      cases h
      exact .call (commaList_forall hexpr hargs)
  · rw [if_neg (by simp), outcome_takeSymbol_bind] at h
    split at h
    · obtain ⟨indices, f, hindices, h⟩ := outcome_bind_ok h
      obtain ⟨_, f, _, h⟩ := outcome_bind_ok h
      cases h
      exact .access (commaList_forall hexpr hindices)
    · cases h
      exact .access (by simp)

structure InOrder (n : Nat) : Prop where
  operand : ∀ {c t d}, (operand n).outcome c = (.ok t, d) → Postorder t.postorder
  joined : ∀ {level l c t d}, Postorder l.postorder → (joined n level l).outcome c = (.ok t, d) →
    Postorder t.postorder

namespace InOrder

variable {n : Nat} {c d : Cursor} {t l : Tree}

theorem tree (ih : InOrder n) (h : (tree n).outcome c = (.ok t, d)) : Postorder t.postorder := by
  obtain ⟨l, _, hl, ht⟩ := outcome_bind_ok h
  exact ih.joined (ih.operand hl) ht

theorem operand_succ (ih : InOrder n) (h : (Climbing.operand (n + 1)).outcome c = (.ok t, d)) :
    Postorder t.postorder := by
  rw [Climbing.operand, outcome_current_bind] at h
  split at h
  · cases h
    exact .literal _
  · rw [outcome_advance_bind] at h
    obtain ⟨e, f, he, h⟩ := outcome_bind_ok h
    cases h
    refine postorder_named (fun hexpr => ?_) he
    obtain ⟨_, _, _, hexpr⟩ := outcome_bind_ok hexpr
    obtain ⟨t, _, ht, hexpr⟩ := outcome_bind_ok hexpr
    cases hexpr
    exact ih.tree ht
  · next op hop =>
    rw [outcome_advance_bind] at h
    obtain ⟨r, f, hr, h⟩ := outcome_bind_ok h
    cases h
    exact .unary (Token.leadsOperand_of_operandStart? hop) (ih.operand hr)
  · rw [outcome_advance_bind] at h
    obtain ⟨l, f, hl, h⟩ := outcome_bind_ok h
    obtain ⟨r, f, hr, h⟩ := outcome_bind_ok h
    obtain ⟨_, f, _, h⟩ := outcome_bind_ok h
    cases h
    exact ih.joined (ih.operand hl) hr
  · cases h

theorem joined_succ (ih : InOrder n) {level : Nat} (hl : Postorder l.postorder)
    (h : (Climbing.joined (n + 1) level l).outcome c = (.ok t, d)) : Postorder t.postorder := by
  rw [Climbing.joined_succ, outcome_current_bind] at h
  split at h
  · next op hop =>
    split at h
    · rw [outcome_advance_bind] at h
      obtain ⟨r, e, hr, h⟩ := outcome_bind_ok h
      obtain ⟨r', e, hr', h⟩ := outcome_bind_ok h
      have hbinary := TokenKind.leadsOperand_of_binaryOperator? hop
      have hjoin : Postorder (Tree.binary op l r').postorder :=
        .binary hbinary hl (ih.joined (ih.operand hr) hr')
      exact ih.joined hjoin h
    · cases h
      exact hl
  · cases h
    exact hl

end InOrder

theorem inOrder (n : Nat) : InOrder n := by
  induction n with
  | zero => exact ⟨fun h => (by cases h), fun _ h => (by cases h)⟩
  | succ n ih => exact ⟨ih.operand_succ, ih.joined_succ⟩

end Climbing

theorem Expression.postorder_of_parse {c d : Cursor} {e : Expression}
    (h : Expression.parse.outcome c = (.ok e, d)) : Postorder e.elements := by
  rw [outcome_parse c 0] at h
  obtain ⟨_, _, _, h⟩ := outcome_bind_ok h
  obtain ⟨t, _, ht, h⟩ := outcome_bind_ok h
  cases h
  exact (Climbing.inOrder _).tree ht

end Seudocodigo
