import Seudocodigo.Proofs.Expression.Local
import Seudocodigo.Proofs.Grammar

/-! The parsers of expressions and accesses read what the grammar says. -/
namespace Seudocodigo

open Parse

theorem Token.endsExpression_of_kind {t : Token} {k : TokenKind} (ht : t.kind = k)
    (hb : k.binaryOperator? = none) (hp : k ≠ .symbol .leftParen)
    (hi : k ≠ .symbol .leftBracket) : t.EndsExpression :=
  ⟨by rw [ht]; exact hb, by rw [ht]; exact hp, by rw [ht]; exact hi⟩

namespace Expression

theorem reads_parse : Expression.parse.Reads Token.EndsExpression Spelled where
  sound h := by
    obtain ⟨ts, ht, hr⟩ := local_parse _ _ _ h
    have hend : (Cursor.ofTokens []).current.EndsExpression :=
      Token.endsExpression_of_kind (k := .endOfFile) rfl rfl (by simp) (by simp)
    exact ⟨ts, ht, hr (.ofTokens []) (.inr hend)⟩
  complete {ts e d} h hd := by
    obtain ⟨us, hu, hr⟩ := local_parse _ _ _ h
    cases (List.append_cancel_right (hu.1.symm.trans (Cursor.tokens_before ts _)) : us = ts)
    exact hr d (.inr hd)

variable {c d : Cursor} {ts : List Token} {es : List Expression}

theorem endsExpression_comma {t : Token} (h : t.kind = .symbol .comma) : t.EndsExpression :=
  Token.endsExpression_of_kind h rfl (by simp) (by simp)

/-- Expressions with commas between them, and the symbol that closes them. -/
theorem listed_complete {s : Symbol} {reason : Option SyntaxReason} {u : Token}
    (h : Listed Spelled ts es) (hu : u.kind = .symbol s)
    (hs : s = .rightParen ∨ s = .rightBracket) {n : Nat} (hn : ts.length < n) :
    (do
      let es ← commaList Expression.parse n
      let _ ← symbol s reason
      return es : Parse (List Expression)).outcome (.before (ts ++ [u]) d) = (.ok es, d) := by
  have hends : u.EndsExpression := by
    cases hs with
    | inl hs =>
      exact Token.endsExpression_of_kind hu (by rw [hs]; rfl) (by simp [hs]) (by simp [hs])
    | inr hs =>
      exact Token.endsExpression_of_kind hu (by rw [hs]; rfl) (by simp [hs]) (by simp [hs])
  have hcomma : u.kind ≠ .symbol .comma := by
    cases hs with
    | inl hs => simp [hu, hs]
    | inr hs => simp [hu, hs]
  rw [Cursor.before_append, outcome_bind_of_ok (reads_parse.commaList_complete
    (fun _ => endsExpression_comma) h hn hends hcomma), outcome_bind_of_ok (symbol_before hu _)]
  rfl

theorem parseIndices_sound (h : parseIndices.outcome c = (.ok es, d)) :
    ∃ ts, c.Passes ts d ∧ Indices ts es := by
  rw [parseIndices, outcome_budget_bind, indexList, outcome_takeSymbol_bind] at h
  split at h
  · next hs =>
    obtain ⟨es, e, hl, h⟩ := outcome_bind_ok h
    obtain ⟨u, f, hu, h⟩ := outcome_bind_ok h
    obtain ⟨-, hk, hu⟩ := symbol_ok hu
    obtain ⟨ts, ht, hl⟩ := reads_parse.commaList_sound hl
    cases h
    have hopen := Cursor.Passes.advance (Cursor.atEnd_of_atSymbol hs)
    exact ⟨_, (hopen.trans ht).trans hu, .some (of_decide_eq_true hs) hl hk⟩
  · cases h
    exact ⟨[], .refl c, .none⟩

theorem Indices.parse (h : Indices ts es) (hd : d.current.kind ≠ .symbol .leftBracket) :
    parseIndices.outcome (.before ts d) = (.ok es, d) := by
  rw [parseIndices, outcome_budget_bind, indexList]
  cases h with
  | none =>
    rw [Cursor.before_nil, outcome_bind_of_ok (takeSymbol_not_here hd)]
    rfl
  | some ht hl hu =>
    rw [List.cons_append, outcome_bind_of_ok (takeSymbol_before ht), if_pos rfl]
    refine listed_complete hl hu (.inr rfl) ?_
    rw [Cursor.length_rest_before, List.length_cons, List.length_append]
    omega

theorem parseArguments_sound (h : parseArguments.outcome c = (.ok es, d)) :
    ∃ ts, c.Passes ts d ∧ Arguments ts es := by
  rw [parseArguments, outcome_budget_bind, argumentList] at h
  obtain ⟨t, e, ht, h⟩ := outcome_bind_ok h
  obtain ⟨-, hk, ht⟩ := symbol_ok ht
  rw [outcome_takeSymbol_bind] at h
  split at h
  · next hs =>
    cases h
    have hclose := Cursor.Passes.advance (Cursor.atEnd_of_atSymbol hs)
    exact ⟨_, ht.trans hclose, .none hk (of_decide_eq_true hs)⟩
  · obtain ⟨es, e, hl, h⟩ := outcome_bind_ok h
    obtain ⟨u, f, hu, h⟩ := outcome_bind_ok h
    obtain ⟨-, hku, hu⟩ := symbol_ok hu
    obtain ⟨us, hs, hl⟩ := reads_parse.commaList_sound hl
    cases h
    exact ⟨_, (ht.trans hs).trans hu, .some hk hl hku⟩

theorem operandStart?_of_parse {e : Expression} (h : Expression.parse.outcome c = (.ok e, d)) :
    c.current.operandStart? ≠ none := by
  intro hs
  rw [Expression.parse, outcome_budget_bind, located, outcome_location_bind] at h
  obtain ⟨es, f, h, _⟩ := outcome_bind_ok h
  rw [operand_succ, outcome_current_bind, hs] at h
  cases h

/-- Only an expression begins an expression; a closing parenthesis does not. -/
theorem Spelled.begins {ts : List Token} {e : Expression} (h : Spelled ts e) :
    ∃ t us, ts = t :: us ∧ t.kind ≠ .symbol .rightParen := by
  have hstart := operandStart?_of_parse h
  cases ts with
  | nil => exact absurd rfl hstart
  | cons t us =>
    refine ⟨t, us, rfl, fun hk => hstart ?_⟩
    simp [Token.operandStart?, Token.literal?, TokenKind.literal?, hk]

theorem Arguments.parse (h : Arguments ts es) :
    parseArguments.outcome (.before ts d) = (.ok es, d) := by
  rw [parseArguments, outcome_budget_bind, argumentList]
  cases h with
  | none ht hu =>
    rw [outcome_bind_of_ok (symbol_before ht _), outcome_bind_of_ok (takeSymbol_before hu)]
    rfl
  | some ht hl hu =>
    rw [List.cons_append, outcome_bind_of_ok (symbol_before ht _),
      outcome_bind_of_ok (takeSymbol_not_here ?_), if_neg Bool.false_ne_true]
    · refine listed_complete hl hu (.inl rfl) ?_
      rw [Cursor.length_rest_before, List.length_cons, List.length_append]
      omega
    · obtain ⟨t, us, rfl, hne⟩ := hl.begins Spelled.begins
      exact hne

theorem Arguments.begins (h : Arguments ts es) :
    ∃ t us, ts = t :: us ∧ t.kind = .symbol .leftParen := by
  cases h with
  | none ht => exact ⟨_, _, rfl, ht⟩
  | some ht => exact ⟨_, _, rfl, ht⟩

end Expression

namespace Access

theorem reads_parse : Access.parse.Reads (·.kind ≠ .symbol .leftBracket) Spelled where
  sound h := by
    obtain ⟨name, e, hw, h⟩ := outcome_bind_ok h
    obtain ⟨es, f, hi, h⟩ := outcome_bind_ok h
    obtain ⟨hk, hw⟩ := word_ok hw
    obtain ⟨ts, ht, hs⟩ := Expression.parseIndices_sound hi
    cases h
    exact ⟨_, hw.trans ht, .mk hk hs⟩
  complete h hd := by
    cases h with
    | mk hk hi =>
      rw [Access.parse, outcome_bind_of_ok (word_before hk), outcome_bind_of_ok (hi.parse hd)]
      rfl

end Access
end Seudocodigo
