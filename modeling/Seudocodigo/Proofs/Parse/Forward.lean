import Seudocodigo.Proofs.Parse.Outcome

/-! Where parsers stop: they only move forward, and never over an end of file. -/
namespace Seudocodigo

namespace Cursor

def tokens (c : Cursor) : List Token := c.current :: c.rest

theorem tokens_injective {c d : Cursor} (h : c.tokens = d.tokens) : c = d := by
  obtain ⟨hc, hr⟩ := List.cons.inj h
  exact Cursor.ext hc hr

theorem length_tokens (c : Cursor) : c.tokens.length = c.rest.length + 1 := rfl

theorem tokens_advance {c : Cursor} (h : c.atEnd = false) :
    c.tokens = c.current :: c.advance.tokens := by
  obtain ⟨t, ts, hs⟩ := c
  have ht : t.kind ≠ .endOfFile := of_decide_eq_false h
  cases ts with
  | nil => exact absurd hs ht
  | cons u us => simp [tokens, advance, ht]

/-- From one cursor to another over the given tokens, none of which ends the file. -/
def Passes (c : Cursor) (ts : List Token) (d : Cursor) : Prop :=
  c.tokens = ts ++ d.tokens ∧ ∀ t ∈ ts, t.kind ≠ .endOfFile

namespace Passes

variable {c d e : Cursor} {ts us : List Token}

theorem refl (c : Cursor) : c.Passes [] c := ⟨rfl, by simp⟩

theorem trans (h : c.Passes ts d) (k : d.Passes us e) : c.Passes (ts ++ us) e := by
  refine ⟨by rw [h.1, k.1, List.append_assoc], ?_⟩
  intro t ht
  cases List.mem_append.1 ht with
  | inl ht => exact h.2 t ht
  | inr ht => exact k.2 t ht

theorem advance (h : c.atEnd = false) : c.Passes [c.current] c.advance := by
  refine ⟨tokens_advance h, ?_⟩
  intro t ht
  rw [List.mem_singleton.1 ht]
  exact of_decide_eq_false h

theorem length (h : c.Passes ts d) : c.rest.length = ts.length + d.rest.length := by
  have hl := congrArg List.length h.1
  simp only [List.length_append, length_tokens] at hl
  omega

end Passes

theorem passes_skipLineEnds (c : Cursor) :
    ∃ ts, c.Passes ts c.skipLineEnds ∧ ∀ t ∈ ts, t.kind = .endOfLine := by
  obtain ⟨t, ts, h⟩ := c
  induction ts generalizing t with
  | nil => exact ⟨[], .refl _, by simp⟩
  | cons u us ih =>
    simp only [skipLineEnds, skipLineEnds.skip]
    split
    · next ht =>
      obtain ⟨vs, hv, hl⟩ := ih u h
      refine ⟨t :: vs, ⟨congrArg (t :: ·) hv.1, ?_⟩, ?_⟩
      · intro v hm
        cases List.mem_cons.1 hm with
        | inl he => rw [he, ht]; simp
        | inr hm => exact hv.2 v hm
      · intro v hm
        cases List.mem_cons.1 hm with
        | inl he => rw [he, ht]
        | inr hm => exact hl v hm
    · exact ⟨[], .refl _, by simp⟩

end Cursor

namespace Parse

variable {α β : Type}

def Forward (p : Parse α) : Prop :=
  ∀ c : Cursor, ∃ ts, c.Passes ts (p.outcome c).2

namespace Forward

theorem length_le {p : Parse α} (h : p.Forward) {c d : Cursor} {r : Except SyntaxError α}
    (hp : p.outcome c = (r, d)) : d.rest.length ≤ c.rest.length := by
  obtain ⟨ts, ht⟩ := h c
  rw [hp] at ht
  have hl : c.rest.length = ts.length + d.rest.length := ht.length
  omega

theorem of_stays {p : Parse α} (h : ∀ c, (p.outcome c).2 = c) : p.Forward :=
  fun c => ⟨[], by rw [h c]; exact .refl c⟩

theorem pure (a : α) : (Pure.pure a : Parse α).Forward := of_stays fun _ => rfl

theorem fail (expected : List String) (reason : Option SyntaxReason) :
    (Parse.fail expected reason : Parse α).Forward := of_stays fun _ => rfl

theorem bind {p : Parse α} {f : α → Parse β} (h : p.Forward) (hf : ∀ a, (f a).Forward) :
    (p >>= f).Forward := by
  intro c
  obtain ⟨ts, ht⟩ := h c
  rw [outcome_bind]
  cases hp : p.outcome c with
  | mk r d =>
    rw [hp] at ht
    cases r with
    | error e => exact ⟨ts, ht⟩
    | ok a =>
      obtain ⟨us, hu⟩ := hf a d
      exact ⟨ts ++ us, ht.trans hu⟩

theorem current : Parse.current.Forward := of_stays fun _ => rfl

theorem location : Parse.location.Forward := of_stays fun _ => rfl

theorem budget : Parse.budget.Forward := of_stays fun _ => rfl

theorem atSymbol (s : Symbol) : (Parse.atSymbol s).Forward := of_stays fun _ => rfl

theorem advance : Parse.advance.Forward := by
  intro c
  rw [outcome_advance]
  cases h : c.atEnd with
  | true => exact ⟨[], by rw [Cursor.advance_of_atEnd h]; exact .refl c⟩
  | false => exact ⟨_, .advance h⟩

theorem ite {p q : Parse α} {P : Prop} [Decidable P] (hp : p.Forward) (hq : q.Forward) :
    (if P then p else q).Forward := by
  split
  · exact hp
  · exact hq

theorem takeSymbol (s : Symbol) : (Parse.takeSymbol s).Forward :=
  (atSymbol s).bind fun _ => ite (advance.bind fun _ => pure _) (pure _)

theorem symbol (s : Symbol) (reason : Option SyntaxReason) :
    (Parse.symbol s reason).Forward :=
  (atSymbol s).bind fun _ => ite advance (fail _ _)

theorem commaList {item : Parse α} (h : item.Forward) (n : Nat) :
    (Parse.commaList item n).Forward := by
  induction n with
  | zero => exact fail _ _
  | succ n ih =>
    exact h.bind fun _ => (takeSymbol _).bind fun _ => ite (ih.bind fun _ => pure _) (pure _)

end Forward
end Parse
end Seudocodigo
