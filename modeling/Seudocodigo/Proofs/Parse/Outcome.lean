import Seudocodigo.Parse

/-! Parsers step by step: what a parser does at a cursor when its first step is known. -/
namespace Seudocodigo

namespace Cursor

variable {c : Cursor}

theorem atEnd_eq_false {k : TokenKind} (h : c.current.kind = k) (hk : k ≠ .endOfFile) :
    c.atEnd = false := by
  simp [atEnd, h, hk]

theorem atEnd_of_atSymbol {s : Symbol} (h : c.atSymbol s = true) : c.atEnd = false :=
  atEnd_eq_false (of_decide_eq_true h) (by simp)

theorem atEnd_of_atKeyword {k : Keyword} (h : c.atKeyword k = true) : c.atEnd = false :=
  atEnd_eq_false (of_decide_eq_true h) (by simp)

end Cursor

namespace TokenKind

theorem ne_endOfFile_of_atom? {k : TokenKind} {a : Atom} (h : k.atom? = some a) :
    k ≠ .endOfFile := by
  intro hk
  rw [hk] at h
  cases h

end TokenKind

namespace Parse

variable {α β : Type}

theorem outcome_bind_congr {p q : Parse α} {f g : α → Parse β} {c d : Cursor}
    (h : p.outcome c = q.outcome d)
    (hf : ∀ a e, q.outcome d = (.ok a, e) → (f a).outcome e = (g a).outcome e) :
    (p >>= f).outcome c = (q >>= g).outcome d := by
  rw [outcome_bind, outcome_bind, h]
  cases hq : q.outcome d with
  | mk r e =>
    cases r with
    | error _ => rfl
    | ok a => exact hf a e hq

/-- What is read by two parsers in a row, the second reads where the first stopped. -/
theorem outcome_bind_ok {p : Parse α} {f : α → Parse β} {c d : Cursor} {b : β}
    (h : (p >>= f).outcome c = (.ok b, d)) :
    ∃ a e, p.outcome c = (.ok a, e) ∧ (f a).outcome e = (.ok b, d) := by
  rw [outcome_bind] at h
  cases hp : p.outcome c with
  | mk r e =>
    rw [hp] at h
    cases r with
    | error e => cases h
    | ok a => exact ⟨a, e, rfl, h⟩

theorem outcome_bind_of_ok {p : Parse α} {f : α → Parse β} {c d : Cursor} {a : α}
    (h : p.outcome c = (.ok a, d)) : (p >>= f).outcome c = (f a).outcome d := by
  rw [outcome_bind, h]

theorem outcome_bind_of_error {p : Parse α} {f : α → Parse β} {c : Cursor} {e : SyntaxError}
    (h : (p.outcome c).1 = .error e) : ((p >>= f).outcome c).1 = .error e := by
  rw [outcome_bind]
  cases hp : p.outcome c with
  | mk r d =>
    rw [hp] at h
    cases h
    rfl

variable (c : Cursor)

@[simp] theorem outcome_cursor_bind (f : Cursor → Parse β) :
    (cursor >>= f).outcome c = (f c).outcome c :=
  outcome_bind_of_ok rfl

@[simp] theorem outcome_current_bind (f : Token → Parse β) :
    (current >>= f).outcome c = (f c.current).outcome c :=
  outcome_bind_of_ok rfl

@[simp] theorem outcome_location_bind (f : Location → Parse β) :
    (location >>= f).outcome c = (f c.location).outcome c :=
  outcome_bind_of_ok rfl

@[simp] theorem outcome_budget_bind (f : Nat → Parse β) :
    (budget >>= f).outcome c = (f (c.rest.length + 1)).outcome c :=
  outcome_bind_of_ok rfl

@[simp] theorem outcome_advance_bind (f : Token → Parse β) :
    (advance >>= f).outcome c = (f c.current).outcome c.advance :=
  outcome_bind_of_ok rfl

@[simp] theorem outcome_skipLineEnds_bind (f : Unit → Parse β) :
    (skipLineEnds >>= f).outcome c = (f ()).outcome c.skipLineEnds :=
  outcome_bind_of_ok rfl

@[simp] theorem outcome_atSymbol_bind (s : Symbol) (f : Bool → Parse β) :
    (atSymbol s >>= f).outcome c = (f (c.atSymbol s)).outcome c :=
  outcome_bind_of_ok rfl

@[simp] theorem outcome_atKeyword_bind (k : Keyword) (f : Bool → Parse β) :
    (atKeyword k >>= f).outcome c = (f (c.atKeyword k)).outcome c :=
  outcome_bind_of_ok rfl

theorem outcome_takeSymbol_bind (s : Symbol) (f : Bool → Parse β) :
    (takeSymbol s >>= f).outcome c =
      if c.atSymbol s then (f true).outcome c.advance else (f false).outcome c := by
  rw [outcome_bind, outcome_takeSymbol]
  cases c.atSymbol s <;> rfl

theorem outcome_takeKeyword_bind (k : Keyword) (f : Bool → Parse β) :
    (takeKeyword k >>= f).outcome c =
      if c.atKeyword k then (f true).outcome c.advance else (f false).outcome c := by
  rw [outcome_bind, outcome_takeKeyword]
  cases c.atKeyword k <;> rfl

theorem outcome_symbol (s : Symbol) (reason : Option SyntaxReason) :
    (symbol s reason).outcome c =
      if c.atSymbol s then (.ok c.current, c.advance)
      else (.error (.ofToken c.current [s.text] reason), c) := by
  rw [symbol, outcome_atSymbol_bind]
  cases c.atSymbol s <;> rfl

theorem outcome_symbol_bind (s : Symbol) (reason : Option SyntaxReason) (f : Token → Parse β) :
    (symbol s reason >>= f).outcome c =
      if c.atSymbol s then (f c.current).outcome c.advance
      else (.error (.ofToken c.current [s.text] reason), c) := by
  rw [outcome_bind, outcome_symbol]
  cases c.atSymbol s <;> rfl

theorem outcome_keyword (k : Keyword) (reason : Option SyntaxReason) :
    (keyword k reason).outcome c =
      if c.atKeyword k then (.ok c.current, c.advance)
      else (.error (.ofToken c.current [k.text] reason), c) := by
  rw [keyword, outcome_atKeyword_bind]
  cases c.atKeyword k <;> rfl

end Parse
end Seudocodigo
