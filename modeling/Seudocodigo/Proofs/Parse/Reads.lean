import Seudocodigo.Proofs.Parse.Local

/-! Parsers and the lists of tokens that they read. -/
namespace Seudocodigo

structure LineEnds (ts : List Token) : Prop where
  ne_nil : ts ≠ []
  kind : ∀ t ∈ ts, t.kind = .endOfLine

inductive Listed {α : Type} (N : List Token → α → Prop) : List Token → List α → Prop where
  | one {ts : List Token} {a : α} : N ts a → Listed N ts [a]
  | more {ts us : List Token} {t : Token} {a : α} {as : List α} :
    N ts a → t.kind = .symbol .comma → Listed N us as → Listed N (ts ++ t :: us) (a :: as)

theorem Listed.begins {α : Type} {N : List Token → α → Prop} {P : Token → Prop}
    (hN : ∀ {ts a}, N ts a → ∃ t us, ts = t :: us ∧ P t) {ts : List Token} {as : List α}
    (h : Listed N ts as) : ∃ t us, ts = t :: us ∧ P t := by
  cases h with
  | one ha => exact hN ha
  | more ha _ _ =>
    obtain ⟨t, us, rfl, ht⟩ := hN ha
    exact ⟨t, _, rfl, ht⟩

namespace Cursor

variable {c d : Cursor} {ts : List Token}

theorem Passes.eq_of_atEnd (h : c.Passes ts d) (hc : c.atEnd = true) : d = c := by
  have hend : c.current.kind = .endOfFile := of_decide_eq_true hc
  cases ts with
  | nil => exact (tokens_injective h.1).symm
  | cons t ts =>
    have ht : c.current = t := (List.cons.inj h.1).1
    exact absurd (ht ▸ hend) (h.2 t (by simp))

theorem skipLineEnds_of_kind (h : c.current.kind ≠ .endOfLine) : c.skipLineEnds = c := by
  obtain ⟨t, ts, hs⟩ := c
  cases ts with
  | nil => rfl
  | cons u us => exact if_neg h

theorem skipLineEnds_before (h : ∀ t ∈ ts, t.kind = .endOfLine) (d : Cursor) :
    (before ts d).skipLineEnds = d.skipLineEnds := by
  induction ts with
  | nil => rfl
  | cons t ts ih =>
    have ht : t.kind = .endOfLine := h t (by simp)
    rw [← ih fun u hu => h u (by simp [hu])]
    exact if_pos ht

end Cursor

namespace Parse

variable {α : Type} {c d : Cursor}

theorem symbol_ok {s : Symbol} {reason : Option SyntaxReason} {t : Token}
    (h : (symbol s reason).outcome c = (.ok t, d)) :
    t = c.current ∧ t.kind = .symbol s ∧ c.Passes [t] d := by
  rw [outcome_symbol] at h
  split at h
  · next hs => cases h; exact ⟨rfl, of_decide_eq_true hs, .advance (Cursor.atEnd_of_atSymbol hs)⟩
  · cases h

theorem keyword_ok {k : Keyword} {reason : Option SyntaxReason} {t : Token}
    (h : (keyword k reason).outcome c = (.ok t, d)) :
    t = c.current ∧ t.kind = .keyword k ∧ c.Passes [t] d := by
  rw [outcome_keyword] at h
  split at h
  · next hk => cases h; exact ⟨rfl, of_decide_eq_true hk, .advance (Cursor.atEnd_of_atKeyword hk)⟩
  · cases h

theorem outcome_word : word.outcome c =
    match c.current.kind with
    | .word name => (.ok name, c.advance)
    | _ => (.error (.ofToken c.current ["word"] none), c) := by
  rw [word, outcome_current_bind]
  cases c.current.kind <;> rfl

theorem word_ok {name : String} (h : word.outcome c = (.ok name, d)) :
    c.current.kind = .word name ∧ c.Passes [c.current] d := by
  rw [outcome_word] at h
  split at h
  · next hw => cases h; exact ⟨hw, .advance (Cursor.atEnd_eq_false hw (by simp))⟩
  · cases h

theorem outcome_atom : atom.outcome c =
    match c.current.kind.atom? with
    | some a => (.ok a, c.advance)
    | none =>
      (.error (.ofToken c.current ["entero", "real", "logico", "caracter"] none), c) := by
  rw [atom, outcome_current_bind]
  cases c.current.kind.atom? <;> rfl

theorem atom_ok {a : Atom} (h : atom.outcome c = (.ok a, d)) :
    c.current.kind.atom? = some a ∧ c.Passes [c.current] d := by
  rw [outcome_atom] at h
  split at h
  · next ha =>
    cases h
    exact ⟨ha, .advance (Cursor.atEnd_eq_false rfl (TokenKind.ne_endOfFile_of_atom? ha))⟩
  · cases h

/-- Behind the end of a line stands none, and the end of the file counts as the end of a line. -/
theorem lineEnd_ok {u : Unit} (h : lineEnd.outcome c = (.ok u, d)) :
    d.current.kind ≠ .endOfLine ∧
      ∃ ts, c.Passes ts d ∧ (LineEnds ts ∨ ts = [] ∧ d.atEnd = true) := by
  rw [lineEnd, outcome_cursor_bind] at h
  split at h
  · next hc =>
    cases h
    have hend : c.current.kind = .endOfFile := of_decide_eq_true hc
    exact ⟨by rw [hend]; simp, [], .refl c, .inr ⟨rfl, hc⟩⟩
  · next hc =>
    split at h
    · next hl =>
      cases h
      obtain ⟨ts, ht, hk⟩ := c.passes_skipLineEnds
      have hcur := c.skipLineEnds_current
      refine ⟨hcur, ts, ht, .inl ⟨fun hnil => ?_, hk⟩⟩
      rw [hnil] at ht
      rw [show c.skipLineEnds = c from ht.eq_before.symm] at hcur
      simp only [Cursor.atLineEnd, Cursor.atEnd, Bool.or_eq_true, decide_eq_true_eq] at hl hc
      exact hl.elim hcur hc
    · cases h

section Before

variable {t : Token} {ts : List Token}

theorem symbol_before {s : Symbol} (h : t.kind = .symbol s) (reason : Option SyntaxReason) :
    (symbol s reason).outcome (.before (t :: ts) d) = (.ok t, .before ts d) := by
  have hs : (Cursor.before (t :: ts) d).atSymbol s = true := decide_eq_true h
  rw [outcome_symbol, if_pos hs, Cursor.advance_before_cons (by simp [h])]
  rfl

theorem keyword_before {k : Keyword} (h : t.kind = .keyword k) (reason : Option SyntaxReason) :
    (keyword k reason).outcome (.before (t :: ts) d) = (.ok t, .before ts d) := by
  have hk : (Cursor.before (t :: ts) d).atKeyword k = true := decide_eq_true h
  rw [outcome_keyword, if_pos hk, Cursor.advance_before_cons (by simp [h])]
  rfl

theorem word_before {name : String} (h : t.kind = .word name) :
    word.outcome (.before (t :: ts) d) = (.ok name, .before ts d) := by
  rw [outcome_word, Cursor.current_before_cons, h, Cursor.advance_before_cons (by simp [h])]

theorem atom_before {a : Atom} (h : t.kind.atom? = some a) :
    atom.outcome (.before (t :: ts) d) = (.ok a, .before ts d) := by
  rw [outcome_atom, Cursor.current_before_cons, h,
    Cursor.advance_before_cons (TokenKind.ne_endOfFile_of_atom? h)]

theorem advance_before (h : t.kind ≠ .endOfFile) :
    advance.outcome (.before (t :: ts) d) = (.ok t, .before ts d) := by
  rw [outcome_advance, Cursor.advance_before_cons h]
  rfl

theorem takeSymbol_before {s : Symbol} (h : t.kind = .symbol s) :
    (takeSymbol s).outcome (.before (t :: ts) d) = (.ok true, .before ts d) := by
  have hs : (Cursor.before (t :: ts) d).atSymbol s = true := decide_eq_true h
  rw [outcome_takeSymbol, hs, if_pos rfl, Cursor.advance_before_cons (by simp [h])]

theorem takeKeyword_before {k : Keyword} (h : t.kind = .keyword k) :
    (takeKeyword k).outcome (.before (t :: ts) d) = (.ok true, .before ts d) := by
  have hk : (Cursor.before (t :: ts) d).atKeyword k = true := decide_eq_true h
  rw [outcome_takeKeyword, hk, if_pos rfl, Cursor.advance_before_cons (by simp [h])]

theorem takeSymbol_not_here {s : Symbol} (h : c.current.kind ≠ .symbol s) :
    (takeSymbol s).outcome c = (.ok false, c) := by
  have hs : c.atSymbol s = false := decide_eq_false h
  rw [outcome_takeSymbol, hs]
  rfl

theorem takeKeyword_not_here {k : Keyword} (h : c.current.kind ≠ .keyword k) :
    (takeKeyword k).outcome c = (.ok false, c) := by
  have hk : c.atKeyword k = false := decide_eq_false h
  rw [outcome_takeKeyword, hk]
  rfl

theorem lineEnd_before (h : LineEnds ts) (hd : d.current.kind ≠ .endOfLine) :
    lineEnd.outcome (.before ts d) = (.ok (), d) := by
  have hskip := Cursor.skipLineEnds_before h.kind d
  rw [Cursor.skipLineEnds_of_kind hd] at hskip
  cases ts with
  | nil => exact absurd rfl h.ne_nil
  | cons t ts =>
    have ht : t.kind = .endOfLine := h.kind t (by simp)
    simp [lineEnd, Cursor.atEnd, Cursor.atLineEnd, ht, hskip]

end Before

/-- What the parser reads is what `N` relates to the tokens that it passes, and it reads all that
`N` relates to tokens before one of the class `F`. -/
structure Reads (p : Parse α) (F : Token → Prop) (N : List Token → α → Prop) : Prop where
  sound : ∀ {c a d}, p.outcome c = (.ok a, d) → ∃ ts, c.Passes ts d ∧ N ts a
  complete : ∀ {ts a d}, N ts a → F d.current → p.outcome (.before ts d) = (.ok a, d)

namespace Reads

variable {p : Parse α} {F : Token → Prop} {N : List Token → α → Prop}

theorem commaList_sound (h : p.Reads F N) {n : Nat} {as : List α}
    (hp : (commaList p n).outcome c = (.ok as, d)) :
    ∃ ts, c.Passes ts d ∧ Listed N ts as := by
  induction n generalizing c d as with
  | zero => cases hp
  | succ n ih =>
    obtain ⟨a, e, ha, hp⟩ := outcome_bind_ok hp
    obtain ⟨ts, ht, hn⟩ := h.sound ha
    rw [outcome_takeSymbol_bind] at hp
    split at hp
    · next hs =>
      obtain ⟨bs, f, hb, hp⟩ := outcome_bind_ok hp
      obtain ⟨us, hu, hl⟩ := ih hb
      cases hp
      have hcomma := Cursor.Passes.advance (Cursor.atEnd_of_atSymbol hs)
      exact ⟨_, ht.trans (hcomma.trans hu), .more hn (of_decide_eq_true hs) hl⟩
    · cases hp
      exact ⟨ts, ht, .one hn⟩

theorem commaList_complete (h : p.Reads F N) (hcomma : ∀ t : Token, t.kind = .symbol .comma → F t)
    {n : Nat} {ts : List Token} {as : List α} (hl : Listed N ts as) (hn : ts.length < n)
    (hd : F d.current) (hstop : d.current.kind ≠ .symbol .comma) :
    (commaList p n).outcome (.before ts d) = (.ok as, d) := by
  induction hl generalizing n with
  | one ha =>
    cases n with
    | zero => omega
    | succ n =>
      rw [commaList, outcome_bind_of_ok (h.complete ha hd),
        outcome_bind_of_ok (takeSymbol_not_here hstop)]
      rfl
  | more ha ht _ ih =>
    cases n with
    | zero => omega
    | succ n =>
      simp only [List.length_append, List.length_cons] at hn
      rw [commaList, Cursor.before_append, outcome_bind_of_ok (h.complete ha (hcomma _ ht)),
        outcome_bind_of_ok (takeSymbol_before ht), if_pos rfl,
        outcome_bind_of_ok (ih (by omega))]
      rfl

end Reads
end Parse
end Seudocodigo
