import Seudocodigo.Proofs.Parse.Forward

/-! What a parser reads depends on the tokens that it passes and, as far as a class of tokens goes,
not on the token before which it stops. -/
namespace Seudocodigo

namespace Cursor

/-- The cursor from which the given tokens lead to another one. -/
def before : List Token → Cursor → Cursor
  | [], d => d
  | t :: ts, d => ⟨t, (before ts d).current :: (before ts d).rest, (before ts d).isSealed⟩

@[simp] theorem before_nil (d : Cursor) : before [] d = d := rfl

@[simp] theorem tokens_before (ts : List Token) (d : Cursor) :
    (before ts d).tokens = ts ++ d.tokens := by
  induction ts with
  | nil => rfl
  | cons t ts ih => exact congrArg (t :: ·) ih

@[simp] theorem before_append (ts us : List Token) (d : Cursor) :
    before (ts ++ us) d = before ts (before us d) := by
  apply tokens_injective
  simp only [tokens_before, List.append_assoc]

@[simp] theorem current_before_cons (t : Token) (ts : List Token) (d : Cursor) :
    (before (t :: ts) d).current = t := rfl

@[simp] theorem location_before_cons (t : Token) (ts : List Token) (d : Cursor) :
    (before (t :: ts) d).location = t.location := rfl

theorem peek_before_cons (t : Token) (ts : List Token) (d : Cursor) :
    (before (t :: ts) d).peek 1 = (before ts d).current := rfl

theorem advance_before_cons {t : Token} (h : t.kind ≠ .endOfFile) (ts : List Token) (d : Cursor) :
    (before (t :: ts) d).advance = before ts d := by
  apply tokens_injective
  have hend : (before (t :: ts) d).atEnd = false := atEnd_eq_false rfl h
  exact (List.cons.inj (tokens_advance hend)).2.symm

theorem length_rest_before (ts : List Token) (d : Cursor) :
    (before ts d).rest.length = ts.length + d.rest.length := by
  have h := congrArg List.length (tokens_before ts d)
  simp only [length_tokens, List.length_append] at h
  omega

theorem Passes.eq_before {c d : Cursor} {ts : List Token} (h : c.Passes ts d) :
    c = before ts d :=
  tokens_injective (h.1.trans (tokens_before ts d).symm)

end Cursor

namespace Parse

variable {α β : Type} {F : Token → Prop}

def Passing (p : Parse α) : Prop :=
  ∀ ⦃c a d⦄, p.outcome c = (.ok a, d) → d.rest.length < c.rest.length

namespace Passing

theorem passes_cons {p : Parse α} (h : p.Passing) {c d : Cursor} {a : α} {ts : List Token}
    (hp : p.outcome c = (.ok a, d)) (ht : c.Passes ts d) : ∃ u us, ts = u :: us := by
  have hlt := h hp
  have hlen := ht.length
  cases ts with
  | nil => simp only [List.length_nil] at hlen; omega
  | cons u us => exact ⟨u, us, rfl⟩

theorem bind {p : Parse α} {f : α → Parse β} (h : p.Passing) (hf : ∀ a, (f a).Forward) :
    (p >>= f).Passing := by
  intro c b d hb
  obtain ⟨a, e, hp, hb⟩ := outcome_bind_ok hb
  exact Nat.lt_of_le_of_lt ((hf a).length_le hb) (h hp)

theorem bind_right {p : Parse α} {f : α → Parse β} (h : p.Forward) (hf : ∀ a, (f a).Passing) :
    (p >>= f).Passing := by
  intro c b d hb
  obtain ⟨a, e, hp, hb⟩ := outcome_bind_ok hb
  exact Nat.lt_of_lt_of_le (hf a hb) (h.length_le hp)

theorem symbol (s : Symbol) (reason : Option SyntaxReason) :
    (Parse.symbol s reason).Passing := by
  intro c t d h
  rw [outcome_symbol] at h
  split at h
  · next hs =>
    have hl := Cursor.length_rest_advance (Cursor.atEnd_of_atSymbol hs)
    cases h
    omega
  · cases h

end Passing

/-- From here the parser reads the same before any other token of the class, or the same token. -/
def LocalAt (F : Token → Prop) (p : Parse α) (c : Cursor) : Prop :=
  ∀ a d, p.outcome c = (.ok a, d) → ∃ ts, c.Passes ts d ∧
    ∀ e : Cursor, e.current = d.current ∨ F e.current → p.outcome (.before ts e) = (.ok a, e)

def IsLocal (F : Token → Prop) (p : Parse α) : Prop := ∀ c, LocalAt F p c

namespace IsLocal

theorem of_fails {p : Parse α} {c : Cursor} (h : ∀ a d, p.outcome c ≠ (.ok a, d)) :
    LocalAt F p c := fun a d hp => absurd hp (h a d)

theorem fail (expected : List String) (reason : Option SyntaxReason) :
    IsLocal F (Parse.fail expected reason : Parse α) :=
  fun _ => of_fails fun _ _ h => by cases h

theorem pure (a : α) : IsLocal F (Pure.pure a : Parse α) := by
  intro c b d h
  cases h
  exact ⟨[], .refl c, fun _ _ => rfl⟩

theorem mono {G : Token → Prop} {p : Parse α} (h : IsLocal F p) (hG : ∀ t, G t → F t) :
    IsLocal G p := by
  intro c a d hp
  obtain ⟨ts, ht, hr⟩ := h c a d hp
  exact ⟨ts, ht, fun e he => hr e (he.imp_right (hG _))⟩

theorem bindAt {p : Parse α} {f : α → Parse β} {c : Cursor} (h : LocalAt F p c)
    (hf : ∀ a, IsLocal F (f a)) : LocalAt F (p >>= f) c := by
  intro b d hb
  obtain ⟨a, e, hp, hb⟩ := outcome_bind_ok hb
  obtain ⟨ts, ht, hr⟩ := h a e hp
  obtain ⟨us, hu, hs⟩ := hf a e b d hb
  refine ⟨ts ++ us, ht.trans hu, fun x hx => ?_⟩
  have hjoin : (Cursor.before us x).current = e.current ∨ F (Cursor.before us x).current := by
    cases us with
    | nil => rw [hu.eq_before]; exact hx
    | cons u us => rw [hu.eq_before]; exact .inl rfl
  rw [Cursor.before_append, outcome_bind_of_ok (hr _ hjoin)]
  exact hs x hx

theorem bind {p : Parse α} {f : α → Parse β} (h : IsLocal F p) (hf : ∀ a, IsLocal F (f a)) :
    IsLocal F (p >>= f) := fun c => bindAt (h c) hf

/-- What always passes a token hides from what is read before it how the text goes on. -/
theorem bind_of_passes {G : Token → Prop} {p : Parse α} {f : α → Parse β} (h : IsLocal G p)
    (hf : ∀ a, IsLocal F (f a)) (hpass : ∀ a, (f a).Passing) : IsLocal F (p >>= f) := by
  intro c b d hb
  obtain ⟨a, e, hp, hb⟩ := outcome_bind_ok hb
  obtain ⟨ts, ht, hr⟩ := h c a e hp
  obtain ⟨us, hu, hs⟩ := hf a e b d hb
  refine ⟨ts ++ us, ht.trans hu, fun x hx => ?_⟩
  obtain ⟨u, us, rfl⟩ := (hpass a).passes_cons hb hu
  have hjoin : (Cursor.before (u :: us) x).current = e.current := by rw [hu.eq_before]; rfl
  rw [Cursor.before_append, outcome_bind_of_ok (hr _ (.inl hjoin))]
  exact hs x hx

/-- Where the first token is passed whatever it is, the rest decides. -/
theorem step {p q : Parse α} {c : Cursor} (hc : c.atEnd = false)
    (hp : ∀ c' : Cursor, c'.current = c.current → p.outcome c' = q.outcome c'.advance)
    (hq : LocalAt F q c.advance) : LocalAt F p c := by
  intro a d h
  rw [hp c rfl] at h
  obtain ⟨ts, ht, hr⟩ := hq a d h
  refine ⟨c.current :: ts, (Cursor.Passes.advance hc).trans ht, fun e he => ?_⟩
  rw [hp (.before (c.current :: ts) e) rfl, Cursor.advance_before_cons (of_decide_eq_false hc)]
  exact hr e he

theorem takeSymbol {s : Symbol} (h : ∀ t, F t → t.kind ≠ .symbol s) :
    IsLocal F (Parse.takeSymbol s) := by
  intro c
  cases hs : c.atSymbol s with
  | true =>
    refine step (q := Pure.pure true) (Cursor.atEnd_of_atSymbol hs) (fun c' hc' => ?_) (pure _ _)
    have hs' : c'.atSymbol s = true := by rw [Cursor.atSymbol, hc']; exact hs
    rw [outcome_takeSymbol, hs']
    rfl
  | false =>
    intro b d hb
    rw [outcome_takeSymbol, hs] at hb
    cases hb
    refine ⟨[], .refl c, fun e he => ?_⟩
    have hs' : e.atSymbol s = false := by
      cases he with
      | inl he => rw [Cursor.atSymbol, he]; exact hs
      | inr he => exact decide_eq_false (h _ he)
    rw [Cursor.before_nil, outcome_takeSymbol, hs']
    rfl

theorem symbol (s : Symbol) (reason : Option SyntaxReason) :
    IsLocal F (Parse.symbol s reason) := by
  intro c
  cases hs : c.atSymbol s with
  | true =>
    refine step (q := Pure.pure c.current) (Cursor.atEnd_of_atSymbol hs) (fun c' hc' => ?_)
      (pure _ _)
    have hs' : c'.atSymbol s = true := by rw [Cursor.atSymbol, hc']; exact hs
    rw [outcome_symbol, hs', hc']
    rfl
  | false =>
    refine of_fails fun a d h => ?_
    rw [outcome_symbol, hs] at h
    cases h

/-- Where the first token decides which parser to follow, that one decides. -/
theorem of_current {p q : Parse α} {c : Cursor}
    (hp : ∀ c' : Cursor, c'.current = c.current → p.outcome c' = q.outcome c')
    (hq : LocalAt F q c) (hpass : q.Passing) : LocalAt F p c := by
  intro a d h
  rw [hp c rfl] at h
  obtain ⟨ts, ht, hr⟩ := hq a d h
  refine ⟨ts, ht, fun e he => ?_⟩
  obtain ⟨u, us, rfl⟩ := hpass.passes_cons h ht
  rw [hp (.before (u :: us) e) (by rw [ht.eq_before]; rfl)]
  exact hr e he

theorem atSymbol_bind {s : Symbol} {f : Bool → Parse α} (hF : ∀ t, F t → t.kind ≠ .symbol s)
    (ht : IsLocal F (f true)) (hpass : (f true).Passing) (hf : IsLocal F (f false)) :
    IsLocal F (Parse.atSymbol s >>= f) := by
  intro c
  cases hs : c.atSymbol s with
  | true =>
    refine of_current (fun c' hc' => ?_) (ht c) hpass
    have hs' : c'.atSymbol s = true := by rw [Cursor.atSymbol, hc']; exact hs
    rw [outcome_atSymbol_bind, hs']
  | false =>
    intro a d h
    rw [outcome_atSymbol_bind, hs] at h
    obtain ⟨ts, hp, hr⟩ := hf c a d h
    refine ⟨ts, hp, fun e he => ?_⟩
    have hs' : (Cursor.before ts e).atSymbol s = false := by
      cases ts with
      | nil =>
        cases he with
        | inl he => rw [Cursor.atSymbol, Cursor.before_nil, he, ← hs, hp.eq_before]; rfl
        | inr he => exact decide_eq_false (hF _ he)
      | cons t ts => rw [← hs, hp.eq_before]; rfl
    rw [outcome_atSymbol_bind, hs']
    exact hr e he

theorem takeSymbol_bind {s : Symbol} {f : Bool → Parse α} (ht : IsLocal F (f true))
    (hf : IsLocal F (f false)) (hpass : (f false).Passing) :
    IsLocal F (Parse.takeSymbol s >>= f) := by
  intro c
  cases hs : c.atSymbol s with
  | true =>
    refine step (Cursor.atEnd_of_atSymbol hs) (fun c' hc' => ?_) (ht _)
    have hs' : c'.atSymbol s = true := by rw [Cursor.atSymbol, hc']; exact hs
    rw [outcome_takeSymbol_bind, hs', if_pos rfl]
  | false =>
    refine of_current (fun c' hc' => ?_) (hf c) hpass
    have hs' : c'.atSymbol s = false := by rw [Cursor.atSymbol, hc']; exact hs
    rw [outcome_takeSymbol_bind, hs', if_neg Bool.false_ne_true]

theorem current_bind {f : Token → Parse α} {c : Cursor} (h : LocalAt F (f c.current) c)
    (hpass : (current >>= f).Passing) : LocalAt F (current >>= f) c := by
  intro a d hp
  rw [outcome_current_bind] at hp
  obtain ⟨ts, ht, hr⟩ := h a d hp
  refine ⟨ts, ht, fun e he => ?_⟩
  obtain ⟨u, us, rfl⟩ := hpass.passes_cons (by rwa [outcome_current_bind]) ht
  have hu : (Cursor.before (u :: us) e).current = c.current := by rw [ht.eq_before]; rfl
  rw [outcome_current_bind, hu]
  exact hr e he

theorem advance_bind {f : Token → Parse α} {c : Cursor} (hc : c.atEnd = false)
    (h : LocalAt F (f c.current) c.advance) : LocalAt F (advance >>= f) c :=
  step hc (fun c' hc' => by rw [outcome_advance_bind, hc']) h

/-- Items with commas between them end before any token of the class that is no comma. -/
theorem commaList {item : Parse α} (h : IsLocal F item) (n : Nat) :
    IsLocal (fun t => F t ∧ t.kind ≠ .symbol .comma) (Parse.commaList item n) := by
  induction n with
  | zero => exact fail _ _
  | succ n ih =>
    refine (h.mono fun _ ht => ht.1).bind fun x => (takeSymbol fun _ ht => ht.2).bind fun b => ?_
    cases b with
    | true => exact ih.bind fun _ => pure _
    | false => exact pure _

end IsLocal
end Parse
end Seudocodigo
