import Seudocodigo.Proofs.Parse.Reads

/-! Which token a parser blames when it fails, and what is known of the tokens before that one. The
rules follow the steps of a parser. -/
namespace Seudocodigo

/-- The tokens begin something that `N` relates tokens to. -/
def Begins {α : Type} (N : List Token → α → Prop) (ts : List Token) : Prop :=
  ∃ us a, N (ts ++ us) a

def Token.ofKind (k : TokenKind) : Token := ⟨k, "", .start⟩

theorem lineEnds_ofKind : LineEnds [.ofKind .endOfLine] := ⟨by simp, by simp [Token.ofKind]⟩

namespace Begins

variable {α β : Type} {N : List Token → α → Prop} {M : List Token → β → Prop} {ts us : List Token}
  {a : α}

theorem of (h : N ts a) : Begins N ts := ⟨[], a, by rwa [List.append_nil]⟩

theorem of_append (us : List Token) (h : Begins N (ts ++ us)) : Begins N ts := by
  obtain ⟨vs, a, ha⟩ := h
  exact ⟨us ++ vs, a, by rwa [← List.append_assoc]⟩

theorem nil (h : Begins N ts) : Begins N [] := of_append ts h

/-- What begins a part begins the whole behind what stands before the part. -/
theorem within (before : List Token) (h : Begins N ts)
    (hM : ∀ {us a}, N us a → Begins M (before ++ us)) : Begins M (before ++ ts) := by
  obtain ⟨us, a, ha⟩ := h
  refine of_append us ?_
  rw [List.append_assoc]
  exact hM ha

theorem listed (h : Begins N ts) : Begins (Listed N) ts := by
  obtain ⟨us, a, ha⟩ := h
  exact ⟨us, [a], .one ha⟩

theorem listed_more {t : Token} (ha : N ts a) (ht : t.kind = .symbol .comma)
    (h : Begins (Listed N) us) : Begins (Listed N) (ts ++ t :: us) := by
  obtain ⟨vs, as, has⟩ := h
  refine ⟨vs, a :: as, ?_⟩
  rw [List.append_assoc, List.cons_append]
  exact .more ha ht has

end Begins

namespace Parse

variable {α β : Type}

/-- Where the parser fails, it blames the token before which it stops, and of the tokens that it has
passed `V` holds. -/
def Blames (V : List Token → Prop) (p : Parse α) (c : Cursor) : Prop :=
  ∀ ⦃e d⦄, p.outcome c = (.error e, d) → ∃ ts, c.Passes ts d ∧ V ts ∧
    e = .ofToken d.current e.expected e.reason

namespace Blames

variable {V W : List Token → Prop} {p q : Parse α} {f : α → Parse β} {c d : Cursor}

theorem of_ok {a : α} (h : p.outcome c = (.ok a, d)) : Blames V p c := by
  intro e d hp
  rw [h] at hp
  cases hp

theorem pure (a : α) (c : Cursor) : Blames V (Pure.pure a : Parse α) c :=
  of_ok rfl

theorem fail (h : V []) (expected : List String) (reason : Option SyntaxReason) (c : Cursor) :
    Blames V (Parse.fail expected reason : Parse α) c := by
  intro e d hp
  cases hp
  exact ⟨[], .refl c, h, rfl⟩

theorem mono (hp : Blames V p c) (h : ∀ ts, V ts → W ts) : Blames W p c := by
  intro e d hd
  obtain ⟨ts, ht, hv, he⟩ := hp hd
  exact ⟨ts, ht, h ts hv, he⟩

theorem congr (h : p.outcome c = q.outcome c) (hq : Blames V q c) : Blames V p c := by
  intro e d hp
  exact hq (h ▸ hp)

/-- Where the parser goes on behind the current token, that one is passed first. -/
theorem step (hc : c.atEnd = false) (h : p.outcome c = q.outcome c.advance)
    (hq : Blames (fun us => V (c.current :: us)) q c.advance) : Blames V p c := by
  intro e d hp
  obtain ⟨ts, ht, hv, he⟩ := hq (h ▸ hp)
  exact ⟨_, (Cursor.Passes.advance hc).trans ht, hv, he⟩

theorem bind (hp : Blames V p c) (hf : ∀ a d, p.outcome c = (.ok a, d) →
    ∃ ts, c.Passes ts d ∧ Blames (fun us => V (ts ++ us)) (f a) d) : Blames V (p >>= f) c := by
  intro e d h
  rw [outcome_bind] at h
  cases hout : p.outcome c with
  | mk r b =>
    rw [hout] at h
    cases r with
    | error _ => cases h; exact hp hout
    | ok a =>
      obtain ⟨ts, ht, hfails⟩ := hf a b hout
      obtain ⟨us, hu, hv, he⟩ := hfails h
      exact ⟨_, ht.trans hu, hv, he⟩

/-- Of a parser that reads what `N` says, all that begins such a thing has to be fit to go on. -/
theorem read {N : List Token → α → Prop} (hp : Blames (Begins N) p c)
    (hN : ∀ {a d}, p.outcome c = (.ok a, d) → ∃ ts, c.Passes ts d ∧ N ts a)
    (hV : ∀ {ts}, Begins N ts → V ts)
    (hf : ∀ {ts a d}, c.Passes ts d → N ts a → V (ts ++ []) →
      Blames (fun us => V (ts ++ us)) (f a) d) : Blames V (p >>= f) c := by
  refine bind (hp.mono fun _ => hV) fun a d hok => ?_
  obtain ⟨ts, ht, hn⟩ := hN hok
  refine ⟨ts, ht, hf ht hn ?_⟩
  rw [List.append_nil]
  exact hV (.of hn)

theorem map {g : α → β} (hp : Blames V p c) : Blames V (p >>= fun a => Pure.pure (g a)) c := by
  intro e d h
  rw [outcome_bind] at h
  cases hout : p.outcome c with
  | mk r b =>
    rw [hout] at h
    cases r with
    | error _ => cases h; exact hp hout
    | ok a => cases h

section Tokens

theorem advance_bind {f : Token → Parse β} (hc : c.atEnd = false)
    (hf : Blames (fun us => V (c.current :: us)) (f c.current) c.advance) :
    Blames V (advance >>= f) c :=
  step hc (outcome_advance_bind c f) hf

theorem symbol_bind {s : Symbol} {reason : Option SyntaxReason} {f : Token → Parse β} (h : V [])
    (hf : c.current.kind = .symbol s →
      Blames (fun us => V (c.current :: us)) (f c.current) c.advance) :
    Blames V (symbol s reason >>= f) c := by
  cases hs : c.atSymbol s with
  | true =>
    refine step (Cursor.atEnd_of_atSymbol hs) ?_ (hf (of_decide_eq_true hs))
    rw [outcome_symbol_bind, if_pos hs]
  | false =>
    intro e d hp
    rw [outcome_symbol_bind, hs] at hp
    cases hp
    exact ⟨[], .refl c, h, rfl⟩

theorem keyword_bind {k : Keyword} {reason : Option SyntaxReason} {f : Token → Parse β} (h : V [])
    (hf : c.current.kind = .keyword k →
      Blames (fun us => V (c.current :: us)) (f c.current) c.advance) :
    Blames V (keyword k reason >>= f) c := by
  cases hk : c.atKeyword k with
  | true =>
    refine step (Cursor.atEnd_of_atKeyword hk) ?_ (hf (of_decide_eq_true hk))
    rw [outcome_bind, outcome_keyword, if_pos hk]
  | false =>
    intro e d hp
    rw [outcome_bind, outcome_keyword, hk] at hp
    cases hp
    exact ⟨[], .refl c, h, rfl⟩

theorem word_bind {f : String → Parse β} (h : V [])
    (hf : ∀ {name}, c.current.kind = .word name →
      Blames (fun us => V (c.current :: us)) (f name) c.advance) : Blames V (word >>= f) c := by
  refine bind ?_ fun name d hok => ?_
  · intro e d hp
    rw [outcome_word] at hp
    split at hp
    · cases hp
    · cases hp
      exact ⟨[], .refl c, h, rfl⟩
  · obtain ⟨hw, ht⟩ := word_ok hok
    rw [outcome_word, hw] at hok
    cases hok
    exact ⟨_, ht, hf hw⟩

theorem atom_bind {f : Atom → Parse β} (h : V [])
    (hf : ∀ {a}, c.current.kind.atom? = some a →
      Blames (fun us => V (c.current :: us)) (f a) c.advance) : Blames V (atom >>= f) c := by
  refine bind ?_ fun a d hok => ?_
  · intro e d hp
    rw [outcome_atom] at hp
    split at hp
    · cases hp
    · cases hp
      exact ⟨[], .refl c, h, rfl⟩
  · obtain ⟨ha, ht⟩ := atom_ok hok
    rw [outcome_atom, ha] at hok
    cases hok
    exact ⟨_, ht, hf ha⟩

theorem takeSymbol_bind {s : Symbol} {f : Bool → Parse β}
    (ht : c.current.kind = .symbol s →
      Blames (fun us => V (c.current :: us)) (f true) c.advance)
    (hf : Blames V (f false) c) : Blames V (takeSymbol s >>= f) c := by
  cases hs : c.atSymbol s with
  | true =>
    refine step (Cursor.atEnd_of_atSymbol hs) ?_ (ht (of_decide_eq_true hs))
    rw [outcome_takeSymbol_bind, if_pos hs]
  | false =>
    refine congr ?_ hf
    rw [outcome_takeSymbol_bind, hs, if_neg Bool.false_ne_true]

theorem takeKeyword_bind {k : Keyword} {f : Bool → Parse β}
    (ht : c.current.kind = .keyword k →
      Blames (fun us => V (c.current :: us)) (f true) c.advance)
    (hf : Blames V (f false) c) : Blames V (takeKeyword k >>= f) c := by
  cases hk : c.atKeyword k with
  | true =>
    refine step (Cursor.atEnd_of_atKeyword hk) ?_ (ht (of_decide_eq_true hk))
    rw [outcome_takeKeyword_bind, if_pos hk]
  | false =>
    refine congr ?_ hf
    rw [outcome_takeKeyword_bind, hk, if_neg Bool.false_ne_true]

end Tokens

theorem skipLineEnds_bind {f : Unit → Parse β} (hcur : c.current.kind ≠ .endOfLine)
    (hf : Blames V (f ()) c) : Blames V (skipLineEnds >>= f) c := by
  refine congr ?_ hf
  rw [outcome_skipLineEnds_bind, Cursor.skipLineEnds_of_kind hcur]

/-- Where the file ends, nothing is passed any more, so what follows fails where the line ended. -/
theorem lineEnd_bind {f : Unit → Parse β} (h : V [])
    (hf : ∀ {ns d}, LineEnds ns → d.current.kind ≠ .endOfLine →
      Blames (fun us => V (ns ++ us)) (f ()) d) : Blames V (lineEnd >>= f) c := by
  intro e d hp
  rw [outcome_bind] at hp
  cases hout : lineEnd.outcome c with
  | mk r b =>
    rw [hout] at hp
    cases r with
    | error _ =>
      cases hp
      rw [lineEnd, outcome_cursor_bind] at hout
      split at hout
      · cases hout
      · split at hout
        · cases hout
        · cases hout
          exact ⟨[], .refl c, h, rfl⟩
    | ok _ =>
      obtain ⟨hcur, ns, hns, hend⟩ := lineEnd_ok hout
      cases hend with
      | inl hline =>
        obtain ⟨ts, ht, hv, he⟩ := hf hline hcur hp
        exact ⟨_, hns.trans ht, hv, he⟩
      | inr hend =>
        obtain ⟨rfl, hend⟩ := hend
        obtain ⟨ts, ht, -, he⟩ := hf lineEnds_ofKind hcur hp
        cases ht.eq_of_atEnd hend
        exact ⟨[], hns, h, he⟩

/-- Lists of items fail where an item does, or behind an item. -/
theorem commaList {F : Token → Prop} {N : List Token → α → Prop} (h : p.Reads F N)
    (hN : Begins N []) (hp : ∀ d : Cursor, d.rest.length ≤ c.rest.length → Blames (Begins N) p d)
    (n : Nat) : Blames (Begins (Listed N)) (Parse.commaList p n) c := by
  induction n generalizing c with
  | zero => exact fail hN.listed _ _ c
  | succ n ih =>
    refine read (hp c (Nat.le_refl _)) h.sound Begins.listed fun {ts a d} ht hn _ => ?_
    refine takeSymbol_bind (fun hs => ?_) (pure _ _)
    have hl := ht.length
    have hrest := d.length_rest_advance_le
    refine map ((ih fun e he => hp e (by omega)).mono fun us hus => ?_)
    exact Begins.listed_more hn hs hus

end Blames

/-- From the beginning of a line the parser reads what `N` says, and where it fails it has passed
what begins such a thing. -/
structure OnLines (N : List Token → α → Prop) (p : Parse α) : Prop where
  sound : ∀ {c a d}, c.current.kind ≠ .endOfLine → p.outcome c = (.ok a, d) →
    ∃ ts, c.Passes ts d ∧ N ts a
  blames : ∀ {c}, c.current.kind ≠ .endOfLine → Blames (Begins N) p c

theorem OnLines.bind {V : List Token → Prop} {p : Parse α} {f : α → Parse β} {c : Cursor}
    {N : List Token → α → Prop} (hp : OnLines N p) (h : V [])
    (hV : ∀ {ns ts}, LineEnds ns → Begins N ts → V (ns ++ ts))
    (hf : ∀ {ns ts a d}, LineEnds ns → N ts a → V (ns ++ (ts ++ [])) →
      Blames (fun us => V (ns ++ (ts ++ us))) (f a) d) :
    Blames V (do
      lineEnd
      let a ← p
      f a) c :=
  Blames.lineEnd_bind h fun hns hcur => .read (hp.blames hcur) (hp.sound hcur) (hV hns)
    fun _ hn hts => hf hns hn hts

end Parse
end Seudocodigo
