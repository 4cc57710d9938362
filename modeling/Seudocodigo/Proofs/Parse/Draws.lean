import Seudocodigo.Proofs.Parse.Forward

/-! What parsers draw from the tokens that they are given: the results they come to, and the errors,
each of which is about one of the tokens. -/
namespace Seudocodigo

namespace Cursor

theorem Passes.subset {c d : Cursor} {us : List Token} (h : c.Passes us d) :
    d.tokens ⊆ c.tokens := by
  rw [h.1]
  exact List.subset_append_right _ _

theorem tokens_advance_subset (c : Cursor) : c.advance.tokens ⊆ c.tokens := by
  cases h : c.atEnd with
  | true => rw [advance_of_atEnd h]; exact List.Subset.refl _
  | false => exact (Passes.advance h).subset

theorem tokens_skipLineEnds_subset (c : Cursor) : c.skipLineEnds.tokens ⊆ c.tokens := by
  obtain ⟨us, hus, -⟩ := c.passes_skipLineEnds
  exact hus.subset

end Cursor

namespace Parse

variable {α β : Type}

/-- A result of which `Q` holds, before no other tokens than the given ones, or an error about one
of these. -/
inductive Drawn (ts : List Token) (Q : α → Prop) : Except SyntaxError α × Cursor → Prop where
  | ok {a : α} {d : Cursor} : Q a → d.tokens ⊆ ts → Drawn ts Q (.ok a, d)
  | error {t : Token} {expected : List String} {reason : Option SyntaxReason} {d : Cursor} :
    t ∈ ts → Drawn ts Q (.error (.ofToken t expected reason), d)

def Draws (ts : List Token) (Q : α → Prop) (p : Parse α) : Prop :=
  ∀ ⦃c : Cursor⦄, c.tokens ⊆ ts → Drawn ts Q (p.outcome c)

namespace Draws

variable {ts : List Token} {Q : α → Prop} {R : β → Prop} {p p' : Parse α} {f : α → Parse β}

theorem pure {a : α} (h : Q a) : Draws ts Q (Pure.pure a) := fun _ hc => .ok h hc

theorem fail (expected : List String) (reason : Option SyntaxReason) :
    Draws ts Q (Parse.fail expected reason) := fun _ hc => .error (hc List.mem_cons_self)

theorem bind (h : Draws ts Q p) (hf : ∀ a, Q a → Draws ts R (f a)) : Draws ts R (p >>= f) := by
  intro c hc
  rw [outcome_bind]
  have hdrawn := h hc
  generalize p.outcome c = r at hdrawn
  cases hdrawn with
  | ok ha hd => exact hf _ ha hd
  | error ht => exact .error ht

theorem map {g : α → β} (h : Draws ts Q p) (hg : ∀ a, Q a → R (g a)) :
    Draws ts R (p >>= fun a => Pure.pure (g a)) :=
  h.bind fun a ha => .pure (hg a ha)

theorem ite {P : Prop} [Decidable P] (hp : Draws ts Q p) (hp' : Draws ts Q p') :
    Draws ts Q (if P then p else p') := by
  split
  · exact hp
  · exact hp'

/-- An error that does not come from reading is about a token that has been read. -/
theorem lift {x : Except SyntaxError α} (hok : ∀ a, x = .ok a → Q a)
    (herror : ∀ e, x = .error e → ∃ t ∈ ts, e = .ofToken t e.expected e.reason) :
    Draws ts Q (liftM x) := by
  intro c hc
  cases x with
  | ok a => exact .ok (hok a rfl) hc
  | error e =>
    obtain ⟨t, ht, he⟩ := herror e rfl
    rw [he]
    exact .error ht

/-! What all parsers are made of. -/

theorem cursor : Draws ts (·.tokens ⊆ ts) Parse.cursor := fun _ hc => .ok hc hc

theorem current : Draws ts (· ∈ ts) Parse.current := fun _ hc => .ok (hc List.mem_cons_self) hc

theorem location : Draws ts (· ∈ ts.map (·.location)) Parse.location := fun _ hc =>
  .ok (List.mem_map_of_mem (hc List.mem_cons_self)) hc

theorem advance : Draws ts (· ∈ ts) Parse.advance := fun c hc =>
  .ok (hc List.mem_cons_self) (List.Subset.trans c.tokens_advance_subset hc)

theorem skipLineEnds : Draws ts (fun _ => True) Parse.skipLineEnds := fun c hc =>
  .ok trivial (List.Subset.trans c.tokens_skipLineEnds_subset hc)

theorem budget : Draws ts (fun _ => True) Parse.budget := fun _ hc => .ok trivial hc

theorem atSymbol (s : Symbol) : Draws ts (fun _ => True) (Parse.atSymbol s) := fun _ hc =>
  .ok trivial hc

theorem atKeyword (k : Keyword) : Draws ts (fun _ => True) (Parse.atKeyword k) := fun _ hc =>
  .ok trivial hc

theorem takeSymbol (s : Symbol) : Draws ts (fun _ => True) (Parse.takeSymbol s) :=
  (atSymbol s).bind fun _ _ => ite (advance.map fun _ _ => trivial) (pure trivial)

theorem takeKeyword (k : Keyword) : Draws ts (fun _ => True) (Parse.takeKeyword k) :=
  (atKeyword k).bind fun _ _ => ite (advance.map fun _ _ => trivial) (pure trivial)

theorem symbol (s : Symbol) (reason : Option SyntaxReason) :
    Draws ts (· ∈ ts) (Parse.symbol s reason) :=
  (atSymbol s).bind fun _ _ => ite advance (fail _ _)

theorem keyword (k : Keyword) (reason : Option SyntaxReason) :
    Draws ts (· ∈ ts) (Parse.keyword k reason) :=
  (atKeyword k).bind fun _ _ => ite advance (fail _ _)

theorem word : Draws ts (fun _ => True) Parse.word := by
  refine current.bind fun t _ => ?_
  split
  · exact advance.map fun _ _ => trivial
  · exact fail _ _

theorem atom : Draws ts (fun _ => True) Parse.atom := by
  refine current.bind fun t _ => ?_
  split
  · exact advance.map fun _ _ => trivial
  · exact fail _ _

theorem lineEnd : Draws ts (fun _ => True) Parse.lineEnd :=
  cursor.bind fun _ _ => ite (pure trivial) (ite skipLineEnds (fail _ _))

theorem commaList (h : Draws ts Q p) (n : Nat) :
    Draws ts (fun as => ∀ a ∈ as, Q a) (Parse.commaList p n) := by
  induction n with
  | zero => exact fail _ _
  | succ n ih =>
    refine h.bind fun a ha => (takeSymbol _).bind fun _ _ => ite (ih.map fun as has => ?_) (pure ?_)
    · exact List.forall_mem_cons.2 ⟨ha, has⟩
    · exact List.forall_mem_cons.2 ⟨ha, nofun⟩

end Draws
end Parse
end Seudocodigo
