import Seudocodigo.Proofs.Expression.Parts
import Seudocodigo.Proofs.Stack.Typed

/-! What it takes to get past the checker. Whatever passes, the checker has come to all of its
parts. -/
namespace Seudocodigo

section Checked

variable {Γ : Context} {name : String} {e : Expression} {es : List Expression} {u : Unit}

/-! Each check that succeeds, taken apart. -/

theorem checkIndices_cons (h : checkIndices Γ name (e :: es) = .ok u) :
    e.type Γ = .ok .integer ∧ checkIndices Γ name es = .ok u := by
  rw [checkIndices] at h
  obtain ⟨t, ht, h⟩ := exists_of_bind_eq_ok h
  split at h
  · next hint => exact ⟨hint ▸ ht, h⟩
  · cases h

theorem Access.exists_of_type {a : Access} {q : Location} {t : Ty} (h : a.type Γ q = .ok t) :
    ∃ v, Γ.scope.find? a.name = some v ∧ a.indices.length ≤ v.dims.length ∧
      ∃ u, checkIndices Γ a.name a.indices = .ok u := by
  obtain ⟨name, indices⟩ := a
  rw [Access.type] at h
  split at h
  · cases h
  · next v hv =>
    split at h
    · cases h
    · next hle =>
      obtain ⟨u, hu, -⟩ := exists_of_bind_eq_ok h
      exact ⟨v, hv, Nat.not_lt.1 hle, u, hu⟩

theorem checkArguments_cons {i : Nat} {v : Variable} {vs : List Variable}
    (h : checkArguments Γ name i (e :: es) (v :: vs) = .ok u) :
    e.type Γ = .ok v.ty ∧ (v.byReference = true → e.access?.isSome = true) ∧
      checkArguments Γ name (i + 1) es vs = .ok u := by
  rw [checkArguments] at h
  obtain ⟨t, ht, h⟩ := exists_of_bind_eq_ok h
  split at h
  · cases h
  · next htype =>
    split at h
    · cases h
    · next hvariable =>
      refine ⟨Decidable.not_not.1 htype ▸ ht, fun href => ?_, h⟩
      rw [href, Bool.true_and] at hvariable
      exact Option.isSome_iff_ne_none.2 (by simpa using hvariable)

theorem checkBuiltinArguments_cons {i : Nat}
    (h : checkBuiltinArguments Γ name i (e :: es) = .ok u) :
    (∃ t, e.type Γ = .ok t) ∧ (name = "leer" → e.access?.isSome = true) ∧
      checkBuiltinArguments Γ name (i + 1) es = .ok u := by
  rw [checkBuiltinArguments] at h
  obtain ⟨t, ht, h⟩ := exists_of_bind_eq_ok h
  split at h
  · cases h
  · split at h
    · cases h
    · next hvariable =>
      refine ⟨⟨t, ht⟩, fun hname => ?_, h⟩
      rw [decide_eq_true hname, Bool.true_and] at hvariable
      exact Option.isSome_iff_ne_none.2 (by simpa using hvariable)

/-- A call that is checked has a built-in module, or one with a signature for its arguments. -/
theorem Call.check_cases {c : Call} (h : c.check Γ = .ok u) :
    Module.isBuiltin c.name = true ∧ checkBuiltinArguments Γ c.name 1 c.args = .ok u ∨
      Module.isBuiltin c.name = false ∧ ∃ sig, Γ.signatures.find? c.name = some sig ∧
        c.args.length = sig.parameters.length ∧
          checkArguments Γ c.name 1 c.args sig.parameters = .ok u := by
  obtain ⟨name, args, q⟩ := c
  rw [Call.check] at h
  split at h
  · next hbuiltin => exact .inl ⟨hbuiltin, h⟩
  · next hbuiltin =>
    split at h
    · cases h
    · next sig hsig =>
      split at h
      · next hlen => exact .inr ⟨Bool.eq_false_iff.2 hbuiltin, sig, hsig, hlen, h⟩
      · cases h

/-! Indices and arguments are checked with what they belong to. -/

theorem typed_of_checkIndices {indices : List Expression}
    (h : checkIndices Γ name indices = .ok u) :
    ∀ e ∈ indices, ∃ t, e.type Γ = .ok t := by
  induction indices with
  | nil => nofun
  | cons e es ih =>
    obtain ⟨ht, hrest⟩ := checkIndices_cons h
    exact List.forall_mem_cons.2 ⟨⟨_, ht⟩, ih hrest⟩

theorem typed_of_accessType {a : Access} {q : Location} {t : Ty} (h : a.type Γ q = .ok t) :
    ∀ e ∈ a.indices, ∃ t, e.type Γ = .ok t := by
  obtain ⟨-, -, -, u, hu⟩ := Access.exists_of_type h
  exact typed_of_checkIndices hu

theorem typed_of_checkArguments {args : List Expression} {vs : List Variable} {i : Nat}
    (hlen : args.length = vs.length) (h : checkArguments Γ name i args vs = .ok u) :
    ∀ e ∈ args, ∃ t, e.type Γ = .ok t := by
  induction args generalizing i vs with
  | nil => nofun
  | cons e es ih =>
    cases vs with
    | nil => cases hlen
    | cons v vs =>
      obtain ⟨ht, -, hrest⟩ := checkArguments_cons h
      exact List.forall_mem_cons.2 ⟨⟨_, ht⟩, ih (Nat.succ.inj hlen) hrest⟩

theorem typed_of_checkBuiltinArguments {args : List Expression} {i : Nat}
    (h : checkBuiltinArguments Γ name i args = .ok u) : ∀ e ∈ args, ∃ t, e.type Γ = .ok t := by
  induction args generalizing i with
  | nil => nofun
  | cons e es ih =>
    obtain ⟨ht, -, hrest⟩ := checkBuiltinArguments_cons h
    exact List.forall_mem_cons.2 ⟨ht, ih hrest⟩

theorem typed_of_callCheck {c : Call} (h : c.check Γ = .ok u) :
    ∀ e ∈ c.args, ∃ t, e.type Γ = .ok t := by
  obtain ⟨-, hargs⟩ | ⟨-, sig, -, hlen, hargs⟩ := c.check_cases h
  · exact typed_of_checkBuiltinArguments hargs
  · exact typed_of_checkArguments hlen hargs

def Element.Passes (Γ : Context) (el : Element) : Prop :=
  ∃ q below above, el.typeOnto Γ q below = .ok above

theorem Element.passes_access {a : Access} :
    (Element.access a).Passes Γ ↔ ∃ q t, a.type Γ q = .ok t := by
  constructor
  · rintro ⟨q, below, above, h⟩
    rw [Element.typeOnto] at h
    obtain ⟨t, ht, -⟩ := exists_of_bind_eq_ok h
    exact ⟨q, t, ht⟩
  · rintro ⟨q, t, ht⟩
    refine ⟨q, [], [t], ?_⟩
    rw [Element.typeOnto, ht]
    rfl

theorem Element.passes_call {c : Call} :
    (Element.call c).Passes Γ ↔ ∃ u, c.check Γ = .ok u := by
  obtain ⟨name, args, q⟩ := c
  constructor
  · rintro ⟨p, below, above, h⟩
    rw [Element.typeOnto] at h
    obtain ⟨u, hu, -⟩ := exists_of_bind_eq_ok h
    exact ⟨u, hu⟩
  · rintro ⟨u, hu⟩
    refine ⟨q, [], [Γ.callType name], ?_⟩
    rw [Element.typeOnto, hu]
    rfl

/-- The indices and arguments of an element that passes are checked with it. -/
theorem Element.Passes.typed {el : Element} (h : el.Passes Γ) :
    ∀ e ∈ el.expressions, ∃ t, e.type Γ = .ok t := by
  cases el with
  | literal | operator => nofun
  | access a =>
    obtain ⟨q, t, ht⟩ := Element.passes_access.1 h
    exact typed_of_accessType ht
  | call c =>
    obtain ⟨u, hu⟩ := Element.passes_call.1 h
    exact typed_of_callCheck hu

theorem typeElements_of_type {e : Expression} {t : Ty} (h : e.type Γ = .ok t) :
    ∃ us, typeElements Γ e.location e.elements [] = .ok us := by
  obtain ⟨es, q⟩ := e
  rw [Expression.type] at h
  obtain ⟨us, hus, -⟩ := exists_of_bind_eq_ok h
  exact ⟨us, hus⟩

theorem passes_of_typeElements {q : Location} {es : List Element} {ts us : List Ty}
    (h : typeElements Γ q es ts = .ok us) : ∀ el ∈ es, el.Passes Γ := by
  induction es generalizing ts with
  | nil => nofun
  | cons el es ih =>
    rw [typeElements] at h
    obtain ⟨vs, hel, h⟩ := exists_of_bind_eq_ok h
    exact List.forall_mem_cons.2 ⟨⟨q, ts, vs, hel⟩, ih h⟩

/-- All elements of an expression with a type pass. -/
theorem Expression.passes_of_type {e : Expression} (h : ∃ t, e.type Γ = .ok t) :
    ∀ el ∈ e.elements, el.Passes Γ := by
  obtain ⟨t, ht⟩ := h
  obtain ⟨us, hus⟩ := typeElements_of_type ht
  exact passes_of_typeElements hus

theorem Element.Passes.inner {el : Element} (h : el.Passes Γ) {e : Expression}
    (he : e ∈ el.expressions) : ∀ inner ∈ e.elements, inner.Passes Γ :=
  Expression.passes_of_type (h.typed e he)

/-- All parts of an expression with a type have a type. -/
theorem Expression.Part.typed {e x : Expression} (hx : e.Part x) (h : ∃ t, e.type Γ = .ok t) :
    ∃ t, x.type Γ = .ok t := by
  induction hx with
  | whole => exact h
  | inner _ hel hy ih => exact (Expression.passes_of_type ih _ hel).typed _ hy

end Checked

end Seudocodigo
