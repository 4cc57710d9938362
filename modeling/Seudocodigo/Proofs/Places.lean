import Seudocodigo.Module.Typing
import Seudocodigo.Proofs.Hoisting

/-! The places that are noted in a module. Whatever the checker finds wrong with a module, it
reports at one of them, and the types that it names there are really wrong. -/
namespace Seudocodigo

mutual

def Access.places : Access → List Location
  | ⟨_, indices⟩ => placesOfExpressions indices

def Call.places : Call → List Location
  | ⟨_, args, p⟩ => p :: placesOfExpressions args

def Element.places : Element → List Location
  | .literal _ | .operator _ => []
  | .access a => a.places
  | .call c => c.places

def placesOfElements : List Element → List Location
  | [] => []
  | e :: es => e.places ++ placesOfElements es

def Expression.places : Expression → List Location
  | ⟨es, p⟩ => p :: placesOfElements es

def placesOfExpressions : List Expression → List Location
  | [] => []
  | e :: es => e.places ++ placesOfExpressions es

end

def Assignment.places (a : Assignment) : List Location :=
  a.location :: a.target.places ++ a.value.places

mutual

def Statement.places : Statement → List Location
  | .declaration vs p => p :: vs.map (·.location)
  | .assignment a => a.places
  | .conditional condition thenBranch elseBranch p =>
    p :: condition.places ++ placesOf thenBranch ++ placesOf elseBranch
  | .whileLoop condition body p | .untilLoop body condition p =>
    p :: condition.places ++ placesOf body
  | .counting ⟨start, bound, body, p⟩ => p :: start.places ++ bound.places ++ placesOf body
  | .call c => c.places
  | .result value p => p :: value.places

def placesOf : List Statement → List Location
  | [] => []
  | s :: ss => s.places ++ placesOf ss

end

def Module.places (m : Module) : List Location :=
  m.location :: m.parameters.map (·.location) ++ placesOf m.body

theorem placesOfElements_eq_flatMap (es : List Element) :
    placesOfElements es = es.flatMap Element.places := by
  induction es with
  | nil => rw [placesOfElements]; rfl
  | cons e es ih => rw [placesOfElements, ih, List.flatMap_cons]

theorem placesOfExpressions_eq_flatMap (es : List Expression) :
    placesOfExpressions es = es.flatMap Expression.places := by
  induction es with
  | nil => rw [placesOfExpressions]; rfl
  | cons e es ih => rw [placesOfExpressions, ih, List.flatMap_cons]

theorem placesOf_eq_flatMap (ss : List Statement) : placesOf ss = ss.flatMap Statement.places := by
  induction ss with
  | nil => rw [placesOf]; rfl
  | cons s ss ih => rw [placesOf, ih, List.flatMap_cons]

theorem Expression.location_mem_places (e : Expression) : e.location ∈ e.places := by
  obtain ⟨es, p⟩ := e
  rw [Expression.places]
  exact List.mem_cons_self

theorem Assignment.places_target_subset (a : Assignment) : a.target.places ⊆ a.places := by
  rw [Assignment.places]
  exact List.subset_append_of_subset_left _ (List.subset_cons_self _ _)

theorem Assignment.places_value_subset (a : Assignment) : a.value.places ⊆ a.places := by
  rw [Assignment.places]
  exact List.subset_append_right _ _

/-! The checks that can fail: the places at which they do, and what they then say of types. -/

/-- What is said of types is really wrong by the rule that the error is about. -/
def TypeProblem.Wrong : TypeProblem → Prop
  | .assignment expected received => expected.accepts received = false
  | .argumentCount _ expected received => received ≠ expected
  | .argument _ _ expected received => received ≠ expected
  | .builtinArgument _ _ received => received.isPrintable = false
  | .counter received | .counterStart received | .counterBound received => received ≠ .integer
  | .condition received => received ≠ .logical
  | .resultType _ expected received => received ≠ expected
  | .operand op received => op.unaryType? received = none
  | .operands op left right => op.binaryType? left right = none
  | .index _ received => received ≠ .integer
  | .tooManyIndices _ dimensions received => dimensions < received
  | .missingResult _ | .resultOutsideFunction | .undefinedVariable _ | .undefinedModule _
  | .duplicateVariable _ | .referenceNeedsVariable .. => True

/-- The error is at one of the places, and what it says of types is wrong by its rule. -/
structure TypeError.Justified (error : TypeError) (ps : List Location) : Prop where
  location : error.location ∈ ps
  wrong : error.problem.Wrong

section Checks

theorem cases_of_bind_eq_error {ε α β : Type} {x : Except ε α} {f : α → Except ε β} {e : ε}
    (h : x >>= f = .error e) : x = .error e ∨ ∃ a, x = .ok a ∧ f a = .error e := by
  cases hx : x with
  | error d => rw [hx] at h; cases h; exact .inl rfl
  | ok a => rw [hx] at h; exact .inr ⟨a, rfl, h⟩

variable {Γ : Context} {error : TypeError}

theorem TypeError.Justified.mono {ps qs : List Location} (h : error.Justified ps) (hs : ps ⊆ qs) :
    error.Justified qs :=
  ⟨hs h.location, h.wrong⟩

theorem Operator.justified_of_typeOnto {op : Operator} {p : Location} {stack : List Ty}
    (h : op.typeOnto p stack = .error error) : error.Justified [p] := by
  rw [Operator.typeOnto] at h
  split at h
  · split at h
    · cases h
    · next hnone => cases h; exact ⟨List.mem_cons_self, hnone⟩
  · dsimp only at h
    split at h
    · cases h
    · next hnone => cases h; exact ⟨List.mem_cons_self, hnone⟩

mutual

theorem Expression.justified_of_type (e : Expression) (h : e.type Γ = .error error) :
    error.Justified e.places := by
  obtain ⟨es, p⟩ := e
  rw [Expression.type] at h
  rw [Expression.places]
  obtain hes | ⟨stack, -, h⟩ := cases_of_bind_eq_error h
  · exact justified_of_typeElements p es [] hes
  · cases h

theorem justified_of_typeElements (p : Location) (es : List Element) (stack : List Ty)
    (h : typeElements Γ p es stack = .error error) :
    error.Justified (p :: placesOfElements es) := by
  cases es with
  | nil => rw [typeElements] at h; cases h
  | cons e es =>
    rw [typeElements] at h
    rw [placesOfElements]
    obtain he | ⟨stack, -, hes⟩ := cases_of_bind_eq_error h
    · have hjustified := Element.justified_of_typeOnto p e _ he
      exact hjustified.mono (List.cons_subset_cons p (List.subset_append_left _ _))
    · have hjustified := justified_of_typeElements p es stack hes
      exact hjustified.mono (List.cons_subset_cons p (List.subset_append_right _ _))

theorem Element.justified_of_typeOnto (p : Location) (e : Element) (stack : List Ty)
    (h : e.typeOnto Γ p stack = .error error) : error.Justified (p :: e.places) := by
  cases e with
  | literal value => rw [Element.typeOnto] at h; cases h
  | access a =>
    obtain ⟨name, indices⟩ := a
    rw [Element.typeOnto] at h
    rw [Element.places]
    obtain ha | ⟨t, -, h⟩ := cases_of_bind_eq_error h
    · exact Access.justified_of_type p ⟨name, indices⟩ ha
    · cases h
  | operator op =>
    rw [Element.typeOnto] at h
    exact Operator.justified_of_typeOnto h
  | call c =>
    obtain ⟨name, args, q⟩ := c
    rw [Element.typeOnto] at h
    rw [Element.places]
    obtain hc | ⟨u, -, h⟩ := cases_of_bind_eq_error h
    · exact (Call.justified_of_check ⟨name, args, q⟩ hc).mono (List.subset_cons_self p _)
    · cases h

theorem Access.justified_of_type (p : Location) (a : Access) (h : a.type Γ p = .error error) :
    error.Justified (p :: a.places) := by
  obtain ⟨name, indices⟩ := a
  rw [Access.type] at h
  rw [Access.places]
  split at h
  · cases h
    exact ⟨List.mem_cons_self, trivial⟩
  · split at h
    · next hmany => cases h; exact ⟨List.mem_cons_self, hmany⟩
    · obtain hi | ⟨u, -, h⟩ := cases_of_bind_eq_error h
      · exact (justified_of_checkIndices name indices hi).mono (List.subset_cons_self p _)
      · cases h

theorem justified_of_checkIndices (name : String) (es : List Expression)
    (h : checkIndices Γ name es = .error error) : error.Justified (placesOfExpressions es) := by
  cases es with
  | nil => rw [checkIndices] at h; cases h
  | cons e es =>
    rw [checkIndices] at h
    rw [placesOfExpressions]
    obtain he | ⟨t, -, h⟩ := cases_of_bind_eq_error h
    · exact (Expression.justified_of_type e he).mono (List.subset_append_left _ _)
    · split at h
      · exact (justified_of_checkIndices name es h).mono (List.subset_append_right _ _)
      · next hne => cases h; exact ⟨List.mem_append_left _ e.location_mem_places, hne⟩

theorem Call.justified_of_check (c : Call) (h : c.check Γ = .error error) :
    error.Justified c.places := by
  obtain ⟨name, args, p⟩ := c
  rw [Call.check] at h
  rw [Call.places]
  split at h
  · have hjustified := justified_of_checkBuiltinArguments name 1 args h
    exact hjustified.mono (List.subset_cons_self p _)
  · split at h
    · cases h
      exact ⟨List.mem_cons_self, trivial⟩
    · next s _ =>
      split at h
      · have hjustified := justified_of_checkArguments name 1 args s.parameters h
        exact hjustified.mono (List.subset_cons_self p _)
      · next hcount => cases h; exact ⟨List.mem_cons_self, hcount⟩

theorem justified_of_checkArguments (name : String) (i : Nat) (es : List Expression)
    (vs : List Variable) (h : checkArguments Γ name i es vs = .error error) :
    error.Justified (placesOfExpressions es) := by
  cases es with
  | nil => rw [checkArguments] at h; cases h; nofun
  | cons e es =>
    cases vs with
    | nil => rw [checkArguments] at h; cases h; nofun
    | cons v vs =>
      rw [checkArguments] at h
      rw [placesOfExpressions]
      obtain he | ⟨t, -, h⟩ := cases_of_bind_eq_error h
      · exact (Expression.justified_of_type e he).mono (List.subset_append_left _ _)
      · have hplace := List.mem_append_left (placesOfExpressions es) e.location_mem_places
        split at h
        · next hne => cases h; exact ⟨hplace, hne⟩
        · split at h
          · cases h
            exact ⟨hplace, trivial⟩
          · have hjustified := justified_of_checkArguments name (i + 1) es vs h
            exact hjustified.mono (List.subset_append_right _ _)

theorem justified_of_checkBuiltinArguments (name : String) (i : Nat) (es : List Expression)
    (h : checkBuiltinArguments Γ name i es = .error error) :
    error.Justified (placesOfExpressions es) := by
  cases es with
  | nil => rw [checkBuiltinArguments] at h; cases h
  | cons e es =>
    rw [checkBuiltinArguments] at h
    rw [placesOfExpressions]
    obtain he | ⟨t, -, h⟩ := cases_of_bind_eq_error h
    · exact (Expression.justified_of_type e he).mono (List.subset_append_left _ _)
    · have hplace := List.mem_append_left (placesOfExpressions es) e.location_mem_places
      split at h
      · next hnot =>
        rw [Bool.not_eq_true'] at hnot
        cases h
        exact ⟨hplace, hnot⟩
      · split at h
        · cases h
          exact ⟨hplace, trivial⟩
        · have hjustified := justified_of_checkBuiltinArguments name (i + 1) es h
          exact hjustified.mono (List.subset_append_right _ _)

end

theorem mem_failure {α : Type} {check : Except TypeError α} :
    error ∈ failure check ↔ check = .error error := by
  cases check with
  | ok a => simp [failure]
  | error d => simp [failure, eq_comm]

theorem Assignment.justified_of_check {a : Assignment} (h : a.check Γ = .error error) :
    error.Justified a.places := by
  rw [Assignment.check] at h
  obtain htarget | ⟨expected, -, h⟩ := cases_of_bind_eq_error h
  · have hjustified := a.target.justified_of_type a.location htarget
    exact hjustified.mono (List.subset_append_left _ _)
  · obtain hvalue | ⟨received, -, h⟩ := cases_of_bind_eq_error h
    · exact (a.value.justified_of_type hvalue).mono a.places_value_subset
    · split at h
      · cases h
      · next hnot => cases h; exact ⟨List.mem_cons_self, eq_false_of_ne_true hnot⟩

/-- What is required of a type is missed where the type is found, or at the given place by the types
that `problem` says are wrong. -/
theorem justified_of_require {check : Except TypeError Ty} {expected : Ty}
    {problem : Ty → TypeProblem} {p : Location} {ps : List Location}
    (h : require check expected problem p = .error error) (hp : p ∈ ps)
    (hproblem : ∀ t, t ≠ expected → (problem t).Wrong)
    (hcheck : check = .error error → error.Justified ps) : error.Justified ps := by
  rw [require] at h
  obtain h | ⟨t, -, h⟩ := cases_of_bind_eq_error h
  · exact hcheck h
  · split at h
    · cases h
    · next hne => cases h; exact ⟨hp, hproblem t hne⟩

theorem justified_of_checkResult {value : Expression} {p : Location}
    (h : checkResult Γ value p = .error error) : error.Justified (p :: value.places) := by
  rw [checkResult] at h
  split at h
  · cases h
    exact ⟨List.mem_cons_self, trivial⟩
  · obtain hvalue | ⟨received, -, h⟩ := cases_of_bind_eq_error h
    · exact (value.justified_of_type hvalue).mono (List.subset_cons_self p _)
    · split at h
      · cases h
      · next hne => cases h; exact ⟨List.mem_cons_self, hne⟩

theorem Expression.justified_of_checkCondition {e : Expression}
    (h : e.checkCondition Γ = .error error) : error.Justified e.places :=
  justified_of_require h e.location_mem_places (fun _ hne => hne) e.justified_of_type

mutual

theorem Statement.justified_of_mem_errors (st : Statement) (h : error ∈ st.errors Γ) :
    error.Justified st.places := by
  cases st with
  | declaration vs p => rw [Statement.errors] at h; cases h
  | assignment a =>
    rw [Statement.errors, mem_failure] at h
    rw [Statement.places]
    exact Assignment.justified_of_check h
  | conditional condition thenBranch elseBranch p =>
    simp only [Statement.errors, List.mem_append, mem_failure] at h
    rw [Statement.places]
    obtain (hcondition | hthen) | helse := h
    · refine (Expression.justified_of_checkCondition hcondition).mono ?_
      refine List.subset_append_of_subset_left _ (List.subset_append_of_subset_left _ ?_)
      exact List.subset_cons_self p _
    · refine (justified_of_mem_errorsOf thenBranch hthen).mono ?_
      exact List.subset_append_of_subset_left _ (List.subset_append_right _ _)
    · exact (justified_of_mem_errorsOf elseBranch helse).mono (List.subset_append_right _ _)
  | whileLoop condition body p | untilLoop body condition p =>
    simp only [Statement.errors, List.mem_append, mem_failure] at h
    rw [Statement.places]
    obtain hcondition | hbody := h
    · refine (Expression.justified_of_checkCondition hcondition).mono ?_
      exact List.subset_append_of_subset_left _ (List.subset_cons_self p _)
    · exact (justified_of_mem_errorsOf body hbody).mono (List.subset_append_right _ _)
  | counting l =>
    obtain ⟨start, bound, body, p⟩ := l
    simp only [Statement.errors, List.mem_append, mem_failure] at h
    rw [Statement.places]
    obtain ((htarget | hvalue) | hbound) | hbody := h
    · have hjustified := justified_of_require htarget List.mem_cons_self (fun _ hne => hne)
        (start.target.justified_of_type p)
      refine hjustified.mono (List.subset_append_of_subset_left _ ?_)
      refine List.subset_append_of_subset_left _ ?_
      exact List.cons_subset_cons p start.places_target_subset
    · have hjustified := justified_of_require hvalue start.value.location_mem_places
        (fun _ hne => hne) start.value.justified_of_type
      refine hjustified.mono (List.subset_append_of_subset_left _ ?_)
      refine List.subset_append_of_subset_left _ ?_
      exact List.subset_cons_of_subset p start.places_value_subset
    · have hjustified := justified_of_require hbound bound.location_mem_places
        (fun _ hne => hne) bound.justified_of_type
      refine hjustified.mono (List.subset_append_of_subset_left _ ?_)
      exact List.subset_append_right _ _
    · exact (justified_of_mem_errorsOf body hbody).mono (List.subset_append_right _ _)
  | call c =>
    rw [Statement.errors, mem_failure] at h
    rw [Statement.places]
    exact c.justified_of_check h
  | result value p =>
    rw [Statement.errors, mem_failure] at h
    rw [Statement.places]
    exact justified_of_checkResult h

theorem justified_of_mem_errorsOf (ss : List Statement) (h : error ∈ errorsOf Γ ss) :
    error.Justified (placesOf ss) := by
  cases ss with
  | nil => rw [errorsOf] at h; cases h
  | cons s ss =>
    rw [errorsOf, List.mem_append] at h
    rw [placesOf]
    obtain hfirst | hrest := h
    · exact (Statement.justified_of_mem_errors s hfirst).mono (List.subset_append_left _ _)
    · exact (justified_of_mem_errorsOf ss hrest).mono (List.subset_append_right _ _)

end

end Checks

namespace Module

variable {m : Module} {error : TypeError}

theorem placesOf_body_subset (m : Module) : placesOf m.body ⊆ m.places := by
  rw [places]
  exact List.subset_append_right _ _

/-- Variables that are declared twice are reported where they are declared. -/
theorem justified_of_mem_hoistErrors (h : error ∈ m.hoisted.hoistErrors) :
    error.Justified (placesOf m.body) := by
  obtain ⟨-, herrors⟩ := Scope.declareAll_empty (m.body.flatMap Statement.declared)
  rw [show m.hoisted.hoistErrors = _ from herrors] at h
  obtain ⟨v, hv, rfl⟩ := List.mem_map.1 h
  obtain ⟨st, hst, hdeclared⟩ := List.mem_flatMap.1 (Variable.repeats_subset _ hv)
  rw [placesOf_eq_flatMap]
  refine ⟨List.mem_flatMap.2 ⟨st, hst, ?_⟩, trivial⟩
  cases st with
  | declaration vs p =>
    rw [Statement.places]
    exact List.mem_cons_of_mem p (List.mem_map_of_mem hdeclared)
  | _ => cases hdeclared

/-- Of the body only the declarations are gone when its statements are checked. -/
theorem placesOf_hoisted_subset (m : Module) :
    placesOf m.hoisted.module.body ⊆ placesOf m.body := by
  rw [placesOf_eq_flatMap, placesOf_eq_flatMap]
  intro p hp
  obtain ⟨st, hst, hp⟩ := List.mem_flatMap.1 hp
  exact List.mem_flatMap.2 ⟨st, List.mem_of_mem_filter hst, hp⟩

/-- All errors of a module are at places noted in it, and right about what is wrong. -/
theorem justified_of_mem_report {signatures : Signatures}
    (h : error ∈ (m.hoisted.report signatures).errors) : error.Justified m.places := by
  rw [ScopedModule.report, List.mem_append, ScopedModule.errors, List.mem_append] at h
  obtain hhoist | hstatements | hmissing := h
  · exact (justified_of_mem_hoistErrors hhoist).mono m.placesOf_body_subset
  · refine (justified_of_mem_errorsOf _ hstatements).mono fun p hp => ?_
    exact m.placesOf_body_subset (m.placesOf_hoisted_subset hp)
  · split at hmissing
    · rw [List.mem_singleton.1 hmissing]
      exact ⟨List.mem_cons_self, trivial⟩
    · cases hmissing

end Module

end Seudocodigo
