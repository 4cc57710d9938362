import Seudocodigo.Proofs.Expression.Settled
import Seudocodigo.Proofs.Stack.Checked

/-! The statements within statements. A counting loop is made of the two statements that it stands
for, so that what holds of the statements within a body holds of those which are lowered. -/
namespace Seudocodigo

namespace Statement

def inner : Statement → List Statement
  | .conditional _ thenBranch elseBranch _ => thenBranch ++ elseBranch
  | .whileLoop _ body _ | .untilLoop body _ _ => body
  | .counting l => [.assignment l.start, l.asWhile]
  | .declaration .. | .assignment _ | .call _ | .result .. => []

def own : Statement → List Expression
  | .declaration .. => []
  | .assignment a => a.expressions
  | .conditional condition _ _ _ | .whileLoop condition _ _ | .untilLoop _ condition _ =>
    [condition]
  | .counting l => [l.bound]
  | .call c => c.args
  | .result value _ => [value]

inductive Within (ss : List Statement) : Statement → Prop where
  | member {st : Statement} : st ∈ ss → Within ss st
  | inner {st u : Statement} : Within ss st → u ∈ st.inner → Within ss u

end Statement

open Statement

variable {ss : List Statement} {st : Statement}

/-- The expression is part of one that stands in the statements at any depth. -/
def Reaches (ss : List Statement) (x : Expression) : Prop :=
  ∃ st, Within ss st ∧ ∃ e ∈ st.own, e.Part x

/-- The call is one of the statements at any depth, or stands in an expression that they reach. -/
def Calls (ss : List Statement) (c : Call) : Prop :=
  Within ss (.call c) ∨ ∃ x, Reaches ss x ∧ .call c ∈ x.elements

theorem mem_expressionsOf {e : Expression} :
    e ∈ expressionsOf ss ↔ ∃ st ∈ ss, e ∈ st.expressions := by
  induction ss with
  | nil => rw [expressionsOf]; simp
  | cons st sts ih =>
    rw [expressionsOf, List.mem_append, ih]
    simp only [List.mem_cons, exists_eq_or_imp]

theorem allPostorder_expressionsOf :
    AllPostorder (expressionsOf ss) ↔ ∀ st ∈ ss, AllPostorder st.expressions := by
  simp only [AllPostorder, mem_expressionsOf]
  constructor
  · exact fun h st hst e he => h e ⟨st, hst, he⟩
  · intro h e he
    obtain ⟨st, hst, he⟩ := he
    exact h st hst e he

theorem errorsOf_eq_nil {Γ : Context} : errorsOf Γ ss = [] ↔ ∀ st ∈ ss, st.errors Γ = [] := by
  induction ss with
  | nil => rw [errorsOf]; simp
  | cons st sts ih => rw [errorsOf, List.append_eq_nil_iff, ih, List.forall_mem_cons]

theorem errorsOf_append {Γ : Context} (ss ts : List Statement) :
    errorsOf Γ (ss ++ ts) = errorsOf Γ ss ++ errorsOf Γ ts := by
  induction ss with
  | nil => rw [errorsOf]; rfl
  | cons st sts ih => rw [List.cons_append, errorsOf, errorsOf, ih, List.append_assoc]

/-! The expressions within are in order. -/

namespace AllPostorder

theorem own (h : AllPostorder st.expressions) : AllPostorder st.own := by
  cases st with
  | declaration | assignment | call | result => exact h
  | conditional =>
    rw [Statement.expressions] at h
    exact .cons (h _ (by simp)) .nil
  | whileLoop | untilLoop =>
    rw [Statement.expressions] at h
    exact .cons (h _ (by simp)) .nil
  | counting l =>
    obtain ⟨start, bound, body, q⟩ := l
    rw [Statement.expressions] at h
    exact .cons (h _ (by simp)) .nil

theorem asWhile {l : CountingLoop} (h : AllPostorder (Statement.counting l).expressions) :
    AllPostorder l.start.expressions ∧ AllPostorder l.asWhile.expressions := by
  obtain ⟨start, bound, body, q⟩ := l
  rw [Statement.expressions] at h
  obtain ⟨hfirst, hbody⟩ := List.forall_mem_append.1 h
  obtain ⟨hbound, hstart⟩ := List.forall_mem_cons.1 hfirst
  obtain ⟨-, htarget⟩ := List.forall_mem_cons.1 hstart
  refine ⟨hstart, ?_⟩
  have hincrement := CountingLoop.allPostorder_increment (l := ⟨start, bound, body, q⟩) htarget
  rw [CountingLoop.asWhile, Statement.expressions, expressionsOf_append, expressionsOf,
    expressionsOf, List.append_nil, Statement.expressions]
  exact .cons (CountingLoop.postorder_condition htarget hbound)
    (AllPostorder.append hbody hincrement)

theorem inner (h : AllPostorder st.expressions) : ∀ u ∈ st.inner, AllPostorder u.expressions := by
  cases st with
  | declaration | assignment | call | result => nofun
  | conditional _ thenBranch elseBranch _ =>
    rw [Statement.expressions] at h
    obtain ⟨hfirst, helse⟩ := List.forall_mem_append.1 h
    obtain ⟨-, hthen⟩ := List.forall_mem_cons.1 hfirst
    exact List.forall_mem_append.2
      ⟨allPostorder_expressionsOf.1 hthen, allPostorder_expressionsOf.1 helse⟩
  | whileLoop | untilLoop =>
    rw [Statement.expressions] at h
    obtain ⟨-, hbody⟩ := List.forall_mem_cons.1 h
    exact allPostorder_expressionsOf.1 hbody
  | counting l =>
    obtain ⟨hstart, hwhile⟩ := asWhile h
    exact List.forall_mem_cons.2 ⟨hstart, List.forall_mem_singleton.2 hwhile⟩

/-- All expressions that statements in order reach are in order. -/
theorem within (h : AllPostorder (expressionsOf ss)) (hst : Within ss st) :
    AllPostorder st.expressions := by
  induction hst with
  | member hmem => exact allPostorder_expressionsOf.1 h _ hmem
  | inner _ hu ih => exact ih.inner _ hu

theorem reaches (h : AllPostorder (expressionsOf ss)) {x : Expression} (hx : Reaches ss x) :
    Postorder x.elements := by
  obtain ⟨st, hst, e, he, hpart⟩ := hx
  exact hpart.postorder ((h.within hst).own e he)

end AllPostorder

/-! Nothing within is wrong if nothing is. -/

section Errors

variable {Γ : Context}

theorem Assignment.check_eq_ok {a : Assignment} {expected received : Ty}
    (ht : a.target.type Γ a.location = .ok expected) (hv : a.value.type Γ = .ok received)
    (haccepts : expected.accepts received = true) : a.check Γ = .ok () := by
  rw [Assignment.check, ht, hv]
  show (if _ then _ else _) = _
  rw [if_pos haccepts]
  rfl

theorem failure_of_ok {check : Except TypeError α} {a : α} (h : check = .ok a) :
    failure check = [] := by
  rw [h]
  rfl

/-- The two statements that a counting loop stands for are as good as the loop. -/
theorem CountingLoop.errors_asWhile {l : CountingLoop}
    (hpost : AllPostorder (Statement.counting l).expressions)
    (h : (Statement.counting l).errors Γ = []) :
    (Statement.assignment l.start).errors Γ = [] ∧ l.asWhile.errors Γ = [] := by
  have hbound : Postorder l.bound.elements := hpost.own l.bound List.mem_cons_self
  obtain ⟨start, bound, body, q⟩ := l
  rw [Statement.errors] at h
  obtain ⟨hheader, hbody⟩ := List.append_eq_nil_iff.1 h
  obtain ⟨hfirst, heb⟩ := List.append_eq_nil_iff.1 hheader
  obtain ⟨hecounter, hestart⟩ := List.append_eq_nil_iff.1 hfirst
  have hcounter := ok_of_require hecounter
  let l : CountingLoop := ⟨start, bound, body, q⟩
  have hcondition := CountingLoop.type_condition (l := l) hbound hcounter (ok_of_require heb)
  have hstep := Assignment.check_eq_ok (a := l.increment) (Access.type_location hcounter)
    (CountingLoop.type_increment (l := l) hcounter) rfl
  constructor
  · rw [Statement.errors]
    exact failure_of_ok
      (Assignment.check_eq_ok (Access.type_location hcounter) (ok_of_require hestart) rfl)
  · rw [asWhile, Statement.errors, errorsOf_append, hbody, errorsOf, errorsOf, Statement.errors,
      Expression.checkCondition, require, hcondition, failure_of_ok hstep]
    rfl

theorem errors_inner (hpost : AllPostorder st.expressions) (h : st.errors Γ = []) :
    ∀ u ∈ st.inner, u.errors Γ = [] := by
  cases st with
  | declaration | assignment | call | result => nofun
  | conditional =>
    rw [Statement.errors] at h
    obtain ⟨hfirst, helse⟩ := List.append_eq_nil_iff.1 h
    obtain ⟨-, hthen⟩ := List.append_eq_nil_iff.1 hfirst
    exact List.forall_mem_append.2 ⟨errorsOf_eq_nil.1 hthen, errorsOf_eq_nil.1 helse⟩
  | whileLoop | untilLoop =>
    rw [Statement.errors] at h
    exact errorsOf_eq_nil.1 (List.append_eq_nil_iff.1 h).2
  | counting l =>
    obtain ⟨hstart, hwhile⟩ := CountingLoop.errors_asWhile hpost h
    exact List.forall_mem_cons.2 ⟨hstart, List.forall_mem_singleton.2 hwhile⟩

theorem errors_within (hpost : AllPostorder (expressionsOf ss)) (h : errorsOf Γ ss = [])
    (hst : Within ss st) : st.errors Γ = [] := by
  induction hst with
  | member hmem => exact errorsOf_eq_nil.1 h _ hmem
  | inner hst hu ih => exact errors_inner (hpost.within hst) ih _ hu

theorem typed_of_checkCondition {e : Expression} (h : failure (e.checkCondition Γ) = []) :
    ∃ t, e.type Γ = .ok t :=
  ⟨_, ok_of_require h⟩

/-- What an assignment without errors consists of has types. -/
theorem Assignment.typed_of_check {a : Assignment} {u : Unit} (h : a.check Γ = .ok u) :
    (∃ t, a.target.type Γ a.location = .ok t) ∧ ∃ t, a.value.type Γ = .ok t := by
  obtain ⟨expected, ht, h⟩ := exists_of_bind_eq_ok h
  obtain ⟨received, hv, -⟩ := exists_of_bind_eq_ok h
  exact ⟨⟨expected, ht⟩, received, hv⟩

theorem typed_of_checkResult {value : Expression} {q : Location} {u : Unit}
    (h : checkResult Γ value q = .ok u) : Γ.returns?.isSome = true ∧ ∃ t, value.type Γ = .ok t := by
  rw [checkResult] at h
  split at h
  · cases h
  · next expected hreturns =>
    obtain ⟨t, ht, -⟩ := exists_of_bind_eq_ok h
    exact ⟨by rw [hreturns]; rfl, t, ht⟩

/-- The expressions of a statement without errors have types. -/
theorem typed_own (h : st.errors Γ = []) : ∀ e ∈ st.own, ∃ t, e.type Γ = .ok t := by
  cases st with
  | declaration => nofun
  | assignment a =>
    rw [Statement.errors] at h
    obtain ⟨u, hu⟩ := ok_of_failure h
    obtain ⟨⟨t, ht⟩, hv⟩ := Assignment.typed_of_check hu
    exact List.forall_mem_cons.2 ⟨hv, typed_of_accessType ht⟩
  | conditional condition _ _ _ =>
    rw [Statement.errors, List.append_assoc] at h
    exact List.forall_mem_singleton.2 (typed_of_checkCondition (List.append_eq_nil_iff.1 h).1)
  | whileLoop | untilLoop =>
    rw [Statement.errors] at h
    exact List.forall_mem_singleton.2 (typed_of_checkCondition (List.append_eq_nil_iff.1 h).1)
  | counting l =>
    obtain ⟨start, bound, body, q⟩ := l
    rw [Statement.errors] at h
    obtain ⟨hheader, -⟩ := List.append_eq_nil_iff.1 h
    exact List.forall_mem_singleton.2 ⟨_, ok_of_require (List.append_eq_nil_iff.1 hheader).2⟩
  | call c =>
    rw [Statement.errors] at h
    obtain ⟨u, hu⟩ := ok_of_failure h
    exact typed_of_callCheck hu
  | result value q =>
    rw [Statement.errors] at h
    obtain ⟨u, hu⟩ := ok_of_failure h
    exact List.forall_mem_singleton.2 (typed_of_checkResult hu).2

/-- Of statements without errors the checker has come to every expression that they reach. -/
theorem typed_of_reaches (hpost : AllPostorder (expressionsOf ss)) (h : errorsOf Γ ss = [])
    {x : Expression} (hx : Reaches ss x) : ∃ t, x.type Γ = .ok t := by
  obtain ⟨st, hst, e, he, hpart⟩ := hx
  exact hpart.typed (typed_own (errors_within hpost h hst) e he)

/-- Of statements without errors all calls have been checked. -/
theorem check_of_calls (hpost : AllPostorder (expressionsOf ss)) (h : errorsOf Γ ss = [])
    {c : Call} (hc : Calls ss c) : ∃ u, c.check Γ = .ok u := by
  obtain hst | ⟨x, hx, hmem⟩ := hc
  · have hcall := errors_within hpost h hst
    rw [Statement.errors] at hcall
    exact ok_of_failure hcall
  · have hpasses := Expression.passes_of_type (typed_of_reaches hpost h hx)
    exact Element.passes_call.1 (hpasses _ hmem)

end Errors

end Seudocodigo
