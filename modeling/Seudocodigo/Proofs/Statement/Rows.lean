import Seudocodigo.Proofs.Expression.Emission
import Seudocodigo.Proofs.Flow.Actions
import Seudocodigo.Proofs.Statement.Within

/-! The rows of actions that statements turn into. The actions of a plan are those of the statements
within, and every expression and call of a statement within has its actions in a row of the plan. -/
namespace Seudocodigo

open Statement

namespace Statement

/-- The actions of the statement itself: in a row if it is simple, those of its condition if it
tests one. -/
def row (s : Signatures) : Statement → List Action
  | .assignment a => a.code s
  | .call c => c.statementCode s
  | .result value _ => value.code s ++ [.result]
  | .conditional condition _ _ _ | .whileLoop condition _ _ => condition.code s
  | .untilLoop _ condition _ => condition.code s ++ [.apply .not]
  | .declaration .. | .counting _ => []

/-- What lies in the inner statements of one within lies within. -/
theorem Within.trans {ss : List Statement} {st u : Statement} (hst : Within ss st)
    (hu : Within st.inner u) : Within ss u := by
  induction hu with
  | member hmem => exact .inner hst hmem
  | inner _ hmem ih => exact .inner ih hmem

theorem Within.mono {ss ts : List Statement} {u : Statement} (h : Within ss u)
    (hsub : ∀ st ∈ ss, st ∈ ts) : Within ts u := by
  induction h with
  | member hmem => exact .member (hsub _ hmem)
  | inner _ hmem ih => exact .inner ih hmem

end Statement

section Actions

variable {s : Signatures} {a : Action}

mutual

theorem exists_of_mem_plan (st : Statement) (h : a ∈ (st.plan s).actions) :
    a ∈ st.row s ∨ ∃ u, Within st.inner u ∧ a ∈ u.row s := by
  cases st with
  | declaration => rw [Statement.plan] at h; cases h
  | assignment | call | result =>
    rw [Statement.plan, Plan.actions_straight] at h
    exact .inl h
  | conditional condition thenBranch elseBranch _ =>
    rw [Statement.plan, Plan.actions, List.mem_append, List.mem_append] at h
    obtain (hcondition | hthen) | helse := h
    · exact .inl hcondition
    · obtain ⟨u, hu, ha⟩ := exists_of_mem_planOf thenBranch hthen
      exact .inr ⟨u, hu.mono fun _ => List.mem_append_left _, ha⟩
    · obtain ⟨u, hu, ha⟩ := exists_of_mem_planOf elseBranch helse
      exact .inr ⟨u, hu.mono fun _ => List.mem_append_right _, ha⟩
  | whileLoop condition body _ =>
    rw [Statement.plan, Plan.actions, List.mem_append] at h
    exact h.imp_right (exists_of_mem_planOf body)
  | untilLoop body condition _ =>
    rw [Statement.plan, Plan.actions, List.mem_append] at h
    exact h.imp_right (exists_of_mem_planOf body)
  | counting l =>
    obtain ⟨start, bound, body, q⟩ := l
    let l : CountingLoop := ⟨start, bound, body, q⟩
    have hwhile : Within (Statement.counting l).inner l.asWhile :=
      .member (by simp [Statement.inner])
    simp only [Statement.plan, Plan.actions, Plan.actions_straight, List.mem_append] at h
    obtain hstart | hcondition | hbody | hstep := h
    · exact .inr ⟨_, .member List.mem_cons_self, hstart⟩
    · exact .inr ⟨_, hwhile, hcondition⟩
    · obtain ⟨u, hu, ha⟩ := exists_of_mem_planOf body hbody
      exact .inr ⟨u, hwhile.trans (hu.mono fun _ => List.mem_append_left _), ha⟩
    · have hlast : Within l.asWhile.inner (.assignment l.increment) :=
        .member (List.mem_append_right _ List.mem_cons_self)
      exact .inr ⟨_, hwhile.trans hlast, hstep⟩

/-- Every action of a plan comes from a statement within. -/
theorem exists_of_mem_planOf (ss : List Statement) (h : a ∈ (planOf s ss).actions) :
    ∃ st, Within ss st ∧ a ∈ st.row s := by
  cases ss with
  | nil => rw [planOf] at h; cases h
  | cons st sts =>
    rw [planOf, Plan.actions, List.mem_append] at h
    obtain hfirst | hrest := h
    · obtain ha | ⟨u, hu, ha⟩ := exists_of_mem_plan st hfirst
      · exact ⟨st, .member List.mem_cons_self, ha⟩
      · exact ⟨u, (Within.member List.mem_cons_self).trans hu, ha⟩
    · obtain ⟨u, hu, ha⟩ := exists_of_mem_planOf sts hrest
      exact ⟨u, hu.mono fun _ => List.mem_cons_of_mem _, ha⟩

end

end Actions

section Rows

variable {s : Signatures} {as : List Action} {ss : List Statement} {st : Statement}

open Plan

theorem has_planOf_of_mem (hst : st ∈ ss) (h : Has as (st.plan s)) : Has as (planOf s ss) := by
  induction ss with
  | nil => cases hst
  | cons first rest ih =>
    rw [planOf]
    cases List.mem_cons.1 hst with
    | inl he => exact .left (he ▸ h)
    | inr hrest => exact .right (ih hrest)

/-- The plan of a statement is never a single action without an end. -/
theorem plan_ne_action (st : Statement) (b : Action) : st.plan s ≠ .action b := by
  have hstraight (bs : List Action) : Plan.straight bs ≠ .action b := by cases bs <;> nofun
  cases st with
  | declaration | conditional | whileLoop | untilLoop => rw [Statement.plan]; nofun
  | assignment | call | result => rw [Statement.plan]; exact hstraight _
  | counting l =>
    obtain ⟨start, bound, body, q⟩ := l
    rw [Statement.plan]
    nofun

theorem has_planOf_cons {sts : List Statement} (h : Has as (planOf s (st :: sts))) :
    Has as (st.plan s) ∨ Has as (planOf s sts) := by
  rw [planOf] at h
  cases h with
  | left hfirst => exact .inl hfirst
  | right hrest => exact .inr hrest
  | straight he =>
    cases as with
    | nil => cases he
    | cons b bs => exact absurd (Plan.seq.inj he).1 (plan_ne_action st b)

theorem exists_of_has_planOf (h : Has as (planOf s ss)) (hne : as ≠ []) :
    ∃ st ∈ ss, Has as (st.plan s) := by
  induction ss with
  | nil =>
    rw [planOf] at h
    cases h with
    | straight he => cases as with
      | nil => exact absurd rfl hne
      | cons => cases he
  | cons st sts ih =>
    obtain hfirst | hrest := has_planOf_cons h
    · exact ⟨st, List.mem_cons_self, hfirst⟩
    · obtain ⟨u, hu, hhas⟩ := ih hrest
      exact ⟨u, List.mem_cons_of_mem _ hu, hhas⟩

/-- A row of the loop that a counting loop stands for is a row of the counting loop. -/
theorem has_counting_of_asWhile {l : CountingLoop} (h : Has as (l.asWhile.plan s)) (hne : as ≠ []) :
    Has as ((Statement.counting l).plan s) := by
  obtain ⟨start, bound, body, q⟩ := l
  rw [CountingLoop.asWhile, Statement.plan] at h
  rw [Statement.plan]
  cases h with
  | straight he => cases as <;> cases he
  | test => exact .right .test
  | turn hbody =>
    obtain ⟨st, hst, hhas⟩ := exists_of_has_planOf hbody hne
    cases List.mem_append.1 hst with
    | inl hmem => exact .right (.turn (.left (has_planOf_of_mem hmem hhas)))
    | inr hmem =>
      rw [List.mem_singleton.1 hmem, Statement.plan] at hhas
      exact .right (.turn (.right hhas))

theorem has_plan_of_inner {u : Statement} (hu : u ∈ st.inner) (h : Has as (u.plan s))
    (hne : as ≠ []) : Has as (st.plan s) := by
  cases st with
  | declaration | assignment | call | result => cases hu
  | conditional =>
    rw [Statement.plan]
    cases List.mem_append.1 hu with
    | inl hthen => exact .thenPart (has_planOf_of_mem hthen h)
    | inr helse => exact .elsePart (has_planOf_of_mem helse h)
  | whileLoop | untilLoop => rw [Statement.plan]; exact .turn (has_planOf_of_mem hu h)
  | counting l =>
    cases List.mem_cons.1 hu with
    | inl he =>
      obtain ⟨start, bound, body, q⟩ := l
      rw [he, Statement.plan] at h
      rw [Statement.plan]
      exact .left h
    | inr hwhile =>
      rw [List.mem_singleton.1 hwhile] at h
      exact has_counting_of_asWhile h hne

theorem has_plan_row (hne : st.row s ≠ []) : Has (st.row s) (st.plan s) := by
  cases st with
  | declaration | counting => exact absurd rfl hne
  | assignment | call | result => rw [Statement.plan]; exact .straight rfl
  | conditional => rw [Statement.plan]; exact .choice
  | whileLoop | untilLoop => rw [Statement.plan]; exact .test

/-- The row of every statement within stands in the plan in one piece. -/
theorem has_row_of_within (hst : Within ss st) (hne : st.row s ≠ []) :
    Has (st.row s) (planOf s ss) := by
  have hlift : ∀ {u}, Within ss u → Has (st.row s) (u.plan s) → Has (st.row s) (planOf s ss) := by
    intro u hu
    induction hu with
    | member hmem => exact has_planOf_of_mem hmem
    | inner _ hmem ih => exact fun h => ih (has_plan_of_inner hmem h hne)
  exact hlift hst (has_plan_row hne)

/-! The expressions and calls of a statement within have their actions in a row. -/

theorem Assignment.occurs {a : Assignment} : ∀ e ∈ a.expressions, e.Occurs s (a.code s) := by
  rw [Assignment.code, List.append_assoc]
  refine List.forall_mem_cons.2 ⟨?_, fun e he => ?_⟩
  · exact a.value.occurs_code.mono (List.prefix_append ..).isInfix
  · exact (Expression.occurs_indexCode he).mono (List.infix_append' ..)

theorem Call.infix_statementCode (c : Call) : c.code s <:+: c.statementCode s :=
  (List.prefix_append ..).isInfix

/-- The bound of a counting loop is not evaluated by itself but in the condition. -/
theorem CountingLoop.occurs_bound (l : CountingLoop) : l.bound.Occurs s (l.condition.code s) :=
  fun el hel => l.condition.occurs_code el
    (List.mem_cons_of_mem _ (List.mem_append_left _ hel))

/-- The expressions of a statement within occur in the row of one. -/
theorem exists_row_of_own (hst : Within ss st) {e : Expression} (he : e ∈ st.own) :
    ∃ u, Within ss u ∧ e.Occurs s (u.row s) := by
  cases st with
  | declaration => cases he
  | assignment a => exact ⟨_, hst, Assignment.occurs e he⟩
  | call c =>
    have hargs : argumentCode s c.name 0 c.args <:+: c.code s := by
      rw [Call.code_eq]
      exact (List.prefix_append ..).isInfix
    exact ⟨_, hst, (Expression.occurs_argumentCode he).mono (hargs.trans c.infix_statementCode)⟩
  | conditional | whileLoop =>
    rw [List.mem_singleton.1 he]
    exact ⟨_, hst, Expression.occurs_code _⟩
  | result | untilLoop =>
    rw [List.mem_singleton.1 he]
    exact ⟨_, hst, (Expression.occurs_code _).mono (List.prefix_append ..).isInfix⟩
  | counting l =>
    rw [List.mem_singleton.1 he]
    exact ⟨l.asWhile, hst.inner (List.mem_cons_of_mem _ List.mem_cons_self), l.occurs_bound⟩

theorem infix_row_of_calls {c : Call} (hc : Calls ss c) :
    ∃ u, Within ss u ∧ c.code s <:+: u.row s := by
  obtain hst | ⟨x, ⟨st, hst, e, he, hpart⟩, hmem⟩ := hc
  · exact ⟨_, hst, c.infix_statementCode⟩
  · obtain ⟨u, hu, hoccurs⟩ := exists_row_of_own hst he
    exact ⟨u, hu, (hpart.occurs hoccurs _ hmem).2 c rfl⟩

/-- The actions of every call stand in the graph in one piece. -/
theorem carries_of_calls {c : Call} (hc : Calls ss c) (g : Graph) :
    ((planOf s ss).build g).2.Carries (c.code s) := by
  obtain ⟨u, hu, hin⟩ := infix_row_of_calls hc
  have hne : u.row s ≠ [] := by
    intro hnil
    rw [hnil, List.infix_nil, Call.code_eq] at hin
    simp at hin
  exact ((has_row_of_within hu hne).carries g).of_part hin

end Rows

end Seudocodigo
