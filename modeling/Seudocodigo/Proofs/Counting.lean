import Seudocodigo.Proofs.Accepted
import Seudocodigo.Proofs.Flow.Regroup

/-! Counting loops written out. A program in which every counting loop has given way to the
assignment and the loop that it stands for is as well typed as before and compiles to the same
graphs. -/
namespace Seudocodigo

open Statement

mutual

/-- The statement without counting loops: each of them, at any depth, has given way to the start of
its counter and the loop behind it. -/
def Statement.expanded : Statement → List Statement
  | .declaration vs p => [.declaration vs p]
  | .assignment a => [.assignment a]
  | .call c => [.call c]
  | .result value p => [.result value p]
  | .conditional condition thenBranch elseBranch p =>
    [.conditional condition (expandedOf thenBranch) (expandedOf elseBranch) p]
  | .whileLoop condition body p => [.whileLoop condition (expandedOf body) p]
  | .untilLoop body condition p => [.untilLoop (expandedOf body) condition p]
  | .counting ⟨start, bound, body, p⟩ =>
    let l : CountingLoop := ⟨start, bound, expandedOf body, p⟩
    [.assignment l.start, l.asWhile]

def expandedOf : List Statement → List Statement
  | [] => []
  | st :: sts => st.expanded ++ expandedOf sts

end

def Module.expanded (m : Module) : Module := { m with body := expandedOf m.body }

def Program.expanded (p : Program) : Program := ⟨p.main.expanded, p.subprograms.map Module.expanded⟩

theorem expandedOf_append (ss ts : List Statement) :
    expandedOf (ss ++ ts) = expandedOf ss ++ expandedOf ts := by
  induction ss with
  | nil => rw [expandedOf]; rfl
  | cons st sts ih => rw [List.cons_append, expandedOf, expandedOf, ih, List.append_assoc]

/-! No counting loop is left. -/

theorem countingLoopsOf_append (ss ts : List Statement) :
    countingLoopsOf (ss ++ ts) = countingLoopsOf ss ++ countingLoopsOf ts := by
  induction ss with
  | nil => rw [countingLoopsOf]; rfl
  | cons st sts ih => rw [List.cons_append, countingLoopsOf, countingLoopsOf, ih, List.append_assoc]

mutual

theorem countingLoopsOf_expanded (st : Statement) : countingLoopsOf st.expanded = [] := by
  cases st with
  | declaration | assignment | call | result =>
    rw [Statement.expanded, countingLoopsOf, countingLoopsOf, Statement.countingLoops]
    rfl
  | conditional _ thenBranch elseBranch _ =>
    rw [Statement.expanded, countingLoopsOf, countingLoopsOf, Statement.countingLoops,
      countingLoopsOf_expandedOf thenBranch, countingLoopsOf_expandedOf elseBranch]
    rfl
  | whileLoop _ body _ | untilLoop body _ _ =>
    rw [Statement.expanded, countingLoopsOf, countingLoopsOf, Statement.countingLoops,
      countingLoopsOf_expandedOf body]
    rfl
  | counting l =>
    obtain ⟨start, bound, body, p⟩ := l
    simp only [Statement.expanded, CountingLoop.asWhile, countingLoopsOf, Statement.countingLoops,
      countingLoopsOf_append, countingLoopsOf_expandedOf body, List.append_nil]

theorem countingLoopsOf_expandedOf (ss : List Statement) :
    countingLoopsOf (expandedOf ss) = [] := by
  cases ss with
  | nil => rw [expandedOf, countingLoopsOf]
  | cons st sts =>
    rw [expandedOf, countingLoopsOf_append, countingLoopsOf_expanded st,
      countingLoopsOf_expandedOf sts]
    rfl

end

/-! The graphs are the same. -/

section Flow

variable (s : Signatures)

open Plan

theorem build_planOf_append (ss ts : List Statement) :
    (planOf s (ss ++ ts)).build = ((planOf s ss).seq (planOf s ts)).build := by
  induction ss with
  | nil => rw [planOf, build_nothing_seq]; rfl
  | cons st sts ih =>
    rw [List.cons_append, planOf, planOf, build_seq_assoc, build, ih]
    rfl

theorem build_planOf_singleton (st : Statement) : (planOf s [st]).build = (st.plan s).build := by
  rw [planOf, planOf, build_seq_nothing]

mutual

theorem build_planOf_expanded (st : Statement) :
    (planOf s st.expanded).build = (st.plan s).build := by
  cases st with
  | declaration | assignment | call | result =>
    rw [Statement.expanded, build_planOf_singleton]
  | conditional _ thenBranch elseBranch _ =>
    rw [Statement.expanded, build_planOf_singleton, Statement.plan, Statement.plan, build, build,
      build_planOf_expandedOf thenBranch, build_planOf_expandedOf elseBranch]
  | whileLoop _ body _ | untilLoop body _ _ =>
    rw [Statement.expanded, build_planOf_singleton, Statement.plan, Statement.plan, build, build,
      build_planOf_expandedOf body]
  | counting l =>
    obtain ⟨start, bound, body, p⟩ := l
    let l : CountingLoop := ⟨start, bound, body, p⟩
    have hbody : (planOf s (expandedOf body ++ [.assignment l.increment])).build =
        ((planOf s body).seq (.straight (l.increment.code s))).build := by
      rw [build_planOf_append, build, build, build_planOf_singleton, build_planOf_expandedOf body,
        Statement.plan]
    have hloop : (CountingLoop.asWhile ⟨start, bound, expandedOf body, p⟩ |>.plan s).build =
        (Plan.loop .whileLoop (l.condition.code s)
          ((planOf s body).seq (.straight (l.increment.code s)))).build := by
      rw [CountingLoop.asWhile, Statement.plan, build, build, ← hbody]
      rfl
    rw [Statement.expanded, planOf, build, build_planOf_singleton, hloop, Statement.plan,
      Statement.plan, build]

theorem build_planOf_expandedOf (ss : List Statement) :
    (planOf s (expandedOf ss)).build = (planOf s ss).build := by
  cases ss with
  | nil => rw [expandedOf]
  | cons st sts =>
    rw [expandedOf, build_planOf_append, planOf, build, build, build_planOf_expanded st,
      build_planOf_expandedOf sts]

end

/-- Statements with their counting loops written out are lowered to the same nodes. -/
theorem flowOf_expandedOf (ss : List Statement) :
    (flowOf s (expandedOf ss) : Build Chain) = flowOf s ss := by
  rw [← build_planOf, build_planOf_expandedOf, build_planOf]

end Flow

/-! No type errors come up. -/

section Errors

variable {Γ : Context}

mutual

theorem errorsOf_expanded (st : Statement) (hpost : AllPostorder st.expressions)
    (h : st.errors Γ = []) : errorsOf Γ st.expanded = [] := by
  cases st with
  | declaration | assignment | call | result =>
    rw [Statement.expanded]
    exact errorsOf_eq_nil.2 (List.forall_mem_singleton.2 h)
  | conditional condition thenBranch elseBranch _ =>
    rw [Statement.expressions] at hpost
    rw [Statement.errors] at h
    obtain ⟨hfirst, helse⟩ := List.append_eq_nil_iff.1 h
    obtain ⟨hcondition, hthen⟩ := List.append_eq_nil_iff.1 hfirst
    obtain ⟨hpost, hpostElse⟩ := List.forall_mem_append.1 hpost
    obtain ⟨-, hpostThen⟩ := List.forall_mem_cons.1 hpost
    rw [Statement.expanded, errorsOf, errorsOf, Statement.errors, hcondition,
      errorsOf_expandedOf thenBranch hpostThen hthen,
      errorsOf_expandedOf elseBranch hpostElse helse]
    rfl
  | whileLoop condition body _ | untilLoop body condition _ =>
    rw [Statement.expressions] at hpost
    rw [Statement.errors] at h
    obtain ⟨hcondition, hbody⟩ := List.append_eq_nil_iff.1 h
    obtain ⟨-, hpost⟩ := List.forall_mem_cons.1 hpost
    rw [Statement.expanded, errorsOf, errorsOf, Statement.errors, hcondition,
      errorsOf_expandedOf body hpost hbody]
    rfl
  | counting l =>
    -- the header and the step of the loop are judged without regard to its body
    obtain ⟨hstart, hwhile⟩ := CountingLoop.errors_asWhile hpost h
    obtain ⟨start, bound, body, p⟩ := l
    rw [CountingLoop.asWhile, Statement.errors] at hwhile
    obtain ⟨hcondition, hturn⟩ := List.append_eq_nil_iff.1 hwhile
    rw [errorsOf_append] at hturn
    obtain ⟨hbody, hstep⟩ := List.append_eq_nil_iff.1 hturn
    rw [Statement.expressions] at hpost
    obtain ⟨-, hpost⟩ := List.forall_mem_append.1 hpost
    have hexpanded : (CountingLoop.asWhile ⟨start, bound, expandedOf body, p⟩).errors Γ = [] := by
      rw [CountingLoop.asWhile, Statement.errors, errorsOf_append,
        errorsOf_expandedOf body hpost hbody]
      exact List.append_eq_nil_iff.2 ⟨hcondition, hstep⟩
    rw [Statement.expanded]
    exact errorsOf_eq_nil.2 (List.forall_mem_cons.2 ⟨hstart, List.forall_mem_singleton.2 hexpanded⟩)

theorem errorsOf_expandedOf (ss : List Statement) (hpost : AllPostorder (expressionsOf ss))
    (h : errorsOf Γ ss = []) : errorsOf Γ (expandedOf ss) = [] := by
  cases ss with
  | nil => rw [expandedOf, errorsOf]
  | cons st sts =>
    rw [expressionsOf] at hpost
    rw [errorsOf] at h
    obtain ⟨hfirst, hrest⟩ := List.append_eq_nil_iff.1 h
    obtain ⟨hpost, hpost'⟩ := List.forall_mem_append.1 hpost
    rw [expandedOf, errorsOf_append, errorsOf_expanded st hpost hfirst,
      errorsOf_expandedOf sts hpost' hrest]
    rfl

end

end Errors

/-! The declarations are the same. -/

namespace Statement

theorem declared_expanded (st : Statement) : st.expanded.flatMap declared = st.declared := by
  cases st with
  | declaration vs p =>
    rw [expanded]
    exact List.append_nil _
  | counting l =>
    obtain ⟨start, bound, body, p⟩ := l
    rw [expanded]
    rfl
  | _ =>
    rw [expanded]
    rfl

theorem isDeclaration_expanded (st : Statement) :
    ∀ u ∈ st.expanded, u.isDeclaration = st.isDeclaration := by
  cases st with
  | counting l =>
    obtain ⟨start, bound, body, p⟩ := l
    rw [expanded]
    exact List.forall_mem_cons.2 ⟨rfl, List.forall_mem_singleton.2 rfl⟩
  | _ =>
    rw [expanded]
    exact List.forall_mem_singleton.2 rfl

end Statement

theorem declared_expandedOf (ss : List Statement) :
    (expandedOf ss).flatMap declared = ss.flatMap declared := by
  induction ss with
  | nil => rw [expandedOf]
  | cons st sts ih =>
    rw [expandedOf, List.flatMap_append, List.flatMap_cons, ih, st.declared_expanded]

theorem filter_expandedOf (ss : List Statement) :
    (expandedOf ss).filter (!·.isDeclaration) = expandedOf (ss.filter (!·.isDeclaration)) := by
  induction ss with
  | nil => rw [expandedOf]; rfl
  | cons st sts ih =>
    have hall := st.isDeclaration_expanded
    rw [expandedOf, List.filter_append, ih, List.filter_cons]
    cases hst : st.isDeclaration with
    | true =>
      rw [hst] at hall
      rw [List.filter_eq_nil_iff.2 fun u hu => by rw [hall u hu]; exact Bool.false_ne_true]
      rfl
    | false =>
      rw [hst] at hall
      rw [List.filter_eq_self.2 fun u hu => by rw [hall u hu]; rfl]
      show _ = expandedOf (st :: _)
      rw [expandedOf]

namespace Module

variable (m : Module)

/-- What is hoisted from a module does not depend on its counting loops. -/
theorem hoisted_expanded : m.expanded.hoisted =
    ⟨{ m.hoisted.module with body := expandedOf m.hoisted.module.body }, m.hoisted.scope,
      m.hoisted.hoistErrors⟩ := by
  have hbody := filter_expandedOf m.body
  rw [hoisted, hoisted, hoist, hoist, expanded]
  dsimp only
  rw [declared_expandedOf, hbody]

/-- Written out, a module ends by returning a result if it did so before. -/
theorem endsWithResult_expanded :
    m.expanded.hoisted.endsWithResult = m.hoisted.endsWithResult := by
  rw [hoisted_expanded, ScopedModule.endsWithResult, ScopedModule.endsWithResult]
  dsimp only
  obtain hnil | ⟨ss, st, hss⟩ := m.hoisted.module.body.eq_nil_or_concat
  · rw [hnil, expandedOf]
  · rw [hss, List.concat_eq_append, expandedOf_append, expandedOf, expandedOf, List.append_nil]
    cases st with
    | counting l =>
      obtain ⟨start, bound, body, p⟩ := l
      simp [Statement.expanded, CountingLoop.asWhile]
    | _ => simp [Statement.expanded]

theorem errors_expanded {s : Signatures}
    (hpost : AllPostorder (expressionsOf m.hoisted.module.body))
    (h : m.hoisted.errors s = []) : m.expanded.hoisted.errors s = [] := by
  rw [ScopedModule.errors] at h ⊢
  obtain ⟨herrors, hresult⟩ := List.append_eq_nil_iff.1 h
  rw [m.endsWithResult_expanded, hoisted_expanded]
  exact List.append_eq_nil_iff.2 ⟨errorsOf_expandedOf _ hpost herrors, hresult⟩

theorem compile_hoisted_expanded (s : Signatures) :
    m.expanded.hoisted.compile s = m.hoisted.compile s := by
  rw [hoisted_expanded, ScopedModule.compile, ScopedModule.compile]
  dsimp only
  rw [flowOf_expandedOf]

end Module

namespace Program

variable (p : Program)

theorem countingLoops_expanded : p.expanded.countingLoops = [] := by
  refine List.flatMap_eq_nil_iff.2 fun m hm => ?_
  have hmem : ∃ n, m = Module.expanded n := by
    obtain rfl | hm := List.mem_cons.1 hm
    · exact ⟨p.main, rfl⟩
    · obtain ⟨n, -, rfl⟩ := List.mem_map.1 hm
      exact ⟨n, rfl⟩
  obtain ⟨n, rfl⟩ := hmem
  exact countingLoopsOf_expandedOf n.body

theorem signatures_expanded : p.expanded.signatures = p.signatures := by
  rw [signatures, signatures, expanded, List.map_map]
  rfl

/-- Nothing that is compiled depends on counting loops being written out or not, whether or not
there are type errors. -/
theorem flow_expanded : p.expanded.flow = p.flow := by
  have hmodule (m : Module) : m.expanded.hoisted.compile p.signatures =
      m.hoisted.compile p.signatures := m.compile_hoisted_expanded p.signatures
  rw [flow, flow, signatures_expanded, expanded, List.map_map, hmodule]
  exact congrArg (fun entries => CompiledProgram.mk _ (.ofList entries))
    (List.map_congr_left fun m _ => congrArg (Prod.mk m.name) (hmodule m))

theorem reports_expanded {ts : List Token} (hspelled : Spelled ts p) (h : p.reports = []) :
    p.expanded.reports = [] := by
  have hmodule : ∀ m ∈ p.modules, m.expanded.hoisted.hoistErrors = [] ∧
      m.expanded.hoisted.errors p.signatures = [] := by
    intro m hm
    obtain ⟨hhoist, herrors⟩ := p.reports_eq_nil.1 h m hm
    refine ⟨?_, m.errors_expanded (hspelled.allPostorder_hoisted hm) herrors⟩
    rw [m.hoisted_expanded]
    exact hhoist
  rw [reports_eq_nil, signatures_expanded]
  show ∀ m ∈ p.main.expanded :: p.subprograms.map Module.expanded, _
  rw [List.forall_mem_cons, List.forall_mem_map]
  exact List.forall_mem_cons.1 hmodule

end Program

/-- Of a text that compiles, take the program and write out all of its counting loops, also those in
the bodies of others. No counting loop is left, there are no type errors, and the program compiles
to just what the text does. -/
theorem compile_expanded {source : String} {compiled : CompiledProgram}
    (h : compile source = .ok compiled) :
    ∃ p, Program.ofSource source = .ok p ∧ p.expanded.countingLoops = [] ∧
      p.expanded.reports = [] ∧ p.expanded.flow = compiled := by
  obtain ⟨p, ts, hsource, hspelled, hreports, rfl⟩ := exists_of_compile h
  exact ⟨p, hsource, p.countingLoops_expanded, p.reports_expanded hspelled hreports,
    p.flow_expanded⟩

def nestedCounting : String :=
  "variables\nentero a[3], i\ninicio\npara i <- 1 hasta 3\npara a[i] <- i hasta 2 * i + 1\n"
    ++ "escribir(a[i])\nfinpara\nfinpara\nfin\n"

theorem compile_expanded_nested : ∃ compiled, compile nestedCounting = .ok compiled ∧
    ∃ p, Program.ofSource nestedCounting = .ok p ∧ p.countingLoops.length = 2 ∧
      p.expanded.countingLoops = [] ∧ p.expanded.reports = [] ∧ p.expanded.flow = compiled := by
  have hloops : (match Program.ofSource nestedCounting with
      | .ok p => p.countingLoops.length
      | .error _ => 0) = 2 := by decide +kernel
  have hcompiles : (compile nestedCounting).toBool = true := by decide +kernel
  cases hc : compile nestedCounting with
  | error e => rw [hc] at hcompiles; cases hcompiles
  | ok compiled =>
    obtain ⟨p, hp, hnone, hreports, hflow⟩ := compile_expanded hc
    rw [hp] at hloops
    exact ⟨compiled, rfl, p, hp, hloops, hnone, hreports, hflow⟩

end Seudocodigo
