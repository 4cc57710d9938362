import Seudocodigo.Proofs.Grammar.Order
import Seudocodigo.Proofs.Stack.Soundness
import Seudocodigo.Proofs.Statement.Rows

/-! What is known of every module of a text that compiles: its expressions are in order and its
statements have no errors. -/
namespace Seudocodigo

open Statement

theorem Program.exists_spelled {source : String} {p : Program} (h : ofSource source = .ok p) :
    ∃ ts, Spelled ts p := by
  rw [ofSource] at h
  split at h
  · cases h
  · next tokens _ =>
    cases ht : ofTokens tokens with
    | error e => rw [ht] at h; cases h
    | ok q =>
      rw [ht] at h
      cases h
      exact ⟨_, spelled_of_ofTokens ht⟩

/-- A text compiles if it spells a program without errors, and then all modules are lowered. -/
theorem exists_of_compile {source : String} {compiled : CompiledProgram}
    (h : compile source = .ok compiled) :
    ∃ p ts, Program.ofSource source = .ok p ∧ Program.Spelled ts p ∧ p.reports = [] ∧
      compiled = p.flow := by
  obtain ⟨p, hsource, hcompile⟩ := exists_of_bind_eq_ok h
  obtain ⟨ts, hspelled⟩ := Program.exists_spelled hsource
  rw [Program.compile] at hcompile
  split at hcompile
  · next hreports =>
    cases hcompile
    exact ⟨p, ts, hsource, hspelled, List.isEmpty_iff.1 hreports, rfl⟩
  · cases hcompile

def CompiledProgram.all (p : CompiledProgram) : List CompiledModule :=
  p.main :: p.modules.toList.map (·.2)

/-- What lies within statements lies within those that are left without the declarations. -/
theorem Statement.Within.filter {ss : List Statement} {st : Statement} (h : Within ss st)
    (hst : st.isDeclaration = false) : Within (ss.filter (!·.isDeclaration)) st := by
  induction h with
  | member hmem => exact .member (List.mem_filter.2 ⟨hmem, by rw [hst]; rfl⟩)
  | @inner outer u _ hmem ih =>
    refine .inner (ih ?_) hmem
    cases outer with
    | declaration => cases hmem
    | _ => rfl

theorem Calls.filter {ss : List Statement} {c : Call} (h : Calls ss c) :
    Calls (ss.filter (!·.isDeclaration)) c := by
  obtain hst | ⟨x, ⟨st, hst, e, he, hpart⟩, hc⟩ := h
  · exact .inl (hst.filter rfl)
  · refine .inr ⟨x, ⟨st, hst.filter ?_, e, he, hpart⟩, hc⟩
    cases st with
    | declaration => cases he
    | _ => rfl

namespace ScopedModule

variable {n : ScopedModule} {s : Signatures}

/-- The graph of a module is built as the plan of its statements says. -/
theorem compile_eq (n : ScopedModule) (s : Signatures) :
    (n.compile s).graph = ((planOf s n.module.body).build .empty).2 ∧
      (n.compile s).entry = ((planOf s n.module.body).build .empty).1.head := by
  rw [Plan.build_planOf]
  exact ⟨rfl, rfl⟩

/-- Every action in the graph comes from the plan. -/
theorem mem_actionsAt_compile {id : NodeId} {a : Action}
    (h : a ∈ (n.compile s).graph.actionsAt id) : a ∈ (planOf s n.module.body).actions := by
  rw [(n.compile_eq s).1] at h
  obtain hbefore | hplan := Plan.mem_actionsAt_build h
  · cases hbefore
  · exact hplan

end ScopedModule

namespace Program

variable {p : Program}

theorem exists_of_mem_all {m : CompiledModule} (hm : m ∈ p.flow.all) :
    ∃ n ∈ p.modules, m = n.hoisted.compile p.signatures := by
  cases List.mem_cons.1 hm with
  | inl he => exact ⟨p.main, List.mem_cons_self, he⟩
  | inr hmem =>
    obtain ⟨⟨name, callee⟩, hentry, rfl⟩ := List.mem_map.1 hmem
    have hfind := (NameMap.mem_iff_find? p.flow.modules.ascending).1 hentry
    obtain ⟨n, hn, -, he⟩ := exists_of_find?_flow hfind
    exact ⟨n, List.mem_cons_of_mem _ hn, he⟩

theorem Spelled.allPostorder_hoisted {ts : List Token} (h : Spelled ts p) {n : Module}
    (hn : n ∈ p.modules) : AllPostorder (expressionsOf n.hoisted.module.body) := by
  have hbody : expressionsOf n.hoisted.module.body = expressionsOf n.body :=
    expressionsOf_filter n.body
  rw [hbody]
  exact h.allPostorder hn

theorem reports_eq_nil (p : Program) : p.reports = [] ↔ ∀ m ∈ p.modules,
    m.hoisted.hoistErrors = [] ∧ m.hoisted.errors p.signatures = [] := by
  rw [reports, List.filter_eq_nil_iff, hoisted, List.map_map, List.forall_mem_map]
  simp [ScopedModule.report]

/-- The report of a module of a program without errors is empty. -/
theorem errors_of_reports (h : p.reports = []) {n : Module} (hn : n ∈ p.modules) :
    n.hoisted.errors p.signatures = [] :=
  (p.reports_eq_nil.1 h n hn).2

end Program
end Seudocodigo
