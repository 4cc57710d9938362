import Seudocodigo.Proofs.Accepted

/-! Names in compiled programs: the actions of a module name its variables and the modules that
there are. -/
namespace Seudocodigo

open Statement

def CompiledModule.Declares (m : CompiledModule) (name : String) (indices : Nat) : Prop :=
  ∃ v, m.scope.find? name = some v ∧ indices ≤ v.dims.length

/-- There is a module of the name, built in or compiled, that takes as many arguments. The main
module is not among those that can be called. -/
def CompiledProgram.Answers (p : CompiledProgram) (name : String) (args : Nat) : Prop :=
  name ∈ Module.builtins ∨ name ≠ Module.mainName ∧
    ∃ callee, p.modules.find? name = some callee ∧ callee.parameters.length = args

def Action.Resolves (p : CompiledProgram) (m : CompiledModule) : Action → Prop
  | .load name => m.Declares name 0
  | .subscript name indices | .reference name indices | .assign name indices =>
    m.Declares name indices
  | .call name args => p.Answers name args
  | .push _ | .apply _ | .discard | .result => True

/-- Whatever has a signature can be called with the parameters of the signature. -/
def CompiledProgram.Announces (p : CompiledProgram) (s : Signatures) : Prop :=
  ∀ {name sig}, s.find? name = some sig → p.Answers name sig.parameters.length

section Resolve

variable {Γ : Context} {p : CompiledProgram} {m : CompiledModule} {s : Signatures}

theorem CompiledModule.Hosts.declares (hm : m.Hosts Γ) {a : Access} {q : Location} {t : Ty}
    (h : a.type Γ q = .ok t) : m.Declares a.name a.indices.length := by
  obtain ⟨v, hv, hle, -⟩ := Access.exists_of_type h
  have hvar := hm.scope a.name
  rw [hv, Option.map_some] at hvar
  obtain ⟨w, hw, hvw⟩ := Option.map_eq_some_iff.1 hvar
  refine ⟨w, hw, ?_⟩
  rw [hvw]
  exact hle

theorem CompiledProgram.Announces.answers (hp : p.Announces Γ.signatures) {c : Call} {u : Unit}
    (h : c.check Γ = .ok u) : p.Answers c.name c.args.length := by
  obtain ⟨hname, -⟩ | ⟨-, sig, hsig, hlen, -⟩ := c.check_cases h
  · exact .inl (List.contains_iff_mem.1 hname)
  · rw [hlen]
    exact hp hsig

variable (hp : p.Announces Γ.signatures) (hm : m.Hosts Γ)

include hp hm

/-- The actions of an element that passes resolve. To refer to a variable takes the same as to read
it. -/
theorem Element.Passes.resolves {el : Element} (h : el.Passes Γ) :
    ∀ a ∈ el.ownActions, a.Resolves p m := by
  cases el with
  | literal | operator => exact List.forall_mem_singleton.2 trivial
  | access a =>
    obtain ⟨q, t, ht⟩ := Element.passes_access.1 h
    have hdeclares := hm.declares ht
    refine List.forall_mem_cons.2 ⟨?_, List.forall_mem_singleton.2 hdeclares⟩
    obtain ⟨name, indices⟩ := a
    cases indices <;> exact hdeclares
  | call c =>
    obtain ⟨u, hu⟩ := Element.passes_call.1 h
    exact List.forall_mem_singleton.2 (hp.answers hu)

theorem resolves_codeOf {es : List Element} (hpost : Postorder es) (h : ∀ el ∈ es, el.Passes Γ) :
    ∀ a ∈ codeOf Γ.signatures es, a.Resolves p m :=
  forall_codeOf (fun _ hel => hel.resolves hp hm) (fun _ hel _ he => hel.inner he) hpost h

theorem Expression.resolves_code {e : Expression} (hpost : Postorder e.elements)
    (h : ∃ t, e.type Γ = .ok t) : ∀ a ∈ e.code Γ.signatures, a.Resolves p m := by
  rw [Expression.code_eq]
  exact resolves_codeOf hp hm hpost (Expression.passes_of_type h)

theorem resolves_assignment {a : Assignment} (hpost : AllPostorder a.expressions) {u : Unit}
    (h : a.check Γ = .ok u) : ∀ b ∈ a.code Γ.signatures, b.Resolves p m := by
  obtain ⟨⟨t, ht⟩, hv⟩ := Assignment.typed_of_check h
  obtain ⟨hvalue, htarget⟩ := List.forall_mem_cons.1 hpost
  have hindices : ∀ b ∈ indexCode Γ.signatures a.target.indices, b.Resolves p m :=
    forall_indexCode fun e he => resolves_codeOf hp hm (htarget e he)
      (Expression.passes_of_type (typed_of_accessType ht e he))
  rw [Assignment.code, List.append_assoc]
  exact List.forall_mem_append.2 ⟨Expression.resolves_code hp hm hvalue hv,
    List.forall_mem_append.2 ⟨hindices, List.forall_mem_singleton.2 (hm.declares ht)⟩⟩

theorem resolves_statementCode {c : Call} (hpost : AllPostorder c.args)
    (h : (Element.call c).Passes Γ) : ∀ b ∈ c.statementCode Γ.signatures, b.Resolves p m := by
  have hcode := resolves_codeOf hp hm (.call hpost) (List.forall_mem_singleton.2 h)
  rw [codeOf_call] at hcode
  rw [Call.statementCode]
  refine List.forall_mem_append.2 ⟨hcode, ?_⟩
  split
  · exact List.forall_mem_singleton.2 trivial
  · exact fun _ hb => absurd hb List.not_mem_nil

/-- The row of a statement without errors resolves. -/
theorem resolves_row {st : Statement} (hpost : AllPostorder st.expressions)
    (h : st.errors Γ = []) : ∀ a ∈ st.row Γ.signatures, a.Resolves p m := by
  have hown : ∀ e ∈ st.own, ∀ a ∈ e.code Γ.signatures, a.Resolves p m :=
    fun e he => Expression.resolves_code hp hm (hpost.own e he) (typed_own h e he)
  cases st with
  | declaration | counting => nofun
  | assignment a =>
    rw [Statement.errors] at h
    obtain ⟨u, hu⟩ := ok_of_failure h
    exact resolves_assignment hp hm hpost hu
  | call c =>
    rw [Statement.errors] at h
    exact resolves_statementCode hp hm hpost (Element.passes_call.2 (ok_of_failure h))
  | conditional | whileLoop => exact hown _ List.mem_cons_self
  | untilLoop | result =>
    exact List.forall_mem_append.2
      ⟨hown _ List.mem_cons_self, List.forall_mem_singleton.2 trivial⟩

/-- All actions of statements without errors resolve. -/
theorem resolves_planOf {ss : List Statement} (hpost : AllPostorder (expressionsOf ss))
    (h : errorsOf Γ ss = []) : ∀ a ∈ (planOf Γ.signatures ss).actions, a.Resolves p m := by
  intro a ha
  obtain ⟨st, hst, hrow⟩ := exists_of_mem_planOf ss ha
  exact resolves_row hp hm (hpost.within hst) (errors_within hpost h hst) a hrow

end Resolve

namespace Program

variable {p : Program}

theorem announces_flow (hfree : NamesFree p.subprograms) : p.flow.Announces p.signatures := by
  intro name sig h
  rw [← signatures_eq] at h
  obtain ⟨callee, hcallee, rfl⟩ := Option.map_eq_some_iff.1 h
  refine .inr ⟨fun hname => ?_, callee, hcallee, rfl⟩
  rw [hname, find?_flow_main hfree] at hcallee
  cases hcallee

end Program

/-- In a text that compiles every name resolves. A module is stored under its own name, which is not
that of the main module. The actions in the nodes of all modules name variables of their module with
no more indices than these have dimensions, and modules that can be called with as many arguments as
they are given. -/
theorem resolves_compile {source : String} {compiled : CompiledProgram}
    (h : compile source = .ok compiled) :
    (∀ name m, compiled.modules.find? name = some m → m.name = name ∧ name ≠ Module.mainName) ∧
      ∀ m ∈ compiled.all, ∀ id, ∀ a ∈ m.graph.actionsAt id, a.Resolves compiled m := by
  obtain ⟨p, ts, -, hspelled, hreports, rfl⟩ := exists_of_compile h
  refine ⟨fun name m hm => ?_, fun m hm id a ha => ?_⟩
  · obtain ⟨n, hn, rfl, rfl⟩ := Program.exists_of_find?_flow hm
    exact ⟨rfl, hspelled.free.ne_mainName hn⟩
  · obtain ⟨n, hn, rfl⟩ := Program.exists_of_mem_all hm
    have hplan := ScopedModule.mem_actionsAt_compile ha
    exact resolves_planOf (Γ := n.hoisted.context p.signatures)
      (Program.announces_flow hspelled.free) (n.hoisted.hosts_compile p.signatures)
      (hspelled.allPostorder_hoisted hn) (Program.errorsOf_of_reports hreports hn) a hplan

def copiedCell : String :=
  "entero funcion f(entero n)\ninicio\nretornar n\nfinfuncion\n"
    ++ "variables\nentero a[2]\ninicio\nleer(a[1])\na[2] <- f(a[1])\nfin\n"

theorem resolves_copiedCell : ∃ compiled, compile copiedCell = .ok compiled ∧
    .call "f" 1 ∈ compiled.main.graph.actionsAt 5 ∧ compiled.Answers "f" 1 ∧
      .reference "a" 1 ∈ compiled.main.graph.actionsAt 1 ∧ compiled.main.Declares "a" 1 := by
  have hcheck : (match compile copiedCell with
      | .ok compiled => decide (.call "f" 1 ∈ compiled.main.graph.actionsAt 5 ∧
        .reference "a" 1 ∈ compiled.main.graph.actionsAt 1)
      | .error _ => false) = true := by decide +kernel
  cases hc : compile copiedCell with
  | error e => rw [hc] at hcheck; cases hcheck
  | ok compiled =>
    rw [hc] at hcheck
    obtain ⟨hcall, hreference⟩ := of_decide_eq_true hcheck
    obtain ⟨-, hresolves⟩ := resolves_compile hc
    have hmain := hresolves compiled.main List.mem_cons_self
    exact ⟨compiled, rfl, hcall, hmain 5 _ hcall, hreference, hmain 1 _ hreference⟩

end Seudocodigo
