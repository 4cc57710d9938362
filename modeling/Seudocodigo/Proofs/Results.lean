import Seudocodigo.Proofs.Accepted
import Seudocodigo.Proofs.Flow.Acyclic
import Seudocodigo.Proofs.Flow.Closure

/-! Functions end by returning a result: the last action of their last statement is the only one
that nothing follows. -/
namespace Seudocodigo

open Statement Seudocodigo.Graph

namespace Plan

/-- The last node that the plan adds is one for the action, and the plan ends there. -/
inductive EndsIn (a : Action) : Plan → Prop where
  | action : EndsIn a (.action a)
  | behind {p q : Plan} : EndsIn a q → EndsIn a (.seq p q)
  | before {p q : Plan} : q.isEmpty = true → EndsIn a p → EndsIn a (.seq p q)

theorem endsIn_straight (as : List Action) (a : Action) : EndsIn a (straight (as ++ [a])) := by
  induction as with
  | nil => exact .before rfl .action
  | cons b as ih => exact .behind ih

theorem endsIn_planOf {s : Signatures} {a : Action} {st : Statement}
    (h : EndsIn a (st.plan s)) (ss : List Statement) : EndsIn a (planOf s (ss ++ [st])) := by
  induction ss with
  | nil =>
    rw [List.nil_append, planOf, planOf]
    exact .before rfl h
  | cons first ss ih =>
    rw [List.cons_append, planOf]
    exact .behind ih

/-- What ends in an action is left only by the node of this action. -/
theorem EndsIn.build {a : Action} {p : Plan} (h : EndsIn a p) (g : Graph) :
    ∃ last, g.size ≤ last ∧ (p.build g).1.exits = [⟨last, .next⟩] ∧
      (p.build g).2.find? last = some (.generic a none) := by
  induction h generalizing g with
  | action => exact ⟨g.size, Nat.le_refl _, rfl, find?_add_self ..⟩
  | @behind p q hq ih =>
    obtain ⟨-, hp⟩ := p.wired g
    obtain ⟨-, hwired⟩ := q.wired (p.build g).2
    obtain ⟨last, hle, hexits, hlast⟩ := ih (p.build g).2
    have hhead : (q.build (p.build g).2).1.head ≠ none := by
      intro hnone
      rw [hwired.eq_empty hnone] at hexits
      cases hexits
    have hne : ∀ slot ∈ (p.build g).1.exits, slot.node ≠ last := by
      intro slot hs he
      have hlt := (hp.exit_open hs).2.1
      rw [he] at hlt
      exact absurd hle (Nat.not_le.2 hlt)
    rw [build_seq]
    exact ⟨last, Nat.le_trans hp.size hle, (exits_join hhead).trans hexits,
      (find?_join hne).trans hlast⟩
  | @before p q hempty hp ih =>
    obtain ⟨hsame, -⟩ := q.wired (p.build g).2
    obtain ⟨last, hle, hexits, hlast⟩ := ih g
    rw [build_seq, join_of_behind_empty ((q.head_build (p.build g).2).2 hempty)]
    exact ⟨last, hle, hexits, (hsame last (lt_size_of_find? hlast)).trans hlast⟩

end Plan

/-- Control takes a link of the node. -/
theorem Node.exists_link?_controlNext (node : Node) :
    ∃ link, node.link? link = some node.controlNext := by
  cases node with
  | generic => exact ⟨.next, rfl⟩
  | branch _ _ _ _ selector =>
    cases selector with
    | trueBranch => exact ⟨.trueHead, rfl⟩
    | falseBranch => exact ⟨.falseHead, rfl⟩
    | nextStatement => exact ⟨.next, rfl⟩
  | loop _ _ _ _ selector =>
    cases selector with
    | loopBody => exact ⟨.bodyHead, rfl⟩
    | programBody => exact ⟨.next, rfl⟩

/-- If only the node of one action leaves a link open, a walk to the end passes it last. -/
theorem Graph.Wander.getLast?_of_open {g : Graph} {a : Action} {last : NodeId}
    (hlast : g.find? last = some (.generic a none))
    (hopen : ∀ slot, g.link? slot = some none → slot = ⟨last, .next⟩) {from? to? : Option NodeId}
    {nodes : List Node} (hw : g.Wander from? nodes to?) (hto : to? = none) :
    nodes = [] ∧ from? = none ∨ nodes.getLast? = some (.generic a none) := by
  induction hw with
  | stay => exact .inl ⟨rfl, hto⟩
  | @step selected id node nodes to? hselected hnode _ ih =>
    refine .inr ?_
    obtain ⟨rfl, hnone⟩ | hrest := ih hto
    · obtain ⟨other, hother, hsame⟩ := hselected.find? hnode
      obtain ⟨link, hlink⟩ := node.exists_link?_controlNext
      have hslot : g.link? ⟨id, link⟩ = some none := by
        rw [link?, hother, Option.bind_some, ← Node.link?_unselected, hsame,
          Node.link?_unselected, hlink, hnone]
      cases hopen _ hslot
      cases hother.symm.trans hlast
      cases node with
      | generic => cases hsame; rfl
      | branch | loop => cases hsame
    · cases nodes with
      | nil => cases hrest
      | cons => exact hrest

section Rows

variable {s : Signatures}

/-- No expression returns from its module. -/
theorem result_notMem_codeOf {es : List Element} (hpost : Postorder es) :
    ∀ a ∈ codeOf s es, a ≠ .result := by
  have hown (el : Element) (_ : True) : ∀ a ∈ el.ownActions, a ≠ .result := by
    cases el with
    | literal | operator | call => exact List.forall_mem_singleton.2 nofun
    | access a =>
      obtain ⟨name, indices⟩ := a
      cases indices <;> exact List.forall_mem_cons.2 ⟨nofun, List.forall_mem_singleton.2 nofun⟩
  exact forall_codeOf hown (fun _ _ _ _ _ _ => trivial) hpost fun _ _ => trivial

/-- Only statements that return have the action to do so. -/
theorem eq_result_of_mem_row {st : Statement} (hpost : AllPostorder st.expressions)
    (h : .result ∈ st.row s) : ∃ value q, st = .result value q := by
  have hown : ∀ e ∈ st.own, .result ∉ e.code s := by
    intro e he hmem
    rw [Expression.code_eq] at hmem
    exact result_notMem_codeOf (hpost.own e he) _ hmem rfl
  cases st with
  | declaration | counting => cases h
  | result value q => exact ⟨value, q, rfl⟩
  | conditional | whileLoop => exact absurd h (hown _ List.mem_cons_self)
  | untilLoop =>
    obtain hcode | hlast := List.mem_append.1 h
    · exact absurd hcode (hown _ List.mem_cons_self)
    · cases List.mem_singleton.1 hlast
  | assignment a =>
    have hindices : ∀ b ∈ indexCode s a.target.indices, b ≠ .result :=
      forall_indexCode fun e he => result_notMem_codeOf (hpost e (List.mem_cons_of_mem _ he))
    obtain hcode | hlast := List.mem_append.1 h
    · obtain hvalue | htarget := List.mem_append.1 hcode
      · exact absurd hvalue (hown _ List.mem_cons_self)
      · exact absurd rfl (hindices _ htarget)
    · cases List.mem_singleton.1 hlast
  | call c =>
    have hcall := result_notMem_codeOf (s := s) (.call (c := c) hpost)
    rw [codeOf_call] at hcall
    obtain hcode | hlast := List.mem_append.1 h
    · exact absurd rfl (hcall _ hcode)
    · split at hlast
      · cases List.mem_singleton.1 hlast
      · cases hlast

/-- Where statements without errors return a result, the module is a function. -/
theorem returns_of_result_mem {Γ : Context} {ss : List Statement}
    (hpost : AllPostorder (expressionsOf ss)) (h : errorsOf Γ ss = [])
    (hmem : .result ∈ (planOf s ss).actions) : Γ.returns?.isSome = true := by
  obtain ⟨st, hst, hrow⟩ := exists_of_mem_planOf ss hmem
  obtain ⟨value, q, rfl⟩ := eq_result_of_mem_row (hpost.within hst) hrow
  have herrors := errors_within hpost h hst
  rw [Statement.errors] at herrors
  obtain ⟨u, hu⟩ := ok_of_failure herrors
  exact (typed_of_checkResult hu).1

end Rows

namespace ScopedModule

variable {n : ScopedModule} {s : Signatures}

/-- The body of a function without errors ends by returning a result. -/
theorem exists_body_of_errors (h : n.errors s = []) (hreturns : n.module.returns?.isSome = true) :
    ∃ ss value q, n.module.body = ss ++ [.result value q] := by
  have hends : n.endsWithResult = true := by
    by_contra hnot
    have hmissing := (List.append_eq_nil_iff.1 h).2
    rw [hreturns, Bool.true_and, if_pos (by simpa using hnot)] at hmissing
    cases hmissing
  rw [endsWithResult] at hends
  split at hends
  · next value q hlast =>
    obtain ⟨ss, hbody⟩ := List.getLast?_eq_some_iff.1 hlast
    exact ⟨ss, value, q, hbody⟩
  · cases hends

/-- The graph of statements that end by returning a result has an entry, and nothing but the last
return leads nowhere. -/
theorem ends_compile {ss : List Statement} {value : Expression} {q : Location}
    (h : n.module.body = ss ++ [.result value q]) :
    (n.compile s).entry.isSome = true ∧ ∃ last,
      (n.compile s).graph.find? last = some (.generic .result none) ∧
        ∀ slot, (n.compile s).graph.link? slot = some none ↔ slot = ⟨last, .next⟩ := by
  have hplan : Plan.EndsIn .result (planOf s n.module.body) := by
    rw [h]
    refine Plan.endsIn_planOf ?_ ss
    rw [Statement.plan]
    exact Plan.endsIn_straight _ _
  obtain ⟨-, hwired⟩ := (planOf s n.module.body).wired .empty
  obtain ⟨last, -, hexits, hlast⟩ := hplan.build .empty
  rw [(n.compile_eq s).1, (n.compile_eq s).2]
  refine ⟨?_, last, hlast, fun slot => ?_⟩
  · rw [Option.isSome_iff_ne_none]
    intro hnone
    rw [hwired.eq_empty hnone] at hexits
    cases hexits
  · have hexit := hwired.mem_exits slot
    rw [hexits, List.mem_singleton] at hexit
    rw [hexit]
    exact ⟨fun hlink => ⟨Nat.zero_le _, hlink⟩, fun hlink => hlink.2⟩

end ScopedModule

/-- In a text that compiles only functions return results, and they do not end otherwise. The graph
of a function has an entry, and of all links of its nodes only that of one return leads nowhere. A
walk along control that comes to the end, however the selectors are set, comes there from this
return. -/
theorem results_compile {source : String} {compiled : CompiledProgram}
    (h : compile source = .ok compiled) : ∀ m ∈ compiled.all,
      ((∃ id, .result ∈ m.graph.actionsAt id) → ∃ t, m.kind = .function t) ∧
        ∀ t, m.kind = .function t →
          m.entry.isSome = true ∧ ∃ last, m.graph.find? last = some (.generic .result none) ∧
            (∀ slot, m.graph.link? slot = some none ↔ slot = ⟨last, .next⟩) ∧
              ∀ nodes, m.graph.Wander m.entry nodes none →
                nodes.getLast? = some (.generic .result none) := by
  obtain ⟨p, ts, -, hspelled, hreports, rfl⟩ := exists_of_compile h
  intro m hm
  obtain ⟨n, hn, rfl⟩ := Program.exists_of_mem_all hm
  refine ⟨fun ⟨id, hid⟩ => ?_, fun t ht => ?_⟩
  · have hreturns : n.hoisted.module.returns?.isSome = true :=
      returns_of_result_mem (hspelled.allPostorder_hoisted hn)
        (Program.errorsOf_of_reports hreports hn) (ScopedModule.mem_actionsAt_compile hid)
    show ∃ t, n.hoisted.module.kind = .function t
    rw [Module.returns?] at hreturns
    cases hkind : n.hoisted.module.kind with
    | function t => exact ⟨t, rfl⟩
    | main | procedure => rw [hkind] at hreturns; cases hreturns
  · have ht : n.hoisted.module.kind = .function t := ht
    have hreturns : n.hoisted.module.returns?.isSome = true := by
      rw [Module.returns?, ht]
      rfl
    obtain ⟨ss, value, q, hbody⟩ :=
      ScopedModule.exists_body_of_errors (Program.errors_of_reports hreports hn) hreturns
    obtain ⟨hentry, last, hlast, hopen⟩ := ScopedModule.ends_compile (s := p.signatures) hbody
    refine ⟨hentry, last, hlast, hopen, fun nodes hw => ?_⟩
    obtain ⟨-, hnone⟩ | hend := hw.getLast?_of_open hlast (fun slot => (hopen slot).1) rfl
    · rw [hnone] at hentry
      cases hentry
    · exact hend

def searchingFunction : String :=
  "entero funcion buscar(entero n)\nentero i\ninicio\nmientras i < n\n"
    ++ "si i * i = n entonces\nretornar i\nfinsi\ni <- i + 1\nfinmientras\nretornar 0\n"
    ++ "finfuncion\nvariables\ninicio\nescribir(buscar(9))\nfin\n"

theorem results_searchingFunction : ∃ compiled, compile searchingFunction = .ok compiled ∧
    ∃ m ∈ compiled.all, m.kind = .function .integer ∧ 1 < (m.graph.nodes.toList.filter
        fun node => decide (.result ∈ node.actions)).length ∧
      ∀ nodes, m.graph.Wander m.entry nodes none →
        nodes.getLast? = some (.generic .result none) := by
  have hcheck : (match compile searchingFunction with
      | .ok compiled => compiled.all.any fun m => decide (m.kind = .function .integer ∧
        1 < (m.graph.nodes.toList.filter fun node => decide (.result ∈ node.actions)).length)
      | .error _ => false) = true := by decide +kernel
  cases hc : compile searchingFunction with
  | error e => rw [hc] at hcheck; cases hcheck
  | ok compiled =>
    rw [hc] at hcheck
    obtain ⟨m, hm, hany⟩ := List.any_eq_true.1 hcheck
    obtain ⟨hkind, hlt⟩ := of_decide_eq_true hany
    obtain ⟨-, hfunction⟩ := results_compile hc m hm
    obtain ⟨-, last, -, -, hwalk⟩ := hfunction _ hkind
    exact ⟨compiled, rfl, m, hm, hkind, hlt, hwalk⟩

end Seudocodigo
