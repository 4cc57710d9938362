import Mathlib.Data.List.Induction
import Seudocodigo.Proofs.Results

/-! Links of a graph chosen by their names, one choice after the other. Some choices fail, and a
graph does not show that they were tried; the others set selectors and nothing else. -/
namespace Seudocodigo

namespace Node

def successors : Node → List (String × Option NodeId)
  | .generic .. => []
  | .branch _ trueHead falseHead next _ =>
    [("true_branch", trueHead), ("false_branch", falseHead), ("next_statement", next)]
  | .loop _ _ bodyHead next _ => [("loop_body", bodyHead), ("program_body", next)]

def selected? : Node → Option String
  | .generic .. => none
  | .branch _ _ _ _ selector => some selector.name
  | .loop _ _ _ _ selector => some selector.name

theorem successors_unselected (node : Node) : node.unselected.successors = node.successors := by
  cases node <;> rfl

theorem successors_congr {node other : Node} (h : other.unselected = node.unselected) :
    other.successors = node.successors := by
  rw [← successors_unselected, h, successors_unselected]

/-- Control takes the link that is chosen. -/
theorem lookup_successors {node : Node} {name : String} (h : node.selected? = some name) :
    node.successors.lookup name = some node.controlNext := by
  cases node with
  | generic => cases h
  | branch _ _ _ _ selector => cases h; cases selector <;> rfl
  | loop _ _ _ _ selector => cases h; cases selector <;> rfl

theorem mem_successors {node : Node} {name : String} (h : node.selected? = some name) :
    name ∈ node.successors.map (·.1) := by
  cases node with
  | generic => cases h
  | branch _ _ _ _ selector => cases h; cases selector <;> simp [successors, BranchSelector.name]
  | loop _ _ _ _ selector => cases h; cases selector <;> simp [successors, LoopSelector.name]

end Node

namespace BranchSelector

variable {name : String}

theorem name_of_ofName? {s : BranchSelector} (h : ofName? name = some s) : s.name = name := by
  simpa using List.find?_some (show List.find? _ _ = some s from h)

theorem ofName?_ne_none (h : name ∈ [trueBranch, falseBranch, nextStatement].map (·.name)) :
    ofName? name ≠ none := by
  obtain ⟨s, -, rfl⟩ := List.mem_map.1 h
  rw [ofName?_name]
  exact Option.some_ne_none s

end BranchSelector

namespace LoopSelector

variable {name : String}

theorem name_of_ofName? {s : LoopSelector} (h : ofName? name = some s) : s.name = name := by
  simpa using List.find?_some (show List.find? _ _ = some s from h)

theorem ofName?_ne_none (h : name ∈ [loopBody, programBody].map (·.name)) :
    ofName? name ≠ none := by
  obtain ⟨s, -, rfl⟩ := List.mem_map.1 h
  rw [ofName?_name]
  exact Option.some_ne_none s

end LoopSelector

/-- The choice of a link at a node. Neither the node nor a link of this name need exist. -/
structure Choice where
  node : NodeId
  name : String
deriving DecidableEq, Repr

namespace Choice

/-- Makes a choice in place: the selector of the node is overwritten when one of the given name is
found. -/
def perform (c : Choice) : ExceptT GraphError (StateM Graph) Unit := do
  match (← get).find? c.node with
  | none => throw (.unknownNode c.node)
  | some (.generic ..) => throw (.notSelectable c.node)
  | some (.branch condition trueHead falseHead next _) =>
    let s ← known (BranchSelector.ofName? c.name)
    modify (·.modify c.node fun _ => .branch condition trueHead falseHead next s)
  | some (.loop kind condition bodyHead next _) =>
    let s ← known (LoopSelector.ofName? c.name)
    modify (·.modify c.node fun _ => .loop kind condition bodyHead next s)
where
  known {α : Type} : Option α → ExceptT GraphError (StateM Graph) α
    | some s => return s
    | none => throw (.unknownSelector c.node c.name)

def after : Graph → List Choice → Graph
  | g, [] => g
  | g, c :: cs => after (c.perform.run g).2 cs

def successful : Graph → List Choice → List Choice
  | _, [] => []
  | g, c :: cs =>
    match c.perform.run g with
    | (.ok _, h) => c :: successful h cs
    | (.error _, h) => successful h cs

def lastAt (g : Graph) (cs : List Choice) (id : NodeId) : Option Choice :=
  ((successful g cs).filter (·.node = id)).getLast?

variable {g : Graph} {c : Choice} {cs : List Choice}

inductive Outcome (c : Choice) (g : Graph) : Except GraphError Unit × Graph → Prop where
  | missing : g.find? c.node = none → Outcome c g (.error (.unknownNode c.node), g)
  | single {a : Action} {next : Option NodeId} : g.find? c.node = some (.generic a next) →
    Outcome c g (.error (.notSelectable c.node), g)
  | unnamed {node : Node} : g.find? c.node = some node → node.successors ≠ [] →
    c.name ∉ node.successors.map (·.1) →
    Outcome c g (.error (.unknownSelector c.node c.name), g)
  | selected {node other : Node} : g.find? c.node = some node →
    other.unselected = node.unselected → other.selected? = some c.name →
    Outcome c g (.ok (), g.modify c.node fun _ => other)

/-- A choice in place does to the graph what `select` gives, and nothing if that fails. -/
theorem perform_select (c : Choice) (g : Graph) : c.perform.run g =
    match g.select c.node c.name with
    | .ok h => (.ok (), h)
    | .error e => (.error e, g) := by
  have hget (k : Graph → ExceptT GraphError (StateM Graph) Unit) :
      (get >>= k : ExceptT GraphError (StateM Graph) Unit).run g = (k g).run g := rfl
  rw [perform, hget, Graph.select]
  cases g.find? c.node with
  | none => rfl
  | some node =>
    cases node with
    | generic => rfl
    | branch => dsimp only; cases BranchSelector.ofName? c.name <;> rfl
    | loop => dsimp only; cases LoopSelector.ofName? c.name <;> rfl

theorem outcome_perform (c : Choice) (g : Graph) : Outcome c g (c.perform.run g) := by
  rw [perform_select, Graph.select]
  cases hn : g.find? c.node with
  | none => exact .missing hn
  | some node =>
    cases node with
    | generic a next => exact .single hn
    | branch condition trueHead falseHead next selector =>
      dsimp only
      cases hs : BranchSelector.ofName? c.name with
      | some s => exact .selected hn rfl (congrArg some (BranchSelector.name_of_ofName? hs))
      | none =>
        exact .unnamed hn (List.cons_ne_nil _ _) fun h => BranchSelector.ofName?_ne_none h hs
    | loop kind condition bodyHead next selector =>
      dsimp only
      cases hs : LoopSelector.ofName? c.name with
      | some s => exact .selected hn rfl (congrArg some (LoopSelector.name_of_ofName? hs))
      | none =>
        exact .unnamed hn (List.cons_ne_nil _ _) fun h => LoopSelector.ofName?_ne_none h hs

structure Selects (c : Choice) (g h : Graph) : Prop where
  size : h.size = g.size
  others : ∀ id, id ≠ c.node → h.find? id = g.find? id
  chosen : ∃ node other, g.find? c.node = some node ∧ h.find? c.node = some other ∧
    other.unselected = node.unselected ∧ other.selected? = some c.name

namespace Outcome

variable {r : Except GraphError Unit × Graph}

theorem selects (h : Outcome c g r) (hok : r.1 = .ok ()) : Selects c g r.2 := by
  cases h with
  | missing | single | unnamed => cases hok
  | @selected node other hn hsame hname =>
    refine ⟨Graph.size_modify .., fun id hid => ?_, node, other, hn, ?_, hsame, hname⟩
    · rw [Graph.find?_modify, if_neg (Ne.symm hid)]
    · rw [Graph.find?_modify, if_pos rfl, hn, Option.map_some]

theorem unchanged (h : Outcome c g r) {e : GraphError} (he : r.1 = .error e) : r.2 = g := by
  cases h with
  | missing | single | unnamed => rfl
  | selected => cases he

theorem eq_unknownNode (h : Outcome c g r) :
    r.1 = .error (.unknownNode c.node) ↔ g.find? c.node = none := by
  cases h with
  | missing hn => exact iff_of_true rfl hn
  | single hn | unnamed hn | selected hn => simp [hn]

theorem eq_notSelectable (h : Outcome c g r) :
    r.1 = .error (.notSelectable c.node) ↔ ∃ a next, g.find? c.node = some (.generic a next) := by
  cases h with
  | missing hn => simp [hn]
  | single hn => exact iff_of_true rfl ⟨_, _, hn⟩
  | unnamed hn hne =>
    refine iff_of_false nofun fun ⟨a, next, hgeneric⟩ => ?_
    cases hn.symm.trans hgeneric
    exact hne rfl
  | selected hn hsame hname =>
    refine iff_of_false nofun fun ⟨a, next, hgeneric⟩ => ?_
    cases hn.symm.trans hgeneric
    have hnames := Node.mem_successors hname
    rw [Node.successors_congr hsame] at hnames
    cases hnames

theorem eq_unknownSelector (h : Outcome c g r) :
    r.1 = .error (.unknownSelector c.node c.name) ↔
      ∃ node, g.find? c.node = some node ∧ node.successors ≠ [] ∧
        c.name ∉ node.successors.map (·.1) := by
  cases h with
  | missing hn => simp [hn]
  | single hn =>
    refine iff_of_false nofun fun ⟨node, hnode, hne, _⟩ => ?_
    cases hn.symm.trans hnode
    exact hne rfl
  | unnamed hn hne hname => exact iff_of_true rfl ⟨_, hn, hne, hname⟩
  | selected hn hsame hname =>
    refine iff_of_false nofun fun ⟨node, hnode, _, hnot⟩ => hnot ?_
    cases hn.symm.trans hnode
    rw [← Node.successors_congr hsame]
    exact Node.mem_successors hname

end Outcome

theorem Selects.resembles {h : Graph} (hs : Selects c g h) : h.Resembles g := by
  obtain ⟨node, other, hn, ho, hsame, -⟩ := hs.chosen
  intro id
  by_cases hid : id = c.node
  · rw [hid, hn, ho, Option.map_some, Option.map_some, hsame]
  · rw [hs.others id hid]

/-- After one more choice the graph is as it was, or the choice is the last that succeeded. -/
theorem after_concat (g : Graph) (cs : List Choice) (c : Choice) :
    after g (cs ++ [c]) = after g cs ∧ successful g (cs ++ [c]) = successful g cs ∨
      Selects c (after g cs) (after g (cs ++ [c])) ∧
        successful g (cs ++ [c]) = successful g cs ++ [c] := by
  induction cs generalizing g with
  | nil =>
    have houtcome := outcome_perform c g
    rw [List.nil_append, successful, successful, after, after, after]
    cases hr : c.perform.run g with
    | mk r h =>
      rw [hr] at houtcome
      cases r with
      | ok u => exact .inr ⟨houtcome.selects rfl, rfl⟩
      | error e => exact .inl ⟨houtcome.unchanged rfl, rfl⟩
  | cons d cs ih =>
    rw [List.cons_append, successful, successful, after, after]
    cases d.perform.run g with
    | mk r h =>
      cases r with
      | ok u => simpa only [List.cons_append, List.cons.injEq, true_and] using ih h
      | error e => exact ih h

/-- Whatever is chosen, the graph stays the same but for selectors. -/
theorem after_resembles (g : Graph) (cs : List Choice) :
    (after g cs).size = g.size ∧ (after g cs).Resembles g := by
  induction cs using List.reverseRecOn with
  | nil => exact ⟨rfl, fun _ => rfl⟩
  | append_singleton cs c ih =>
    obtain ⟨hsame, -⟩ | ⟨hs, -⟩ := after_concat g cs c
    · rwa [hsame]
    · exact ⟨hs.size.trans ih.1, hs.resembles.trans ih.2⟩

/-- Control takes the link that was chosen last, or the one that was chosen before all choices. -/
theorem controlNext_after {id : NodeId} {first node : Node} (hfirst : g.find? id = some first)
    (hnode : (after g cs).find? id = some node) :
    some node.controlNext =
      match lastAt g cs id with
      | none => some first.controlNext
      | some c => first.successors.lookup c.name := by
  induction cs using List.reverseRecOn generalizing node with
  | nil =>
    cases hfirst.symm.trans hnode
    rfl
  | append_singleton cs c ih =>
    obtain ⟨hsame, hmade⟩ | ⟨hs, hmade⟩ := after_concat g cs c
    · rw [lastAt, hmade]
      rw [hsame] at hnode
      exact ih hnode
    · rw [lastAt, hmade, List.filter_append]
      by_cases hid : c.node = id
      · obtain ⟨_, other, -, hother, -, hname⟩ := hs.chosen
        rw [hid] at hother
        cases hother.symm.trans hnode
        obtain ⟨_, hfind, hfirst'⟩ := (after_resembles g (cs ++ [c])).2.find? hnode
        cases hfind.symm.trans hfirst
        have hlast : [c].filter (·.node = id) = [c] := List.filter_eq_self.2 (by simpa using hid)
        rw [hlast, List.getLast?_concat, ← Node.lookup_successors hname,
          Node.successors_congr hfirst']
      · have hnone : [c].filter (·.node = id) = [] := List.filter_eq_nil_iff.2 (by simpa using hid)
        rw [hnone, List.append_nil]
        rw [hs.others id (Ne.symm hid)] at hnode
        exact ih hnode

end Choice

/-- Links of a graph of a module lead to its nodes, and choices do not change that. -/
theorem ScopedModule.controlNext_after_compile (m : ScopedModule) (s : Signatures)
    (cs : List Choice) {id target : NodeId} {node : Node}
    (hnode : (Choice.after (m.compile s).graph cs).find? id = some node)
    (hto : node.controlNext = some target) :
    ∃ next, (Choice.after (m.compile s).graph cs).find? target = some next := by
  obtain ⟨-, hwired⟩ := (planOf s m.module.body).wired .empty
  rw [Plan.build_planOf] at hwired
  obtain ⟨hsize, hsame⟩ := Choice.after_resembles (m.compile s).graph cs
  obtain ⟨first, hfirst, hunselected⟩ := hsame.find? hnode
  obtain ⟨link, hlink⟩ := node.exists_link?_controlNext
  have hslot : (m.compile s).graph.link? ⟨id, link⟩ = some (some target) := by
    rw [Graph.link?, hfirst, Option.bind_some, ← Node.link?_unselected, hunselected,
      Node.link?_unselected, hlink, hto]
  obtain ⟨-, hlt⟩ := hwired.inside _ _ (Nat.zero_le _) hslot
  have hlt' : target < (Choice.after (m.compile s).graph cs).size := by rw [hsize]; exact hlt
  exact ⟨_, Array.getElem?_eq_getElem hlt'⟩

/-- A choice fails if there is no such node, if the node is a plain one, or if its links have other
names, and then the graph is as it was; otherwise the selector of the node is set and nothing else
changes. So after any choices the graph is the same but for selectors, and control takes the links
that were chosen last. In the graph of a module these lead to nodes of the graph, or to its end. -/
theorem choices_set_selectors (cs : List Choice) :
    (∀ g : Graph,
      let now := Choice.after g cs
      (∀ c : Choice,
        let r := c.perform.run now
        (r = match now.select c.node c.name with
          | .ok h => (.ok (), h)
          | .error e => (.error e, now)) ∧
        (r.1 = .error (.unknownNode c.node) ↔ now.find? c.node = none) ∧
        (r.1 = .error (.notSelectable c.node) ↔
          ∃ a next, now.find? c.node = some (.generic a next)) ∧
        (r.1 = .error (.unknownSelector c.node c.name) ↔ ∃ node, now.find? c.node = some node ∧
          node.successors ≠ [] ∧ c.name ∉ node.successors.map (·.1)) ∧
        (∀ e, r.1 = .error e → r.2 = now) ∧
        (r.1 = .ok () → c.Selects now r.2)) ∧
      now.size = g.size ∧
      (∀ id, (now.find? id).map Node.unselected = (g.find? id).map Node.unselected) ∧
      ∀ id first node, g.find? id = some first → now.find? id = some node →
        some node.controlNext =
          match Choice.lastAt g cs id with
          | none => some first.controlNext
          | some c => first.successors.lookup c.name) ∧
    ∀ (m : ScopedModule) (s : Signatures),
      let now := Choice.after (m.compile s).graph cs
      ∀ id node target, now.find? id = some node → node.controlNext = some target →
        ∃ next, now.find? target = some next := by
  refine ⟨fun g => ?_, fun m s _ _ _ => m.controlNext_after_compile s cs⟩
  obtain ⟨hsize, hsame⟩ := Choice.after_resembles g cs
  refine ⟨fun c => ?_, hsize, hsame, fun _ _ _ => Choice.controlNext_after⟩
  have h := c.outcome_perform (Choice.after g cs)
  exact ⟨c.perform_select _, h.eq_unknownNode, h.eq_notSelectable, h.eq_unknownSelector,
    fun _ => h.unchanged, h.selects⟩

def testInLoop : Graph :=
  ⟨#[.generic .discard (some 1), .branch [] (some 0) none (some 2) .nextStatement,
    .loop .whileLoop [] (some 1) none .programBody]⟩

/-- Three of the choices succeed. The others are of a link of another kind of node, of a link of a
plain node and of a node that is not there. -/
def mixedChoices : List Choice :=
  [⟨1, "false_branch"⟩, ⟨1, "loop_body"⟩, ⟨2, "loop_body"⟩, ⟨0, "true_branch"⟩, ⟨7, "loop_body"⟩,
    ⟨1, "true_branch"⟩, ⟨1, "program_body"⟩]

def repeatedOutput : ScopedModule :=
  let p : Location := ⟨1, 1⟩
  let output : Statement := .call ⟨"escribir", [⟨[.literal (.integer 1)], p⟩], p⟩
  ⟨⟨"principal", .main, [], [.whileLoop ⟨[.literal (.boolean true)], p⟩ [output] p], p⟩, .empty, []⟩

theorem choices_set_selectors_mixed :
    let now := Choice.after testInLoop mixedChoices
    let stray : Choice := ⟨2, "next_statement"⟩
    let chosen := Choice.after (repeatedOutput.compile .empty).graph mixedChoices
    Choice.lastAt testInLoop mixedChoices 1 = some ⟨1, "true_branch"⟩ ∧
      (∃ node, now.find? 1 = some node ∧ node.controlNext = some 0) ∧
      (stray.perform.run now).1 = .error (.unknownSelector 2 "next_statement") ∧
      (stray.perform.run now).2 = now ∧
      (chosen.find? 2).bind Node.controlNext = some 0 ∧ ∃ next, chosen.find? 0 = some next := by
  intro now stray chosen
  obtain ⟨hgraph, hmodule⟩ := choices_set_selectors mixedChoices
  obtain ⟨hchoice, -, -, hcontrol⟩ := hgraph testInLoop
  have hlast : Choice.lastAt testInLoop mixedChoices 1 = some ⟨1, "true_branch"⟩ := by decide
  have hnode : now.find? 1 = some (.branch [] (some 0) none (some 2) .trueBranch) := by decide
  have hnext := hcontrol 1 _ _ rfl hnode
  rw [hlast] at hnext
  obtain ⟨-, -, -, hunknown, hunchanged, -⟩ := hchoice stray
  have hloop : now.find? 2 = some (.loop .whileLoop [] (some 1) none .loopBody) := by decide
  have hstray := hunknown.2 ⟨_, hloop, by decide, by decide⟩
  have hchosen : chosen.find? 2 = some
      (.loop .whileLoop [.push (.boolean true)] (some 0) none .loopBody) := by decide
  refine ⟨hlast, ⟨_, hnode, Option.some.inj (hnext.trans (by decide))⟩, hstray,
    hunchanged _ hstray, ?_, ?_⟩
  · rw [hchosen]
    rfl
  · exact hmodule repeatedOutput .empty 2 _ 0 hchosen rfl

end Seudocodigo
