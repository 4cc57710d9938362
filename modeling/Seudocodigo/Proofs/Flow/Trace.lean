import Seudocodigo.Graph.Walk

/-! What walks along control record: the actions that they pass and the tests that they take. The
selectors that a graph begins with have no influence. -/
namespace Seudocodigo

inductive Record where
  | action (a : Action)
  | test (condition : List Action)
deriving DecidableEq, Repr

namespace Node

def record : Node → Record
  | .generic a _ => .action a
  | .branch condition .. => .test condition
  | .loop _ condition .. => .test condition

def after (outcome : Bool) : Node → Option NodeId
  | .generic _ next => next
  | .branch _ trueHead falseHead _ _ => if outcome then trueHead else falseHead
  | .loop _ _ bodyHead next _ => if outcome then bodyHead else next

def unselected : Node → Node
  | .generic a next => .generic a next
  | .branch c t f n _ => .branch c t f n .nextStatement
  | .loop k c b n _ => .loop k c b n .programBody

theorem record_unselected (node : Node) : node.unselected.record = node.record := by
  cases node <;> rfl

theorem after_unselected (outcome : Bool) (node : Node) :
    node.unselected.after outcome = node.after outcome := by
  cases node <;> rfl

end Node

def Walk.records (g : Graph) (w : Walk) : List Record :=
  w.path.filterMap fun id => (g.find? id).map Node.record

theorem BranchSelector.ofName?_name (s : BranchSelector) : ofName? s.name = some s := by
  cases s <;> decide

theorem LoopSelector.ofName?_name (s : LoopSelector) : ofName? s.name = some s := by
  cases s <;> decide

namespace Graph

/-- The graphs are the same but for selectors. -/
def Resembles (g h : Graph) : Prop :=
  ∀ id, (g.find? id).map Node.unselected = (h.find? id).map Node.unselected

def trace (g : Graph) (n : Nat) (outcomes : List Bool) (from? : Option NodeId) :
    List Record × Bool :=
  let w := (Walk.runWithin n g outcomes from?).1
  (w.records g, w.stop.isSome)

variable {g h : Graph}

theorem Resembles.symm (hg : g.Resembles h) : h.Resembles g := fun id => (hg id).symm

theorem Resembles.trans {k : Graph} (hg : g.Resembles h) (hh : h.Resembles k) : g.Resembles k :=
  fun id => (hg id).trans (hh id)

/-- Of nodes that differ in their selectors, each does the same. -/
theorem Resembles.find? (hg : g.Resembles h) {id : NodeId} {node : Node}
    (hn : g.find? id = some node) :
    ∃ other, h.find? id = some other ∧ other.unselected = node.unselected := by
  have hid := hg id
  rw [hn] at hid
  cases ho : h.find? id with
  | none => rw [ho] at hid; cases hid
  | some other => rw [ho] at hid; exact ⟨other, rfl, (Option.some.inj hid).symm⟩

/-- A test can be given either outcome; the choice changes nothing but the selector. -/
theorem select_outcome {id : NodeId} {node : Node} (hn : g.find? id = some node)
    (ht : Walk.selectorFor node true ≠ none) (outcome : Bool) :
    ∃ chosen, g.select id ((Walk.selectorFor node outcome).getD "") = .ok chosen ∧
      chosen.Resembles g ∧ (chosen.find? id).bind Node.controlNext = node.after outcome := by
  have hmodify {other : Node} (ho : other.unselected = node.unselected) :
      (g.modify id fun _ => other).Resembles g := by
    intro i
    rw [find?_modify]
    split
    · next hi => rw [← hi, hn]; exact congrArg some ho
    · rfl
  cases node with
  | generic a next => exact absurd rfl ht
  | branch c t f n s =>
    let s' : BranchSelector := if outcome then .trueBranch else .falseBranch
    have hname : Walk.selectorFor (.branch c t f n s) outcome = some s'.name := by
      cases outcome <;> rfl
    refine ⟨g.modify id fun _ => .branch c t f n s', ?_, hmodify rfl, ?_⟩
    · simp only [select, hn, hname, Option.getD_some, BranchSelector.ofName?_name]
    · rw [find?_modify, if_pos rfl, hn]
      cases outcome <;> rfl
  | loop k c b n s =>
    let s' : LoopSelector := if outcome then .loopBody else .programBody
    have hname : Walk.selectorFor (.loop k c b n s) outcome = some s'.name := by
      cases outcome <;> rfl
    refine ⟨g.modify id fun _ => .loop k c b n s', ?_, hmodify rfl, ?_⟩
    · simp only [select, hn, hname, Option.getD_some, LoopSelector.ofName?_name]
    · rw [find?_modify, if_pos rfl, hn]
      cases outcome <;> rfl

section Steps

variable {id : NodeId} {node : Node} {n : Nat} {outcomes : List Bool}

theorem runWithin_action {a : Action} (hn : g.find? id = some node)
    (hr : node.record = .action a) (outcome : Bool) :
    (Walk.runWithin (n + 1) g outcomes (some id)).1 =
      (Walk.runWithin n g outcomes (node.after outcome)).1.behind id := by
  cases node with
  | generic => simp only [Walk.runWithin, hn, Walk.selectorFor, Node.controlNext, Node.after]
  | branch => cases hr
  | loop => cases hr

theorem runWithin_wait {condition : List Action} (hn : g.find? id = some node)
    (hr : node.record = .test condition) :
    (Walk.runWithin (n + 1) g [] (some id)).1 = ⟨[id], some id⟩ := by
  cases node with
  | generic => cases hr
  | branch => simp only [Walk.runWithin, hn, Walk.selectorFor]
  | loop => simp only [Walk.runWithin, hn, Walk.selectorFor]

theorem runWithin_test (n : Nat) (outcomes : List Bool) {condition : List Action}
    (hn : g.find? id = some node)
    (hr : node.record = .test condition) (outcome : Bool) :
    ∃ chosen : Graph, chosen.Resembles g ∧
      (Walk.runWithin (n + 1) g (outcome :: outcomes) (some id)).1 =
        (Walk.runWithin n chosen outcomes (node.after outcome)).1.behind id := by
  have ht : Walk.selectorFor node true ≠ none := by
    cases node with
    | generic => cases hr
    | branch => simp [Walk.selectorFor]
    | loop => simp [Walk.selectorFor]
  obtain ⟨chosen, hs, hres, hnext⟩ := select_outcome hn ht outcome
  refine ⟨chosen, hres, ?_⟩
  cases hsel : Walk.selectorFor node true with
  | none => exact absurd hsel ht
  | some name => simp only [Walk.runWithin, hn, hsel, hs, Except.toOption, Option.getD_some, hnext]

end Steps

theorem Resembles.walk {n : Nat} {outcomes : List Bool} {from? : Option NodeId}
    (hg : g.Resembles h) :
    (Walk.runWithin n g outcomes from?).1 = (Walk.runWithin n h outcomes from?).1 := by
  induction n generalizing g h outcomes from? with
  | zero => rfl
  | succ n ih =>
    cases from? with
    | none => rfl
    | some id =>
      cases hn : g.find? id with
      | none =>
        have hid := hg id
        rw [hn] at hid
        have hh : h.find? id = none := Option.map_eq_none_iff.1 hid.symm
        simp only [Walk.runWithin, hn, hh]
      | some node =>
        obtain ⟨other, ho, hsame⟩ := hg.find? hn
        have hafter (outcome : Bool) : other.after outcome = node.after outcome := by
          rw [← Node.after_unselected, hsame, Node.after_unselected]
        have hrecord : other.record = node.record := by
          rw [← Node.record_unselected, hsame, Node.record_unselected]
        cases hr : node.record with
        | action a =>
          rw [runWithin_action hn hr true, runWithin_action ho (hrecord.trans hr) true, hafter,
            ih hg]
        | test condition =>
          cases outcomes with
          | nil => rw [runWithin_wait hn hr, runWithin_wait ho (hrecord.trans hr)]
          | cons outcome outcomes =>
            obtain ⟨g', hg', hwalk⟩ := runWithin_test n outcomes hn hr outcome
            obtain ⟨h', hh', hwalk'⟩ := runWithin_test n outcomes ho
              (hrecord.trans hr) outcome
            rw [hwalk, hwalk', hafter, ih (hg'.trans (hg.trans hh'.symm))]

section Steps

variable {id : NodeId} {node : Node} (n : Nat) (outcomes : List Bool)

theorem trace_none : g.trace n outcomes none = ([], false) := by
  cases n <;> rfl

theorem trace_action {a : Action} (hn : g.find? id = some node) (hr : node.record = .action a)
    (outcome : Bool) :
    g.trace (n + 1) outcomes (some id) =
      (.action a :: (g.trace n outcomes (node.after outcome)).1,
        (g.trace n outcomes (node.after outcome)).2) := by
  simp only [trace, Walk.records, runWithin_action hn hr outcome, Walk.behind,
    List.filterMap_cons, hn,
    Option.map_some, hr]

theorem trace_wait {condition : List Action} (hn : g.find? id = some node)
    (hr : node.record = .test condition) :
    g.trace (n + 1) [] (some id) = ([.test condition], true) := by
  simp only [trace, Walk.records, runWithin_wait hn hr, List.filterMap_cons, List.filterMap_nil, hn,
    Option.map_some, hr, Option.isSome_some]

theorem trace_test {condition : List Action} (hn : g.find? id = some node)
    (hr : node.record = .test condition) (outcome : Bool) :
    g.trace (n + 1) (outcome :: outcomes) (some id) =
      (.test condition :: (g.trace n outcomes (node.after outcome)).1,
        (g.trace n outcomes (node.after outcome)).2) := by
  obtain ⟨chosen, hres, hwalk⟩ := runWithin_test n outcomes hn hr outcome
  simp only [trace, Walk.records, hwalk, hres.walk, Walk.behind, List.filterMap_cons, hn,
    Option.map_some, hr]

end Steps

end Graph
end Seudocodigo
