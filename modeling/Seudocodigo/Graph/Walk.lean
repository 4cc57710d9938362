import Seudocodigo.Graph

/-! Walks through graphs: along one kind of link until they end or come round, and along control
with the outcome of every test given beforehand. -/
namespace Seudocodigo

/-- The nodes that a walk passed, and the one it stopped at, if it did not leave the graph. -/
structure Walk where
  path : List NodeId
  stop : Option NodeId
deriving DecidableEq, Repr

namespace Walk

def behind (id : NodeId) (w : Walk) : Walk := ⟨id :: w.path, w.stop⟩

/-- Goes from node to node and stops before one it has passed, in at most the given number of
steps. -/
def within (g : Graph) (step : Node → Option NodeId) : Nat → List NodeId → Option NodeId → Walk
  | 0, _, stop => ⟨[], stop⟩
  | _ + 1, _, none => ⟨[], none⟩
  | n + 1, passed, some id =>
    if passed.contains id then ⟨[], some id⟩
    else (within g step n (id :: passed) ((g.find? id).bind step)).behind id

def structural (g : Graph) (from? : Option NodeId) : Walk :=
  within g Node.structuralNext (g.size + 2) [] from?

def control (g : Graph) (from? : Option NodeId) : Walk :=
  within g Node.controlNext (g.size + 2) [] from?

def selectorFor : Node → Bool → Option String
  | .generic .., _ => none
  | .branch .., outcome =>
    some (if outcome then BranchSelector.trueBranch.name else BranchSelector.falseBranch.name)
  | .loop .., outcome =>
    some (if outcome then LoopSelector.loopBody.name else LoopSelector.programBody.name)

/-- Runs along control in at most the given number of steps. Every test takes the next outcome and
sets its selector; a test without an outcome left stops the walk. -/
def runWithin : Nat → Graph → List Bool → Option NodeId → Walk × Graph
  | 0, g, _, stop => (⟨[], stop⟩, g)
  | _ + 1, g, _, none => (⟨[], none⟩, g)
  | n + 1, g, outcomes, some id =>
    match g.find? id with
    | none => (⟨[id], none⟩, g)
    | some node =>
      match selectorFor node true, outcomes with
      | none, outcomes =>
        let (w, g) := runWithin n g outcomes node.controlNext
        (w.behind id, g)
      | some _, [] => (⟨[id], some id⟩, g)
      | some _, outcome :: outcomes =>
        let g := ((g.select id ((selectorFor node outcome).getD "")).toOption).getD g
        let (w, g) := runWithin n g outcomes ((g.find? id).bind Node.controlNext)
        (w.behind id, g)

/-- Runs along control with the given outcomes of the tests. Between two tests no more nodes are
passed than the graph has. -/
def run (g : Graph) (outcomes : List Bool) (from? : Option NodeId) : Walk × Graph :=
  runWithin ((outcomes.length + 1) * (g.size + 1)) g outcomes from?

end Walk
end Seudocodigo
