import Seudocodigo.Action

/-! Graphs of nodes that a stack machine runs through. A node that tests a condition has several
links, and its selector says which of them control takes; the link to what follows in the text is
there as well. -/
namespace Seudocodigo

/-- The number of a node, in the order in which nodes are added. Numbers of 32 bits are the same for
graphs of fewer than 2^32 nodes. -/
abbrev NodeId := Nat

inductive BranchSelector where
  | trueBranch
  | falseBranch
  | nextStatement
deriving DecidableEq, Repr

namespace BranchSelector

def name : BranchSelector → String
  | .trueBranch => "true_branch"
  | .falseBranch => "false_branch"
  | .nextStatement => "next_statement"

def ofName? (s : String) : Option BranchSelector :=
  [.trueBranch, .falseBranch, .nextStatement].find? (·.name = s)

end BranchSelector

inductive LoopSelector where
  | loopBody
  | programBody
deriving DecidableEq, Repr

namespace LoopSelector

def name : LoopSelector → String
  | .loopBody => "loop_body"
  | .programBody => "program_body"

def ofName? (s : String) : Option LoopSelector := [.loopBody, .programBody].find? (·.name = s)

end LoopSelector

inductive LoopKind where
  | whileLoop
  /-- The condition kept is the one to go on. -/
  | untilLoop
deriving DecidableEq, Repr

inductive Link where
  | next
  | trueHead
  | falseHead
  | bodyHead
deriving DecidableEq, Repr

inductive Node where
  | generic (action : Action) (next : Option NodeId)
  | branch (condition : List Action) (trueHead falseHead next : Option NodeId)
      (selector : BranchSelector)
  | loop (kind : LoopKind) (condition : List Action) (bodyHead next : Option NodeId)
      (selector : LoopSelector)
deriving DecidableEq, Repr

namespace Node

/-- The target of a link: none if the node has no such link, none within if the link leads
nowhere yet. -/
def link? : Node → Link → Option (Option NodeId)
  | .generic _ next, .next => some next
  | .branch _ _ _ next _, .next => some next
  | .branch _ trueHead _ _ _, .trueHead => some trueHead
  | .branch _ _ falseHead _ _, .falseHead => some falseHead
  | .loop _ _ _ next _, .next => some next
  | .loop _ _ bodyHead _ _, .bodyHead => some bodyHead
  | _, _ => none

/-- Points a link at a node. A link that the node does not have stays away. -/
def setLink (target : NodeId) : Link → Node → Node
  | .next, .generic a _ => .generic a (some target)
  | .next, .branch c t f _ s => .branch c t f (some target) s
  | .trueHead, .branch c _ f n s => .branch c (some target) f n s
  | .falseHead, .branch c t _ n s => .branch c t (some target) n s
  | .next, .loop k c b _ s => .loop k c b (some target) s
  | .bodyHead, .loop k c _ n s => .loop k c (some target) n s
  | _, node => node

def structuralNext : Node → Option NodeId
  | .generic _ next => next
  | .branch _ _ _ next _ => next
  | .loop _ _ _ next _ => next

def controlNext : Node → Option NodeId
  | .generic _ next => next
  | .branch _ trueHead _ _ .trueBranch => trueHead
  | .branch _ _ falseHead _ .falseBranch => falseHead
  | .branch _ _ _ next .nextStatement => next
  | .loop _ _ bodyHead _ .loopBody => bodyHead
  | .loop _ _ _ next .programBody => next

def condition? : Node → Option (List Action)
  | .generic .. => none
  | .branch condition .. => some condition
  | .loop _ condition .. => some condition

end Node

inductive GraphError where
  | unknownNode (id : NodeId)
  | notSelectable (id : NodeId)
  | unknownSelector (id : NodeId) (name : String)
deriving DecidableEq, Repr

namespace GraphError

def message : GraphError → String
  | .unknownNode id => s!"Node #{id} does not exist"
  | .notSelectable id => s!"Node #{id} has a single successor and cannot select one"
  | .unknownSelector id name => s!"Node #{id} has no successor named '" ++ name ++ "'"

end GraphError

/-- A link of a node, whether the node and its link exist or not. -/
structure Slot where
  node : NodeId
  link : Link
deriving DecidableEq, Repr

/-- The part of a graph that some statements were turned into: its first node, none if there is no
node, and the links that have to lead to what follows. -/
structure Chain where
  head : Option NodeId
  exits : List Slot
deriving DecidableEq, Repr

namespace Chain

def empty : Chain := ⟨none, []⟩

def isEmpty (c : Chain) : Bool := c.head.isNone

/-- The exits of a chain; for an empty one, the link that would have led to it. -/
def exitsOr (c : Chain) (slot : Slot) : List Slot := if c.isEmpty then [slot] else c.exits

end Chain

structure Graph where
  nodes : Array Node
deriving DecidableEq, Repr

namespace Graph

def empty : Graph := ⟨⟨[]⟩⟩

def size (g : Graph) : Nat := g.nodes.size

def find? (g : Graph) (id : NodeId) : Option Node := g.nodes[id]?

def add (node : Node) (g : Graph) : NodeId × Graph := (g.nodes.size, ⟨g.nodes.push node⟩)

def modify (g : Graph) (id : NodeId) (f : Node → Node) : Graph := ⟨g.nodes.modify id f⟩

@[simp] theorem find?_add (node : Node) (g : Graph) (id : NodeId) :
    (g.add node).2.find? id = if id = g.size then some node else g.find? id := by
  exact Array.getElem?_push

theorem find?_modify (g : Graph) (id i : NodeId) (f : Node → Node) :
    (g.modify id f).find? i = if id = i then (g.find? i).map f else g.find? i := by
  simp [modify, find?, Array.getElem?_modify]

@[simp] theorem size_modify (g : Graph) (id : NodeId) (f : Node → Node) :
    (g.modify id f).size = g.size := by
  simp [modify, size]

def fill (g : Graph) (target : NodeId) (slot : Slot) : Graph :=
  g.modify slot.node (.setLink target slot.link)

def fillAll (g : Graph) (target : NodeId) (slots : List Slot) : Graph :=
  slots.foldl (·.fill target ·) g

def attach (g : Graph) (c : Chain) (target : NodeId) : Graph := g.fillAll target c.exits

def join (first second : Chain) (g : Graph) : Chain × Graph :=
  match second.head with
  | none => (first, g)
  | some head =>
    if first.isEmpty then (second, g)
    else (⟨first.head, second.exits⟩, g.attach first head)

@[simp] theorem size_fillAll (g : Graph) (target : NodeId) (slots : List Slot) :
    (g.fillAll target slots).size = g.size := by
  induction slots generalizing g with
  | nil => rfl
  | cons slot slots ih => exact (ih (g.fill target slot)).trans (size_modify ..)

theorem join_empty_right (c : Chain) (g : Graph) : g.join c .empty = (c, g) := rfl

def select (g : Graph) (id : NodeId) (name : String) : Except GraphError Graph :=
  match g.find? id with
  | none => .error (.unknownNode id)
  | some (.generic ..) => .error (.notSelectable id)
  | some (.branch c t f n _) =>
    match BranchSelector.ofName? name with
    | some s => .ok (g.modify id fun _ => .branch c t f n s)
    | none => .error (.unknownSelector id name)
  | some (.loop k c b n _) =>
    match LoopSelector.ofName? name with
    | some s => .ok (g.modify id fun _ => .loop k c b n s)
    | none => .error (.unknownSelector id name)

end Graph
end Seudocodigo
