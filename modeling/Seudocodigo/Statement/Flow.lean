import Seudocodigo.Expression.Code
import Seudocodigo.Graph
import Seudocodigo.Statement

/-! Statements as parts of a graph. Simple statements become straight chains, one node for each
action; conditions and loops get nodes of their own. Parts are lowered before the node that leads to
them, so that most links point backwards in numbers and only exits are set later. -/
namespace Seudocodigo

/-- What adds nodes to a graph and points links at nodes that are there. -/
class Builder (m : Type → Type) where
  add : Node → m NodeId
  fill : NodeId → List Slot → m Unit

variable {m : Type → Type} [Monad m] [Builder m]

namespace Builder

def join (first second : Chain) : m Chain :=
  match second.head with
  | none => return first
  | some head =>
    if first.isEmpty then return second
    else do
      fill head first.exits
      return ⟨first.head, second.exits⟩

def straight : List Action → m Chain
  | [] => return .empty
  | a :: as => do
    let id ← add (.generic a none)
    let rest ← straight as
    join ⟨some id, [⟨id, .next⟩]⟩ rest

/-- The node of a conditional. Its exits are those of the branches and its own link to what
follows; an empty branch leads on at once. -/
def branch (condition : List Action) (thenChain elseChain : Chain) : m Chain := do
  let id ← add (.branch condition thenChain.head elseChain.head none .nextStatement)
  return ⟨some id,
    ⟨id, .next⟩ :: thenChain.exitsOr ⟨id, .trueHead⟩ ++ elseChain.exitsOr ⟨id, .falseHead⟩⟩

/-- The node of a loop, to which the end of the body leads back. A loop that tests last begins with
its body. -/
def loop (kind : LoopKind) (condition : List Action) (body : Chain) : m Chain := do
  let id ← add (.loop kind condition body.head none .programBody)
  fill id (body.exitsOr ⟨id, .bodyHead⟩)
  let head := match kind with
    | .whileLoop => id
    | .untilLoop => body.head.getD id
  return ⟨some head, [⟨id, .next⟩]⟩

end Builder

def Assignment.code (s : Signatures) (a : Assignment) : List Action :=
  a.value.code s ++ indexCode s a.target.indices ++ [.assign a.target.name a.target.indices.length]

/-- A call as a statement: a result is of no use. -/
def Call.statementCode (s : Signatures) (c : Call) : List Action :=
  c.code s ++ if s.yields c.name then [.discard] else []

open Builder

mutual

def Statement.flow (s : Signatures) : Statement → m Chain
  | .declaration .. => return .empty
  | .assignment a => straight (a.code s)
  | .call c => straight (c.statementCode s)
  | .result value _ => straight (value.code s ++ [.result])
  | .conditional condition thenBranch elseBranch _ => do
    let thenChain ← flowOf s thenBranch
    let elseChain ← flowOf s elseBranch
    branch (condition.code s) thenChain elseChain
  | .whileLoop condition body _ => do
    let body ← flowOf s body
    loop .whileLoop (condition.code s) body
  | .untilLoop body condition _ => do
    let body ← flowOf s body
    loop .untilLoop (condition.code s ++ [.apply .not]) body
  | .counting ⟨start, bound, body, p⟩ => do
    let l : CountingLoop := ⟨start, bound, body, p⟩
    let first ← straight (start.code s)
    let turn ← flowOf s body
    let step ← straight (l.increment.code s)
    let body ← join turn step
    let rest ← loop .whileLoop (l.condition.code s) body
    join first rest

def flowOf (s : Signatures) : List Statement → m Chain
  | [] => return .empty
  | st :: sts => do
    let first ← st.flow s
    let rest ← flowOf s sts
    join first rest

end

/-- What builds a graph step by step; a link is set whatever it led to. -/
abbrev Build := StateM Graph

instance : Builder Build where
  add node := fun g => g.add node
  fill target slots := fun g => ((), g.fillAll target slots)

theorem Build.run_join (first second : Chain) (g : Graph) :
    (join first second : Build Chain) g = g.join first second := by
  rw [join, Graph.join]
  cases second.head with
  | none => rfl
  | some head => cases first.isEmpty <;> rfl

end Seudocodigo
