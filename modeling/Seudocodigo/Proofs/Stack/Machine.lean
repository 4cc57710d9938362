import Seudocodigo.Expression.Typing
import Seudocodigo.Module.Flow
import Seudocodigo.Proofs.Flow.Paths

/-! The types of what compiled modules have on the stack of operands, action by action. -/
namespace Seudocodigo

inductive Operand where
  | value (type : Ty)
  | reference (type : Ty)
deriving DecidableEq, Repr

def Variable.operand (v : Variable) : Operand :=
  if v.byReference then .reference v.ty else .value v.ty

namespace Operand

/-- The stack below the expected operands, of which the last lies on top. -/
def take? (expected stack : List Operand) : Option (List Operand) :=
  if stack.take expected.length = expected.reverse then some (stack.drop expected.length) else none

def takeIndices? (indices : Nat) : List Operand → Option (List Operand) :=
  take? (.replicate indices (.value .integer))

theorem take?_append (expected stack : List Operand) :
    take? expected (expected.reverse ++ stack) = some stack := by
  have hlen : expected.length = expected.reverse.length := List.length_reverse.symm
  rw [take?, hlen, List.take_left, List.drop_left, if_pos rfl]

theorem takeIndices?_append (n : Nat) (stack : List Operand) :
    takeIndices? n (.replicate n (.value .integer) ++ stack) = some stack := by
  have h := take?_append (.replicate n (.value .integer)) stack
  rwa [List.reverse_replicate] at h

theorem length_of_take? {expected stack rest : List Operand}
    (h : take? expected stack = some rest) :
    stack.length = rest.length + expected.length := by
  rw [take?] at h
  split at h
  · next heq =>
    cases h
    have hlen := congrArg List.length heq
    simp only [List.length_take, List.length_reverse] at hlen
    rw [List.length_drop]
    omega
  · cases h

theorem length_of_takeIndices? {n : Nat} {stack rest : List Operand}
    (h : takeIndices? n stack = some rest) : stack.length = rest.length + n := by
  have hlen := length_of_take? h
  rwa [List.length_replicate] at hlen

end Operand

def Operator.act (op : Operator) : List Operand → Option (List Operand)
  | .value right :: rest =>
    if op.leadsOperand then (op.unaryType? right).map (.value · :: rest)
    else
      match rest with
      | .value left :: rest => (op.binaryType? left right).map (.value · :: rest)
      | _ => none
  | _ => none

namespace Operator

variable {op : Operator} {rest : List Operand}

theorem act_unary (hop : op.leadsOperand = true) (t : Ty) :
    op.act (.value t :: rest) = (op.unaryType? t).map (.value · :: rest) :=
  if_pos hop

theorem act_binary (hop : op.leadsOperand = false) (l r : Ty) :
    op.act (.value r :: .value l :: rest) = (op.binaryType? l r).map (.value · :: rest) :=
  if_neg (by simp [hop])

end Operator

def CompiledProgram.yields (p : CompiledProgram) (name : String) : Bool :=
  !Module.isBuiltin name && ((p.find? name).bind (·.kind.returns?)).isSome

def Action.endsStatement (p : CompiledProgram) : Action → Bool
  | .assign .. | .discard | .result => true
  | .call name _ => !p.yields name
  | .push _ | .load _ | .subscript .. | .reference .. | .apply _ => false

namespace CompiledModule

def selected? (m : CompiledModule) (name : String) (indices : Nat) : Option Ty := do
  let v ← m.scope.find? name
  if indices ≤ v.dims.length then some (.ofDims v.atom (v.dims.drop indices)) else none

/-- The stack after an action of the module in the program; none if an operand is missing or of a
wrong type. -/
def act? (p : CompiledProgram) (m : CompiledModule) :
    Action → List Operand → Option (List Operand)
  | .push value, stack => some (.value value.ty :: stack)
  | .load name, stack => (m.selected? name 0).map (.value · :: stack)
  | .subscript name n, stack => do
    let rest ← Operand.takeIndices? n stack
    (m.selected? name n).map (.value · :: rest)
  | .reference name n, stack => do
    let rest ← Operand.takeIndices? n stack
    (m.selected? name n).map (.reference · :: rest)
  | .apply op, stack => op.act stack
  | .call name n, stack =>
    if Module.isBuiltin name then if n ≤ stack.length then some (stack.drop n) else none
    else do
      let callee ← p.find? name
      let rest ← Operand.take? (callee.parameters.map Variable.operand) stack
      if callee.parameters.length = n then
        some ((callee.kind.returns?.map Operand.value).toList ++ rest)
      else none
  | .discard, _ :: stack => some stack
  | .discard, [] => none
  | .assign name n, stack => do
    let rest ← Operand.takeIndices? n stack
    let expected ← m.selected? name n
    match rest with
    | .value received :: rest => if expected.accepts received then some rest else none
    | _ => none
  | .result, .value received :: stack =>
    if m.kind.returns? = some received then some stack else none
  | .result, _ => none

def run? (p : CompiledProgram) (m : CompiledModule) :
    List Action → List Operand → Option (List Operand)
  | [], stack => some stack
  | a :: as, stack => (m.act? p a stack).bind (m.run? p as)

/-- The stack after a node is passed. A test is made on an empty stack, and takes the truth value
that its condition leaves there; where a statement ends, the stack has to be empty as well. -/
def pass? (p : CompiledProgram) (m : CompiledModule) :
    Record → List Operand → Option (List Operand)
  | .action a, stack => (m.act? p a stack).filter fun rest => !a.endsStatement p || rest.isEmpty
  | .test condition, stack =>
    if stack = [] ∧ m.run? p condition stack = some [.value .logical] then some [] else none

def execute? (p : CompiledProgram) (m : CompiledModule) :
    List Record → List Operand → Option (List Operand)
  | [], stack => some stack
  | r :: rs, stack => (m.pass? p r stack).bind (m.execute? p rs)

/-- Along every path from its entry the module finds the operands that it needs, and where the
module ends the stack is empty. -/
def StackSound (p : CompiledProgram) (m : CompiledModule) : Prop :=
  ∀ records to?, m.graph.Path m.entry records to? →
    ∃ stack, m.execute? p records [] = some stack ∧ (to? = none → stack = [])

variable {p : CompiledProgram} {m : CompiledModule}

theorem run?_append (as bs : List Action) (stack : List Operand) :
    m.run? p (as ++ bs) stack = (m.run? p as stack).bind (m.run? p bs) := by
  induction as generalizing stack with
  | nil => rfl
  | cons a as ih =>
    rw [List.cons_append, run?, run?, Option.bind_assoc]
    exact congrArg _ (funext ih)

theorem execute?_append (rs qs : List Record) (stack : List Operand) :
    m.execute? p (rs ++ qs) stack = (m.execute? p rs stack).bind (m.execute? p qs) := by
  induction rs generalizing stack with
  | nil => rfl
  | cons r rs ih =>
    rw [List.cons_append, execute?, execute?, Option.bind_assoc]
    exact congrArg _ (funext ih)

theorem run?_singleton (a : Action) (stack : List Operand) :
    m.run? p [a] stack = m.act? p a stack :=
  Option.bind_fun_some _

/-- Records of actions are executed as the actions run. -/
theorem run?_of_execute? {as : List Action} {stack rest : List Operand}
    (h : m.execute? p (as.map .action) stack = some rest) : m.run? p as stack = some rest := by
  induction as generalizing stack with
  | nil => exact h
  | cons a as ih =>
    rw [List.map_cons, execute?] at h
    obtain ⟨between, hpass, h⟩ := Option.bind_eq_some_iff.1 h
    rw [run?, (Option.filter_eq_some_iff.1 hpass).1]
    exact ih h

end CompiledModule
end Seudocodigo
