import Seudocodigo.Module
import Seudocodigo.TypeError

/-! The variables of a module: what is declared, and the cells that arrays get. -/
namespace Seudocodigo

/-- A declared variable, with the cells of an array once it has got them. -/
structure Local extends Variable where
  values : Option (Array Value)

namespace Local

def ofVariable (v : Variable) : Local := ⟨v, none⟩

/-- The product of the dimensions from the left, as long as it fits into 64 bits; one without
dimensions. -/
def cellCount? (v : Local) : Option Nat :=
  v.dims.foldlM product? 1

/-- Gives an array its cells, all without a value, unless there are too many of them. -/
def allocate (v : Local) : Local :=
  if v.isArray then
    match v.cellCount? with
    | some cells =>
      if cells ≤ maxCells then { v with values := some (.replicate cells .uninitialized) } else v
    | none => v
  else v

@[simp] theorem toVariable_allocate (v : Local) : v.allocate.toVariable = v.toVariable := by
  unfold allocate
  split
  · split
    · split <;> rfl
    · rfl
  · rfl

end Local

/-- The variables of a module in the order of their declarations, with different names. -/
structure Scope where
  locals : List Local
  distinct : (locals.map (·.name)).Nodup

namespace Scope

def empty : Scope := ⟨[], .nil⟩

def find? (s : Scope) (name : String) : Option Local := s.locals.find? (·.name = name)

def contains (s : Scope) (name : String) : Bool := (s.find? name).isSome

def size (s : Scope) : Nat := s.locals.length

def toList (s : Scope) : List Local := s.locals

theorem name_not_mem_of_find?_eq_none {s : Scope} {name : String} (h : s.find? name = none) :
    name ∉ s.locals.map (·.name) := by
  intro hm
  obtain ⟨v, hv, rfl⟩ := List.mem_map.1 hm
  simpa using List.find?_eq_none.1 h v hv

/-- Adds a variable. If its name is taken, the variable that has it is returned and nothing
changes. -/
def declare (s : Scope) (v : Local) : Option Local × Scope :=
  match h : s.find? v.name with
  | some earlier => (some earlier, s)
  | none => (none, ⟨s.locals ++ [v], by
      have := name_not_mem_of_find?_eq_none h
      rw [List.map_append, List.nodup_append]
      refine ⟨s.distinct, by simp, ?_⟩
      intro a ha b hb
      rw [List.map_cons, List.map_nil, List.mem_singleton] at hb
      exact fun e => this (hb ▸ e ▸ ha)⟩)

def allocate (s : Scope) : Scope :=
  ⟨s.locals.map Local.allocate, by
    have : (s.locals.map Local.allocate).map (·.name) = s.locals.map (·.name) := by simp
    rw [this]
    exact s.distinct⟩

def declareAll (s : Scope) : List Variable → Scope × List TypeError
  | [] => (s, [])
  | v :: vs =>
    match s.declare (.ofVariable v) with
    | (none, s) => s.declareAll vs
    | (some _, s) =>
      let (s, errors) := s.declareAll vs
      (s, ⟨.duplicateVariable v.name, v.location⟩ :: errors)

end Scope

namespace Statement

def declared : Statement → List Variable
  | .declaration vs _ => vs
  | _ => []

def isDeclaration : Statement → Bool
  | .declaration .. => true
  | _ => false

end Statement

/-- The variables and the other statements of a body, with the variables declared twice. Only
declarations that the body consists of count, not any within its statements. -/
def hoist (body : List Statement) : Scope × List Statement × List TypeError :=
  let (scope, errors) := Scope.empty.declareAll (body.flatMap Statement.declared)
  (scope, body.filter (!·.isDeclaration), errors)

/-- A module whose declarations have gone from its body into a scope. -/
structure ScopedModule where
  module : Module
  scope : Scope
  hoistErrors : List TypeError

def Module.hoisted (m : Module) : ScopedModule :=
  let (scope, body, errors) := hoist m.body
  ⟨{ m with body }, scope, errors⟩

end Seudocodigo
