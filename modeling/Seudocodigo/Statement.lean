import Seudocodigo.Expression

/-! Variables and statements. -/
namespace Seudocodigo

structure Variable where
  name : String
  atom : Atom
  dims : List Nat
  byReference : Bool
  location : Location
deriving DecidableEq, Repr

namespace Variable

def isArray (v : Variable) : Bool := !v.dims.isEmpty

def ty (v : Variable) : Ty := .ofDims v.atom v.dims

end Variable

def maxCells : Nat := Nat.pow 2 24

def product? (m n : Nat) : Option Nat := if m * n < Nat.pow 2 64 then some (m * n) else none

def cellsWithin? (m n : Nat) : Option Nat := (product? m n).filter (· ≤ maxCells)

theorem cellsWithin?_eq_some {m n cells : Nat} :
    cellsWithin? m n = some cells ↔ m * n = cells ∧ cells ≤ maxCells := by
  rw [cellsWithin?, Option.filter_eq_some_iff, product?, decide_eq_true_iff]
  refine and_congr_left fun hle => ?_
  split
  · exact Option.some_inj
  · next hlarge =>
    have hmax : maxCells < Nat.pow 2 64 := by decide
    exact ⟨nofun, by omega⟩

/-- Products of more than 64 bits are among those that are too large. -/
theorem cellsWithin?_eq_none {m n : Nat} : cellsWithin? m n = none ↔ maxCells < m * n := by
  rw [← Nat.not_le, Option.eq_none_iff_forall_ne_some]
  constructor
  · intro h hle
    exact h _ (cellsWithin?_eq_some.2 ⟨rfl, hle⟩)
  · rintro h cells hcells
    obtain ⟨rfl, hle⟩ := cellsWithin?_eq_some.1 hcells
    exact h hle

structure Assignment where
  target : Access
  value : Expression
  location : Location

mutual

inductive Statement where
  | declaration (declared : List Variable) (location : Location)
  | assignment (assignment : Assignment)
  | conditional (condition : Expression) (thenBranch elseBranch : List Statement)
      (location : Location)
  | whileLoop (condition : Expression) (body : List Statement) (location : Location)
  | untilLoop (body : List Statement) (condition : Expression) (location : Location)
  | counting (loop : CountingLoop)
  | call (call : Call)
  | result (value : Expression) (location : Location)

/-- `para counter <- first hasta bound`. -/
structure CountingLoop where
  /-- Gives the counter its first value. -/
  start : Assignment
  bound : Expression
  body : List Statement
  location : Location

end

namespace CountingLoop

def condition (l : CountingLoop) : Expression :=
  ⟨.access l.start.target :: l.bound.elements ++ [.operator .lessEqual], l.bound.location⟩

def increment (l : CountingLoop) : Assignment :=
  ⟨l.start.target,
    ⟨[.access l.start.target, .literal (.integer 1), .operator .plus], l.location⟩, l.location⟩

/-- The same loop in terms of `mientras`; it belongs behind the start of the counter. -/
def asWhile (l : CountingLoop) : Statement :=
  .whileLoop l.condition (l.body ++ [.assignment l.increment]) l.location

end CountingLoop

mutual

def Statement.countingLoops : Statement → List CountingLoop
  | .conditional _ thenBranch elseBranch _ =>
    countingLoopsOf thenBranch ++ countingLoopsOf elseBranch
  | .whileLoop _ body _ => countingLoopsOf body
  | .untilLoop body _ _ => countingLoopsOf body
  | .counting ⟨start, bound, body, location⟩ =>
    ⟨start, bound, body, location⟩ :: countingLoopsOf body
  | .declaration .. | .assignment _ | .call _ | .result .. => []

def countingLoopsOf : List Statement → List CountingLoop
  | [] => []
  | s :: ss => s.countingLoops ++ countingLoopsOf ss

end

end Seudocodigo
