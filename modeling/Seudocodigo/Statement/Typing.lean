import Seudocodigo.Expression.Typing

/-! The type errors of statements. Each part of a statement that can be wrong on its own gives at
most one error, and all statements of a module are looked at. -/
namespace Seudocodigo

def failure (check : Except TypeError α) : List TypeError :=
  match check with
  | .ok _ => []
  | .error e => [e]

def require (check : Except TypeError Ty) (expected : Ty) (problem : Ty → TypeProblem)
    (p : Location) : Except TypeError Unit := do
  let t ← check
  if t = expected then return () else throw ⟨problem t, p⟩

def Assignment.check (Γ : Context) (a : Assignment) : Except TypeError Unit := do
  let expected ← a.target.type Γ a.location
  let received ← a.value.type Γ
  if expected.accepts received then return ()
  else throw ⟨.assignment expected received, a.location⟩

def checkResult (Γ : Context) (value : Expression) (p : Location) : Except TypeError Unit := do
  match Γ.returns? with
  | none => throw ⟨.resultOutsideFunction, p⟩
  | some expected =>
    let received ← value.type Γ
    if received = expected then return ()
    else throw ⟨.resultType Γ.name expected received, p⟩

def Expression.checkCondition (Γ : Context) (e : Expression) : Except TypeError Unit :=
  require (e.type Γ) .logical .condition e.location

mutual

def Statement.errors (Γ : Context) : Statement → List TypeError
  | .declaration .. => []
  | .assignment a => failure (a.check Γ)
  | .conditional condition thenBranch elseBranch _ =>
    failure (condition.checkCondition Γ) ++ errorsOf Γ thenBranch ++ errorsOf Γ elseBranch
  | .whileLoop condition body _ => failure (condition.checkCondition Γ) ++ errorsOf Γ body
  | .untilLoop body condition _ => failure (condition.checkCondition Γ) ++ errorsOf Γ body
  | .counting ⟨start, bound, body, p⟩ =>
    failure (require (start.target.type Γ p) .integer .counter p)
      ++ failure (require (start.value.type Γ) .integer .counterStart start.value.location)
      ++ failure (require (bound.type Γ) .integer .counterBound bound.location)
      ++ errorsOf Γ body
  | .call c => failure (c.check Γ)
  | .result value p => failure (checkResult Γ value p)

def errorsOf (Γ : Context) : List Statement → List TypeError
  | [] => []
  | s :: ss => s.errors Γ ++ errorsOf Γ ss

end

end Seudocodigo
