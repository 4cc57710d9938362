import Seudocodigo.Module
import Seudocodigo.SyntaxError

/-! Programs and errors with other places in the text, but otherwise the same. -/
namespace Seudocodigo

section Definitions

variable (f : Location → Location)

mutual

def Access.relocate : Access → Access
  | ⟨name, indices⟩ => ⟨name, relocateExpressions indices⟩

def Call.relocate : Call → Call
  | ⟨name, args, p⟩ => ⟨name, relocateExpressions args, f p⟩

def Element.relocate : Element → Element
  | .literal value => .literal value
  | .access a => .access a.relocate
  | .operator op => .operator op
  | .call c => .call c.relocate

def relocateElements : List Element → List Element
  | [] => []
  | e :: es => e.relocate :: relocateElements es

def Expression.relocate : Expression → Expression
  | ⟨es, p⟩ => ⟨relocateElements es, f p⟩

def relocateExpressions : List Expression → List Expression
  | [] => []
  | e :: es => e.relocate :: relocateExpressions es

end

def Variable.relocate (v : Variable) : Variable := { v with location := f v.location }

def Assignment.relocate (a : Assignment) : Assignment :=
  ⟨a.target.relocate f, a.value.relocate f, f a.location⟩

mutual

def Statement.relocate : Statement → Statement
  | .declaration vs p => .declaration (vs.map (Variable.relocate f)) (f p)
  | .assignment a => .assignment (a.relocate f)
  | .conditional condition thenBranch elseBranch p =>
    .conditional (condition.relocate f) (relocateStatements thenBranch)
      (relocateStatements elseBranch) (f p)
  | .whileLoop condition body p =>
    .whileLoop (condition.relocate f) (relocateStatements body) (f p)
  | .untilLoop body condition p =>
    .untilLoop (relocateStatements body) (condition.relocate f) (f p)
  | .counting ⟨start, bound, body, p⟩ =>
    .counting ⟨start.relocate f, bound.relocate f, relocateStatements body, f p⟩
  | .call c => .call (c.relocate f)
  | .result value p => .result (value.relocate f) (f p)

def relocateStatements : List Statement → List Statement
  | [] => []
  | s :: ss => s.relocate :: relocateStatements ss

end

def Module.relocate (m : Module) : Module :=
  ⟨m.name, m.kind, m.parameters.map (Variable.relocate f), m.body.map (Statement.relocate f),
    f m.location⟩

def Program.relocate (p : Program) : Program :=
  ⟨p.main.relocate f, p.subprograms.map (Module.relocate f)⟩

def SyntaxError.relocate (e : SyntaxError) : SyntaxError := { e with location := f e.location }

end Definitions

section Lists

variable (f : Location → Location)

theorem relocateElements_eq_map (es : List Element) :
    relocateElements f es = es.map (Element.relocate f) := by
  induction es with
  | nil => rw [relocateElements]; rfl
  | cons e es ih => rw [relocateElements, ih, List.map_cons]

theorem relocateElements_append (es fs : List Element) :
    relocateElements f (es ++ fs) = relocateElements f es ++ relocateElements f fs := by
  simp only [relocateElements_eq_map, List.map_append]

theorem relocateExpressions_eq_map (es : List Expression) :
    relocateExpressions f es = es.map (Expression.relocate f) := by
  induction es with
  | nil => rw [relocateExpressions]; rfl
  | cons e es ih => rw [relocateExpressions, ih, List.map_cons]

theorem relocateStatements_eq_map (ss : List Statement) :
    relocateStatements f ss = ss.map (Statement.relocate f) := by
  induction ss with
  | nil => rw [relocateStatements]; rfl
  | cons s ss ih => rw [relocateStatements, ih, List.map_cons]

end Lists

theorem SyntaxError.eq_of_relocate {f : Location → Location} {d e : SyntaxError}
    (h : d.relocate f = e.relocate f) :
    d.found = e.found ∧ d.expected = e.expected ∧ d.reason = e.reason := by
  rw [relocate, relocate, SyntaxError.mk.injEq] at h
  exact ⟨h.1, h.2.1, h.2.2.2⟩

/-! Where no place changes, nothing does. -/

mutual

theorem Access.relocate_id (a : Access) : a.relocate id = a := by
  obtain ⟨name, indices⟩ := a
  rw [Access.relocate, relocateExpressions_id indices]

theorem Call.relocate_id (c : Call) : c.relocate id = c := by
  obtain ⟨name, args, p⟩ := c
  rw [Call.relocate, relocateExpressions_id args, id]

theorem Element.relocate_id (e : Element) : e.relocate id = e := by
  cases e with
  | literal | operator => rw [Element.relocate]
  | access a => rw [Element.relocate, Access.relocate_id a]
  | call c => rw [Element.relocate, Call.relocate_id c]

theorem relocateElements_id (es : List Element) : relocateElements id es = es := by
  cases es with
  | nil => rw [relocateElements]
  | cons e es => rw [relocateElements, Element.relocate_id e, relocateElements_id es]

theorem Expression.relocate_id (e : Expression) : e.relocate id = e := by
  obtain ⟨es, p⟩ := e
  rw [Expression.relocate, relocateElements_id es, id]

theorem relocateExpressions_id (es : List Expression) : relocateExpressions id es = es := by
  cases es with
  | nil => rw [relocateExpressions]
  | cons e es => rw [relocateExpressions, Expression.relocate_id e, relocateExpressions_id es]

end

theorem Variable.relocate_id (v : Variable) : v.relocate id = v := rfl

theorem map_relocate_id_variables (vs : List Variable) : vs.map (Variable.relocate id) = vs :=
  (List.map_congr_left fun v _ => v.relocate_id).trans (List.map_id vs)

theorem Assignment.relocate_id (a : Assignment) : a.relocate id = a := by
  rw [Assignment.relocate, Access.relocate_id, Expression.relocate_id, id]

mutual

theorem Statement.relocate_id (s : Statement) : s.relocate id = s := by
  cases s with
  | declaration vs p => rw [Statement.relocate, map_relocate_id_variables, id]
  | assignment a => rw [Statement.relocate, a.relocate_id]
  | conditional condition thenBranch elseBranch p =>
    rw [Statement.relocate, condition.relocate_id, relocateStatements_id thenBranch,
      relocateStatements_id elseBranch, id]
  | whileLoop condition body p | untilLoop body condition p =>
    rw [Statement.relocate, condition.relocate_id, relocateStatements_id body, id]
  | counting l =>
    obtain ⟨start, bound, body, p⟩ := l
    rw [Statement.relocate, start.relocate_id, bound.relocate_id, relocateStatements_id body, id]
  | call c => rw [Statement.relocate, c.relocate_id]
  | result value p => rw [Statement.relocate, value.relocate_id, id]

theorem relocateStatements_id (ss : List Statement) : relocateStatements id ss = ss := by
  cases ss with
  | nil => rw [relocateStatements]
  | cons s ss => rw [relocateStatements, Statement.relocate_id s, relocateStatements_id ss]

end

theorem Module.relocate_id (m : Module) : m.relocate id = m := by
  rw [Module.relocate, map_relocate_id_variables, ← relocateStatements_eq_map,
    relocateStatements_id, id]

theorem Program.relocate_id (p : Program) : p.relocate id = p := by
  have hsubprograms : p.subprograms.map (Module.relocate id) = p.subprograms :=
    (List.map_congr_left fun m _ => m.relocate_id).trans (List.map_id _)
  rw [Program.relocate, p.main.relocate_id, hsubprograms]

end Seudocodigo
