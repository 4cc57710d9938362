import Seudocodigo.Statement.Parse
import Seudocodigo.Proofs.InStep.Expression

/-! Statements in two texts at the same time. -/
namespace Seudocodigo

open Parse

namespace Statement

/-- What begins with a name, with the name passed before it is known whether it is called. -/
def parseNamed : Parse Statement := do
  let p ← Parse.location
  let name ← word
  if ← atSymbol .leftParen then
    let args ← Expression.parseArguments
    return .call ⟨name, args, p⟩
  else
    let indices ← Expression.parseIndices
    let _ ← symbol .arrow (some .badAssignmentOperator)
    let value ← Expression.parse
    return .assignment ⟨⟨name, indices⟩, value, p⟩

def parseBeginning (block : BlockEnd → Parse (List Statement)) : TokenKind → Parse Statement
  | .keyword .si => parseConditional block
  | .keyword .mientras => parseWhile block
  | .keyword .repetir => parseUntil block
  | .keyword .para => parseCounting block
  | .keyword .retornar => parseResult
  | .word _ => parseNamed
  | _ => fail ["statement"] none

theorem peek_one {c : Cursor} (h : c.atEnd = false) : c.peek 1 = c.advance.current := by
  have hpeek : c = .before [c.current] c.advance := (Cursor.Passes.advance h).eq_before
  rw [hpeek, Cursor.peek_before_cons, Cursor.advance_before_cons (of_decide_eq_false h)]

/-- There is no need to look farther than the current token. -/
theorem outcome_parseNamed {c : Cursor} {name : String} (h : c.current.kind = .word name) :
    (if (c.peek 1).kind = .symbol .leftParen then Statement.call <$> parseCall
      else Statement.assignment <$> parseAssignment).outcome c = parseNamed.outcome c := by
  have hend : c.atEnd = false := Cursor.atEnd_eq_false h (by simp)
  have hword : word.outcome c = (.ok name, c.advance) := by rw [outcome_word, h]
  rw [peek_one hend, parseNamed, outcome_location_bind, outcome_bind_of_ok hword,
    outcome_atSymbol_bind, Cursor.atSymbol]
  by_cases hparen : c.advance.current.kind = .symbol .leftParen
  · rw [if_pos hparen, decide_eq_true hparen, if_pos rfl, parseCall]
    simp only [map_bind, map_pure, outcome_location_bind, outcome_bind_of_ok hword]
  · rw [if_neg hparen, decide_eq_false hparen, if_neg (by simp), parseAssignment, Access.parse]
    simp only [map_bind, map_pure, bind_assoc, pure_bind, outcome_location_bind,
      outcome_bind_of_ok hword]

theorem parseWith_eq (block : BlockEnd → Parse (List Statement)) :
    parseWith block = current >>= fun t => parseBeginning block t.kind := by
  funext c
  show (parseWith block).outcome c = outcome _ c
  rw [parseWith, outcome_cursor_bind, outcome_current_bind]
  generalize hk : c.current.kind = k
  cases k with
  | keyword w => cases w <;> rfl
  | word name => exact outcome_parseNamed hk
  | _ => rfl

theorem blockWithin_succ (n : Nat) (e : BlockEnd) :
    blockWithin (n + 1) e = (do
      Parse.skipLineEnds
      let t ← current
      if e.closers.any (t.kind = .keyword ·) then return []
      else if decide (t.kind = .endOfFile) || closers.any (t.kind = .keyword ·) then
        fail (e.closers.map Keyword.text) (some e.missing)
      else
        let s ← parseWith (blockWithin n)
        lineEnd
        let ss ← blockWithin n e
        return s :: ss) := rfl

end Statement

namespace Likeness

open Statement

variable {L : Likeness} {n m : Nat} {block block' : BlockEnd → Parse (List Statement)}

theorem takes_named : L.Takes (Statement.relocate L.place) parseNamed parseNamed := fun n m => by
  refine (keeps_location n m).bind fun p q hpq => (takes_word n m).bind fun a b hab => ?_
  obtain rfl : a = b := hab
  refine atSymbol_bind fun b => ?_
  cases b with
  | true =>
    refine (keeps_arguments _ _).map fun es fs hes => ?_
    simp only [Statement.relocate, Call.relocate, relocateExpressions_eq_map, hes, hpq]
  | false =>
    refine (keeps_indices _ _).bind fun es fs hes => ?_
    refine ((takes_symbol _ _).keeps _ _).bind fun _ _ _ => ?_
    refine (keeps_expression _ _).map fun e f hef => ?_
    simp only [Statement.relocate, Assignment.relocate, Access.relocate,
      relocateExpressions_eq_map, hes, hef, hpq]

def BlocksInStep (L : Likeness) (n m : Nat) (block block' : BlockEnd → Parse (List Statement)) :
    Prop :=
  ∀ e, L.InStep (L.Within n m) (L.Within n m) (List.map (Statement.relocate L.place)) (block e)
    (block' e)

namespace BlocksInStep

variable (h : L.BlocksInStep n m block block') (w : Keyword)

include h

theorem nonempty (e : BlockEnd) :
    L.InStep (L.Within n m) (L.Within n m) (List.map (Statement.relocate L.place))
      (parseNonempty (block e)) (parseNonempty (block' e)) := by
  refine (h e).bind fun ss ts hss => ?_
  have hempty : ss.isEmpty = ts.isEmpty := by simpa using congrArg List.isEmpty hss
  rw [hempty]
  split
  · exact inStep_fail _ _ _
  · exact .pure hss

theorem elseBranch :
    L.InStep (L.Within n m) (L.Within n m) (List.map (Statement.relocate L.place))
      (parseElse block) (parseElse block') := by
  have hbranch := (keeps_lineEnd n m).bind fun _ _ _ => h .elseBranch
  exact takeKeyword_bind hbranch.behind (.pure rfl)

theorem conditional :
    L.InStep (L.At (.keyword w) (n + 1) (m + 1)) (L.Within n m) (Statement.relocate L.place)
      (parseConditional block) (parseConditional block') := by
  refine advance_bind (by simp) (by simp) fun t u htu => ?_
  refine (keeps_expression n m).bind fun _ _ hcondition => ?_
  refine ((takes_keyword _ _).keeps n m).bind fun _ _ _ => ?_
  refine (keeps_lineEnd n m).bind fun _ _ _ => ?_
  refine (h _).bind fun _ _ hthen => ?_
  refine h.elseBranch.bind fun _ _ helse => ?_
  refine ((takes_keyword _ _).keeps n m).map fun _ _ _ => ?_
  simp only [Statement.relocate, relocateStatements_eq_map, hcondition, hthen, helse, htu]

theorem whileLoop :
    L.InStep (L.At (.keyword w) (n + 1) (m + 1)) (L.Within n m) (Statement.relocate L.place)
      (parseWhile block) (parseWhile block') := by
  refine advance_bind (by simp) (by simp) fun t u htu => ?_
  refine (keeps_expression n m).bind fun _ _ hcondition => ?_
  refine (keeps_lineEnd n m).bind fun _ _ _ => ?_
  refine (h.nonempty _).bind fun _ _ hbody => ?_
  refine ((takes_keyword _ _).keeps n m).map fun _ _ _ => ?_
  simp only [Statement.relocate, relocateStatements_eq_map, hcondition, hbody, htu]

theorem untilLoop :
    L.InStep (L.At (.keyword w) (n + 1) (m + 1)) (L.Within n m) (Statement.relocate L.place)
      (parseUntil block) (parseUntil block') := by
  refine advance_bind (by simp) (by simp) fun t u htu => ?_
  refine (keeps_lineEnd n m).bind fun _ _ _ => ?_
  refine (h.nonempty _).bind fun _ _ hbody => ?_
  refine ((takes_keyword _ _).keeps n m).bind fun _ _ _ => ?_
  refine ((takes_keyword _ _).keeps n m).bind fun _ _ _ => ?_
  refine (keeps_expression n m).map fun _ _ hcondition => ?_
  simp only [Statement.relocate, relocateStatements_eq_map, hcondition, hbody, htu]

theorem counting :
    L.InStep (L.At (.keyword w) (n + 1) (m + 1)) (L.Within n m) (Statement.relocate L.place)
      (parseCounting block) (parseCounting block') := by
  refine advance_bind (by simp) (by simp) fun t u htu => ?_
  refine (keeps_access n m).bind fun _ _ htarget => ?_
  refine ((takes_symbol _ _).keeps n m).bind fun _ _ _ => ?_
  refine (keeps_expression n m).bind fun _ _ hvalue => ?_
  refine ((takes_keyword _ _).keeps n m).bind fun _ _ _ => ?_
  refine (keeps_expression n m).bind fun _ _ hbound => ?_
  refine (keeps_lineEnd n m).bind fun _ _ _ => ?_
  refine (h _).bind fun _ _ hbody => ?_
  refine ((takes_keyword _ _).keeps n m).map fun _ _ _ => ?_
  simp only [Statement.relocate, Assignment.relocate, relocateStatements_eq_map, htarget, hvalue,
    hbound, hbody, htu]

theorem statement :
    L.InStep (L.Within (n + 1) (m + 1)) (L.Within n m) (Statement.relocate L.place)
      (parseWith block) (parseWith block') := by
  rw [parseWith_eq, parseWith_eq]
  refine current_bind fun t u htu _ => ?_
  rw [← htu]
  generalize t.kind = k
  have hfail : L.InStep (L.At k (n + 1) (m + 1)) (L.Within n m) (Statement.relocate L.place)
      (fail ["statement"] none) (fail ["statement"] none) :=
    (inStep_fail _ _ _).forAt
  cases k with
  | keyword w =>
    cases w with
    | si => exact h.conditional _
    | mientras => exact h.whileLoop _
    | repetir => exact h.untilLoop _
    | para => exact h.counting _
    | retornar =>
      refine advance_bind (by simp) (by simp) fun t u htu => (keeps_expression n m).map ?_
      intro e f hef
      simp only [Statement.relocate, hef, htu]
    | _ => exact hfail
  | word name => exact (takes_named (n + 1) (m + 1)).forAt
  | _ => exact hfail

end BlocksInStep

/-- A block with one step more, when the blocks in its statements and behind them go in step. -/
theorem inStep_blockWithin_succ (h : L.BlocksInStep n m (blockWithin n) (blockWithin m))
    (e : BlockEnd) :
    L.InStep (L.Within (n + 1) (m + 1)) (L.Within (n + 1) (m + 1))
      (List.map (Statement.relocate L.place)) (blockWithin (n + 1) e) (blockWithin (m + 1) e) := by
  rw [blockWithin_succ, blockWithin_succ]
  refine (keeps_skipLineEnds _ _).bind fun _ _ _ => current_bind fun t u htu _ => ?_
  rw [← htu]
  split
  · exact (InStep.pure rfl).forAt
  · split
    · exact (inStep_fail _ _ _).forAt
    · refine .forAt (.loosen ?_)
      refine h.statement.bind fun s s' hs => (keeps_lineEnd _ _).bind fun _ _ _ => ?_
      refine (h e).map fun ss ss' hss => ?_
      rw [List.map_cons, List.map_cons, hs, hss]

theorem blocksInStep (n m : Nat) : L.BlocksInStep n m (blockWithin n) (blockWithin m) := by
  intro e
  refine inStep_of_step (S := Eq) blockWithin blockWithin ?_ ?_ n m (rfl : e = e)
  · rintro e _ rfl
    exact ⟨.fail _ _, .fail _ _⟩
  · rintro n m h e _ rfl
    exact inStep_blockWithin_succ (fun e => h e e rfl) e

theorem keeps_block (e : BlockEnd) :
    L.Keeps (List.map (Statement.relocate L.place)) (parseBlock e) (parseBlock e) :=
  keeps_budget fun n m => blocksInStep n m e

end Likeness

end Seudocodigo
