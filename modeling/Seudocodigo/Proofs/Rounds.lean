import Seudocodigo.Proofs.Lookahead
import Seudocodigo.Proofs.Parse.Loops

/-! The loops of the parser. Each of its parsers that reads a number of things one after the other
is a loop without a bound on its rounds, each of which passes a token unless the loop is left, and
wherever parsers contain each other the inner one begins behind the place where the outer one
began. -/
namespace Seudocodigo

open Parse

namespace Likeness

variable {α γ : Type} {p q : Parse α} {g : α → γ} {n : Nat}

abbrev same : Likeness := sameUpTo [] []

theorem like_same {c d : Cursor} : same.Like c d ↔ c = d := by
  constructor
  · rintro ⟨ts, -, hc, hd⟩
    exact Cursor.tokens_injective (hc.trans hd.symm)
  · rintro rfl
    exact ⟨c.tokens, by simp [Cursor.tokens], by simp⟩

theorem InStep.outcome_eq {P Q : Cursor → Cursor → Prop} (h : same.InStep P Q g p q)
    (hg : Function.Injective g) (hQ : ∀ {c d}, Q c d → same.Like c d) {c : Cursor} (hc : P c c) :
    p.outcome c = q.outcome c := by
  have hends := h.ends hc
  generalize p.outcome c = r at hends
  generalize q.outcome c = s at hends
  cases hends with
  | hidden h => exact absurd h (Nat.not_succ_le_zero _)
  | ok hab hcd => rw [hg hab, like_same.1 (hQ hcd)]
  | error hef hcd =>
    obtain rfl := like_same.1 hcd
    exact congrArg (fun e => (Except.error e, _)) hef

theorem inStep_of_agree (hp : p.Forward) (hq : q.Forward)
    (h : ∀ c : Cursor, c.rest.length < n → p.outcome c = q.outcome c) :
    same.InStep (same.Within n n) (same.Within n n) g p q where
  left := hp
  right := hq
  ends {c d} hc := by
    obtain rfl := like_same.1 hc.like
    rw [h c hc.left]
    cases hr : q.outcome c with
    | mk result d =>
      have hlt := Nat.lt_of_le_of_lt (hq.length_le hr) hc.left
      cases result with
      | ok a => exact .ok rfl ⟨like_same.2 rfl, hlt, hlt⟩
      | error e => exact .error rfl (like_same.2 rfl)

/-- A parser that comes to places with fewer tokens left. -/
theorem passing_of_inStep
    (h : ∀ n, same.InStep (same.Within (n + 1) (n + 1)) (same.Within n n) g p q) : p.Passing := by
  intro c a d hd
  have hends := (h c.rest.length).ends (c := c) (d := c)
    ⟨like_same.2 rfl, Nat.lt_succ_self _, Nat.lt_succ_self _⟩
  rw [hd] at hends
  generalize q.outcome c = r at hends
  cases hends with
  | hidden h => exact absurd h (Nat.not_succ_le_zero _)
  | ok _ hwithin => exact hwithin.left

end Likeness

namespace Expression

def parseOperand (name : String) : Parse Element := do
  let p ← Parse.location
  let _ ← advance
  operandBehind name p

/-- The variables of the scan: whether an operand comes next, what has gone out, and the operators
that wait within the innermost open parenthesis and within those around it. -/
structure Scan where
  turn : Turn
  output : List Element
  ops : List Operator
  outer : List (List Operator)

def scanRound : Scan → Parse (Round Scan (List Element))
  | ⟨.operand, es, ops, outer⟩ => do
    match (← current).operandStart? with
    | some (.literal value) =>
      let _ ← advance
      return .again ⟨.operator, es ++ [.literal value], ops, outer⟩
    | some (.name name) =>
      let e ← parseOperand name
      return .again ⟨.operator, es ++ [e], ops, outer⟩
    | some (.sign op) =>
      let _ ← advance
      return .again ⟨.operand, es, op :: ops, outer⟩
    | some .parenthesis =>
      let _ ← advance
      return .again ⟨.operand, es, [], ops :: outer⟩
    | none => fail ["expression"] none
  | ⟨.operator, es, ops, outer⟩ => do
    let t ← current
    match t.kind.binaryOperator?, outer with
    | some op, _ =>
      let stronger := ops.takeWhile (op.precedence ≤ ·.precedence)
      let _ ← advance
      return .again ⟨.operand, es ++ emit stronger, op :: ops.drop stronger.length, outer⟩
    | none, [] => return .leave (es ++ emit ops)
    | none, around :: outer =>
      if t.kind = .symbol .rightParen then
        let _ ← advance
        return .again ⟨.operator, es ++ emit ops, around, outer⟩
      else fail [Symbol.rightParen.text] (some .mismatchedParenthesis)

theorem passing_parse : Expression.parse.Passing :=
  .bind_right .budget fun n =>
    .bind_right .location fun _ => (passing_operand n [] []).bind fun _ => .pure _

theorem passing_parseArguments : parseArguments.Passing :=
  .bind_right .budget fun n => passing_argumentList forward_parse n

theorem forward_parseIndices : parseIndices.Forward :=
  .bind .budget fun n => forward_indexList forward_parse n

theorem forward_operandBehind (name : String) (p : Location) : (operandBehind name p).Forward := by
  refine (Forward.atSymbol _).bind fun _ => .ite ?_ ?_
  · exact (Forward.budget.bind fun n => forward_argumentList forward_parse n).bind fun _ => .pure _
  · exact forward_parseIndices.bind fun _ => .pure _

theorem forward_parseOperand (name : String) : (parseOperand name).Forward :=
  Forward.location.bind fun p => Forward.advance.bind fun _ => forward_operandBehind name p

theorem forward_scanRound (s : Scan) : (scanRound s).Forward := by
  obtain ⟨turn, es, ops, outer⟩ := s
  cases turn with
  | operand =>
    refine Forward.current.bind fun t => ?_
    split
    · exact Forward.advance.bind fun _ => .pure _
    · exact (forward_parseOperand _).bind fun _ => .pure _
    · exact Forward.advance.bind fun _ => .pure _
    · exact Forward.advance.bind fun _ => .pure _
    · exact .fail _ _
  | operator =>
    refine Forward.current.bind fun t => ?_
    split
    · exact Forward.advance.bind fun _ => .pure _
    · exact .pure _
    · exact .ite (Forward.advance.bind fun _ => .pure _) (.fail _ _)

theorem progresses_scanRound (s : Scan) : (scanRound s).Progresses := by
  obtain ⟨turn, es, ops, outer⟩ := s
  intro c t d hd
  cases turn with
  | operand =>
    rw [scanRound, outcome_current_bind] at hd
    cases hs : c.current.operandStart? with
    | none => rw [hs] at hd; cases hd
    | some start =>
      rw [hs] at hd
      have hlen := Cursor.length_rest_advance
        (Cursor.atEnd_eq_false rfl (Token.ne_endOfFile_of_operandStart? hs))
      cases start with
      | name name =>
        obtain ⟨e, b, he, hd⟩ := outcome_bind_ok hd
        cases hd
        rw [parseOperand, outcome_location_bind, outcome_advance_bind] at he
        have := (forward_operandBehind name c.location).length_le he
        omega
      | literal _ | sign _ | parenthesis =>
        cases hd
        omega
  | operator =>
    rw [scanRound, outcome_current_bind] at hd
    cases hop : c.current.kind.binaryOperator? with
    | some op =>
      rw [hop] at hd
      have hlen := Cursor.length_rest_advance
        (Cursor.atEnd_eq_false rfl (TokenKind.ne_endOfFile_of_binaryOperator? hop))
      cases hd
      omega
    | none =>
      rw [hop] at hd
      cases outer with
      | nil => cases hd
      | cons around outer =>
        dsimp only at hd
        split at hd
        · next hclose =>
          have hlen := Cursor.length_rest_advance (Cursor.atEnd_eq_false hclose (by simp))
          cases hd
          omega
        · cases hd

def scanFrom (n : Nat) (s : Scan) : Parse (List Element) := do
  return s.output ++ (← scan s.turn n s.ops s.outer)

theorem scanFrom_succ {n : Nat} {c : Cursor} (hn : c.rest.length ≤ n) (s : Scan) :
    (scanFrom (n + 1) s).outcome c = (scanRound s >>= Round.next (scanFrom n)).outcome c := by
  obtain ⟨turn, es, ops, outer⟩ := s
  cases turn with
  | operand =>
    simp only [scanFrom, scan, scanRound, operand_succ, bind_assoc, outcome_current_bind]
    cases hs : c.current.operandStart? with
    | none => rfl
    | some start =>
      have hend := Cursor.atEnd_eq_false rfl (Token.ne_endOfFile_of_operandStart? hs)
      cases start with
      | name name =>
        simp only [bind_assoc, pure_bind]
        refine outcome_bind_congr ?_ fun e d _ => ?_
        · rw [outcome_named_parse hend hn, parseOperand, outcome_location_bind,
            outcome_advance_bind]
        · simp [Round.next, scanFrom, scan]
      | literal _ | sign _ | parenthesis => simp [Round.next, scanFrom, scan]
  | operator =>
    simp only [scanFrom, scan, scanRound, afterOperand, bind_assoc, outcome_current_bind]
    cases hop : c.current.kind.binaryOperator? with
    | some op => simp [Round.next, scanFrom, scan]
    | none =>
      cases outer with
      | nil => simp [Round.next]
      | cons around outer =>
        dsimp only
        split
        · simp [Round.next, scanFrom, scan]
        · rfl

/-- An expression is a scan, which begins before an operand. -/
theorem parse_eq_loop : Expression.parse = located (loop scanRound ⟨.operand, [], [], []⟩) := by
  refine eq_of_outcome fun c => ?_
  rw [parse_budget (Nat.lt_succ_self _)]
  refine outcome_located (Eq.trans ?_ (outcome_eq_loop progresses_scanRound
    (fun n s c hn => scanFrom_succ hn s) (Nat.lt_succ_self _)))
  simp [scanFrom, scan]

theorem argumentList_eq (item : Parse Expression) (n : Nat) :
    argumentList item n = parenthesized (commaList item n) := rfl

theorem indexList_eq (item : Parse Expression) (n : Nat) :
    indexList item n = bracketed (commaList item n) := rfl

theorem parseArguments_eq_loop :
    parseArguments = parenthesized (loop (commaRound Expression.parse) []) := by
  refine eq_of_outcome fun c => ?_
  rw [parseArguments, outcome_budget_bind, argumentList_eq]
  exact parenthesized_congr fun d hd => commaList_eq_loop forward_parse (by omega)

theorem parseIndices_eq_loop :
    parseIndices = bracketed (loop (commaRound Expression.parse) []) := by
  refine eq_of_outcome fun c => ?_
  rw [parseIndices, outcome_budget_bind, indexList_eq]
  exact bracketed_congr fun d hd => commaList_eq_loop forward_parse (by omega)

theorem length_lt_of_parseIndices {c d : Cursor} {es : List Expression}
    (hc : c.atSymbol .leftBracket = true) (h : parseIndices.outcome c = (.ok es, d)) :
    d.rest.length < c.rest.length := by
  rw [parseIndices, outcome_budget_bind, indexList_eq] at h
  exact length_lt_of_bracketed (.commaList forward_parse _) hc h

section Within

variable {item : Parse Expression} {c : Cursor} {n : Nat}
  (h : ∀ d : Cursor, d.rest.length < c.rest.length → item.outcome d = Expression.parse.outcome d)
  (hn : c.rest.length < n)

include h hn

/-- All arguments stand behind the place where they are looked for. -/
theorem outcome_argumentList :
    (argumentList item n).outcome c = parseArguments.outcome c := by
  rw [parseArguments, outcome_budget_bind, argumentList_eq, argumentList_eq]
  exact parenthesized_congr fun d hd =>
    commaList_congr forward_parse (fun e he => h e (by omega)) (by omega) (by omega)

theorem outcome_indexList : (indexList item n).outcome c = parseIndices.outcome c := by
  rw [parseIndices, outcome_budget_bind, indexList_eq, indexList_eq]
  exact bracketed_congr fun d hd =>
    commaList_congr forward_parse (fun e he => h e (by omega)) (by omega) (by omega)

end Within

end Expression

namespace Variable

/-- The length of an array in one of its dimensions, which is added to those before it, and the
comma that asks for another one. The first variable counts the cells. -/
def dimensionRound (s : Nat × List Nat) : Parse (Round (Nat × List Nat) (List Nat)) := do
  match (← current).kind with
  | .integer len =>
    if len ≤ 0 then fail ["positive integer"] none
    else
      match cellsWithin? s.1 len.toNat with
      | none => fail ["smaller dimensions"] (some .arrayTooLarge)
      | some cells =>
        let _ ← advance
        if ← takeSymbol .comma then return .again (cells, s.2 ++ [len.toNat])
        else return .leave (s.2 ++ [len.toNat])
  | _ => fail ["positive integer"] none

theorem forward_dimensionRound (s : Nat × List Nat) : (dimensionRound s).Forward := by
  refine Forward.current.bind fun t => ?_
  split
  · refine .ite (.fail _ _) ?_
    split
    · exact .fail _ _
    · exact Forward.advance.bind fun _ => (Forward.takeSymbol _).bind fun _ =>
        .ite (.pure _) (.pure _)
  · exact .fail _ _

theorem progresses_dimensionRound (s : Nat × List Nat) : (dimensionRound s).Progresses := by
  refine .behind .current fun t => ?_
  split
  · refine .ite (.fail _ _) ?_
    split
    · exact .fail _ _
    · exact .behind .advance fun _ => .takeSymbol_bind (.pure _) (.leave _)
  · exact .fail _ _

theorem dimensionList_succ (n : Nat) (s : Nat × List Nat) (c : Cursor) :
    (do return s.2 ++ (← dimensionList s.1 (n + 1)) : Parse (List Nat)).outcome c =
      (dimensionRound s >>= Round.next fun t => do
        return t.2 ++ (← dimensionList t.1 n)).outcome c := by
  simp only [dimensionList, dimensionRound, bind_assoc, outcome_current_bind]
  generalize c.current.kind = kind
  cases kind with
  | integer len =>
    by_cases hlen : len ≤ 0
    · simp only [if_pos hlen]
      rfl
    · simp only [if_neg hlen]
      cases cellsWithin? s.1 len.toNat with
      | none => rfl
      | some cells =>
        simp only [bind_assoc, outcome_advance_bind, outcome_takeSymbol_bind]
        split
        · simp only [if_true, pure_bind, bind_assoc, Round.next, List.append_assoc,
            List.singleton_append]
        · simp only [Bool.false_eq_true, if_false, pure_bind, Round.next]
  | _ => rfl

theorem forward_dimensionList (cells n : Nat) : (dimensionList cells n).Forward :=
  (Likeness.inStep_dimensionList (L := .same) cells n n).left

theorem dimensionList_eq_loop {cells n : Nat} {c : Cursor} (hn : c.rest.length < n) :
    (dimensionList cells n).outcome c = (loop dimensionRound (cells, [])).outcome c := by
  refine Eq.trans ?_ (outcome_eq_loop progresses_dimensionRound
    (p := fun n s => do return s.2 ++ (← dimensionList s.1 n))
    (fun n s c _ => dimensionList_succ n s c) hn)
  simp

theorem parseDimensions_eq : parseDimensions = bracketed (do dimensionList 1 (← budget)) := by
  simp only [parseDimensions, bracketed, bind_assoc]

theorem parseDimensions_eq_loop : parseDimensions = bracketed (loop dimensionRound (1, [])) := by
  refine eq_of_outcome fun c => ?_
  rw [parseDimensions_eq]
  refine bracketed_congr fun d hd => ?_
  rw [outcome_budget_bind]
  exact dimensionList_eq_loop (Nat.lt_succ_self _)

theorem length_lt_of_parseDimensions {c d : Cursor} {dims : List Nat}
    (hc : c.atSymbol .leftBracket = true) (h : parseDimensions.outcome c = (.ok dims, d)) :
    d.rest.length < c.rest.length := by
  rw [parseDimensions_eq] at h
  exact length_lt_of_bracketed (Forward.budget.bind fun n => forward_dimensionList 1 n) hc h

theorem forward_parseDeclared (a : Atom) : (parseDeclared a).Forward :=
  (Likeness.keeps_declared (L := .same) a 0 0).left

theorem forward_parseParameter : parseParameter.Forward :=
  (Likeness.keeps_parameter (L := .same) 0 0).left

theorem parseParameters_eq :
    parseParameters = parenthesized (do commaList parseParameter (← budget)) := by
  simp only [parseParameters, parenthesized, bind_assoc]

theorem parseParameters_eq_loop :
    parseParameters = parenthesized (loop (commaRound parseParameter) []) := by
  refine eq_of_outcome fun c => ?_
  rw [parseParameters_eq]
  refine parenthesized_congr fun d hd => ?_
  rw [outcome_budget_bind]
  exact commaList_eq_loop forward_parseParameter (Nat.lt_succ_self _)

end Variable

namespace Statement

theorem parseDeclaration_eq_loop : parseDeclaration = (do
    let p ← Parse.location
    let a ← atom
    let vs ← loop (commaRound (Variable.parseDeclared a)) []
    return .declaration vs p) := by
  refine eq_of_outcome fun c => ?_
  rw [parseDeclaration]
  refine outcome_bind_congr rfl fun p d _ => outcome_bind_congr rfl fun a e _ => ?_
  rw [outcome_budget_bind]
  refine outcome_bind_congr ?_ fun _ _ _ => rfl
  exact commaList_eq_loop (Variable.forward_parseDeclared a) (Nat.lt_succ_self _)

theorem forward_parseDeclaration : parseDeclaration.Forward :=
  (Likeness.takes_declaration (L := .same) 0 0).left

theorem passing_parseDeclaration : parseDeclaration.Passing :=
  Likeness.passing_of_inStep fun n => Likeness.takes_declaration (n + 1) (n + 1)

def declarationsRound (ds : List Statement) : Parse (Round (List Statement) (List Statement)) := do
  skipLineEnds
  if (← current).kind.atom?.isSome then
    let d ← parseDeclaration
    lineEnd
    return .again (ds ++ [d])
  else return .leave ds

theorem forward_declarationsRound (ds : List Statement) : (declarationsRound ds).Forward := by
  refine Forward.skipLineEnds.bind fun _ => Forward.current.bind fun _ => .ite ?_ (.pure _)
  exact forward_parseDeclaration.bind fun _ => Forward.lineEnd.bind fun _ => .pure _

theorem progresses_declarationsRound (ds : List Statement) : (declarationsRound ds).Progresses := by
  refine .behind .skipLineEnds fun _ => .behind .current fun t => .ite ?_ (.leave _)
  exact .before passing_parseDeclaration fun d => Forward.lineEnd.bind fun _ => .pure _

theorem parseDeclarations_eq_loop : parseDeclarations = loop declarationsRound [] := by
  refine eq_of_outcome fun c => ?_
  rw [parseDeclarations, outcome_budget_bind]
  refine Eq.trans ?_ (outcome_eq_loop progresses_declarationsRound
    (p := fun n ds => do return ds ++ (← declarationsWithin n)) (fun n ds c _ => ?_)
    (Nat.lt_succ_self _))
  · simp
  · simp only [declarationsWithin, declarationsRound, bind_assoc, outcome_skipLineEnds_bind,
      outcome_current_bind]
    split
    · simp only [bind_assoc, pure_bind, Round.next, List.append_assoc, List.singleton_append]
    · simp only [pure_bind, Round.next, List.append_nil]

def blockRound (e : BlockEnd) (ss : List Statement) :
    Parse (Round (List Statement) (List Statement)) := do
  skipLineEnds
  let c ← cursor
  if e.closers.any c.atKeyword then return .leave ss
  else if c.atEnd || closers.any c.atKeyword then
    fail (e.closers.map Keyword.text) (some e.missing)
  else
    let s ← Statement.parse
    lineEnd
    return .again (ss ++ [s])

section Blocks

variable {block : BlockEnd → Parse (List Statement)}

theorem forward_parseBlock (e : BlockEnd) : (parseBlock e).Forward :=
  (Likeness.keeps_block (L := .same) e 0 0).left

theorem blocksInStep_parseBlock (n : Nat) : Likeness.same.BlocksInStep n n parseBlock parseBlock :=
  fun e => Likeness.keeps_block e n n

theorem forward_blockWithin (n : Nat) (e : BlockEnd) : (blockWithin n e).Forward :=
  (Likeness.blocksInStep (L := .same) n n e).left

/-- All blocks of a statement stand behind its first token. -/
theorem outcome_parseWith {c : Cursor} (hblock : ∀ e, (block e).Forward)
    (h : ∀ e (d : Cursor), d.rest.length < c.rest.length →
      (block e).outcome d = (parseBlock e).outcome d) :
    (parseWith block).outcome c = Statement.parse.outcome c := by
  have hblocks : Likeness.same.BlocksInStep c.rest.length c.rest.length block parseBlock :=
    fun e => Likeness.inStep_of_agree (hblock e) (forward_parseBlock e) (h e)
  refine hblocks.statement.outcome_eq (fun s t hst => ?_) Likeness.Within.like
    ⟨Likeness.like_same.2 rfl, Nat.lt_succ_self _, Nat.lt_succ_self _⟩
  rw [← s.relocate_id, ← t.relocate_id]
  exact hst

theorem passing_parse : Statement.parse.Passing :=
  Likeness.passing_of_inStep fun n => (blocksInStep_parseBlock n).statement

theorem forward_parse : Statement.parse.Forward := (blocksInStep_parseBlock 0).statement.left

/-- A budget that is more than the tokens left has no influence. -/
theorem blockWithin_budget {n : Nat} {c : Cursor} (hn : c.rest.length < n) (e : BlockEnd) :
    (blockWithin n e).outcome c = (parseBlock e).outcome c := by
  rw [parseBlock, outcome_budget_bind]
  refine (Likeness.blocksInStep (L := .same) n (c.rest.length + 1) e).outcome_eq
    (fun ss ts hst => ?_) Likeness.Within.like ⟨Likeness.like_same.2 rfl, hn, Nat.lt_succ_self _⟩
  have hid : Statement.relocate id = id := funext Statement.relocate_id
  simpa only [sameUpTo, hid, List.map_id] using hst

theorem forward_blockRound (e : BlockEnd) (ss : List Statement) : (blockRound e ss).Forward := by
  refine Forward.skipLineEnds.bind fun _ => Forward.bind (.of_stays fun _ => rfl) fun c => ?_
  refine .ite (.pure _) (.ite (.fail _ _) ?_)
  exact forward_parse.bind fun _ => Forward.lineEnd.bind fun _ => .pure _

theorem progresses_blockRound (e : BlockEnd) (ss : List Statement) :
    (blockRound e ss).Progresses := by
  refine .behind .skipLineEnds fun _ => .behind (.of_stays fun _ => rfl) fun c => ?_
  refine .ite (.leave _) (.ite (.fail _ _) ?_)
  exact .before passing_parse fun s => Forward.lineEnd.bind fun _ => .pure _

theorem parseBlock_eq_loop (e : BlockEnd) : parseBlock e = loop (blockRound e) [] := by
  refine eq_of_outcome fun c => ?_
  rw [parseBlock, outcome_budget_bind]
  refine Eq.trans ?_ (outcome_eq_loop (progresses_blockRound e)
    (p := fun n ss => do return ss ++ (← blockWithin n e)) (fun n ss c hn => ?_)
    (Nat.lt_succ_self _))
  · simp
  · simp only [blockWithin, blockRound, bind_assoc, outcome_skipLineEnds_bind,
      outcome_cursor_bind]
    split
    · simp only [pure_bind, Round.next, List.append_nil]
    · split
      · rfl
      · simp only [bind_assoc, pure_bind, Round.next, List.append_assoc, List.singleton_append]
        refine outcome_bind_congr ?_ fun _ _ _ => rfl
        have hle := Forward.skipLineEnds.length_le (outcome_skipLineEnds c)
        exact outcome_parseWith (forward_blockWithin n) fun e d hd =>
          blockWithin_budget (by omega) e

end Blocks

end Statement

namespace Program

theorem passing_module : Module.parse.Passing :=
  Likeness.passing_of_inStep fun n => Likeness.takes_module (n + 1) (n + 1)

def moduleRound (s : Option Module × List Module) :
    Parse (Round (Option Module × List Module) Program) := do
  let c ← cursor
  if c.atEnd then
    match s.1 with
    | some main => return .leave ⟨main, s.2⟩
    | none => fail ["variables"] (some .missingMain)
  else
    let m ← Module.parse
    lineEnd
    return .again (← addModule c.current m s.1 s.2)

/-- What is done with a module behind its last line, where nothing more is read. -/
theorem forward_addModule (first : Token) (m : Module) (s : Option Module × List Module) :
    (do return .again (← addModule first m s.1 s.2) :
      Parse (Round (Option Module × List Module) Program)).Forward :=
  .of_stays fun _ => by cases addModule first m s.1 s.2 <;> rfl

theorem forward_moduleRound (s : Option Module × List Module) : (moduleRound s).Forward := by
  refine Forward.bind (.of_stays fun _ => rfl) fun c => .ite ?_ ?_
  · split
    · exact .pure _
    · exact .fail _ _
  · exact (Likeness.takes_module (L := .same) 0 0).left.bind fun m =>
      Forward.lineEnd.bind fun _ => forward_addModule c.current m s

theorem progresses_moduleRound (s : Option Module × List Module) :
    (moduleRound s).Progresses := by
  refine .behind (.of_stays fun _ => rfl) fun c => .ite ?_ ?_
  · split
    · exact .leave _
    · exact .fail _ _
  · exact .before passing_module fun m => Forward.lineEnd.bind fun _ =>
      forward_addModule c.current m s

theorem modulesWithin_eq_loop {n : Nat} {c : Cursor} (hn : c.rest.length < n)
    (s : Option Module × List Module) :
    (modulesWithin n s.1 s.2).outcome c = (loop moduleRound s).outcome c := by
  refine outcome_eq_loop progresses_moduleRound (p := fun n s => modulesWithin n s.1 s.2)
    (fun n s c _ => ?_) hn
  obtain ⟨main, ms⟩ := s
  simp only [modulesWithin, moduleRound, bind_assoc, outcome_cursor_bind]
  split
  · cases main with
    | some main => rfl
    | none => rfl
  · simp only [bind_assoc, pure_bind, Round.next]

theorem parse_eq_loop : Program.parse = (do
    skipLineEnds
    loop moduleRound (none, [])) := by
  refine eq_of_outcome fun c => ?_
  rw [Program.parse, outcome_skipLineEnds_bind, outcome_skipLineEnds_bind, outcome_budget_bind]
  exact modulesWithin_eq_loop (Nat.lt_succ_self _) (none, [])

end Program

end Seudocodigo
