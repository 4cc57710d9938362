import Seudocodigo.Proofs.Rounds

/-! The parser goes forward. Whatever the tokens, it stays before their first end of file, none of
its parts goes back, and all that it does again and again passes a token each time. So it comes to
an end. -/
namespace Seudocodigo

open Parse

namespace Cursor

def position (ts : List Token) (c : Cursor) : Nat := (closed ts).length - c.tokens.length

def firstEnd (ts : List Token) : Nat := (closed ts).findIdx (·.kind = .endOfFile)

theorem exists_end_of_sealed {t : Token} {ts : List Token} (h : Sealed t ts) :
    ∃ u ∈ t :: ts, u.kind = .endOfFile := by
  induction ts generalizing t with
  | nil => exact ⟨t, by simp, h⟩
  | cons u us ih =>
    obtain ⟨v, hv, hkind⟩ := ih h
    exact ⟨v, List.mem_cons_of_mem _ hv, hkind⟩

theorem firstEnd_lt (ts : List Token) : firstEnd ts < (closed ts).length := by
  obtain ⟨t, ht, hkind⟩ := exists_end_of_sealed (ofTokens ts).isSealed
  exact List.findIdx_lt_length_of_exists ⟨t, ht, decide_eq_true hkind⟩

namespace Passes

variable {ts us : List Token} {c : Cursor}

theorem position_eq (h : (ofTokens ts).Passes us c) : c.position ts = us.length := by
  have htokens : closed ts = us ++ c.tokens := h.1
  rw [position, htokens, List.length_append, Nat.add_sub_cancel]

theorem position_le (h : (ofTokens ts).Passes us c) : c.position ts ≤ firstEnd ts := by
  have htokens : closed ts = us ++ c.tokens := h.1
  have hnone : us.findIdx (·.kind = .endOfFile) = us.length :=
    List.findIdx_eq_length.2 fun t ht => decide_eq_false (h.2 t ht)
  rw [h.position_eq, firstEnd, htokens, List.findIdx_append, hnone]
  split <;> omega

theorem getElem?_position (h : (ofTokens ts).Passes us c) :
    (closed ts)[c.position ts]? = some c.current := by
  have htokens : closed ts = us ++ c.tokens := h.1
  rw [h.position_eq, htokens, List.getElem?_append_right (Nat.le_refl _), Nat.sub_self]
  rfl

end Passes

/-- Of two places in the tokens, that with fewer tokens left is farther on. -/
theorem position_lt_position {ts us vs : List Token} {c d : Cursor}
    (hc : (ofTokens ts).Passes us c) (hd : (ofTokens ts).Passes vs d)
    (h : d.rest.length < c.rest.length) : c.position ts < d.position ts := by
  have hus := hc.length
  have hvs := hd.length
  rw [hc.position_eq, hd.position_eq]
  omega

end Cursor

namespace Program

/-- The loops of the parser, by what they do in a round. The arguments of a call and the indices of
an array are read by loops of the same kind. -/
inductive IsLoop : {σ α : Type} → (σ → Parse (Round σ α)) → Prop where
  | modules : IsLoop moduleRound
  | block (e : BlockEnd) : IsLoop (Statement.blockRound e)
  | declarations : IsLoop Statement.declarationsRound
  | declared (a : Atom) : IsLoop (commaRound (Variable.parseDeclared a))
  | parameters : IsLoop (commaRound Variable.parseParameter)
  | dimensions : IsLoop Variable.dimensionRound
  | expressions : IsLoop (commaRound Expression.parse)
  | scan : IsLoop Expression.scanRound

/-- The parts of the parser, from those that read one token to the whole, and the rounds of its
loops. -/
inductive Routine : {α : Type} → Parse α → Prop where
  | advance : Routine Parse.advance
  | skipLineEnds : Routine Parse.skipLineEnds
  | takeSymbol (s : Symbol) : Routine (Parse.takeSymbol s)
  | takeKeyword (k : Keyword) : Routine (Parse.takeKeyword k)
  | symbol (s : Symbol) (reason : Option SyntaxReason) : Routine (Parse.symbol s reason)
  | keyword (k : Keyword) (reason : Option SyntaxReason) : Routine (Parse.keyword k reason)
  | word : Routine Parse.word
  | atom : Routine Parse.atom
  | lineEnd : Routine Parse.lineEnd
  | expression : Routine Expression.parse
  | operand (name : String) : Routine (Expression.parseOperand name)
  | arguments : Routine Expression.parseArguments
  | indices : Routine Expression.parseIndices
  | access : Routine Access.parse
  | assignment : Routine Statement.parseAssignment
  | call : Routine Statement.parseCall
  | conditional : Routine (Statement.parseConditional Statement.parseBlock)
  | whileLoop : Routine (Statement.parseWhile Statement.parseBlock)
  | untilLoop : Routine (Statement.parseUntil Statement.parseBlock)
  | counting : Routine (Statement.parseCounting Statement.parseBlock)
  | result : Routine Statement.parseResult
  | statement : Routine Statement.parse
  | block (e : BlockEnd) : Routine (Statement.parseBlock e)
  | dimensions : Routine Variable.parseDimensions
  | parameters : Routine Variable.parseParameters
  | declaration : Routine Statement.parseDeclaration
  | declarations : Routine Statement.parseDeclarations
  | body (closer : Keyword) (e : BlockEnd) : Routine (Module.parseBody closer e)
  | main : Routine Module.parseMain
  | procedure : Routine Module.parseProcedure
  | function (returns : Atom) : Routine (Module.parseFunction returns)
  | module : Routine Module.parse
  | program : Routine Program.parse
  | round {σ α : Type} {round : σ → Parse (Round σ α)} (s : σ) : IsLoop round → Routine (round s)

/-- The places where the parser may be in the given tokens: where it begins, and where a part of it
stops that began at such a place. -/
inductive Reached (ts : List Token) : Cursor → Prop where
  | start : Reached ts (.ofTokens ts)
  | step {α : Type} {p : Parse α} {c : Cursor} :
    Reached ts c → Routine p → Reached ts (p.outcome c).2

/-- The parts of the parser that cannot succeed at the given place without a token. Indices and
dimensions may be missing, but not behind a bracket. -/
inductive NeedsToken (c : Cursor) : {α : Type} → Parse α → Prop where
  | module : NeedsToken c Module.parse
  | declaration : NeedsToken c Statement.parseDeclaration
  | statement : NeedsToken c Statement.parse
  | expression : NeedsToken c Expression.parse
  | arguments : NeedsToken c Expression.parseArguments
  | indices : c.atSymbol .leftBracket = true → NeedsToken c Expression.parseIndices
  | dimensions : c.atSymbol .leftBracket = true → NeedsToken c Variable.parseDimensions

namespace IsLoop

variable {σ α : Type} {round : σ → Parse (Round σ α)}

theorem forward (h : IsLoop round) (s : σ) : (round s).Forward := by
  cases h with
  | modules => exact forward_moduleRound s
  | block e => exact Statement.forward_blockRound e s
  | declarations => exact Statement.forward_declarationsRound s
  | declared a => exact forward_commaRound (Variable.forward_parseDeclared a) s
  | parameters => exact forward_commaRound Variable.forward_parseParameter s
  | dimensions => exact Variable.forward_dimensionRound s
  | expressions => exact forward_commaRound Expression.forward_parse s
  | scan => exact Expression.forward_scanRound s

theorem progresses (h : IsLoop round) (s : σ) : (round s).Progresses := by
  cases h with
  | modules => exact progresses_moduleRound s
  | block e => exact Statement.progresses_blockRound e s
  | declarations => exact Statement.progresses_declarationsRound s
  | declared a => exact progresses_commaRound (Variable.forward_parseDeclared a) s
  | parameters => exact progresses_commaRound Variable.forward_parseParameter s
  | dimensions => exact Variable.progresses_dimensionRound s
  | expressions => exact progresses_commaRound Expression.forward_parse s
  | scan => exact Expression.progresses_scanRound s

end IsLoop

theorem forward_access : Access.parse.Forward := (Likeness.keeps_access (L := .same) 0 0).left

theorem forward_assignment : Statement.parseAssignment.Forward :=
  Forward.location.bind fun _ => forward_access.bind fun _ => (Forward.symbol _ _).bind fun _ =>
    Expression.forward_parse.bind fun _ => .pure _

theorem forward_call : Statement.parseCall.Forward :=
  Forward.location.bind fun _ => Forward.word.bind fun _ =>
    (Likeness.keeps_arguments (L := .same) 0 0).left.bind fun _ => .pure _

theorem forward_result : Statement.parseResult.Forward :=
  Forward.advance.bind fun _ => Expression.forward_parse.bind fun _ => .pure _

theorem Routine.forward {α : Type} {p : Parse α} (h : Routine p) : p.Forward := by
  have hblocks := Statement.blocksInStep_parseBlock 0
  cases h with
  | advance => exact .advance
  | skipLineEnds => exact .skipLineEnds
  | takeSymbol s => exact .takeSymbol s
  | takeKeyword k => exact .takeKeyword k
  | symbol s reason => exact .symbol s reason
  | keyword k reason => exact .keyword k reason
  | word => exact .word
  | atom => exact .atom
  | lineEnd => exact .lineEnd
  | expression => exact Expression.forward_parse
  | operand name => exact Expression.forward_parseOperand name
  | arguments => exact (Likeness.keeps_arguments (L := .same) 0 0).left
  | indices => exact Expression.forward_parseIndices
  | access => exact forward_access
  | assignment => exact forward_assignment
  | call => exact forward_call
  | conditional => exact (hblocks.conditional .si).left
  | whileLoop => exact (hblocks.whileLoop .mientras).left
  | untilLoop => exact (hblocks.untilLoop .repetir).left
  | counting => exact (hblocks.counting .para).left
  | result => exact forward_result
  | statement => exact Statement.forward_parse
  | block e => exact Statement.forward_parseBlock e
  | dimensions => exact (Likeness.keeps_dimensions (L := .same) 0 0).left
  | parameters => exact (Likeness.keeps_parameters (L := .same) 0 0).left
  | declaration => exact Statement.forward_parseDeclaration
  | declarations => exact (Likeness.keeps_declarations (L := .same) 0 0).left
  | body closer e => exact (Likeness.keeps_body (L := .same) closer e 0 0).left
  | main => exact (Likeness.inStep_main (L := .same) (n := 0) (m := 0) .vars).left
  | procedure =>
    exact (Likeness.inStep_procedure (L := .same) (n := 0) (m := 0) .procedimiento).left
  | function returns =>
    exact (Likeness.inStep_function (L := .same) (n := 0) (m := 0) .entero returns).left
  | module => exact (Likeness.takes_module (L := .same) 0 0).left
  | program => exact Program.forward_parse
  | round s h => exact h.forward s

theorem NeedsToken.routine {α : Type} {p : Parse α} {c : Cursor} (h : NeedsToken c p) :
    Routine p := by
  cases h with
  | module => exact .module
  | declaration => exact .declaration
  | statement => exact .statement
  | expression => exact .expression
  | arguments => exact .arguments
  | indices _ => exact .indices
  | dimensions _ => exact .dimensions

theorem NeedsToken.length_lt {α : Type} {p : Parse α} {c d : Cursor} {a : α} (h : NeedsToken c p)
    (hd : p.outcome c = (.ok a, d)) : d.rest.length < c.rest.length := by
  cases h with
  | module => exact passing_module hd
  | declaration => exact Statement.passing_parseDeclaration hd
  | statement => exact Statement.passing_parse hd
  | expression => exact Expression.passing_parse hd
  | arguments => exact Expression.passing_parseArguments hd
  | indices hbracket => exact Expression.length_lt_of_parseIndices hbracket hd
  | dimensions hbracket => exact Variable.length_lt_of_parseDimensions hbracket hd

theorem Reached.exists_passes {ts : List Token} {c : Cursor} (h : Reached ts c) :
    ∃ us, (Cursor.ofTokens ts).Passes us c := by
  induction h with
  | start => exact ⟨[], .refl _⟩
  | step _ hp ih =>
    obtain ⟨us, hus⟩ := ih
    obtain ⟨vs, hvs⟩ := hp.forward _
    exact ⟨us ++ vs, hus.trans hvs⟩

/-- The parts of the parser as loops without a bound on their rounds. -/
structure Looping : Prop where
  program : Program.parse = (do
    skipLineEnds
    loop moduleRound (none, []))
  block : ∀ e, Statement.parseBlock e = loop (Statement.blockRound e) []
  declarations : Statement.parseDeclarations = loop Statement.declarationsRound []
  declaration : Statement.parseDeclaration = (do
    let p ← Parse.location
    let a ← Parse.atom
    let vs ← loop (commaRound (Variable.parseDeclared a)) []
    return .declaration vs p)
  parameters : Variable.parseParameters =
    parenthesized (loop (commaRound Variable.parseParameter) [])
  dimensions : Variable.parseDimensions = bracketed (loop Variable.dimensionRound (1, []))
  arguments : Expression.parseArguments = parenthesized (loop (commaRound Expression.parse) [])
  indices : Expression.parseIndices = bracketed (loop (commaRound Expression.parse) [])
  expression : Expression.parse =
    Expression.located (loop Expression.scanRound ⟨.operand, [], [], []⟩)

theorem looping : Looping where
  program := parse_eq_loop
  block := Statement.parseBlock_eq_loop
  declarations := Statement.parseDeclarations_eq_loop
  declaration := Statement.parseDeclaration_eq_loop
  parameters := Variable.parseParameters_eq_loop
  dimensions := Variable.parseDimensions_eq_loop
  arguments := Expression.parseArguments_eq_loop
  indices := Expression.parseIndices_eq_loop
  expression := Expression.parse_eq_loop

/-- Where parts of the parser contain themselves they do so behind the place where they began: it is
enough that what they contain is the same there. -/
structure Descending : Prop where
  statement : ∀ {block : BlockEnd → Parse (List Statement)} {c : Cursor}, (∀ e, (block e).Forward) →
    (∀ e (d : Cursor), d.rest.length < c.rest.length →
      (block e).outcome d = (Statement.parseBlock e).outcome d) →
    (Statement.parseWith block).outcome c = Statement.parse.outcome c
  arguments : ∀ {item : Parse Expression} {c : Cursor} {n : Nat},
    (∀ d : Cursor, d.rest.length < c.rest.length →
      item.outcome d = Expression.parse.outcome d) → c.rest.length < n →
    (Expression.argumentList item n).outcome c = Expression.parseArguments.outcome c
  indices : ∀ {item : Parse Expression} {c : Cursor} {n : Nat},
    (∀ d : Cursor, d.rest.length < c.rest.length →
      item.outcome d = Expression.parse.outcome d) → c.rest.length < n →
    (Expression.indexList item n).outcome c = Expression.parseIndices.outcome c

theorem descending : Descending where
  statement := Statement.outcome_parseWith
  arguments := Expression.outcome_argumentList
  indices := Expression.outcome_indexList

section Reached

variable {ts : List Token} {c : Cursor} {α σ : Type}

theorem Reached.position_le_position (h : Reached ts c) {p : Parse α} (hp : Routine p) :
    c.position ts ≤ (p.outcome c).2.position ts := by
  obtain ⟨us, hus⟩ := h.exists_passes
  obtain ⟨vs, hvs⟩ := hp.forward c
  rw [hus.position_eq, (hus.trans hvs).position_eq, List.length_append]
  exact Nat.le_add_right _ _

theorem Reached.position_lt_position (h : Reached ts c) {p : Parse α} (hp : Routine p)
    {r : Except SyntaxError α} {d : Cursor} (hd : p.outcome c = (r, d))
    (hlt : d.rest.length < c.rest.length) : c.position ts < d.position ts := by
  obtain ⟨us, hus⟩ := h.exists_passes
  obtain ⟨vs, hvs⟩ := (Reached.step h hp).exists_passes
  rw [hd] at hvs
  exact Cursor.position_lt_position hus hvs hlt

theorem Reached.exists_runs (h : Reached ts c) {round : σ → Parse (Round σ α)}
    (hround : IsLoop round) (s : σ) :
    ∃ n ≤ (Cursor.closed ts).length - c.position ts, Runs round n s c ((loop round s).outcome c) := by
  obtain ⟨us, hus⟩ := h.exists_passes
  obtain ⟨n, hn, hruns⟩ := exists_runs_loop hround.progresses s c
  have htokens : Cursor.closed ts = us ++ c.tokens := hus.1
  refine ⟨n, ?_, hruns⟩
  rw [hus.position_eq, htokens, List.length_append, Nat.add_sub_cancel_left]
  exact hn

end Reached

open Cursor

/-- Whatever the tokens, the parser is always at one of them, at the first end of file or before it.
No part of it goes back. Those that need a token pass one where they succeed, and so does every
round of a loop unless the loop is left, so a loop has no more rounds than there are tokens left. As
loops are all that is repeated, and parts within parts of the same kind begin farther on, the parser
comes to an end, after no more modules than there are tokens. -/
theorem parse_progresses (ts : List Token) :
    firstEnd ts < (closed ts).length ∧
    (∀ c, Reached ts c →
      (closed ts)[c.position ts]? = some c.current ∧ c.position ts ≤ firstEnd ts ∧
      (∀ {α : Type} (p : Parse α), Routine p → c.position ts ≤ (p.outcome c).2.position ts) ∧
      (∀ {α : Type} (p : Parse α) (a : α) (d : Cursor), NeedsToken c p →
        p.outcome c = (.ok a, d) → c.position ts < d.position ts) ∧
      ∀ {σ α : Type} (round : σ → Parse (Round σ α)) (s : σ), IsLoop round →
        (∀ t d, (round s).outcome c = (.ok (.again t), d) → c.position ts < d.position ts) ∧
        ∃ n ≤ (closed ts).length - c.position ts,
          Runs round n s c ((loop round s).outcome c)) ∧
    Looping ∧ Descending ∧
    ∃ n ≤ (closed ts).length, Runs moduleRound n (none, []) (Cursor.ofTokens ts).skipLineEnds
      (Program.parse.outcome (.ofTokens ts)) := by
  refine ⟨firstEnd_lt ts, fun c hc => ?_, looping, descending, ?_⟩
  · obtain ⟨us, hus⟩ := hc.exists_passes
    refine ⟨hus.getElem?_position, hus.position_le, fun p hp => hc.position_le_position hp,
      fun p a d hp hd => hc.position_lt_position hp.routine hd (hp.length_lt hd),
      fun round s hround => ⟨fun t d hd => ?_, hc.exists_runs hround s⟩⟩
    exact hc.position_lt_position (.round s hround) hd (hround.progresses s hd)
  · have hstart : Reached ts (Cursor.ofTokens ts).skipLineEnds := .step .start .skipLineEnds
    obtain ⟨n, hn, hruns⟩ := hstart.exists_runs .modules (none, [])
    refine ⟨n, Nat.le_trans hn (Nat.sub_le _ _), ?_⟩
    rw [looping.program, outcome_skipLineEnds_bind]
    exact hruns

def endWithin : List Token :=
  [⟨.keyword .vars, "variables", ⟨1, 1⟩⟩, ⟨.endOfLine, "\n", ⟨1, 10⟩⟩,
    ⟨.keyword .inicio, "inicio", ⟨2, 1⟩⟩, ⟨.endOfLine, "\n", ⟨2, 7⟩⟩,
    ⟨.word "x", "x", ⟨3, 1⟩⟩, ⟨.symbol .arrow, "<-", ⟨3, 3⟩⟩, ⟨.integer 1, "1", ⟨3, 6⟩⟩,
    .endOfFile ⟨3, 7⟩, ⟨.keyword .fin, "fin", ⟨4, 1⟩⟩, .endOfFile ⟨4, 4⟩,
    ⟨.word "y", "y", ⟨5, 1⟩⟩]

theorem parse_progresses_endWithin :
    (closed endWithin).length = 12 ∧ firstEnd endWithin = 7 ∧
    (∃ c, Reached endWithin c ∧ c.position endWithin = 4 ∧
      ∃ s d, Statement.parse.outcome c = (.ok s, d) ∧ 4 < d.position endWithin ∧
        (∃ n ≤ 8, Runs (Statement.blockRound .mainBody) n [] c
          ((Statement.parseBlock .mainBody).outcome c)) ∧
        d.position endWithin ≤ 7) ∧
    (∃ e d, Program.parse.outcome (.ofTokens endWithin) = (.error e, d) ∧
      d.position endWithin = 7 ∧ e.reason = some .missingFin) ∧
    ∃ n ≤ 12, Runs moduleRound n (none, []) (.ofTokens endWithin)
      (Program.parse.outcome (.ofTokens endWithin)) := by
  obtain ⟨-, hreached, hloops, -, n, hn, hruns⟩ := parse_progresses endWithin
  have hfour : Reached endWithin (Cursor.ofTokens endWithin).advance.advance.advance.advance :=
    .step (.step (.step (.step .start .advance) .advance) .advance) .advance
  obtain ⟨-, -, -, hpasses, hturns⟩ := hreached _ hfour
  obtain ⟨-, hle, -⟩ := hreached _ (.step hfour .statement)
  have hend : firstEnd endWithin = 7 := by decide
  refine ⟨by decide, hend, ⟨_, hfour, by decide, _, _, rfl, hpasses _ _ _ .statement rfl, ?_, ?_⟩,
    ⟨_, _, rfl, by decide, rfl⟩, n, hn, hruns⟩
  · rw [hloops.block]
    exact (hturns _ [] (.block .mainBody)).2
  · exact hend ▸ hle

end Program
end Seudocodigo
