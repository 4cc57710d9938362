import Seudocodigo.Proofs.Grammar.Statement

/-! The parsers of declarations and modules read what the grammar says. -/
namespace Seudocodigo

open Parse

namespace Variable

variable {c d : Cursor} {ts : List Token} {dims : List Nat}

theorem dimensionList_sound {n cells : Nat}
    (h : (dimensionList cells n).outcome c = (.ok dims, d)) :
    ∃ ts, c.Passes ts d ∧ Listed Length ts dims ∧ cells * dims.foldr (· * ·) 1 ≤ maxCells := by
  induction n generalizing c d cells dims with
  | zero => cases h
  | succ n ih =>
    rw [dimensionList, outcome_current_bind] at h
    split at h
    · next len hlen =>
      split at h
      · cases h
      · next hpos =>
        split at h
        · cases h
        · next total htotal =>
          obtain ⟨rfl, hmax⟩ := cellsWithin?_eq_some.1 htotal
          have hfirst := Cursor.Passes.advance (Cursor.atEnd_eq_false hlen (by simp))
          have hone : Length [c.current] len.toNat := .mk hlen (by omega)
          rw [outcome_advance_bind, outcome_takeSymbol_bind] at h
          split at h
          · next hs =>
            obtain ⟨dims, e, hrest, h⟩ := outcome_bind_ok h
            obtain ⟨ts, ht, hl, hprod⟩ := ih hrest
            cases h
            have hcomma := Cursor.Passes.advance (Cursor.atEnd_of_atSymbol hs)
            refine ⟨_, hfirst.trans (hcomma.trans ht), .more hone (of_decide_eq_true hs) hl, ?_⟩
            rw [List.foldr_cons, ← Nat.mul_assoc]
            exact hprod
          · cases h
            refine ⟨_, hfirst, .one hone, ?_⟩
            simpa only [List.foldr_cons, List.foldr_nil, Nat.mul_one] using hmax
    · cases h

theorem Length.pos {len : Nat} (h : Length ts len) : 0 < len := by
  cases h
  omega

theorem foldr_mul_pos (h : Listed Length ts dims) : 0 < dims.foldr (· * ·) 1 := by
  induction h with
  | one ha => simpa using ha.pos
  | more ha _ _ ih =>
    rw [List.foldr_cons]
    exact Nat.mul_pos ha.pos ih

theorem dimensionList_complete {n cells : Nat} (h : Listed Length ts dims) (hn : ts.length < n)
    (hprod : cells * dims.foldr (· * ·) 1 ≤ maxCells) (hd : d.current.kind ≠ .symbol .comma) :
    (dimensionList cells n).outcome (.before ts d) = (.ok dims, d) := by
  induction h generalizing n cells with
  | one ha =>
    cases n with
    | zero => omega
    | succ n =>
      cases ha with
      | @mk t len hlen hpos =>
        simp only [List.foldr_cons, List.foldr_nil, Nat.mul_one] at hprod
        rw [dimensionList, outcome_current_bind, Cursor.current_before_cons, hlen]
        dsimp only
        rw [if_neg (by omega), cellsWithin?_eq_some.2 ⟨rfl, hprod⟩]
        dsimp only
        rw [outcome_bind_of_ok (advance_before (by simp [hlen])),
          Cursor.before_nil, outcome_bind_of_ok (takeSymbol_not_here hd)]
        rfl
  | more ha hk hl ih =>
    cases n with
    | zero => omega
    | succ n =>
      cases ha with
      | @mk t len hlen hpos =>
        simp only [List.length_append, List.length_cons, List.length_nil] at hn
        rw [List.foldr_cons, ← Nat.mul_assoc] at hprod
        have hle := Nat.le_mul_of_pos_right (cells * len.toNat) (foldr_mul_pos hl)
        rw [Cursor.before_append, dimensionList, outcome_current_bind, Cursor.current_before_cons,
          hlen]
        dsimp only
        rw [if_neg (by omega), cellsWithin?_eq_some.2 ⟨rfl, Nat.le_trans hle hprod⟩]
        dsimp only
        rw [outcome_bind_of_ok (advance_before (by simp [hlen])),
          Cursor.before_nil, outcome_bind_of_ok (takeSymbol_before hk), if_pos rfl,
          outcome_bind_of_ok (ih (by omega) hprod)]
        rfl

theorem reads_parseDimensions :
    parseDimensions.Reads (·.kind ≠ .symbol .leftBracket) Dimensions where
  sound {c dims d} h := by
    rw [parseDimensions, outcome_takeSymbol_bind] at h
    split at h
    · next hs =>
      rw [if_pos rfl, outcome_budget_bind] at h
      obtain ⟨dims, e, hl, h⟩ := outcome_bind_ok h
      obtain ⟨u, f, hu, h⟩ := outcome_bind_ok h
      obtain ⟨-, hk, hu⟩ := symbol_ok hu
      obtain ⟨ts, ht, hl, hprod⟩ := dimensionList_sound hl
      cases h
      have hopen := Cursor.Passes.advance (Cursor.atEnd_of_atSymbol hs)
      exact ⟨_, (hopen.trans ht).trans hu,
        .some (of_decide_eq_true hs) hl (by rwa [Nat.one_mul] at hprod) hk⟩
    · cases h
      exact ⟨[], .refl c, .none⟩
  complete {ts dims d} h hd := by
    rw [parseDimensions]
    cases h with
    | none =>
      rw [Cursor.before_nil, outcome_bind_of_ok (takeSymbol_not_here hd)]
      rfl
    | @some t u ts _ ht hl hprod hu =>
      have hn : ts.length < (Cursor.before (ts ++ [u]) d).rest.length + 1 := by
        rw [Cursor.length_rest_before, List.length_append]
        omega
      rw [List.cons_append, outcome_bind_of_ok (takeSymbol_before ht), if_pos rfl,
        outcome_budget_bind, Cursor.before_append,
        outcome_bind_of_ok (dimensionList_complete hl (by simpa using hn)
          (by rwa [Nat.one_mul]) (by simp [hu])),
        outcome_bind_of_ok (symbol_before hu _)]
      rfl

theorem reads_parseDeclared (a : Atom) :
    (parseDeclared a).Reads (·.kind ≠ .symbol .leftBracket) (Declared a) where
  sound h := by
    rw [parseDeclared, outcome_location_bind] at h
    obtain ⟨name, e, hw, h⟩ := outcome_bind_ok h
    obtain ⟨dims, f, hdims, h⟩ := outcome_bind_ok h
    obtain ⟨hk, hw⟩ := word_ok hw
    obtain ⟨ts, ht, hts⟩ := reads_parseDimensions.sound hdims
    cases h
    exact ⟨_, hw.trans ht, .mk hk hts⟩
  complete h hd := by
    cases h with
    | mk hk hdims =>
      rw [parseDeclared, outcome_location_bind, outcome_bind_of_ok (word_before hk),
        outcome_bind_of_ok (reads_parseDimensions.complete hdims hd)]
      rfl

theorem reads_parseParameter :
    parseParameter.Reads (·.kind ≠ .symbol .leftBracket) Parameter where
  sound {c v d} h := by
    rw [parseParameter, outcome_location_bind, outcome_takeKeyword_bind] at h
    split at h
    · next hr =>
      obtain ⟨a, e, ha, h⟩ := outcome_bind_ok h
      obtain ⟨name, f, hw, h⟩ := outcome_bind_ok h
      obtain ⟨dims, g, hdims, h⟩ := outcome_bind_ok h
      obtain ⟨hka, ha⟩ := atom_ok ha
      obtain ⟨hkw, hw⟩ := word_ok hw
      obtain ⟨ts, ht, hts⟩ := reads_parseDimensions.sound hdims
      cases h
      have href := Cursor.Passes.advance (Cursor.atEnd_of_atKeyword hr)
      exact ⟨_, href.trans (ha.trans (hw.trans ht)),
        .byReference (of_decide_eq_true hr) (TokenKind.typeWord_of_atom? hka) hkw hts⟩
    · obtain ⟨a, e, ha, h⟩ := outcome_bind_ok h
      obtain ⟨name, f, hw, h⟩ := outcome_bind_ok h
      obtain ⟨dims, g, hdims, h⟩ := outcome_bind_ok h
      obtain ⟨hka, ha⟩ := atom_ok ha
      obtain ⟨hkw, hw⟩ := word_ok hw
      obtain ⟨ts, ht, hts⟩ := reads_parseDimensions.sound hdims
      cases h
      exact ⟨_, ha.trans (hw.trans ht), .byValue (TokenKind.typeWord_of_atom? hka) hkw hts⟩
  complete h hd := by
    rw [parseParameter, outcome_location_bind]
    cases h with
    | byValue ha hw hdims =>
      rw [outcome_bind_of_ok (takeKeyword_not_here (ha.ne rfl)),
        outcome_bind_of_ok (atom_before ha.atom?),
        outcome_bind_of_ok (word_before hw),
        outcome_bind_of_ok (reads_parseDimensions.complete hdims hd)]
      rfl
    | byReference hr ha hw hdims =>
      rw [outcome_bind_of_ok (takeKeyword_before hr),
        outcome_bind_of_ok (atom_before ha.atom?),
        outcome_bind_of_ok (word_before hw),
        outcome_bind_of_ok (reads_parseDimensions.complete hdims hd)]
      rfl

theorem Parameter.begins {v : Variable} (h : Parameter ts v) :
    ∃ t us, ts = t :: us ∧ t.kind ≠ .symbol .rightParen := by
  cases h with
  | byValue ha _ _ => exact ⟨_, _, rfl, ha.ne rfl⟩
  | byReference hr _ _ _ => exact ⟨_, _, rfl, by simp [hr]⟩

theorem reads_parseParameters : parseParameters.Reads (fun _ => True) Parameters where
  sound h := by
    obtain ⟨t, e, ht, h⟩ := outcome_bind_ok h
    obtain ⟨-, hk, ht⟩ := symbol_ok ht
    rw [outcome_takeSymbol_bind] at h
    split at h
    · next hs =>
      cases h
      have hclose := Cursor.Passes.advance (Cursor.atEnd_of_atSymbol hs)
      exact ⟨_, ht.trans hclose, .none hk (of_decide_eq_true hs)⟩
    · simp only [Bool.false_eq_true, if_false, outcome_budget_bind] at h
      obtain ⟨vs, f, hl, h⟩ := outcome_bind_ok h
      obtain ⟨u, g, hu, h⟩ := outcome_bind_ok h
      obtain ⟨-, hku, hu⟩ := symbol_ok hu
      obtain ⟨us, hs, hl⟩ := reads_parseParameter.commaList_sound hl
      cases h
      exact ⟨_, (ht.trans hs).trans hu, .some hk hl hku⟩
  complete {ts vs d} h _ := by
    rw [parseParameters]
    cases h with
    | none ht hu =>
      rw [outcome_bind_of_ok (symbol_before ht _), outcome_bind_of_ok (takeSymbol_before hu)]
      rfl
    | @some t u ts _ ht hl hu =>
      have hopen : (Cursor.before (ts ++ [u]) d).current.kind ≠ .symbol .rightParen := by
        obtain ⟨v, us, rfl, hne⟩ := hl.begins Parameter.begins
        exact hne
      have hn : ts.length < (Cursor.before ts (.before [u] d)).rest.length + 1 := by
        rw [Cursor.length_rest_before]
        omega
      rw [List.cons_append, outcome_bind_of_ok (symbol_before ht _),
        outcome_bind_of_ok (takeSymbol_not_here hopen), if_neg Bool.false_ne_true,
        outcome_budget_bind, Cursor.before_append,
        outcome_bind_of_ok (reads_parseParameter.commaList_complete (fun t ht => by simp [ht]) hl hn
          (by simp [hu]) (by simp [hu])), outcome_bind_of_ok (symbol_before hu _)]
      rfl

end Variable

namespace Statement

variable {c d : Cursor} {ts : List Token} {ss : List Statement}

def EndsDeclaration (t : Token) : Prop :=
  t.kind ≠ .symbol .leftBracket ∧ t.kind ≠ .symbol .comma

theorem reads_parseDeclaration : parseDeclaration.Reads EndsDeclaration Declaration where
  sound h := by
    rw [parseDeclaration, outcome_location_bind] at h
    obtain ⟨a, e, ha, h⟩ := outcome_bind_ok h
    rw [outcome_budget_bind] at h
    obtain ⟨vs, f, hvs, h⟩ := outcome_bind_ok h
    obtain ⟨hk, ha⟩ := atom_ok ha
    obtain ⟨ts, ht, hl⟩ := (Variable.reads_parseDeclared a).commaList_sound hvs
    cases h
    exact ⟨_, ha.trans ht, .mk (TokenKind.typeWord_of_atom? hk) hl⟩
  complete {ts s d} h hd := by
    cases h with
    | @mk t ts a vs ha hl =>
      have hn : ts.length < (Cursor.before ts d).rest.length + 1 := by
        rw [Cursor.length_rest_before]
        omega
      rw [parseDeclaration, outcome_location_bind, outcome_bind_of_ok (atom_before ha.atom?),
        outcome_budget_bind, outcome_bind_of_ok ((Variable.reads_parseDeclared a).commaList_complete
          (fun t ht => by simp [ht]) hl hn hd.1 hd.2)]
      rfl

theorem endsDeclaration {ns : List Token} (h : LineEnds ns) :
    EndsDeclaration (Cursor.before ns d).current := by
  cases ns with
  | nil => exact absurd rfl h.ne_nil
  | cons t ns =>
    have ht : t.kind = .endOfLine := h.kind t (by simp)
    exact ⟨by simp [ht], by simp [ht]⟩

/-- Behind the declarations that are read the file does not end unless the last one lacks the end of
its line. -/
theorem declarationsWithin_sound {n : Nat} (hcur : c.current.kind ≠ .endOfLine)
    (h : (declarationsWithin n).outcome c = (.ok ss, d)) (hd : d.atEnd = false) :
    ∃ ts, c.Passes ts d ∧ Declarations ts ss := by
  induction n generalizing c ss with
  | zero => cases h; exact ⟨[], .refl _, .nil⟩
  | succ n ih =>
    rw [declarationsWithin, outcome_skipLineEnds_bind, Cursor.skipLineEnds_of_kind hcur,
      outcome_current_bind] at h
    split at h
    · obtain ⟨s, e, hs, h⟩ := outcome_bind_ok h
      obtain ⟨_, f, hl, h⟩ := outcome_bind_ok h
      obtain ⟨ss, g, hss, h⟩ := outcome_bind_ok h
      cases h
      obtain ⟨ts, ht, hs⟩ := reads_parseDeclaration.sound hs
      obtain ⟨hcur, ns, hns, hend⟩ := lineEnd_ok hl
      obtain ⟨us, hu, hss⟩ := ih hcur hss
      cases hend with
      | inl hline => exact ⟨_, (ht.trans hns).trans hu, .cons hs hline hss⟩
      | inr hend =>
        rw [hu.eq_of_atEnd hend.2, hend.2] at hd
        cases hd
    · cases h
      exact ⟨[], .refl _, .nil⟩

theorem Declaration.begins {s : Statement} (h : Declaration ts s) :
    ∃ t us a, ts = t :: us ∧ t.kind.TypeWord a := by
  cases h with
  | mk ha _ => exact ⟨_, _, _, rfl, ha⟩

theorem Declarations.begins (h : Declarations ts ss) (hd : d.current.kind ≠ .endOfLine) :
    (Cursor.before ts d).current.kind ≠ .endOfLine := by
  cases h with
  | nil => exact hd
  | cons hs _ _ =>
    obtain ⟨t, us, a, rfl, ha⟩ := hs.begins
    exact ha.ne rfl

theorem declarationsWithin_complete {n : Nat} (h : Declarations ts ss) (hn : ts.length < n)
    (hd : d.current.kind.atom? = none) (hcur : d.current.kind ≠ .endOfLine) :
    (declarationsWithin n).outcome (.before ts d) = (.ok ss, d) := by
  induction h generalizing n with
  | nil =>
    cases n with
    | zero => rfl
    | succ n =>
      rw [declarationsWithin, outcome_skipLineEnds_bind, Cursor.before_nil,
        Cursor.skipLineEnds_of_kind hcur, outcome_current_bind, hd]
      rfl
  | cons hs hns hss ih =>
    cases n with
    | zero => omega
    | succ n =>
      have hcur' := (Declarations.cons hs hns hss).begins hcur
      obtain ⟨t, vs, a, rfl, ha⟩ := hs.begins
      simp only [List.length_append, List.length_cons] at hn
      rw [declarationsWithin, outcome_skipLineEnds_bind, Cursor.skipLineEnds_of_kind hcur',
        outcome_current_bind]
      simp only [List.cons_append, Cursor.current_before_cons, ha.atom?, Option.isSome_some,
        if_true]
      rw [← List.cons_append, ← List.cons_append, Cursor.before_append, Cursor.before_append,
        outcome_bind_of_ok (reads_parseDeclaration.complete hs (endsDeclaration hns)),
        outcome_bind_of_ok (lineEnd_before hns (hss.begins hcur)),
        outcome_bind_of_ok (ih (by omega))]
      rfl

end Statement

namespace Module

variable {c d : Cursor} {ts : List Token} {body : List Statement} {closer : Keyword}
  {e : BlockEnd}

theorem parseBody_sound (hcur : c.current.kind ≠ .endOfLine)
    (h : (parseBody closer e).outcome c = (.ok body, d)) :
    ∃ ts, c.Passes ts d ∧ Body closer ts body := by
  obtain ⟨ds, c₁, hds, h⟩ := outcome_bind_ok h
  obtain ⟨t, c₂, ht, h⟩ := outcome_bind_ok h
  obtain ⟨_, c₃, hl, h⟩ := outcome_bind_ok h
  obtain ⟨ss, c₄, hss, h⟩ := outcome_bind_ok h
  obtain ⟨u, c₅, hu, h⟩ := outcome_bind_ok h
  cases h
  obtain ⟨htc, hk, ht⟩ := keyword_ok ht
  have hend : c₁.atEnd = false := Cursor.atEnd_eq_false (htc ▸ hk) (by simp)
  rw [Statement.parseDeclarations, outcome_budget_bind] at hds
  obtain ⟨ts, hts, hds⟩ := Statement.declarationsWithin_sound hcur hds hend
  obtain ⟨⟨ns, us, hus, hns, hblock⟩, -⟩ := Statement.blockSound_parseBlock.line hl hss
  obtain ⟨-, hku, hu⟩ := keyword_ok hu
  refine ⟨_, ?_, .mk hds hk hns hblock hku⟩
  simpa using (hts.trans (ht.trans hus)).trans hu

/-- A body behind the end of a line. -/
theorem parseBody_line {f : Cursor} {u : Unit} (hl : lineEnd.outcome c = (.ok u, f))
    (h : (parseBody closer e).outcome f = (.ok body, d)) :
    ∃ ns ts, c.Passes (ns ++ ts) d ∧ LineEnds ns ∧ Body closer ts body := by
  obtain ⟨hcur, ns, hns, hend⟩ := lineEnd_ok hl
  obtain ⟨ts, ht, hbody⟩ := parseBody_sound hcur h
  refine ⟨ns, ts, hns.trans ht, ?_, hbody⟩
  cases hend with
  | inl hline => exact hline
  | inr hend =>
    have hd := ht.eq_of_atEnd hend.2
    have hlen := ht.length
    rw [hd] at hlen
    cases hbody
    simp only [List.length_append, List.length_cons] at hlen
    omega

theorem Body.begins (h : Body closer ts body) :
    (Cursor.before ts d).current.kind ≠ .endOfLine := by
  cases h with
  | mk hds hk _ _ _ =>
    simp only [Cursor.before_append]
    exact hds.begins (by simp [hk])

theorem Body.parse (h : Body closer ts body) (hk : closer ∈ e.closers)
    (he : ∀ k ∈ e.closers, k ∈ Statement.closers) :
    (parseBody closer e).outcome (.before ts d) = (.ok body, d) := by
  cases h with
  | @mk t u ts ns us ds ss hds ht hns hblock hu =>
    have hdecl : Statement.parseDeclarations.outcome
        (.before ts (.before (t :: ns) (.before us (.before [u] d)))) =
        (.ok ds, .before (t :: ns) (.before us (.before [u] d))) := by
      rw [Statement.parseDeclarations, outcome_budget_bind]
      refine Statement.declarationsWithin_complete hds ?_ ?_ ?_
      · rw [Cursor.length_rest_before]
        omega
      · simp [ht, TokenKind.atom?, Keyword.atom?]
      · simp [ht]
    simp only [Cursor.before_append]
    rw [parseBody, outcome_bind_of_ok hdecl, outcome_bind_of_ok (keyword_before ht _),
      outcome_bind_of_ok (lineEnd_before hns (hblock.begins hu)),
      outcome_bind_of_ok (Statement.parseBlock_complete hblock hk hu he),
      outcome_bind_of_ok (keyword_before hu _)]
    rfl

theorem Spelled.begins {m : Module} (h : Spelled ts m) :
    ∃ t us, ts = t :: us ∧ t.kind ≠ .endOfLine ∧ t.kind ≠ .endOfFile := by
  cases h with
  | main ht _ _ => exact ⟨_, _, rfl, by simp [ht], by simp [ht]⟩
  | function ha _ _ _ _ _ =>
    exact ⟨_, _, rfl, ha.ne rfl, ha.ne rfl⟩
  | procedure ht _ _ _ _ => exact ⟨_, _, rfl, by simp [ht], by simp [ht]⟩

theorem outcome_parse_of_typeWord {a : Atom} (h : c.current.kind.TypeWord a) :
    Module.parse.outcome c = (parseFunction a).outcome c := by
  have hmain : c.current.kind ≠ .keyword .vars := h.ne rfl
  have hprocedure : c.current.kind ≠ .keyword .procedimiento := h.ne rfl
  rw [Module.parse, outcome_current_bind, h.atom?]
  split
  · next hk => exact absurd hk hmain
  · next hk => exact absurd hk hprocedure
  · next b ha _ _ => cases ha; rfl
  · next ha _ _ => cases ha

section Sound

variable {m : Module}

theorem spelled_of_parseMain (hc : c.current.kind = .keyword .vars)
    (h : parseMain.outcome c = (.ok m, d)) : ∃ ts, c.Passes ts d ∧ Spelled ts m := by
  have hfirst := Cursor.Passes.advance (Cursor.atEnd_eq_false hc (by simp))
  rw [parseMain, outcome_advance_bind] at h
  obtain ⟨_, c₁, hl, h⟩ := outcome_bind_ok h
  obtain ⟨body, c₂, hbody, h⟩ := outcome_bind_ok h
  cases h
  obtain ⟨ns, ts, hts, hns, hbody⟩ := parseBody_line hl hbody
  refine ⟨_, ?_, .main hc hns hbody⟩
  simpa using hfirst.trans hts

theorem spelled_of_parseProcedure (hc : c.current.kind = .keyword .procedimiento)
    (h : parseProcedure.outcome c = (.ok m, d)) : ∃ ts, c.Passes ts d ∧ Spelled ts m := by
  have hfirst := Cursor.Passes.advance (Cursor.atEnd_eq_false hc (by simp))
  rw [parseProcedure, outcome_advance_bind] at h
  obtain ⟨name, c₁, hw, h⟩ := outcome_bind_ok h
  obtain ⟨vs, c₂, hvs, h⟩ := outcome_bind_ok h
  obtain ⟨_, c₃, hl, h⟩ := outcome_bind_ok h
  obtain ⟨body, c₄, hbody, h⟩ := outcome_bind_ok h
  cases h
  obtain ⟨hkw, hw⟩ := word_ok hw
  obtain ⟨us, hus, hvs⟩ := Variable.reads_parseParameters.sound hvs
  obtain ⟨ns, ts, hts, hns, hbody⟩ := parseBody_line hl hbody
  rw [← redeclared_eq]
  refine ⟨_, ?_, .procedure hc hkw hvs hns hbody⟩
  simpa using (hfirst.trans (hw.trans hus)).trans hts

theorem spelled_of_parseFunction {a : Atom} (hc : c.current.kind.atom? = some a)
    (h : (parseFunction a).outcome c = (.ok m, d)) : ∃ ts, c.Passes ts d ∧ Spelled ts m := by
  have hfirst := Cursor.Passes.advance
    (Cursor.atEnd_eq_false rfl (TokenKind.ne_endOfFile_of_atom? hc))
  rw [parseFunction, outcome_advance_bind] at h
  obtain ⟨u, c₁, hu, h⟩ := outcome_bind_ok h
  obtain ⟨name, c₂, hw, h⟩ := outcome_bind_ok h
  obtain ⟨vs, c₃, hvs, h⟩ := outcome_bind_ok h
  obtain ⟨_, c₄, hl, h⟩ := outcome_bind_ok h
  obtain ⟨body, c₅, hbody, h⟩ := outcome_bind_ok h
  cases h
  obtain ⟨-, hku, hu⟩ := keyword_ok hu
  obtain ⟨hkw, hw⟩ := word_ok hw
  obtain ⟨us, hus, hvs⟩ := Variable.reads_parseParameters.sound hvs
  obtain ⟨ns, ts, hts, hns, hbody⟩ := parseBody_line hl hbody
  rw [← redeclared_eq]
  refine ⟨_, ?_, .function (TokenKind.typeWord_of_atom? hc) hku hkw hvs hns hbody⟩
  simpa using (hfirst.trans (hu.trans (hw.trans hus))).trans hts

end Sound

theorem parse_complete {m : Module} (h : Spelled ts m) :
    Module.parse.outcome (.before ts d) = (.ok m, d) := by
  cases h with
  | @main t ns ts body ht hns hbody =>
    rw [Module.parse, outcome_current_bind, List.cons_append, Cursor.current_before_cons, ht]
    show parseMain.outcome _ = _
    rw [parseMain, outcome_bind_of_ok (advance_before (by simp [ht])), Cursor.before_append,
      outcome_bind_of_ok (lineEnd_before hns hbody.begins),
      outcome_bind_of_ok (hbody.parse (by decide) (by decide))]
    rfl
  | @function t u w ts ns us a name vs body ht hu hw hvs hns hbody =>
    rw [outcome_parse_of_typeWord (c := .before (t :: u :: w :: ts ++ ns ++ us) d) ht, parseFunction]
    simp only [Cursor.before_append]
    rw [outcome_bind_of_ok (advance_before (ht.ne rfl)),
      outcome_bind_of_ok (keyword_before hu _), outcome_bind_of_ok (word_before hw),
      outcome_bind_of_ok (Variable.reads_parseParameters.complete hvs trivial),
      outcome_bind_of_ok (lineEnd_before hns hbody.begins),
      outcome_bind_of_ok (hbody.parse (by decide) (by decide)), redeclared_eq]
    rfl
  | @procedure t w ts ns us name vs body ht hw hvs hns hbody =>
    rw [Module.parse, outcome_current_bind]
    simp only [List.cons_append, Cursor.current_before_cons, ht]
    show parseProcedure.outcome _ = _
    rw [parseProcedure, outcome_bind_of_ok (advance_before (by simp [ht])),
      outcome_bind_of_ok (word_before hw), Cursor.before_append, Cursor.before_append,
      outcome_bind_of_ok (Variable.reads_parseParameters.complete hvs trivial),
      outcome_bind_of_ok (lineEnd_before hns hbody.begins),
      outcome_bind_of_ok (hbody.parse (by decide) (by decide)), redeclared_eq]
    rfl

theorem reads_parse : Module.parse.Reads (fun _ => True) Spelled where
  sound {c m d} h := by
    rw [Module.parse, outcome_current_bind] at h
    split at h
    · next hc => exact spelled_of_parseMain hc h
    · next hc => exact spelled_of_parseProcedure hc h
    · next a hc _ _ => exact spelled_of_parseFunction hc h
    · cases h
  complete h _ := parse_complete h

end Module
end Seudocodigo
