import Mathlib.Data.Fintype.EquivFin
import Seudocodigo.Proofs.Blame.Statement
import Seudocodigo.Proofs.Grammar.Module

/-! The parsers of declarations and modules fail as soon as the tokens begin none. -/
namespace Seudocodigo

open Parse

def Cursor.word? (c : Cursor) : Option String :=
  match c.current.kind with
  | .word name => some name
  | _ => none

theorem Cursor.word?_of_kind {c : Cursor} {name : String} (h : c.current.kind = .word name) :
    c.word? = some name := by
  rw [word?, h]

namespace Variable

variable {c : Cursor}

/-- Lengths that leave an array small enough behind others that give the stated number of cells. -/
def Lengths (cells : Nat) (ts : List Token) (dims : List Nat) : Prop :=
  Listed Length ts dims ∧ cells * dims.foldr (· * ·) 1 ≤ maxCells

theorem length_one : Length [.ofKind (.integer 1)] 1 := .mk rfl (by decide : (0 : Int) < 1)

theorem begins_lengths {cells : Nat} (h : cells ≤ maxCells) : Begins (Lengths cells) [] :=
  .nil (.of ⟨.one length_one, by simpa using h⟩)

/-- Where a length leaves too few cells, a shorter one would do. -/
theorem blames_dimensionList {cells : Nat} (h : cells ≤ maxCells) (n : Nat) :
    Blames (Begins (Lengths cells)) (dimensionList cells n) c := by
  induction n generalizing c cells with
  | zero => exact .fail (begins_lengths h) _ _ c
  | succ n ih =>
    refine .congr (outcome_current_bind c _) ?_
    split
    · next len hlen =>
      split
      · exact .fail (begins_lengths h) _ _ c
      · next hpos =>
        split
        · exact .fail (begins_lengths h) _ _ c
        · next total htotal =>
          obtain ⟨rfl, hsmall⟩ := cellsWithin?_eq_some.1 htotal
          have hone : Length [c.current] len.toNat := .mk hlen (by omega)
          refine .advance_bind (Cursor.atEnd_eq_false hlen (by simp)) ?_
          refine .takeSymbol_bind (fun hcomma => .map ?_) (.pure _ _)
          refine (ih hsmall).mono ?_
          intro ts ⟨us, dims, hl, hprod⟩
          refine ⟨us, len.toNat :: dims, .more hone hcomma hl, ?_⟩
          rwa [List.foldr_cons, ← Nat.mul_assoc]
    · exact .fail (begins_lengths h) _ _ c

theorem blames_parseDimensions : Blames (Begins Dimensions) parseDimensions c := by
  refine .takeSymbol_bind (fun ht => ?_) (.pure _ _)
  refine .congr (outcome_budget_bind _ _) ?_
  have hlengths {ts : List Token} (hts : Begins (Lengths 1) ts) :
      Begins Dimensions (c.current :: ts) :=
    hts.within [c.current] fun ⟨hl, hprod⟩ =>
      ⟨[.ofKind _], _, .some ht hl (by rwa [Nat.one_mul] at hprod) rfl⟩
  refine .read (blames_dimensionList (by decide) _) dimensionList_sound hlengths fun _ _ hV => ?_
  exact .symbol_bind hV fun _ => .pure _ _

theorem begins_declared (a : Atom) : Begins (Declared a) [] :=
  .nil (.of (.mk (t := .ofKind (.word "")) rfl .none))

theorem blames_parseDeclared (a : Atom) : Blames (Begins (Declared a)) (parseDeclared a) c := by
  refine .congr (outcome_location_bind c _) (.word_bind (begins_declared a) fun hw => .map ?_)
  exact blames_parseDimensions.mono fun ts hts =>
    hts.within [c.current] fun hdims => .of (.mk hw hdims)

/-- A parameter, but for the word that may stand before it. -/
theorem begins_parameter {t : Token} {a : Atom} (ht : t.kind.TypeWord a) :
    Begins Parameter [t] :=
  .of_append [.ofKind (.word "")] (.of (.byValue (u := .ofKind _) ht rfl .none))

theorem begins_reference {r t : Token} {a : Atom} (hr : r.kind = .keyword .ref)
    (ht : t.kind.TypeWord a) : Begins Parameter [r, t] :=
  .of_append [.ofKind (.word "")] (.of (.byReference (u := .ofKind _) hr ht rfl .none))

theorem begins_parameter_nil : Begins Parameter [] :=
  .nil (begins_parameter (t := .ofKind (.keyword .entero)) .entero)

theorem blames_parseParameter : Blames (Begins Parameter) parseParameter c := by
  refine .congr (outcome_location_bind c _) (.takeKeyword_bind (fun hr => ?_) ?_)
  · have hword : Begins Parameter [c.current] :=
      (begins_reference (t := .ofKind (.keyword .entero)) hr .entero).of_append [.ofKind _]
    refine .atom_bind hword fun ha => ?_
    have ha := TokenKind.typeWord_of_atom? ha
    refine .word_bind (begins_reference hr ha) fun hw => .map ?_
    exact blames_parseDimensions.mono fun ts hts =>
      hts.within [_, _, _] fun hdims => .of (.byReference hr ha hw hdims)
  · refine .atom_bind begins_parameter_nil fun ha => ?_
    have ha := TokenKind.typeWord_of_atom? ha
    refine .word_bind (begins_parameter ha) fun hw => .map ?_
    exact blames_parseDimensions.mono fun ts hts =>
      hts.within [_, _] fun hdims => .of (.byValue ha hw hdims)

theorem blames_parseParameters : Blames (Begins Parameters) parseParameters c := by
  have hnone : Begins Parameters [] := .nil (.of (.none (t := .ofKind _) (u := .ofKind _) rfl rfl))
  refine .symbol_bind hnone fun ht => .takeSymbol_bind (fun _ => .pure _ _) ?_
  refine .congr (outcome_budget_bind _ _) ?_
  have hlist {ts : List Token} (hts : Begins (Listed Parameter) ts) :
      Begins Parameters (c.current :: ts) :=
    hts.within [c.current] fun hl => ⟨[.ofKind _], _, .some ht hl rfl⟩
  refine .read (.commaList reads_parseParameter begins_parameter_nil
    (fun _ _ => blames_parseParameter) _) reads_parseParameter.commaList_sound hlist
    fun _ _ hV => ?_
  exact .symbol_bind hV fun _ => .pure _ _

end Variable

namespace Statement

variable {c : Cursor} {ts ns us : List Token}

theorem begins_declaration {t : Token} {a : Atom} (ht : t.kind.TypeWord a)
    (h : Begins (Listed (Variable.Declared a)) ts) : Begins Declaration (t :: ts) :=
  h.within [t] fun hl => .of (.mk ht hl)

theorem begins_declaration_nil : Begins Declaration [] :=
  .nil (begins_declaration (t := .ofKind (.keyword .entero)) .entero
    (Variable.begins_declared .integer).listed)

theorem blames_parseDeclaration : Blames (Begins Declaration) parseDeclaration c := by
  refine .congr (outcome_location_bind c _) (.atom_bind begins_declaration_nil fun {a} ha => ?_)
  refine .congr (outcome_budget_bind _ _) (.map ?_)
  exact (Blames.commaList (Variable.reads_parseDeclared a) (Variable.begins_declared a)
    (fun _ _ => Variable.blames_parseDeclared a) _).mono fun _ =>
      begins_declaration (TokenKind.typeWord_of_atom? ha)

theorem begins_declarations_cons {s : Statement} (hts : Declaration ts s) (hns : LineEnds ns)
    (h : Begins Declarations us) : Begins Declarations (ts ++ (ns ++ us)) := by
  obtain ⟨xs, ss, hss⟩ := h
  exact ⟨xs, s :: ss, by simpa using Declarations.cons hts hns hss⟩

theorem begins_declarations (h : Begins Declaration ts) : Begins Declarations ts :=
  h.within [] fun hs =>
    ⟨[.ofKind .endOfLine], _, by simpa using Declarations.cons hs lineEnds_ofKind .nil⟩

theorem blames_declarationsWithin (n : Nat) (hcur : c.current.kind ≠ .endOfLine) :
    Blames (Begins Declarations) (declarationsWithin n) c := by
  induction n generalizing c with
  | zero => exact .pure _ _
  | succ n ih =>
    refine .skipLineEnds_bind hcur (.congr (outcome_current_bind c _) ?_)
    split
    · refine .read blames_parseDeclaration reads_parseDeclaration.sound begins_declarations
        fun _ hts hV => .lineEnd_bind hV fun hns hcur => .map ?_
      exact (ih hcur).mono fun _ => begins_declarations_cons hts hns
    · exact .pure _ _

/-- The last declaration may lack the end of its line, where the file ends. -/
theorem begins_of_declarationsWithin {n : Nat} {d : Cursor} {ss : List Statement}
    (hcur : c.current.kind ≠ .endOfLine) (h : (declarationsWithin n).outcome c = (.ok ss, d)) :
    ∃ ts, c.Passes ts d ∧ Begins Declarations ts := by
  induction n generalizing c ss with
  | zero => cases h; exact ⟨[], .refl _, .of .nil⟩
  | succ n ih =>
    rw [declarationsWithin, outcome_skipLineEnds_bind, Cursor.skipLineEnds_of_kind hcur,
      outcome_current_bind] at h
    split at h
    · obtain ⟨s, e, hs, h⟩ := outcome_bind_ok h
      obtain ⟨_, f, hl, h⟩ := outcome_bind_ok h
      obtain ⟨ss, g, hss, h⟩ := outcome_bind_ok h
      cases h
      obtain ⟨ts, ht, hs⟩ := reads_parseDeclaration.sound hs
      obtain ⟨hcur, ns, hns, hend⟩ := lineEnd_ok hl
      obtain ⟨us, hu, hus⟩ := ih hcur hss
      cases hend with
      | inl hline => exact ⟨_, ht.trans (hns.trans hu), begins_declarations_cons hs hline hus⟩
      | inr hend =>
        obtain ⟨rfl, hend⟩ := hend
        cases hu.eq_of_atEnd hend
        exact ⟨_, ht.trans hns, by simpa using begins_declarations (.of hs)⟩
    · cases h
      exact ⟨[], .refl _, .of .nil⟩

end Statement

namespace Module

variable {c : Cursor} {closer : Keyword} {e : BlockEnd} {ms : List Module}

theorem begins_body_of_block (closer : Keyword) {t : Token} {ts ns us : List Token}
    {ds : List Statement} (hts : Statement.Declarations ts ds) (ht : t.kind = .keyword .inicio)
    (hns : LineEnds ns) (h : Begins Statement.Block us) :
    Begins (Body closer) (ts ++ t :: (ns ++ us)) := by
  obtain ⟨xs, ss, hss⟩ := h
  have hbody := Body.mk (u := .ofKind (.keyword closer)) hts ht hns hss rfl
  exact ⟨xs ++ [.ofKind (.keyword closer)], _, by simpa using hbody⟩

theorem begins_body_of_declarations (closer : Keyword) {ts : List Token}
    (h : Begins Statement.Declarations ts) : Begins (Body closer) ts := by
  obtain ⟨xs, ds, hds⟩ := h
  obtain ⟨ys, ss, hss⟩ := begins_body_of_block closer (t := .ofKind _) hds rfl lineEnds_ofKind
    (.of .nil)
  exact ⟨xs ++ .ofKind (.keyword .inicio) :: .ofKind .endOfLine :: ys, ss, by simpa using hss⟩

theorem onLines_parseBody (closer : Keyword) (e : BlockEnd) :
    OnLines (Body closer) (parseBody closer e) where
  sound hcur h := parseBody_sound hcur h
  blames {c} hcur := by
    have hdeclarations : Blames (Begins (Body closer)) Statement.parseDeclarations c :=
      .congr (outcome_budget_bind c _) ((Statement.blames_declarationsWithin _ hcur).mono
        fun _ => begins_body_of_declarations closer)
    refine .bind hdeclarations fun ds d hok => ?_
    rw [Statement.parseDeclarations, outcome_budget_bind] at hok
    cases hend : d.atEnd with
    | true =>
      obtain ⟨ts, hts, hds⟩ := Statement.begins_of_declarationsWithin hcur hok
      have hfile : d.current.kind = .endOfFile := of_decide_eq_true hend
      refine ⟨ts, hts, .keyword_bind ?_ fun ht => by simp [hfile] at ht⟩
      rw [List.append_nil]
      exact begins_body_of_declarations closer hds
    | false =>
      obtain ⟨ts, hts, hds⟩ := Statement.declarationsWithin_sound hcur hok hend
      refine ⟨ts, hts, .keyword_bind ?_ fun ht => ?_⟩
      · rw [List.append_nil]
        exact begins_body_of_declarations closer (.of hds)
      have hblock := Statement.onLines_block Statement.blockSound_parseBlock
        Statement.blockBlames_parseBlock e
      refine hblock.bind ?_ (begins_body_of_block closer hds ht) fun _ _ hV =>
        .keyword_bind hV fun _ => .pure _ _
      have hline := begins_body_of_block closer hds ht lineEnds_ofKind (.of .nil)
      exact .of_append [.ofKind .endOfLine] (by simpa using hline)

def NameFree (ms : List Module) (name : String) : Prop :=
  name ∉ Program.reserved ∧ ∀ m ∈ ms, m.kind ≠ .main → m.name ≠ name

instance (ms : List Module) (name : String) : Decidable (NameFree ms name) :=
  inferInstanceAs (Decidable (_ ∧ _))

def FitsBehind (ms : List Module) (m : Module) : Prop :=
  if m.kind = .main then ∀ n ∈ ms, n.kind ≠ .main else NameFree ms m.name

def SpelledBehind (ms : List Module) (ts : List Token) (m : Module) : Prop :=
  Spelled ts m ∧ m.FitsBehind ms

/-- There are more names than the language and the modules take. -/
theorem exists_nameFree (ms : List Module) : ∃ name, NameFree ms name := by
  obtain ⟨name, hname⟩ :=
    Infinite.exists_notMem_finset (Program.reserved ++ ms.map (·.name)).toFinset
  simp only [List.mem_toFinset, List.mem_append, not_or] at hname
  obtain ⟨hreserved, hmodules⟩ := hname
  refine ⟨name, hreserved, fun m hm _ he => hmodules ?_⟩
  exact he ▸ List.mem_map_of_mem hm

/-- What stands before the name of a procedure or function that begins at the given place, and the
word that closes it. -/
inductive Heading : List Token → Location → ModuleKind → Keyword → Prop where
  | procedure {t : Token} :
    t.kind = .keyword .procedimiento → Heading [t] t.location .procedure .finprocedimiento
  | function {t u : Token} {a : Atom} :
    t.kind.TypeWord a → u.kind = .keyword .funcion →
    Heading [t, u] t.location (.function a) .finfuncion

section Heading

variable {hs ts ns us : List Token} {w : Token} {p : Location} {kind : ModuleKind} {name : String}
  {vs : List Variable} {body : List Statement}

theorem Heading.spelled (h : Heading hs p kind closer) (hw : w.kind = .word name)
    (hts : Variable.Parameters ts vs) (hns : LineEnds ns) (hus : Body closer us body) :
    Spelled (hs ++ w :: (ts ++ (ns ++ us)))
      ⟨name, kind, vs, redeclared vs p ++ body, p⟩ := by
  cases h with
  | procedure ht => simpa using Spelled.procedure ht hw hts hns hus
  | function ht hu => simpa using Spelled.function ht hu hw hts hns hus

theorem Heading.kind_ne (h : Heading hs p kind closer) : kind ≠ .main := by
  cases h <;> simp

theorem begins_behind_body (h : Heading hs p kind closer) (hw : w.kind = .word name)
    (hname : NameFree ms name) (hts : Variable.Parameters ts vs) (hns : LineEnds ns)
    (hus : Begins (Body closer) us) :
    Begins (SpelledBehind ms) (hs ++ w :: (ts ++ (ns ++ us))) := by
  obtain ⟨xs, body, hb⟩ := hus
  have hm := h.spelled hw hts hns hb
  exact ⟨xs, _, by simpa using hm, by rw [FitsBehind, if_neg h.kind_ne]; exact hname⟩

theorem begins_behind_parameters (h : Heading hs p kind closer) (hw : w.kind = .word name)
    (hname : NameFree ms name) (hts : Begins Variable.Parameters ts) :
    Begins (SpelledBehind ms) (hs ++ w :: ts) := by
  obtain ⟨xs, vs, hvs⟩ := hts
  obtain ⟨ys, m, hm⟩ := begins_behind_body h hw hname hvs lineEnds_ofKind
    (begins_body_of_declarations _ (.of .nil))
  exact ⟨xs ++ .ofKind .endOfLine :: ys, m, by simpa using hm⟩

theorem begins_behind_heading (ms : List Module) (h : Heading hs p kind closer) :
    Begins (SpelledBehind ms) hs := by
  obtain ⟨name, hname⟩ := exists_nameFree ms
  have hts : Variable.Parameters [.ofKind _, .ofKind _] [] := .none rfl rfl
  exact (begins_behind_parameters (w := .ofKind _) h rfl hname (.of hts)).of_append _

/-- What follows the heading of a procedure or function. -/
theorem blames_behindHeading (h : Heading hs p kind closer)
    (hname : ∀ {name}, c.current.kind = .word name → NameFree ms name) :
    Blames (fun ts => Begins (SpelledBehind ms) (hs ++ ts)) (do
      let name ← word
      let vs ← Variable.parseParameters
      lineEnd
      let body ← parseBody closer e
      return ⟨name, kind, vs, declareParameters vs p ++ body, p⟩ : Parse Module) c := by
  refine .word_bind (by simpa using begins_behind_heading ms h) fun hw => ?_
  refine .read Variable.blames_parseParameters Variable.reads_parseParameters.sound
    (begins_behind_parameters h hw (hname hw)) fun _ hts hV => ?_
  exact (onLines_parseBody closer e).bind hV (begins_behind_body h hw (hname hw) hts)
    fun _ _ _ => .pure _ _

end Heading

def headingName? (c : Cursor) : Option String :=
  if c.atKeyword .procedimiento then c.advance.word?
  else if c.current.kind.atom?.isSome && c.advance.atKeyword .funcion then
    c.advance.advance.word?
  else none

theorem headingName?_procedure {name : String} (hc : c.current.kind = .keyword .procedimiento)
    (hw : c.advance.current.kind = .word name) : headingName? c = some name := by
  have hprocedure : c.atKeyword .procedimiento = true := decide_eq_true hc
  rw [headingName?, if_pos hprocedure, Cursor.word?_of_kind hw]

theorem headingName?_function {a : Atom} {name : String} (hc : c.current.kind.TypeWord a)
    (hk : c.advance.current.kind = .keyword .funcion)
    (hw : c.advance.advance.current.kind = .word name) : headingName? c = some name := by
  have hprocedure : c.atKeyword .procedimiento = false :=
    decide_eq_false (hc.ne rfl)
  have hfunction : c.advance.atKeyword .funcion = true := decide_eq_true hk
  rw [headingName?, hprocedure, hc.atom?, hfunction, Cursor.word?_of_kind hw]
  rfl

/-- As far as the heading of the module goes that begins here, there is room for the module behind
others: it is not a second main module, and its name is free. -/
structure HasRoom (ms : List Module) (c : Cursor) : Prop where
  main : c.current.kind = .keyword .vars → ∀ m ∈ ms, m.kind ≠ .main
  name : ∀ name ∈ headingName? c, NameFree ms name

/-- Where there is room for the module that begins here, the module fits. -/
theorem Spelled.fitsBehind {ts : List Token} {m : Module} (h : Spelled ts m) {d : Cursor}
    (hroom : HasRoom ms (.before ts d)) : m.FitsBehind ms := by
  cases h with
  | main ht => rw [FitsBehind, if_pos rfl]; exact hroom.main ht
  | @function t u w ts ns us a name vs body ht hu hw =>
    rw [FitsBehind, if_neg (by simp)]
    simp only [List.cons_append] at hroom
    have hfirst := Cursor.advance_before_cons (ht.ne rfl)
      (u :: w :: (ts ++ ns ++ us)) d
    have hsecond := Cursor.advance_before_cons (t := u) (by simp [hu]) (w :: (ts ++ ns ++ us)) d
    refine hroom.name name (headingName?_function ht ?_ ?_)
    · rw [hfirst]
      exact hu
    · rw [hfirst, hsecond]
      exact hw
  | @procedure t w ts ns us name vs body ht hw =>
    rw [FitsBehind, if_neg (by simp)]
    simp only [List.cons_append] at hroom
    have hfirst := Cursor.advance_before_cons (t := t) (by simp [ht]) (w :: (ts ++ ns ++ us)) d
    refine hroom.name name (headingName?_procedure ht ?_)
    rw [hfirst]
    exact hw

theorem begins_behind_main {t : Token} {ns ts : List Token} (ht : t.kind = .keyword .vars)
    (hroom : ∀ m ∈ ms, m.kind ≠ .main) (hns : LineEnds ns) (h : Begins (Body .fin) ts) :
    Begins (SpelledBehind ms) (t :: (ns ++ ts)) := by
  obtain ⟨xs, body, hb⟩ := h
  have hm := Spelled.main ht hns hb
  exact ⟨xs, _, by simpa using hm, by rw [FitsBehind, if_pos rfl]; exact hroom⟩

theorem blames_parseMain (hc : c.current.kind = .keyword .vars) (hroom : HasRoom ms c) :
    Blames (Begins (SpelledBehind ms)) parseMain c := by
  have hbody {ns ts : List Token} (hns : LineEnds ns) (hts : Begins (Body .fin) ts) :=
    begins_behind_main hc (hroom.main hc) hns hts
  refine .advance_bind (Cursor.atEnd_eq_false hc (by simp)) ?_
  refine (onLines_parseBody .fin .mainBody).bind ?_ hbody fun _ _ _ => .pure _ _
  exact (hbody lineEnds_ofKind (begins_body_of_declarations _ (.of .nil))).of_append [.ofKind _]

theorem blames_parseProcedure (hc : c.current.kind = .keyword .procedimiento)
    (hroom : HasRoom ms c) : Blames (Begins (SpelledBehind ms)) parseProcedure c := by
  refine .advance_bind (Cursor.atEnd_eq_false hc (by simp)) ?_
  exact blames_behindHeading (.procedure hc) fun hw =>
    hroom.name _ (headingName?_procedure hc hw)

theorem blames_parseFunction {a : Atom} (hc : c.current.kind.TypeWord a)
    (hroom : HasRoom ms c) : Blames (Begins (SpelledBehind ms)) (parseFunction a) c := by
  refine .advance_bind (Cursor.atEnd_eq_false rfl (hc.ne rfl)) ?_
  refine .keyword_bind ?_ fun hk => ?_
  · exact (begins_behind_heading ms (.function (u := .ofKind _) hc rfl)).of_append [.ofKind _]
  · exact blames_behindHeading (.function hc hk) fun hw =>
      hroom.name _ (headingName?_function hc hk hw)

/-- Where there is room for the module, its parser fails as soon as the tokens begin none for which
there is room. -/
theorem blames_parse (hroom : HasRoom ms c) :
    Blames (Begins (SpelledBehind ms)) Module.parse c := by
  refine .congr (outcome_current_bind c _) ?_
  split
  · next hc => exact blames_parseMain hc hroom
  · next hc => exact blames_parseProcedure hc hroom
  · next hc _ _ => exact blames_parseFunction (TokenKind.typeWord_of_atom? hc) hroom
  · have hheading : Heading [.ofKind (.keyword .procedimiento)] .start .procedure
        .finprocedimiento := .procedure rfl
    exact .fail (begins_behind_heading ms hheading).nil _ _ _

end Module
end Seudocodigo
