import Seudocodigo.Proofs.Blame.Expression
import Seudocodigo.Proofs.Grammar.Statement

/-! The parsers of statements and blocks fail as soon as the tokens begin none. -/
namespace Seudocodigo

open Parse

/-- An assignment within something of which `V` says how it may begin. -/
theorem Assignment.blames {α : Type} {V : List Token → Prop} {c : Cursor} {p : Location}
    {reason : Option SyntaxReason} {f : Access → Expression → Parse α}
    (hV : ∀ {ts}, Begins (Assignment.Spelled p) ts → V ts)
    (hf : ∀ {ts target value d}, Assignment.Spelled p ts ⟨target, value, p⟩ → V (ts ++ []) →
      Blames (fun us => V (ts ++ us)) (f target value) d) :
    Blames V (do
      let target ← Access.parse
      let _ ← symbol .arrow reason
      let value ← Expression.parse
      f target value) c := by
  obtain ⟨vs, e, he⟩ := Expression.begins_nil
  refine .read (Access.blames_parse c) Access.reads_parse.sound (fun hts => hV ?_)
    fun {ts a d} _ hts hV' => .symbol_bind hV' fun hk => ?_
  · exact hts.within [] fun ha => ⟨.ofKind (.symbol .arrow) :: vs, _, .mk ha rfl he⟩
  · refine .read (Expression.blames_parse _) Expression.reads_parse.sound (fun hus => hV ?_)
      fun {us _ _} _ hus hV'' => ?_
    · have hwhole := hus.within (ts ++ [d.current]) fun hv =>
        ⟨[], _, by simpa using Assignment.Spelled.mk (p := p) hts hk hv⟩
      simpa using hwhole
    · refine (hf (.mk hts hk hus) (by simpa using hV'')).mono fun vs hvs => ?_
      simpa using hvs

namespace Statement

/-- The shortest statement. -/
theorem exists_spelled : ∃ ts s, Spelled ts s :=
  ⟨_, _, .call (t := .ofKind (.word "")) rfl (.none (t := .ofKind _) (u := .ofKind _) rfl rfl)⟩

theorem begins_nil : Begins Spelled [] := by
  obtain ⟨ts, s, hs⟩ := exists_spelled
  exact .nil (.of hs)

theorem Block.snoc {ts us ns : List Token} {ss : List Statement} {s : Statement}
    (h : Block ts ss) (hs : Spelled us s) (hns : LineEnds ns) :
    Block (ts ++ (us ++ ns)) (ss ++ [s]) := by
  induction ss generalizing ts with
  | nil =>
    cases h
    simpa using Block.cons hs hns .nil
  | cons s' ss ih =>
    cases h with
    | cons hs' hns' hss => simpa using Block.cons hs' hns' (ih hss)

def NonemptyBlock (ts : List Token) (ss : List Statement) : Prop := Block ts ss ∧ ss ≠ []

/-- What begins a block begins one that is not empty. -/
theorem begins_nonemptyBlock {ts : List Token} (h : Begins Block ts) : Begins NonemptyBlock ts := by
  obtain ⟨us, s, hs⟩ := exists_spelled
  refine h.within [] fun hss => ?_
  exact ⟨us ++ [.ofKind .endOfLine], _, hss.snoc hs lineEnds_ofKind, by simp⟩

inductive Otherwise : List Token → List Statement → Prop where
  | none : Otherwise [] []
  | some {v : Token} {ms vs : List Token} {other : List Statement} :
    v.kind = .keyword .sino → LineEnds ms → Block vs other → Otherwise (v :: ms ++ vs) other

theorem Otherwise.spelled {t u w : Token} {ts ns us vs : List Token} {condition : Expression}
    {body other : List Statement} (h : Otherwise vs other) (ht : t.kind = .keyword .si)
    (hts : Expression.Spelled ts condition) (hu : u.kind = .keyword .entonces) (hns : LineEnds ns)
    (hus : Block us body) (hw : w.kind = .keyword .finsi) :
    Spelled (t :: (ts ++ u :: (ns ++ (us ++ (vs ++ [w])))))
      (.conditional condition body other t.location) := by
  cases h with
  | none => simpa using Spelled.conditional ht hts hu hns hus hw
  | some hv hms hvs => simpa using Spelled.alternative ht hts hu hns hus hv hms hvs hw

section Prefixes

/-! What begins a part of a statement begins a statement with what stands before the part. -/

variable {t u v w : Token} {ts ns us vs : List Token} {e : Expression} {start : Assignment}
  {body : List Statement}

theorem begins_otherwise (ht : t.kind = .keyword .si) (hts : Expression.Spelled ts e)
    (hu : u.kind = .keyword .entonces) (hns : LineEnds ns) (hus : Block us body)
    (h : Begins Otherwise vs) : Begins Spelled (t :: (ts ++ u :: (ns ++ (us ++ vs)))) := by
  obtain ⟨xs, other, ho⟩ := h
  have hs := ho.spelled (w := .ofKind _) ht hts hu hns hus rfl
  exact ⟨xs ++ [.ofKind (.keyword .finsi)], _, by simpa using hs⟩

theorem begins_thenBranch (ht : t.kind = .keyword .si) (hts : Expression.Spelled ts e)
    (hu : u.kind = .keyword .entonces) (hns : LineEnds ns) (h : Begins Block us) :
    Begins Spelled (t :: (ts ++ u :: (ns ++ us))) := by
  obtain ⟨xs, body, hb⟩ := h
  obtain ⟨ys, s, hs⟩ := begins_otherwise ht hts hu hns hb (.of .none)
  exact ⟨xs ++ ys, s, by simpa using hs⟩

theorem begins_condition (ht : t.kind = .keyword .si) (h : Begins Expression.Spelled ts) :
    Begins Spelled (t :: ts) := by
  obtain ⟨xs, e, he⟩ := h
  obtain ⟨ys, s, hs⟩ := begins_thenBranch (u := .ofKind _) ht he rfl lineEnds_ofKind (.of .nil)
  exact ⟨xs ++ .ofKind (.keyword .entonces) :: .ofKind .endOfLine :: ys, s, by simpa using hs⟩

theorem begins_whileBody (ht : t.kind = .keyword .mientras) (hts : Expression.Spelled ts e)
    (hns : LineEnds ns) (h : Begins NonemptyBlock us) :
    Begins Spelled (t :: (ts ++ (ns ++ us))) := by
  obtain ⟨xs, body, hb, hne⟩ := h
  have hs := Spelled.whileLoop (w := .ofKind _) ht hts hns hb hne rfl
  exact ⟨xs ++ [.ofKind (.keyword .finmientras)], _, by simpa using hs⟩

theorem begins_whileCondition (ht : t.kind = .keyword .mientras)
    (h : Begins Expression.Spelled ts) : Begins Spelled (t :: ts) := by
  obtain ⟨xs, e, he⟩ := h
  obtain ⟨ys, s, hs⟩ := begins_whileBody ht he lineEnds_ofKind (begins_nonemptyBlock (.of .nil))
  exact ⟨xs ++ .ofKind .endOfLine :: ys, s, by simpa using hs⟩

theorem begins_untilCondition (ht : t.kind = .keyword .repetir) (hns : LineEnds ns)
    (hus : NonemptyBlock us body) (hv : v.kind = .keyword .hasta) (hw : w.kind = .keyword .que)
    (h : Begins Expression.Spelled ts) : Begins Spelled (t :: (ns ++ (us ++ v :: w :: ts))) := by
  obtain ⟨xs, e, he⟩ := h
  have hs := Spelled.untilLoop ht hns hus.1 hus.2 hv hw he
  exact ⟨xs, _, by simpa using hs⟩

theorem begins_untilBody (ht : t.kind = .keyword .repetir) (hns : LineEnds ns)
    (h : Begins NonemptyBlock us) : Begins Spelled (t :: (ns ++ us)) := by
  obtain ⟨xs, body, hb⟩ := h
  obtain ⟨ys, s, hs⟩ := begins_untilCondition (v := .ofKind _) (w := .ofKind _) ht hns hb rfl rfl
    Expression.begins_nil
  exact ⟨xs ++ .ofKind (.keyword .hasta) :: .ofKind (.keyword .que) :: ys, s, by simpa using hs⟩

theorem begins_countingBody (ht : t.kind = .keyword .para)
    (hts : Assignment.Spelled t.location ts start) (hu : u.kind = .keyword .hasta)
    (hus : Expression.Spelled us e) (hns : LineEnds ns) (h : Begins Block vs) :
    Begins Spelled (t :: (ts ++ u :: (us ++ (ns ++ vs)))) := by
  obtain ⟨xs, body, hb⟩ := h
  have hs := Spelled.counting (w := .ofKind _) ht hts hu hus hns hb rfl
  exact ⟨xs ++ [.ofKind (.keyword .finpara)], _, by simpa using hs⟩

theorem begins_countingBound (ht : t.kind = .keyword .para)
    (hts : Assignment.Spelled t.location ts start) (hu : u.kind = .keyword .hasta)
    (h : Begins Expression.Spelled us) : Begins Spelled (t :: (ts ++ u :: us)) := by
  obtain ⟨xs, e, he⟩ := h
  obtain ⟨ys, s, hs⟩ := begins_countingBody ht hts hu he lineEnds_ofKind (.of .nil)
  exact ⟨xs ++ .ofKind .endOfLine :: ys, s, by simpa using hs⟩

theorem begins_countingStart (ht : t.kind = .keyword .para)
    (h : Begins (Assignment.Spelled t.location) ts) : Begins Spelled (t :: ts) := by
  obtain ⟨xs, start, hstart⟩ := h
  obtain ⟨ys, s, hs⟩ := begins_countingBound (u := .ofKind _) ht hstart rfl Expression.begins_nil
  exact ⟨xs ++ .ofKind (.keyword .hasta) :: ys, s, by simpa using hs⟩

/-- Where an assignment stands does not matter to what spells it. -/
theorem begins_assignment {p : Location} (h : Begins (Assignment.Spelled p) ts) :
    Begins Spelled ts := by
  obtain ⟨xs, a, ha⟩ := h
  obtain ⟨t, u, ys, name, hcons, -⟩ := ha.begins
  rw [hcons] at ha
  have ha : ∃ b, Assignment.Spelled t.location (t :: u :: ys) b := by
    generalize t :: u :: ys = ts at ha
    cases ha with
    | mk htarget hk hvalue => exact ⟨_, .mk htarget hk hvalue⟩
  obtain ⟨b, hb⟩ := ha
  exact ⟨xs, .assignment b, by rw [hcons]; exact .assignment hb⟩

end Prefixes

def BlockBlames (block : BlockEnd → Parse (List Statement)) : Prop :=
  ∀ ⦃e c⦄, c.current.kind ≠ .endOfLine → Blames (Begins Block) (block e) c

section Parsers

variable {block : BlockEnd → Parse (List Statement)} {c : Cursor}

theorem parseElse_sound (hs : BlockSound block) {d : Cursor} {other : List Statement}
    (h : (parseElse block).outcome c = (.ok other, d)) :
    ∃ ts, c.Passes ts d ∧ Otherwise ts other := by
  rw [parseElse, outcome_takeKeyword_bind] at h
  split at h
  · next hv =>
    obtain ⟨_, b, hl, h⟩ := outcome_bind_ok h
    obtain ⟨⟨ms, vs, hvs, hms, hblock⟩, -⟩ := hs.line hl h
    have hfirst := Cursor.Passes.advance (Cursor.atEnd_of_atKeyword hv)
    refine ⟨_, ?_, .some (of_decide_eq_true hv) hms hblock⟩
    simpa using hfirst.trans hvs
  · cases h
    exact ⟨[], .refl c, .none⟩

theorem blames_parseElse (hb : BlockBlames block) :
    Blames (Begins Otherwise) (parseElse block) c := by
  refine .takeKeyword_bind (fun hv => ?_) (.pure _ _)
  have hblock {ms vs : List Token} (hms : LineEnds ms) (hvs : Begins Block vs) :
      Begins Otherwise (c.current :: (ms ++ vs)) :=
    hvs.within (c.current :: ms) fun hb => .of (.some hv hms hb)
  refine .lineEnd_bind ?_ fun hms hcur => (hb hcur).mono fun vs hvs => hblock hms hvs
  exact (hblock lineEnds_ofKind (.of .nil)).of_append [.ofKind .endOfLine]

theorem blames_parseResult (hc : c.current.kind = .keyword .retornar) :
    Blames (Begins Spelled) parseResult c := by
  refine .advance_bind (Cursor.atEnd_eq_false hc (by simp)) (.map ?_)
  exact (Expression.blames_parse _).mono fun ts hts =>
    hts.within [c.current] fun he => .of (.result hc he)

theorem blames_parseCall : Blames (Begins Spelled) (Statement.call <$> parseCall) c := by
  rw [map_eq_pure_bind]
  refine .map (.congr (outcome_location_bind c _) (.word_bind begins_nil fun hw => .map ?_))
  exact (Expression.blames_parseArguments _).mono fun ts hts =>
    hts.within [c.current] fun hargs => .of (.call hw hargs)

theorem blames_parseAssignment :
    Blames (Begins Spelled) (Statement.assignment <$> parseAssignment) c := by
  rw [map_eq_pure_bind]
  refine .map (.congr (outcome_location_bind c _) ?_)
  exact Assignment.blames (p := c.location) begins_assignment fun _ _ => .pure _ _

variable (hs : BlockSound block) (hb : BlockBlames block)

include hs hb

theorem onLines_block (e : BlockEnd) : OnLines Block (block e) :=
  ⟨fun hcur hok => (hs hcur hok).1, fun hcur => hb hcur⟩

theorem onLines_parseNonempty (e : BlockEnd) : OnLines NonemptyBlock (parseNonempty (block e)) where
  sound hcur hok := by
    obtain ⟨hok, hne⟩ := parseNonempty_ok hok
    obtain ⟨⟨ts, ht, hblock⟩, -⟩ := hs hcur hok
    exact ⟨ts, ht, hblock, hne⟩
  blames hcur := by
    refine .read (hb hcur) (fun hok => (hs hcur hok).1) begins_nonemptyBlock fun _ _ hV => ?_
    split
    · exact .fail hV _ _ _
    · exact .pure _ _

theorem blames_conditional (hc : c.current.kind = .keyword .si) :
    Blames (Begins Spelled) (parseConditional block) c := by
  refine .advance_bind (Cursor.atEnd_eq_false hc (by simp)) ?_
  refine .read (Expression.blames_parse _) Expression.reads_parse.sound (begins_condition hc)
    fun _ hts hV => .keyword_bind hV fun hu => ?_
  refine (onLines_block hs hb _).bind ?_ (begins_thenBranch hc hts hu) fun hns hus hV => ?_
  · have hline := begins_thenBranch hc hts hu lineEnds_ofKind (.of .nil)
    exact .of_append [.ofKind .endOfLine] (by simpa using hline)
  refine .read (blames_parseElse hb) (parseElse_sound hs) (begins_otherwise hc hts hu hns hus)
    fun _ hvs hV => ?_
  exact .keyword_bind hV fun _ => .pure _ _

theorem blames_while (hc : c.current.kind = .keyword .mientras) :
    Blames (Begins Spelled) (parseWhile block) c := by
  refine .advance_bind (Cursor.atEnd_eq_false hc (by simp)) ?_
  refine .read (Expression.blames_parse _) Expression.reads_parse.sound (begins_whileCondition hc)
    fun _ hts hV => ?_
  refine (onLines_parseNonempty hs hb _).bind hV (begins_whileBody hc hts) fun _ _ hV => ?_
  exact .keyword_bind hV fun _ => .pure _ _

theorem blames_until (hc : c.current.kind = .keyword .repetir) :
    Blames (Begins Spelled) (parseUntil block) c := by
  refine .advance_bind (Cursor.atEnd_eq_false hc (by simp)) ?_
  refine (onLines_parseNonempty hs hb _).bind ?_ (begins_untilBody hc) fun hns hus hV => ?_
  · have hline := begins_untilBody hc lineEnds_ofKind (begins_nonemptyBlock (.of .nil))
    exact hline.of_append [.ofKind .endOfLine]
  refine .keyword_bind hV fun hv => .keyword_bind ?_ fun hw => .map ?_
  · have hword := begins_untilCondition (w := .ofKind _) hc hns hus hv rfl Expression.begins_nil
    exact .of_append [.ofKind (.keyword .que)] (by simpa using hword)
  · exact (Expression.blames_parse _).mono fun _ => begins_untilCondition hc hns hus hv hw

theorem blames_counting (hc : c.current.kind = .keyword .para) :
    Blames (Begins Spelled) (parseCounting block) c := by
  refine .advance_bind (Cursor.atEnd_eq_false hc (by simp)) ?_
  refine Assignment.blames (begins_countingStart hc) fun hts hV => .keyword_bind hV fun hu => ?_
  refine .read (Expression.blames_parse _) Expression.reads_parse.sound
    (begins_countingBound hc hts hu) fun _ hus hV => ?_
  refine (onLines_block hs hb _).bind hV (begins_countingBody hc hts hu hus) fun _ _ hV => ?_
  exact .keyword_bind hV fun _ => .pure _ _

theorem blames_parseWith : Blames (Begins Spelled) (parseWith block) c := by
  refine .congr (outcome_cursor_bind c _) ?_
  split
  · next hc => exact blames_conditional hs hb hc
  · next hc => exact blames_while hs hb hc
  · next hc => exact blames_until hs hb hc
  · next hc => exact blames_counting hs hb hc
  · next hc => exact blames_parseResult hc
  · split
    · exact blames_parseCall
    · exact blames_parseAssignment
  · exact .fail begins_nil _ _ _

end Parsers

theorem begins_block_cons {ts ns us : List Token} {s : Statement} (hts : Spelled ts s)
    (hns : LineEnds ns) (h : Begins Block us) : Begins Block (ts ++ (ns ++ us)) := by
  obtain ⟨xs, ss, hss⟩ := h
  exact ⟨xs, s :: ss, by simpa using Block.cons hts hns hss⟩

theorem begins_block_of_statement {ts : List Token} (h : Begins Spelled ts) : Begins Block ts :=
  h.within [] fun hs => ⟨[.ofKind .endOfLine], _, by simpa using Block.cons hs lineEnds_ofKind .nil⟩

theorem blockBlames_blockWithin (n : Nat) : BlockBlames (blockWithin n) := by
  induction n with
  | zero => exact fun e c _ => .fail (.of .nil) _ _ c
  | succ n ih =>
    intro e c hcur
    have hs := blockSound_blockWithin n
    refine .skipLineEnds_bind hcur (.congr (outcome_cursor_bind c _) ?_)
    split
    · exact .pure _ _
    · split
      · exact .fail (.of .nil) _ _ _
      · refine .read (blames_parseWith hs ih) (parseWith_sound hs) begins_block_of_statement
          fun _ hts hV => ?_
        exact (onLines_block hs ih e).bind hV (begins_block_cons hts) fun _ _ _ => .pure _ _

theorem blockBlames_parseBlock : BlockBlames parseBlock := by
  intro e c hcur
  exact .congr (outcome_budget_bind c _) (blockBlames_blockWithin _ hcur)

end Statement
end Seudocodigo
