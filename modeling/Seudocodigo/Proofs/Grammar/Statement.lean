import Seudocodigo.Proofs.Grammar.Expression

/-! The parsers of statements and blocks read what the grammar says. -/
namespace Seudocodigo

open Parse

namespace Assignment

variable {c d e f : Cursor} {p : Location}

theorem spelled_of_parse {target : Access} {reason : Option SyntaxReason} {t : Token}
    {value : Expression} (ht : Access.parse.outcome c = (.ok target, e))
    (ha : (symbol .arrow reason).outcome e = (.ok t, f))
    (hv : Expression.parse.outcome f = (.ok value, d)) :
    ∃ ts, c.Passes ts d ∧ Assignment.Spelled p ts ⟨target, value, p⟩ := by
  obtain ⟨ts, ht, htarget⟩ := Access.reads_parse.sound ht
  obtain ⟨-, hk, ha⟩ := symbol_ok ha
  obtain ⟨us, hu, hvalue⟩ := Expression.reads_parse.sound hv
  exact ⟨_, ht.trans (ha.trans hu), .mk htarget hk hvalue⟩

theorem Spelled.parse {α : Type} {ts : List Token} {a : Assignment} (h : Assignment.Spelled p ts a)
    (hd : d.current.EndsExpression) (reason : Option SyntaxReason)
    (f : Access → Expression → Parse α) :
    (do
      let target ← Access.parse
      let _ ← symbol .arrow reason
      let value ← Expression.parse
      f target value : Parse α).outcome (.before ts d) = (f a.target a.value).outcome d := by
  cases h with
  | mk htarget hk hvalue =>
    rw [Cursor.before_append,
      outcome_bind_of_ok (Access.reads_parse.complete htarget (by simp [hk])),
      outcome_bind_of_ok (symbol_before hk _),
      outcome_bind_of_ok (Expression.reads_parse.complete hvalue hd)]

theorem Spelled.location {ts : List Token} {a : Assignment} (h : Assignment.Spelled p ts a) :
    a.location = p := by
  cases h
  rfl

/-- An assignment begins with a name, and no parenthesis follows. -/
theorem Spelled.begins {ts : List Token} {a : Assignment} (h : Assignment.Spelled p ts a) :
    ∃ t u us name, ts = t :: u :: us ∧ t.kind = .word name ∧ u.kind ≠ .symbol .leftParen := by
  cases h with
  | mk htarget hk =>
    cases htarget with
    | mk hw hi =>
      cases hi with
      | none => exact ⟨_, _, _, _, rfl, hw, by simp [hk]⟩
      | some ht => exact ⟨_, _, _, _, rfl, hw, by simp [ht]⟩

end Assignment

namespace Statement

def BlockSound (block : BlockEnd → Parse (List Statement)) : Prop :=
  ∀ ⦃e c ss d⦄, c.current.kind ≠ .endOfLine → (block e).outcome c = (.ok ss, d) →
    (∃ ts, c.Passes ts d ∧ Block ts ss) ∧ ∃ k ∈ e.closers, d.current.kind = .keyword k

def BlockComplete (n : Nat) (block : BlockEnd → Parse (List Statement)) : Prop :=
  ∀ ⦃e ts ss d k⦄, ts.length < n → Block ts ss → k ∈ e.closers → d.current.kind = .keyword k →
    (∀ k ∈ e.closers, k ∈ closers) → (block e).outcome (.before ts d) = (.ok ss, d)

section Sound

variable {block : BlockEnd → Parse (List Statement)} {e : BlockEnd} {c d : Cursor}
  {s : Statement} {ss : List Statement}

/-- A block behind the end of a line. That end is not the end of the file, as a word follows. -/
theorem BlockSound.line (h : BlockSound block) {f : Cursor} {u : Unit}
    (hl : lineEnd.outcome c = (.ok u, f)) (hb : (block e).outcome f = (.ok ss, d)) :
    (∃ ns ts, c.Passes (ns ++ ts) d ∧ LineEnds ns ∧ Block ts ss) ∧
      ∃ k ∈ e.closers, d.current.kind = .keyword k := by
  obtain ⟨hcur, ns, hns, hend⟩ := lineEnd_ok hl
  obtain ⟨⟨ts, ht, hblock⟩, k, hk, hd⟩ := h hcur hb
  refine ⟨⟨ns, ts, hns.trans ht, ?_, hblock⟩, k, hk, hd⟩
  cases hend with
  | inl hline => exact hline
  | inr hend =>
    obtain ⟨-, hend⟩ := hend
    rw [ht.eq_of_atEnd hend] at hd
    simp [Cursor.atEnd, hd] at hend

theorem parseNonempty_ok {p : Parse (List Statement)}
    (h : (parseNonempty p).outcome c = (.ok ss, d)) : p.outcome c = (.ok ss, d) ∧ ss ≠ [] := by
  obtain ⟨ss, e, hp, h⟩ := outcome_bind_ok h
  cases ss with
  | nil => cases h
  | cons s ss => cases h; exact ⟨hp, by simp⟩

theorem conditional_sound (h : BlockSound block) (hc : c.current.kind = .keyword .si)
    (hp : (parseConditional block).outcome c = (.ok s, d)) :
    ∃ ts, c.Passes ts d ∧ Spelled ts s := by
  have hfirst := Cursor.Passes.advance (Cursor.atEnd_eq_false hc (by simp))
  rw [parseConditional, outcome_advance_bind] at hp
  obtain ⟨condition, c₁, hp₁, hp⟩ := outcome_bind_ok hp
  obtain ⟨u, c₂, hp₂, hp⟩ := outcome_bind_ok hp
  obtain ⟨_, c₃, hp₃, hp⟩ := outcome_bind_ok hp
  obtain ⟨body, c₄, hp₄, hp⟩ := outcome_bind_ok hp
  obtain ⟨other, c₅, hp₅, hp⟩ := outcome_bind_ok hp
  obtain ⟨w, c₆, hp₆, hp⟩ := outcome_bind_ok hp
  cases hp
  obtain ⟨ts, ht, hcondition⟩ := Expression.reads_parse.sound hp₁
  obtain ⟨-, hu, hpu⟩ := keyword_ok hp₂
  obtain ⟨⟨ns, us, hbody, hns, hblock⟩, -⟩ := h.line hp₃ hp₄
  obtain ⟨-, hw, hpw⟩ := keyword_ok hp₆
  have hthen := (hfirst.trans ht).trans (hpu.trans hbody)
  rw [parseElse, outcome_takeKeyword_bind] at hp₅
  split at hp₅
  · next hv =>
    obtain ⟨_, c₇, hp₇, hp₅⟩ := outcome_bind_ok hp₅
    obtain ⟨⟨ms, vs, hother, hms, hblock'⟩, -⟩ := h.line hp₇ hp₅
    have hpv := Cursor.Passes.advance (Cursor.atEnd_of_atKeyword hv)
    refine ⟨_, ?_, .alternative hc hcondition hu hns hblock (of_decide_eq_true hv) hms hblock' hw⟩
    simpa using (hthen.trans (hpv.trans hother)).trans hpw
  · cases hp₅
    refine ⟨_, ?_, .conditional hc hcondition hu hns hblock hw⟩
    simpa using hthen.trans hpw

theorem while_sound (h : BlockSound block) (hc : c.current.kind = .keyword .mientras)
    (hp : (parseWhile block).outcome c = (.ok s, d)) :
    ∃ ts, c.Passes ts d ∧ Spelled ts s := by
  have hfirst := Cursor.Passes.advance (Cursor.atEnd_eq_false hc (by simp))
  rw [parseWhile, outcome_advance_bind] at hp
  obtain ⟨condition, c₁, hp₁, hp⟩ := outcome_bind_ok hp
  obtain ⟨_, c₂, hp₂, hp⟩ := outcome_bind_ok hp
  obtain ⟨body, c₃, hp₃, hp⟩ := outcome_bind_ok hp
  obtain ⟨w, c₄, hp₄, hp⟩ := outcome_bind_ok hp
  cases hp
  obtain ⟨ts, ht, hcondition⟩ := Expression.reads_parse.sound hp₁
  obtain ⟨hp₃, hne⟩ := parseNonempty_ok hp₃
  obtain ⟨⟨ns, us, hbody, hns, hblock⟩, -⟩ := h.line hp₂ hp₃
  obtain ⟨-, hw, hpw⟩ := keyword_ok hp₄
  refine ⟨_, ?_, .whileLoop hc hcondition hns hblock hne hw⟩
  simpa using ((hfirst.trans ht).trans hbody).trans hpw

theorem until_sound (h : BlockSound block) (hc : c.current.kind = .keyword .repetir)
    (hp : (parseUntil block).outcome c = (.ok s, d)) :
    ∃ ts, c.Passes ts d ∧ Spelled ts s := by
  have hfirst := Cursor.Passes.advance (Cursor.atEnd_eq_false hc (by simp))
  rw [parseUntil, outcome_advance_bind] at hp
  obtain ⟨_, c₁, hp₁, hp⟩ := outcome_bind_ok hp
  obtain ⟨body, c₂, hp₂, hp⟩ := outcome_bind_ok hp
  obtain ⟨v, c₃, hp₃, hp⟩ := outcome_bind_ok hp
  obtain ⟨w, c₄, hp₄, hp⟩ := outcome_bind_ok hp
  obtain ⟨condition, c₅, hp₅, hp⟩ := outcome_bind_ok hp
  cases hp
  obtain ⟨hp₂, hne⟩ := parseNonempty_ok hp₂
  obtain ⟨⟨ns, us, hbody, hns, hblock⟩, -⟩ := h.line hp₁ hp₂
  obtain ⟨-, hv, hpv⟩ := keyword_ok hp₃
  obtain ⟨-, hw, hpw⟩ := keyword_ok hp₄
  obtain ⟨ts, ht, hcondition⟩ := Expression.reads_parse.sound hp₅
  refine ⟨_, ?_, .untilLoop hc hns hblock hne hv hw hcondition⟩
  simpa using (hfirst.trans hbody).trans (hpv.trans (hpw.trans ht))

theorem counting_sound (h : BlockSound block) (hc : c.current.kind = .keyword .para)
    (hp : (parseCounting block).outcome c = (.ok s, d)) :
    ∃ ts, c.Passes ts d ∧ Spelled ts s := by
  have hfirst := Cursor.Passes.advance (Cursor.atEnd_eq_false hc (by simp))
  rw [parseCounting, outcome_advance_bind] at hp
  obtain ⟨target, c₁, hp₁, hp⟩ := outcome_bind_ok hp
  obtain ⟨a, c₂, hp₂, hp⟩ := outcome_bind_ok hp
  obtain ⟨value, c₃, hp₃, hp⟩ := outcome_bind_ok hp
  obtain ⟨u, c₄, hp₄, hp⟩ := outcome_bind_ok hp
  obtain ⟨bound, c₅, hp₅, hp⟩ := outcome_bind_ok hp
  obtain ⟨_, c₆, hp₆, hp⟩ := outcome_bind_ok hp
  obtain ⟨body, c₇, hp₇, hp⟩ := outcome_bind_ok hp
  obtain ⟨w, c₈, hp₈, hp⟩ := outcome_bind_ok hp
  cases hp
  obtain ⟨ts, ht, hstart⟩ := Assignment.spelled_of_parse hp₁ hp₂ hp₃
  obtain ⟨-, hu, hpu⟩ := keyword_ok hp₄
  obtain ⟨us, hus, hbound⟩ := Expression.reads_parse.sound hp₅
  obtain ⟨⟨ns, vs, hbody, hns, hblock⟩, -⟩ := h.line hp₆ hp₇
  obtain ⟨-, hw, hpw⟩ := keyword_ok hp₈
  refine ⟨_, ?_, .counting hc hstart hu hbound hns hblock hw⟩
  simpa using (((hfirst.trans ht).trans (hpu.trans hus)).trans hbody).trans hpw

theorem parseWith_sound (h : BlockSound block) (hp : (parseWith block).outcome c = (.ok s, d)) :
    ∃ ts, c.Passes ts d ∧ Spelled ts s := by
  rw [parseWith, outcome_cursor_bind] at hp
  split at hp
  · next hc => exact conditional_sound h hc hp
  · next hc => exact while_sound h hc hp
  · next hc => exact until_sound h hc hp
  · next hc => exact counting_sound h hc hp
  · next hc =>
    have hfirst := Cursor.Passes.advance (Cursor.atEnd_eq_false hc (by simp))
    rw [parseResult, outcome_advance_bind] at hp
    obtain ⟨value, c₁, hp₁, hp⟩ := outcome_bind_ok hp
    cases hp
    obtain ⟨ts, ht, hvalue⟩ := Expression.reads_parse.sound hp₁
    exact ⟨_, hfirst.trans ht, .result hc hvalue⟩
  · split at hp
    · rw [map_eq_pure_bind, parseCall, bind_assoc, outcome_location_bind, bind_assoc] at hp
      obtain ⟨name, c₁, hp₁, hp⟩ := outcome_bind_ok hp
      rw [bind_assoc] at hp
      obtain ⟨args, c₂, hp₂, hp⟩ := outcome_bind_ok hp
      cases hp
      obtain ⟨hw, hpw⟩ := word_ok hp₁
      obtain ⟨ts, ht, hargs⟩ := Expression.parseArguments_sound hp₂
      exact ⟨_, hpw.trans ht, .call hw hargs⟩
    · rw [map_eq_pure_bind, parseAssignment, bind_assoc, outcome_location_bind, bind_assoc] at hp
      obtain ⟨target, c₁, hp₁, hp⟩ := outcome_bind_ok hp
      rw [bind_assoc] at hp
      obtain ⟨a, c₂, hp₂, hp⟩ := outcome_bind_ok hp
      rw [bind_assoc] at hp
      obtain ⟨value, c₃, hp₃, hp⟩ := outcome_bind_ok hp
      cases hp
      obtain ⟨ts, ht, ha⟩ := Assignment.spelled_of_parse (p := c.location) hp₁ hp₂ hp₃
      obtain ⟨t, u, us, name, rfl, -⟩ := ha.begins
      have hplace : t.location = c.location := by rw [ht.eq_before]; rfl
      refine ⟨_, ht, .assignment ?_⟩
      rw [hplace]
      exact ha
  · cases hp

theorem blockSound_blockWithin (n : Nat) : BlockSound (blockWithin n) := by
  induction n with
  | zero => intro e c ss d _ hp; cases hp
  | succ n ih =>
    intro e c ss d hcur hp
    rw [blockWithin, outcome_skipLineEnds_bind, Cursor.skipLineEnds_of_kind hcur,
      outcome_cursor_bind] at hp
    split at hp
    · next hk =>
      cases hp
      obtain ⟨k, hk, hc⟩ := List.any_eq_true.1 hk
      exact ⟨⟨[], .refl c, .nil⟩, k, hk, of_decide_eq_true hc⟩
    · split at hp
      · cases hp
      · obtain ⟨s, c₁, hp₁, hp⟩ := outcome_bind_ok hp
        obtain ⟨_, c₂, hp₂, hp⟩ := outcome_bind_ok hp
        obtain ⟨ss, c₃, hp₃, hp⟩ := outcome_bind_ok hp
        cases hp
        obtain ⟨ts, ht, hs⟩ := parseWith_sound ih hp₁
        obtain ⟨⟨ns, us, hu, hns, hblock⟩, hclose⟩ := ih.line hp₂ hp₃
        refine ⟨⟨_, ?_, .cons hs hns hblock⟩, hclose⟩
        simpa using ht.trans hu

theorem blockSound_parseBlock : BlockSound parseBlock := by
  intro e c ss d hcur hp
  rw [parseBlock, outcome_budget_bind] at hp
  exact blockSound_blockWithin _ hcur hp

end Sound

/-- The words that begin statements end no blocks. -/
theorem Spelled.begins {ts : List Token} {s : Statement} (h : Spelled ts s) :
    ∃ t us, ts = t :: us ∧ t.kind ≠ .endOfLine ∧ t.kind ≠ .endOfFile ∧
      ∀ k ∈ closers, t.kind ≠ .keyword k := by
  have of_keyword {t : Token} {us : List Token} {k : Keyword} (hk : t.kind = .keyword k)
      (hc : k ∉ closers) : ∃ u vs, t :: us = u :: vs ∧ u.kind ≠ .endOfLine ∧
        u.kind ≠ .endOfFile ∧ ∀ k ∈ closers, u.kind ≠ .keyword k := by
    refine ⟨t, us, rfl, by simp [hk], by simp [hk], fun k' hk' he => hc ?_⟩
    rw [hk] at he
    cases he
    exact hk'
  cases h with
  | assignment ha =>
    obtain ⟨t, u, us, name, ht, hw, -⟩ := ha.begins
    cases ht
    exact ⟨_, _, rfl, by simp [hw], by simp [hw], by simp [hw]⟩
  | call hw _ => exact ⟨_, _, rfl, by simp [hw], by simp [hw], by simp [hw]⟩
  | result hk _ => exact of_keyword hk (by decide)
  | conditional hk => exact of_keyword hk (by decide)
  | alternative hk => exact of_keyword hk (by decide)
  | whileLoop hk => exact of_keyword hk (by decide)
  | untilLoop hk => exact of_keyword hk (by decide)
  | counting hk => exact of_keyword hk (by decide)

theorem Block.begins {ts : List Token} {ss : List Statement} (h : Block ts ss) {d : Cursor}
    {k : Keyword} (hd : d.current.kind = .keyword k) :
    (Cursor.before ts d).current.kind ≠ .endOfLine := by
  cases h with
  | nil => simp [hd]
  | cons hs _ _ =>
    obtain ⟨t, us, rfl, ht, -⟩ := hs.begins
    exact ht

section Complete

variable {block : BlockEnd → Parse (List Statement)} {n : Nat} {c d : Cursor} {e : BlockEnd}
  {k : Keyword} {ns ts : List Token} {ss : List Statement}

theorem endsExpression_keyword {t : Token} (ht : t.kind = .keyword k)
    (hk : (TokenKind.keyword k).binaryOperator? = none) : t.EndsExpression :=
  Token.endsExpression_of_kind ht hk (by simp) (by simp)

theorem endsExpression_lineEnds (h : LineEnds ns) :
    (Cursor.before ns d).current.EndsExpression := by
  cases ns with
  | nil => exact absurd rfl h.ne_nil
  | cons t ns =>
    exact Token.endsExpression_of_kind (h.kind t (by simp)) rfl (by simp) (by simp)

/-- The end of a line and a block, before a word that closes it. -/
theorem BlockComplete.line (h : BlockComplete n block) (hns : LineEnds ns) (hb : Block ts ss)
    (hn : ts.length < n) (hk : k ∈ e.closers) (hd : d.current.kind = .keyword k)
    (he : ∀ k ∈ e.closers, k ∈ closers) {α : Type} (f : List Statement → Parse α) :
    (do
      lineEnd
      let ss ← block e
      f ss : Parse α).outcome (.before ns (.before ts d)) = (f ss).outcome d := by
  rw [outcome_bind_of_ok (lineEnd_before hns (hb.begins hd)),
    outcome_bind_of_ok (h hn hb hk hd he)]

theorem parseNonempty_of_ok {p : Parse (List Statement)} (h : p.outcome c = (.ok ss, d))
    (hne : ss ≠ []) : (parseNonempty p).outcome c = (.ok ss, d) := by
  rw [parseNonempty, outcome_bind_of_ok h, if_neg (by simpa using hne)]
  rfl

/-- What follows the first branch decides how a conditional ends. -/
theorem conditional_complete (h : BlockComplete n block) {t u v : Token} {us : List Token}
    {condition : Expression} {other : List Statement} (ht : t.kind = .keyword .si)
    (hcondition : Expression.Spelled us condition) (hu : u.kind = .keyword .entonces)
    (hns : LineEnds ns) (hbody : Block ts ss) (hn : ts.length < n)
    (hk : k ∈ BlockEnd.thenBranch.closers) (hc : c.current.kind = .keyword k)
    (helse : (parseElse block).outcome c = (.ok other, .before [v] d))
    (hv : v.kind = .keyword .finsi) :
    (parseConditional block).outcome (.before (t :: us ++ u :: ns ++ ts) c) =
      (.ok (.conditional condition ss other t.location), d) := by
  simp only [Cursor.before_append]
  rw [parseConditional, outcome_bind_of_ok (advance_before (by simp [ht])),
    outcome_bind_of_ok (Expression.reads_parse.complete hcondition (endsExpression_keyword hu rfl)),
    outcome_bind_of_ok (keyword_before hu _), h.line hns hbody hn hk hc (by decide),
    outcome_bind_of_ok helse, outcome_bind_of_ok (keyword_before hv _)]
  rfl

theorem while_complete (h : BlockComplete n block) {t w : Token} {us : List Token}
    {condition : Expression} (ht : t.kind = .keyword .mientras)
    (hcondition : Expression.Spelled us condition) (hns : LineEnds ns) (hbody : Block ts ss)
    (hn : ts.length < n) (hne : ss ≠ []) (hw : w.kind = .keyword .finmientras) :
    (parseWhile block).outcome (.before (t :: us ++ ns ++ ts ++ [w]) d) =
      (.ok (.whileLoop condition ss t.location), d) := by
  have hb := h (e := .whileBody) hn hbody (by decide)
    (show (Cursor.before [w] d).current.kind = _ from hw) (by decide)
  simp only [Cursor.before_append]
  rw [parseWhile, outcome_bind_of_ok (advance_before (by simp [ht])),
    outcome_bind_of_ok (Expression.reads_parse.complete hcondition (endsExpression_lineEnds hns)),
    outcome_bind_of_ok (lineEnd_before hns (hbody.begins hw)),
    outcome_bind_of_ok (parseNonempty_of_ok hb hne), outcome_bind_of_ok (keyword_before hw _)]
  rfl

theorem until_complete (h : BlockComplete n block) {t v w : Token} {us : List Token}
    {condition : Expression} (ht : t.kind = .keyword .repetir) (hns : LineEnds ns)
    (hbody : Block ts ss) (hn : ts.length < n) (hne : ss ≠ []) (hv : v.kind = .keyword .hasta)
    (hw : w.kind = .keyword .que) (hcondition : Expression.Spelled us condition)
    (hd : d.current.EndsExpression) :
    (parseUntil block).outcome (.before (t :: ns ++ ts ++ v :: w :: us) d) =
      (.ok (.untilLoop ss condition t.location), d) := by
  have hb := h (e := .untilBody) hn hbody (by decide)
    (show (Cursor.before (v :: w :: us) d).current.kind = _ from hv) (by decide)
  simp only [Cursor.before_append]
  rw [parseUntil, outcome_bind_of_ok (advance_before (by simp [ht])),
    outcome_bind_of_ok (lineEnd_before hns (hbody.begins hv)),
    outcome_bind_of_ok (parseNonempty_of_ok hb hne), outcome_bind_of_ok (keyword_before hv _),
    outcome_bind_of_ok (keyword_before hw _),
    outcome_bind_of_ok (Expression.reads_parse.complete hcondition hd)]
  rfl

theorem counting_complete (h : BlockComplete n block) {t u w : Token} {us vs : List Token}
    {start : Assignment} {bound : Expression} (ht : t.kind = .keyword .para)
    (hstart : Assignment.Spelled t.location us start) (hu : u.kind = .keyword .hasta)
    (hbound : Expression.Spelled vs bound) (hns : LineEnds ns) (hbody : Block ts ss)
    (hn : ts.length < n) (hw : w.kind = .keyword .finpara) :
    (parseCounting block).outcome (.before (t :: us ++ u :: vs ++ ns ++ ts ++ [w]) d) =
      (.ok (.counting ⟨start, bound, ss, t.location⟩), d) := by
  have hplace : (⟨start.target, start.value, t.location⟩ : Assignment) = start := by
    cases hstart; rfl
  simp only [Cursor.before_append]
  rw [parseCounting, outcome_bind_of_ok (advance_before (by simp [ht])),
    hstart.parse (endsExpression_keyword hu rfl) _ _, outcome_bind_of_ok (keyword_before hu _),
    outcome_bind_of_ok (Expression.reads_parse.complete hbound (endsExpression_lineEnds hns)),
    h.line hns hbody hn (by decide : Keyword.finpara ∈ _) hw (by decide),
    outcome_bind_of_ok (keyword_before hw _), hplace]
  rfl

theorem parseElse_complete (h : BlockComplete n block) {v w : Token} (hv : v.kind = .keyword .sino)
    (hns : LineEnds ns) (hbody : Block ts ss) (hn : ts.length < n)
    (hw : w.kind = .keyword .finsi) :
    (parseElse block).outcome (.before (v :: ns ++ ts) (.before [w] d)) =
      (.ok ss, .before [w] d) := by
  rw [parseElse, Cursor.before_append, outcome_bind_of_ok (takeKeyword_before hv), if_pos rfl,
    outcome_bind_of_ok (lineEnd_before hns (hbody.begins hw))]
  exact h hn hbody (by decide : Keyword.finsi ∈ _) hw (by decide)

theorem parseWith_complete (h : BlockComplete n block) {s : Statement} (hs : Spelled ts s)
    (hn : ts.length ≤ n) (hd : d.current.EndsExpression) :
    (parseWith block).outcome (.before ts d) = (.ok s, d) := by
  rw [parseWith, outcome_cursor_bind]
  cases hs with
  | assignment ha =>
    have hplace := ha.location
    obtain ⟨_, u, us, name, hcons, ht, hu⟩ := ha.begins
    cases hcons
    simp only [Cursor.current_before_cons, ht, Cursor.peek_before_cons, hu, if_false]
    rw [map_eq_pure_bind, parseAssignment, bind_assoc, outcome_location_bind]
    simp only [bind_assoc]
    rw [ha.parse hd, Cursor.location_before_cons, ← hplace]
    rfl
  | call hw hargs =>
    obtain ⟨u, us, rfl, hu⟩ := hargs.begins
    simp only [Cursor.current_before_cons, hw, Cursor.peek_before_cons, hu, if_true]
    rw [map_eq_pure_bind, parseCall, bind_assoc, outcome_location_bind, bind_assoc,
      outcome_bind_of_ok (word_before hw), bind_assoc, outcome_bind_of_ok hargs.parse]
    rfl
  | result hk hvalue =>
    rw [Cursor.current_before_cons, hk]
    show parseResult.outcome _ = _
    rw [parseResult, outcome_bind_of_ok (advance_before (by simp [hk])),
      outcome_bind_of_ok (Expression.reads_parse.complete hvalue hd)]
    rfl
  | @conditional _ _ w _ _ _ _ _ ht hcondition hu hns hbody hw =>
    simp only [List.length_append, List.length_cons] at hn
    have helse : (parseElse block).outcome (.before [w] d) = (.ok [], .before [w] d) := by
      rw [parseElse, outcome_bind_of_ok (takeKeyword_not_here (by simp [hw]))]
      rfl
    refine Eq.trans ?_ (conditional_complete h ht hcondition hu hns hbody (by omega)
      (by decide : Keyword.finsi ∈ _) hw helse hw)
    simp only [List.cons_append, Cursor.current_before_cons, ht, ← Cursor.before_append]
  | alternative ht hcondition hu hns hbody hv hms hother hw =>
    simp only [List.length_append, List.length_cons] at hn
    refine Eq.trans ?_ (conditional_complete h ht hcondition hu hns hbody (by omega)
      (by decide : Keyword.sino ∈ _) hv
      (parseElse_complete h hv hms hother (by omega) hw) hw)
    simp only [List.cons_append, Cursor.current_before_cons, ht, ← Cursor.before_append,
      List.append_assoc]
  | whileLoop ht hcondition hns hbody hne hw =>
    simp only [List.length_append, List.length_cons] at hn
    refine Eq.trans ?_ (while_complete h ht hcondition hns hbody (by omega) hne hw)
    simp only [List.cons_append, Cursor.current_before_cons, ht]
  | untilLoop ht hns hbody hne hv hw hcondition =>
    simp only [List.length_append, List.length_cons] at hn
    refine Eq.trans ?_ (until_complete h ht hns hbody (by omega) hne hv hw hcondition hd)
    simp only [List.cons_append, Cursor.current_before_cons, ht]
  | counting ht hstart hu hbound hns hbody hw =>
    simp only [List.length_append, List.length_cons] at hn
    refine Eq.trans ?_ (counting_complete h ht hstart hu hbound hns hbody (by omega) hw)
    simp only [List.cons_append, Cursor.current_before_cons, ht]

theorem blockComplete_blockWithin (n : Nat) : BlockComplete n (blockWithin n) := by
  induction n with
  | zero => intro e ts ss d k hn; omega
  | succ n ih =>
    intro e ts ss d k hn hb hk hd he
    rw [blockWithin, outcome_skipLineEnds_bind, Cursor.skipLineEnds_of_kind (hb.begins hd),
      outcome_cursor_bind]
    cases hb with
    | nil =>
      have hany : e.closers.any d.atKeyword = true :=
        List.any_eq_true.2 ⟨k, hk, decide_eq_true hd⟩
      rw [Cursor.before_nil, if_pos hany]
      rfl
    | @cons ts ns us s ss hs hns hb =>
      obtain ⟨t, vs, rfl, -, hend, hclose⟩ := hs.begins
      have hnone (ks : List Keyword) (hks : ∀ k ∈ ks, k ∈ closers) :
          ks.any (Cursor.before (t :: vs ++ ns ++ us) d).atKeyword = false :=
        List.any_eq_false.2 fun k hk => by
          simpa [Cursor.atKeyword] using hclose k (hks k hk)
      have hatEnd : (Cursor.before (t :: vs ++ ns ++ us) d).atEnd = false :=
        decide_eq_false hend
      have hline := hns.ne_nil
      simp only [List.length_append, List.length_cons] at hn
      rw [hnone _ he, hnone _ fun _ => id, hatEnd]
      simp only [Bool.or_self, Bool.false_eq_true, if_false, Cursor.before_append]
      rw [outcome_bind_of_ok (parseWith_complete ih hs (by simp only [List.length_cons]; omega)
          (endsExpression_lineEnds hns)),
        outcome_bind_of_ok (lineEnd_before hns (hb.begins hd)),
        outcome_bind_of_ok (ih (by omega) hb hk hd he)]
      rfl

theorem parseBlock_complete (hb : Block ts ss) (hk : k ∈ e.closers)
    (hd : d.current.kind = .keyword k) (he : ∀ k ∈ e.closers, k ∈ closers) :
    (parseBlock e).outcome (.before ts d) = (.ok ss, d) := by
  have hn : ts.length < (Cursor.before ts d).rest.length + 1 := by
    rw [Cursor.length_rest_before]
    omega
  rw [parseBlock, outcome_budget_bind, blockComplete_blockWithin _ hn hb hk hd he]

end Complete

end Statement
end Seudocodigo
