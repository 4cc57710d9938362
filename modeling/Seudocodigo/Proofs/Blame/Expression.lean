import Seudocodigo.Proofs.Grammar.Expression
import Seudocodigo.Proofs.Parse.Blames

/-! The parsers of expressions fail as soon as the tokens begin no expression. -/
namespace Seudocodigo

open Parse

namespace Expression

def BehindName (ts : List Token) (es : List Expression) : Prop :=
  Arguments ts es ∨ Indices ts es

inductive Turn where
  | operand
  | operator

/-- The tokens with which a scan ends that has the given number of parentheses open. -/
inductive Scanned : Turn → Nat → List Token → Prop where
  | literal {t : Token} {v : Value} {k : Nat} {ts : List Token} :
    t.operandStart? = some (.literal v) → Scanned .operator k ts → Scanned .operand k (t :: ts)
  | name {t : Token} {name : String} {k : Nat} {us ts : List Token} {es : List Expression} :
    t.operandStart? = some (.name name) → BehindName us es → Scanned .operator k ts →
    Scanned .operand k (t :: us ++ ts)
  | sign {t : Token} {op : Operator} {k : Nat} {ts : List Token} :
    t.operandStart? = some (.sign op) → Scanned .operand k ts → Scanned .operand k (t :: ts)
  | parenthesis {t : Token} {k : Nat} {ts : List Token} :
    t.operandStart? = some .parenthesis → Scanned .operand (k + 1) ts →
    Scanned .operand k (t :: ts)
  | operator {t : Token} {op : Operator} {k : Nat} {ts : List Token} :
    t.kind.binaryOperator? = some op → Scanned .operand k ts → Scanned .operator k (t :: ts)
  | closing {t : Token} {k : Nat} {ts : List Token} :
    t.kind = .symbol .rightParen → Scanned .operator k ts → Scanned .operator (k + 1) (t :: ts)
  | stop : Scanned .operator 0 []

def scan (turn : Turn) (n : Nat) (ops : List Operator) (outer : List (List Operator)) :
    Parse (List Element) :=
  match turn with
  | .operand => operand n ops outer
  | .operator => afterOperand n ops outer

def operandBehind (name : String) (p : Location) : Parse Element := do
  if ← atSymbol .leftParen then
    let args ← parseArguments
    return .call ⟨name, args, p⟩
  else
    let indices ← parseIndices
    return .access ⟨name, indices⟩

/-- Whatever the budget, what begins with a name goes on with expressions. -/
theorem outcome_named_parse {c : Cursor} {n : Nat} (hc : c.atEnd = false) (hn : c.rest.length ≤ n)
    (name : String) : (named (located (operand n [] [])) n name).outcome c =
      (operandBehind name c.location).outcome c.advance := by
  have hl := Cursor.length_rest_advance hc
  have hitem (d : Cursor) (hd : d.rest.length < c.rest.length) :
      (located (operand n [] [])).outcome d = Expression.parse.outcome d :=
    (parse_budget (by omega)).symm
  rw [outcome_named forward_parse hitem hc hn (Nat.le_refl _),
    ← outcome_named (n := c.rest.length) forward_parse (fun _ _ => rfl) hc (Nat.le_refl _)
      (Nat.le_refl _), outcome_named_advance, ← hl, behindName, operandBehind,
    outcome_atSymbol_bind, outcome_atSymbol_bind]
  split
  · exact outcome_bind_congr rfl fun _ _ _ => rfl
  · exact outcome_bind_congr rfl fun _ _ _ => rfl

theorem operandBehind_sound {c d : Cursor} {name : String} {p : Location} {e : Element}
    (h : (operandBehind name p).outcome c = (.ok e, d)) :
    ∃ ts es, c.Passes ts d ∧ BehindName ts es := by
  rw [operandBehind, outcome_atSymbol_bind] at h
  split at h
  · obtain ⟨args, b, hargs, h⟩ := outcome_bind_ok h
    cases h
    obtain ⟨ts, ht, hs⟩ := parseArguments_sound hargs
    exact ⟨ts, args, ht, .inl hs⟩
  · obtain ⟨indices, b, hindices, h⟩ := outcome_bind_ok h
    cases h
    obtain ⟨ts, ht, hs⟩ := parseIndices_sound hindices
    exact ⟨ts, indices, ht, .inr hs⟩

def LeavesName (t : Token) : Prop :=
  t.kind ≠ .symbol .leftParen ∧ t.kind ≠ .symbol .leftBracket

theorem BehindName.outcome {ts : List Token} {es : List Expression} (h : BehindName ts es)
    {d : Cursor} (hd : LeavesName d.current) (name : String) (p : Location) :
    ∃ e, (operandBehind name p).outcome (.before ts d) = (.ok e, d) := by
  rw [operandBehind, outcome_atSymbol_bind]
  cases h with
  | inl hargs =>
    obtain ⟨t, us, rfl, ht⟩ := hargs.begins
    have hs : (Cursor.before (t :: us) d).atSymbol .leftParen = true := decide_eq_true ht
    rw [if_pos hs, outcome_bind_of_ok hargs.parse]
    exact ⟨_, rfl⟩
  | inr hindices =>
    have hs : (Cursor.before ts d).atSymbol .leftParen = false := by
      cases hindices with
      | none => exact decide_eq_false hd.1
      | some ht => exact decide_eq_false (by simp [ht])
    rw [hs, if_neg Bool.false_ne_true, outcome_bind_of_ok (hindices.parse hd.2)]
    exact ⟨_, rfl⟩

section Steps

variable {c : Cursor} (n : Nat) (ops : List Operator) (outer : List (List Operator))

theorem operand_literal {v : Value} (h : c.current.operandStart? = some (.literal v)) :
    (operand (n + 1) ops outer).outcome c =
      (do
        let es ← afterOperand n ops outer
        return .literal v :: es : Parse (List Element)).outcome c.advance := by
  rw [operand_succ, outcome_current_bind, h, outcome_advance_bind]

theorem operand_name {name : String} (h : c.current.operandStart? = some (.name name))
    (hn : c.rest.length ≤ n) : (operand (n + 1) ops outer).outcome c =
      (do
        let e ← operandBehind name c.location
        let es ← afterOperand n ops outer
        return e :: es : Parse (List Element)).outcome c.advance := by
  have hc := Cursor.atEnd_eq_false rfl (Token.ne_endOfFile_of_operandStart? h)
  rw [operand_succ, outcome_current_bind, h]
  exact outcome_bind_congr (outcome_named_parse hc hn name) fun _ _ _ => rfl

theorem operand_sign {op : Operator} (h : c.current.operandStart? = some (.sign op)) :
    (operand (n + 1) ops outer).outcome c =
      (operand n (op :: ops) outer).outcome c.advance := by
  rw [operand_succ, outcome_current_bind, h, outcome_advance_bind]

theorem operand_parenthesis (h : c.current.operandStart? = some .parenthesis) :
    (operand (n + 1) ops outer).outcome c =
      (operand n [] (ops :: outer)).outcome c.advance := by
  rw [operand_succ, outcome_current_bind, h, outcome_advance_bind]

theorem afterOperand_operator {op : Operator} (h : c.current.kind.binaryOperator? = some op) :
    (afterOperand (n + 1) ops outer).outcome c =
      (do
        let es ← operand n
          (op :: ops.drop (ops.takeWhile (op.precedence ≤ ·.precedence)).length) outer
        return emit (ops.takeWhile (op.precedence ≤ ·.precedence)) ++ es :
          Parse (List Element)).outcome c.advance := by
  simp only [afterOperand, outcome_current_bind, h, outcome_advance_bind]

theorem afterOperand_closing (around : List Operator)
    (h : c.current.kind = .symbol .rightParen) :
    (afterOperand (n + 1) ops (around :: outer)).outcome c =
      (do
        let es ← afterOperand n around outer
        return emit ops ++ es : Parse (List Element)).outcome c.advance := by
  have hop : c.current.kind.binaryOperator? = none := by rw [h]; rfl
  simp only [afterOperand, outcome_current_bind, hop]
  rw [if_pos h, outcome_advance_bind]

theorem afterOperand_stop (h : c.current.kind.binaryOperator? = none) :
    (afterOperand (n + 1) ops []).outcome c = (.ok (emit ops), c) := by
  simp only [afterOperand, outcome_current_bind, h, outcome_pure]

end Steps

theorem exists_ok_map {α β : Type} {p : Parse α} {c d : Cursor}
    (h : ∃ a, p.outcome c = (.ok a, d)) (g : α → β) :
    ∃ b, (p >>= fun a => pure (g a)).outcome c = (.ok b, d) := by
  obtain ⟨a, ha⟩ := h
  exact ⟨g a, by rw [outcome_bind_of_ok ha]; rfl⟩

namespace Scanned

variable {turn : Turn} {k : Nat} {ts : List Token}

/-- Behind an operand stands what could not belong to it. -/
theorem leavesName (h : Scanned .operator k ts) {d : Cursor} (hd : d.current.EndsExpression) :
    LeavesName (Cursor.before ts d).current := by
  have of_kind {t : Token} (hop : t.kind ≠ .symbol .leftParen ∧ t.kind ≠ .symbol .leftBracket) :
      LeavesName (Cursor.before (t :: ts) d).current := hop
  cases h with
  | operator hop =>
    refine of_kind ⟨fun ht => ?_, fun ht => ?_⟩
    · rw [ht] at hop
      cases hop
    · rw [ht] at hop
      cases hop
  | closing ht => exact of_kind ⟨by simp [ht], by simp [ht]⟩
  | stop => exact ⟨hd.not_leftParen, hd.not_leftBracket⟩

/-- With enough steps a scan passes all of such tokens. -/
theorem outcome (h : Scanned turn k ts) {d : Cursor} (hd : d.current.EndsExpression) {n : Nat}
    (hn : ts.length + d.rest.length < n) (ops : List Operator) {outer : List (List Operator)}
    (ho : outer.length = k) :
    ∃ es, (scan turn n ops outer).outcome (.before ts d) = (.ok es, d) := by
  have hstart {t : Token} {start : OperandStart} (ht : t.operandStart? = some start)
      (us : List Token) : (Cursor.before (t :: us) d).advance = .before us d :=
    Cursor.advance_before_cons (Token.ne_endOfFile_of_operandStart? ht) us d
  induction h generalizing n ops outer with
  | literal ht _ ih =>
    obtain ⟨n, rfl⟩ := Nat.exists_eq_succ_of_ne_zero (Nat.ne_zero_of_lt hn)
    rw [List.length_cons] at hn
    rw [scan, operand_literal n ops outer ht, hstart ht]
    exact exists_ok_map (ih (by omega) ops ho) _
  | @name t name k us ts es ht hus hts ih =>
    obtain ⟨n, rfl⟩ := Nat.exists_eq_succ_of_ne_zero (Nat.ne_zero_of_lt hn)
    simp only [List.cons_append, List.length_cons, List.length_append] at hn ⊢
    have hlen : (Cursor.before (t :: (us ++ ts)) d).rest.length ≤ n := by
      rw [Cursor.length_rest_before, List.length_cons, List.length_append]
      omega
    obtain ⟨e, he⟩ := hus.outcome (hts.leavesName hd) name t.location
    rw [scan, operand_name n ops outer ht hlen, hstart ht, Cursor.before_append,
      Cursor.location_before_cons, outcome_bind_of_ok he]
    exact exists_ok_map (ih (by omega) ops ho) _
  | sign ht _ ih =>
    obtain ⟨n, rfl⟩ := Nat.exists_eq_succ_of_ne_zero (Nat.ne_zero_of_lt hn)
    rw [List.length_cons] at hn
    rw [scan, operand_sign n ops outer ht, hstart ht]
    exact ih (by omega) _ ho
  | parenthesis ht _ ih =>
    obtain ⟨n, rfl⟩ := Nat.exists_eq_succ_of_ne_zero (Nat.ne_zero_of_lt hn)
    rw [List.length_cons] at hn
    rw [scan, operand_parenthesis n ops outer ht, hstart ht]
    exact ih (by omega) _ (congrArg (· + 1) ho)
  | operator hop _ ih =>
    obtain ⟨n, rfl⟩ := Nat.exists_eq_succ_of_ne_zero (Nat.ne_zero_of_lt hn)
    rw [List.length_cons] at hn
    rw [scan, afterOperand_operator n ops outer hop,
      Cursor.advance_before_cons (TokenKind.ne_endOfFile_of_binaryOperator? hop)]
    exact exists_ok_map (ih (by omega) _ ho) _
  | closing ht _ ih =>
    obtain ⟨n, rfl⟩ := Nat.exists_eq_succ_of_ne_zero (Nat.ne_zero_of_lt hn)
    rw [List.length_cons] at hn
    obtain ⟨around, outer, rfl⟩ := List.exists_cons_of_length_eq_add_one ho
    rw [scan, afterOperand_closing n ops outer around ht,
      Cursor.advance_before_cons (by simp [ht])]
    exact exists_ok_map (ih (by omega) around (Nat.succ.inj ho)) _
  | stop =>
    obtain ⟨n, rfl⟩ := Nat.exists_eq_succ_of_ne_zero (Nat.ne_zero_of_lt hn)
    rw [List.eq_nil_of_length_eq_zero ho, scan, Cursor.before_nil,
      afterOperand_stop n ops hd.binaryOperator?]
    exact ⟨_, rfl⟩

end Scanned

def ScanBegun (turn : Turn) (k : Nat) (ts : List Token) : Prop :=
  ∃ us, Scanned turn k (ts ++ us)

/-- Every scan can be ended: by an operand, if it lacks one, and by the missing parentheses. -/
theorem scanBegun_nil (turn : Turn) (k : Nat) : ScanBegun turn k [] := by
  have hoperator : ∃ us, Scanned .operator k us := by
    induction k with
    | zero => exact ⟨[], .stop⟩
    | succ k ih =>
      obtain ⟨us, hus⟩ := ih
      exact ⟨.ofKind (.symbol .rightParen) :: us, .closing rfl hus⟩
  obtain ⟨us, hus⟩ := hoperator
  cases turn with
  | operand => exact ⟨.ofKind (.integer 1) :: us, .literal rfl hus⟩
  | operator => exact ⟨us, hus⟩

theorem exists_spelled {ts : List Token} (h : Scanned .operand 0 ts) : ∃ e, Spelled ts e := by
  have hend : (Cursor.ofTokens []).current.EndsExpression :=
    Token.endsExpression_of_kind (k := .endOfFile) rfl rfl (by simp) (by simp)
  have hn : (Cursor.before ts (.ofTokens [])).rest.length < ts.length + 1 := by
    rw [Cursor.length_rest_before]
    exact Nat.lt_succ_self _
  have hclosed : ([] : List (List Operator)).length = 0 := rfl
  simp only [Spelled, parse_budget hn, located, outcome_location_bind]
  exact exists_ok_map (h.outcome hend (Nat.lt_succ_self _) [] hclosed) _

theorem begins_nil : Begins Spelled [] := by
  obtain ⟨us, hus⟩ := scanBegun_nil .operand 0
  obtain ⟨e, he⟩ := exists_spelled hus
  exact ⟨us, e, he⟩

theorem blames_located {V : List Token → Prop} {p : Parse (List Element)} {c : Cursor}
    (h : Blames V p c) : Blames V (located p) c :=
  .congr (outcome_location_bind c _) (.map h)

section Lists

/-! Lists of expressions fail as expressions do in them. -/

variable {c : Cursor}
  (h : ∀ d : Cursor, d.rest.length ≤ c.rest.length → Blames (Begins Spelled) Expression.parse d)

include h

theorem blames_expressions (n : Nat) :
    Blames (Begins (Listed Spelled)) (commaList Expression.parse n) c.advance :=
  .commaList reads_parse begins_nil (fun d hd => h d (Nat.le_trans hd c.length_rest_advance_le)) n

theorem blames_parseArguments_of : Blames (Begins Arguments) parseArguments c := by
  refine .congr (outcome_budget_bind c _) (.symbol_bind ?_ fun ht => ?_)
  · exact .nil (.of (.none (t := .ofKind _) (u := .ofKind _) rfl rfl))
  have hbegins {ts : List Token} (hts : Begins (Listed Spelled) ts) :
      Begins Arguments (c.current :: ts) :=
    hts.within [c.current] fun hl => ⟨[.ofKind _], _, .some ht hl rfl⟩
  refine .takeSymbol_bind (fun _ => .pure _ _) ?_
  refine .read (blames_expressions h _) reads_parse.commaList_sound hbegins fun _ _ hV => ?_
  exact .symbol_bind hV fun _ => .pure _ _

theorem blames_parseIndices_of : Blames (Begins Indices) parseIndices c := by
  refine .congr (outcome_budget_bind c _) (.takeSymbol_bind (fun ht => ?_) (.pure _ _))
  have hbegins {ts : List Token} (hts : Begins (Listed Spelled) ts) :
      Begins Indices (c.current :: ts) :=
    hts.within [c.current] fun hl => ⟨[.ofKind _], _, .some ht hl rfl⟩
  refine .read (blames_expressions h _) reads_parse.commaList_sound hbegins fun _ _ hV => ?_
  exact .symbol_bind hV fun _ => .pure _ _

theorem blames_operandBehind (name : String) (p : Location) :
    Blames (Begins BehindName) (operandBehind name p) c := by
  refine .congr (outcome_atSymbol_bind c _ _) ?_
  split
  · exact .map ((blames_parseArguments_of h).mono fun ts ⟨us, es, hes⟩ => ⟨us, es, .inl hes⟩)
  · exact .map ((blames_parseIndices_of h).mono fun ts ⟨us, es, hes⟩ => ⟨us, es, .inr hes⟩)

end Lists

/-- An expression is scanned with no parenthesis open. -/
theorem blames_parse_of {c : Cursor}
    (h : Blames (ScanBegun .operand 0) (scan .operand (c.rest.length + 1) [] []) c) :
    Blames (Begins Spelled) Expression.parse c := by
  refine .congr (parse_budget (Nat.lt_succ_self _)) (blames_located (h.mono ?_))
  intro ts ⟨us, hus⟩
  obtain ⟨e, he⟩ := exists_spelled hus
  exact ⟨us, e, he⟩

/-- Farther on than the cursor, scans fail where their tokens begin nothing that ends them. -/
def ScansBehind (c : Cursor) : Prop :=
  ∀ d : Cursor, d.rest.length < c.rest.length → ∀ turn n ops outer, d.rest.length < n →
    Blames (ScanBegun turn (List.length outer)) (scan turn n ops outer) d

namespace ScansBehind

variable {c : Cursor} (h : ScansBehind c) {n : Nat} (hn : c.rest.length ≤ n) (ops : List Operator)
  (outer : List (List Operator))

include h hn

theorem operand :
    Blames (ScanBegun .operand outer.length) (Expression.operand (n + 1) ops outer) c := by
  cases hs : c.current.operandStart? with
  | none =>
    refine .congr ?_ (.fail (scanBegun_nil .operand outer.length) ["expression"] none c)
    rw [operand_succ, outcome_current_bind, hs]
  | some start =>
    have hc := Cursor.atEnd_eq_false rfl (Token.ne_endOfFile_of_operandStart? hs)
    have hl := Cursor.length_rest_advance hc
    have hscan := h c.advance (by omega)
    cases start with
    | literal v =>
      refine .step hc (operand_literal n ops outer hs) (.map ?_)
      exact (hscan .operator n ops outer (by omega)).mono fun _ ⟨us, hus⟩ => ⟨us, .literal hs hus⟩
    | name name =>
      refine .step hc (operand_name n ops outer hs hn) (.bind ?_ fun e d hok => ?_)
      · have hparse (d : Cursor) (hd : d.rest.length ≤ c.advance.rest.length) :=
          blames_parse_of (h d (by omega) .operand _ [] [] (Nat.lt_succ_self _))
        refine (blames_operandBehind hparse name c.location).mono fun ts ⟨us, es, hes⟩ => ?_
        obtain ⟨vs, hvs⟩ := scanBegun_nil .operator outer.length
        exact ⟨us ++ vs, by simpa using Scanned.name hs hes hvs⟩
      · obtain ⟨ts, es, hts, hes⟩ := operandBehind_sound hok
        have hlen := hts.length
        refine ⟨ts, hts, .map ?_⟩
        refine (h d (by omega) .operator n ops outer (by omega)).mono fun us ⟨vs, hvs⟩ => ?_
        exact ⟨vs, by simpa using Scanned.name hs hes hvs⟩
    | sign op =>
      refine .step hc (operand_sign n ops outer hs) ?_
      exact (hscan .operand n (op :: ops) outer (by omega)).mono
        fun _ ⟨us, hus⟩ => ⟨us, .sign hs hus⟩
    | parenthesis =>
      refine .step hc (operand_parenthesis n ops outer hs) ?_
      exact (hscan .operand n [] (ops :: outer) (by omega)).mono
        fun _ ⟨us, hus⟩ => ⟨us, .parenthesis hs hus⟩

theorem afterOperand :
    Blames (ScanBegun .operator outer.length) (Expression.afterOperand (n + 1) ops outer) c := by
  cases hop : c.current.kind.binaryOperator? with
  | some op =>
    have hc := Cursor.atEnd_eq_false rfl (TokenKind.ne_endOfFile_of_binaryOperator? hop)
    have hl := Cursor.length_rest_advance hc
    refine .step hc (afterOperand_operator n ops outer hop) (.map ?_)
    exact (h c.advance (by omega) .operand n _ outer (by omega)).mono
      fun _ ⟨us, hus⟩ => ⟨us, .operator hop hus⟩
  | none =>
    cases outer with
    | nil => exact .of_ok (afterOperand_stop n ops hop)
    | cons around outer =>
      by_cases hclose : c.current.kind = .symbol .rightParen
      · have hc := Cursor.atEnd_eq_false hclose (by simp)
        have hl := Cursor.length_rest_advance hc
        refine .step hc (afterOperand_closing n ops outer around hclose) (.map ?_)
        exact (h c.advance (by omega) .operator n around outer (by omega)).mono
          fun _ ⟨us, hus⟩ => ⟨us, .closing hclose hus⟩
      · refine .congr ?_ (.fail (scanBegun_nil .operator (outer.length + 1))
          [Symbol.rightParen.text] (some .mismatchedParenthesis) c)
        simp only [Expression.afterOperand, outcome_current_bind, hop]
        rw [if_neg hclose]

end ScansBehind

/-- Wherever a scan fails, the tokens that it has passed begin what scans end with. -/
theorem blames_scan {c : Cursor} (turn : Turn) {n : Nat} (hn : c.rest.length < n)
    (ops : List Operator) (outer : List (List Operator)) :
    Blames (ScanBegun turn outer.length) (scan turn n ops outer) c := by
  induction hl : c.rest.length using Nat.strongRecOn generalizing c turn n ops outer with
  | ind len ih =>
    subst hl
    obtain ⟨n, rfl⟩ := Nat.exists_eq_succ_of_ne_zero (Nat.ne_zero_of_lt hn)
    have h : ScansBehind c := fun d hd turn n ops outer hn => ih _ hd turn hn ops outer rfl
    cases turn with
    | operand => exact h.operand (Nat.le_of_lt_succ hn) ops outer
    | operator => exact h.afterOperand (Nat.le_of_lt_succ hn) ops outer

theorem blames_parse (c : Cursor) : Blames (Begins Spelled) Expression.parse c :=
  blames_parse_of (blames_scan .operand (Nat.lt_succ_self _) [] [])

theorem blames_parseArguments (c : Cursor) : Blames (Begins Arguments) parseArguments c :=
  blames_parseArguments_of fun d _ => blames_parse d

theorem blames_parseIndices (c : Cursor) : Blames (Begins Indices) parseIndices c :=
  blames_parseIndices_of fun d _ => blames_parse d

end Expression

namespace Access

theorem blames_parse (c : Cursor) : Blames (Begins Spelled) Access.parse c := by
  have hname (name : String) : Spelled [.ofKind (.word name)] ⟨name, []⟩ := .mk rfl .none
  refine .word_bind (.nil (.of (hname ""))) fun hw => ?_
  refine .read (Expression.blames_parseIndices _) Expression.parseIndices_sound
    (fun his => his.within [c.current] fun hi => .of (.mk hw hi)) fun _ _ _ => .pure _ _

end Access
end Seudocodigo
