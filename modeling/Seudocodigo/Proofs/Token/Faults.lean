import Seudocodigo.Proofs.Token.Tiles

/-! What is wrong with a text: there is one error for each stretch that is no token, in the order of
the text, and it names the character that stands at its place. -/
namespace Seudocodigo

namespace Location

/-- Further up, or on the same line and not further to the right. -/
instance : LE Location :=
  ⟨fun p q => p.line < q.line ∨ p.line = q.line ∧ p.column ≤ q.column⟩

theorem le_def {p q : Location} :
    p ≤ q ↔ p.line < q.line ∨ p.line = q.line ∧ p.column ≤ q.column := Iff.rfl

theorem le_trans {p q r : Location} (h : p ≤ q) (k : q ≤ r) : p ≤ r := by
  rw [le_def] at *
  omega

theorem le_next (p : Location) (c : Char) : p ≤ p.next c := by
  rw [le_def, next]
  split
  · exact .inl (Nat.lt_succ_self _)
  · exact .inr ⟨rfl, Nat.le_succ _⟩

theorem not_next_le (p : Location) (c : Char) : ¬ p.next c ≤ p := by
  rw [le_def, next]
  split
  · show ¬ (p.line + 1 < p.line ∨ p.line + 1 = p.line ∧ 1 ≤ p.column)
    omega
  · show ¬ (p.line < p.line ∨ p.line = p.line ∧ p.column + 1 ≤ p.column)
    omega

theorem le_after (p : Location) (cs : List Char) : p ≤ p.after cs := by
  induction cs generalizing p with
  | nil => exact .inr ⟨rfl, Nat.le_refl _⟩
  | cons c cs ih => exact le_trans (p.le_next c) (ih (p.next c))

/-- Only behind nothing the place is the same. -/
theorem after_eq_self {p : Location} {cs : List Char} : p.after cs = p ↔ cs = [] := by
  refine ⟨fun h => ?_, fun h => by rw [h, after_nil]⟩
  cases cs with
  | nil => rfl
  | cons c cs =>
    have hback := (p.next c).le_after cs
    rw [show (p.next c).after cs = p from h] at hback
    exact absurd hback (p.not_next_le c)

/-- Each place in a text is the place of one of its characters only. -/
theorem after_injective {p : Location} {before behind before' behind' : List Char}
    (htext : before ++ behind = before' ++ behind') (h : p.after before = p.after before') :
    before = before' := by
  obtain ⟨mid, rfl, -⟩ | ⟨mid, rfl, -⟩ := List.append_eq_append_iff.1 htext
  · rw [after_append, eq_comm, after_eq_self] at h
    rw [h, List.append_nil]
  · rw [after_append, after_eq_self] at h
    rw [h, List.append_nil]

end Location

namespace Scanned

variable {p : Location} {c : Char} {cs rest : List Char}

theorem error_isSome_ofLexeme :
    (ofLexeme p c (Lexeme.read c cs) rest).error.isSome = true ↔
      (ofLexeme p c (Lexeme.read c cs) rest).token.kind = .unknown :=
  ofLexeme_error_isSome p c _ rest fun _ h => (Lexeme.meaning_read h).1

/-- An error is about the first character of a lexeme or about the one behind it. -/
theorem place_of_ofLexeme {l : Lexeme} {e : LexicalError}
    (he : e ∈ (ofLexeme p c l rest).error) :
    e.location = p ∧ e.unexpected = some c ∨
      e.location = p.after l.text ∧ e.unexpected = rest.head? := by
  rw [ofLexeme] at he
  split at he
  · cases he
  · next f _ =>
    cases he
    rw [errorOf]
    split
    · exact .inr ⟨rfl, rfl⟩
    · exact .inl ⟨rfl, rfl⟩

end Scanned

/-- The token and the error that a scan has of the same stretch of text. -/
structure Scanned.Fits (x : Scanned) : Prop where
  unknown : x.error.isSome = true ↔ x.token.kind = .unknown
  place : ∀ e ∈ x.error, e.location = x.token.location ∨
    e.location = x.token.location.after x.token.text.toList

theorem fits_of_mem_scanFrom {cs : List Char} {p : Location} {x : Scanned}
    (hx : x ∈ scanFrom p cs) : x.Fits := by
  induction cs using scan_induction generalizing p with
  | last gap hgap =>
    rw [scanFrom_end hgap, List.mem_singleton] at hx
    subst hx
    exact ⟨by simp [Token.endOfFile], by simp⟩
  | lexeme gap c ds rest hgap hrest ih =>
    rw [scanFrom_lexeme hgap hrest] at hx
    rcases List.mem_cons.1 hx with rfl | hx
    · refine ⟨Scanned.error_isSome_ofLexeme, fun e he => ?_⟩
      rw [Scanned.location_ofLexeme, Scanned.text_ofLexeme]
      exact (Scanned.place_of_ofLexeme he).imp And.left And.left
    · exact ih hx

/-- The place of an error is that of a character of the text or of its end, and the error names what
stands there. -/
theorem exists_place_of_error {cs : List Char} {p : Location} {e : LexicalError}
    (he : e ∈ (scanFrom p cs).filterMap Scanned.error) : ∃ before behind,
      cs = before ++ behind ∧ e.location = p.after before ∧ e.unexpected = behind.head? := by
  induction cs using scan_induction generalizing p with
  | last gap hgap => simp [scanFrom_end hgap] at he
  | lexeme gap c ds rest hgap hrest ih =>
    obtain ⟨x, hx, hxe⟩ := List.mem_filterMap.1 he
    rw [scanFrom_lexeme hgap hrest] at hx
    rcases List.mem_cons.1 hx with rfl | hx
    · rcases Scanned.place_of_ofLexeme hxe with ⟨hplace, hchar⟩ | ⟨hplace, hchar⟩
      · exact ⟨gap, c :: ds, rfl, hplace, hchar⟩
      · refine ⟨gap ++ (Lexeme.read c ds).text, rest, ?_, ?_, hchar⟩
        · rw [List.append_assoc, ← hrest]
        · rw [hplace, Location.after_append]
    · obtain ⟨before, behind, rfl, hplace, hchar⟩ := ih (List.mem_filterMap.2 ⟨x, hx, hxe⟩)
      refine ⟨gap ++ (Lexeme.read c ds).text ++ before, behind, ?_, ?_, hchar⟩
      · rw [hrest]
        simp only [List.append_assoc]
      · rw [hplace, ← Location.after_append]

/-- Scanning goes on at the place of an error or behind it. -/
theorem pairwise_errors (p : Location) (cs : List Char) :
    ((scanFrom p cs).filterMap Scanned.error).Pairwise (·.location ≤ ·.location) := by
  induction cs using scan_induction generalizing p with
  | last gap hgap => simp [scanFrom_end hgap]
  | lexeme gap c ds rest hgap hrest ih =>
    rw [scanFrom_lexeme hgap hrest, List.filterMap_cons]
    split
    · exact ih _
    · next e he =>
      refine List.pairwise_cons.2 ⟨fun f hf => ?_, ih _⟩
      obtain ⟨before, behind, -, hplace, -⟩ := exists_place_of_error hf
      have hresumed : p.after (gap ++ (Lexeme.read c ds).text) ≤ f.location := by
        rw [hplace]
        exact Location.le_after _ before
      refine Location.le_trans ?_ hresumed
      rw [Location.after_append]
      rcases Scanned.place_of_ofLexeme he with ⟨hplace, -⟩ | ⟨hplace, -⟩
      · rw [hplace]
        exact Location.le_after _ _
      · rw [hplace]
        exact .inr ⟨rfl, Nat.le_refl _⟩

/-- There is one error for each token that is none, in the same order. -/
theorem forall₂_errors {found : List Scanned} (h : ∀ x ∈ found, x.Fits) :
    List.Forall₂
      (fun t e => e.location = t.location ∨ e.location = t.location.after t.text.toList)
      ((found.map Scanned.token).filter (·.kind = .unknown)) (found.filterMap Scanned.error) := by
  induction found with
  | nil => exact .nil
  | cons x found ih =>
    obtain ⟨⟨hunknown, hplace⟩, hfound⟩ := List.forall_mem_cons.1 h
    rw [List.map_cons, List.filterMap_cons]
    cases herror : x.error with
    | none =>
      have hkind : ¬ x.token.kind = .unknown := by simp [← hunknown, herror]
      rw [List.filter_cons_of_neg (by simpa using hkind)]
      exact ih hfound
    | some e =>
      have hkind : x.token.kind = .unknown := hunknown.1 (by simp [herror])
      rw [List.filter_cons_of_pos (by simpa using hkind)]
      exact .cons (hplace e herror) (ih hfound)

/-- The place that a reader comes to by passing a stretch of text is the place behind it. -/
theorem SourceText.advance_over (p : Location) (before behind : List Char) :
    Nat.repeat advance before.length ⟨before ++ behind, p⟩ = ⟨behind, p.after before⟩ := by
  rw [advance_iterate, List.drop_left, List.take_left]

/-- What the scan finds is what a reader sees who passes the text character by character. Each token
begins where the reader comes to, with its own characters ahead, and each error names the place and
the character that are the reader's at some point. -/
theorem scan_advances (source : String) :
    let start := SourceText.ofString (String.ofList (source.toList.filter (· ≠ '\r')))
    (∀ x ∈ scan source, ∃ n,
      let here := Nat.repeat SourceText.advance n start
      here.location = x.token.location ∧ x.token.text.toList <+: here.rest) ∧
    ∀ e ∈ (scan source).filterMap Scanned.error, ∃ n,
      let here := Nat.repeat SourceText.advance n start
      here.location = e.location ∧ here.current = e.unexpected := by
  intro start
  have hstart : start = ⟨source.toList.filter (· ≠ '\r'), .start⟩ :=
    congrArg (SourceText.mk · .start) String.toList_ofList
  rw [hstart]
  constructor
  · intro x hx
    obtain ⟨tiles, htokens, hspell, htiles⟩ :=
      exists_tiles .start (source.toList.filter (· ≠ '\r'))
    obtain ⟨tile, htile, hsame⟩ := List.mem_map.1 (htokens ▸ List.mem_map_of_mem hx)
    obtain ⟨before, behind, rfl⟩ := List.append_of_mem htile
    obtain ⟨-, hplace, -⟩ := htiles before tile behind rfl
    refine ⟨(spell before ++ tile.1).length, ?_⟩
    have hwhole : spell (before ++ tile :: behind) =
        (spell before ++ tile.1) ++ (tile.2.text.toList ++ spell behind) := by
      simp only [spell, List.flatMap_append, List.flatMap_cons, List.append_assoc]
    rw [← hspell, hwhole, SourceText.advance_over, ← hsame]
    exact ⟨hplace.symm, List.prefix_append _ _⟩
  · intro e he
    obtain ⟨before, behind, htext, hplace, hchar⟩ := exists_place_of_error he
    refine ⟨before.length, ?_⟩
    rw [htext, SourceText.advance_over]
    exact ⟨hplace.symm, hchar.symm⟩

theorem tokenize_eq_error_iff {source : String} {errors : List LexicalError} :
    tokenize source = .error errors ↔
      (∃ t ∈ (scan source).map Scanned.token, t.kind = .unknown) ∧
        errors = (scan source).filterMap Scanned.error := by
  have hunknown : (∃ t ∈ (scan source).map Scanned.token, t.kind = .unknown) ↔
      (scan source).filterMap Scanned.error ≠ [] := by
    simp only [List.mem_map, exists_exists_and_eq_and, Ne, List.filterMap_eq_nil_iff, not_forall,
      exists_prop]
    refine exists_congr fun x => and_congr_right fun hx => ?_
    rw [← (fits_of_mem_scanFrom hx).unknown, Option.isSome_iff_ne_none]
  rw [hunknown, tokenize]
  cases (scan source).filterMap Scanned.error with
  | nil => simp
  | cons e errors => simp [eq_comm]

/-- The scan of a text finds one error for each token that it does not know and none for any other,
at the token or behind it. Errors come in the order of their places. The place of each is one of the
text, and it names the character that stands there, none at the end of the text only. The text has
tokens if all of them are known, and otherwise all of the errors. -/
theorem scan_faults (source : String) :
    let text := source.toList.filter (· ≠ '\r')
    let tokens := (scan source).map Scanned.token
    let errors := (scan source).filterMap Scanned.error
    (∀ x ∈ scan source, x.error.isSome = true ↔ x.token.kind = .unknown) ∧
    List.Forall₂
      (fun t e => e.location = t.location ∨ e.location = t.location.after t.text.toList)
      (tokens.filter (·.kind = .unknown)) errors ∧
    errors.Pairwise (·.location ≤ ·.location) ∧
    (∀ e ∈ errors,
      (∃ before behind, text = before ++ behind ∧ e.location = placeBehind before) ∧
      (∀ before behind, text = before ++ behind → e.location = placeBehind before →
        e.unexpected = behind.head?) ∧
      (e.unexpected = none ↔ e.location = placeBehind text)) ∧
    (∀ found, tokenize source = .error found ↔
      (∃ t ∈ tokens, t.kind = .unknown) ∧ found = errors) ∧
    ∀ found, tokenize source = .ok found ↔
      (∀ t ∈ tokens, t.kind ≠ .unknown) ∧ found = tokens := by
  intro text tokens errors
  have hfits : ∀ x ∈ scan source, x.Fits := fun x hx => fits_of_mem_scanFrom hx
  have herror (found : List LexicalError) : tokenize source = .error found ↔
      (∃ t ∈ tokens, t.kind = .unknown) ∧ found = errors := tokenize_eq_error_iff
  refine ⟨fun x hx => (hfits x hx).unknown, forall₂_errors hfits, pairwise_errors .start text,
    fun e he => ?_, herror, fun found => ?_⟩
  · obtain ⟨before, behind, htext, hplace, hchar⟩ := exists_place_of_error he
    rw [hplace, hchar]
    refine ⟨⟨before, behind, htext, start_after before⟩, fun before' behind' htext' hsame => ?_, ?_⟩
    · rw [← start_after] at hsame
      cases Location.after_injective (htext.symm.trans htext') hsame
      rw [List.append_cancel_left (htext.symm.trans htext')]
    · have hend : placeBehind text = (Location.start.after before).after behind := by
        rw [← start_after, show text = before ++ behind from htext, Location.after_append]
      rw [hend, List.head?_eq_none_iff, ← Location.after_eq_self, eq_comm]
  · constructor
    · intro hok
      refine ⟨fun t ht hkind => ?_, tokens_of_tokenize hok⟩
      have hfailed := (herror errors).2 ⟨⟨t, ht, hkind⟩, rfl⟩
      rw [hok] at hfailed
      cases hfailed
    · rintro ⟨hknown, rfl⟩
      cases hresult : tokenize source with
      | ok others => rw [tokens_of_tokenize hresult]
      | error others =>
        obtain ⟨⟨t, ht, hkind⟩, -⟩ := (herror others).1 hresult
        exact absurd hkind (hknown t ht)

/-- A number that is too large, a point with no digit behind it and before a character that begins
no token, and a string that the text does not close. -/
def fourFaults : String := "9223372036854775808 1.@\r\n\"x"

theorem scan_fourFaults :
    tokenize fourFaults = .error
      [⟨.unknownToken, some '9', ["integer in range"], ⟨1, 1⟩⟩,
        ⟨.badFraction, some '@', ["digit"], ⟨1, 23⟩⟩,
        ⟨.unknownToken, some '@', ["number", "word", "string", "symbol"], ⟨1, 23⟩⟩,
        ⟨.openString, none, ["\""], ⟨2, 3⟩⟩] := by
  have hsome : ∃ t ∈ (scan fourFaults).map Scanned.token, t.kind = .unknown :=
    ⟨⟨.unknown, "\"x", ⟨2, 1⟩⟩, by decide +kernel, rfl⟩
  have herrors := ((scan_faults fourFaults).2.2.2.2.1 _).2 ⟨hsome, rfl⟩
  rw [herrors]
  decide +kernel

end Seudocodigo
