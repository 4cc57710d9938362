import Seudocodigo.Proofs.Token.Lexeme
import Seudocodigo.Text.Pieces
import Seudocodigo.Token.Scan

/-! The scan goes line by line. What it finds on a line, faults included, depends on that line
alone, and a text behind others is scanned as it would be by itself, with its lines counted further
on. -/
namespace Seudocodigo

/-! The scan as a recursion over gaps and lexemes. -/

theorem scanFrom_end {cs : List Char} (h : splitGap cs = (cs, [])) (p : Location) :
    scanFrom p cs = [⟨.endOfFile (p.after cs), none⟩] := by
  rw [scanFrom]
  split
  · rw [h]
  · next heq => rw [h] at heq; cases heq

theorem scanFrom_lexeme {cs gap ds rest : List Char} {c : Char} (h : splitGap cs = (gap, c :: ds))
    (hrest : c :: ds = (Lexeme.read c ds).text ++ rest) (p : Location) :
    scanFrom p cs =
      .ofLexeme (p.after gap) c (Lexeme.read c ds) rest ::
        scanFrom (p.after (gap ++ (Lexeme.read c ds).text)) rest := by
  rw [scanFrom]
  split
  · next heq => rw [h] at heq; cases heq
  · next heq =>
    rw [h] at heq
    cases heq
    simp only [h, hrest, List.drop_left, Location.after_append]

/-- A text is a gap, or a gap and a lexeme with the rest of the text behind them. -/
@[elab_as_elim]
theorem scan_induction {motive : List Char → Prop}
    (last : ∀ gap, splitGap gap = (gap, []) → motive gap)
    (lexeme : ∀ gap c ds rest, splitGap (gap ++ c :: ds) = (gap, c :: ds) →
      c :: ds = (Lexeme.read c ds).text ++ rest → motive rest → motive (gap ++ c :: ds))
    (cs : List Char) : motive cs := by
  induction hn : cs.length using Nat.strong_induction_on generalizing cs with
  | _ n ih =>
    have hall := splitGap_append cs
    cases hsplit : splitGap cs with
    | mk gap behind =>
      rw [hsplit] at hall
      subst hall
      cases behind with
      | nil =>
        rw [List.append_nil] at hsplit ⊢
        exact last gap hsplit
      | cons c ds =>
        obtain ⟨rest, hrest⟩ := Lexeme.prefix_read_text c ds
        refine lexeme gap c ds rest hsplit hrest.symm (ih rest.length ?_ rest rfl)
        have hpos := List.length_pos_iff.2 (Lexeme.read_text_ne_nil c ds)
        rw [← hrest, List.length_append, List.length_append] at hn
        omega

/-! Places. -/

theorem Location.line_after (p : Location) (cs : List Char) :
    (p.after cs).line = p.line + cs.count '\n' := by
  induction cs generalizing p with
  | nil => rfl
  | cons c cs ih =>
    rw [Location.after_cons, ih]
    by_cases hc : c = '\n'
    · simp [Location.next, hc]
      omega
    · simp [Location.next, hc]

theorem Location.after_newline (p : Location) (cs : List Char) :
    p.after (cs ++ ['\n']) = ⟨p.line + cs.count '\n' + 1, 1⟩ := by
  rw [Location.after_append, ← Location.line_after, Location.after_cons, Location.next, if_pos rfl]
  rfl

theorem Location.line_after_of_notMem {cs : List Char} (h : '\n' ∉ cs) (p : Location) :
    (p.after cs).line = p.line := by
  rw [Location.line_after, List.count_eq_zero_of_not_mem h, Nat.add_zero]

def Location.below (p : Location) (n : Nat) : Location := ⟨p.line + n, p.column⟩

theorem Location.after_below (p : Location) (n : Nat) (cs : List Char) :
    (p.below n).after cs = (p.after cs).below n := by
  induction cs generalizing p with
  | nil => rfl
  | cons c cs ih =>
    have hnext : (p.below n).next c = (p.next c).below n := by
      by_cases hc : c = '\n' <;> simp [Location.next, Location.below, hc]
      omega
    rw [Location.after_cons, hnext, ih, Location.after_cons]

def Token.below (t : Token) (n : Nat) : Token := { t with location := t.location.below n }

def LexicalError.below (e : LexicalError) (n : Nat) : LexicalError :=
  { e with location := e.location.below n }

def Scanned.below (x : Scanned) (n : Nat) : Scanned :=
  ⟨x.token.below n, x.error.map (·.below n)⟩

theorem Scanned.ofLexeme_below (p : Location) (n : Nat) (c : Char) (l : Lexeme)
    (rest : List Char) : ofLexeme (p.below n) c l rest = (ofLexeme p c l rest).below n := by
  rw [ofLexeme, ofLexeme]
  cases l.meaning with
  | ok kind => rfl
  | error f =>
    simp only [Scanned.below, Token.below, Option.map_some, errorOf]
    by_cases hf : f.behind = true
    · simp only [hf, if_true, LexicalError.below, Location.after_below]
    · simp only [hf, LexicalError.below]
      rfl

/-- Further down a text is scanned alike. -/
theorem scanFrom_below (p : Location) (n : Nat) (cs : List Char) :
    scanFrom (p.below n) cs = (scanFrom p cs).map (·.below n) := by
  induction cs using scan_induction generalizing p with
  | last gap hgap =>
    rw [scanFrom_end hgap, scanFrom_end hgap, Location.after_below]
    rfl
  | lexeme gap c ds rest hgap hrest ih =>
    rw [scanFrom_lexeme hgap hrest, scanFrom_lexeme hgap hrest, Location.after_below,
      Scanned.ofLexeme_below, Location.after_below, ih, List.map_cons]

def Scanned.On (line : Nat) (x : Scanned) : Prop :=
  x.token.location.line = line ∧ ∀ e ∈ x.error, e.location.line = line

theorem Scanned.on_ofLexeme (p : Location) (c : Char) (cs rest : List Char) :
    (ofLexeme p c (Lexeme.read c cs) rest).On p.line := by
  rw [ofLexeme]
  split
  · exact ⟨rfl, by simp⟩
  · next f hf =>
    refine ⟨rfl, ?_⟩
    rintro e ⟨⟩
    by_cases hc : c = '\n'
    · simp [hc, Lexeme.read] at hf
    · rw [errorOf]
      by_cases hbehind : f.behind = true
      · rw [if_pos hbehind]
        exact Location.line_after_of_notMem (Lexeme.newline_notMem_read_text hc cs) p
      · rw [if_neg hbehind]

/-- A gap and a lexeme without a line feed leave the line as it is. -/
theorem Scanned.on_of_lexeme {p : Location} {gap es rest behind : List Char} {c : Char}
    {found : List Scanned} (hline : '\n' ∉ gap ++ c :: es)
    (hrest : c :: es = (Lexeme.read c es).text ++ rest)
    (hon : '\n' ∉ rest → ∀ x ∈ found, x.On (p.after (gap ++ (Lexeme.read c es).text)).line) :
    ∀ x ∈ ofLexeme (p.after gap) c (Lexeme.read c es) behind :: found, x.On p.line := by
  rw [hrest, List.mem_append, List.mem_append, not_or, not_or] at hline
  obtain ⟨hgap, htext, hbehind⟩ := hline
  have hfirst : (p.after gap).line = p.line := Location.line_after_of_notMem hgap p
  have hnext : (p.after (gap ++ (Lexeme.read c es).text)).line = p.line := by
    rw [Location.after_append, Location.line_after_of_notMem htext, hfirst]
  rw [hnext] at hon
  refine List.forall_mem_cons.2 ⟨?_, hon hbehind⟩
  rw [← hfirst]
  exact on_ofLexeme ..

/-- Of what comes behind a lexeme only the first character matters. -/
theorem Scanned.ofLexeme_congr {rest others : List Char} (h : rest.head? = others.head?)
    (p : Location) (c : Char) (l : Lexeme) : ofLexeme p c l rest = ofLexeme p c l others := by
  simp only [ofLexeme, errorOf, h]

/-- What is found up to a line feed does not depend on what comes behind it. -/
theorem exists_scanned_line (p : Location) (cs : List Char) : ∃ found : List Scanned,
    (∀ ds, scanFrom p (cs ++ '\n' :: ds) = found ++ scanFrom (p.after (cs ++ ['\n'])) ds) ∧
      ('\n' ∉ cs → ∀ x ∈ found, x.On p.line) := by
  induction cs using scan_induction generalizing p with
  | last gap hgap =>
    refine ⟨[⟨⟨.endOfLine, "\n", p.after gap⟩, none⟩], fun ds => ?_, fun hline x hx => ?_⟩
    · have hsplit : splitGap (gap ++ '\n' :: ds) = (gap, '\n' :: ds) := by
        rw [splitGap_append_newline, hgap]
        rfl
      rw [scanFrom_lexeme hsplit rfl]
      rfl
    · rw [List.mem_singleton.1 hx]
      exact ⟨Location.line_after_of_notMem hline p, by simp⟩
  | lexeme gap c es rest hgap hrest ih =>
    obtain ⟨found, hfound, hon⟩ := ih (p.after (gap ++ (Lexeme.read c es).text))
    refine ⟨.ofLexeme (p.after gap) c (Lexeme.read c es) (rest ++ ['\n']) :: found, fun ds => ?_,
      fun hline => ?_⟩
    · have hsplit : splitGap (gap ++ c :: es ++ '\n' :: ds) = (gap, c :: (es ++ '\n' :: ds)) := by
        rw [splitGap_append_newline, hgap]
        rfl
      have hread := Lexeme.read_append_newline c es ds
      have hbehind : c :: (es ++ '\n' :: ds) =
          (Lexeme.read c (es ++ '\n' :: ds)).text ++ (rest ++ '\n' :: ds) := by
        rw [hread, ← List.append_assoc, ← hrest, List.cons_append]
      have hnext : (p.after (gap ++ (Lexeme.read c es).text)).after (rest ++ ['\n']) =
          p.after (gap ++ c :: es ++ ['\n']) := by
        rw [← Location.after_append, hrest]
        simp only [List.append_assoc]
      have hhead : (rest ++ '\n' :: ds).head? = (rest ++ ['\n']).head? := by cases rest <;> rfl
      rw [scanFrom_lexeme hsplit hbehind, hread, hfound, hnext, Scanned.ofLexeme_congr hhead,
        List.cons_append]
    · exact Scanned.on_of_lexeme hline hrest hon

/-- Without a line feed all is found on the first line. -/
theorem on_of_mem_scanFrom {cs : List Char} (h : '\n' ∉ cs) {p : Location} :
    ∀ x ∈ scanFrom p cs, x.On p.line := by
  induction cs using scan_induction generalizing p with
  | last gap hgap =>
    rw [scanFrom_end hgap]
    intro x hx
    rw [List.mem_singleton.1 hx]
    exact ⟨Location.line_after_of_notMem h p, by simp⟩
  | lexeme gap c es rest hgap hrest ih =>
    rw [scanFrom_lexeme hgap hrest]
    exact Scanned.on_of_lexeme h hrest fun hbehind => ih hbehind

/-! Texts made up of lines. -/

theorem Text.intercalate_append_cons (cut : Char) (before after : List (List Char))
    (line : List Char) :
    [cut].intercalate (before ++ line :: after) =
      before.flatMap (· ++ [cut]) ++ (line ++ after.flatMap (cut :: ·)) := by
  induction before with
  | nil =>
    induction after generalizing line with
    | nil => simp
    | cons next after ih =>
      have hnext := ih next
      simp only [List.nil_append, List.flatMap_nil] at hnext
      rw [List.nil_append, List.intercalate_cons_cons, hnext]
      simp
  | cons first before ih =>
    rw [List.cons_append, List.intercalate_cons_of_ne_nil (by simp), ih]
    simp

theorem Text.pieces_filter {p : Char → Bool} {cut : Char} (h : p cut = true) (cs : List Char) :
    pieces cut (cs.filter p) = (pieces cut cs).map (·.filter p) := by
  induction cs with
  | nil => rfl
  | cons c cs ih =>
    by_cases hc : c = cut
    · subst hc
      rw [List.filter_cons_of_pos h, pieces, pieces, if_pos rfl, if_pos rfl, ih]
      rfl
    · cases hp : pieces cut cs with
      | nil => exact absurd hp (pieces_ne_nil cut cs)
      | cons piece rest =>
        rw [hp] at ih
        by_cases hkeep : p c = true
        · rw [List.filter_cons_of_pos hkeep, pieces, pieces, if_neg hc, if_neg hc, ih, hp]
          simp [hkeep]
        · rw [List.filter_cons_of_neg hkeep, ih, pieces, if_neg hc, hp]
          simp [hkeep]

/-- What is found on the first lines does not depend on what comes behind them. -/
theorem exists_scanned_lines (p : Location) (lines : List (List Char)) :
    ∃ found : List Scanned, ∀ ds, scanFrom p (lines.flatMap (· ++ ['\n']) ++ ds) =
      found ++ scanFrom (p.after (lines.flatMap (· ++ ['\n']))) ds := by
  induction lines generalizing p with
  | nil => exact ⟨[], fun _ => rfl⟩
  | cons line lines ih =>
    obtain ⟨first, hfirst, -⟩ := exists_scanned_line p line
    obtain ⟨others, hothers⟩ := ih (p.after (line ++ ['\n']))
    refine ⟨first ++ others, fun ds => ?_⟩
    rw [List.flatMap_cons, Location.after_append, List.append_assoc (line ++ ['\n']),
      List.append_assoc first, ← hothers, ← hfirst, List.append_assoc line]
    rfl

/-- What is found behind a line does not depend on what stands on it. -/
theorem exists_scanned_below (p : Location) (lines : List (List Char)) :
    ∃ below : List Scanned, ∀ line, '\n' ∉ line → ∃ found,
      scanFrom p (line ++ lines.flatMap ('\n' :: ·)) = found ++ below ∧
        ∀ x ∈ found, x.On p.line := by
  cases lines with
  | nil =>
    refine ⟨[], fun line hline => ⟨scanFrom p line, ?_, on_of_mem_scanFrom hline⟩⟩
    rw [List.flatMap_nil, List.append_nil, List.append_nil]
  | cons next lines =>
    refine ⟨scanFrom ⟨p.line + 1, 1⟩ (next ++ lines.flatMap ('\n' :: ·)), fun line hline => ?_⟩
    obtain ⟨found, hfound, hon⟩ := exists_scanned_line p line
    refine ⟨found, ?_, hon hline⟩
    rw [List.flatMap_cons, List.cons_append, hfound, Location.after_newline,
      List.count_eq_zero_of_not_mem hline, Nat.add_zero]

theorem count_newline_of_lines {lines : List (List Char)} (h : ∀ line ∈ lines, '\n' ∉ line) :
    (lines.flatMap (· ++ ['\n'])).count '\n' = lines.length := by
  induction lines with
  | nil => rfl
  | cons line lines ih =>
    rw [List.forall_mem_cons] at h
    rw [List.flatMap_cons, List.count_append, List.count_append, ih h.2,
      List.count_eq_zero_of_not_mem h.1, List.length_cons]
    simp [Nat.add_comm]

/-- What is found above a line and below it does not depend on what stands on the line. -/
theorem exists_scanned_around {before : List (List Char)} (h : ∀ line ∈ before, '\n' ∉ line)
    (after : List (List Char)) :
    ∃ above below : List Scanned, ∀ line, '\n' ∉ line → ∃ found,
      scanFrom .start (['\n'].intercalate (before ++ line :: after)) = above ++ (found ++ below) ∧
        ∀ x ∈ found, x.On (before.length + 1) := by
  have hline : (Location.start.after (before.flatMap (· ++ ['\n']))).line = before.length + 1 := by
    rw [Location.line_after, count_newline_of_lines h, Nat.add_comm]
    rfl
  obtain ⟨above, habove⟩ := exists_scanned_lines .start before
  obtain ⟨below, hbelow⟩ :=
    exists_scanned_below (Location.start.after (before.flatMap (· ++ ['\n']))) after
  rw [hline] at hbelow
  refine ⟨above, below, fun line hnot => ?_⟩
  obtain ⟨found, hfound, hon⟩ := hbelow line hnot
  refine ⟨found, ?_, hon⟩
  rw [Text.intercalate_append_cons, habove, hfound]

namespace Scanned

variable {found : List Scanned} {n : Nat}

theorem filter_tokens_of_on (h : ∀ x ∈ found, x.On n) :
    (found.map Scanned.token).filter (·.location.line ≠ n) = [] := by
  refine List.filter_eq_nil_iff.2 fun t ht => ?_
  obtain ⟨x, hx, rfl⟩ := List.mem_map.1 ht
  simpa using (h x hx).1

theorem filter_errors_of_on (h : ∀ x ∈ found, x.On n) :
    (found.filterMap Scanned.error).filter (·.location.line ≠ n) = [] := by
  refine List.filter_eq_nil_iff.2 fun e he => ?_
  obtain ⟨x, hx, hxe⟩ := List.mem_filterMap.1 he
  simpa using (h x hx).2 e hxe

end Scanned

theorem tokenize_isOk (source : String) :
    (tokenize source).isOk = true ↔ (scan source).filterMap Scanned.error = [] := by
  rw [tokenize]
  cases (scan source).filterMap Scanned.error with
  | nil => exact ⟨fun _ => rfl, fun _ => rfl⟩
  | cons e errors => simp [Except.isOk, Except.toBool]

theorem toList_filter_append_newline (s : String) (ds : List Char) :
    ((s ++ "\n").toList ++ ds).filter (· ≠ '\r') =
      s.toList.filter (· ≠ '\r') ++ '\n' :: ds.filter (· ≠ '\r') := by
  rw [String.toList_append, List.append_assoc, List.filter_append]
  rfl

theorem scan_append_newline (s t : String) :
    let n := (s ++ "\n").toList.count '\n'
    ∃ found : List Scanned,
      scan (s ++ "\n") = found ++ [⟨.endOfFile (Location.start.below n), none⟩] ∧
        scan (s ++ "\n" ++ t) = found ++ (scan t).map (·.below n) := by
  intro n
  obtain ⟨found, hfound, -⟩ := exists_scanned_line .start (s.toList.filter (· ≠ '\r'))
  have hplace : Location.start.after (s.toList.filter (· ≠ '\r') ++ ['\n']) =
      Location.start.below n := by
    rw [Location.after_newline, List.count_filter (by decide)]
    simp only [n, String.toList_append, List.count_append, Location.below, Nat.add_assoc]
    rfl
  rw [hplace] at hfound
  refine ⟨found, ?_, ?_⟩
  · have htext := toList_filter_append_newline s []
    rw [List.append_nil] at htext
    have hend : scanFrom (Location.start.below n) [] =
        [⟨.endOfFile (Location.start.below n), none⟩] := scanFrom_end rfl _
    rw [scan, htext, ← hend]
    exact hfound []
  · rw [scan, scan, ← scanFrom_below, String.toList_append (s := s ++ "\n"),
      toList_filter_append_newline, hfound]

theorem scan_eq_of_pieces {source : String} {lines : List (List Char)}
    (h : Text.pieces '\n' source.toList = lines) :
    scan source =
      scanFrom .start (['\n'].intercalate (lines.map (·.filter (· ≠ '\r')))) := by
  rw [← h, ← Text.pieces_filter (by decide), Text.intercalate_pieces]
  rfl

/-- What is found on the other lines. -/
theorem scan_eq_around {before : List (List Char)} (h : ∀ line ∈ before, '\n' ∉ line)
    (after : List (List Char)) :
    ∃ above below : List Scanned, ∀ (source : String) (line : List Char),
      Text.pieces '\n' source.toList = before ++ line :: after → ∃ found,
        scan source = above ++ (found ++ below) ∧ ∀ x ∈ found, x.On (before.length + 1) := by
  have hbefore : ∀ line ∈ before.map (·.filter (· ≠ '\r')), '\n' ∉ line := by
    simp only [List.forall_mem_map, List.mem_filter, not_and_or]
    exact fun line hline => .inl (h line hline)
  obtain ⟨above, below, haround⟩ :=
    exists_scanned_around hbefore (after.map (·.filter (· ≠ '\r')))
  refine ⟨above, below, fun source line hsource => ?_⟩
  have hmem : line ∈ Text.pieces '\n' source.toList := by simp [hsource]
  have hline : '\n' ∉ line := Text.not_mem_of_mem_pieces hmem
  obtain ⟨found, hfound, hon⟩ := haround (line.filter (· ≠ '\r')) (by simp [hline])
  rw [List.length_map] at hon
  refine ⟨found, ?_, hon⟩
  rw [scan_eq_of_pieces hsource, List.map_append, List.map_cons, hfound]

/-- Of a text up to a line feed and another one behind it, each is scanned as it is by itself, the
second one from its place on; both are without faults if the whole is. Of two texts that differ in a
line, all tokens and faults on the other lines are the same. -/
theorem scan_linewise :
    (∀ s t : String,
      let n := (s ++ "\n").toList.count '\n'
      (∃ tokens : List Token,
        (scan (s ++ "\n")).map Scanned.token =
            tokens ++ [.endOfFile (Location.start.below n)] ∧
          (scan (s ++ "\n" ++ t)).map Scanned.token =
            tokens ++ ((scan t).map Scanned.token).map (·.below n)) ∧
      (scan (s ++ "\n" ++ t)).filterMap Scanned.error =
        (scan (s ++ "\n")).filterMap Scanned.error ++
          ((scan t).filterMap Scanned.error).map (·.below n) ∧
      ((tokenize (s ++ "\n" ++ t)).isOk ↔
        (tokenize (s ++ "\n")).isOk ∧ (tokenize t).isOk)) ∧
    ∀ (s t : String) (before after : List (List Char)) (a b : List Char),
      Text.pieces '\n' s.toList = before ++ a :: after →
      Text.pieces '\n' t.toList = before ++ b :: after →
      ((scan s).map Scanned.token).filter (·.location.line ≠ before.length + 1) =
        ((scan t).map Scanned.token).filter (·.location.line ≠ before.length + 1) ∧
      ((scan s).filterMap Scanned.error).filter (·.location.line ≠ before.length + 1) =
        ((scan t).filterMap Scanned.error).filter (·.location.line ≠ before.length + 1) := by
  constructor
  · intro s t n
    obtain ⟨found, hs, hst⟩ := scan_append_newline s t
    have herrors : (scan (s ++ "\n" ++ t)).filterMap Scanned.error =
        (scan (s ++ "\n")).filterMap Scanned.error ++
          ((scan t).filterMap Scanned.error).map (·.below n) := by
      rw [hs, hst, List.filterMap_append, List.filterMap_append, List.filterMap_map,
        List.map_filterMap, List.filterMap_cons_none rfl, List.filterMap_nil, List.append_nil]
      rfl
    refine ⟨⟨found.map Scanned.token, ?_, ?_⟩, herrors, ?_⟩
    · rw [hs, List.map_append]
      rfl
    · rw [hst, List.map_append, List.map_map, List.map_map]
      rfl
    · rw [tokenize_isOk, tokenize_isOk, tokenize_isOk, herrors, List.append_eq_nil_iff,
        List.map_eq_nil_iff]
  · intro s t before after a b hs ht
    have hbefore : ∀ line ∈ before, '\n' ∉ line := fun line hline =>
      Text.not_mem_of_mem_pieces (hs ▸ List.mem_append_left _ hline)
    obtain ⟨above, below, haround⟩ := scan_eq_around hbefore after
    obtain ⟨found, hfound, hon⟩ := haround s a hs
    obtain ⟨others, hothers, hon'⟩ := haround t b ht
    rw [hfound, hothers]
    simp only [List.map_append, List.filterMap_append, List.filter_append,
      Scanned.filter_tokens_of_on hon, Scanned.filter_tokens_of_on hon',
      Scanned.filter_errors_of_on hon, Scanned.filter_errors_of_on hon', and_self]

def openLine : String := "a <- \"x\nescribir(a)\n"

def closedLine : String := "a <- \"x\"\nescribir(a)\n"

theorem scan_openLine :
    (scan openLine).filterMap Scanned.error = [⟨.openString, some '\n', ["\""], ⟨1, 8⟩⟩] ∧
      (scan closedLine).filterMap Scanned.error = [] ∧
        ((scan openLine).map Scanned.token).filter (·.location.line ≠ 1) =
          ((scan closedLine).map Scanned.token).filter (·.location.line ≠ 1) := by
  have hopen : Text.pieces '\n' openLine.toList =
      [] ++ "a <- \"x".toList :: ["escribir(a)".toList, []] := by decide
  have hclosed : Text.pieces '\n' closedLine.toList =
      [] ++ "a <- \"x\"".toList :: ["escribir(a)".toList, []] := by decide
  refine ⟨by decide +kernel, by decide +kernel, ?_⟩
  exact (scan_linewise.2 openLine closedLine [] _ _ _ hopen hclosed).1

end Seudocodigo
