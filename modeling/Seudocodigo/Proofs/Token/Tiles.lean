import Mathlib.Data.List.Induction
import Seudocodigo.Proofs.Token.Lines

/-! Tokens and the gaps in front of them make up the text, each token ends where its characters do,
and its place is the one that its line and column in the text give. -/
namespace Seudocodigo

/-- What follows does not begin with a character that could belong to the token as well. -/
def TokenKind.Ends (kind : TokenKind) (following : List Char) : Prop :=
  ∀ c ∈ following.head?,
    match kind with
    | .integer _ => c.isDigit = false ∧ c ≠ '.'
    | .real _ => c.isDigit = false
    | .word _ | .keyword _ => Lexeme.isWordChar c = false
    | .symbol s => ∀ longer : Symbol, longer.text.toList ≠ s.text.toList ++ [c]
    | _ => True

theorem Symbol.mem_all (s : Symbol) : s ∈ all := by
  cases s <;> decide

theorem Symbol.all_pairwise :
    all.Pairwise fun s t => t.text.toList.length ≤ s.text.toList.length := by
  decide

/-- No longer symbol stands at the head of the text. -/
theorem Symbol.length_le_of_atHead? {cs : List Char} {s t : Symbol} (h : atHead? cs = some s)
    (ht : t.text.toList <+: cs) : t.text.toList.length ≤ s.text.toList.length := by
  obtain ⟨-, before, behind, hall, hbefore⟩ := List.find?_eq_some_iff_append.1 h
  have hmem := mem_all t
  have hpairwise := all_pairwise
  rw [hall] at hmem hpairwise
  rcases List.mem_append.1 hmem with hmem | hmem
  · have hnot := hbefore t hmem
    rw [List.isPrefixOf_iff_prefix.2 ht] at hnot
    cases hnot
  · rcases List.mem_cons.1 hmem with rfl | hmem
    · exact le_rfl
    · exact List.rel_of_pairwise_cons (List.pairwise_append.1 hpairwise).2.1 hmem

namespace Lexeme

variable {cs rest : List Char} {kind : TokenKind}

/-- What is left behind a stretch begins with a character that does not belong to it. -/
theorem not_of_takeWhile_append {p : Char → Bool} (h : cs = cs.takeWhile p ++ rest) {c : Char}
    (hc : c ∈ rest.head?) : p c = false := by
  have hsplit := List.takeWhile_append_dropWhile (p := p) (l := cs)
  rw [List.append_cancel_left (h.symm.trans hsplit.symm)] at hc
  exact not_of_head?_dropWhile hc

theorem ends_integer {digits : List Char} (hdigit : ∀ c ∈ rest.head?, c.isDigit = false)
    (hpoint : ∀ ds, rest ≠ '.' :: ds) (h : integer digits = .ok kind) : kind.Ends rest := by
  simp only [integer] at h
  split at h
  · cases h
    intro c hc
    refine ⟨hdigit c hc, ?_⟩
    rintro rfl
    obtain ⟨ds, hds⟩ := List.head?_eq_some_iff.1 hc
    exact hpoint ds hds
  · cases h

theorem ends_number (hrest : cs = (number cs).text ++ rest)
    (h : (number cs).meaning = .ok kind) : kind.Ends rest := by
  have hsplit := List.takeWhile_append_dropWhile (p := Char.isDigit) (l := cs)
  unfold number at hrest h
  split at h
  · next ds hds =>
    simp only [hds] at hrest
    rw [hds] at hsplit
    by_cases hfraction : ds.takeWhile Char.isDigit = []
    · simp only [hfraction, if_true] at h
      cases h
    · simp only [hfraction, if_false] at h hrest
      cases h
      have hrest : ds = ds.takeWhile Char.isDigit ++ rest := by
        simpa using hsplit.trans hrest
      exact fun c hc => not_of_takeWhile_append hrest hc
  · next hpoint =>
    have hbehind : cs.dropWhile Char.isDigit = rest := by
      split at hrest
      · next ds hds => exact absurd hds (hpoint ds)
      · exact List.append_cancel_left (hsplit.trans hrest)
    rw [hbehind] at hpoint
    refine ends_integer (fun c hc => ?_) hpoint h
    exact not_of_head?_dropWhile (hbehind ▸ hc)

theorem ends_word (hrest : cs = (word cs).text ++ rest) (h : (word cs).meaning = .ok kind) :
    kind.Ends rest := by
  intro c hc
  have hnot := not_of_takeWhile_append hrest hc
  simp only [word] at h
  split at h <;> cases h <;> exact hnot

theorem ends_string (h : (string cs).meaning = .ok kind) : kind.Ends rest := by
  simp only [string] at h
  split at h
  · cases h
    exact fun _ _ => trivial
  · cases h

theorem ends_symbol {c : Char} (hrest : c :: cs = (symbol c cs).text ++ rest)
    (h : (symbol c cs).meaning = .ok kind) : kind.Ends rest := by
  unfold symbol at hrest h
  split at h
  · next s hs =>
    cases h
    simp only [hs] at hrest
    intro d hd longer hlonger
    obtain ⟨behind, rfl⟩ := List.head?_eq_some_iff.1 hd
    have hprefix : longer.text.toList <+: c :: cs := ⟨behind, by rw [hlonger, hrest]; simp⟩
    have hlength := Symbol.length_le_of_atHead? hs hprefix
    rw [hlonger, List.length_append, List.length_singleton] at hlength
    omega
  · cases h

/-- A token takes all characters that it can. -/
theorem ends_read {c : Char} (hrest : c :: cs = (read c cs).text ++ rest)
    (h : (read c cs).meaning = .ok kind) : kind.Ends rest := by
  unfold read at hrest h
  by_cases hline : c = '\n'
  · rw [if_pos hline] at h
    cases h
    exact fun _ _ => trivial
  by_cases hdigit : c.isDigit = true
  · rw [if_neg hline, if_pos hdigit] at hrest h
    exact ends_number hrest h
  by_cases hquote : c = '"'
  · rw [if_neg hline, if_neg hdigit, if_pos hquote] at h
    exact ends_string h
  by_cases hletter : Text.isLetter c = true
  · rw [if_neg hline, if_neg hdigit, if_neg hquote, if_pos hletter] at hrest h
    exact ends_word hrest h
  · rw [if_neg hline, if_neg hdigit, if_neg hquote, if_neg hletter] at hrest h
    exact ends_symbol hrest h

/-- A line feed is the end of a line, and no other lexeme is one. What is no token is no lexeme with
a meaning. -/
theorem meaning_read {c : Char} (h : (read c cs).meaning = .ok kind) :
    kind ≠ .unknown ∧ kind ≠ .endOfFile ∧ (kind = .endOfLine ↔ c = '\n') := by
  unfold read at h
  by_cases hline : c = '\n'
  · rw [if_pos hline] at h
    cases h
    exact ⟨by simp, by simp, fun _ => hline, fun _ => rfl⟩
  · suffices hkind : kind ≠ .unknown ∧ kind ≠ .endOfFile ∧ kind ≠ .endOfLine from
      ⟨hkind.1, hkind.2.1, fun h => absurd h hkind.2.2, fun h => absurd h hline⟩
    rw [if_neg hline] at h
    split at h
    · simp only [number, integer] at h
      split at h <;> split at h <;> cases h <;> simp [real]
    split at h
    · simp only [string] at h
      split at h <;> cases h
      simp
    split at h
    · simp only [word] at h
      split at h <;> cases h <;> simp
    · simp only [symbol] at h
      split at h <;> cases h
      simp

end Lexeme

namespace Scanned

variable {p : Location} {c : Char} {cs rest : List Char}

theorem text_ofLexeme (l : Lexeme) :
    (ofLexeme p c l rest).token.text.toList = l.text := by
  rw [ofLexeme]
  split <;> exact String.toList_ofList

theorem location_ofLexeme (l : Lexeme) : (ofLexeme p c l rest).token.location = p := by
  rw [ofLexeme]
  split <;> rfl

theorem ends_ofLexeme (hrest : c :: cs = (Lexeme.read c cs).text ++ rest) :
    (ofLexeme p c (Lexeme.read c cs) rest).token.kind.Ends rest := by
  rw [ofLexeme]
  split
  · next h => exact Lexeme.ends_read hrest h
  · exact fun _ _ => trivial

theorem kind_ofLexeme :
    (ofLexeme p c (Lexeme.read c cs) rest).token.kind ≠ .endOfFile ∧
      ((ofLexeme p c (Lexeme.read c cs) rest).token.kind = .endOfLine ↔ c = '\n') := by
  rw [ofLexeme]
  split
  · next h => exact (Lexeme.meaning_read h).2
  · next f hf =>
    refine ⟨by simp, by simp, ?_⟩
    rintro rfl
    cases hf

end Scanned

def spell (tiles : List (List Char × Token)) : List Char :=
  tiles.flatMap fun tile => tile.1 ++ tile.2.text.toList

/-- Statements about the parts of a list hold if they do of the first and of the later ones. -/
theorem forall_split_cons {α : Type} {P : List α → α → List α → Prop} {x : α} {xs : List α}
    (head : P [] x xs) (tail : ∀ before a behind, xs = before ++ a :: behind →
      P (x :: before) a behind) :
    ∀ before a behind, x :: xs = before ++ a :: behind → P before a behind := by
  intro before a behind h
  cases before with
  | nil =>
    cases h
    exact head
  | cons y before =>
    cases h
    exact tail before a behind rfl

theorem exists_tiles (p : Location) (cs : List Char) : ∃ tiles : List (List Char × Token),
    tiles.map (·.2) = (scanFrom p cs).map Scanned.token ∧ spell tiles = cs ∧
      ∀ before tile behind, tiles = before ++ tile :: behind →
        Gap (tile.2.text.toList ++ spell behind) tile.1 ∧
          tile.2.location = p.after (spell before ++ tile.1) ∧
            tile.2.kind.Ends (spell behind) := by
  induction cs using scan_induction generalizing p with
  | last gap hgap =>
    have hgap' := gap_splitGap gap
    rw [hgap] at hgap'
    refine ⟨[(gap, .endOfFile (p.after gap))], ?_, ?_, forall_split_cons ?_ (by simp)⟩
    · rw [scanFrom_end hgap]
      rfl
    · simp [spell, Token.endOfFile]
    · exact ⟨hgap', rfl, fun _ _ => trivial⟩
  | lexeme gap c ds rest hgap hrest ih =>
    have hgap' := gap_splitGap (gap ++ c :: ds)
    rw [hgap] at hgap'
    obtain ⟨tiles, htokens, hspell, htiles⟩ := ih (p.after (gap ++ (Lexeme.read c ds).text))
    let x := Scanned.ofLexeme (p.after gap) c (Lexeme.read c ds) rest
    have htext : x.token.text.toList = (Lexeme.read c ds).text := Scanned.text_ofLexeme _
    refine ⟨(gap, x.token) :: tiles, ?_, ?_, forall_split_cons ⟨?_, ?_, ?_⟩ ?_⟩
    · rw [scanFrom_lexeme hgap hrest, List.map_cons, List.map_cons, htokens]
    · rw [spell, List.flatMap_cons, ← spell, hspell, htext, List.append_assoc, hrest]
    · rw [hspell, htext, ← hrest]
      exact hgap'
    · exact Scanned.location_ofLexeme _
    · rw [hspell]
      exact Scanned.ends_ofLexeme hrest
    · intro before tile behind hsplit
      obtain ⟨hgapTile, hlocation, hends⟩ := htiles before tile behind hsplit
      refine ⟨hgapTile, ?_, hends⟩
      rw [hlocation, ← Location.after_append, spell, spell, List.flatMap_cons, htext,
        List.append_assoc _ _ tile.1]

/-- Every line feed is the end of a line by itself. -/
theorem countP_endOfLine (p : Location) (cs : List Char) :
    ((scanFrom p cs).map Scanned.token).countP (·.kind = .endOfLine) = cs.count '\n' := by
  induction cs using scan_induction generalizing p with
  | last gap hgap =>
    have hgap' := gap_splitGap gap
    rw [hgap] at hgap'
    rw [scanFrom_end hgap, List.count_eq_zero_of_not_mem hgap'.newline_notMem]
    rfl
  | lexeme gap c ds rest hgap hrest ih =>
    have hgap' := gap_splitGap (gap ++ c :: ds)
    rw [hgap] at hgap'
    have hkind := (@Scanned.kind_ofLexeme (p.after gap) c ds rest).2
    rw [scanFrom_lexeme hgap hrest, List.map_cons, List.countP_cons, ih, List.count_append,
      List.count_eq_zero_of_not_mem hgap'.newline_notMem, hrest, List.count_append]
    by_cases hc : c = '\n'
    · have hread : (Lexeme.read c ds).text = ['\n'] := by rw [hc]; rfl
      rw [hread]
      simp [hkind.2 hc, Nat.add_comm]
    · simp [hkind, hc, List.count_eq_zero_of_not_mem (Lexeme.newline_notMem_read_text hc ds)]

/-- The end of the file stands behind all other tokens and behind the whole text. -/
theorem exists_scanFrom_eq_append (p : Location) (cs : List Char) : ∃ found : List Token,
    (scanFrom p cs).map Scanned.token = found ++ [.endOfFile (p.after cs)] ∧
      ∀ t ∈ found, t.kind ≠ .endOfFile := by
  induction cs using scan_induction generalizing p with
  | last gap hgap =>
    rw [scanFrom_end hgap]
    exact ⟨[], rfl, by simp⟩
  | lexeme gap c ds rest hgap hrest ih =>
    obtain ⟨found, hfound, hkinds⟩ := ih (p.after (gap ++ (Lexeme.read c ds).text))
    refine ⟨(Scanned.ofLexeme (p.after gap) c (Lexeme.read c ds) rest).token :: found, ?_,
      List.forall_mem_cons.2 ⟨Scanned.kind_ofLexeme.1, hkinds⟩⟩
    rw [scanFrom_lexeme hgap hrest, List.map_cons, hfound, ← Location.after_append, hrest,
      List.append_assoc, List.cons_append]

/-- The place behind a text: the line feeds in it tell the line, the characters behind the last one
the column. -/
def placeBehind (cs : List Char) : Location :=
  ⟨1 + cs.count '\n', 1 + (cs.reverse.takeWhile (· ≠ '\n')).length⟩

theorem start_after (cs : List Char) : Location.start.after cs = placeBehind cs := by
  induction cs using List.reverseRecOn with
  | nil => rfl
  | append_singleton cs c ih =>
    rw [Location.after_append, ih, Location.after_cons, Location.after_nil, Location.next]
    by_cases hc : c = '\n' <;> simp [placeBehind, hc, Nat.add_assoc]

theorem tokens_of_tokenize {source : String} {tokens : List Token}
    (h : tokenize source = .ok tokens) : tokens = (scan source).map Scanned.token := by
  rw [tokenize] at h
  split at h
  · cases h
    rfl
  · cases h

/-- The tokens of a text, each with a gap in front of it, make up the text without its carriage
returns. A token stands where the text before it ends and takes all characters that it can. The end
of the file is the last token, and there is an end of a line for each line feed. -/
theorem tokenize_tiles {source : String} {tokens : List Token}
    (h : tokenize source = .ok tokens) :
    let text := source.toList.filter (· ≠ '\r')
    (∃ tiles : List (List Char × Token), tiles.map (·.2) = tokens ∧ spell tiles = text ∧
      ∀ before gap token behind, tiles = before ++ (gap, token) :: behind →
        Gap (token.text.toList ++ spell behind) gap ∧
          token.location = placeBehind (spell before ++ gap) ∧
            token.kind.Ends (spell behind)) ∧
    (∃ others, tokens = others ++ [.endOfFile (placeBehind text)] ∧
      ∀ token ∈ others, token.kind ≠ .endOfFile) ∧
    tokens.countP (·.kind = .endOfLine) = source.toList.count '\n' := by
  intro text
  rw [tokens_of_tokenize h]
  refine ⟨?_, ?_, ?_⟩
  · obtain ⟨tiles, htokens, hspell, htiles⟩ := exists_tiles .start text
    refine ⟨tiles, htokens, hspell, fun before gap token behind hsplit => ?_⟩
    rw [← start_after]
    exact htiles before (gap, token) behind hsplit
  · rw [← start_after]
    exact exists_scanFrom_eq_append .start text
  · rw [← List.count_filter (p := (· ≠ '\r')) (by decide)]
    exact countP_endOfLine .start text

def commentedLine : String := "a <- 12 // uno\r\nb"

def commentedTokens : List Token :=
  [⟨.word "a", "a", ⟨1, 1⟩⟩, ⟨.symbol .arrow, "<-", ⟨1, 3⟩⟩, ⟨.integer 12, "12", ⟨1, 6⟩⟩,
    ⟨.endOfLine, "\n", ⟨1, 15⟩⟩, ⟨.word "b", "b", ⟨2, 1⟩⟩, ⟨.endOfFile, "", ⟨2, 2⟩⟩]

theorem tokenize_commentedLine :
    tokenize commentedLine = .ok commentedTokens ∧
      ∃ tiles : List (List Char × Token), tiles.map (·.2) = commentedTokens ∧
        spell tiles = "a <- 12 // uno\nb".toList := by
  have htokens : tokenize commentedLine = .ok commentedTokens := by decide +kernel
  obtain ⟨tiles, htiles, hspell, -⟩ := (tokenize_tiles htokens).1
  exact ⟨htokens, tiles, htiles, hspell.trans (by decide)⟩

end Seudocodigo
