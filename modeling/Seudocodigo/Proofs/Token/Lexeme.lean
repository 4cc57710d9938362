import Mathlib.Data.List.Find
import Mathlib.Data.List.TakeWhile
import Seudocodigo.Token.Lexeme

/-! Where gaps and lexemes end. Lexemes are found at the head of a text, no line feed lies within
one, and what comes behind a line feed is of no matter to what comes before it. -/
namespace Seudocodigo

section Stretches

variable {p : Char → Bool} (h : p '\n' = false) (cs ds : List Char)
include h

theorem takeWhile_append_newline : (cs ++ '\n' :: ds).takeWhile p = cs.takeWhile p := by
  induction cs with
  | nil => simp [h]
  | cons c cs ih => by_cases hc : p c <;> simp [hc, ih]

theorem dropWhile_append_newline :
    (cs ++ '\n' :: ds).dropWhile p = cs.dropWhile p ++ '\n' :: ds := by
  induction cs with
  | nil => simp [h]
  | cons c cs ih => by_cases hc : p c <;> simp [hc, ih]

theorem newline_notMem_takeWhile : '\n' ∉ cs.takeWhile p := fun hmem =>
  Bool.false_ne_true (h.symm.trans (List.mem_takeWhile_imp hmem))

end Stretches

/-- A stretch is followed by the end or by a character that does not belong to it. -/
theorem not_of_head?_dropWhile {p : Char → Bool} {cs : List Char} {c : Char}
    (h : (cs.dropWhile p).head? = some c) : p c = false := by
  have hhead := List.head?_dropWhile_not p cs
  rwa [h] at hhead

/-- A word without line feed begins a line or does not, whatever comes behind the line. -/
theorem isPrefixOf_append_newline {w : List Char} (hw : '\n' ∉ w) (cs ds : List Char) :
    w.isPrefixOf (cs ++ '\n' :: ds) = w.isPrefixOf cs := by
  induction w generalizing cs with
  | nil => rfl
  | cons c w ih =>
    rw [List.mem_cons, not_or] at hw
    cases cs with
    | nil => simp [List.isPrefixOf, Ne.symm hw.1]
    | cons d cs => simp only [List.cons_append, List.isPrefixOf, ih hw.2]

theorem Symbol.newline_notMem_text (s : Symbol) : '\n' ∉ s.text.toList := by
  cases s <;> decide

namespace Lexeme

theorem isWordChar_newline : isWordChar '\n' = false := by decide

theorem number_append_newline (cs ds : List Char) : number (cs ++ '\n' :: ds) = number cs := by
  have hdigit : Char.isDigit '\n' = false := by decide
  simp only [number, takeWhile_append_newline hdigit, dropWhile_append_newline hdigit]
  cases cs.dropWhile Char.isDigit with
  | nil => rfl
  | cons c es =>
    by_cases hc : c = '.'
    · simp [hc, takeWhile_append_newline hdigit]
    · simp [hc]

theorem string_append_newline (cs ds : List Char) : string (cs ++ '\n' :: ds) = string cs := by
  have htake := takeWhile_append_newline (p := fun c => c ≠ '"' && c ≠ '\n') (by decide) cs ds
  have hdrop := dropWhile_append_newline (p := fun c => c ≠ '"' && c ≠ '\n') (by decide) cs ds
  simp only [string, htake, hdrop]
  cases cs.dropWhile _ with
  | nil => rfl
  | cons c es => by_cases hc : c = '"' <;> simp [hc]

theorem word_append_newline (cs ds : List Char) : word (cs ++ '\n' :: ds) = word cs := by
  simp only [word, takeWhile_append_newline isWordChar_newline]

theorem symbol_append_newline (c : Char) (cs ds : List Char) :
    symbol c (cs ++ '\n' :: ds) = symbol c cs := by
  have hhead : Symbol.atHead? (c :: cs ++ '\n' :: ds) = Symbol.atHead? (c :: cs) :=
    List.find?_congr fun s _ => isPrefixOf_append_newline s.newline_notMem_text (c :: cs) ds
  rw [symbol, ← List.cons_append, hhead]
  rfl

/-- Reading a lexeme stops at the end of its line at the latest. -/
theorem read_append_newline (c : Char) (cs ds : List Char) :
    read c (cs ++ '\n' :: ds) = read c cs := by
  simp only [read, ← List.cons_append, number_append_newline, string_append_newline,
    word_append_newline, symbol_append_newline]

theorem prefix_number_text (cs : List Char) : (number cs).text <+: cs := by
  have hsplit : cs.takeWhile Char.isDigit ++ cs.dropWhile Char.isDigit = cs :=
    List.takeWhile_append_dropWhile
  simp only [number]
  split
  · next ds hds =>
    rw [hds] at hsplit
    have hfraction : '.' :: ds.takeWhile Char.isDigit <+: '.' :: ds :=
      List.cons_prefix_cons.2 ⟨rfl, List.takeWhile_prefix _⟩
    have hprefix := (List.prefix_append_right_inj (cs.takeWhile Char.isDigit)).2 hfraction
    rw [hsplit] at hprefix
    by_cases hnil : ds.takeWhile Char.isDigit = []
    · simpa [hnil] using hprefix
    · simpa [hnil] using hprefix
  · exact List.takeWhile_prefix _

theorem prefix_string_text (cs : List Char) : (string cs).text <+: '"' :: cs := by
  have hsplit := List.takeWhile_append_dropWhile (p := fun c => c ≠ '"' && c ≠ '\n') (l := cs)
  simp only [string]
  split
  · next ds hds =>
    rw [hds] at hsplit
    exact ⟨ds, by rw [List.append_assoc]; exact congrArg ('"' :: ·) hsplit⟩
  · exact List.cons_prefix_cons.2 ⟨rfl, List.takeWhile_prefix _⟩

theorem prefix_symbol_text (c : Char) (cs : List Char) : (symbol c cs).text <+: c :: cs := by
  rw [symbol]
  split
  · next s hs =>
    rw [Symbol.atHead?] at hs
    have hprefix := List.find?_some hs
    exact List.isPrefixOf_iff_prefix.1 hprefix
  · exact List.cons_prefix_cons.2 ⟨rfl, List.nil_prefix⟩

/-- A lexeme is what the text begins with. -/
theorem prefix_read_text (c : Char) (cs : List Char) : (read c cs).text <+: c :: cs := by
  simp only [read]
  split
  · exact List.cons_prefix_cons.2 ⟨rfl, List.nil_prefix⟩
  split
  · exact prefix_number_text _
  split
  · next hc => rw [hc]; exact prefix_string_text cs
  split
  · exact List.takeWhile_prefix _
  · exact prefix_symbol_text c cs

/-- Only the end of a line holds a line feed. -/
theorem newline_notMem_read_text {c : Char} (hc : c ≠ '\n') (cs : List Char) :
    '\n' ∉ (read c cs).text := by
  intro hmem
  by_cases hline : '\n' ∈ cs
  · obtain ⟨line, behind, rfl, hnot⟩ := List.eq_append_cons_of_mem hline
    rw [read_append_newline] at hmem
    have hbegin := (prefix_read_text c line).subset hmem
    simp [Ne.symm hc, hnot] at hbegin
  · have hbegin := (prefix_read_text c cs).subset hmem
    simp [Ne.symm hc, hline] at hbegin

end Lexeme
/-- Blanks other than line feeds, and behind them possibly a comment up to the end of its line,
which lies in what follows. -/
inductive Gap (following : List Char) : List Char → Prop
  | nil : Gap following []
  | blank {c : Char} {gap : List Char} : isInlineBlank c = true → Gap following gap →
      Gap following (c :: gap)
  | comment {body : List Char} : '\n' ∉ body → (∀ c ∈ following.head?, c = '\n') →
      Gap following ('/' :: '/' :: body)

theorem gap_splitGap (cs : List Char) : Gap (splitGap cs).2 (splitGap cs).1 := by
  fun_induction splitGap cs with
  | case1 cs =>
    refine .comment (newline_notMem_takeWhile (by decide) cs) fun c hc => ?_
    simpa using not_of_head?_dropWhile hc
  | case2 c cs _ hblank ih => exact .blank hblank ih
  | case3 => exact .nil
  | case4 => exact .nil

theorem Gap.newline_notMem {following gap : List Char} (h : Gap following gap) : '\n' ∉ gap := by
  induction h with
  | nil => exact List.not_mem_nil
  | @blank c gap hblank _ ih =>
    have hc : '\n' ≠ c := by
      rintro rfl
      exact absurd hblank (by decide)
    simp [hc, ih]
  | comment hbody _ => simp [hbody]

/-- The line does not begin with a comment, whatever comes behind it. -/
theorem not_comment_append_newline {c : Char} {cs : List Char}
    (h : ∀ es, c = '/' → cs = '/' :: es → False) (ds es : List Char) (hc : c = '/')
    (hcs : cs ++ '\n' :: ds = '/' :: es) : False := by
  cases cs with
  | nil => simp at hcs
  | cons d cs =>
    rw [List.cons_append, List.cons.injEq] at hcs
    exact h cs hc (by rw [hcs.1])

/-- A gap ends with its line at the latest. -/
theorem splitGap_append_newline (cs ds : List Char) :
    splitGap (cs ++ '\n' :: ds) = ((splitGap cs).1, (splitGap cs).2 ++ '\n' :: ds) := by
  fun_induction splitGap cs with
  | case1 cs =>
    have htake := takeWhile_append_newline (p := (· ≠ '\n')) (by decide) cs ds
    have hdrop := dropWhile_append_newline (p := (· ≠ '\n')) (by decide) cs ds
    simp only [List.cons_append, splitGap, htake, hdrop]
  | case2 c cs hcode hblank ih =>
    rw [List.cons_append, splitGap.eq_2 _ _ (not_comment_append_newline hcode ds), if_pos hblank, ih]
  | case3 c cs hcode hblank =>
    rw [List.cons_append, splitGap.eq_2 _ _ (not_comment_append_newline hcode ds), if_neg hblank]
  | case4 => rfl

end Seudocodigo
