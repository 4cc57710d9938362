import Seudocodigo.Proofs.Token.Tiles

/-! Tokens written out one behind the other, with blanks between them, are read again as the same
tokens. A token depends on its own characters alone as long as what follows does not belong to it,
and a blank belongs to no token. -/
namespace Seudocodigo

namespace Text

def blankPoints : List Nat :=
  blanks.flatMap fun run => List.range' run.1 (run.2 + 1 - run.1)

theorem mem_blankPoints {c : Char} (h : isBlank c = true) : c.toNat ∈ blankPoints := by
  obtain ⟨run, hrun, hfirst, hlast⟩ := inRuns_of_mem h
  refine List.mem_flatMap.2 ⟨run, hrun, List.mem_range'_1.2 ⟨hfirst, ?_⟩⟩
  omega

theorem not_isWordChar_of_isBlank {c : Char} (h : isBlank c = true) :
    Lexeme.isWordChar c = false := by
  have hall : ∀ n ∈ blankPoints, Lexeme.isWordChar (Char.ofNat n) = false := by decide +kernel
  have hc := hall c.toNat (mem_blankPoints h)
  rwa [Char.ofNat_toNat] at hc

end Text

theorem isBlank_of_isInlineBlank {c : Char} (h : isInlineBlank c = true) :
    Text.isBlank c = true :=
  (Bool.and_eq_true _ _ ▸ h).1

theorem Lexeme.isWordChar_of_isDigit {c : Char} (h : c.isDigit = true) : isWordChar c = true := by
  have hsmall : c.toNat < 0x80 := by
    rw [Char.isDigit, Bool.and_eq_true] at h
    have hle : c.val ≤ 57 := of_decide_eq_true h.2
    exact Nat.lt_of_le_of_lt (UInt32.le_iff_toNat_le.1 hle) (by decide)
  simp [isWordChar, Text.isNumeral, hsmall, h]

theorem Symbol.not_isInlineBlank_of_mem {s : Symbol} {c : Char} (h : c ∈ s.text.toList) :
    isInlineBlank c = false := by
  have hall : all.all (fun s => s.text.toList.all fun c => !isInlineBlank c) = true := by decide
  have htext := List.all_eq_true.1 hall s s.mem_all
  simpa using List.all_eq_true.1 htext c h

/-- No token goes on with a blank. -/
theorem TokenKind.ends_of_isInlineBlank (kind : TokenKind) {following : List Char}
    (h : ∀ c ∈ following.head?, isInlineBlank c = true) : kind.Ends following := by
  intro c hc
  have h := h c hc
  have hword := Text.not_isWordChar_of_isBlank (isBlank_of_isInlineBlank h)
  have hdigit : c.isDigit = false := by
    by_contra hc
    rw [Lexeme.isWordChar_of_isDigit (Bool.eq_true_of_not_eq_false hc)] at hword
    cases hword
  cases kind with
  | integer n =>
    refine ⟨hdigit, ?_⟩
    rintro rfl
    exact absurd h (by decide)
  | real x => exact hdigit
  | word name => exact hword
  | keyword k => exact hword
  | symbol s =>
    intro longer hlonger
    have hnot := Symbol.not_isInlineBlank_of_mem (s := longer) (c := c) (by simp [hlonger])
    rw [h] at hnot
    cases hnot
  | _ => trivial

/-! What follows a token. -/

theorem takeWhile_append_of_ends {p : Char → Bool} {word others : List Char}
    (hword : ∀ c ∈ word, p c = true) (hends : ∀ c ∈ others.head?, p c = false) :
    (word ++ others).takeWhile p = word ∧ (word ++ others).dropWhile p = others := by
  rw [List.takeWhile_append_of_pos hword, List.dropWhile_append_of_pos hword]
  cases others with
  | nil => simp
  | cons c others => simp [hends c rfl]

namespace Symbol

theorem text_injective : Function.Injective fun s : Symbol => s.text.toList := by
  have hall : ∀ s ∈ all, ∀ t ∈ all, s.text.toList = t.text.toList → s = t := by decide
  exact fun s t h => hall s s.mem_all t t.mem_all h

theorem length_text (s : Symbol) : 1 ≤ s.text.toList.length ∧ s.text.toList.length ≤ 2 := by
  cases s <;> decide

theorem prefix_of_atHead? {cs : List Char} {s : Symbol} (h : atHead? cs = some s) :
    s.text.toList <+: cs := by
  rw [atHead?] at h
  have hprefix := List.find?_some h
  exact List.isPrefixOf_iff_prefix.1 hprefix

/-- A symbol is found again if no longer one could be made of it and what follows. -/
theorem atHead?_append {s : Symbol} {others : List Char}
    (h : (TokenKind.symbol s).Ends others) : atHead? (s.text.toList ++ others) = some s := by
  have hprefix : s.text.toList <+: s.text.toList ++ others := List.prefix_append _ _
  have hsome : (atHead? (s.text.toList ++ others)).isSome = true :=
    List.find?_isSome.2 ⟨s, s.mem_all, List.isPrefixOf_iff_prefix.2 hprefix⟩
  obtain ⟨t, ht⟩ := Option.isSome_iff_exists.1 hsome
  have hlength := length_le_of_atHead? ht hprefix
  have htext := prefix_of_atHead? ht
  obtain ⟨more, hmore⟩ := List.prefix_of_prefix_length_le hprefix htext hlength
  rw [ht]
  cases more with
  | nil =>
    rw [List.append_nil] at hmore
    rw [text_injective hmore]
  | cons c more =>
    -- Only one character can be added to a symbol, which is the first of those that follow.
    have hone : more = [] := by
      have hmost := t.length_text.2
      have hleast := s.length_text.1
      rw [← hmore, List.length_append, List.length_cons] at hmost
      exact List.length_eq_zero_iff.1 (by omega)
    rw [hone] at hmore
    rw [← hmore, List.prefix_append_right_inj] at htext
    obtain ⟨behind, rfl⟩ := htext
    exact absurd hmore.symm (h c rfl t)

end Symbol

namespace Lexeme

variable {cs body others : List Char} {kind : TokenKind}

theorem number_append (h : (number cs).meaning = .ok kind) (hends : kind.Ends others) :
    number ((number cs).text ++ others) = number cs := by
  have hwhole : ∀ c ∈ cs.takeWhile Char.isDigit, c.isDigit = true :=
    fun c hc => List.mem_takeWhile_imp hc
  unfold number at h ⊢
  split at h
  · next ds hds =>
    by_cases hnil : ds.takeWhile Char.isDigit = []
    · simp only [hnil, if_true] at h
      cases h
    · have hfraction : ∀ c ∈ ds.takeWhile Char.isDigit, c.isDigit = true :=
        fun c hc => List.mem_takeWhile_imp hc
      simp only [hnil, if_false] at h
      cases h
      have hpoint : ∀ c ∈ ('.' :: (ds.takeWhile Char.isDigit ++ others)).head?,
          c.isDigit = false := by
        rintro c ⟨⟩
        decide
      have hbefore := takeWhile_append_of_ends hwhole hpoint
      have hbehind := takeWhile_append_of_ends hfraction hends
      simp only [hnil, if_false, List.append_assoc, List.cons_append, hbefore, hbehind]
  · next hpoint =>
    have hinteger : ∃ n, kind = .integer n := by
      simp only [integer] at h
      split at h <;> cases h
      exact ⟨_, rfl⟩
    obtain ⟨n, rfl⟩ := hinteger
    have hbehind := takeWhile_append_of_ends hwhole fun c hc => (hends c hc).1
    have hothers (ds : List Char) : others ≠ '.' :: ds := by
      rintro rfl
      exact (hends '.' rfl).2 rfl
    simp only [hbehind]

theorem string_append {ds : List Char} (h : (string cs).meaning = .ok kind)
    (htext : (string cs).text = '"' :: ds) (others : List Char) :
    string (ds ++ others) = string cs := by
  have hbody : ∀ c ∈ cs.takeWhile fun c => c ≠ '"' && c ≠ '\n', (c ≠ '"' && c ≠ '\n') = true := by
    intro c hc
    have hbelongs := List.mem_takeWhile_imp hc
    exact hbelongs
  unfold string at h htext ⊢
  split at h
  · next es hes =>
    simp only [hes, List.cons_append, List.cons.injEq, true_and] at htext
    have hquote : ∀ c ∈ ('"' :: others).head?, (c ≠ '"' && c ≠ '\n') = false := by
      rintro c ⟨⟩
      decide
    have hbehind := takeWhile_append_of_ends hbody hquote
    simp only [← htext, List.append_assoc, List.cons_append, List.nil_append, hbehind]
  · cases h

theorem word_append (h : (word cs).meaning = .ok kind) (hends : kind.Ends others) :
    word ((word cs).text ++ others) = word cs := by
  have hname : ∀ c ∈ cs.takeWhile isWordChar, isWordChar c = true :=
    fun c hc => List.mem_takeWhile_imp hc
  have hbehind : ∀ c ∈ others.head?, isWordChar c = false := by
    intro c hc
    have hc := hends c hc
    simp only [word] at h
    split at h <;> cases h <;> exact hc
  simp only [word, takeWhile_append_of_ends hname hbehind]

theorem symbol_append {c : Char} (h : (symbol c cs).meaning = .ok kind)
    (htext : (symbol c cs).text = c :: body) (hends : kind.Ends others) :
    symbol c (body ++ others) = symbol c cs := by
  unfold symbol at h htext ⊢
  split at h
  · next s hs =>
    cases h
    simp only [hs] at htext
    have hagain := Symbol.atHead?_append hends
    rw [htext, List.cons_append] at hagain
    simp only [hagain]
  · cases h

/-- A token is read again where its characters stand before something that does not belong to it. -/
theorem read_append {c : Char} (h : (read c cs).meaning = .ok kind)
    (htext : (read c cs).text = c :: body) (hends : kind.Ends others) :
    read c (body ++ others) = read c cs := by
  unfold read at h htext ⊢
  by_cases hline : c = '\n'
  · rw [if_pos hline, if_pos hline]
  by_cases hdigit : c.isDigit = true
  · simp only [if_neg hline, if_pos hdigit] at h htext ⊢
    rw [← List.cons_append, ← htext]
    exact number_append h hends
  by_cases hquote : c = '"'
  · simp only [if_neg hline, if_neg hdigit, if_pos hquote] at h htext ⊢
    exact string_append h (hquote ▸ htext) others
  by_cases hletter : Text.isLetter c = true
  · simp only [if_neg hline, if_neg hdigit, if_neg hquote, if_pos hletter] at h htext ⊢
    rw [← List.cons_append, ← htext]
    exact word_append h hends
  · simp only [if_neg hline, if_neg hdigit, if_neg hquote, if_neg hletter] at h htext ⊢
    exact symbol_append h htext hends

/-- A token does not begin with a blank. -/
theorem not_isInlineBlank_of_read {c : Char} (h : (read c cs).meaning = .ok kind) :
    isInlineBlank c = false := by
  by_contra hblank
  rw [Bool.not_eq_false] at hblank
  have hword := Text.not_isWordChar_of_isBlank (isBlank_of_isInlineBlank hblank)
  have hline : c ≠ '\n' := by
    rintro rfl
    exact absurd hblank (by decide)
  have hquote : c ≠ '"' := by
    rintro rfl
    exact absurd hblank (by decide)
  have hdigit : ¬ c.isDigit = true := fun hc => by
    rw [isWordChar_of_isDigit hc] at hword
    cases hword
  have hletter : ¬ Text.isLetter c = true := fun hc => by
    simp [isWordChar, hc] at hword
  rw [read, if_neg hline, if_neg hdigit, if_neg hquote, if_neg hletter, symbol] at h
  split at h
  · next s hs =>
    obtain ⟨behind, hbehind⟩ := Symbol.prefix_of_atHead? hs
    have hlength := s.length_text.1
    cases htext : s.text.toList with
    | nil => rw [htext] at hlength; cases hlength
    | cons d ds =>
      have hd := Symbol.not_isInlineBlank_of_mem (s := s) (c := d) (by simp [htext])
      rw [htext, List.cons_append, List.cons.injEq] at hbehind
      rw [hbehind.1, hblank] at hd
      cases hd
  · cases h

theorem exists_text_eq_cons (c : Char) (cs : List Char) : ∃ body, (read c cs).text = c :: body := by
  have hprefix := prefix_read_text c cs
  obtain ⟨d, body, htext⟩ := List.exists_cons_of_ne_nil (read_text_ne_nil c cs)
  rw [htext, List.cons_prefix_cons] at hprefix
  exact ⟨body, by rw [htext, hprefix.1]⟩

theorem text_read_slash (cs : List Char) : (read '/' cs).text = ['/'] := by
  have hread : read '/' cs = symbol '/' cs := by
    rw [read, if_neg (by decide), if_neg (by decide), if_neg (by decide), if_neg (by decide)]
  rw [hread]
  simp [symbol, Symbol.atHead?, Symbol.all, Symbol.text]

end Lexeme

/-! Tokens written out. -/

/-- Blanks that keep tokens apart: at least one, and none that ends a line or is left out of
texts. -/
structure Spacing (gap : List Char) : Prop where
  ne_nil : gap ≠ []
  blank : ∀ c ∈ gap, Text.isBlank c = true
  newline_notMem : '\n' ∉ gap
  return_notMem : '\r' ∉ gap

def written (printed : List (Token × List Char)) : List Char :=
  printed.flatMap fun x => x.1.text.toList ++ x.2

/-- The token is what some text begins with. -/
def Token.Readable (t : Token) : Prop :=
  ∃ c cs body, t.text.toList = c :: body ∧ Lexeme.read c cs = ⟨c :: body, .ok t.kind⟩

theorem Spacing.inline {gap : List Char} (h : Spacing gap) : ∀ c ∈ gap, isInlineBlank c = true := by
  intro c hc
  have hne : c ≠ '\n' := fun he => h.newline_notMem (he ▸ hc)
  simp [isInlineBlank, h.blank c hc, hne]

theorem Spacing.head {gap : List Char} (h : Spacing gap) (others : List Char) :
    ∀ c ∈ (gap ++ others).head?, isInlineBlank c = true := by
  obtain ⟨d, ds, rfl⟩ := List.exists_cons_of_ne_nil h.ne_nil
  rintro _ ⟨⟩
  exact h.inline d (by simp)

theorem splitGap_cons {c : Char} {cs : List Char} (h : isInlineBlank c = true) :
    splitGap (c :: cs) = (c :: (splitGap cs).1, (splitGap cs).2) := by
  rw [splitGap.eq_2 _ _ ?_, if_pos h]
  rintro es rfl
  exact absurd h (by decide)

theorem splitGap_append_of_inline {gap : List Char} (h : ∀ c ∈ gap, isInlineBlank c = true)
    (cs : List Char) : splitGap (gap ++ cs) = (gap ++ (splitGap cs).1, (splitGap cs).2) := by
  induction gap with
  | nil => rfl
  | cons c gap ih =>
    rw [List.forall_mem_cons] at h
    rw [List.cons_append, splitGap_cons h.1, ih h.2]
    rfl

/-- Before a token there is no gap, and the token and blanks behind it make no comment. -/
theorem splitGap_token {c : Char} {cs body others : List Char} {kind : TokenKind}
    (h : (Lexeme.read c cs).meaning = .ok kind) (htext : (Lexeme.read c cs).text = c :: body)
    (hothers : ∀ d ∈ others.head?, isInlineBlank d = true) :
    splitGap (c :: (body ++ others)) = ([], c :: (body ++ others)) := by
  rw [splitGap.eq_2 _ _ ?_, if_neg (by simp [Lexeme.not_isInlineBlank_of_read h])]
  rintro es rfl hes
  rw [Lexeme.text_read_slash, List.cons.injEq] at htext
  rw [← htext.2, List.nil_append] at hes
  exact absurd (hothers '/' (by rw [hes]; rfl)) (by decide)

/-- Blanks and a token with blanks behind it are read as that token, and the scan goes on behind
it. -/
theorem scanFrom_token {t : Token} (ht : t.Readable) {gap others : List Char}
    (hgap : ∀ c ∈ gap, isInlineBlank c = true)
    (hothers : ∀ c ∈ others.head?, isInlineBlank c = true) (p : Location) :
    ∃ q r, scanFrom p (gap ++ (t.text.toList ++ others)) =
      ⟨⟨t.kind, t.text, q⟩, none⟩ :: scanFrom r others := by
  obtain ⟨c, cs, body, hbody, hread⟩ := ht
  have hmeaning : (Lexeme.read c cs).meaning = .ok t.kind := by rw [hread]
  have htext : (Lexeme.read c cs).text = c :: body := by rw [hread]
  have hagain : Lexeme.read c (body ++ others) = ⟨c :: body, .ok t.kind⟩ := by
    rw [Lexeme.read_append hmeaning htext (t.kind.ends_of_isInlineBlank hothers), hread]
  have hsplit : splitGap (gap ++ c :: (body ++ others)) = (gap, c :: (body ++ others)) := by
    rw [splitGap_append_of_inline hgap, splitGap_token hmeaning htext hothers, List.append_nil]
  have hrest : c :: (body ++ others) = (Lexeme.read c (body ++ others)).text ++ others := by
    rw [hagain, List.cons_append]
  refine ⟨p.after gap, p.after (gap ++ c :: body), ?_⟩
  rw [hbody, List.cons_append, scanFrom_lexeme hsplit hrest, hagain]
  simp only [Scanned.ofLexeme, ← hbody, String.ofList_toList]

def Scanned.found (x : Scanned) : TokenKind × String × Option LexicalError :=
  (x.token.kind, x.token.text, x.error)

/-- Written tokens are all read again, without a fault. -/
theorem scanFrom_written {printed : List (Token × List Char)}
    (hread : ∀ x ∈ printed, x.1.Readable) (hspacing : ∀ x ∈ printed, Spacing x.2) (gap : List Char)
    (hgap : ∀ c ∈ gap, isInlineBlank c = true) (p : Location) :
    (scanFrom p (gap ++ written printed)).map Scanned.found =
      printed.map (fun x => (x.1.kind, x.1.text, none)) ++ [(.endOfFile, "", none)] := by
  induction printed generalizing gap p with
  | nil =>
    have hsplit : splitGap (gap ++ []) = (gap ++ [], []) := splitGap_append_of_inline hgap []
    rw [show written [] = [] from rfl, scanFrom_end hsplit]
    rfl
  | cons x printed ih =>
    rw [List.forall_mem_cons] at hread hspacing
    obtain ⟨q, r, hscan⟩ := scanFrom_token hread.1 hgap (hspacing.1.head (written printed)) p
    have hwritten : written (x :: printed) = x.1.text.toList ++ (x.2 ++ written printed) := by
      rw [← List.append_assoc]
      rfl
    rw [hwritten, hscan, List.map_cons, ih hread.2 hspacing.2 x.2 hspacing.1.inline]
    rfl

/-- What is scanned without a fault is made of characters of the text and is readable. -/
theorem readable_of_mem_scanFrom {cs : List Char} {p : Location} {x : Scanned}
    (hx : x ∈ scanFrom p cs) :
    x.token.text.toList ⊆ cs ∧
      (x.error = none → x.token.kind ≠ .endOfFile → x.token.Readable) := by
  induction cs using scan_induction generalizing p with
  | last gap hgap =>
    rw [scanFrom_end hgap, List.mem_singleton] at hx
    subst hx
    exact ⟨List.nil_subset _, fun _ hkind => absurd rfl hkind⟩
  | lexeme gap c ds rest hgap hrest ih =>
    rw [scanFrom_lexeme hgap hrest] at hx
    rcases List.mem_cons.1 hx with rfl | hx
    · have hprefix := (Lexeme.prefix_read_text c ds).subset
      refine ⟨?_, fun herror _ => ?_⟩
      · rw [Scanned.text_ofLexeme]
        exact List.subset_append_of_subset_right gap hprefix
      · obtain ⟨body, hbody⟩ := Lexeme.exists_text_eq_cons c ds
        refine ⟨c, ds, body, by rw [Scanned.text_ofLexeme, hbody], ?_⟩
        unfold Scanned.ofLexeme at herror ⊢
        cases hread : Lexeme.read c ds with
        | mk text meaning =>
          rw [hread] at herror hbody
          subst hbody
          cases meaning with
          | ok kind => rfl
          | error f => cases herror
    · obtain ⟨hsubset, hreadable⟩ := ih hx
      refine ⟨fun d hd => ?_, hreadable⟩
      rw [hrest]
      simp [hsubset hd]

theorem error_of_tokenize {source : String} {tokens : List Token}
    (h : tokenize source = .ok tokens) : ∀ x ∈ scan source, x.error = none := by
  have hok : (tokenize source).isOk = true := by rw [h]; rfl
  exact List.filterMap_eq_nil_iff.1 ((tokenize_isOk source).1 hok)

theorem tokenize_eq_ok {source : String} (h : ∀ x ∈ scan source, x.error = none) :
    tokenize source = .ok ((scan source).map Scanned.token) := by
  rw [tokenize, List.filterMap_eq_nil_iff.2 h]

/-- Written tokens of a text hold no carriage return. -/
theorem scan_written {source : String} {printed : List (Token × List Char)}
    (hscanned : ∀ x ∈ printed, ∃ y ∈ scan source, y.token = x.1)
    (hspacing : ∀ x ∈ printed, Spacing x.2) :
    scan (String.ofList (written printed)) = scanFrom .start (written printed) := by
  have hkept : (written printed).filter (· ≠ '\r') = written printed := by
    refine List.filter_eq_self.2 fun c hc => decide_eq_true ?_
    obtain ⟨x, hx, hc⟩ := List.mem_flatMap.1 hc
    rintro rfl
    rcases List.mem_append.1 hc with hc | hc
    · obtain ⟨y, hy, hxy⟩ := hscanned x hx
      have htext := (readable_of_mem_scanFrom hy).1 (hxy ▸ hc)
      simp at htext
    · exact (hspacing x hx).return_notMem hc
  rw [scan, String.toList_ofList, hkept]

/-- The tokens of a text, all but the end of the file, are written one behind the other with blanks
behind each of them. That text has the same tokens, apart from their places. -/
theorem tokenize_written {source : String} {tokens : List Token} (h : tokenize source = .ok tokens)
    {printed : List (Token × List Char)} (hprinted : printed.map (·.1) = tokens.dropLast)
    (hspacing : ∀ x ∈ printed, Spacing x.2) :
    ∃ again, tokenize (String.ofList (written printed)) = .ok again ∧
      again.map (·.kind) = tokens.map (·.kind) ∧ again.map (·.text) = tokens.map (·.text) := by
  have htokens := tokens_of_tokenize h
  obtain ⟨others, hothers, hkinds⟩ :=
    exists_scanFrom_eq_append .start (source.toList.filter (· ≠ '\r'))
  rw [← scan, ← htokens] at hothers
  rw [hothers, List.dropLast_concat] at hprinted
  have hscanned : ∀ x ∈ printed, ∃ y ∈ scan source, y.token = x.1 := by
    intro x hx
    have hmem : x.1 ∈ (scan source).map Scanned.token := by
      rw [← htokens, hothers, ← hprinted]
      exact List.mem_append_left _ (List.mem_map_of_mem hx)
    exact List.mem_map.1 hmem
  have hread : ∀ x ∈ printed, x.1.Readable := by
    intro x hx
    obtain ⟨y, hy, hxy⟩ := hscanned x hx
    have hkind := hkinds x.1 (hprinted ▸ List.mem_map_of_mem hx)
    rw [← hxy] at hkind ⊢
    exact (readable_of_mem_scanFrom hy).2 (error_of_tokenize h y hy) hkind
  have hfound : (scan (String.ofList (written printed))).map Scanned.found =
      tokens.map fun t => (t.kind, t.text, none) := by
    have hwritten := scanFrom_written hread hspacing [] (by simp) .start
    rw [scan_written hscanned hspacing, hothers, ← hprinted, List.map_append, List.map_map]
    exact hwritten
  refine ⟨_, tokenize_eq_ok fun x hx => ?_, ?_, ?_⟩
  · have hmem := List.mem_map_of_mem (f := Scanned.found) hx
    rw [hfound] at hmem
    obtain ⟨t, -, ht⟩ := List.mem_map.1 hmem
    exact (Prod.ext_iff.1 (Prod.ext_iff.1 ht).2).2.symm
  · have hfirst := congrArg (List.map Prod.fst) hfound
    simpa only [List.map_map, Function.comp_def, Scanned.found] using hfirst
  · have hsecond := congrArg (List.map fun x => x.2.1) hfound
    simpa only [List.map_map, Function.comp_def, Scanned.found] using hsecond

def slashes : String := "Si \"//\"/ /\n<2.50 //-"

def slashTokens : List Token :=
  [⟨.keyword .si, "Si", ⟨1, 1⟩⟩, ⟨.string "//", "\"//\"", ⟨1, 4⟩⟩, ⟨.symbol .slash, "/", ⟨1, 8⟩⟩,
    ⟨.symbol .slash, "/", ⟨1, 10⟩⟩, ⟨.endOfLine, "\n", ⟨1, 11⟩⟩, ⟨.symbol .less, "<", ⟨2, 1⟩⟩,
    ⟨Lexeme.real ['2'] ['5', '0'], "2.50", ⟨2, 2⟩⟩, ⟨.endOfFile, "", ⟨2, 10⟩⟩]

def spacedSlashes : List (Token × List Char) :=
  slashTokens.dropLast.map fun t => (t, [' ', '\u3000'])

theorem tokenize_slashes : tokenize slashes = .ok slashTokens ∧
    ∃ again, tokenize
        "Si \u3000\"//\" \u3000/ \u3000/ \u3000\n \u3000< \u30002.50 \u3000" = .ok again ∧
      again.map (·.kind) = slashTokens.map (·.kind) ∧
        again.map (·.text) = slashTokens.map (·.text) := by
  have htokens : tokenize slashes = .ok slashTokens := by decide +kernel
  have htext : String.ofList (written spacedSlashes) =
      "Si \u3000\"//\" \u3000/ \u3000/ \u3000\n \u3000< \u30002.50 \u3000" := by
    decide +kernel
  have hprinted : spacedSlashes.map (·.1) = slashTokens.dropLast := by
    rw [spacedSlashes, List.map_map]
    exact List.map_id _
  have hblank : ∀ c ∈ [' ', '\u3000'], Text.isBlank c = true :=
    List.forall_mem_cons.2 ⟨by decide, List.forall_mem_singleton.2 (by decide)⟩
  have hspacing : Spacing [' ', '\u3000'] := ⟨by simp, hblank, by decide, by decide⟩
  rw [← htext]
  exact ⟨htokens, tokenize_written htokens hprinted (List.forall_mem_map.2 fun _ _ => hspacing)⟩

end Seudocodigo
