import Seudocodigo.Proofs.Grammar.Program
import Seudocodigo.Proofs.InStep.Program

/-! Blank lines. What a program is, or what is wrong with it, depends on the kinds of its tokens and
on where its lines end, but not on how many ends of lines follow one another, and not on places. -/
namespace Seudocodigo

def squeeze : List TokenKind → List TokenKind
  | [] => []
  | [k] => [k]
  | k :: l :: ks =>
    if k = .endOfLine ∧ l = .endOfLine then squeeze (l :: ks) else k :: squeeze (l :: ks)

theorem squeeze_cons {k : TokenKind} (h : k ≠ .endOfLine) (ks : List TokenKind) :
    squeeze (k :: ks) = k :: squeeze ks := by
  cases ks with
  | nil => rfl
  | cons l ks => rw [squeeze, if_neg fun hk => h hk.1]

theorem head?_squeeze (k : TokenKind) (ks : List TokenKind) :
    (squeeze (k :: ks)).head? = some k := by
  induction ks generalizing k with
  | nil => rfl
  | cons l ks ih =>
    rw [squeeze]
    split
    · next h => rw [ih, h.1, h.2]
    · rfl

/-- Nothing is squeezed across the first token that is no end of a line. -/
theorem squeeze_dropWhile (ks : List TokenKind) :
    squeeze (ks.dropWhile (· = .endOfLine)) = (squeeze ks).dropWhile (· = .endOfLine) := by
  induction ks with
  | nil => rfl
  | cons k ks ih =>
    by_cases hk : k = .endOfLine
    · subst hk
      rw [List.dropWhile_cons_of_pos (by simp), ih]
      cases ks with
      | nil => rfl
      | cons l ks =>
        rw [squeeze]
        split
        · rfl
        · rw [List.dropWhile_cons_of_pos (by simp)]
    · rw [List.dropWhile_cons_of_neg (by simpa using hk), squeeze_cons hk,
        List.dropWhile_cons_of_neg (by simpa using hk)]

/-- The kinds of tokens, without ends of lines at the beginning and with only one in any other
place. -/
def layout (ts : List Token) : List TokenKind :=
  squeeze ((ts.map (·.kind)).dropWhile (· = .endOfLine))

namespace Cursor

def outline (c : Cursor) : List TokenKind := squeeze (c.tokens.map (·.kind))

theorem kind_of_outline {c d : Cursor} (h : c.outline = d.outline) :
    c.current.kind = d.current.kind := by
  have hhead := congrArg List.head? h
  rw [outline, outline, tokens, tokens, List.map_cons, List.map_cons, head?_squeeze,
    head?_squeeze] at hhead
  exact Option.some.inj hhead

theorem outline_advance {c : Cursor} (hline : c.current.kind ≠ .endOfLine)
    (hend : c.atEnd = false) : c.outline = c.current.kind :: c.advance.outline := by
  rw [outline, tokens_advance hend, List.map_cons, squeeze_cons hline, outline]

theorem outline_skipLineEnds (c : Cursor) :
    c.skipLineEnds.outline = c.outline.dropWhile (· = .endOfLine) := by
  rw [outline, tokens_skipLineEnds, outline, ← squeeze_dropWhile, List.dropWhile_map]
  rfl

theorem outline_skipLineEnds_ofTokens {t : Token} (ht : t.kind = .endOfFile) (ts : List Token) :
    (ofTokens (ts ++ [t])).skipLineEnds.outline = layout (ts ++ [t]) := by
  rw [outline_skipLineEnds, outline, tokens_ofTokens_append ht, layout, squeeze_dropWhile]

end Cursor

/-- Places with the same outline behind them. No place counts. -/
def sameOutline : Likeness where
  Like c d := c.outline = d.outline
  hidden := 0
  place _ := .start
  kind := Cursor.kind_of_outline
  location _ := rfl
  advance {c d} h hline := by
    refine .inr ?_
    have hkind := Cursor.kind_of_outline h
    have hends : d.atEnd = c.atEnd := by rw [Cursor.atEnd, Cursor.atEnd, hkind]
    cases hend : c.atEnd with
    | true => rwa [Cursor.advance_of_atEnd hend, Cursor.advance_of_atEnd (hends.trans hend)]
    | false =>
      rw [Cursor.outline_advance hline hend,
        Cursor.outline_advance (hkind ▸ hline) (hends.trans hend)] at h
      exact (List.cons.inj h).2
  skipLineEnds {c d} h := by
    refine .inr ?_
    rw [Cursor.outline_skipLineEnds, Cursor.outline_skipLineEnds, h]

namespace Program

def unplaced (p : Program) : Program := p.relocate fun _ => .start

open Parse

theorem outcome_parse_skipLineEnds (c : Cursor) :
    parse.outcome c = parse.outcome c.skipLineEnds := by
  rw [parse, outcome_skipLineEnds_bind, outcome_skipLineEnds_bind,
    Cursor.skipLineEnds_of_kind c.skipLineEnds_current]

/-- Texts of the same layout are both programs, with the same but for places, or both not, and for
the same reason. -/
theorem ofTokens_layout {ts us : List Token} {t u : Token} (ht : t.kind = .endOfFile)
    (hu : u.kind = .endOfFile) (h : layout (ts ++ [t]) = layout (us ++ [u])) :
    (∃ p q, ofTokens (ts ++ [t]) = .ok p ∧ ofTokens (us ++ [u]) = .ok q ∧
        p.unplaced = q.unplaced) ∨
      ∃ d e, ofTokens (ts ++ [t]) = .error d ∧ ofTokens (us ++ [u]) = .error e ∧
        d.found = e.found ∧ d.expected = e.expected ∧ d.reason = e.reason := by
  have hlike : sameOutline.Like (Cursor.ofTokens (ts ++ [t])).skipLineEnds
      (Cursor.ofTokens (us ++ [u])).skipLineEnds := by
    show Cursor.outline _ = Cursor.outline _
    rw [Cursor.outline_skipLineEnds_ofTokens ht, Cursor.outline_skipLineEnds_ofTokens hu, h]
  have hends := (Likeness.keeps_program _ _).ends
    ⟨hlike, Nat.lt_succ_self _, Nat.lt_succ_self _⟩
  have hresult := hends.result_eq (Nat.succ_pos _)
  rw [← outcome_parse_skipLineEnds, ← outcome_parse_skipLineEnds] at hresult
  obtain ⟨p, q, hp, hq, hpq⟩ | ⟨d, e, hd, he, hde⟩ := Likeness.result_eq_result hresult
  · exact .inl ⟨p, q, hp, hq, hpq⟩
  · exact .inr ⟨d, e, hd, he, SyntaxError.eq_of_relocate hde⟩

def dense : List Token :=
  [TokenKind.keyword .vars, .endOfLine, .keyword .inicio, .endOfLine, .word "x", .symbol .arrow,
    .integer 1, .endOfLine, .keyword .fin].map fun kind => ⟨kind, kind.text, .start⟩

def sparse : List Token :=
  [TokenKind.endOfLine, .keyword .vars, .endOfLine, .endOfLine, .keyword .inicio, .endOfLine,
    .word "x", .symbol .arrow, .integer 1, .endOfLine, .endOfLine, .endOfLine,
    .keyword .fin].mapIdx fun i kind => ⟨kind, "", ⟨1, i + 1⟩⟩

theorem ofTokens_dense_sparse : ∃ p q,
    ofTokens (dense ++ [.endOfFile .start]) = .ok p ∧
      ofTokens (sparse ++ [.endOfFile ⟨2, 1⟩]) = .ok q ∧ p.unplaced = q.unplaced := by
  have hdense : ∃ p, ofTokens (dense ++ [.endOfFile .start]) = .ok p := ⟨_, rfl⟩
  obtain ⟨p, q, hp, hq, hpq⟩ | ⟨d, e, hd, -⟩ :=
    ofTokens_layout (t := .endOfFile .start) (u := .endOfFile ⟨2, 1⟩) rfl rfl
      (by decide : layout (dense ++ [.endOfFile .start]) = layout (sparse ++ [.endOfFile ⟨2, 1⟩]))
  · exact ⟨p, q, hp, hq, hpq⟩
  · obtain ⟨p, hp⟩ := hdense
    rw [hp] at hd
    cases hd

end Program

end Seudocodigo
