import Seudocodigo.Proofs.Grammar.Program
import Seudocodigo.Proofs.InStep.Program

/-! What a parser reads is up to the tokens from where it begins to where it stops. What stands
behind that has no influence. -/
namespace Seudocodigo

/-- Places before the same tokens, one at least, behind which the texts go on as stated. -/
def sameUpTo (xs ys : List Token) : Likeness where
  Like c d := ∃ ts ≠ [], c.tokens = ts ++ xs ∧ d.tokens = ts ++ ys
  hidden := xs.length
  place := id
  kind {c d} := by
    rintro ⟨_ | ⟨t, ts⟩, hts, hc, hd⟩
    · exact absurd rfl hts
    · rw [(List.cons.inj hc).1, (List.cons.inj hd).1]
  location {c d} := by
    rintro ⟨_ | ⟨t, ts⟩, hts, hc, hd⟩
    · exact absurd rfl hts
    · rw [Cursor.location, Cursor.location, (List.cons.inj hc).1, (List.cons.inj hd).1]
  advance {c d} := by
    rintro ⟨_ | ⟨t, ts⟩, hts, hc, hd⟩ -
    · exact absurd rfl hts
    · have hsame : d.atEnd = c.atEnd := by
        rw [Cursor.atEnd, Cursor.atEnd, (List.cons.inj hc).1, (List.cons.inj hd).1]
      cases hend : c.atEnd with
      | true =>
        rw [Cursor.advance_of_atEnd hend, Cursor.advance_of_atEnd (hsame.trans hend)]
        exact .inr ⟨t :: ts, hts, hc, hd⟩
      | false =>
        have hc' := (List.cons.inj ((Cursor.tokens_advance hend).symm.trans hc)).2
        have hd' := (List.cons.inj ((Cursor.tokens_advance (hsame.trans hend)).symm.trans hd)).2
        cases ts with
        | nil => exact .inl (Nat.le_of_eq (congrArg List.length hc'))
        | cons u us => exact .inr ⟨u :: us, by simp, hc', hd'⟩
  skipLineEnds {c d} := by
    rintro ⟨ts, hts, hc, hd⟩
    rw [Cursor.tokens_skipLineEnds, hc, List.dropWhile_append]
    split
    · exact .inl (List.dropWhile_suffix _).length_le
    · next hne =>
      refine .inr ⟨ts.dropWhile (·.kind = .endOfLine), by simpa using hne, rfl, ?_⟩
      rw [Cursor.tokens_skipLineEnds, hd, List.dropWhile_append, if_neg hne]

namespace Cursor

def closed (ts : List Token) : List Token := (ofTokens ts).tokens

theorem closed_cons (t : Token) (ts : List Token) : closed (t :: ts) = t :: close t ts := rfl

/-- A list that ends with an end of file is left as it is, and any other gets one. -/
theorem closed_concat (ts : List Token) (t : Token) :
    closed (ts ++ [t]) = ts ++ t :: close t [] := by
  cases ts with
  | nil => rfl
  | cons u us =>
    rw [List.cons_append, closed_cons, List.cons_append]
    refine congrArg (u :: ·) ?_
    induction us generalizing u with
    | nil => rfl
    | cons v vs ih => exact congrArg (v :: ·) (ih v)

theorem exists_closed_eq_append (ts : List Token) : ∃ rest, closed ts = ts ++ rest := by
  obtain rfl | ⟨us, u, rfl⟩ := List.eq_nil_or_concat ts
  · exact ⟨closed [], rfl⟩
  · rw [List.concat_eq_append, closed_concat]
    exact ⟨close u [], by simp⟩

theorem ofTokens_injective {ts us : List Token} (h : closed ts = closed us) :
    ofTokens ts = ofTokens us := tokens_injective h

end Cursor

namespace Program

open Parse Cursor

theorem forward_parse : parse.Forward :=
  (Likeness.keeps_program (L := sameUpTo [] []) 0 0).left

def stop (ts : List Token) : Nat :=
  (closed ts).length - (parse.outcome (.ofTokens ts)).2.tokens.length

theorem passes_stop (ts : List Token) : ∃ passed, passed.length = stop ts ∧
    (Cursor.ofTokens ts).Passes passed (parse.outcome (.ofTokens ts)).2 := by
  obtain ⟨passed, h⟩ := forward_parse (.ofTokens ts)
  have htokens : closed ts = passed ++ _ := h.1
  exact ⟨passed, by rw [stop, htokens, List.length_append, Nat.add_sub_cancel], h⟩

/-- Lists that agree up to the token before which the parser stops are read alike. -/
theorem ofTokens_eq_of_take {ts us : List Token}
    (h : (closed us).take (stop ts + 1) = (closed ts).take (stop ts + 1)) :
    ofTokens us = ofTokens ts ∧ stop us = stop ts := by
  obtain ⟨passed, hpassed, hpasses⟩ := passes_stop ts
  generalize hd : (parse.outcome (.ofTokens ts)).2 = d at hpasses
  have hts : closed ts = passed ++ [d.current] ++ d.rest := by
    rw [List.append_assoc]
    exact hpasses.1
  have hlen : (passed ++ [d.current]).length = stop ts + 1 := by
    rw [List.length_append, hpassed, List.length_singleton]
  have hus : closed us = passed ++ [d.current] ++ (closed us).drop (stop ts + 1) := by
    rw [hts, List.take_left' hlen] at h
    rw [← h, List.take_append_drop]
  have hlike : (sameUpTo d.rest _).Like (.ofTokens ts) (.ofTokens us) :=
    ⟨passed ++ [d.current], by simp, hts, hus⟩
  have hends := (Likeness.keeps_program _ _).ends ⟨hlike, Nat.lt_succ_self _, Nat.lt_succ_self _⟩
  have hsight : d.rest.length < (parse.outcome (.ofTokens ts)).2.tokens.length := by
    rw [hd]
    exact Nat.lt_succ_self _
  constructor
  · obtain ⟨p, q, hp, hq, hpq⟩ | ⟨e, f, he, hf, hef⟩ :=
      Likeness.result_eq_result (hends.result_eq hsight)
    · obtain rfl : p = q := by rw [← p.relocate_id, ← q.relocate_id]; exact hpq
      exact hq.trans hp.symm
    · obtain rfl : e = f := hef
      exact hf.trans he.symm
  · obtain ⟨now, -, hnow, hnow'⟩ := hends.like hsight
    rw [hd] at hnow
    have hone := congrArg List.length hnow
    have hus' := congrArg List.length hus
    rw [stop, hnow']
    simp only [List.length_append, List.length_cons, length_tokens] at hone hus' hlen ⊢
    omega

/-- The parser stops at the first end of the file, if it has not stopped before. -/
theorem stop_le {ts before after : List Token} {t : Token} (h : closed ts = before ++ t :: after)
    (ht : t.kind = .endOfFile) : stop ts ≤ before.length := by
  obtain ⟨passed, hpassed, htokens, hkinds⟩ := passes_stop ts
  rw [← hpassed]
  refine Nat.le_of_not_lt fun hlt => hkinds t ?_ ht
  have hget : (closed ts)[before.length]? = some t := by rw [h]; simp
  rw [show closed ts = passed ++ _ from htokens, List.getElem?_append_left hlt] at hget
  exact List.mem_of_getElem? hget

/-- What follows an end of the file has no influence. -/
theorem ofTokens_behind_end {ts before after : List Token} {t : Token}
    (h : closed ts = before ++ t :: after) (ht : t.kind = .endOfFile) (others : List Token) :
    ofTokens (before ++ t :: others) = ofTokens ts := by
  have hts : closed ts = before ++ [t] ++ after := by simp [h]
  obtain ⟨rest, hrest⟩ := exists_closed_eq_append (before ++ t :: others)
  have hothers : closed (before ++ t :: others) = before ++ [t] ++ (others ++ rest) := by
    simp [hrest]
  have hle : stop ts + 1 ≤ (before ++ [t]).length := by
    rw [List.length_append, List.length_singleton]
    exact Nat.succ_le_succ (stop_le h ht)
  refine (ofTokens_eq_of_take ?_).1
  rw [hts, hothers, List.take_append_of_le_length hle, List.take_append_of_le_length hle]

/-- Where a list lacks an end of the file one is read all the same, at the place of the last
token. -/
theorem ofTokens_concat {ts : List Token} (h : ∀ t ∈ ts, t.kind ≠ .endOfFile) :
    ofTokens (ts ++ [.endOfFile ((ts.getLast?.map (·.location)).getD .start)]) = ofTokens ts := by
  refine congrArg (fun c => (parse.outcome c).1) (ofTokens_injective ?_)
  rw [closed_concat]
  obtain rfl | ⟨us, u, rfl⟩ := List.eq_nil_or_concat ts
  · rfl
  · rw [List.concat_eq_append, closed_concat, List.getLast?_append]
    have hu : u.kind ≠ .endOfFile := h u (by simp)
    simp [close, hu, Token.endOfFile]

/-- The parser never looks past where it stops: lists that agree up to there are read alike. It
stops at the first end of the file at the latest, what follows that has no influence, and a list
without any is read as if one stood at the place of its last token. -/
theorem ofTokens_shortsighted (ts : List Token) :
    (parse.outcome (.ofTokens ts)).2.tokens = (closed ts).drop (stop ts) ∧
    (∀ us, (closed us).take (stop ts + 1) = (closed ts).take (stop ts + 1) →
      ofTokens us = ofTokens ts ∧ stop us = stop ts) ∧
    (∀ before t after, closed ts = before ++ t :: after → t.kind = .endOfFile →
      stop ts ≤ before.length ∧ ∀ others, ofTokens (before ++ t :: others) = ofTokens ts) ∧
    ((∀ t ∈ ts, t.kind ≠ .endOfFile) →
      ofTokens (ts ++ [.endOfFile ((ts.getLast?.map (·.location)).getD .start)]) = ofTokens ts) := by
  refine ⟨?_, fun us h => ofTokens_eq_of_take h, fun before t after h ht =>
    ⟨stop_le h ht, ofTokens_behind_end h ht⟩, ofTokens_concat⟩
  obtain ⟨passed, hpassed, hpasses⟩ := passes_stop ts
  rw [← hpassed, show closed ts = passed ++ _ from hpasses.1, List.drop_left]

def misplacedEnd : List Token :=
  [⟨.keyword .vars, "variables", ⟨1, 1⟩⟩, ⟨.endOfLine, "\n", ⟨1, 10⟩⟩,
    ⟨.keyword .fin, "fin", ⟨2, 1⟩⟩]

theorem ofTokens_misplacedEnd :
    let file : Token := .endOfFile ⟨2, 1⟩
    let name : Token := ⟨.word "x", "x", ⟨2, 5⟩⟩
    stop misplacedEnd = 2 ∧
      ofTokens (misplacedEnd ++ [name]) = ofTokens misplacedEnd ∧
      ofTokens (misplacedEnd ++ [file, name]) = ofTokens misplacedEnd ∧
      ofTokens (misplacedEnd ++ [file]) = ofTokens misplacedEnd := by
  obtain ⟨-, hagree, hend, hopen⟩ := ofTokens_shortsighted misplacedEnd
  intro file name
  have hstop : stop misplacedEnd = 2 := by rfl
  refine ⟨hstop, (hagree _ ?_).1, (hend misplacedEnd file [] rfl rfl).2 [name], hopen (by decide)⟩
  rw [hstop]
  rfl

end Program

end Seudocodigo
