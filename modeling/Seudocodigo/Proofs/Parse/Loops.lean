import Seudocodigo.Proofs.Parse.Local

/-! Loops of parsers round by round. There is no bound on the number of rounds, but a loop with
rounds that pass a token unless they leave it has no more of them than there are tokens. -/
namespace Seudocodigo
namespace Parse

/-- Parsers with the same outcome everywhere are equal. -/
theorem eq_of_outcome {α : Type} {p q : Parse α} (h : ∀ c, p.outcome c = q.outcome c) : p = q :=
  funext h

/-- What comes of a round: the loop is left with a result, or it goes on with other values of its
variables. -/
inductive Round (σ α : Type) where
  | leave (a : α)
  | again (s : σ)

variable {σ α β : Type}

def Round.next (p : σ → Parse α) : Round σ α → Parse α
  | .leave a => pure a
  | .again s => p s

/-- From the given values of its variables and the given place a loop comes to the given outcome in
so many rounds. -/
inductive Runs (round : σ → Parse (Round σ α)) :
    Nat → σ → Cursor → Except SyntaxError α × Cursor → Prop where
  | leave {s : σ} {a : α} {c d : Cursor} :
    (round s).outcome c = (.ok (.leave a), d) → Runs round 1 s c (.ok a, d)
  | fail {s : σ} {e : SyntaxError} {c d : Cursor} :
    (round s).outcome c = (.error e, d) → Runs round 1 s c (.error e, d)
  | again {n : Nat} {s t : σ} {c d : Cursor} {r : Except SyntaxError α × Cursor} :
    (round s).outcome c = (.ok (.again t), d) → Runs round n t d r → Runs round (n + 1) s c r

def loopWithin (round : σ → Parse (Round σ α)) : Nat → σ → Parse α
  | 0, _ => fail [] none
  | n + 1, s => round s >>= Round.next (loopWithin round n)

def loop (round : σ → Parse (Round σ α)) (s : σ) : Parse α := do
  loopWithin round (← budget) s

theorem Runs.unique {round : σ → Parse (Round σ α)} {n m : Nat} {s : σ} {c : Cursor}
    {r q : Except SyntaxError α × Cursor} (h : Runs round n s c r) (k : Runs round m s c q) :
    n = m ∧ r = q := by
  induction h generalizing m with
  | leave h | fail h =>
    cases k with
    | leave k | fail k | again k => cases h.symm.trans k <;> exact ⟨rfl, rfl⟩
  | again h _ ih =>
    cases k with
    | leave k | fail k => cases h.symm.trans k
    | again k hk =>
      cases h.symm.trans k
      obtain ⟨rfl, rfl⟩ := ih hk
      exact ⟨rfl, rfl⟩

/-- A round that passes a token unless the loop is left. -/
def Progresses (p : Parse (Round σ α)) : Prop :=
  ∀ ⦃c t d⦄, p.outcome c = (.ok (.again t), d) → d.rest.length < c.rest.length

namespace Progresses

theorem of_passing {p : Parse (Round σ α)} (h : p.Passing) : p.Progresses := fun _ _ _ hp => h hp

theorem leave (a : α) : (pure (.leave a) : Parse (Round σ α)).Progresses :=
  fun _ _ _ h => by cases h

theorem fail (expected : List String) (reason : Option SyntaxReason) :
    (Parse.fail expected reason : Parse (Round σ α)).Progresses := fun _ _ _ h => by cases h

theorem ite {p q : Parse (Round σ α)} {P : Prop} [Decidable P] (hp : p.Progresses)
    (hq : q.Progresses) : (if P then p else q).Progresses := by
  split
  · exact hp
  · exact hq

theorem behind {p : Parse β} {f : β → Parse (Round σ α)} (h : p.Forward)
    (hf : ∀ b, (f b).Progresses) : (p >>= f).Progresses := by
  intro c t d hd
  obtain ⟨b, e, hp, hd⟩ := outcome_bind_ok hd
  exact Nat.lt_of_lt_of_le (hf b hd) (h.length_le hp)

theorem takeSymbol_bind {s : Symbol} {f : Bool → Parse (Round σ α)} (ht : (f true).Forward)
    (hf : (f false).Progresses) : (takeSymbol s >>= f).Progresses := by
  intro c t d hd
  rw [outcome_takeSymbol_bind] at hd
  split at hd
  · next hs =>
    have hlen := Cursor.length_rest_advance (Cursor.atEnd_of_atSymbol hs)
    have := ht.length_le hd
    omega
  · exact hf hd

/-- A round of which the first step passes a token. -/
theorem before {p : Parse β} {f : β → Parse (Round σ α)} (h : p.Passing) (hf : ∀ b, (f b).Forward) :
    (p >>= f).Progresses :=
  of_passing (h.bind hf)

end Progresses

section Loop

variable {round : σ → Parse (Round σ α)} (h : ∀ s, (round s).Progresses)

include h

/-- A parser in which one step of the budget is one round of the loop runs the loop to its end, when
the budget is more than the tokens left. -/
theorem exists_runs {p : Nat → σ → Parse α}
    (hp : ∀ n s c, c.rest.length ≤ n →
      (p (n + 1) s).outcome c = (round s >>= Round.next (p n)).outcome c)
    {n : Nat} {s : σ} {c : Cursor} (hn : c.rest.length < n) :
    ∃ m ≤ c.rest.length + 1, Runs round m s c ((p n s).outcome c) := by
  induction n generalizing s c with
  | zero => cases hn
  | succ n ih =>
    rw [hp n s c (Nat.le_of_lt_succ hn), outcome_bind]
    cases hround : (round s).outcome c with
    | mk result d =>
      cases result with
      | error e => exact ⟨1, Nat.succ_le_succ (Nat.zero_le _), .fail hround⟩
      | ok next =>
        cases next with
        | leave a => exact ⟨1, Nat.succ_le_succ (Nat.zero_le _), .leave hround⟩
        | again t =>
          have hlt := h s hround
          obtain ⟨m, hm, hruns⟩ := ih (s := t) (c := d) (Nat.lt_of_lt_of_le hlt (Nat.le_of_lt_succ hn))
          exact ⟨m + 1, Nat.succ_le_succ (Nat.le_trans hm hlt), .again hround hruns⟩

theorem exists_runs_loop (s : σ) (c : Cursor) :
    ∃ m ≤ c.rest.length + 1, Runs round m s c ((loop round s).outcome c) := by
  rw [loop, outcome_budget_bind]
  exact exists_runs h (p := loopWithin round) (fun _ _ _ _ => rfl) (Nat.lt_succ_self _)

/-- Such a parser is the loop. -/
theorem outcome_eq_loop {p : Nat → σ → Parse α}
    (hp : ∀ n s c, c.rest.length ≤ n →
      (p (n + 1) s).outcome c = (round s >>= Round.next (p n)).outcome c)
    {n : Nat} {s : σ} {c : Cursor} (hn : c.rest.length < n) :
    (p n s).outcome c = (loop round s).outcome c := by
  obtain ⟨m, -, hruns⟩ := exists_runs h hp (s := s) hn
  obtain ⟨k, -, hloop⟩ := exists_runs_loop h s c
  exact (hruns.unique hloop).2

end Loop

/-! Items with commas between them. -/

def commaRound (item : Parse α) (xs : List α) : Parse (Round (List α) (List α)) := do
  let x ← item
  if ← takeSymbol .comma then return .again (xs ++ [x]) else return .leave (xs ++ [x])

theorem forward_commaRound {item : Parse α} (h : item.Forward) (xs : List α) :
    (commaRound item xs).Forward :=
  h.bind fun _ => (Forward.takeSymbol _).bind fun _ => .ite (.pure _) (.pure _)

theorem progresses_commaRound {item : Parse α} (h : item.Forward) (xs : List α) :
    (commaRound item xs).Progresses := by
  refine .behind h fun x => .takeSymbol_bind ?_ ?_
  · exact .pure _
  · exact .leave _

theorem commaList_eq_loop {item : Parse α} (h : item.Forward) {n : Nat} {c : Cursor}
    (hn : c.rest.length < n) :
    (commaList item n).outcome c = (loop (commaRound item) []).outcome c := by
  refine Eq.trans ?_ (outcome_eq_loop (progresses_commaRound h)
    (p := fun n xs => do return xs ++ (← commaList item n)) (fun n xs c _ => ?_) hn)
  · simp
  · simp only [commaList, commaRound, bind_assoc]
    refine outcome_bind_congr rfl fun x d _ => ?_
    simp only [outcome_takeSymbol_bind]
    split
    · simp only [if_true, pure_bind, bind_assoc, Round.next, List.append_assoc,
        List.singleton_append]
    · simp only [Bool.false_eq_true, if_false, pure_bind, Round.next]

def parenthesized (list : Parse (List α)) : Parse (List α) := do
  let _ ← symbol .leftParen none
  if ← takeSymbol .rightParen then return []
  else
    let xs ← list
    let _ ← symbol .rightParen (some .mismatchedParenthesis)
    return xs

def bracketed (list : Parse (List α)) : Parse (List α) := do
  if ← takeSymbol .leftBracket then
    let xs ← list
    let _ ← symbol .rightBracket none
    return xs
  else return []

section Lists

variable {p q : Parse (List α)} {c : Cursor}

theorem parenthesized_congr
    (h : ∀ d : Cursor, d.rest.length < c.rest.length → p.outcome d = q.outcome d) :
    (parenthesized p).outcome c = (parenthesized q).outcome c := by
  rw [parenthesized, parenthesized, outcome_symbol_bind, outcome_symbol_bind]
  split
  · next hopen =>
    have hlen := Cursor.length_rest_advance (Cursor.atEnd_of_atSymbol hopen)
    rw [outcome_takeSymbol_bind, outcome_takeSymbol_bind]
    split
    · rfl
    · exact outcome_bind_congr (h _ (by omega)) fun _ _ _ => rfl
  · rfl

theorem bracketed_congr
    (h : ∀ d : Cursor, d.rest.length < c.rest.length → p.outcome d = q.outcome d) :
    (bracketed p).outcome c = (bracketed q).outcome c := by
  rw [bracketed, bracketed, outcome_takeSymbol_bind, outcome_takeSymbol_bind]
  split
  · next hopen =>
    have hlen := Cursor.length_rest_advance (Cursor.atEnd_of_atSymbol hopen)
    exact outcome_bind_congr (h _ (by omega)) fun _ _ _ => rfl
  · rfl

theorem length_lt_of_bracketed (hp : p.Forward) (hc : c.atSymbol .leftBracket = true) {xs : List α}
    {d : Cursor} (h : (bracketed p).outcome c = (.ok xs, d)) : d.rest.length < c.rest.length := by
  have hlen := Cursor.length_rest_advance (Cursor.atEnd_of_atSymbol hc)
  rw [bracketed, outcome_takeSymbol_bind, if_pos hc] at h
  have := (hp.bind fun _ => (Forward.symbol _ _).bind fun _ => .pure _).length_le h
  omega

end Lists

end Parse
end Seudocodigo
