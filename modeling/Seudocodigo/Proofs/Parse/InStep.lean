import Seudocodigo.Proofs.Parse.Reads
import Seudocodigo.Proofs.Relocation

/-! Two texts read at the same time, by parsers that go in step: from places that are alike they
come to places that are alike, with the same results but for the places noted in them. -/
namespace Seudocodigo

namespace Cursor

/-- The ends of lines that follow one another here are gone from the tokens. -/
theorem tokens_skipLineEnds (c : Cursor) :
    c.skipLineEnds.tokens = c.tokens.dropWhile (·.kind = .endOfLine) := by
  obtain ⟨ts, hts, hends⟩ := c.passes_skipLineEnds
  rw [hts.1, List.dropWhile_append_of_pos fun t ht => decide_eq_true (hends t ht), tokens,
    List.dropWhile_cons_of_neg (by simpa using c.skipLineEnds_current)]

end Cursor

open Parse

/-- A way in which places of two texts can be alike. -/
structure Likeness where
  Like : Cursor → Cursor → Prop
  /-- With no more tokens left than these, the first text is out of sight. -/
  hidden : Nat
  /-- What counts of a place. -/
  place : Location → Location
  kind : ∀ {c d}, Like c d → c.current.kind = d.current.kind
  location : ∀ {c d}, Like c d → place c.location = place d.location
  advance : ∀ {c d}, Like c d → c.current.kind ≠ .endOfLine →
    c.advance.tokens.length ≤ hidden ∨ Like c.advance d.advance
  skipLineEnds : ∀ {c d}, Like c d →
    c.skipLineEnds.tokens.length ≤ hidden ∨ Like c.skipLineEnds d.skipLineEnds

namespace Likeness

variable (L : Likeness)

structure Within (n m : Nat) (c d : Cursor) : Prop where
  like : L.Like c d
  left : c.rest.length < n
  right : d.rest.length < m

structure At (k : TokenKind) (n m : Nat) (c d : Cursor) : Prop extends L.Within n m c d where
  current : c.current.kind = k

variable {α β γ δ : Type}

/-- The first text has gone out of sight, or both have been read with results in which the same
counts, and wherever they were accepted the places that were come to are related. -/
inductive Ends (Q : Cursor → Cursor → Prop) (g : α → γ) :
    Except SyntaxError α × Cursor → Except SyntaxError α × Cursor → Prop where
  | hidden {r : Except SyntaxError α} {c : Cursor} {s : Except SyntaxError α × Cursor} :
    c.tokens.length ≤ L.hidden → Ends Q g (r, c) s
  | ok {a b : α} {c d : Cursor} : g a = g b → Q c d → Ends Q g (.ok a, c) (.ok b, d)
  | error {e f : SyntaxError} {c d : Cursor} : e.relocate L.place = f.relocate L.place →
    L.Like c d → Ends Q g (.error e, c) (.error f, d)

/-- The parsers move forward only, and from places related by `P` they come to places related by
`Q`. Of a result `a` counts `g a`. -/
structure InStep (P Q : Cursor → Cursor → Prop) (g : α → γ) (p q : Parse α) : Prop where
  left : p.Forward
  right : q.Forward
  ends : ∀ {c d}, P c d → L.Ends Q g (p.outcome c) (q.outcome d)

def Keeps (g : α → γ) (p q : Parse α) : Prop :=
  ∀ n m, L.InStep (L.Within n m) (L.Within n m) g p q

def Takes (g : α → γ) (p q : Parse α) : Prop :=
  ∀ n m, L.InStep (L.Within n m) (L.Within (n - 1) (m - 1)) g p q

end Likeness

/-! All parsers move forward that the ones below are made of. -/
namespace Parse.Forward

theorem skipLineEnds : Parse.skipLineEnds.Forward := fun c => by
  obtain ⟨ts, hts, -⟩ := c.passes_skipLineEnds
  exact ⟨ts, hts⟩

theorem lineEnd : Parse.lineEnd.Forward := by
  refine Forward.bind (of_stays fun _ => rfl) fun c => ?_
  exact ite (pure _) (ite skipLineEnds (fail _ _))

theorem keyword (k : Keyword) (reason : Option SyntaxReason) : (Parse.keyword k reason).Forward :=
  Forward.bind (of_stays fun _ => rfl) fun _ => ite advance (fail _ _)

theorem takeKeyword (k : Keyword) : (Parse.takeKeyword k).Forward :=
  Forward.bind (of_stays fun _ => rfl) fun _ => ite (advance.bind fun _ => pure _) (pure _)

theorem word : Parse.word.Forward := by
  refine current.bind fun t => ?_
  split
  · exact advance.bind fun _ => pure _
  · exact fail _ _

theorem atom : Parse.atom.Forward := by
  refine current.bind fun t => ?_
  split
  · exact advance.bind fun _ => pure _
  · exact fail _ _

end Parse.Forward

namespace Likeness

variable {L : Likeness} {α β γ δ : Type} {P Q R : Cursor → Cursor → Prop} {g : α → γ} {k : β → δ}
  {p q : Parse α} {n m : Nat} {c d : Cursor}

theorem Within.mono (h : L.Within n m c d) {n' m' : Nat} (hn : n ≤ n') (hm : m ≤ m') :
    L.Within n' m' c d :=
  ⟨h.like, by have := h.left; omega, by have := h.right; omega⟩

theorem Ends.mono {Q' : Cursor → Cursor → Prop} {r s : Except SyntaxError α × Cursor}
    (h : L.Ends Q g r s) (hQ : ∀ {c d}, r.2 = c → s.2 = d → Q c d → Q' c d) :
    L.Ends Q' g r s := by
  cases h with
  | hidden h => exact .hidden h
  | ok hg hc => exact .ok hg (hQ rfl rfl hc)
  | error he hc => exact .error he hc

namespace InStep

theorem mono {P' Q' : Cursor → Cursor → Prop} (h : L.InStep P Q g p q)
    (hP : ∀ {c d}, P' c d → P c d) (hQ : ∀ {c d}, Q c d → Q' c d) : L.InStep P' Q' g p q where
  left := h.left
  right := h.right
  ends hc := (h.ends (hP hc)).mono fun _ _ => hQ

theorem forAt (h : L.InStep (L.Within n m) Q g p q) {kind : TokenKind} :
    L.InStep (L.At kind n m) Q g p q :=
  h.mono At.toWithin id

/-- What goes in step within some bounds may have passed a token. -/
theorem behind (h : L.InStep (L.Within n m) Q g p q) :
    L.InStep (L.Within (n - 1) (m - 1)) Q g p q :=
  h.mono (fun hc => hc.mono (Nat.sub_le n 1) (Nat.sub_le m 1)) id

theorem loosen (h : L.InStep P (L.Within (n - 1) (m - 1)) g p q) :
    L.InStep P (L.Within n m) g p q :=
  h.mono id fun hc => hc.mono (Nat.sub_le n 1) (Nat.sub_le m 1)

/-- Parsers that go in step within some bounds do so within narrower ones. -/
theorem narrow (h : L.InStep (L.Within n m) (L.Within n m) g p q) {n' m' : Nat} (hn : n' ≤ n)
    (hm : m' ≤ m) : L.InStep (L.Within n' m') (L.Within n' m') g p q where
  left := h.left
  right := h.right
  ends {c d} hc := by
    refine (h.ends (hc.mono hn hm)).mono fun {c' d'} hc' hd' hlike => ?_
    have hl := h.left.length_le (Prod.ext rfl hc' : p.outcome c = (_, c'))
    have hr := h.right.length_le (Prod.ext rfl hd' : q.outcome d = (_, d'))
    exact ⟨hlike.like, Nat.lt_of_le_of_lt hl hc.left, Nat.lt_of_le_of_lt hr hc.right⟩

/-- What parsers in step are followed by goes on in step. -/
theorem bind {f f' : α → Parse β} (h : L.InStep P Q g p q)
    (hf : ∀ a b, g a = g b → L.InStep Q R k (f a) (f' b)) :
    L.InStep P R k (p >>= f) (q >>= f') where
  left := h.left.bind fun a => (hf a a rfl).left
  right := h.right.bind fun a => (hf a a rfl).right
  ends {c d} hc := by
    rw [outcome_bind, outcome_bind]
    have hends := h.ends hc
    generalize p.outcome c = r at hends
    generalize q.outcome d = s at hends
    cases hends with
    | @hidden r c' s hhidden =>
      cases r with
      | error e => exact .hidden hhidden
      | ok a =>
        have hle := (hf a a rfl).left.length_le (rfl : (f a).outcome c' = (_, _))
        exact .hidden (Nat.le_trans (Nat.succ_le_succ hle) hhidden)
    | ok hg hq => exact (hf _ _ hg).ends hq
    | error he hlike => exact .error he hlike

theorem pure {a b : α} (h : g a = g b) :
    L.InStep P P g (Pure.pure a) (Pure.pure b) where
  left := .pure a
  right := .pure b
  ends hc := .ok h hc

theorem map {f f' : α → β} (h : L.InStep P Q g p q) (hf : ∀ a b, g a = g b → k (f a) = k (f' b)) :
    L.InStep P Q k (p >>= fun a => Pure.pure (f a)) (q >>= fun a => Pure.pure (f' a)) :=
  h.bind fun a b hab => .pure (hf a b hab)

end InStep

theorem Takes.keeps (h : L.Takes g p q) : L.Keeps g p q := fun n m => (h n m).loosen

theorem keeps_budget {p q : Nat → Parse α}
    (h : ∀ n m, L.InStep (L.Within n m) (L.Within n m) g (p n) (q m)) :
    L.Keeps g (budget >>= p) (budget >>= q) := fun n m =>
  { left := Forward.budget.bind fun n => (h n n).left
    right := Forward.budget.bind fun n => (h n n).right
    ends := fun {c d} hc => by
      rw [outcome_budget_bind, outcome_budget_bind]
      have hnow : L.Within (c.rest.length + 1) (d.rest.length + 1) c d :=
        ⟨hc.like, Nat.lt_succ_self _, Nat.lt_succ_self _⟩
      exact ((h _ _).ends hnow).mono fun _ _ hlike => hlike.mono hc.left hc.right }

/-- Parsers with a budget for their steps go in step, whatever the budgets, if a step does behind
which they go in step with what is left of them. -/
theorem inStep_of_step {ι : Type} {S : ι → ι → Prop} (p q : Nat → ι → Parse α)
    (zero : ∀ i j, S i j → (p 0 i).Forward ∧ (q 0 j).Forward)
    (step : ∀ n m, (∀ i j, S i j → L.InStep (L.Within n m) (L.Within n m) g (p n i) (q m j)) →
      ∀ i j, S i j →
        L.InStep (L.Within (n + 1) (m + 1)) (L.Within (n + 1) (m + 1)) g (p (n + 1) i) (q (m + 1) j))
    (n m : Nat) {i j : ι} (hij : S i j) :
    L.InStep (L.Within n m) (L.Within n m) g (p n i) (q m j) := by
  have hsame (n : Nat) :
      ∀ i j, S i j → L.InStep (L.Within n n) (L.Within n n) g (p n i) (q n j) := by
    induction n with
    | zero => exact fun i j hij => ⟨(zero i j hij).1, (zero i j hij).2, fun hc => nomatch hc.left⟩
    | succ n ih => exact step n n ih
  induction n generalizing m i j with
  | zero => exact ⟨(hsame 0 i j hij).left, (hsame m i j hij).right, fun hc => nomatch hc.left⟩
  | succ n ih =>
    cases m with
    | zero => exact ⟨(hsame _ i j hij).left, (hsame 0 i j hij).right, fun hc => nomatch hc.right⟩
    | succ m => exact step n m (fun i j hij => ih m hij) i j hij

/-! What all parsers are made of. -/

theorem inStep_fail (g : α → γ) (expected : List String) (reason : Option SyntaxReason) :
    L.InStep (L.Within n m) Q g (fail expected reason) (fail expected reason) where
  left := .fail _ _
  right := .fail _ _
  ends hc := by
    refine .error ?_ hc.like
    rw [SyntaxError.ofToken, SyntaxError.ofToken, L.kind hc.like, SyntaxError.relocate,
      SyntaxError.relocate]
    exact congrArg (SyntaxError.mk _ _ · _) (L.location hc.like)

theorem inStep_location (hP : ∀ {c d}, P c d → L.Like c d) :
    L.InStep P P L.place Parse.location Parse.location where
  left := .location
  right := .location
  ends hc := .ok (L.location (hP hc)) hc

theorem keeps_location : L.Keeps L.place Parse.location Parse.location :=
  fun _ _ => inStep_location Within.like

theorem current_bind {f f' : Token → Parse β}
    (hf : ∀ t u : Token, t.kind = u.kind → L.place t.location = L.place u.location →
      L.InStep (L.At t.kind n m) R k (f t) (f' u)) :
    L.InStep (L.Within n m) R k (current >>= f) (current >>= f') where
  left := Forward.current.bind fun t => (hf t t rfl rfl).left
  right := Forward.current.bind fun t => (hf t t rfl rfl).right
  ends hc := by
    rw [outcome_current_bind, outcome_current_bind]
    exact (hf _ _ (L.kind hc.like) (L.location hc.like)).ends ⟨hc, rfl⟩

/-- Passing a token that is neither the end of a line nor that of the file. -/
theorem Within.advance (h : L.Within n m c d) (hline : c.current.kind ≠ .endOfLine)
    (hend : c.current.kind ≠ .endOfFile) :
    c.advance.tokens.length ≤ L.hidden ∨ L.Within (n - 1) (m - 1) c.advance d.advance := by
  refine (L.advance h.like hline).imp_right fun hlike => ⟨hlike, ?_, ?_⟩
  · have hl := Cursor.length_rest_advance (Cursor.atEnd_eq_false rfl hend)
    have := h.left
    omega
  · have hl := Cursor.length_rest_advance (Cursor.atEnd_eq_false (L.kind h.like).symm hend)
    have := h.right
    omega

theorem inStep_advance {kind : TokenKind} (hline : kind ≠ .endOfLine) (hend : kind ≠ .endOfFile) :
    L.InStep (L.At kind n m) (L.Within (n - 1) (m - 1)) (fun t : Token => L.place t.location)
      Parse.advance Parse.advance where
  left := .advance
  right := .advance
  ends hc := by
    obtain ⟨hc, rfl⟩ := hc
    rw [outcome_advance, outcome_advance]
    exact (hc.advance hline hend).elim .hidden (.ok (L.location hc.like))

theorem advance_bind {kind : TokenKind} {f f' : Token → Parse β} (hline : kind ≠ .endOfLine)
    (hend : kind ≠ .endOfFile) (hf : ∀ t u : Token, L.place t.location = L.place u.location →
      L.InStep (L.Within (n - 1) (m - 1)) R k (f t) (f' u)) :
    L.InStep (L.At kind n m) R k (Parse.advance >>= f) (Parse.advance >>= f') :=
  (inStep_advance hline hend).bind hf

theorem takes_word : L.Takes id word word := fun _ _ => by
  refine current_bind fun t u htu _ => ?_
  rw [← htu]
  split
  · next name hname =>
    rw [hname]
    exact (inStep_advance (by simp) (by simp)).map fun _ _ _ => rfl
  · exact (inStep_fail id _ _).forAt

theorem takes_atom : L.Takes id atom atom := fun _ _ => by
  refine current_bind fun t u htu _ => ?_
  rw [← htu]
  split
  · next a ha =>
    refine (inStep_advance (fun hk => ?_) (TokenKind.ne_endOfFile_of_atom? ha)).map fun _ _ _ => rfl
    rw [hk] at ha
    cases ha
  · exact (inStep_fail id _ _).forAt

/-- A test of the current token, which is passed if it is the one in question. -/
theorem take_bind {p : Parse Bool} (kind : TokenKind) {f f' : Bool → Parse β}
    (hp : ∀ c, p.outcome c =
      (.ok (decide (c.current.kind = kind)), if c.current.kind = kind then c.advance else c))
    (hforward : p.Forward) (hline : kind ≠ .endOfLine) (hend : kind ≠ .endOfFile)
    (ht : L.InStep (L.Within (n - 1) (m - 1)) R k (f true) (f' true))
    (hf : L.InStep (L.Within n m) R k (f false) (f' false)) :
    L.InStep (L.Within n m) R k (p >>= f) (p >>= f') where
  left := hforward.bind fun b => by cases b <;> first | exact ht.left | exact hf.left
  right := hforward.bind fun b => by cases b <;> first | exact ht.right | exact hf.right
  ends {c d} hc := by
    rw [outcome_bind_of_ok (hp c), outcome_bind_of_ok (hp d), ← L.kind hc.like]
    by_cases hk : c.current.kind = kind
    · rw [decide_eq_true hk, if_pos hk, if_pos hk]
      refine (hc.advance (hk ▸ hline) (hk ▸ hend)).elim (fun hhidden => .hidden ?_) ht.ends
      have hle := ht.left.length_le (rfl : (f true).outcome c.advance = (_, _))
      exact Nat.le_trans (Nat.succ_le_succ hle) hhidden
    · rw [decide_eq_false hk, if_neg hk, if_neg hk]
      exact hf.ends hc

theorem takeSymbol_bind {s : Symbol} {f f' : Bool → Parse β}
    (ht : L.InStep (L.Within (n - 1) (m - 1)) R k (f true) (f' true))
    (hf : L.InStep (L.Within n m) R k (f false) (f' false)) :
    L.InStep (L.Within n m) R k (takeSymbol s >>= f) (takeSymbol s >>= f') := by
  refine take_bind (.symbol s) (fun c => ?_) (.takeSymbol s) (by simp) (by simp) ht hf
  rw [outcome_takeSymbol]
  by_cases h : c.current.kind = .symbol s <;> simp [Cursor.atSymbol, h]

theorem takeKeyword_bind {w : Keyword} {f f' : Bool → Parse β}
    (ht : L.InStep (L.Within (n - 1) (m - 1)) R k (f true) (f' true))
    (hf : L.InStep (L.Within n m) R k (f false) (f' false)) :
    L.InStep (L.Within n m) R k (takeKeyword w >>= f) (takeKeyword w >>= f') := by
  refine take_bind (.keyword w) (fun c => ?_) (.takeKeyword w) (by simp) (by simp) ht hf
  rw [outcome_takeKeyword]
  by_cases h : c.current.kind = .keyword w <;> simp [Cursor.atKeyword, h]

theorem keeps_takeKeyword (w : Keyword) :
    L.Keeps id (takeKeyword w) (takeKeyword w) := fun _ _ => by
  rw [← bind_pure (takeKeyword w)]
  exact takeKeyword_bind (.loosen (.pure rfl)) (.pure rfl)

theorem takes_expected (kind : TokenKind) (hline : kind ≠ .endOfLine) (hend : kind ≠ .endOfFile)
    (expected : List String) (reason : Option SyntaxReason) {p : Parse Token}
    (hp : p = current >>= fun t => if t.kind = kind then Parse.advance else fail expected reason) :
    L.Takes (fun t => L.place t.location) p p := fun _ _ => by
  subst hp
  refine current_bind fun t u htu _ => ?_
  rw [← htu]
  split
  · next hk => exact inStep_advance (hk ▸ hline) (hk ▸ hend)
  · exact (inStep_fail _ _ _).forAt

theorem takes_symbol (s : Symbol) (reason : Option SyntaxReason) :
    L.Takes (fun t => L.place t.location) (symbol s reason) (symbol s reason) := by
  refine takes_expected (.symbol s) (by simp) (by simp) [s.text] reason (funext fun c => ?_)
  show (symbol s reason).outcome c = outcome _ c
  rw [outcome_symbol, outcome_current_bind]
  by_cases h : c.current.kind = .symbol s <;> simp [Cursor.atSymbol, h]

theorem takes_keyword (w : Keyword) (reason : Option SyntaxReason) :
    L.Takes (fun t => L.place t.location) (keyword w reason) (keyword w reason) := by
  refine takes_expected (.keyword w) (by simp) (by simp) [w.text] reason (funext fun c => ?_)
  show (keyword w reason).outcome c = outcome _ c
  rw [outcome_keyword, outcome_current_bind]
  by_cases h : c.current.kind = .keyword w <;> simp [Cursor.atKeyword, h]

theorem atSymbol_bind {s : Symbol} {f f' : Bool → Parse β}
    (hf : ∀ b, L.InStep (L.Within n m) R k (f b) (f' b)) :
    L.InStep (L.Within n m) R k (atSymbol s >>= f) (atSymbol s >>= f') where
  left := .bind (.atSymbol s) fun b => (hf b).left
  right := .bind (.atSymbol s) fun b => (hf b).right
  ends {c d} hc := by
    have hs : c.atSymbol s = d.atSymbol s := by
      rw [Cursor.atSymbol, L.kind hc.like, Cursor.atSymbol]
    rw [outcome_atSymbol_bind, outcome_atSymbol_bind, hs]
    exact (hf _).ends hc

theorem keeps_skipLineEnds : L.Keeps id Parse.skipLineEnds Parse.skipLineEnds := fun _ _ =>
  { left := .skipLineEnds
    right := .skipLineEnds
    ends := fun {c d} hc => by
      rw [outcome_skipLineEnds, outcome_skipLineEnds]
      refine (L.skipLineEnds hc.like).elim .hidden fun hlike => .ok rfl ⟨hlike, ?_, ?_⟩
      · exact Nat.lt_of_le_of_lt (Forward.skipLineEnds.length_le (outcome_skipLineEnds c)) hc.left
      · exact Nat.lt_of_le_of_lt (Forward.skipLineEnds.length_le (outcome_skipLineEnds d)) hc.right }

theorem lineEnd_eq : lineEnd = current >>= fun t =>
    if t.kind = .endOfFile then Pure.pure ()
    else if t.kind = .endOfLine then Parse.skipLineEnds
    else fail ["end of line"]
      (if t.kind = .symbol .rightParen then some .mismatchedParenthesis else none) := by
  funext c
  show lineEnd.outcome c = outcome _ c
  rw [lineEnd, outcome_cursor_bind, outcome_current_bind]
  simp only [Cursor.atEnd, Cursor.atLineEnd, Cursor.atSymbol, Bool.or_eq_true, decide_eq_true_eq]
  split
  · rfl
  · next hend => simp only [hend, or_false]

theorem keeps_lineEnd : L.Keeps id lineEnd lineEnd := fun n m => by
  rw [lineEnd_eq]
  refine current_bind fun t u htu _ => ?_
  rw [← htu]
  split
  · exact (InStep.pure rfl).forAt
  · split
    · exact (keeps_skipLineEnds n m).forAt
    · exact (inStep_fail _ _ _).forAt

/-- Lists of items with commas between them. -/
theorem InStep.commaList {item item' : Parse α}
    (h : L.InStep (L.Within n m) (L.Within n m) g item item') :
    L.InStep (L.Within n m) (L.Within n m) (List.map g) (Parse.commaList item n)
      (Parse.commaList item' m) := by
  induction n generalizing m with
  | zero =>
    exact ⟨.commaList h.left _, .commaList h.right _, fun hc => nomatch hc.left⟩
  | succ n ih =>
    cases m with
    | zero => exact ⟨.commaList h.left _, .commaList h.right _, fun hc => nomatch hc.right⟩
    | succ m =>
      refine h.bind fun a b hab => takeSymbol_bind ?_ ?_
      · refine ((ih (h.narrow (Nat.le_succ n) (Nat.le_succ m))).map fun as bs habs => ?_).loosen
        rw [List.map_cons, List.map_cons, hab, habs]
      · exact .pure (by rw [List.map_cons, List.map_cons, hab])

def result (L : Likeness) (g : α → γ) : Except SyntaxError α → Except SyntaxError γ
  | .ok a => .ok (g a)
  | .error e => .error (e.relocate L.place)

theorem result_eq_result {x y : Except SyntaxError α} (h : L.result g x = L.result g y) :
    (∃ a b, x = .ok a ∧ y = .ok b ∧ g a = g b) ∨
      ∃ d e, x = .error d ∧ y = .error e ∧ d.relocate L.place = e.relocate L.place := by
  cases x with
  | ok a =>
    cases y with
    | ok b => exact .inl ⟨a, b, rfl, rfl, Except.ok.inj h⟩
    | error e => cases h
  | error d =>
    cases y with
    | ok b => cases h
    | error e => exact .inr ⟨d, e, rfl, rfl, Except.error.inj h⟩

theorem inStep_lift {x y : Except SyntaxError α} (h : L.result g x = L.result g y) :
    L.InStep (L.Within n m) (L.Within n m) g (liftM x) (liftM y) where
  left := .of_stays fun _ => by cases x <;> rfl
  right := .of_stays fun _ => by cases y <;> rfl
  ends hc := by
    obtain ⟨a, b, rfl, rfl, hab⟩ | ⟨d, e, rfl, rfl, hde⟩ := result_eq_result h
    · exact .ok hab hc
    · exact .error hde hc.like

/-- What the parsers come to as long as the first text is in sight. -/
theorem Ends.result_eq {r s : Except SyntaxError α × Cursor} (h : L.Ends Q g r s)
    (hsight : L.hidden < r.2.tokens.length) : L.result g r.1 = L.result g s.1 := by
  cases h with
  | hidden hhidden => exact absurd hhidden (Nat.not_le.2 hsight)
  | ok hg => exact congrArg Except.ok hg
  | error he => exact congrArg Except.error he

theorem Ends.like {r s : Except SyntaxError α × Cursor} (h : L.Ends (L.Within n m) g r s)
    (hsight : L.hidden < r.2.tokens.length) : L.Like r.2 s.2 := by
  cases h with
  | hidden hhidden => exact absurd hhidden (Nat.not_le.2 hsight)
  | ok _ hwithin => exact hwithin.like
  | error _ hlike => exact hlike

end Likeness

end Seudocodigo
