import Seudocodigo.Token

/-! Reading a list of tokens from the left. The list is closed by an end of file, which the cursor
never passes, so there is always a current token. -/
namespace Seudocodigo

/-- The last of a token and its followers is an end of file. -/
def Sealed : Token → List Token → Prop
  | t, [] => t.kind = .endOfFile
  | _, u :: us => Sealed u us

structure Cursor where
  current : Token
  rest : List Token
  isSealed : Sealed current rest

namespace Cursor

@[ext] theorem ext {c d : Cursor} (hc : c.current = d.current) (hr : c.rest = d.rest) : c = d := by
  cases c; cases d; cases hc; cases hr; rfl

/-- The followers of a token with the end of file they may lack. It stands at the place of the
token before it. -/
def close : Token → List Token → List Token
  | t, [] => if t.kind = .endOfFile then [] else [.endOfFile t.location]
  | _, u :: us => u :: close u us

theorem close_sealed (t : Token) (ts : List Token) : Sealed t (close t ts) := by
  induction ts generalizing t with
  | nil =>
    unfold close
    split
    · assumption
    · rfl
  | cons u us ih => exact ih u

theorem close_of_sealed {t : Token} {ts : List Token} (h : Sealed t ts) : close t ts = ts := by
  induction ts generalizing t with
  | nil => exact if_pos h
  | cons u us ih => exact congrArg (u :: ·) (ih h)

def ofTokens : List Token → Cursor
  | [] => ⟨.endOfFile .start, [], rfl⟩
  | t :: ts => ⟨t, close t ts, close_sealed t ts⟩

def location (c : Cursor) : Location := c.current.location

/-- The token `n` places ahead, the last one when there are fewer. -/
def peek (c : Cursor) (n : Nat) : Token :=
  ((c.current :: c.rest)[n]?).getD ((c.current :: c.rest).getLast (by simp))

def atEnd (c : Cursor) : Bool := c.current.kind = .endOfFile

def atLineEnd (c : Cursor) : Bool :=
  c.current.kind = .endOfLine || c.current.kind = .endOfFile

def atKeyword (c : Cursor) (k : Keyword) : Bool := c.current.kind = .keyword k

def atSymbol (c : Cursor) (s : Symbol) : Bool := c.current.kind = .symbol s

def advance : Cursor → Cursor
  | ⟨t, [], h⟩ => ⟨t, [], h⟩
  | ⟨t, u :: us, h⟩ => if t.kind = .endOfFile then ⟨t, u :: us, h⟩ else ⟨u, us, h⟩

def skipLineEnds : Cursor → Cursor
  | ⟨t, ts, h⟩ => skip t ts h
where
  skip (t : Token) : (ts : List Token) → Sealed t ts → Cursor
    | [], h => ⟨t, [], h⟩
    | u :: us, h => if t.kind = .endOfLine then skip u us h else ⟨t, u :: us, h⟩

theorem advance_of_atEnd {c : Cursor} (h : c.atEnd = true) : c.advance = c := by
  obtain ⟨t, ts, hs⟩ := c
  cases ts with
  | nil => rfl
  | cons u us => exact if_pos (of_decide_eq_true h)

/-- Before the end of the file, advancing leaves one token less. -/
theorem length_rest_advance {c : Cursor} (h : c.atEnd = false) :
    c.advance.rest.length + 1 = c.rest.length := by
  obtain ⟨t, ts, hs⟩ := c
  cases ts with
  | nil =>
    have : t.kind ≠ .endOfFile := of_decide_eq_false h
    exact absurd hs this
  | cons u us =>
    have : t.kind ≠ .endOfFile := of_decide_eq_false h
    simp [advance, this]

theorem length_rest_advance_le (c : Cursor) : c.advance.rest.length ≤ c.rest.length := by
  cases h : c.atEnd with
  | true => simp [advance_of_atEnd h]
  | false => have := length_rest_advance h; omega

theorem skipLineEnds_current (c : Cursor) : c.skipLineEnds.current.kind ≠ .endOfLine := by
  obtain ⟨t, ts, h⟩ := c
  induction ts generalizing t with
  | nil =>
    have : t.kind = .endOfFile := h
    simp [skipLineEnds, skipLineEnds.skip, this]
  | cons u us ih =>
    simp only [skipLineEnds, skipLineEnds.skip]
    split
    · exact ih u h
    · assumption

end Cursor
end Seudocodigo
