import Seudocodigo.SyntaxError
import Seudocodigo.Token.Cursor

/-! Parsers: what reads tokens from a cursor and ends with a result or an error, in either case
with the cursor where it stopped. The first error ends the parse. -/
namespace Seudocodigo

abbrev Parse := ExceptT SyntaxError (StateM Cursor)

namespace Parse

def outcome (p : Parse α) (c : Cursor) : Except SyntaxError α × Cursor := p c

@[simp] theorem outcome_pure (a : α) (c : Cursor) :
    (pure a : Parse α).outcome c = (.ok a, c) := rfl

/-- What comes behind a parser goes on where it stopped, unless it failed. -/
theorem outcome_bind (p : Parse α) (f : α → Parse β) (c : Cursor) :
    (p >>= f).outcome c =
      match p.outcome c with
      | (.ok a, d) => (f a).outcome d
      | (.error e, d) => (.error e, d) := by
  show (ExceptT.bindCont f (p c).1) (p c).2 = _
  unfold outcome
  rcases p c with ⟨e | a, d⟩ <;> rfl

def cursor : Parse Cursor := get

def current : Parse Token := return (← cursor).current

def location : Parse Location := return (← cursor).location

def advance : Parse Token := do
  let c ← cursor
  set c.advance
  return c.current

@[simp] theorem outcome_current (c : Cursor) : current.outcome c = (.ok c.current, c) := rfl

@[simp] theorem outcome_advance (c : Cursor) :
    advance.outcome c = (.ok c.current, c.advance) := rfl

def skipLineEnds : Parse Unit := do
  set (← cursor).skipLineEnds

def fail (expected : List String) (reason : Option SyntaxReason) : Parse α := do
  throw (.ofToken (← current) expected reason)

@[simp] theorem outcome_skipLineEnds (c : Cursor) :
    skipLineEnds.outcome c = (.ok (), c.skipLineEnds) := rfl

@[simp] theorem outcome_fail (expected : List String) (reason : Option SyntaxReason) (c : Cursor) :
    (fail expected reason : Parse α).outcome c = (.error (.ofToken c.current expected reason), c) :=
  rfl

def atKeyword (k : Keyword) : Parse Bool := return (← cursor).atKeyword k

def atSymbol (s : Symbol) : Parse Bool := return (← cursor).atSymbol s

@[simp] theorem outcome_atKeyword (k : Keyword) (c : Cursor) :
    (atKeyword k).outcome c = (.ok (c.atKeyword k), c) := rfl

@[simp] theorem outcome_atSymbol (s : Symbol) (c : Cursor) :
    (atSymbol s).outcome c = (.ok (c.atSymbol s), c) := rfl

def takeKeyword (k : Keyword) : Parse Bool := do
  if ← atKeyword k then
    let _ ← advance
    return true
  else return false

def takeSymbol (s : Symbol) : Parse Bool := do
  if ← atSymbol s then
    let _ ← advance
    return true
  else return false

theorem outcome_takeKeyword (k : Keyword) (c : Cursor) :
    (takeKeyword k).outcome c =
      (.ok (c.atKeyword k), if c.atKeyword k then c.advance else c) := by
  simp only [takeKeyword, outcome_bind, outcome_atKeyword]
  cases c.atKeyword k <;> rfl

theorem outcome_takeSymbol (s : Symbol) (c : Cursor) :
    (takeSymbol s).outcome c =
      (.ok (c.atSymbol s), if c.atSymbol s then c.advance else c) := by
  simp only [takeSymbol, outcome_bind, outcome_atSymbol]
  cases c.atSymbol s <;> rfl

def keyword (k : Keyword) (reason : Option SyntaxReason) : Parse Token := do
  if ← atKeyword k then advance else fail [k.text] reason

def symbol (s : Symbol) (reason : Option SyntaxReason) : Parse Token := do
  if ← atSymbol s then advance else fail [s.text] reason

def word : Parse String := do
  match (← current).kind with
  | .word name =>
    let _ ← advance
    return name
  | _ => fail ["word"] none

def atom : Parse Atom := do
  match (← current).kind.atom? with
  | some a =>
    let _ ← advance
    return a
  | none => fail ["entero", "real", "logico", "caracter"] none

/-- The line has to end here, or the file. Blank lines behind the end are passed as well. -/
def lineEnd : Parse Unit := do
  let c ← cursor
  if c.atEnd then return ()
  else if c.atLineEnd then skipLineEnds
  else
    fail ["end of line"] (if c.atSymbol .rightParen then some .mismatchedParenthesis else none)

/-- A bound on the steps of a parser that passes a token in each of them. -/
def budget : Parse Nat := return (← cursor).rest.length + 1

def commaList (item : Parse α) : Nat → Parse (List α)
  | 0 => fail [] none
  | n + 1 => do
    let x ← item
    if ← takeSymbol .comma then
      let xs ← commaList item n
      return x :: xs
    else return [x]

end Parse
end Seudocodigo
