/-! Places in a program text, with lines and columns counted from one, and reading a text from its
start while keeping the place. -/
namespace Seudocodigo

structure Location where
  line : Nat
  column : Nat
deriving DecidableEq, Repr

namespace Location

def start : Location := ⟨1, 1⟩

def next (p : Location) (c : Char) : Location :=
  if c = '\n' then ⟨p.line + 1, 1⟩ else ⟨p.line, p.column + 1⟩

def after (p : Location) (cs : List Char) : Location := cs.foldl next p

@[simp] theorem after_nil (p : Location) : p.after [] = p := rfl

@[simp] theorem after_cons (p : Location) (c : Char) (cs : List Char) :
    p.after (c :: cs) = (p.next c).after cs := rfl

theorem after_append (p : Location) (cs ds : List Char) :
    p.after (cs ++ ds) = (p.after cs).after ds := List.foldl_append ..

def text (p : Location) : String := s!"line {p.line}, column {p.column}"

end Location

/-- What is left to read of a text, and where it starts in the whole. -/
structure SourceText where
  rest : List Char
  location : Location

namespace SourceText

def ofString (s : String) : SourceText := ⟨s.toList, .start⟩

def current (t : SourceText) : Option Char := t.rest.head?

def peek (t : SourceText) : Option Char := t.rest[1]?

def atEnd (t : SourceText) : Bool := t.rest.isEmpty

def advance : SourceText → SourceText
  | ⟨[], p⟩ => ⟨[], p⟩
  | ⟨c :: cs, p⟩ => ⟨cs, p.next c⟩

/-- Passing `n` characters moves the place over exactly these characters. -/
theorem advance_iterate (n : Nat) (t : SourceText) :
    Nat.repeat advance n t = ⟨t.rest.drop n, t.location.after (t.rest.take n)⟩ := by
  induction n with
  | zero => rfl
  | succ n ih =>
    rw [Nat.repeat, ih]
    rcases h : t.rest.drop n with _ | ⟨c, cs⟩
    · have hl : t.rest.length ≤ n := List.drop_eq_nil_iff.1 h
      simp [advance, List.take_of_length_le hl, List.take_of_length_le (Nat.le_succ_of_le hl),
        List.drop_eq_nil_of_le (Nat.le_succ_of_le hl)]
    · have hn : n < t.rest.length := by
        have := congrArg List.length h
        simp only [List.length_drop, List.length_cons] at this
        omega
      have hc := List.drop_eq_getElem_cons hn
      rw [h] at hc
      obtain ⟨rfl, rfl⟩ := List.cons.inj hc
      rw [List.take_succ_eq_append_getElem hn, Location.after_append]
      rfl

end SourceText
end Seudocodigo
