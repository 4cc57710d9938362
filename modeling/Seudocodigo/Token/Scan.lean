import Seudocodigo.Token.Lexeme

/-! From a program text to its tokens. The scan goes on behind every fault, so that all faults of a
text are found at once. -/
namespace Seudocodigo

structure Scanned where
  token : Token
  error : Option LexicalError
deriving DecidableEq

namespace Scanned

def errorOf (p : Location) (c : Char) (l : Lexeme) (rest : List Char) (f : Fault) : LexicalError :=
  if f.behind then ⟨f.reason, rest.head?, f.expected, p.after l.text⟩
  else ⟨f.reason, some c, f.expected, p⟩

def ofLexeme (p : Location) (c : Char) (l : Lexeme) (rest : List Char) : Scanned :=
  match l.meaning with
  | .ok kind => ⟨⟨kind, String.ofList l.text, p⟩, none⟩
  | .error f => ⟨⟨.unknown, String.ofList l.text, p⟩, some (errorOf p c l rest f)⟩

end Scanned

def scanFrom (p : Location) (cs : List Char) : List Scanned :=
  let q := p.after (splitGap cs).1
  match _h : (splitGap cs).2 with
  | [] => [⟨.endOfFile q, none⟩]
  | d :: ds =>
    let l := Lexeme.read d ds
    let rest := (d :: ds).drop l.text.length
    .ofLexeme q d l rest :: scanFrom (q.after l.text) rest
termination_by cs.length
decreasing_by
  have hl := List.length_pos_iff.2 (Lexeme.read_text_ne_nil d ds)
  have hg := congrArg List.length (splitGap_append cs)
  simp only [List.length_append, _h, List.length_cons] at hg
  simp only [List.length_drop, List.length_cons]
  omega

/-- The tokens of a program. Carriage returns are no part of it, so that only line feeds end
lines. -/
def scan (source : String) : List Scanned :=
  scanFrom .start (source.toList.filter (· ≠ '\r'))

def tokenize (source : String) : Except (List LexicalError) (List Token) :=
  match (scan source).filterMap Scanned.error with
  | [] => .ok ((scan source).map Scanned.token)
  | errors => .error errors

theorem Scanned.ofLexeme_error_isSome (p : Location) (c : Char) (l : Lexeme) (rest : List Char)
    (h : ∀ k, l.meaning = .ok k → k ≠ .unknown) :
    (ofLexeme p c l rest).error.isSome = true ↔
      (ofLexeme p c l rest).token.kind = .unknown := by
  unfold ofLexeme
  split
  · next k hk => simp [h k hk]
  · simp

end Seudocodigo
