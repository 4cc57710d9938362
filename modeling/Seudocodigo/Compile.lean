import Seudocodigo.Event
import Seudocodigo.Module.Flow
import Seudocodigo.Module.Parse
import Seudocodigo.Module.Typing
import Seudocodigo.Token.Scan

/-! From the text of a program to its graphs. What fails first ends the compilation: the tokens, the
grammar or the types. -/
namespace Seudocodigo

inductive CompileError where
  | lexical (errors : List LexicalError)
  | grammar (error : SyntaxError)
  | types (reports : List Report)
deriving DecidableEq, Repr

namespace CompileError

def stage : CompileError → String
  | .lexical _ => "lexical"
  | .grammar _ => "syntax"
  | .types _ => "type"

def message : CompileError → String
  | .lexical errors =>
    s!"{errors.length} lexical error(s); first: " ++ ((errors.head?.map (·.message)).getD "")
  | .grammar error => error.message
  | .types reports =>
    s!"type errors in {reports.length} module(s); first: "
      ++ ((reports.head?.map (·.text)).getD "")

end CompileError

namespace Program

def ofSource (source : String) : Except CompileError Program :=
  match tokenize source with
  | .error errors => .error (.lexical errors)
  | .ok tokens => (ofTokens tokens).mapError .grammar

def compile (p : Program) : Except CompileError CompiledProgram :=
  if p.reports.isEmpty then .ok p.flow else .error (.types p.reports)

def announce {m : Type → Type} [Monad m] (emitter : Emitter m) (source : String) :
    m (Except CompileError Program) := do
  emitter.emit .parsingStarted
  let result := ofSource source
  match result with
  | .error (.lexical errors) => errors.forM fun e => emitter.emit (.lexicalError e)
  | .error (.grammar error) => emitter.emit (.syntaxError error)
  | _ => pure ()
  emitter.emit (.parsingFinished result.toBool)
  return result

end Program

def compile (source : String) : Except CompileError CompiledProgram := do
  let p ← Program.ofSource source
  p.compile

/-- A text without faults is compiled as far as its grammar and its types are in order. -/
theorem compile_cases (source : String) :
    (∃ errors, tokenize source = .error errors ∧ compile source = .error (.lexical errors)) ∨
      ∃ tokens, tokenize source = .ok tokens ∧
        ((∃ e, Program.ofTokens tokens = .error e ∧ compile source = .error (.grammar e)) ∨
          ∃ p, Program.ofTokens tokens = .ok p ∧
            (p.reports = [] ∧ compile source = .ok p.flow ∨
              p.reports ≠ [] ∧ compile source = .error (.types p.reports))) := by
  rw [compile, Program.ofSource]
  cases tokenize source with
  | error errors => exact .inl ⟨errors, rfl, rfl⟩
  | ok tokens =>
    refine .inr ⟨tokens, rfl, ?_⟩
    dsimp only
    cases Program.ofTokens tokens with
    | error e => exact .inl ⟨e, rfl, rfl⟩
    | ok p =>
      refine .inr ⟨p, rfl, ?_⟩
      show _ ∧ p.compile = _ ∨ _ ∧ p.compile = _
      rw [Program.compile]
      cases p.reports with
      | nil => exact .inl ⟨rfl, rfl⟩
      | cons r rs => exact .inr ⟨List.cons_ne_nil r rs, rfl⟩

def compileWith {m : Type → Type} [Monad m] (emitter : Emitter m) (source : String) :
    m (Except CompileError CompiledProgram) := do
  let result ← Program.announce emitter source
  return result >>= Program.compile

def eventsOf (source : String) : List Event :=
  let emitter : Emitter (StateM (List Event)) :=
    Emitter.empty.onAny fun e => modify (· ++ [e])
  ((compileWith emitter source).run []).2

end Seudocodigo
