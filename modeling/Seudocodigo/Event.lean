import Seudocodigo.LexicalError
import Seudocodigo.SyntaxError

/-! What is announced while a program is read, and to whom. Listeners to all events hear each of
them before the listeners to its kind, and both in the order in which they came. -/
namespace Seudocodigo

inductive EventKind where
  | parsingStarted
  | lexicalError
  | syntaxError
  | parsingFinished
deriving DecidableEq, Repr

namespace EventKind

def name : EventKind → String
  | .parsingStarted => "parsing-started"
  | .lexicalError => "lexical-error"
  | .syntaxError => "syntax-error"
  | .parsingFinished => "parsing-finished"

def all : List EventKind := [.parsingStarted, .lexicalError, .syntaxError, .parsingFinished]

def ofName? (s : String) : Option EventKind := all.find? (·.name = s)

end EventKind

inductive Event where
  | parsingStarted
  /-- One for each stretch of text that is no token. -/
  | lexicalError (error : LexicalError)
  /-- Ends the parse. -/
  | syntaxError (error : SyntaxError)
  | parsingFinished (success : Bool)
deriving DecidableEq, Repr

namespace Event

def kind : Event → EventKind
  | .parsingStarted => .parsingStarted
  | .lexicalError _ => .lexicalError
  | .syntaxError _ => .syntaxError
  | .parsingFinished _ => .parsingFinished

def text : Event → String
  | .parsingStarted => EventKind.parsingStarted.name
  | .lexicalError e => EventKind.lexicalError.name ++ ":" ++ e.reason.tag
  | .syntaxError e =>
    EventKind.syntaxError.name ++ ":" ++ ((e.reason.map SyntaxReason.tag).getD "-")
  | .parsingFinished success =>
    EventKind.parsingFinished.name ++ ":" ++ if success then "true" else "false"

def message? : Event → Option String
  | .lexicalError e => some e.message
  | .syntaxError e => some e.message
  | .parsingStarted | .parsingFinished _ => none

end Event

/-- Listeners, which act in `m` when they hear an event. -/
structure Emitter (m : Type → Type) where
  any : List (Event → m Unit)
  specific : List (EventKind × (Event → m Unit))

namespace Emitter

variable {m : Type → Type}

def empty : Emitter m := ⟨[], []⟩

def on (e : Emitter m) (kind : EventKind) (listener : Event → m Unit) : Emitter m :=
  { e with specific := e.specific ++ [(kind, listener)] }

def onAny (e : Emitter m) (listener : Event → m Unit) : Emitter m :=
  { e with any := e.any ++ [listener] }

def audience (e : Emitter m) (event : Event) : List (Event → m Unit) :=
  e.any ++ (e.specific.filter (·.1 = event.kind)).map (·.2)

def emit [Monad m] (e : Emitter m) (event : Event) : m Unit :=
  (e.audience event).forM fun listener => listener event

def listenerCount (e : Emitter m) : Nat := e.any.length + e.specific.length

def text (e : Emitter m) : String :=
  "EventEmitter \x7b " ++ s!"any: {e.any.length}, specific: {e.specific.length}" ++ " \x7d"

end Emitter
end Seudocodigo
