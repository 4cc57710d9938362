import Seudocodigo.CommandLine.Options
import Seudocodigo.Compile
import Seudocodigo.FileTree
import Seudocodigo.LogFilter

/-! The command line: what to do with a file, and what to say about it. -/
namespace Seudocodigo

structure Outcome where
  exitCode : Nat
  output : String
  errors : String
deriving DecidableEq, Repr

namespace CommandLine

def lines (ss : List String) : String := String.join (ss.map (· ++ "\n"))

def tokenLine (t : Token) : String :=
  padLeft 4 s!"{t.location.line}" ++ ":" ++ padRight 3 s!"{t.location.column}" ++ " "
    ++ t.kind.text

def tokenLines (source : String) : List String :=
  match tokenize source with
  | .ok tokens => tokens.map tokenLine
  | .error _ => []

def graphLines (p : CompiledProgram) : List String :=
  p.main.listing :: p.modules.toList.map fun m => m.2.listing

def complaints (error : CompileError) (events : List Event) : List String :=
  events.filterMap Event.message? ++
    match error with
    | .lexical errors => [s!"{errors.length} lexical error(s)"]
    | .grammar _ => []
    | .types reports => reports.map Report.text

def compileFile (o : Options) (source : String) : Outcome :=
  let tokens := if o.tokens then tokenLines source else []
  let start := "Compiling " ++ o.file ++ "..."
  match compile source with
  | .error error => ⟨1, lines tokens, lines (start :: complaints error (eventsOf source))⟩
  | .ok p =>
    let graphs := if o.graph then graphLines p else []
    let done := s!"OK: {p.modules.size + 1} module(s), {p.main.graph.size} node(s) in main"
    ⟨0, lines (tokens ++ graphs), lines [start, done]⟩

def usage : String := "Usage: algoritmo [OPTIONS] <FILE>"

def version : String := "algoritmo 0.1.0"

def failure (complaint : String) : Outcome := ⟨1, "", lines ["Error: " ++ complaint]⟩

def directoryComplaint : String :=
  "Os \x7b code: 21, kind: IsADirectory, message: \"Is a directory\" \x7d"

/-- Runs the command line; `find` tells what a path leads to. The log filter is looked at before
the file. -/
def run (args : List String) (find : String → Found) : Outcome :=
  match Options.ofArgs args with
  | .error .help => ⟨0, lines [usage], ""⟩
  | .error .version => ⟨0, lines [version], ""⟩
  | .error .misuse => ⟨2, "", lines [usage]⟩
  | .ok o =>
    match o.log.bind LogFilter.fault? with
    | some fault => failure fault.text
    | none =>
      match find o.file with
      | .nothing => failure ("File '" ++ o.file ++ "' not found")
      | .directory => failure directoryComplaint
      | .file source => compileFile o source

end CommandLine
end Seudocodigo
