/-! The arguments of the command line. They are read as the library for such arguments documents it:
long and short flags, groups of short ones, and values behind a flag or an equals sign. Nothing but
the command line depends on them. -/
namespace Seudocodigo

structure Options where
  file : String
  /-- Write the tokens first. -/
  tokens : Bool
  /-- Write the graphs at the end. -/
  graph : Bool
  /-- The log filter, where one is given. -/
  log : Option String
deriving DecidableEq, Repr

namespace Options

inductive Halt where
  | help
  | version
  | misuse
deriving DecidableEq, Repr

structure Partial where
  file : Option String
  tokens : Bool
  graph : Bool
  log : Option String

namespace Partial

def empty : Partial := ⟨none, false, false, none⟩

def addFile (p : Partial) (file : String) : Except Halt Partial :=
  if p.file.isSome || file.isEmpty then .error .misuse else .ok { p with file := some file }

def addLog (p : Partial) (filter : String) : Except Halt Partial :=
  if p.log.isSome then .error .misuse else .ok { p with log := some filter }

/-- One short flag. What asks for a text goes before all that follows it. -/
def addFlag (p : Partial) : Char → Except Halt Partial
  | 't' => if p.tokens then .error .misuse else .ok { p with tokens := true }
  | 'g' => if p.graph then .error .misuse else .ok { p with graph := true }
  | 'h' => .error .help
  | 'V' => .error .version
  | _ => .error .misuse

end Partial

def isFlag (arg : String) : Bool :=
  match arg.toList with
  | '-' :: _ :: _ => true
  | _ => false

/-- Reads the arguments one by one. Behind two dashes that stand alone there are only files. -/
def readFrom : Bool → Partial → List String → Except Halt Partial
  | _, p, [] => .ok p
  | true, p, arg :: args => do readFrom true (← p.addFile arg) args
  | false, p, "--" :: args => readFrom true p args
  | false, p, "--tokens" :: args => do readFrom false (← p.addFlag 't') args
  | false, p, "--graph" :: args => do readFrom false (← p.addFlag 'g') args
  | false, p, "--help" :: _ => p.addFlag 'h'
  | false, p, "--version" :: _ => p.addFlag 'V'
  | false, p, "--log" :: filter :: args =>
    if isFlag filter then .error .misuse else do readFrom false (← p.addLog filter) args
  | false, p, arg :: args =>
    match arg.toList with
    | '-' :: '-' :: 'l' :: 'o' :: 'g' :: '=' :: filter => do
      readFrom false (← p.addLog (String.ofList filter)) args
    | '-' :: '-' :: _ => .error .misuse
    | '-' :: c :: cs => do readFrom false (← (c :: cs).foldlM Partial.addFlag p) args
    | _ => do readFrom false (← p.addFile arg) args

def ofArgs (args : List String) : Except Halt Options := do
  let p ← readFrom false Partial.empty args
  match p.file with
  | some file => return ⟨file, p.tokens, p.graph, p.log⟩
  | none => throw .misuse

end Options
end Seudocodigo
