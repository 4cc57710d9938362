import Seudocodigo.Module
import Seudocodigo.Statement.Parse

/-! Parsing declarations, modules and whole programs. -/
namespace Seudocodigo

namespace Variable

open Parse

/-- Dimensions behind dimensions that give the stated number of cells, in at most the given number
of steps. -/
def dimensionList (cells : Nat) : Nat → Parse (List Nat)
  | 0 => fail ["positive integer"] none
  | n + 1 => do
    match (← current).kind with
    | .integer len =>
      if len ≤ 0 then fail ["positive integer"] none
      else
        match cellsWithin? cells len.toNat with
        | none => fail ["smaller dimensions"] (some .arrayTooLarge)
        | some cells =>
          let _ ← advance
          if ← takeSymbol .comma then
            let dims ← dimensionList cells n
            return len.toNat :: dims
          else return [len.toNat]
    | _ => fail ["positive integer"] none

def parseDimensions : Parse (List Nat) := do
  if ← takeSymbol .leftBracket then
    let dims ← dimensionList 1 (← budget)
    let _ ← symbol .rightBracket none
    return dims
  else return []

def parseDeclared (a : Atom) : Parse Variable := do
  let p ← Parse.location
  let name ← word
  let dims ← parseDimensions
  return ⟨name, a, dims, false, p⟩

def parseParameter : Parse Variable := do
  let p ← Parse.location
  let byReference ← takeKeyword .ref
  let a ← Parse.atom
  let name ← word
  let dims ← parseDimensions
  return ⟨name, a, dims, byReference, p⟩

def parseParameters : Parse (List Variable) := do
  let _ ← symbol .leftParen none
  if ← takeSymbol .rightParen then return []
  else
    let vs ← commaList parseParameter (← budget)
    let _ ← symbol .rightParen (some .mismatchedParenthesis)
    return vs

end Variable

namespace Statement

open Parse

def parseDeclaration : Parse Statement := do
  let p ← location
  let a ← atom
  let vs ← commaList (Variable.parseDeclared a) (← budget)
  return .declaration vs p

def declarationsWithin : Nat → Parse (List Statement)
  | 0 => return []
  | n + 1 => do
    skipLineEnds
    if (← current).kind.atom?.isSome then
      let d ← parseDeclaration
      lineEnd
      let ds ← declarationsWithin n
      return d :: ds
    else return []

def parseDeclarations : Parse (List Statement) := do
  declarationsWithin (← budget)

end Statement

namespace Module

open Parse

def parseBody (closer : Keyword) (e : BlockEnd) : Parse (List Statement) := do
  let declarations ← Statement.parseDeclarations
  let _ ← keyword .inicio (some .missingInicio)
  lineEnd
  let statements ← Statement.parseBlock e
  let _ ← keyword closer (some e.missing)
  return declarations ++ statements

def declareParameters (parameters : List Variable) (p : Location) : List Statement :=
  if parameters.isEmpty then [] else [.declaration parameters p]

def parseMain : Parse Module := do
  let first ← advance
  lineEnd
  let body ← parseBody .fin .mainBody
  return ⟨mainName, .main, [], body, first.location⟩

def parseProcedure : Parse Module := do
  let first ← advance
  let name ← word
  let parameters ← Variable.parseParameters
  lineEnd
  let body ← parseBody .finprocedimiento .procedureBody
  return ⟨name, .procedure, parameters, declareParameters parameters first.location ++ body,
    first.location⟩

def parseFunction (returns : Atom) : Parse Module := do
  let first ← advance
  let _ ← keyword .funcion none
  let name ← word
  let parameters ← Variable.parseParameters
  lineEnd
  let body ← parseBody .finfuncion .functionBody
  return ⟨name, .function returns, parameters,
    declareParameters parameters first.location ++ body, first.location⟩

def parse : Parse Module := do
  let t ← current
  match t.kind, t.kind.atom? with
  | .keyword .vars, _ => parseMain
  | .keyword .procedimiento, _ => parseProcedure
  | _, some returns => parseFunction returns
  | _, none => fail ["variables", "procedimiento", "funcion"] none

end Module

namespace Program

open Parse

/-- Adds a module that begins with the given token to those before it. There is one main module,
and the other names are all different and not taken by the language. -/
def addModule (first : Token) (m : Module) (main : Option Module) (subprograms : List Module) :
    Except SyntaxError (Option Module × List Module) :=
  if m.kind = .main then
    if main.isSome then
      .error (.ofToken first ["procedimiento", "funcion"] (some .duplicateMain))
    else .ok (some m, subprograms)
  else if m.name = Module.mainName || Module.isBuiltin m.name
      || subprograms.any (·.name = m.name) then
    .error (.ofToken first ["unique module name"] (some .duplicateModule))
  else .ok (main, subprograms ++ [m])

def modulesWithin : Nat → Option Module → List Module → Parse Program
  | 0, _, _ => fail ["variables"] (some .missingMain)
  | n + 1, main, subprograms => do
    let c ← cursor
    if c.atEnd then
      match main with
      | some main => return ⟨main, subprograms⟩
      | none => fail ["variables"] (some .missingMain)
    else
      let m ← Module.parse
      lineEnd
      let (main, subprograms) ← addModule c.current m main subprograms
      modulesWithin n main subprograms

def parse : Parse Program := do
  skipLineEnds
  modulesWithin (← budget) none []

/-- The program that a list of tokens spells, up to its first end of file. -/
def ofTokens (tokens : List Token) : Except SyntaxError Program :=
  (parse.outcome (.ofTokens tokens)).1

end Program
end Seudocodigo
