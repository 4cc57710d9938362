import Seudocodigo.Expression.Parse
import Seudocodigo.Statement

/-! Parsing statements. Each stands on lines of its own; blocks of them end with a reserved word. -/
namespace Seudocodigo

/-- How a block ends: the words that may close it, and the reason to give where it ends without. -/
structure BlockEnd where
  closers : List Keyword
  missing : SyntaxReason

namespace BlockEnd

def thenBranch : BlockEnd := ⟨[.sino, .finsi], .missingFinsi⟩
def elseBranch : BlockEnd := ⟨[.finsi], .missingFinsi⟩
def whileBody : BlockEnd := ⟨[.finmientras], .missingFinmientras⟩
def untilBody : BlockEnd := ⟨[.hasta], .missingHasta⟩
def countingBody : BlockEnd := ⟨[.finpara], .missingFinpara⟩
def mainBody : BlockEnd := ⟨[.fin], .missingFin⟩
def functionBody : BlockEnd := ⟨[.finfuncion], .missingFinfuncion⟩
def procedureBody : BlockEnd := ⟨[.finprocedimiento], .missingFinprocedimiento⟩

end BlockEnd

namespace Statement

open Parse

def parseAssignment : Parse Assignment := do
  let p ← location
  let target ← Access.parse
  let _ ← symbol .arrow (some .badAssignmentOperator)
  let value ← Expression.parse
  return ⟨target, value, p⟩

def parseCall : Parse Call := do
  let p ← location
  let name ← word
  let args ← Expression.parseArguments
  return ⟨name, args, p⟩

/-! The statements that open a block, from their first word on. `block` parses the blocks in
them. -/

def parseElse (block : BlockEnd → Parse (List Statement)) : Parse (List Statement) := do
  if ← takeKeyword .sino then
    lineEnd
    block .elseBranch
  else return []

def parseConditional (block : BlockEnd → Parse (List Statement)) : Parse Statement := do
  let first ← advance
  let condition ← Expression.parse
  let _ ← keyword .entonces (some .missingEntonces)
  lineEnd
  let thenBranch ← block .thenBranch
  let elseBranch ← parseElse block
  let _ ← keyword .finsi (some .missingFinsi)
  return .conditional condition thenBranch elseBranch first.location

def parseNonempty (body : Parse (List Statement)) : Parse (List Statement) := do
  let ss ← body
  if ss.isEmpty then fail ["statement"] (some .emptyLoopBody) else return ss

def parseWhile (block : BlockEnd → Parse (List Statement)) : Parse Statement := do
  let first ← advance
  let condition ← Expression.parse
  lineEnd
  let body ← parseNonempty (block .whileBody)
  let _ ← keyword .finmientras (some .missingFinmientras)
  return .whileLoop condition body first.location

def parseUntil (block : BlockEnd → Parse (List Statement)) : Parse Statement := do
  let first ← advance
  lineEnd
  let body ← parseNonempty (block .untilBody)
  let _ ← keyword .hasta (some .missingHasta)
  let _ ← keyword .que (some .missingQue)
  let condition ← Expression.parse
  return .untilLoop body condition first.location

def parseCounting (block : BlockEnd → Parse (List Statement)) : Parse Statement := do
  let first ← advance
  let target ← Access.parse
  let _ ← symbol .arrow (some .badAssignmentOperator)
  let value ← Expression.parse
  let _ ← keyword .hasta (some .missingHasta)
  let bound ← Expression.parse
  lineEnd
  let body ← block .countingBody
  let _ ← keyword .finpara (some .missingFinpara)
  return .counting ⟨⟨target, value, first.location⟩, bound, body, first.location⟩

def parseResult : Parse Statement := do
  let first ← advance
  let value ← Expression.parse
  return .result value first.location

/-- A statement, known by its first token; a parenthesis behind a name makes it a call. -/
def parseWith (block : BlockEnd → Parse (List Statement)) : Parse Statement := do
  let c ← cursor
  match c.current.kind with
  | .keyword .si => parseConditional block
  | .keyword .mientras => parseWhile block
  | .keyword .repetir => parseUntil block
  | .keyword .para => parseCounting block
  | .keyword .retornar => parseResult
  | .word _ =>
    if (c.peek 1).kind = .symbol .leftParen then .call <$> parseCall
    else .assignment <$> parseAssignment
  | _ => fail ["statement"] none

def closers : List Keyword :=
  [.fin, .finsi, .sino, .finmientras, .hasta, .finpara, .finfuncion, .finprocedimiento]

def blockWithin : Nat → BlockEnd → Parse (List Statement)
  | 0, e => fail (e.closers.map Keyword.text) (some e.missing)
  | n + 1, e => do
    skipLineEnds
    let c ← cursor
    if e.closers.any c.atKeyword then return []
    else if c.atEnd || closers.any c.atKeyword then
      fail (e.closers.map Keyword.text) (some e.missing)
    else
      let s ← parseWith (blockWithin n)
      lineEnd
      let ss ← blockWithin n e
      return s :: ss

def parseBlock (e : BlockEnd) : Parse (List Statement) := do
  blockWithin (← budget) e

def parse : Parse Statement := parseWith parseBlock

end Statement
end Seudocodigo
