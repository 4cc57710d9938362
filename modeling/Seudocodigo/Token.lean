import Seudocodigo.Location
import Seudocodigo.Value

/-! The tokens of program texts: reserved words, symbols, literals, names and the ends of lines and
files. -/
namespace Seudocodigo

inductive Keyword where
  | vars | inicio | fin | funcion | finfuncion | procedimiento | finprocedimiento | retornar
  | ref
  | si | entonces | sino | finsi | mientras | finmientras | repetir | hasta | que | para | finpara
  | entero | real | logico | caracter
  | verdadero | falso
  | div | mod | and | or | not
deriving DecidableEq, Repr

namespace Keyword

def text : Keyword → String
  | .vars => "variables"
  | .inicio => "inicio"
  | .fin => "fin"
  | .funcion => "funcion"
  | .finfuncion => "finfuncion"
  | .procedimiento => "procedimiento"
  | .finprocedimiento => "finprocedimiento"
  | .retornar => "retornar"
  | .ref => "ref"
  | .si => "si"
  | .entonces => "entonces"
  | .sino => "sino"
  | .finsi => "finsi"
  | .mientras => "mientras"
  | .finmientras => "finmientras"
  | .repetir => "repetir"
  | .hasta => "hasta"
  | .que => "que"
  | .para => "para"
  | .finpara => "finpara"
  | .entero => "entero"
  | .real => "real"
  | .logico => "logico"
  | .caracter => "caracter"
  | .verdadero => "verdadero"
  | .falso => "falso"
  | .div => "div"
  | .mod => "mod"
  | .and => "and"
  | .or => "or"
  | .not => "not"

def all : List Keyword :=
  [.vars, .inicio, .fin, .funcion, .finfuncion, .procedimiento, .finprocedimiento, .retornar,
    .ref, .si, .entonces, .sino, .finsi, .mientras, .finmientras, .repetir, .hasta, .que, .para,
    .finpara, .entero, .real, .logico, .caracter, .verdadero, .falso, .div, .mod, .and, .or, .not]

/-- The reserved word that a word is when case is ignored. Only ASCII letters have to be lowered:
no other character becomes a letter of a reserved word. -/
def ofWord? (word : String) : Option Keyword :=
  let lower := word.map Char.toLower
  all.find? (·.text = lower)

def atom? : Keyword → Option Atom
  | .entero => some .integer
  | .real => some .real
  | .logico => some .logical
  | .caracter => some .character
  | _ => none

end Keyword

inductive Symbol where
  | plus | minus | star | slash | caret
  | less | lessEqual | greater | greaterEqual | equal | notEqual
  | arrow | leftParen | rightParen | leftBracket | rightBracket | comma
deriving DecidableEq, Repr

namespace Symbol

def text : Symbol → String
  | .plus => "+"
  | .minus => "-"
  | .star => "*"
  | .slash => "/"
  | .caret => "^"
  | .less => "<"
  | .lessEqual => "<="
  | .greater => ">"
  | .greaterEqual => ">="
  | .equal => "="
  | .notEqual => "<>"
  | .arrow => "<-"
  | .leftParen => "("
  | .rightParen => ")"
  | .leftBracket => "["
  | .rightBracket => "]"
  | .comma => ","

/-- All symbols, those of two characters before those that begin them. -/
def all : List Symbol :=
  [.lessEqual, .arrow, .notEqual, .greaterEqual, .less, .greater, .equal, .plus, .minus, .star,
    .slash, .caret, .leftParen, .rightParen, .leftBracket, .rightBracket, .comma]

def atHead? (cs : List Char) : Option Symbol := all.find? (·.text.toList.isPrefixOf cs)

def ofText? (s : String) : Option Symbol := all.find? (·.text = s)

end Symbol

inductive TokenKind where
  | integer (n : Int)
  | real (x : Binary64)
  | string (s : String)
  | word (s : String)
  | keyword (k : Keyword)
  | symbol (s : Symbol)
  | endOfLine
  | endOfFile
  /-- A stretch of text that is no token. -/
  | unknown
deriving DecidableEq, Repr

namespace TokenKind

def text : TokenKind → String
  | .integer n => s!"integer {n}"
  | .real x => "real " ++ x.text
  | .string s => "string \"" ++ s ++ "\""
  | .word s => "word '" ++ s ++ "'"
  | .keyword k => "'" ++ k.text ++ "'"
  | .symbol s => "'" ++ s.text ++ "'"
  | .endOfLine => "end of line"
  | .endOfFile => "end of file"
  | .unknown => "unknown token"

/-- The value that a literal token stands for. A string of one character is a character. -/
def literal? : TokenKind → Option Value
  | .integer n => some (.integer n)
  | .real x => some (.real x)
  | .string s =>
    match s.toList with
    | [c] => some (.character c)
    | _ => some (.string s)
  | .keyword .verdadero => some (.boolean true)
  | .keyword .falso => some (.boolean false)
  | _ => none

def atom? : TokenKind → Option Atom
  | .keyword k => k.atom?
  | _ => none

end TokenKind

structure Token where
  kind : TokenKind
  /-- The characters of the source that make up the token. -/
  text : String
  location : Location
deriving DecidableEq, Repr

namespace Token

def literal? (t : Token) : Option Value := t.kind.literal?

def endOfFile (p : Location) : Token := ⟨.endOfFile, "", p⟩

end Token
end Seudocodigo
