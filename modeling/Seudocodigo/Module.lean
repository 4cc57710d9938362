import Seudocodigo.Statement

/-! Modules, the units that a program is made of. -/
namespace Seudocodigo

inductive ModuleKind where
  | main
  | procedure
  | function (returns : Atom)
deriving DecidableEq, Repr

def ModuleKind.returns? : ModuleKind → Option Ty
  | .function atom => some (.atomic atom)
  | .main | .procedure => none

structure Module where
  name : String
  kind : ModuleKind
  parameters : List Variable
  /-- The parameters once more as a declaration, then the other declarations, then what is to be
  done. -/
  body : List Statement
  location : Location

namespace Module

def mainName : String := "principal"

def returns? (m : Module) : Option Ty := m.kind.returns?

def builtins : List String := ["leer", "escribir", "escribir_linea"]

def isBuiltin (name : String) : Bool := builtins.contains name

end Module

structure Program where
  main : Module
  subprograms : List Module

namespace Program

def modules (p : Program) : List Module := p.main :: p.subprograms

def countingLoops (p : Program) : List CountingLoop :=
  p.modules.flatMap fun m => countingLoopsOf m.body

end Program
end Seudocodigo
