import Seudocodigo.Module
import Seudocodigo.NameMap

/-! What callers know of a procedure or function. -/
namespace Seudocodigo

structure Signature where
  name : String
  parameters : List Variable
  /-- The type of the result; procedures have none. -/
  returns? : Option Ty
deriving DecidableEq, Repr

abbrev Signatures := NameMap Signature

def Module.signature (m : Module) : Signature := ⟨m.name, m.parameters, m.returns?⟩

def Program.signatures (p : Program) : Signatures :=
  .ofList (p.subprograms.map fun m => (m.name, m.signature))

def Signatures.yields (s : Signatures) (name : String) : Bool :=
  !Module.isBuiltin name && ((s.find? name).bind Signature.returns?).isSome

/-- Whether a module changes the variable at the given position of its arguments, counted from
zero. Of the built-in modules only the one that reads does. -/
def Signatures.byReference (s : Signatures) (name : String) (position : Nat) : Bool :=
  if Module.isBuiltin name then name = "leer"
  else (((s.find? name).bind (·.parameters[position]?)).map (·.byReference)).getD false

end Seudocodigo
