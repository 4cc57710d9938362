import Seudocodigo.Binary64.Text
import Seudocodigo.Ty

/-! The values that programs spell out and that variables hold. -/
namespace Seudocodigo

inductive Value where
  | integer (n : Int)
  | real (x : Binary64)
  | boolean (b : Bool)
  | character (c : Char)
  | string (s : String)
  /-- What a cell holds before anything is stored in it. -/
  | uninitialized
deriving DecidableEq, Repr

namespace Value

instance : Inhabited Value := ⟨.uninitialized⟩

def isInitialized : Value → Bool
  | .uninitialized => false
  | _ => true

/-- A string is an array of as many characters as it has. -/
def ty : Value → Ty
  | .integer _ => .integer
  | .real _ => .real
  | .boolean _ => .logical
  | .character _ => .character
  | .string s => .array s.length .character
  | .uninitialized => .void

def text : Value → String
  | .integer n => toString n
  | .real x => x.text
  | .boolean true => "verdadero"
  | .boolean false => "falso"
  | .character c => "'" ++ String.singleton c ++ "'"
  | .string s => "\"" ++ s ++ "\""
  | .uninitialized => "?"

end Value
end Seudocodigo
