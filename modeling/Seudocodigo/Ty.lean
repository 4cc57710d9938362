/-! The types of the language: four scalar types, the lack of a result, and arrays of fixed length
over them. -/
namespace Seudocodigo

inductive Atom where
  | integer
  | real
  | logical
  | character
  | void
deriving DecidableEq, Repr

namespace Atom

def name : Atom → String
  | .integer => "entero"
  | .real => "real"
  | .logical => "logico"
  | .character => "caracter"
  | .void => "ninguno"

def isNumeric : Atom → Bool
  | .integer | .real => true
  | _ => false

end Atom

inductive Ty where
  | atomic (atom : Atom)
  | array (length : Nat) (element : Ty)
deriving DecidableEq, Repr

namespace Ty

abbrev integer : Ty := .atomic .integer
abbrev real : Ty := .atomic .real
abbrev logical : Ty := .atomic .logical
abbrev character : Ty := .atomic .character
abbrev void : Ty := .atomic .void

/-- The type of a variable with the given dimensions, the first of them outermost: `entero m[3, 4]`
is an array of three arrays of four integers. -/
def ofDims (atom : Atom) (dims : List Nat) : Ty := dims.foldr .array (.atomic atom)

def base : Ty → Atom
  | .atomic atom => atom
  | .array _ element => element.base

def dims : Ty → List Nat
  | .atomic _ => []
  | .array length element => length :: element.dims

theorem ofDims_base_dims (t : Ty) : ofDims t.base t.dims = t := by
  induction t with
  | atomic atom => rfl
  | array length element ih => exact congrArg (Ty.array length) ih

def isNumeric : Ty → Bool
  | .atomic atom => atom.isNumeric
  | .array .. => false

def isAtomic : Ty → Bool
  | .atomic _ => true
  | .array .. => false

def isString : Ty → Bool
  | .array _ element => element = character
  | .atomic _ => false

/-- Whether a value of the second type may be stored where the first is expected: integers widen to
reals, also element by element in arrays of one shape; otherwise the types must agree. -/
def accepts : Ty → Ty → Bool
  | .atomic .real, .atomic .integer => true
  | .array n target, .array m value => n = m && target.accepts value
  | target, value => target = value

theorem accepts_self (t : Ty) : t.accepts t = true := by
  induction t with
  | atomic atom => cases atom <;> rfl
  | array length element ih => simp [accepts, ih]

def text (t : Ty) : String :=
  t.base.name ++ String.join (t.dims.map fun n => s!"[{n}]")

end Ty
end Seudocodigo
