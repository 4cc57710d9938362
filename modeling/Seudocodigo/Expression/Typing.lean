import Seudocodigo.Scope
import Seudocodigo.Signature

/-! The types of expressions, found as a stack machine would find their values: an operand puts its
type on the stack, an operator takes those of its operands and puts the type of its result. The
first rule broken ends the expression. -/
namespace Seudocodigo

structure Context where
  signatures : Signatures
  scope : Scope
  /-- The name of the module. -/
  name : String
  /-- What the module returns, if it is a function. -/
  returns? : Option Ty

namespace Operator

def unaryType? : Operator → Ty → Option Ty
  | .neg, t => if t.isNumeric then some t else none
  | .not, t => if t = .logical then some t else none
  | _, _ => none

def binaryType? (op : Operator) (left right : Ty) : Option Ty :=
  match op with
  | .plus | .minus | .times | .power =>
    if left.isNumeric && right.isNumeric then
      some (if left = .integer && right = .integer then .integer else .real)
    else none
  | .divide => if left.isNumeric && right.isNumeric then some .real else none
  | .div | .mod => if left = .integer && right = .integer then some .integer else none
  | .less | .lessEqual | .greater | .greaterEqual | .equal | .different =>
    if left = right || left.isNumeric && right.isNumeric then some .logical else none
  | .and | .or => if left = .logical && right = .logical then some .logical else none
  | .neg | .not => none

/-- Replaces the types of the operands by that of the result. Operands that are not there count as
void. -/
def typeOnto (op : Operator) (p : Location) (stack : List Ty) : Except TypeError (List Ty) :=
  let right := stack.headD .void
  let rest := stack.tail
  if op.leadsOperand then
    match op.unaryType? right with
    | some t => .ok (t :: rest)
    | none => .error ⟨.operand op right, p⟩
  else
    let left := rest.headD .void
    match op.binaryType? left right with
    | some t => .ok (t :: rest.tail)
    | none => .error ⟨.operands op left right, p⟩

end Operator

def Ty.isPrintable (t : Ty) : Bool := t.isAtomic && t ≠ .void || t.isString

def Context.callType (Γ : Context) (name : String) : Ty :=
  if Module.isBuiltin name then .void
  else ((Γ.signatures.find? name).bind Signature.returns?).getD .void

mutual

def Expression.type (Γ : Context) : Expression → Except TypeError Ty
  | ⟨es, p⟩ => do
    let stack ← typeElements Γ p es []
    return stack.headD .void

def typeElements (Γ : Context) (p : Location) :
    List Element → List Ty → Except TypeError (List Ty)
  | [], stack => return stack
  | e :: es, stack => do
    let stack ← e.typeOnto Γ p stack
    typeElements Γ p es stack

def Element.typeOnto (Γ : Context) (p : Location) :
    Element → List Ty → Except TypeError (List Ty)
  | .literal value, stack => return value.ty :: stack
  | .access a, stack => do
    let t ← a.type Γ p
    return t :: stack
  | .operator op, stack => op.typeOnto p stack
  | .call ⟨name, args, q⟩, stack => do
    let _ ← (Call.mk name args q).check Γ
    return Γ.callType name :: stack

def Access.type (Γ : Context) (p : Location) : Access → Except TypeError Ty
  | ⟨name, indices⟩ =>
    match Γ.scope.find? name with
    | none => throw ⟨.undefinedVariable name, p⟩
    | some v =>
      if v.dims.length < indices.length then
        throw ⟨.tooManyIndices name v.dims.length indices.length, p⟩
      else do
        let _ ← checkIndices Γ name indices
        return .ofDims v.atom (v.dims.drop indices.length)

def checkIndices (Γ : Context) (name : String) : List Expression → Except TypeError Unit
  | [] => return ()
  | e :: es => do
    let t ← e.type Γ
    if t = .integer then checkIndices Γ name es else throw ⟨.index name t, e.location⟩

def Call.check (Γ : Context) : Call → Except TypeError Unit
  | ⟨name, args, p⟩ =>
    if Module.isBuiltin name then checkBuiltinArguments Γ name 1 args
    else
      match Γ.signatures.find? name with
      | none => throw ⟨.undefinedModule name, p⟩
      | some s =>
        if args.length = s.parameters.length then checkArguments Γ name 1 args s.parameters
        else throw ⟨.argumentCount name s.parameters.length args.length, p⟩

def checkArguments (Γ : Context) (name : String) :
    Nat → List Expression → List Variable → Except TypeError Unit
  | i, e :: es, v :: vs => do
    let t ← e.type Γ
    if t ≠ v.ty then throw ⟨.argument name i v.ty t, e.location⟩
    else if v.byReference && e.access?.isNone then
      throw ⟨.referenceNeedsVariable name i, e.location⟩
    else checkArguments Γ name (i + 1) es vs
  | _, _, _ => return ()

def checkBuiltinArguments (Γ : Context) (name : String) :
    Nat → List Expression → Except TypeError Unit
  | _, [] => return ()
  | i, e :: es => do
    let t ← e.type Γ
    if !t.isPrintable then throw ⟨.builtinArgument name i t, e.location⟩
    else if name = "leer" && e.access?.isNone then
      throw ⟨.referenceNeedsVariable name i, e.location⟩
    else checkBuiltinArguments Γ name (i + 1) es

end

end Seudocodigo
