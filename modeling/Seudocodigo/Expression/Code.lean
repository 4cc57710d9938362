import Seudocodigo.Action
import Seudocodigo.Signature

/-! Expressions as actions: one for each element, with those of indices and arguments before the
element they belong to. -/
namespace Seudocodigo

mutual

def Expression.code (s : Signatures) : Expression → List Action
  | ⟨es, _⟩ => codeOf s es

def codeOf (s : Signatures) : List Element → List Action
  | [] => []
  | e :: es => e.code s ++ codeOf s es

def Element.code (s : Signatures) : Element → List Action
  | .literal value => [.push value]
  | .access ⟨name, []⟩ => [.load name]
  | .access ⟨name, i :: is⟩ =>
    i.code s ++ indexCode s is ++ [.subscript name (is.length + 1)]
  | .operator op => [.apply op]
  | .call ⟨name, args, p⟩ => (Call.mk name args p).code s

def indexCode (s : Signatures) : List Expression → List Action
  | [] => []
  | e :: es => e.code s ++ indexCode s es

def Call.code (s : Signatures) : Call → List Action
  | ⟨name, args, _⟩ => argumentCode s name 0 args ++ [.call name args.length]

/-- The actions of the arguments from the given position on. A variable passed by reference is not
read. -/
def argumentCode (s : Signatures) (module : String) : Nat → List Expression → List Action
  | _, [] => []
  | i, ⟨es, _⟩ :: args =>
    (match es, s.byReference module i with
      | [.access ⟨name, indices⟩], true =>
        indexCode s indices ++ [.reference name indices.length]
      | es, _ => codeOf s es)
    ++ argumentCode s module (i + 1) args

end

end Seudocodigo
