import Seudocodigo.Statement.Typing

/-! The type errors of modules and programs. Modules are checked one by one; of the others only the
signatures count. -/
namespace Seudocodigo

namespace ScopedModule

def context (m : ScopedModule) (signatures : Signatures) : Context :=
  ⟨signatures, m.scope, m.module.name, m.module.returns?⟩

def endsWithResult (m : ScopedModule) : Bool :=
  match m.module.body.getLast? with
  | some (.result ..) => true
  | _ => false

def errors (m : ScopedModule) (signatures : Signatures) : List TypeError :=
  errorsOf (m.context signatures) m.module.body
    ++ if m.module.returns?.isSome && !m.endsWithResult then
        [⟨.missingResult m.module.name, m.module.location⟩]
      else []

def report (m : ScopedModule) (signatures : Signatures) : Report :=
  ⟨m.module.name, m.hoistErrors ++ m.errors signatures⟩

end ScopedModule

namespace Program

def hoisted (p : Program) : List ScopedModule := p.modules.map Module.hoisted

def reports (p : Program) : List Report :=
  (p.hoisted.map (·.report p.signatures)).filter (!·.errors.isEmpty)

end Program
end Seudocodigo
