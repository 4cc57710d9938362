import Seudocodigo.Graph.Listing
import Seudocodigo.Scope
import Seudocodigo.Statement.Flow

/-! Compiled modules and programs. -/
namespace Seudocodigo

structure CompiledModule where
  name : String
  kind : ModuleKind
  parameters : List Variable
  scope : Scope
  graph : Graph
  /-- The node to begin with; there is none if nothing is to be done. -/
  entry : Option NodeId

def CompiledModule.listing (m : CompiledModule) : String :=
  m.name ++ " (entry " ++ linkText m.entry ++ ")\n"
    ++ String.join (m.scope.toList.map fun v => "  var " ++ v.name ++ ": " ++ v.ty.text ++ "\n")
    ++ m.graph.listing

def ScopedModule.compile (m : ScopedModule) (s : Signatures) : CompiledModule :=
  let (chain, graph) := (flowOf s m.module.body : Build Chain) .empty
  ⟨m.module.name, m.module.kind, m.module.parameters, m.scope.allocate, graph, chain.head⟩

structure CompiledProgram where
  main : CompiledModule
  /-- The procedures and functions by name. -/
  modules : NameMap CompiledModule

namespace CompiledProgram

def find? (p : CompiledProgram) (name : String) : Option CompiledModule :=
  if name = Module.mainName then some p.main else p.modules.find? name

end CompiledProgram

namespace Program

/-- Compiles all modules, whether they have type errors or not. -/
def flow (p : Program) : CompiledProgram :=
  ⟨p.main.hoisted.compile p.signatures,
    .ofList (p.subprograms.map fun m => (m.name, m.hoisted.compile p.signatures))⟩

end Program
end Seudocodigo
