import Seudocodigo.Graph

/-! Graphs as text, a line for each node. -/
namespace Seudocodigo

def linkText : Option NodeId → String
  | some id => s!"#{id}"
  | none => "end"

def padLeft (width : Nat) (s : String) : String :=
  String.ofList (List.replicate (width - s.length) ' ') ++ s

def padRight (width : Nat) (s : String) : String :=
  s ++ String.ofList (List.replicate (width - s.length) ' ')

def codeText (code : List Action) : String := ", ".intercalate (code.map Action.text)

def LoopKind.text : LoopKind → String
  | .whileLoop => "mientras"
  | .untilLoop => "repetir"

def Node.text : Node → String
  | .generic action next => action.text ++ " -> " ++ linkText next
  | .branch condition trueHead falseHead next selector =>
    "si [" ++ codeText condition ++ "] true " ++ linkText trueHead ++ " false "
      ++ linkText falseHead ++ " -> " ++ linkText next ++ " (" ++ selector.name ++ ")"
  | .loop kind condition bodyHead next selector =>
    kind.text ++ " [" ++ codeText condition ++ "] body " ++ linkText bodyHead ++ " -> "
      ++ linkText next ++ " (" ++ selector.name ++ ")"

namespace Graph

def line (id : NodeId) (node : Node) : String :=
  padLeft 4 s!"#{id}" ++ "  " ++ node.text ++ "\n"

def listing (g : Graph) : String :=
  String.join (g.nodes.toList.mapIdx line)

end Graph
end Seudocodigo
