import Seudocodigo.Text.Pieces

/-! Files, the directories that hold them, and what a path leads to from a place among them. -/
namespace Seudocodigo

inductive Found where
  | nothing
  | directory
  | file (content : String)
deriving DecidableEq, Repr

inductive FileTree where
  | file (content : String)
  | directory (entries : List (String × FileTree))

namespace FileTree

def found : FileTree → Found
  | .file content => .file content
  | .directory _ => .directory

/-- Follows the steps of a path below the directories `above`, the nearest first. No step leads on
from a file, not even an empty one, and the directory on top is its own parent. -/
def follow : List FileTree → FileTree → List String → Found
  | _, here, [] => here.found
  | _, .file _, _ :: _ => .nothing
  | above, .directory entries, step :: steps =>
    if step = "" ∨ step = "." then follow above (.directory entries) steps
    else if step = ".." then
      match above with
      | [] => follow [] (.directory entries) steps
      | parent :: above => follow above parent steps
    else
      match entries.lookup step with
      | none => .nothing
      | some tree => follow (.directory entries :: above) tree steps

end FileTree

/-- A directory to work in, below those that it lies in, the nearest first. -/
structure Place where
  here : FileTree
  above : List FileTree

namespace Place

def top (p : Place) : FileTree := p.above.getLast?.getD p.here

/-- What a path leads to. One that begins with a slash starts at the top, and the empty path leads
nowhere. -/
def find (p : Place) (path : String) : Found :=
  let steps := (Text.pieces '/' path.toList).map String.ofList
  match path.toList with
  | [] => .nothing
  | '/' :: _ => FileTree.follow [] p.top steps
  | _ => FileTree.follow p.above p.here steps

end Place
end Seudocodigo
