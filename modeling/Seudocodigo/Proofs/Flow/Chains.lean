import Seudocodigo.Proofs.Flow.Regroup

/-! Chains put behind one another form a monoid, and what putting them there does to the graph is to
set the links that the exits name, as far as there are such links, and nothing else. -/
namespace Seudocodigo

namespace Node

def pointed (target : NodeId) (named : Link → Bool) : Node → Node
  | .generic a next => .generic a (if named .next then some target else next)
  | .branch c trueHead falseHead next s =>
    .branch c (if named .trueHead then some target else trueHead)
      (if named .falseHead then some target else falseHead)
      (if named .next then some target else next) s
  | .loop k c bodyHead next s =>
    .loop k c (if named .bodyHead then some target else bodyHead)
      (if named .next then some target else next) s

theorem skeleton_pointed (target : NodeId) (named : Link → Bool) (node : Node) :
    (node.pointed target named).skeleton = node.skeleton := by
  cases node <;> rfl

theorem link?_pointed (target : NodeId) (named : Link → Bool) (node : Node) (link : Link) :
    (node.pointed target named).link? link =
      if named link then (node.link? link).map fun _ => some target else node.link? link := by
  cases node <;> cases link <;> simp only [pointed, link?] <;> split <;> rfl

end Node

namespace Graph

theorem find?_fillAll_pointed (g : Graph) (target : NodeId) (slots : List Slot) (id : NodeId) :
    (g.fillAll target slots).find? id =
      (g.find? id).map (·.pointed target fun link => ⟨id, link⟩ ∈ slots) := by
  have hskeleton := find?_fillAll_map g target slots (Node.skeleton_setLink target) id
  cases hbefore : g.find? id with
  | none =>
    rw [hbefore] at hskeleton
    exact Option.map_eq_none_iff.1 hskeleton
  | some node =>
    rw [hbefore] at hskeleton
    obtain ⟨after, hafter, hsame⟩ := Option.map_eq_some_iff.1 hskeleton
    rw [hafter]
    refine congrArg some (Node.eq_of_link? ?_ fun link => ?_)
    · rw [Node.skeleton_pointed, hsame]
    · have hlink := link?_fillAll g target slots ⟨id, link⟩
      rw [link?, hafter, link?, hbefore] at hlink
      rw [Node.link?_pointed]
      simpa using hlink

theorem empty_join {c : Chain} (h : c.head = none → c.exits = []) (g : Graph) :
    g.join .empty c = (c, g) := by
  obtain ⟨head, exits⟩ := c
  cases head with
  | none =>
    rw [join_of_behind_empty rfl, show exits = [] from h rfl]
    rfl
  | some head => rw [join_of_before_empty rfl rfl]

/-- Chains may be put behind one another in either grouping, with the same chain and the same graph
in the end, as long as the first two share no exit, and an empty chain makes no difference before or
behind another. Attaching a chain to a node points those links at the node that its exits name,
where there are such links, and changes nothing else. -/
theorem chains_monoid (g : Graph) :
    (∀ a b c : Chain, (∀ slot ∈ a.exits, slot ∉ b.exits) →
      (g.join a b).2.join (g.join a b).1 c = (g.join b c).2.join a (g.join b c).1) ∧
    (∀ c : Chain, (c.head = none → c.exits = []) → g.join .empty c = (c, g)) ∧
    (∀ c : Chain, g.join c .empty = (c, g)) ∧
    ∀ (c : Chain) (target : NodeId), (g.attach c target).size = g.size ∧
      ∀ id, (g.attach c target).find? id =
        (g.find? id).map (·.pointed target fun link => ⟨id, link⟩ ∈ c.exits) :=
  ⟨fun _ _ _ h => join_assoc h g, fun _ h => empty_join h g, fun c => join_empty_right c g,
    fun c target => ⟨size_fillAll g target c.exits, find?_fillAll_pointed g target c.exits⟩⟩

def threeNodes : Graph :=
  ⟨#[.generic .discard none, .branch [] none none none .nextStatement,
    .loop .whileLoop [] none none .programBody]⟩

/-- Of the exits one belongs to a node that is not there and one is no link of its node. -/
def strayExits : Chain := ⟨some 0, [⟨0, .next⟩, ⟨7, .next⟩, ⟨0, .bodyHead⟩]⟩

def testExits : Chain := ⟨some 1, [⟨1, .trueHead⟩, ⟨1, .next⟩, ⟨2, .falseHead⟩]⟩

theorem chains_monoid_strayExits :
    let loopExit : Chain := ⟨some 2, [⟨2, .next⟩]⟩
    let joined : Graph :=
      ⟨#[.generic .discard (some 1), .branch [] (some 2) none (some 2) .nextStatement,
        .loop .whileLoop [] none none .programBody]⟩
    (threeNodes.join strayExits testExits).2.join (threeNodes.join strayExits testExits).1 loopExit
        = (⟨some 0, loopExit.exits⟩, joined) ∧
      (threeNodes.join testExits loopExit).2.join strayExits (threeNodes.join testExits loopExit).1
        = (⟨some 0, loopExit.exits⟩, joined) ∧
      threeNodes.join .empty strayExits = (strayExits, threeNodes) := by
  intro loopExit joined
  obtain ⟨hassoc, hleft, -⟩ := chains_monoid threeNodes
  have hregroup := hassoc strayExits testExits loopExit (by decide)
  have hjoined : (threeNodes.join testExits loopExit).2.join strayExits
      (threeNodes.join testExits loopExit).1 = (⟨some 0, loopExit.exits⟩, joined) := by decide
  exact ⟨hregroup.trans hjoined, hjoined, hleft strayExits (by decide)⟩

end Graph

end Seudocodigo
