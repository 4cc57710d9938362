import Seudocodigo.Proofs.Flow.Wired

/-! Graphs that statements are added to: nothing that was there changes, every link is set once at
most, and what follows the statements closes the links that are left. -/
namespace Seudocodigo

namespace Node

def skeleton : Node → Node
  | .generic a _ => .generic a none
  | .branch c _ _ _ s => .branch c none none none s
  | .loop k c _ _ s => .loop k c none none s

theorem skeleton_setLink (target : NodeId) (link : Link) (node : Node) :
    (node.setLink target link).skeleton = node.skeleton := by
  cases node <;> cases link <;> rfl

theorem eq_of_link? {node other : Node} (hs : node.skeleton = other.skeleton)
    (hl : ∀ link, node.link? link = other.link? link) : node = other := by
  have hnext := hl .next
  have htrue := hl .trueHead
  have hfalse := hl .falseHead
  have hbody := hl .bodyHead
  cases node <;> cases other <;> cases hs <;> cases hnext <;> cases htrue <;> cases hfalse <;>
    cases hbody <;> rfl

def closed (target : NodeId) : Node → Node
  | .generic a next => .generic a (next.or (some target))
  | .branch c trueHead falseHead next s =>
    .branch c (trueHead.or (some target)) (falseHead.or (some target)) (next.or (some target)) s
  | .loop k c bodyHead next s => .loop k c (bodyHead.or (some target)) (next.or (some target)) s

theorem skeleton_closed (target : NodeId) (node : Node) :
    (node.closed target).skeleton = node.skeleton := by
  cases node <;> rfl

theorem link?_closed (target : NodeId) (link : Link) (node : Node) :
    (node.closed target).link? link = (node.link? link).map (·.or (some target)) := by
  cases node <;> cases link <;> rfl

end Node

namespace Graph

def fillOpen? (target : NodeId) : List Slot → Graph → Option Graph
  | [], g => some g
  | slot :: slots, g =>
    if g.link? slot = some none then fillOpen? target slots (g.fill target slot) else none

variable {lo : Nat} {c : Chain} {g : Graph} {target : NodeId} {slots : List Slot}

theorem fillOpen?_eq (hn : slots.Nodup) (hopen : ∀ slot ∈ slots, g.link? slot = some none) :
    fillOpen? target slots g = some (g.fillAll target slots) := by
  induction slots generalizing g with
  | nil => rfl
  | cons slot slots ih =>
    obtain ⟨hnot, hn⟩ := List.nodup_cons.1 hn
    obtain ⟨hslot, hopen⟩ := List.forall_mem_cons.1 hopen
    rw [fillOpen?, if_pos hslot]
    refine ih hn fun other hother => ?_
    have hne : slot ≠ other := fun he => hnot (he ▸ hother)
    rw [link?_fill, if_neg hne, hopen other hother]

end Graph

/-- What builds like `Build`, but gets stuck where a link would be set that leads somewhere. -/
abbrev Strict := StateT Graph Option

instance : Builder Strict where
  add node := fun g => some (g.add node)
  fill target slots := fun g => (Graph.fillOpen? target slots g).map fun g => ((), g)

namespace Strict

open Builder Seudocodigo.Graph

variable {α β : Type}

theorem bind_of_some {m : Strict α} {f : α → Strict β} {g h : Graph} {a : α}
    (hm : m g = some (a, h)) : (m >>= f) g = f a h := by
  show (m g).bind (fun r => f r.1 r.2) = _
  rw [hm]
  rfl

theorem run_fill {target : NodeId} {slots : List Slot} {g : Graph} (hn : slots.Nodup)
    (hopen : ∀ slot ∈ slots, g.link? slot = some none) :
    (Builder.fill target slots : Strict Unit) g = some ((), g.fillAll target slots) := by
  show (fillOpen? target slots g).map _ = _
  rw [fillOpen?_eq hn hopen]
  rfl

theorem run_join {lo : Nat} {c c' : Chain} {g g' : Graph} (hp : Wired lo c g)
    (hg : ∀ id, id < g.size → g'.find? id = g.find? id) :
    (Builder.join c c' : Strict Chain) g' = some (g'.join c c') := by
  rw [Builder.join, Graph.join]
  cases c'.head with
  | none => rfl
  | some head =>
    dsimp only
    split
    · rfl
    · refine bind_of_some (run_fill hp.nodup fun slot hs => ?_)
      obtain ⟨-, hlt, hlink⟩ := hp.exit_open hs
      rw [link?_congr (hg _ hlt), hlink]

theorem run_loop {lo : Nat} {c : Chain} {g : Graph} (hp : Wired lo c g) (kind : LoopKind)
    (condition : List Action) :
    (loop kind condition c : Strict Chain) g = some ((loop kind condition c : Build Chain) g) :=
  (bind_of_some rfl).trans
    (bind_of_some (run_fill (hp.nodup_exitsOr _) fun _ hs => hp.open_of_mem_exitsOr hs))

/-- What is built is what the plan builds: no link is set that leads somewhere already. -/
def Builds (m : Strict Chain) (p : Plan) : Prop := ∀ g : Graph, m g = some (p.build g)

theorem compositional_builds : Plan.Compositional Builds where
  nothing _ := rfl
  action _ _ := rfl
  seq {b c p q} hb hc := by
    intro g
    obtain ⟨-, hp⟩ := p.wired g
    obtain ⟨hsame, -⟩ := q.wired (p.build g).2
    rw [bind_of_some (hb g), bind_of_some (hc _), run_join hp hsame, Plan.build_seq]
  branch _ hb hc := by
    intro g
    rw [bind_of_some (hb g), bind_of_some (hc _)]
    rfl
  loop {b p} kind condition hb := by
    intro g
    obtain ⟨-, hp⟩ := p.wired g
    rw [bind_of_some (hb g), run_loop hp]
    rfl

end Strict

namespace Plan

open Seudocodigo.Graph

/-- A plan without nodes leaves the graph alone, any other plan has a first node. -/
theorem head_build (p : Plan) (g : Graph) : (p.build g).1.head = none ↔ p.isEmpty = true := by
  induction p generalizing g with
  | nothing => exact ⟨fun _ => rfl, fun _ => rfl⟩
  | action a => exact iff_of_false (Option.some_ne_none _) Bool.false_ne_true
  | seq p q ihp ihq =>
    rw [isEmpty, Bool.and_eq_true, ← ihp g, ← ihq (p.build g).2, build_seq, Graph.join,
      Chain.isEmpty]
    cases hq : (q.build (p.build g).2).1.head <;> cases (p.build g).1.head <;> simp [hq]
  | branch condition p q => exact iff_of_false (Option.some_ne_none _) Bool.false_ne_true
  | loop kind condition p => exact iff_of_false (Option.some_ne_none _) Bool.false_ne_true

end Plan

namespace Graph

variable {lo : Nat} {c : Chain} {g h : Graph}

theorem Wired.eq_empty (hp : Wired lo c g) (hc : c.head = none) : c = .empty := by
  obtain ⟨head, exits⟩ := c
  cases hc
  cases exits with
  | nil => rfl
  | cons slot exits =>
    obtain ⟨hle, hlt, -⟩ := hp.exit_open (List.mem_cons_self ..)
    rw [hp.empty rfl] at hlt
    exact absurd hle (Nat.not_le.2 hlt)

theorem Wired.link?_attach (hp : Wired lo c g) (target : NodeId) (slot : Slot) :
    (g.attach c target).link? slot =
      if slot ∈ c.exits then some (some target) else g.link? slot :=
  link?_fillAll_open g target (fun _ hs => (hp.exit_open hs).2.2) slot

/-- What follows a chain closes its links, and nothing else changes. -/
theorem Wired.find?_attach (hp : Wired lo c g) (target id : NodeId) :
    (g.attach c target).find? id =
      if id < lo then g.find? id else (g.find? id).map (Node.closed target) := by
  have hskeleton := find?_fillAll_map g target c.exits (Node.skeleton_setLink target) id
  rw [← Graph.attach] at hskeleton
  split
  · next hid =>
    exact find?_fillAll_of_ne _ _ _ fun slot hs he =>
      absurd (hp.exit_open hs).1 (Nat.not_le.2 (he ▸ hid))
  · next hid =>
    cases hn : g.find? id with
    | none =>
      rw [hn] at hskeleton
      exact Option.map_eq_none_iff.1 hskeleton
    | some node =>
      rw [hn] at hskeleton
      obtain ⟨other, ho, hsame⟩ := Option.map_eq_some_iff.1 hskeleton
      rw [ho]
      refine congrArg some (Node.eq_of_link? ?_ fun link => ?_)
      · rw [hsame, Node.skeleton_closed]
      · have hslot := hp.link?_attach target ⟨id, link⟩
        have hexit := hp.mem_exits ⟨id, link⟩
        simp only [link?, ho, hn, Option.bind_some, Nat.not_lt.1 hid, true_and] at hslot hexit
        simp only [hslot, hexit, Node.link?_closed]
        cases node.link? link with
        | none => simp
        | some to? => cases to? <;> simp

section Closed

open Relation

variable {target : NodeId} (hp : Wired lo c g)

include hp

theorem Wired.linksKept_close : LinksKept g (g.attach c target) :=
  linksKept_fillAll _ target fun _ hs => (hp.exit_open hs).2.2

/-- Once a chain is closed, its links and what follows in the text lead to what closes it. -/
theorem Wired.next_attach {slot : Slot} {to? : Option NodeId} (hle : lo ≤ slot.node)
    (hlink : (g.attach c target).link? slot = some to?) :
    ∃ first, to? = some first ∧ ReflTransGen (g.attach c target).Next first target := by
  rw [hp.link?_attach] at hlink
  split at hlink
  · cases hlink
    exact ⟨target, rfl, .refl⟩
  · next hs =>
    cases to? with
    | none => exact absurd ((hp.mem_exits slot).2 ⟨hle, hlink⟩) hs
    | some first =>
      obtain ⟨hle', hlt⟩ := hp.inside slot first hle hlink
      obtain ⟨last, hlast, hs'⟩ := hp.tails first hle' hlt
      have hover : Next (g.attach c target) last target :=
        link?_fillAll_of_mem _ _ _ hs' (hp.exit_open hs').2.2
      exact ⟨first, rfl, (hp.linksKept_close.next hlast).tail hover⟩

/-- What closes a chain does not come between a loop and its body. -/
theorem Wired.next_body {id : NodeId} {body? : Option NodeId} (hle : lo ≤ id)
    (hlink : (g.attach c target).link? ⟨id, .bodyHead⟩ = some body?) :
    ∃ first, body? = some first ∧ ReflTransGen (g.attach c target).Next first id := by
  rw [hp.link?_attach] at hlink
  split at hlink
  · next hs =>
    obtain ⟨first, hfirst, -⟩ := hp.bodies id none hle (hp.exit_open hs).2.2
    cases hfirst
  · obtain ⟨first, hfirst, hback⟩ := hp.bodies id body? hle hlink
    exact ⟨first, hfirst, hp.linksKept_close.next hback⟩

end Closed

end Graph

namespace Build

open Seudocodigo.Graph Relation

/-- Statements added to a graph leave its nodes alone. There is no first node if and only if they
are declarations only, and then the graph stays as it was. The links of the new nodes are wired up,
and none was set twice: the same steps go through where a link that leads somewhere cannot be set.
When a node is put behind them, this closes all links that are left and changes nothing else; then
from the target of every link what follows in the text leads to that node, and from the beginning of
every body of a loop it leads back to the loop. -/
theorem flowOf_closed (s : Signatures) (ss : List Statement) (g : Graph) :
    let built := (flowOf s ss : Build Chain) g
    (∀ id, id < g.size → built.2.find? id = g.find? id) ∧
      (built.1.head = none ↔ ∀ st ∈ ss, st.isDeclaration = true) ∧
      (built.1.head = none → built = (.empty, g)) ∧
      Wired g.size built.1 built.2 ∧
      (flowOf s ss : Strict Chain) g = some built ∧
      ∀ target,
        let closed := built.2.attach built.1 target
        (∀ id, closed.find? id =
          if id < g.size then g.find? id else (built.2.find? id).map (Node.closed target)) ∧
        (∀ slot to?, g.size ≤ slot.node → closed.link? slot = some to? →
          ∃ first, to? = some first ∧ ReflTransGen closed.Next first target) ∧
        ∀ id body?, g.size ≤ id → closed.link? ⟨id, .bodyHead⟩ = some body? →
          ∃ first, body? = some first ∧ ReflTransGen closed.Next first id := by
  intro built
  obtain ⟨hsame, hwired⟩ := (planOf s ss).wired g
  have hhead := (planOf s ss).head_build g
  have hstrict := Strict.compositional_builds.flowOf s ss g
  rw [Plan.build_planOf] at hsame hwired hhead hstrict
  rw [Plan.isEmpty_planOf] at hhead
  refine ⟨hsame, hhead, fun hnone => ?_, hwired, hstrict, fun target => ⟨fun id => ?_,
    fun _ _ => hwired.next_attach, fun _ _ => hwired.next_body⟩⟩
  · exact Prod.ext (hwired.eq_empty hnone) (ext_find? (hwired.empty hnone) hsame)
  · rw [hwired.find?_attach]
    split
    · next hid => exact hsame id hid
    · rfl

end Build
end Seudocodigo
