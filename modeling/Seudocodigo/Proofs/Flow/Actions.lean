import Seudocodigo.Proofs.Flow.Lowering
import Seudocodigo.Proofs.Flow.Wired

/-! The actions in the nodes of a graph. What is built adds the actions of its plan and no others,
and a row of actions that stands in the plan in one piece does so in the graph. -/
namespace Seudocodigo

def Node.actions : Node → List Action
  | .generic action _ => [action]
  | .branch condition _ _ _ _ | .loop _ condition _ _ _ => condition

theorem Node.actions_setLink (target : NodeId) (link : Link) (node : Node) :
    (node.setLink target link).actions = node.actions := by
  cases node <;> cases link <;> rfl

namespace Graph

def actionsAt (g : Graph) (id : NodeId) : List Action := ((g.find? id).map Node.actions).getD []

theorem actionsAt_fillAll (g : Graph) (target : NodeId) (slots : List Slot) (id : NodeId) :
    (g.fillAll target slots).actionsAt id = g.actionsAt id := by
  rw [actionsAt, find?_fillAll_map g target slots (Node.actions_setLink target), actionsAt]

theorem actionsAt_add (g : Graph) (node : Node) (id : NodeId) :
    (g.add node).2.actionsAt id = if id = g.size then node.actions else g.actionsAt id := by
  rw [actionsAt, find?_add]
  split <;> rfl

theorem actionsAt_join (g : Graph) (c c' : Chain) (id : NodeId) :
    (g.join c c').2.actionsAt id = g.actionsAt id := by
  rw [join]
  split
  · rfl
  · split
    · rfl
    · exact actionsAt_fillAll ..

end Graph

open Seudocodigo.Graph

namespace Plan

def actions : Plan → List Action
  | .nothing => []
  | .action a => [a]
  | .seq p q => p.actions ++ q.actions
  | .branch condition p q => condition ++ p.actions ++ q.actions
  | .loop _ condition p => condition ++ p.actions

theorem actions_straight (as : List Action) : (straight as).actions = as := by
  induction as with
  | nil => rfl
  | cons a as ih => rw [straight, actions, ih]; rfl

/-- What is found in a graph was there before or comes from the plan. -/
theorem mem_actionsAt_build {p : Plan} {g : Graph} {id : NodeId} {a : Action}
    (h : a ∈ (p.build g).2.actionsAt id) : a ∈ g.actionsAt id ∨ a ∈ p.actions := by
  induction p generalizing g with
  | nothing => exact .inl h
  | action b =>
    rw [show ((Plan.action b).build g).2 = (g.add (.generic b none)).2 from rfl, actionsAt_add] at h
    split at h
    · exact .inr h
    · exact .inl h
  | seq p q ihp ihq =>
    rw [build_seq, actionsAt_join] at h
    rw [actions, List.mem_append]
    obtain hbefore | hq := ihq h
    · exact (ihp hbefore).imp_right .inl
    · exact .inr (.inr hq)
  | branch condition p q ihp ihq =>
    rw [show ((Plan.branch condition p q).build g).2 =
      addBranch condition (p.build g).1 (q.build (p.build g).2).1
        (q.build (p.build g).2).2 from rfl,
      addBranch, actionsAt_add] at h
    rw [actions, List.mem_append, List.mem_append]
    split at h
    · exact .inr (.inl (.inl h))
    · obtain hbefore | hq := ihq h
      · exact (ihp hbefore).imp_right fun hp => .inl (.inr hp)
      · exact .inr (.inr hq)
  | loop kind condition p ih =>
    rw [show ((Plan.loop kind condition p).build g).2 =
      addLoop kind condition (p.build g).1 (p.build g).2 from rfl, addLoop, actionsAt_fillAll,
      actionsAt_add] at h
    rw [actions, List.mem_append]
    split at h
    · exact .inr (.inl h)
    · exact (ih h).imp_right .inr

end Plan

/-! Rows of actions. -/

namespace Graph

/-- The nodes of the first graph are in the second one, with all of their links that lead
somewhere. -/
structure Grows (g h : Graph) : Prop where
  nodes : ∀ id, id < g.size → (h.find? id).map Node.bare = (g.find? id).map Node.bare
  links : LinksKept g h

/-- From a number on there is a node for each action, and each of them leads to the next one. -/
def Lines (g : Graph) (as : List Action) (first : NodeId) : Prop :=
  ∀ (i : Nat) (a : Action), as[i]? = some a → ∃ next, g.find? (first + i) = some (.generic a next) ∧
    (i + 1 < as.length → next = some (first + i + 1))

/-- The actions stand in a graph in one piece, in a condition or in nodes one behind the other. -/
def Carries (g : Graph) (as : List Action) : Prop :=
  (∃ first, g.Lines as first) ∨
    ∃ id node condition, g.find? id = some node ∧ node.condition? = some condition ∧
      as <:+: condition

variable {g g' h : Graph} {lo : Nat} {c : Chain} {as bs : List Action}

theorem grows_of_find? (hg : ∀ id, id < g.size → h.find? id = g.find? id) : Grows g h where
  nodes id hid := by rw [hg id hid]
  links := linksKept_of_find? hg

theorem grows_fillAll (g : Graph) (target : NodeId) {slots : List Slot}
    (hopen : ∀ slot ∈ slots, g.link? slot = some none) : Grows g (g.fillAll target slots) where
  nodes _ _ := find?_fillAll_bare ..
  links := linksKept_fillAll g target hopen

theorem grows_add (g : Graph) (node : Node) : Grows g (g.add node).2 :=
  grows_of_find? fun _ hid => find?_add_lt g node hid

theorem Grows.find? (hg : Grows g h) {id : NodeId} {node : Node} (hn : g.find? id = some node) :
    ∃ other, h.find? id = some other ∧ other.bare = node.bare := by
  have hnode := hg.nodes id (lt_size_of_find? hn)
  rw [hn] at hnode
  exact Option.map_eq_some_iff.1 hnode

theorem Grows.trans (hg : Grows g g') (hh : Grows g' h) : Grows g h where
  nodes id hid := by
    obtain ⟨node, hn⟩ : ∃ node, g.find? id = some node := ⟨_, Array.getElem?_eq_getElem hid⟩
    obtain ⟨other, ho, -⟩ := hg.find? hn
    rw [hh.nodes id (lt_size_of_find? ho), hg.nodes id hid]
  links := hg.links.trans hh.links

theorem Lines.grows {first : NodeId} (hl : g.Lines as first) (hg : Grows g h) :
    h.Lines as first := by
  intro i a ha
  obtain ⟨next, hn, hnext⟩ := hl i a ha
  obtain ⟨other, ho, hbare⟩ := hg.find? hn
  cases other with
  | branch | loop => cases hbare
  | generic b next' =>
    cases hbare
    refine ⟨next', ho, fun hlt => ?_⟩
    have hlink : g.link? ⟨first + i, .next⟩ = some (some (first + i + 1)) := by
      rw [link?, hn, hnext hlt]
      rfl
    have hlink' := hg.links _ _ hlink
    rw [link?, ho] at hlink'
    exact Option.some.inj hlink'

theorem Carries.grows (hc : g.Carries as) (hg : Grows g h) : h.Carries as := by
  obtain ⟨first, hlines⟩ | ⟨id, node, condition, hn, hcondition, hin⟩ := hc
  · exact .inl ⟨first, hlines.grows hg⟩
  · obtain ⟨other, ho, hbare⟩ := hg.find? hn
    refine .inr ⟨id, other, condition, ho, ?_, hin⟩
    rw [← hcondition]
    cases other <;> cases node <;> cases hbare <;> rfl

theorem Lines.of_append {before after : List Action} {first : NodeId}
    (hl : g.Lines (before ++ as ++ after) first) : g.Lines as (first + before.length) := by
  intro i a ha
  have hlt : i < as.length := (List.getElem?_eq_some_iff.1 ha).1
  have hi : (before ++ as ++ after)[before.length + i]? = some a := by
    rw [List.append_assoc, List.getElem?_append_right (Nat.le_add_right _ _),
      Nat.add_sub_cancel_left, List.getElem?_append_left hlt, ha]
  obtain ⟨next, hn, hnext⟩ := hl _ _ hi
  rw [← Nat.add_assoc] at hn hnext
  refine ⟨next, hn, fun hlast => hnext ?_⟩
  simp only [List.length_append]
  omega

theorem Carries.of_part (hc : g.Carries bs) (hin : as <:+: bs) : g.Carries as := by
  obtain ⟨first, hlines⟩ | ⟨id, node, condition, hn, hcondition, hin'⟩ := hc
  · obtain ⟨before, after, rfl⟩ := hin
    exact .inl ⟨_, hlines.of_append⟩
  · exact .inr ⟨id, node, condition, hn, hcondition, hin.trans hin'⟩

end Graph

namespace Plan

inductive Has (as : List Action) : Plan → Prop where
  | straight {p : Plan} : p = straight as → Has as p
  | left {p q : Plan} : Has as p → Has as (.seq p q)
  | right {p q : Plan} : Has as q → Has as (.seq p q)
  | choice {p q : Plan} : Has as (.branch as p q)
  | thenPart {condition : List Action} {p q : Plan} : Has as p → Has as (.branch condition p q)
  | elsePart {condition : List Action} {p q : Plan} : Has as q → Has as (.branch condition p q)
  | test {kind : LoopKind} {p : Plan} : Has as (.loop kind as p)
  | turn {kind : LoopKind} {condition : List Action} {p : Plan} :
    Has as p → Has as (.loop kind condition p)

variable {as : List Action}

theorem grows_build (p : Plan) (g : Graph) : Grows g (p.build g).2 := grows_of_find? (p.wired g).1

/-- What stands behind a part keeps it. -/
theorem grows_seq (p q : Plan) (g : Graph) :
    Grows (q.build (p.build g).2).2 ((Plan.seq p q).build g).2 := by
  obtain ⟨-, hp⟩ := p.wired g
  obtain ⟨hsame, -⟩ := q.wired (p.build g).2
  rw [build_seq, join]
  split
  · exact grows_of_find? fun _ _ => rfl
  · split
    · exact grows_of_find? fun _ _ => rfl
    · exact grows_fillAll _ _ fun _ hs => hp.open_behind hsame hs

theorem grows_loop (kind : LoopKind) (condition : List Action) (p : Plan) (g : Graph) :
    Grows (p.build g).2 ((Plan.loop kind condition p).build g).2 :=
  (grows_add _ _).trans
    (grows_fillAll _ _ fun _ hs => (p.wired g).2.open_of_mem_exitsOr hs)

theorem carries_straight (as : List Action) (g : Graph) :
    ((straight as).build g).2.Carries as := by
  rw [build_straight]
  obtain ⟨-, -, hnodes⟩ := Build.find?_straight as g
  exact .inl ⟨g.size, fun i a ha => ⟨_, hnodes i a ha, fun hlt => if_pos hlt⟩⟩

/-- Rows of the plan are rows of the graph. -/
theorem Has.carries {p : Plan} (h : Has as p) (g : Graph) : (p.build g).2.Carries as := by
  induction h generalizing g with
  | straight he => rw [he]; exact carries_straight as g
  | @left p q _ ih => exact (ih g).grows ((q.grows_build _).trans (grows_seq p q g))
  | @right p q _ ih => exact (ih _).grows (grows_seq p q g)
  | @choice p q =>
    exact .inr ⟨_, _, as, find?_add_self .., rfl, List.infix_refl as⟩
  | @thenPart condition p q _ ih =>
    exact (ih g).grows ((q.grows_build _).trans (grows_add _ _))
  | @elsePart condition p q _ ih => exact (ih _).grows (grows_add _ _)
  | @test kind p =>
    have hadded : ((p.build g).2.add (.loop kind as (p.build g).1.head none .programBody)).2.Carries
        as := .inr ⟨_, _, as, find?_add_self .., rfl, List.infix_refl as⟩
    exact hadded.grows (grows_fillAll _ _ fun _ hs => (p.wired g).2.open_of_mem_exitsOr hs)
  | @turn kind condition p _ ih => exact (ih g).grows (grows_loop kind condition p g)

end Plan
end Seudocodigo
