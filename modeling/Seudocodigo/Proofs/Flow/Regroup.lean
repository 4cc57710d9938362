import Seudocodigo.Proofs.Flow.Closure

/-! Parts behind one another may be grouped in any way: the chain and the graph are the same. Links
that lead on are set when both parts are there, and it does not matter what is built in between. -/
namespace Seudocodigo

theorem Node.setLink_comm {link other : Link} (h : link ≠ other) (target target' : NodeId)
    (node : Node) : (node.setLink target link).setLink target' other =
      (node.setLink target' other).setLink target link := by
  cases link <;> cases other <;> first | exact absurd rfl h | cases node <;> rfl

namespace Graph

variable {g : Graph} {target target' : NodeId} {slots slots' : List Slot} {slot slot' : Slot}

/-! Links that are set at different places are set in any order. -/

theorem fill_comm (g : Graph) (h : slot ≠ slot') (target target' : NodeId) :
    (g.fill target slot).fill target' slot' = (g.fill target' slot').fill target slot := by
  refine ext_find? (by simp only [fill, size_modify]) fun id _ => ?_
  simp only [fill, find?_modify]
  by_cases hid : slot.node = id
  · by_cases hid' : slot'.node = id
    · have hlink : slot.link ≠ slot'.link := by
        intro he
        apply h
        calc slot = ⟨slot.node, slot.link⟩ := rfl
          _ = slot' := by rw [hid, he, ← hid']
      rw [if_pos hid, if_pos hid', if_pos hid', if_pos hid, Option.map_map, Option.map_map]
      exact congrArg (Option.map · _) (funext (Node.setLink_comm hlink target target'))
    · rw [if_neg hid', if_pos hid, if_pos hid, if_neg hid']
  · by_cases hid' : slot'.node = id
    · rw [if_pos hid', if_neg hid, if_neg hid, if_pos hid']
    · rw [if_neg hid', if_neg hid, if_neg hid, if_neg hid']

theorem fillAll_fill (g : Graph) (h : slot ∉ slots) (target target' : NodeId) :
    (g.fillAll target slots).fill target' slot = (g.fill target' slot).fillAll target slots := by
  induction slots generalizing g with
  | nil => rfl
  | cons other slots ih =>
    obtain ⟨hne, hnot⟩ := not_or.1 (mt List.mem_cons.2 h)
    show ((g.fill target other).fillAll target slots).fill target' slot = _
    rw [ih _ hnot, fill_comm g (Ne.symm hne)]
    rfl

theorem fillAll_comm (g : Graph) (h : ∀ slot ∈ slots, slot ∉ slots') (target target' : NodeId) :
    (g.fillAll target slots).fillAll target' slots' =
      (g.fillAll target' slots').fillAll target slots := by
  induction slots generalizing g with
  | nil => rfl
  | cons slot slots ih =>
    obtain ⟨hslot, hslots⟩ := List.forall_mem_cons.1 h
    show ((g.fill target slot).fillAll target slots).fillAll target' slots' = _
    rw [ih _ hslots, ← fillAll_fill g hslot]
    rfl

theorem find?_fillAll_congr {h : Graph} {id : NodeId} (hid : g.find? id = h.find? id) :
    (g.fillAll target slots).find? id = (h.fillAll target slots).find? id := by
  induction slots generalizing g h with
  | nil => exact hid
  | cons slot slots ih =>
    apply ih
    show (g.fill target slot).find? id = (h.fill target slot).find? id
    rw [fill, fill, find?_modify, find?_modify, hid]

/-- Links of nodes that are there may be set before or after another one is added. -/
theorem add_fillAll (g : Graph) (h : ∀ slot ∈ slots, slot.node < g.size) (target : NodeId)
    (node : Node) :
    (g.fillAll target slots).add node = ((g.add node).1, (g.add node).2.fillAll target slots) := by
  have hsize : (g.fillAll target slots).size = g.size := size_fillAll ..
  refine Prod.ext hsize (ext_find? (by simp only [size_add, size_fillAll]) fun id _ => ?_)
  by_cases hid : id = g.size
  · have hself : ((g.add node).2.fillAll target slots).find? id = some node := by
      rw [find?_fillAll_of_ne, hid, find?_add_self]
      intro slot hslot he
      exact Nat.lt_irrefl _ (hid ▸ he ▸ h slot hslot)
    rw [hself, find?_add, if_pos (hid.trans hsize.symm)]
  · rw [find?_add, if_neg fun he => hid (he.trans hsize)]
    exact find?_fillAll_congr (by rw [find?_add, if_neg hid])

/-! Chains behind one another. -/

/-- How chains end up does not depend on the graph. -/
theorem join_fst (a b : Chain) (g h : Graph) : (g.join a b).1 = (h.join a b).1 := by
  rw [join, join]
  split
  · rfl
  · split <;> rfl

theorem join_fillAll {a : Chain} (h : ∀ slot ∈ slots, slot ∉ a.exits) (b : Chain) (g : Graph)
    (target : NodeId) : (g.fillAll target slots).join a b =
      ((g.join a b).1, (g.join a b).2.fillAll target slots) := by
  cases hb : b.head with
  | none => rw [join_of_behind_empty hb, join_of_behind_empty hb]
  | some middle =>
    cases ha : a.head with
    | none => rw [join_of_before_empty ha hb, join_of_before_empty ha hb]
    | some head => rw [join_of_heads ha hb, join_of_heads ha hb, fillAll_comm g h]

/-- Three chains behind one another may be put together in either way. -/
theorem join_assoc {a b c : Chain} (h : ∀ slot ∈ a.exits, slot ∉ b.exits) (g : Graph) :
    (g.join a b).2.join (g.join a b).1 c = (g.join b c).2.join a (g.join b c).1 := by
  cases hb : b.head with
  | none =>
    rw [join_of_behind_empty hb]
    cases hc : c.head with
    | none => rw [join_of_behind_empty hc, join_of_behind_empty hc, join_of_behind_empty hb]
    | some target => rw [join_of_before_empty hb hc]
  | some middle =>
    cases hc : c.head with
    | none => rw [join_of_behind_empty hc, join_of_behind_empty hc]
    | some target =>
      rw [join_of_heads hb hc]
      cases ha : a.head with
      | none =>
        rw [join_of_before_empty ha hb, join_of_before_empty ha rfl, join_of_heads hb hc]
      | some head =>
        rw [join_of_heads ha hb, join_of_heads ha rfl, join_of_heads rfl hc,
          fillAll_comm g h]

end Graph

namespace Plan

open Seudocodigo.Graph

/-! What each plan adds to a graph. -/

theorem build_action (a : Action) (g : Graph) : (action a).build g =
    (⟨some g.size, [⟨g.size, .next⟩]⟩, (g.add (.generic a none)).2) := rfl

theorem build_branch {condition : List Action} {p q : Plan} {g g' : Graph} {c c' : Chain}
    (hq : q.build (p.build g).2 = (c', g')) (hp : (p.build g).1 = c) :
    (branch condition p q).build g =
      (⟨some g'.size, branchExits g'.size c c'⟩, addBranch condition c c' g') := by
  cases hp
  rw [build]
  show (Builder.branch condition (p.build g).1 (q.build (p.build g).2).1 : Build Chain)
    (q.build (p.build g).2).2 = _
  rw [hq]
  rfl

theorem build_loop {kind : LoopKind} {condition : List Action} {p : Plan} {g g' : Graph}
    {c : Chain} (hp : p.build g = (c, g')) :
    (loop kind condition p).build g =
      (⟨some (match kind with | .whileLoop => g'.size | .untilLoop => c.head.getD g'.size),
        [⟨g'.size, .next⟩]⟩, addLoop kind condition c g') := by
  rw [build]
  show (Builder.loop kind condition (p.build g).1 : Build Chain) (p.build g).2 = _
  rw [hp]
  rfl

/-- Links of nodes that are there may be set before or after a plan is carried out. -/
theorem build_fillAll (p : Plan) {g : Graph} {slots : List Slot}
    (h : ∀ slot ∈ slots, slot.node < g.size) (target : NodeId) :
    p.build (g.fillAll target slots) = ((p.build g).1, (p.build g).2.fillAll target slots) := by
  induction p generalizing g with
  | nothing => rfl
  | action a => rw [build_action, build_action, size_fillAll, add_fillAll g h]
  | seq p q ihp ihq =>
    obtain ⟨-, hp⟩ := p.wired g
    have hbehind : ∀ slot ∈ slots, slot.node < (p.build g).2.size :=
      fun slot hslot => Nat.lt_of_lt_of_le (h slot hslot) hp.size
    have hexits : ∀ slot ∈ slots, slot ∉ (p.build g).1.exits :=
      fun slot hslot hexit => Nat.not_le.2 (h slot hslot) (hp.exit_open hexit).1
    rw [build_seq, build_seq, ihp h, ihq hbehind, join_fillAll hexits]
  | branch condition p q ihp ihq =>
    obtain ⟨-, hp⟩ := p.wired g
    obtain ⟨-, hq⟩ := q.wired (p.build g).2
    have hbehind : ∀ slot ∈ slots, slot.node < (p.build g).2.size :=
      fun slot hslot => Nat.lt_of_lt_of_le (h slot hslot) hp.size
    have hbehind' : ∀ slot ∈ slots, slot.node < (q.build (p.build g).2).2.size :=
      fun slot hslot => Nat.lt_of_lt_of_le (hbehind slot hslot) hq.size
    have hfilled : q.build (p.build (g.fillAll target slots)).2 =
        ((q.build (p.build g).2).1, (q.build (p.build g).2).2.fillAll target slots) := by
      rw [ihp h, ihq hbehind]
    rw [build_branch hfilled (congrArg Prod.fst (ihp h)), build_branch rfl rfl, size_fillAll,
      addBranch, add_fillAll _ hbehind']
    rfl
  | loop kind condition p ih =>
    obtain ⟨-, hp⟩ := p.wired g
    have hbehind : ∀ slot ∈ slots, slot.node < (p.build g).2.size :=
      fun slot hslot => Nat.lt_of_lt_of_le (h slot hslot) hp.size
    have hexits : ∀ slot ∈ slots,
        slot ∉ (p.build g).1.exitsOr ⟨(p.build g).2.size, .bodyHead⟩ := by
      intro slot hslot hexit
      obtain ⟨-, rfl⟩ | hexit := hp.mem_exitsOr.1 hexit
      · exact Nat.lt_irrefl _ (hbehind _ hslot)
      · exact Nat.not_le.2 (h slot hslot) (hp.exit_open hexit).1
    rw [build_loop (ih h), build_loop rfl, size_fillAll, addLoop, addLoop, add_fillAll _ hbehind,
      size_fillAll, fillAll_comm _ hexits]

theorem build_join (p : Plan) {g : Graph} {a : Chain} (h : ∀ slot ∈ a.exits, slot.node < g.size)
    (b : Chain) : p.build (g.join a b).2 = ((p.build g).1, ((p.build g).2.join a b).2) := by
  cases hb : b.head with
  | none =>
    rw [join_of_behind_empty hb, join_of_behind_empty hb]
    rfl
  | some target =>
    cases ha : a.head with
    | none =>
      rw [join_of_before_empty ha hb, join_of_before_empty ha hb]
      rfl
    | some head => rw [join_of_heads ha hb, join_of_heads ha hb, build_fillAll p h]

/-- Three plans behind one another may be grouped in either way. -/
theorem build_seq_assoc (p q r : Plan) : ((p.seq q).seq r).build = (p.seq (q.seq r)).build := by
  funext g
  obtain ⟨-, hp⟩ := p.wired g
  obtain ⟨-, hq⟩ := q.wired (p.build g).2
  have hbefore : ∀ slot ∈ (p.build g).1.exits, slot.node < (q.build (p.build g).2).2.size :=
    fun slot hslot => Nat.lt_of_lt_of_le (hp.exit_open hslot).2.1 hq.size
  have hapart : ∀ slot ∈ (p.build g).1.exits, slot ∉ (q.build (p.build g).2).1.exits :=
    fun slot hslot hslot' => Nat.not_le.2 (hp.exit_open hslot).2.1 (hq.exit_open hslot').1
  -- `r` is built alike whether the exits of `p` are set before it or behind it
  have hchain := join_fst (p.build g).1 (q.build (p.build g).2).1 (q.build (p.build g).2).2
    (r.build (q.build (p.build g).2).2).2
  rw [build_seq, build_seq, build_join r hbefore, hchain, build_seq, build_seq]
  exact join_assoc hapart _

theorem build_nothing_seq (p : Plan) : (nothing.seq p).build = p.build := by
  funext g
  obtain ⟨-, hp⟩ := p.wired g
  rw [build_seq]
  show (p.build g).2.join .empty (p.build g).1 = p.build g
  cases hhead : (p.build g).1.head with
  | none =>
    rw [join_of_behind_empty hhead, ← hp.eq_empty hhead]
    rfl
  | some head =>
    rw [join_of_before_empty rfl hhead]
    rfl

theorem build_seq_nothing (p : Plan) : (p.seq nothing).build = p.build := by
  funext g
  rw [build_seq]
  exact join_empty_right ..

end Plan

end Seudocodigo
