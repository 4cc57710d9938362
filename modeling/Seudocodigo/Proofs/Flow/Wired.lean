import Mathlib.Logic.Relation
import Seudocodigo.Proofs.Flow.Nodes
import Seudocodigo.Proofs.Flow.Plan

/-! Where the links of a part of a graph lead: to nodes of the part, or nowhere yet, and then they
are exits of its chain. -/
namespace Seudocodigo
namespace Graph

open Relation

def Linked (g : Graph) (i j : NodeId) : Prop := ∃ link, g.link? ⟨i, link⟩ = some (some j)

def Next (g : Graph) (i j : NodeId) : Prop := g.link? ⟨i, .next⟩ = some (some j)

/-- From a number on the links of a graph are those of a chain: its exits are the links that lead
nowhere yet, each of them once, and the other links lead to nodes from the number on. -/
structure Wired (lo : Nat) (c : Chain) (g : Graph) : Prop where
  size : lo ≤ g.size
  nodup : c.exits.Nodup
  mem_exits : ∀ slot, slot ∈ c.exits ↔ lo ≤ slot.node ∧ g.link? slot = some none
  inside : ∀ slot target, lo ≤ slot.node → g.link? slot = some (some target) →
    lo ≤ target ∧ target < g.size
  empty : c.head = none → g.size = lo
  head : ∀ head, c.head = some head → lo ≤ head ∧ head < g.size
  reaches : ∀ head id, c.head = some head → lo ≤ id → id < g.size → ReflTransGen g.Linked head id
  /-- What follows in the text comes to an exit from everywhere. -/
  tails : ∀ id, lo ≤ id → id < g.size →
    ∃ last, ReflTransGen g.Next id last ∧ ⟨last, .next⟩ ∈ c.exits
  /-- What follows in the body of a loop comes back to the loop. -/
  bodies : ∀ id body?, lo ≤ id → g.link? ⟨id, .bodyHead⟩ = some body? →
    ∃ first, body? = some first ∧ ReflTransGen g.Next first id

def LinksKept (g h : Graph) : Prop :=
  ∀ slot target, g.link? slot = some (some target) → h.link? slot = some (some target)

variable {lo : Nat} {g g' h : Graph} {c c' : Chain} {i j : NodeId}

theorem ext_find? (hsize : h.size = g.size)
    (hfind : ∀ id, id < g.size → h.find? id = g.find? id) : h = g := by
  obtain ⟨ns⟩ := g
  obtain ⟨ms⟩ := h
  congr 1
  refine Array.ext hsize fun id hid hid' => ?_
  have hsame := hfind id hid'
  rw [find?, find?, Array.getElem?_eq_getElem hid, Array.getElem?_eq_getElem hid'] at hsame
  exact Option.some.inj hsame

namespace LinksKept

theorem trans (hk : LinksKept g g') (hk' : LinksKept g' h) : LinksKept g h :=
  fun slot target hlink => hk' slot target (hk slot target hlink)

theorem linked (hk : LinksKept g h) (hij : ReflTransGen g.Linked i j) :
    ReflTransGen h.Linked i j :=
  ReflTransGen.mono (fun _ _ ⟨link, hlink⟩ => ⟨link, hk _ _ hlink⟩) _ _ hij

theorem next (hk : LinksKept g h) (hij : ReflTransGen g.Next i j) : ReflTransGen h.Next i j :=
  ReflTransGen.mono (fun _ _ hlink => hk _ _ hlink) _ _ hij

end LinksKept

theorem linksKept_of_find? (hg : ∀ id, id < g.size → g'.find? id = g.find? id) :
    LinksKept g g' := by
  intro slot target hlink
  rw [link?_congr (hg _ (lt_size_of_link? hlink)), hlink]

/-- Links that lead nowhere yet are set, and the others stay. -/
theorem link?_fillAll_open (g : Graph) (target : NodeId) {slots : List Slot}
    (hopen : ∀ slot ∈ slots, g.link? slot = some none) (slot : Slot) :
    (g.fillAll target slots).link? slot =
      if slot ∈ slots then some (some target) else g.link? slot := by
  split
  · next hs => exact link?_fillAll_of_mem _ _ _ hs (hopen slot hs)
  · next hs => exact link?_fillAll_of_not_mem _ _ _ hs

theorem linksKept_fillAll (g : Graph) (target : NodeId) {slots : List Slot}
    (hopen : ∀ slot ∈ slots, g.link? slot = some none) : LinksKept g (g.fillAll target slots) := by
  intro slot other hto
  rw [link?_fillAll_open g target hopen, if_neg fun hs => ?_, hto]
  rw [hopen slot hs] at hto
  cases hto

/-- Behind a node there are the links that there were before and those of the node. -/
theorem link?_add_cases {node : Node} {slot : Slot} {to? : Option NodeId}
    (h : (g.add node).2.link? slot = some to?) :
    slot.node = g.size ∧ node.link? slot.link = some to? ∨
      slot.node < g.size ∧ g.link? slot = some to? := by
  have hlt := lt_size_of_link? h
  rw [size_add] at hlt
  by_cases hslot : slot.node = g.size
  · refine .inl ⟨hslot, ?_⟩
    rw [← h, ← link?_add_self g node slot.link, ← hslot]
  · have hlt' : slot.node < g.size := Nat.lt_of_le_of_ne (Nat.lt_succ_iff.1 hlt) hslot
    exact .inr ⟨hlt', by rw [← link?_add_lt g node hlt', h]⟩

theorem linksKept_add (g : Graph) (node : Node) : LinksKept g (g.add node).2 := by
  intro slot target hlink
  rw [link?_add_lt g node (lt_size_of_link? hlink), hlink]

theorem wired_empty (g : Graph) : Wired g.size .empty g where
  size := Nat.le_refl _
  nodup := .nil
  mem_exits slot := by
    constructor
    · intro hs
      cases hs
    · rintro ⟨hle, hlink⟩
      exact absurd hle (Nat.not_le.2 (lt_size_of_link? hlink))
  inside slot target hle hlink := absurd hle (Nat.not_le.2 (lt_size_of_link? hlink))
  empty _ := rfl
  head _ hhead := by cases hhead
  reaches _ _ hhead := by cases hhead
  tails id hle hlt := absurd hle (Nat.not_le.2 hlt)
  bodies id body? hle hlink := absurd hle (Nat.not_le.2 (lt_size_of_link? hlink))

namespace Wired

theorem exit_open (hp : Wired lo c g) {slot : Slot} (hs : slot ∈ c.exits) :
    lo ≤ slot.node ∧ slot.node < g.size ∧ g.link? slot = some none := by
  obtain ⟨hle, hlink⟩ := (hp.mem_exits slot).1 hs
  exact ⟨hle, lt_size_of_link? hlink, hlink⟩

theorem exists_exit (hp : Wired lo c g) {head : NodeId} (hhead : c.head = some head) :
    ∃ slot, slot ∈ c.exits := by
  obtain ⟨hle, hlt⟩ := hp.head head hhead
  obtain ⟨last, -, hlast⟩ := hp.tails head hle hlt
  exact ⟨_, hlast⟩

end Wired

section Attach

variable {head target : NodeId} (hp : Wired lo c g)
  (hg : ∀ id, id < g.size → g'.find? id = g.find? id)

include hp hg

/-- What is built behind a chain leaves its exits open. -/
theorem Wired.open_behind {slot : Slot} (hs : slot ∈ c.exits) : g'.link? slot = some none := by
  obtain ⟨-, hlt, hlink⟩ := hp.exit_open hs
  rw [link?_congr (hg _ hlt), hlink]

/-- The links of a chain with another one behind it. -/
theorem link?_attach_cases {slot : Slot} {to? : Option NodeId}
    (h : (g'.fillAll target c.exits).link? slot = some to?) :
    slot ∈ c.exits ∧ to? = some target ∨
      slot ∉ c.exits ∧ slot.node < g.size ∧ g.link? slot = some to? ∨
      slot ∉ c.exits ∧ g.size ≤ slot.node ∧ g'.link? slot = some to? := by
  rw [link?_fillAll_open g' target fun _ => hp.open_behind hg] at h
  split at h
  · next hs =>
    cases h
    exact .inl ⟨hs, rfl⟩
  · next hs =>
    by_cases hlt : slot.node < g.size
    · exact .inr (.inl ⟨hs, hlt, by rw [← link?_congr (hg _ hlt), h]⟩)
    · exact .inr (.inr ⟨hs, Nat.not_lt.1 hlt, h⟩)

theorem Wired.link?_attach_exit {slot : Slot} (hs : slot ∈ c.exits) :
    (g'.fillAll target c.exits).link? slot = some (some target) :=
  link?_fillAll_of_mem _ _ _ hs (hp.open_behind hg hs)

theorem Wired.linksKept_behind : LinksKept g' (g'.fillAll target c.exits) :=
  linksKept_fillAll g' target fun _ => hp.open_behind hg

theorem Wired.linksKept_before : LinksKept g (g'.fillAll target c.exits) :=
  (linksKept_of_find? hg).trans (hp.linksKept_behind hg)

variable (hq : Wired g.size c' g')

include hq

theorem Wired.mem_exits_attach (slot : Slot) :
    slot ∈ c'.exits ↔ lo ≤ slot.node ∧ (g'.fillAll target c.exits).link? slot = some none := by
  constructor
  · intro hs
    obtain ⟨hle, -, hlink⟩ := hq.exit_open hs
    refine ⟨Nat.le_trans hp.size hle, ?_⟩
    rw [link?_fillAll_of_not_mem _ _ _ fun hs' => ?_, hlink]
    exact absurd hle (Nat.not_le.2 (hp.exit_open hs').2.1)
  · rintro ⟨hle, hlink⟩
    obtain ⟨-, hto⟩ | ⟨hnot, -, hlink⟩ | ⟨-, hle', hlink⟩ := link?_attach_cases hp hg hlink
    · cases hto
    · exact absurd ((hp.mem_exits slot).2 ⟨hle, hlink⟩) hnot
    · exact (hq.mem_exits slot).2 ⟨hle', hlink⟩

theorem Wired.bodies_attach {id : NodeId} {body? : Option NodeId} (hle : lo ≤ id)
    (hlink : (g'.fillAll target c.exits).link? ⟨id, .bodyHead⟩ = some body?) :
    ∃ first, body? = some first ∧ ReflTransGen (g'.fillAll target c.exits).Next first id := by
  obtain ⟨hs, -⟩ | ⟨-, -, hlink⟩ | ⟨-, hle', hlink⟩ := link?_attach_cases hp hg hlink
  · obtain ⟨first, hfirst, -⟩ := hp.bodies id none hle (hp.exit_open hs).2.2
    cases hfirst
  · obtain ⟨first, hfirst, hback⟩ := hp.bodies id body? hle hlink
    exact ⟨first, hfirst, (hp.linksKept_before hg).next hback⟩
  · obtain ⟨first, hfirst, hback⟩ := hq.bodies id body? hle' hlink
    exact ⟨first, hfirst, (hp.linksKept_behind hg).next hback⟩

variable (hhead' : c'.head = some target)

include hhead'

theorem Wired.inside_attach {slot : Slot} {other : NodeId} (hle : lo ≤ slot.node)
    (hlink : (g'.fillAll target c.exits).link? slot = some (some other)) :
    lo ≤ other ∧ other < g'.size := by
  have hlo := hp.size
  obtain ⟨htarget, htarget'⟩ := hq.head target hhead'
  obtain ⟨-, hto⟩ | ⟨-, -, hlink⟩ | ⟨-, hle', hlink⟩ := link?_attach_cases hp hg hlink
  · cases hto
    exact ⟨Nat.le_trans hlo htarget, htarget'⟩
  · obtain ⟨hto, hto'⟩ := hp.inside slot other hle hlink
    exact ⟨hto, Nat.lt_of_lt_of_le hto' hq.size⟩
  · obtain ⟨hto, hto'⟩ := hq.inside slot other hle' hlink
    exact ⟨Nat.le_trans hlo hto, hto'⟩

/-- From the first chain some exit leads to the head of the second one. -/
theorem Wired.reaches_attach (hhead : c.head = some head) {id : NodeId} (hle : lo ≤ id)
    (hlt : id < g'.size) : ReflTransGen (g'.fillAll target c.exits).Linked head id := by
  by_cases hid : id < g.size
  · exact (hp.linksKept_before hg).linked (hp.reaches head id hhead hle hid)
  · obtain ⟨slot, hs⟩ := hp.exists_exit hhead
    obtain ⟨hslot, hslot', -⟩ := hp.exit_open hs
    have hfirst := hp.reaches head slot.node hhead hslot hslot'
    have hover : Linked (g'.fillAll target c.exits) slot.node target :=
      ⟨slot.link, hp.link?_attach_exit hg hs⟩
    have hrest := hq.reaches target id hhead' (Nat.not_lt.1 hid) hlt
    exact (((hp.linksKept_before hg).linked hfirst).tail hover).trans
      ((hp.linksKept_behind hg).linked hrest)

theorem Wired.tails_attach {id : NodeId} (hle : lo ≤ id) (hlt : id < g'.size) :
    ∃ last, ReflTransGen (g'.fillAll target c.exits).Next id last ∧ ⟨last, .next⟩ ∈ c'.exits := by
  by_cases hid : id < g.size
  · obtain ⟨last, hlast, hexit⟩ := hp.tails id hle hid
    obtain ⟨htarget, htarget'⟩ := hq.head target hhead'
    obtain ⟨last', hlast', hexit'⟩ := hq.tails target htarget htarget'
    have hover : Next (g'.fillAll target c.exits) last target := hp.link?_attach_exit hg hexit
    exact ⟨last', (((hp.linksKept_before hg).next hlast).tail hover).trans
      ((hp.linksKept_behind hg).next hlast'), hexit'⟩
  · obtain ⟨last, hlast, hexit⟩ := hq.tails id (Nat.not_lt.1 hid) hlt
    exact ⟨last, (hp.linksKept_behind hg).next hlast, hexit⟩

theorem Wired.attach (hhead : c.head = some head) :
    Wired lo ⟨some head, c'.exits⟩ (g'.fillAll target c.exits) where
  size := by
    rw [size_fillAll]
    exact Nat.le_trans hp.size hq.size
  nodup := hq.nodup
  mem_exits slot := (hp.mem_exits_attach hg hq slot :)
  inside slot other hle hlink := by
    rw [size_fillAll]
    exact hp.inside_attach hg hq hhead' hle hlink
  empty hnone := by cases hnone
  head first hfirst := by
    cases hfirst
    obtain ⟨hle, hlt⟩ := hp.head head hhead
    exact ⟨hle, by rw [size_fillAll]; exact Nat.lt_of_lt_of_le hlt hq.size⟩
  reaches first id hfirst hle hlt := by
    cases hfirst
    rw [size_fillAll] at hlt
    exact hp.reaches_attach hg hq hhead' hhead hle hlt
  tails id hle hlt := by
    rw [size_fillAll] at hlt
    exact hp.tails_attach hg hq hhead' hle hlt
  bodies id body? hle hlink := hp.bodies_attach hg hq hle hlink

end Attach

/-- Two chains behind one another are one. -/
theorem Wired.join (hp : Wired lo c g) (hq : Wired g.size c' g')
    (hg : ∀ id, id < g.size → g'.find? id = g.find? id) :
    (∀ id, id < lo → (g'.join c c').2.find? id = g'.find? id) ∧
      Wired lo (g'.join c c').1 (g'.join c c').2 := by
  cases hhead' : c'.head with
  | none =>
    obtain rfl : g' = g := ext_find? (hq.empty hhead') hg
    rw [join_of_behind_empty hhead']
    exact ⟨fun _ _ => rfl, hp⟩
  | some target =>
    cases hhead : c.head with
    | none =>
      obtain rfl : g.size = lo := hp.empty hhead
      rw [join_of_before_empty hhead hhead']
      exact ⟨fun _ _ => rfl, hq⟩
    | some head =>
      rw [join_of_heads hhead hhead']
      refine ⟨fun id hid => find?_fillAll_of_ne _ _ _ fun slot hs he => ?_,
        hp.attach hg hq hhead' hhead⟩
      exact absurd (hp.exit_open hs).1 (Nat.not_le.2 (he ▸ hid))

theorem wired_action (g : Graph) (a : Action) :
    Wired g.size ⟨some g.size, [⟨g.size, .next⟩]⟩ (g.add (.generic a none)).2 := by
  have hself (id : NodeId) (hle : g.size ≤ id) (hlt : id < (g.add (.generic a none)).2.size) :
      id = g.size := by
    rw [size_add] at hlt
    exact Nat.le_antisymm (Nat.lt_succ_iff.1 hlt) hle
  have hlinks {slot : Slot} {to? : Option NodeId} (hle : g.size ≤ slot.node)
      (hlink : (g.add (.generic a none)).2.link? slot = some to?) :
      slot = ⟨g.size, .next⟩ ∧ to? = none := by
    obtain ⟨id, link⟩ := slot
    obtain ⟨hid, hlink⟩ | ⟨hlt, -⟩ := link?_add_cases hlink
    · cases link <;> cases hlink
      exact ⟨congrArg (Slot.mk · .next) hid, rfl⟩
    · exact absurd hle (Nat.not_le.2 hlt)
  refine ⟨by rw [size_add]; exact Nat.le_succ _, List.pairwise_singleton _ _, fun slot => ?_,
    fun slot target hle hlink => ?_, nofun, ?_, ?_, ?_, fun id body? hle hlink => ?_⟩
  · rw [List.mem_singleton]
    constructor
    · rintro rfl
      exact ⟨Nat.le_refl _, link?_add_self ..⟩
    · rintro ⟨hle, hlink⟩
      exact (hlinks hle hlink).1
  · cases (hlinks hle hlink).2
  · rintro head hhead
    cases hhead
    exact ⟨Nat.le_refl _, by rw [size_add]; exact Nat.lt_succ_self _⟩
  · rintro head id hhead hle hlt
    cases hhead
    rw [hself id hle hlt]
  · intro id hle hlt
    rw [hself id hle hlt]
    exact ⟨g.size, .refl, List.mem_singleton_self _⟩
  · cases (hlinks hle hlink).1

/-- The exits of a part, or the link that would lead to it if there were nodes. -/
theorem Wired.mem_exitsOr (hp : Wired lo c g) {slot other : Slot} :
    slot ∈ c.exitsOr other ↔ c.head = none ∧ slot = other ∨ slot ∈ c.exits := by
  rw [Graph.mem_exitsOr]
  constructor
  · rintro (h | ⟨-, hs⟩)
    · exact .inl h
    · exact .inr hs
  · rintro (h | hs)
    · exact .inl h
    · refine .inr ⟨fun hhead => ?_, hs⟩
      obtain ⟨hle, hlt, -⟩ := hp.exit_open hs
      rw [hp.empty hhead] at hlt
      exact absurd hle (Nat.not_le.2 hlt)

theorem Wired.nodup_exitsOr (hp : Wired lo c g) (other : Slot) : (c.exitsOr other).Nodup := by
  rw [Chain.exitsOr]
  split
  · exact List.pairwise_singleton _ other
  · exact hp.nodup

section Branch

variable {condition : List Action} {id : NodeId} {slot : Slot}

section Cases

variable (hg : ∀ id, id < g.size → g'.find? id = g.find? id)

include hg

/-- The links of the node of a conditional and of its branches. -/
theorem link?_addBranch_cases {to? : Option NodeId}
    (h : (addBranch condition c c' g').link? slot = some to?) :
    slot = ⟨g'.size, .next⟩ ∧ to? = none ∨ slot = ⟨g'.size, .trueHead⟩ ∧ to? = c.head ∨
      slot = ⟨g'.size, .falseHead⟩ ∧ to? = c'.head ∨
        slot.node < g.size ∧ g.link? slot = some to? ∨
          g.size ≤ slot.node ∧ slot.node < g'.size ∧ g'.link? slot = some to? := by
  obtain ⟨id, link⟩ := slot
  obtain ⟨rfl, hlink⟩ | ⟨hlt, hlink⟩ := link?_add_cases h
  · cases link <;> cases hlink
    · exact .inl ⟨rfl, rfl⟩
    · exact .inr (.inl ⟨rfl, rfl⟩)
    · exact .inr (.inr (.inl ⟨rfl, rfl⟩))
  · by_cases hid : id < g.size
    · exact .inr (.inr (.inr (.inl ⟨hid, by rw [← link?_congr (hg id hid), hlink]⟩)))
    · exact .inr (.inr (.inr (.inr ⟨Nat.not_lt.1 hid, hlt, hlink⟩)))

theorem linksKept_addBranch : LinksKept g (addBranch condition c c' g') :=
  (linksKept_of_find? hg).trans (linksKept_add g' _)

end Cases

variable (hp : Wired lo c g) (hq : Wired g.size c' g')

include hp hq

theorem Wired.mem_branchExits : slot ∈ branchExits id c c' ↔ slot = ⟨id, .next⟩ ∨
    (c.head = none ∧ slot = ⟨id, .trueHead⟩ ∨ slot ∈ c.exits) ∨
      (c'.head = none ∧ slot = ⟨id, .falseHead⟩ ∨ slot ∈ c'.exits) := by
  simp only [branchExits, List.cons_append, List.mem_cons, List.mem_append, hp.mem_exitsOr,
    hq.mem_exitsOr]

theorem Wired.nodup_branchExits : (branchExits g'.size c c').Nodup := by
  have hexit (slot : Slot) (hs : slot ∈ c.exits) : slot.node < g.size := (hp.exit_open hs).2.1
  have hexit' (slot : Slot) (hs : slot ∈ c'.exits) : g.size ≤ slot.node ∧ slot.node < g'.size :=
    ⟨(hq.exit_open hs).1, (hq.exit_open hs).2.1⟩
  rw [branchExits, List.cons_append, List.nodup_cons, List.nodup_append]
  refine ⟨fun hs => ?_, hp.nodup_exitsOr _, hq.nodup_exitsOr _, fun slot hs slot' hs' he => ?_⟩
  · rw [List.mem_append, hp.mem_exitsOr, hq.mem_exitsOr] at hs
    obtain (⟨-, hs⟩ | hs) | (⟨-, hs⟩ | hs) := hs
    · cases hs
    · exact absurd (hexit _ hs) (Nat.not_lt.2 hq.size)
    · cases hs
    · exact absurd (hexit' _ hs).2 (Nat.lt_irrefl _)
  · subst he
    obtain ⟨-, rfl⟩ | hs := hp.mem_exitsOr.1 hs
    · obtain ⟨-, hs'⟩ | hs' := hq.mem_exitsOr.1 hs'
      · cases hs'
      · exact absurd (hexit' _ hs').2 (Nat.lt_irrefl _)
    · obtain ⟨-, rfl⟩ | hs' := hq.mem_exitsOr.1 hs'
      · exact absurd (hexit _ hs) (Nat.not_lt.2 hq.size)
      · exact absurd (hexit _ hs) (Nat.not_lt.2 (hexit' _ hs').1)

variable (hg : ∀ id, id < g.size → g'.find? id = g.find? id)

include hg

theorem Wired.mem_exits_addBranch (slot : Slot) : slot ∈ branchExits g'.size c c' ↔
    lo ≤ slot.node ∧ (addBranch condition c c' g').link? slot = some none := by
  have hlo : lo ≤ g'.size := Nat.le_trans hp.size hq.size
  rw [hp.mem_branchExits hq]
  constructor
  · rintro (rfl | (⟨hc, rfl⟩ | hs) | (⟨hc, rfl⟩ | hs))
    · exact ⟨hlo, link?_addBranch_self .next⟩
    · exact ⟨hlo, by rw [link?_addBranch_self, hc]; rfl⟩
    · obtain ⟨hle, hlt, -⟩ := hp.exit_open hs
      refine ⟨hle, ?_⟩
      rw [addBranch, link?_add_lt _ _ (Nat.lt_of_lt_of_le hlt hq.size), hp.open_behind hg hs]
    · exact ⟨hlo, by rw [link?_addBranch_self, hc]; rfl⟩
    · obtain ⟨hle, hlt, hlink⟩ := hq.exit_open hs
      exact ⟨Nat.le_trans hp.size hle, by rw [addBranch, link?_add_lt _ _ hlt, hlink]⟩
  · rintro ⟨hle, hlink⟩
    obtain ⟨rfl, -⟩ | ⟨rfl, hc⟩ | ⟨rfl, hc⟩ | ⟨-, hlink⟩ | ⟨hle', -, hlink⟩ :=
      link?_addBranch_cases hg hlink
    · exact .inl rfl
    · exact .inr (.inl (.inl ⟨hc.symm, rfl⟩))
    · exact .inr (.inr (.inl ⟨hc.symm, rfl⟩))
    · exact .inr (.inl (.inr ((hp.mem_exits slot).2 ⟨hle, hlink⟩)))
    · exact .inr (.inr (.inr ((hq.mem_exits slot).2 ⟨hle', hlink⟩)))

theorem Wired.inside_addBranch {target : NodeId} (hle : lo ≤ slot.node)
    (hlink : (addBranch condition c c' g').link? slot = some (some target)) :
    lo ≤ target ∧ target < g'.size := by
  obtain ⟨-, hto⟩ | ⟨-, hto⟩ | ⟨-, hto⟩ | ⟨-, hlink⟩ | ⟨hle', -, hlink⟩ :=
    link?_addBranch_cases hg hlink
  · cases hto
  · obtain ⟨hto, hto'⟩ := hp.head target hto.symm
    exact ⟨hto, Nat.lt_of_lt_of_le hto' hq.size⟩
  · obtain ⟨hto, hto'⟩ := hq.head target hto.symm
    exact ⟨Nat.le_trans hp.size hto, hto'⟩
  · obtain ⟨hto, hto'⟩ := hp.inside slot target hle hlink
    exact ⟨hto, Nat.lt_of_lt_of_le hto' hq.size⟩
  · obtain ⟨hto, hto'⟩ := hq.inside slot target hle' hlink
    exact ⟨Nat.le_trans hp.size hto, hto'⟩

/-- The node leads to the heads of its branches, and these to all of their nodes. -/
theorem Wired.reaches_addBranch (hle : lo ≤ id) (hlt : id < g'.size) :
    ReflTransGen (addBranch condition c c' g').Linked g'.size id := by
  by_cases hid : id < g.size
  · cases hc : c.head with
    | none => exact absurd hle (Nat.not_le.2 (hp.empty hc ▸ hid))
    | some first =>
      have hstep : (addBranch condition c c' g').Linked g'.size first :=
        ⟨.trueHead, by rw [link?_addBranch_self, hc]; rfl⟩
      exact ((linksKept_addBranch hg).linked (hp.reaches first id hc hle hid)).head hstep
  · cases hc : c'.head with
    | none => exact absurd hlt (hq.empty hc ▸ hid)
    | some first =>
      have hstep : (addBranch condition c c' g').Linked g'.size first :=
        ⟨.falseHead, by rw [link?_addBranch_self, hc]; rfl⟩
      have hrest := hq.reaches first id hc (Nat.not_lt.1 hid) hlt
      exact ((linksKept_add g' _).linked hrest).head hstep

theorem Wired.tails_addBranch (hle : lo ≤ id) (hlt : id < g'.size) :
    ∃ last, ReflTransGen (addBranch condition c c' g').Next id last ∧
      ⟨last, .next⟩ ∈ branchExits g'.size c c' := by
  by_cases hid : id < g.size
  · obtain ⟨last, hlast, hs⟩ := hp.tails id hle hid
    exact ⟨last, (linksKept_addBranch hg).next hlast,
      (hp.mem_branchExits hq).2 (.inr (.inl (.inr hs)))⟩
  · obtain ⟨last, hlast, hs⟩ := hq.tails id (Nat.not_lt.1 hid) hlt
    exact ⟨last, (linksKept_add g' _).next hlast,
      (hp.mem_branchExits hq).2 (.inr (.inr (.inr hs)))⟩

theorem Wired.bodies_addBranch {body? : Option NodeId} (hle : lo ≤ id)
    (hlink : (addBranch condition c c' g').link? ⟨id, .bodyHead⟩ = some body?) :
    ∃ first, body? = some first ∧ ReflTransGen (addBranch condition c c' g').Next first id := by
  obtain ⟨hs, -⟩ | ⟨hs, -⟩ | ⟨hs, -⟩ | ⟨-, hlink⟩ | ⟨hle', -, hlink⟩ :=
    link?_addBranch_cases hg hlink
  · cases hs
  · cases hs
  · cases hs
  · obtain ⟨first, hfirst, hback⟩ := hp.bodies id body? hle hlink
    exact ⟨first, hfirst, (linksKept_addBranch hg).next hback⟩
  · obtain ⟨first, hfirst, hback⟩ := hq.bodies id body? hle' hlink
    exact ⟨first, hfirst, (linksKept_add g' _).next hback⟩

theorem Wired.branch (condition : List Action) :
    Wired lo ⟨some g'.size, branchExits g'.size c c'⟩ (addBranch condition c c' g') where
  size := by
    rw [size_addBranch]
    exact Nat.le_succ_of_le (Nat.le_trans hp.size hq.size)
  nodup := hp.nodup_branchExits hq
  mem_exits := hp.mem_exits_addBranch hq hg
  inside slot target hle hlink := by
    obtain ⟨hto, hto'⟩ := hp.inside_addBranch hq hg hle hlink
    exact ⟨hto, by rw [size_addBranch]; exact Nat.lt_succ_of_lt hto'⟩
  empty hnone := by cases hnone
  head first hfirst := by
    cases hfirst
    exact ⟨Nat.le_trans hp.size hq.size, by rw [size_addBranch]; exact Nat.lt_succ_self _⟩
  reaches first id hfirst hle hlt := by
    cases hfirst
    rw [size_addBranch] at hlt
    obtain hlt | rfl := Nat.lt_succ_iff_lt_or_eq.1 hlt
    · exact hp.reaches_addBranch hq hg hle hlt
    · exact .refl
  tails id hle hlt := by
    rw [size_addBranch] at hlt
    obtain hlt | rfl := Nat.lt_succ_iff_lt_or_eq.1 hlt
    · exact hp.tails_addBranch hq hg hle hlt
    · exact ⟨g'.size, .refl, List.mem_cons_self⟩
  bodies id body? hle hlink := hp.bodies_addBranch hq hg hle hlink

end Branch

section Loop

variable {kind : LoopKind} {condition : List Action}

/-- The link to the body of a loop that is empty leads nowhere, nor do the exits of another body,
before they are set. -/
theorem Wired.open_of_mem_exitsOr (hp : Wired lo c g) {slot : Slot}
    (hs : slot ∈ c.exitsOr ⟨g.size, .bodyHead⟩) :
    (g.add (.loop kind condition c.head none .programBody)).2.link? slot = some none := by
  obtain ⟨hc, rfl⟩ | hs := hp.mem_exitsOr.1 hs
  · rw [link?_add_self, hc]
    rfl
  · obtain ⟨-, hlt, hlink⟩ := hp.exit_open hs
    rw [link?_add_lt _ _ hlt, hlink]

/-- The links of the node of a loop and of its body. -/
theorem link?_addLoop_cases (hp : Wired lo c g) {slot : Slot} {to? : Option NodeId}
    (h : (addLoop kind condition c g).link? slot = some to?) :
    slot = ⟨g.size, .next⟩ ∧ to? = none ∨
      slot = ⟨g.size, .bodyHead⟩ ∧ to? = some (c.head.getD g.size) ∨
        slot ∈ c.exits ∧ to? = some g.size ∨
          slot ∉ c.exits ∧ slot.node < g.size ∧ g.link? slot = some to? := by
  rw [addLoop, link?_fillAll_open _ _ fun _ hs => hp.open_of_mem_exitsOr hs] at h
  split at h
  · next hs =>
    cases h
    obtain ⟨hc, rfl⟩ | hs := hp.mem_exitsOr.1 hs
    · exact .inr (.inl ⟨rfl, by rw [hc]; rfl⟩)
    · exact .inr (.inr (.inl ⟨hs, rfl⟩))
  · next hs =>
    rw [hp.mem_exitsOr, not_or, not_and] at hs
    obtain ⟨id, link⟩ := slot
    obtain ⟨rfl, hlink⟩ | ⟨hlt, hlink⟩ := link?_add_cases h
    · cases link <;> cases hlink
      · exact .inl ⟨rfl, rfl⟩
      · cases hc : c.head with
        | none => exact absurd rfl (hs.1 hc)
        | some first => exact .inr (.inl ⟨rfl, rfl⟩)
    · exact .inr (.inr (.inr ⟨hs.2, hlt, hlink⟩))

theorem Wired.link?_addLoop_next (hp : Wired lo c g) :
    (Graph.addLoop kind condition c g).link? ⟨g.size, .next⟩ = some none := by
  rw [Graph.addLoop, link?_fillAll_of_not_mem _ _ _ fun hs => ?_, link?_add_self]
  · rfl
  · obtain ⟨-, hs⟩ | hs := hp.mem_exitsOr.1 hs
    · cases hs
    · exact absurd (hp.exit_open hs).2.1 (Nat.lt_irrefl _)

theorem Wired.link?_addLoop_bodyHead (hp : Wired lo c g) :
    (Graph.addLoop kind condition c g).link? ⟨g.size, .bodyHead⟩ =
      some (some (c.head.getD g.size)) := by
  have hself := link?_add_self g (.loop kind condition c.head none .programBody) .bodyHead
  rw [Graph.addLoop, link?_fillAll_open _ _ fun _ hs => hp.open_of_mem_exitsOr hs, hself]
  cases hc : c.head with
  | none => rw [if_pos (hp.mem_exitsOr.2 (.inl ⟨hc, rfl⟩))]; rfl
  | some first =>
    rw [if_neg fun hs => ?_]
    · rfl
    · obtain ⟨hnone, -⟩ | hs := hp.mem_exitsOr.1 hs
      · rw [hc] at hnone
        cases hnone
      · exact absurd (hp.exit_open hs).2.1 (Nat.lt_irrefl _)

variable (hp : Wired lo c g)

include hp

theorem Wired.linksKept_addLoop : LinksKept g (Graph.addLoop kind condition c g) :=
  (linksKept_add g _).trans (linksKept_fillAll _ _ fun _ hs => hp.open_of_mem_exitsOr hs)

/-- What follows in the body of a loop comes to the loop. -/
theorem Wired.next_addLoop {id : NodeId} (hle : lo ≤ id) (hlt : id < g.size) :
    ReflTransGen (Graph.addLoop kind condition c g).Next id g.size := by
  obtain ⟨last, hlast, hs⟩ := hp.tails id hle hlt
  have hexit : (⟨last, .next⟩ : Slot) ∈ c.exitsOr ⟨g.size, .bodyHead⟩ :=
    hp.mem_exitsOr.2 (.inr hs)
  have hback : (Graph.addLoop kind condition c g).Next last g.size :=
    link?_fillAll_of_mem _ _ _ hexit (hp.open_of_mem_exitsOr hexit)
  exact (hp.linksKept_addLoop.next hlast).tail hback

theorem Wired.mem_exits_addLoop (slot : Slot) : slot ∈ [(⟨g.size, .next⟩ : Slot)] ↔
    lo ≤ slot.node ∧ (Graph.addLoop kind condition c g).link? slot = some none := by
  rw [List.mem_singleton]
  constructor
  · rintro rfl
    exact ⟨hp.size, hp.link?_addLoop_next⟩
  · rintro ⟨hle, hlink⟩
    obtain ⟨hs, -⟩ | ⟨-, hto⟩ | ⟨-, hto⟩ | ⟨hs, -, hlink⟩ := link?_addLoop_cases hp hlink
    · exact hs
    · cases hto
    · cases hto
    · exact absurd ((hp.mem_exits slot).2 ⟨hle, hlink⟩) hs

theorem Wired.inside_addLoop {slot : Slot} {target : NodeId} (hle : lo ≤ slot.node)
    (hlink : (Graph.addLoop kind condition c g).link? slot = some (some target)) :
    lo ≤ target ∧ target < g.size + 1 := by
  obtain ⟨-, hto⟩ | ⟨-, hto⟩ | ⟨-, hto⟩ | ⟨-, -, hlink⟩ := link?_addLoop_cases hp hlink
  · cases hto
  · cases hto
    cases hc : c.head with
    | none => exact ⟨hp.size, Nat.lt_succ_self _⟩
    | some first =>
      obtain ⟨hle', hlt⟩ := hp.head first hc
      exact ⟨hle', Nat.lt_succ_of_lt hlt⟩
  · cases hto
    exact ⟨hp.size, Nat.lt_succ_self _⟩
  · obtain ⟨hle', hlt⟩ := hp.inside slot target hle hlink
    exact ⟨hle', Nat.lt_succ_of_lt hlt⟩

theorem Wired.bodies_addLoop {id : NodeId} {body? : Option NodeId} (hle : lo ≤ id)
    (hlink : (Graph.addLoop kind condition c g).link? ⟨id, .bodyHead⟩ = some body?) :
    ∃ first, body? = some first ∧
      ReflTransGen (Graph.addLoop kind condition c g).Next first id := by
  obtain ⟨hs, -⟩ | ⟨hs, hto⟩ | ⟨hs, -⟩ | ⟨-, -, hlink⟩ := link?_addLoop_cases hp hlink
  · cases hs
  · cases hs
    refine ⟨c.head.getD g.size, hto, ?_⟩
    cases hc : c.head with
    | none => exact .refl
    | some first =>
      obtain ⟨hle', hlt⟩ := hp.head first hc
      exact hp.next_addLoop hle' hlt
  · obtain ⟨first, hfirst, -⟩ := hp.bodies id none hle (hp.exit_open hs).2.2
    cases hfirst
  · obtain ⟨first, hfirst, hback⟩ := hp.bodies id body? hle hlink
    exact ⟨first, hfirst, hp.linksKept_addLoop.next hback⟩

/-- The loop leads to the head of its body, and this to all nodes of the body. -/
theorem Wired.reaches_addLoop {id : NodeId} (hle : lo ≤ id) (hlt : id < g.size) :
    ReflTransGen (Graph.addLoop kind condition c g).Linked g.size id := by
  cases hc : c.head with
  | none => exact absurd hle (Nat.not_le.2 (hp.empty hc ▸ hlt))
  | some first =>
    have hstep : (Graph.addLoop kind condition c g).Linked g.size first :=
      ⟨.bodyHead, by rw [hp.link?_addLoop_bodyHead, hc]; rfl⟩
    exact (hp.linksKept_addLoop.linked (hp.reaches first id hc hle hlt)).head hstep

/-- A loop can be entered at its test or at its body. -/
theorem Wired.addLoop {head : NodeId} (hhead : head = g.size ∨ c.head = some head) :
    Wired lo ⟨some head, [⟨g.size, .next⟩]⟩ (Graph.addLoop kind condition c g) where
  size := by
    rw [size_addLoop]
    exact Nat.le_succ_of_le hp.size
  nodup := List.pairwise_singleton _ _
  mem_exits := hp.mem_exits_addLoop
  inside slot target hle hlink := by
    rw [size_addLoop]
    exact hp.inside_addLoop hle hlink
  empty hnone := by cases hnone
  head first hfirst := by
    cases hfirst
    rw [size_addLoop]
    obtain rfl | hc := hhead
    · exact ⟨hp.size, Nat.lt_succ_self _⟩
    · obtain ⟨hle, hlt⟩ := hp.head head hc
      exact ⟨hle, Nat.lt_succ_of_lt hlt⟩
  reaches first id hfirst hle hlt := by
    cases hfirst
    rw [size_addLoop] at hlt
    have htest : ReflTransGen (Graph.addLoop kind condition c g).Linked head g.size := by
      obtain rfl | hc := hhead
      · exact .refl
      · obtain ⟨hle', hlt'⟩ := hp.head head hc
        exact ReflTransGen.mono (fun _ _ hlink => ⟨.next, hlink⟩) _ _ (hp.next_addLoop hle' hlt')
    obtain hlt | rfl := Nat.lt_succ_iff_lt_or_eq.1 hlt
    · exact htest.trans (hp.reaches_addLoop hle hlt)
    · exact htest
  tails id hle hlt := by
    rw [size_addLoop] at hlt
    refine ⟨g.size, ?_, List.mem_singleton_self _⟩
    obtain hlt | rfl := Nat.lt_succ_iff_lt_or_eq.1 hlt
    · exact hp.next_addLoop hle hlt
    · exact .refl
  bodies id body? hle hlink := hp.bodies_addLoop hle hlink

end Loop

end Graph

open Seudocodigo.Graph

/-- What a plan adds to a graph is wired, and the nodes that were there stay as they are. -/
theorem Plan.wired (p : Plan) (g : Graph) :
    (∀ id, id < g.size → (p.build g).2.find? id = g.find? id) ∧
      Wired g.size (p.build g).1 (p.build g).2 := by
  induction p generalizing g with
  | nothing => exact ⟨fun _ _ => rfl, wired_empty g⟩
  | action a => exact ⟨fun id hid => find?_add_lt g _ hid, wired_action g a⟩
  | seq p q ihp ihq =>
    obtain ⟨hsame, hp⟩ := ihp g
    obtain ⟨hsame', hq⟩ := ihq (p.build g).2
    obtain ⟨hjoin, hwired⟩ := hp.join hq hsame'
    rw [build_seq]
    refine ⟨fun id hid => ?_, hwired⟩
    exact (hjoin id hid).trans ((hsame' id (Nat.lt_of_lt_of_le hid hp.size)).trans (hsame id hid))
  | branch condition p q ihp ihq =>
    obtain ⟨hsame, hp⟩ := ihp g
    obtain ⟨hsame', hq⟩ := ihq (p.build g).2
    refine ⟨fun id hid => ?_, hp.branch hq hsame' condition⟩
    have hid' := Nat.lt_of_lt_of_le hid hp.size
    exact (find?_add_lt _ _ (Nat.lt_of_lt_of_le hid' hq.size)).trans
      ((hsame' id hid').trans (hsame id hid))
  | loop kind condition p ih =>
    obtain ⟨hsame, hp⟩ := ih g
    refine ⟨fun id hid => ?_, ?_⟩
    · refine Eq.trans (find?_fillAll_of_ne _ _ _ fun slot hs he => ?_)
        ((find?_add_lt _ _ (Nat.lt_of_lt_of_le hid hp.size)).trans (hsame id hid))
      obtain ⟨-, rfl⟩ | hs := hp.mem_exitsOr.1 hs
      · exact absurd (Nat.lt_of_lt_of_le hid hp.size) (he ▸ Nat.lt_irrefl _)
      · exact absurd hid (Nat.not_lt.2 (he ▸ (hp.exit_open hs).1))
    · cases kind with
      | whileLoop => exact hp.addLoop (.inl rfl)
      | untilLoop =>
        have hhead : (p.build g).1.head.getD (p.build g).2.size = (p.build g).2.size ∨
            (p.build g).1.head = some ((p.build g).1.head.getD (p.build g).2.size) := by
          cases (p.build g).1.head with
          | none => exact .inl rfl
          | some head => exact .inr rfl
        exact hp.addLoop hhead

end Seudocodigo
