import Seudocodigo.Graph

/-! Links of graphs: what filling them and adding nodes changes, and what it leaves as it was. -/
namespace Seudocodigo

namespace Node

def bare : Node → Node
  | .generic a _ => .generic a none
  | .branch c .. => .branch c none none none .nextStatement
  | .loop k c .. => .loop k c none none .programBody

theorem bare_setLink (target : NodeId) (link : Link) (node : Node) :
    (node.setLink target link).bare = node.bare := by
  cases node <;> cases link <;> rfl

theorem link?_setLink (target : NodeId) (link other : Link) (node : Node) :
    (node.setLink target link).link? other =
      if link = other then (node.link? link).map fun _ => some target else node.link? other := by
  cases node <;> cases link <;> cases other <;> rfl

end Node

namespace Graph

def link? (g : Graph) (slot : Slot) : Option (Option NodeId) :=
  (g.find? slot.node).bind (·.link? slot.link)

theorem lt_size_of_find? {g : Graph} {id : NodeId} {node : Node} (h : g.find? id = some node) :
    id < g.size := by
  obtain ⟨hlt, -⟩ := Array.getElem?_eq_some_iff.1 h
  exact hlt

theorem lt_size_of_link? {g : Graph} {slot : Slot} {target : Option NodeId}
    (h : g.link? slot = some target) : slot.node < g.size := by
  obtain ⟨node, hn, -⟩ := Option.bind_eq_some_iff.1 h
  exact lt_size_of_find? hn

section Fill

variable (g : Graph) (target : NodeId) (slots : List Slot)

/-- What setting links does not touch stays as it was. -/
theorem find?_fillAll_map {α : Type} {f : Node → α}
    (hf : ∀ link node, f (Node.setLink target link node) = f node) (id : NodeId) :
    ((g.fillAll target slots).find? id).map f = (g.find? id).map f := by
  induction slots generalizing g with
  | nil => rfl
  | cons slot slots ih =>
    refine (ih (g.fill target slot)).trans ?_
    rw [fill, find?_modify]
    split
    · rw [Option.map_map]
      exact congrArg (Option.map · _) (funext (hf slot.link))
    · rfl

theorem link?_fill (slot other : Slot) :
    (g.fill target slot).link? other =
      if slot = other then (g.link? slot).map fun _ => some target else g.link? other := by
  obtain ⟨id, link⟩ := slot
  obtain ⟨id', link'⟩ := other
  simp only [link?, fill, find?_modify, Slot.mk.injEq]
  by_cases hid : id = id'
  · subst hid
    cases g.find? id with
    | none => simp
    | some node => simp [Node.link?_setLink]
  · simp [hid]

theorem find?_fillAll_bare (id : NodeId) :
    ((g.fillAll target slots).find? id).map Node.bare = (g.find? id).map Node.bare :=
  find?_fillAll_map g target slots (Node.bare_setLink target) id

/-- The links of a node after those in a list were set, whether or not they are there. -/
theorem link?_fillAll (slot : Slot) :
    (g.fillAll target slots).link? slot =
      if slot ∈ slots then (g.link? slot).map fun _ => some target else g.link? slot := by
  induction slots generalizing g with
  | nil => rfl
  | cons other slots ih =>
    show ((g.fill target other).fillAll target slots).link? slot = _
    rw [ih, link?_fill]
    by_cases hother : other = slot
    · subst hother
      cases g.link? other <;> simp
    · have hmem : slot ∈ other :: slots ↔ slot ∈ slots := by
        rw [List.mem_cons, or_iff_right (Ne.symm hother)]
      simp only [if_neg hother, hmem]

theorem link?_fillAll_of_not_mem {slot : Slot} (h : slot ∉ slots) :
    (g.fillAll target slots).link? slot = g.link? slot := by
  rw [link?_fillAll, if_neg h]

theorem link?_fillAll_of_mem {slot : Slot} {before : Option NodeId} (h : slot ∈ slots)
    (hg : g.link? slot = some before) :
    (g.fillAll target slots).link? slot = some (some target) := by
  rw [link?_fillAll, if_pos h, hg, Option.map_some]

theorem find?_fillAll_of_ne {id : NodeId} (h : ∀ slot ∈ slots, slot.node ≠ id) :
    (g.fillAll target slots).find? id = g.find? id := by
  induction slots generalizing g with
  | nil => rfl
  | cons slot slots ih =>
    have hfill : (g.fill target slot).find? id = g.find? id := by
      rw [fill, find?_modify, if_neg (h slot (by simp))]
    exact (ih (g.fill target slot) fun s hs => h s (by simp [hs])).trans hfill

end Fill

/-- From a number on the other graph has the nodes of the first, and all of their links that are no
exits lead to the same nodes. -/
def Agrees (lo : Nat) (g : Graph) (exits : List Slot) (h : Graph) : Prop :=
  ∀ id, lo ≤ id → id < g.size → (h.find? id).map Node.bare = (g.find? id).map Node.bare ∧
    ∀ link, ⟨id, link⟩ ∉ exits → h.link? ⟨id, link⟩ = g.link? ⟨id, link⟩

variable {lo : Nat} {g g' h : Graph} {c : Chain}

theorem link?_congr {slot : Slot} (h₁ : h.find? slot.node = g.find? slot.node) :
    h.link? slot = g.link? slot := by
  rw [link?, link?, h₁]

section Agrees

variable {lo' : Nat} {exits exits' : List Slot}

theorem agrees_of_find? (h₁ : ∀ id, lo ≤ id → id < g.size → h.find? id = g.find? id) :
    Agrees lo g exits h :=
  fun id hlo hid => ⟨by rw [h₁ id hlo hid], fun _ _ => link?_congr (h₁ id hlo hid)⟩

theorem agrees_fillAll (g : Graph) (target : NodeId) (slots : List Slot) :
    Agrees lo g slots (g.fillAll target slots) :=
  fun _ _ _ => ⟨find?_fillAll_bare .., fun _ hl => link?_fillAll_of_not_mem _ _ _ hl⟩

/-- Of the exits of the larger graph only those count that lie in the smaller one. -/
theorem Agrees.trans (h₁ : Agrees lo' g exits' g') (h₂ : Agrees lo g' exits h) (hlo : lo ≤ lo')
    (hsize : g.size ≤ g'.size)
    (hexits : ∀ slot ∈ exits, lo' ≤ slot.node → slot.node < g.size → slot ∈ exits') :
    Agrees lo' g exits' h := by
  intro id hid hlt
  obtain ⟨hbare, hlink⟩ := h₁ id hid hlt
  obtain ⟨hbare', hlink'⟩ := h₂ id (by omega) (by omega)
  refine ⟨hbare'.trans hbare, fun link hl => ?_⟩
  rw [hlink' link fun hm => hl (hexits _ hm hid hlt), hlink link hl]

end Agrees

theorem find?_add_lt (g : Graph) (node : Node) {id : Nat} (hid : id < g.size) :
    (g.add node).2.find? id = g.find? id := by
  rw [find?_add, if_neg (Nat.ne_of_lt hid)]

theorem find?_add_self (g : Graph) (node : Node) : (g.add node).2.find? g.size = some node := by
  rw [find?_add, if_pos rfl]

theorem link?_add_lt {slot : Slot} (g : Graph) (node : Node) (h : slot.node < g.size) :
    (g.add node).2.link? slot = g.link? slot := link?_congr (find?_add_lt g node h)

theorem link?_add_self (g : Graph) (node : Node) (link : Link) :
    (g.add node).2.link? ⟨g.size, link⟩ = node.link? link := by
  rw [link?, find?_add_self, Option.bind_some]

theorem size_add (g : Graph) (node : Node) : (g.add node).2.size = g.size + 1 :=
  Array.size_push ..

section Join

variable {c' : Chain} {head target : NodeId}

/-! The three cases of a join: nothing comes behind, nothing comes before, or the exits of the first
chain lead to the head of the second. -/

theorem join_of_behind_empty (h : c'.head = none) : g.join c c' = (c, g) := by
  rw [join, h]

theorem join_of_before_empty (h : c.head = none) (h' : c'.head = some target) :
    g.join c c' = (c', g) := by
  rw [join, h', Chain.isEmpty, h]
  rfl

theorem join_of_heads (h : c.head = some head) (h' : c'.head = some target) :
    g.join c c' = (⟨some head, c'.exits⟩, g.fillAll target c.exits) := by
  rw [join, h', Chain.isEmpty, h]
  rfl

/-- What ends behind another chain has its exits. -/
theorem exits_join (h : c'.head ≠ none) : (g.join c c').1.exits = c'.exits := by
  obtain ⟨target, h'⟩ := Option.ne_none_iff_exists'.1 h
  cases hhead : c.head with
  | none => rw [join_of_before_empty hhead h']
  | some head => rw [join_of_heads hhead h']

/-- Nodes without exits of the first chain stay as they were. -/
theorem find?_join {id : NodeId} (h : ∀ slot ∈ c.exits, slot.node ≠ id) :
    (g.join c c').2.find? id = g.find? id := by
  rw [join]
  split
  · rfl
  · split
    · rfl
    · exact find?_fillAll_of_ne _ _ _ h

end Join

theorem mem_exitsOr {slot other : Slot} :
    slot ∈ c.exitsOr other ↔ (c.head = none ∧ slot = other) ∨ (c.head ≠ none ∧ slot ∈ c.exits) := by
  rw [Chain.exitsOr, Chain.isEmpty]
  cases c.head <;> simp

end Graph
end Seudocodigo
