import Seudocodigo.Proofs.Flow.Follows
import Seudocodigo.Proofs.Flow.Links

/-! Chains that do what parts of programs do, whatever their exits lead to. -/
namespace Seudocodigo
namespace Graph

/-- From a number on the graph holds a chain that does what the part does. Whatever becomes of the
graph otherwise, once the exits lead somewhere, so does every walk from the head. -/
structure Lowered (lo : Nat) (c : Chain) (g : Graph) (p : Segment) : Prop where
  size : lo ≤ g.size
  exits : ∀ slot ∈ c.exits, lo ≤ slot.node ∧ g.link? slot = some none
  empty : c.head = none → c.exits = []
  within : p.Within (g.size - lo)
  follows : ∀ h to?, Agrees lo g c.exits h → (∀ slot ∈ c.exits, h.link? slot = some to?) →
    h.Follows (c.head.or to?) to? p

variable {lo : Nat} {g g' h : Graph} {c c' : Chain} {p q : Segment}

theorem lowered_empty (g : Graph) : Lowered g.size .empty g .skip where
  size := Nat.le_refl _
  exits := by simp [Chain.empty]
  empty _ := rfl
  within := by
    rw [Nat.sub_self]
    exact .actions []
  follows _ _ _ _ := .skip

theorem Lowered.within_seq (hp : Lowered lo c g p) (hq : Lowered g.size c' g' q) :
    (p.seq q).Within (g'.size - lo) := by
  have hlo := hp.size
  have hsize := hq.size
  have hwithin := hp.within.seq hq.within
  rwa [show g.size - lo + (g'.size - g.size) = g'.size - lo by omega] at hwithin

/-- Exits stay open while nodes are added behind them. -/
theorem Lowered.exits_kept (hp : Lowered lo c g p)
    (hg : ∀ id, id < g.size → g'.find? id = g.find? id) {slot : Slot} (hs : slot ∈ c.exits) :
    slot.node < g.size ∧ lo ≤ slot.node ∧ g'.link? slot = some none := by
  obtain ⟨hlo, hlink⟩ := hp.exits slot hs
  have hlt := lt_size_of_link? hlink
  exact ⟨hlt, hlo, by rw [link?_congr (hg _ hlt)]; exact hlink⟩

/-- Only nodes of the chain change when its exits are filled. -/
theorem Lowered.find?_fillAll (hp : Lowered lo c g p) (target : NodeId) {id : NodeId}
    (hid : id < lo ∨ g.size ≤ id) : (g'.fillAll target c.exits).find? id = g'.find? id := by
  apply find?_fillAll_of_ne
  rintro slot hs rfl
  obtain ⟨hlo, hlink⟩ := hp.exits slot hs
  exact hid.elim (Nat.not_lt.2 hlo) (Nat.not_le.2 (lt_size_of_link? hlink))

/-- Nothing changes where the second chain is empty. -/
theorem Lowered.join_empty (hp : Lowered lo c g p) (hq : Lowered g.size c' g' q)
    (hg : ∀ id, id < g.size → g'.find? id = g.find? id) (hhead' : c'.head = none) :
    Lowered lo c g' (p.seq q) where
  size := Nat.le_trans hp.size hq.size
  exits slot hs := (hp.exits_kept hg hs).2
  empty := hp.empty
  within := hp.within_seq hq
  follows h to? hagree hto := by
    have hfirst : Agrees lo g c.exits h :=
      (agrees_of_find? fun id _ => hg id).trans hagree (Nat.le_refl _) hq.size fun _ hs _ _ => hs
    have hrest : Agrees g.size g' c'.exits h :=
      (agrees_of_find? fun _ _ _ => rfl).trans hagree hp.size (Nat.le_refl _)
        fun slot hs hle _ => absurd (hp.exits_kept hg hs).1 (Nat.not_lt.2 hle)
    have hq' := hq.follows h to? hrest (by simp [hq.empty hhead'])
    rw [hhead'] at hq'
    exact (hp.follows h to? hfirst hto).seq hq'

/-- Nor does it where the first one is. -/
theorem Lowered.empty_join (hp : Lowered lo c g p) (hq : Lowered g.size c' g' q)
    (hg : ∀ id, id < g.size → g'.find? id = g.find? id) (hhead : c.head = none) :
    Lowered lo c' g' (p.seq q) where
  size := Nat.le_trans hp.size hq.size
  exits slot hs := ⟨Nat.le_trans hp.size (hq.exits slot hs).1, (hq.exits slot hs).2⟩
  empty := hq.empty
  within := hp.within_seq hq
  follows h to? hagree hto := by
    have hfirst : Agrees lo g c.exits h :=
      (agrees_of_find? fun id _ => hg id).trans hagree (Nat.le_refl _) hq.size
        fun slot hs _ hlt => absurd hlt (Nat.not_lt.2 (hq.exits slot hs).1)
    have hrest : Agrees g.size g' c'.exits h :=
      (agrees_of_find? fun _ _ _ => rfl).trans hagree hp.size (Nat.le_refl _) fun _ hs _ _ => hs
    have hp' := hp.follows h (c'.head.or to?) hfirst (by simp [hp.empty hhead])
    rw [hhead] at hp'
    exact hp'.seq (hq.follows h to? hrest hto)

/-- The exits of the first chain are filled with the head of the second. -/
theorem Lowered.attach (hp : Lowered lo c g p) (hq : Lowered g.size c' g' q)
    (hg : ∀ id, id < g.size → g'.find? id = g.find? id) {head target : NodeId}
    (hhead : c.head = some head) (hhead' : c'.head = some target) :
    Lowered lo ⟨some head, c'.exits⟩ (g'.fillAll target c.exits) (p.seq q) where
  size := by
    rw [size_fillAll]
    exact Nat.le_trans hp.size hq.size
  exits slot hs := by
    obtain ⟨hle, hlink⟩ := hq.exits slot hs
    exact ⟨Nat.le_trans hp.size hle,
      by rw [link?_congr (hp.find?_fillAll target (.inr hle))]; exact hlink⟩
  empty hn := by cases hn
  within := by
    rw [size_fillAll]
    exact hp.within_seq hq
  follows h to? hagree hto := by
    have hsame := size_fillAll g' target c.exits
    have hbehind (slot : Slot) (hs : slot ∈ c'.exits) : ¬ slot.node < g.size :=
      Nat.not_lt.2 (hq.exits slot hs).1
    have hfilled : Agrees lo g c.exits (g'.fillAll target c.exits) :=
      (agrees_of_find? fun id _ => hg id).trans (agrees_fillAll g' target c.exits) (Nat.le_refl _)
        hq.size fun _ hs _ _ => hs
    have hfirst : Agrees lo g c.exits h :=
      hfilled.trans hagree (Nat.le_refl _) (by rw [hsame]; exact hq.size)
        fun slot hs _ hlt => absurd hlt (hbehind slot hs)
    have hrest : Agrees g.size g' c'.exits h :=
      (agrees_of_find? fun id hle _ => hp.find?_fillAll target (.inr hle)).trans hagree hp.size
        (Nat.le_of_eq hsame.symm) fun _ hs _ _ => hs
    have hmeet (slot : Slot) (hs : slot ∈ c.exits) : h.link? slot = some (some target) := by
      obtain ⟨hlt, hle, hlink⟩ := hp.exits_kept hg hs
      have hlt' : slot.node < (g'.fillAll target c.exits).size := by
        rw [hsame]
        exact Nat.lt_of_lt_of_le hlt hq.size
      rw [(hagree slot.node hle hlt').2 slot.link fun hm => hbehind slot hm hlt]
      exact link?_fillAll_of_mem _ _ _ hs hlink
    have hp' := hp.follows h (some target) hfirst hmeet
    have hq' := hq.follows h to? hrest hto
    rw [hhead] at hp'
    rw [hhead'] at hq'
    exact hp'.seq hq'

/-- Two chains behind one another do what the parts do behind one another. -/
theorem Lowered.join (hp : Lowered lo c g p) (hq : Lowered g.size c' g' q)
    (hg : ∀ id, id < g.size → g'.find? id = g.find? id) :
    (∀ id, id < lo → (g'.join c c').2.find? id = g'.find? id) ∧
      Lowered lo (g'.join c c').1 (g'.join c c').2 (p.seq q) := by
  cases hhead' : c'.head with
  | none =>
    rw [join_of_behind_empty hhead']
    exact ⟨fun _ _ => rfl, hp.join_empty hq hg hhead'⟩
  | some target =>
    cases hhead : c.head with
    | none =>
      rw [join_of_before_empty hhead hhead']
      exact ⟨fun _ _ => rfl, hp.empty_join hq hg hhead⟩
    | some head =>
      rw [join_of_heads hhead hhead']
      exact ⟨fun id hid => hp.find?_fillAll target (.inl hid), hp.attach hq hg hhead hhead'⟩

end Graph
end Seudocodigo
