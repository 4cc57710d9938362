import Seudocodigo.Proofs.Flow.Lowered

/-! The nodes of actions, conditionals and loops behind the chains that they lead to. -/
namespace Seudocodigo
namespace Graph

variable {lo : Nat} {g g' h : Graph} {c c' : Chain} {p q : Segment}

section Nodes

variable {id : NodeId} {to? then? else? body? : Option NodeId} {condition : List Action}

theorem follows_generic {a : Action} (hn : (h.find? id).map Node.bare = some (.generic a none))
    (hnext : h.link? ⟨id, .next⟩ = some to?) : h.Follows (some id) to? (.actions [a]) := by
  obtain ⟨node, hf, hbare⟩ := Option.map_eq_some_iff.1 hn
  rw [link?, hf] at hnext
  cases node with
  | generic b next =>
    cases hbare
    cases hnext
    exact .action hf rfl rfl
  | branch => cases hbare
  | loop => cases hbare

theorem follows_branch
    (hn : (h.find? id).map Node.bare = some (.branch condition none none none .nextStatement))
    (hthen : h.link? ⟨id, .trueHead⟩ = some then?) (helse : h.link? ⟨id, .falseHead⟩ = some else?)
    (hp : h.Follows then? to? p) (hq : h.Follows else? to? q) :
    h.Follows (some id) to? (.test condition p q) := by
  obtain ⟨node, hf, hbare⟩ := Option.map_eq_some_iff.1 hn
  rw [link?, hf] at hthen helse
  cases node with
  | generic => cases hbare
  | branch condition' t f n s =>
    cases hbare
    cases hthen
    cases helse
    exact .test hf rfl hp hq
  | loop => cases hbare

theorem follows_loop {kind : LoopKind}
    (hn : (h.find? id).map Node.bare = some (.loop kind condition none none .programBody))
    (hnext : h.link? ⟨id, .next⟩ = some to?) (hbody : h.link? ⟨id, .bodyHead⟩ = some body?)
    (hp : h.Follows body? (some id) p) : h.Follows (some id) to? (.loop condition p) := by
  obtain ⟨node, hf, hbare⟩ := Option.map_eq_some_iff.1 hn
  rw [link?, hf] at hnext hbody
  cases node with
  | generic => cases hbare
  | branch => cases hbare
  | loop kind' condition' b n s =>
    cases hbare
    cases hnext
    cases hbody
    exact .loop hf rfl rfl hp

end Nodes

theorem lowered_action (g : Graph) (a : Action) :
    Lowered g.size ⟨some g.size, [⟨g.size, .next⟩]⟩ (g.add (.generic a none)).2 (.actions [a]) where
  size := by rw [size_add]; exact Nat.le_succ _
  exits slot hs := by
    cases List.mem_singleton.1 hs
    exact ⟨Nat.le_refl _, link?_add_self ..⟩
  empty hn := by cases hn
  within := by
    rw [size_add, Nat.add_sub_cancel_left]
    exact .actions [a]
  follows h to? hagree hto := by
    obtain ⟨hn, -⟩ := hagree g.size (Nat.le_refl _) (by rw [size_add]; exact Nat.lt_succ_self _)
    rw [find?_add_self] at hn
    exact follows_generic hn (hto _ (by simp))

/-- A link of a node to a part, or behind it where the part is empty. -/
theorem link?_head {node : Node} {link : Link} {exits : List Slot} {to? : Option NodeId}
    (hagree : Agrees lo (g.add node).2 exits h) (hlo : lo ≤ g.size)
    (hlink : node.link? link = some c.head)
    (hexits : ⟨g.size, link⟩ ∈ exits ↔ c.head = none)
    (hto : ∀ slot ∈ exits, h.link? slot = some to?) :
    h.link? ⟨g.size, link⟩ = some (c.head.or to?) := by
  cases hc : c.head with
  | none => exact hto _ (hexits.2 hc)
  | some id =>
    have hnot : ⟨g.size, link⟩ ∉ exits := fun hm => by
      rw [hexits.1 hm] at hc
      cases hc
    rw [(hagree g.size hlo (by rw [size_add]; exact Nat.lt_succ_self _)).2 link hnot,
      link?_add_self, hlink, hc]
    rfl

section Branch

def addBranch (condition : List Action) (c c' : Chain) (g : Graph) : Graph :=
  (g.add (.branch condition c.head c'.head none .nextStatement)).2

def branchExits (id : NodeId) (c c' : Chain) : List Slot :=
  ⟨id, .next⟩ :: c.exitsOr ⟨id, .trueHead⟩ ++ c'.exitsOr ⟨id, .falseHead⟩

variable {condition : List Action} {id : NodeId} {slot : Slot}

theorem size_addBranch : (addBranch condition c c' g).size = g.size + 1 := size_add ..

theorem link?_addBranch_self (link : Link) :
    (addBranch condition c c' g).link? ⟨g.size, link⟩ =
      (Node.branch condition c.head c'.head none .nextStatement).link? link := link?_add_self ..

theorem mem_branchExits : slot ∈ branchExits id c c' ↔ slot = ⟨id, .next⟩ ∨
    (c.head = none ∧ slot = ⟨id, .trueHead⟩ ∨ c.head ≠ none ∧ slot ∈ c.exits) ∨
      (c'.head = none ∧ slot = ⟨id, .falseHead⟩ ∨ c'.head ≠ none ∧ slot ∈ c'.exits) := by
  simp only [branchExits, List.cons_append, List.mem_cons, List.mem_append, mem_exitsOr]

/-- What a conditional leaves open besides links of its node are exits of its branches. -/
theorem mem_exits_of_mem_branchExits (hs : slot ∈ branchExits id c c') (hne : slot.node ≠ id) :
    slot ∈ c.exits ∨ slot ∈ c'.exits := by
  obtain rfl | (⟨-, rfl⟩ | ⟨-, hs⟩) | (⟨-, rfl⟩ | ⟨-, hs⟩) := mem_branchExits.1 hs
  · exact absurd rfl hne
  · exact absurd rfl hne
  · exact .inl hs
  · exact absurd rfl hne
  · exact .inr hs

variable (hp : Lowered lo c g p) (hq : Lowered g.size c' g' q)
  (hg : ∀ id, id < g.size → g'.find? id = g.find? id)

include hp hq hg

theorem Lowered.open_branchExits (hs : slot ∈ branchExits g'.size c c') :
    lo ≤ slot.node ∧ (addBranch condition c c' g').link? slot = some none := by
  have hlo : lo ≤ g'.size := Nat.le_trans hp.size hq.size
  obtain rfl | (⟨hc, rfl⟩ | ⟨-, hs⟩) | (⟨hc, rfl⟩ | ⟨-, hs⟩) := mem_branchExits.1 hs
  · exact ⟨hlo, link?_addBranch_self .next⟩
  · exact ⟨hlo, by rw [link?_addBranch_self, hc]; rfl⟩
  · obtain ⟨hlt, hle, hlink⟩ := hp.exits_kept hg hs
    exact ⟨hle, (link?_add_lt g' _ (Nat.lt_of_lt_of_le hlt hq.size)).trans hlink⟩
  · exact ⟨hlo, by rw [link?_addBranch_self, hc]; rfl⟩
  · obtain ⟨hle, hlink⟩ := hq.exits slot hs
    exact ⟨Nat.le_trans hp.size hle, (link?_add_lt g' _ (lt_size_of_link? hlink)).trans hlink⟩

theorem Lowered.own_not_mem_exits (link : Link) :
    (⟨g'.size, link⟩ : Slot) ∉ c.exits ∧ (⟨g'.size, link⟩ : Slot) ∉ c'.exits :=
  ⟨fun hm => absurd (hp.exits_kept hg hm).1 (Nat.not_lt.2 hq.size),
    fun hm => absurd (lt_size_of_link? (hq.exits _ hm).2) (Nat.lt_irrefl _)⟩

variable (hagree : Agrees lo (addBranch condition c c' g') (branchExits g'.size c c') h)

include hagree

omit hp in
theorem Lowered.agrees_then : Agrees lo g c.exits h := by
  refine (agrees_of_find? fun id _ hid => ?_).trans hagree (Nat.le_refl _)
    (by rw [size_addBranch]; exact Nat.le_succ_of_le hq.size) fun slot hs _ hlt => ?_
  · rw [addBranch, find?_add_lt g' _ (Nat.lt_of_lt_of_le hid hq.size), hg id hid]
  · have hne : slot.node ≠ g'.size := Nat.ne_of_lt (Nat.lt_of_lt_of_le hlt hq.size)
    exact (mem_exits_of_mem_branchExits hs hne).resolve_right fun hs =>
      absurd hlt (Nat.not_lt.2 (hq.exits slot hs).1)

omit hq in
theorem Lowered.agrees_else : Agrees g.size g' c'.exits h := by
  refine (agrees_of_find? fun id _ hid => find?_add_lt g' _ hid).trans hagree hp.size
    (by rw [size_add]; exact Nat.le_succ _) fun slot hs hle hlt => ?_
  exact (mem_exits_of_mem_branchExits hs (Nat.ne_of_lt hlt)).resolve_left fun hs =>
    absurd (hp.exits_kept hg hs).1 (Nat.not_lt.2 hle)

/-- Once its exits lead somewhere, so does the conditional. -/
theorem Lowered.follows_addBranch {to? : Option NodeId}
    (hto : ∀ slot ∈ branchExits g'.size c c', h.link? slot = some to?) :
    h.Follows (some g'.size) to? (.test condition p q) := by
  have hlo : lo ≤ g'.size := Nat.le_trans hp.size hq.size
  have hown (link : Link) := hp.own_not_mem_exits hq hg link
  obtain ⟨hn, -⟩ := hagree g'.size hlo (by rw [size_addBranch]; exact Nat.lt_succ_self _)
  rw [addBranch, find?_add_self] at hn
  apply follows_branch hn
  · exact link?_head hagree hlo rfl (by simp [mem_branchExits, hown]) hto
  · exact link?_head hagree hlo rfl (by simp [mem_branchExits, hown]) hto
  · refine hp.follows h to? (hq.agrees_then hg hagree) fun slot hs => hto slot ?_
    exact mem_branchExits.2 (.inr (.inl (.inr ⟨fun hc => by simp [hp.empty hc] at hs, hs⟩)))
  · refine hq.follows h to? (hp.agrees_else hg hagree) fun slot hs => hto slot ?_
    exact mem_branchExits.2 (.inr (.inr (.inr ⟨fun hc => by simp [hq.empty hc] at hs, hs⟩)))

omit hagree

theorem Lowered.branch (condition : List Action) :
    Lowered lo ⟨some g'.size, branchExits g'.size c c'⟩ (addBranch condition c c' g')
      (.test condition p q) where
  size := by
    rw [size_addBranch]
    exact Nat.le_succ_of_le (Nat.le_trans hp.size hq.size)
  exits _ hs := hp.open_branchExits hq hg hs
  empty hn := by cases hn
  within := by
    have hsize : g'.size + 1 - lo = g.size - lo + (g'.size - g.size) + 1 := by
      have hlo := hp.size
      have hmid := hq.size
      omega
    rw [size_addBranch, hsize]
    exact hp.within.test hq.within
  follows _ _ hagree hto := hp.follows_addBranch hq hg hagree hto

end Branch

section Loop

variable {kind : LoopKind} {condition : List Action}

def addLoop (kind : LoopKind) (condition : List Action) (c : Chain) (g : Graph) : Graph :=
  (g.add (.loop kind condition c.head none .programBody)).2.fillAll g.size
    (c.exitsOr ⟨g.size, .bodyHead⟩)

theorem size_addLoop : (addLoop kind condition c g).size = g.size + 1 := by
  rw [addLoop, size_fillAll, size_add]

theorem find?_addLoop_self : ((addLoop kind condition c g).find? g.size).map Node.bare =
    some (.loop kind condition none none .programBody) := by
  rw [addLoop, find?_fillAll_bare, find?_add_self]
  rfl

theorem Lowered.not_mem_exits (hp : Lowered lo c g p) (link : Link) : ⟨g.size, link⟩ ∉ c.exits :=
  fun hm => absurd (lt_size_of_link? (hp.exits _ hm).2) (Nat.lt_irrefl _)

theorem Lowered.link?_next (hp : Lowered lo c g p) :
    (addLoop kind condition c g).link? ⟨g.size, .next⟩ = some none := by
  rw [addLoop, link?_fillAll_of_not_mem _ _ _ (by simp [mem_exitsOr, hp.not_mem_exits]),
    link?_add_self]
  rfl

theorem Lowered.link?_body (hp : Lowered lo c g p) :
    (addLoop kind condition c g).link? ⟨g.size, .bodyHead⟩ = some (c.head.or (some g.size)) := by
  have hadded : (g.add (.loop kind condition c.head none .programBody)).2.link?
      ⟨g.size, .bodyHead⟩ = some c.head := link?_add_self ..
  rw [addLoop]
  cases hc : c.head with
  | none =>
    rw [hc] at hadded
    rw [link?_fillAll_of_mem _ _ _ (mem_exitsOr.2 (.inl ⟨hc, rfl⟩)) hadded]
    rfl
  | some id =>
    rw [hc] at hadded
    rw [link?_fillAll_of_not_mem _ _ _ (by simp [mem_exitsOr, hp.not_mem_exits, hc]), hadded]
    rfl

theorem Lowered.link?_back (hp : Lowered lo c g p) {slot : Slot} (hs : slot ∈ c.exits) :
    (addLoop kind condition c g).link? slot = some (some g.size) := by
  have hne : c.head ≠ none := fun hc => by simp [hp.empty hc] at hs
  have hopen := (hp.exits slot hs).2
  rw [← link?_add_lt g _ (lt_size_of_link? hopen)] at hopen
  exact link?_fillAll_of_mem _ _ _ (mem_exitsOr.2 (.inr ⟨hne, hs⟩)) hopen

theorem agrees_addLoop (lo : Nat) (kind : LoopKind) (condition : List Action) (c : Chain)
    (g : Graph) : Agrees lo g c.exits (addLoop kind condition c g) := by
  have hadded : Agrees lo g c.exits (g.add (.loop kind condition c.head none .programBody)).2 :=
    agrees_of_find? fun id _ hid => find?_add_lt g _ hid
  refine hadded.trans (agrees_fillAll _ g.size _) (Nat.le_refl _)
    (by rw [size_add]; exact Nat.le_succ _) fun slot hs _ hlt => ?_
  obtain ⟨-, rfl⟩ | ⟨-, hs⟩ := mem_exitsOr.1 hs
  · exact absurd hlt (Nat.lt_irrefl _)
  · exact hs

/-- The body leads to the node of the loop, and what is left of the loop begins there. -/
theorem Lowered.follows_addLoop (hp : Lowered lo c g p) {to? : Option NodeId}
    (hagree : Agrees lo (addLoop kind condition c g) [⟨g.size, .next⟩] h)
    (hnext : h.link? ⟨g.size, .next⟩ = some to?) :
    h.Follows (c.head.or (some g.size)) (some g.size) p ∧
      h.Follows (some g.size) to? (.loop condition p) := by
  have hlt : g.size < (addLoop kind condition c g).size := by
    rw [size_addLoop]
    exact Nat.lt_succ_self _
  have hother {slot : Slot} (hs : slot.node < g.size) : slot ∉ [(⟨g.size, .next⟩ : Slot)] :=
    fun hm => by
      cases List.mem_singleton.1 hm
      exact Nat.lt_irrefl _ hs
  have hbody : h.Follows (c.head.or (some g.size)) (some g.size) p := by
    refine hp.follows h (some g.size) ((agrees_addLoop lo kind condition c g).trans hagree
      (Nat.le_refl _) (Nat.le_of_lt hlt) fun slot hs _ hlt => absurd hs (hother hlt))
      fun slot hs => ?_
    obtain ⟨hle, hopen⟩ := hp.exits slot hs
    have hslot := lt_size_of_link? hopen
    rw [(hagree slot.node hle (Nat.lt_trans hslot hlt)).2 slot.link (hother hslot)]
    exact hp.link?_back hs
  obtain ⟨hn, hlink⟩ := hagree g.size hp.size hlt
  exact ⟨hbody, follows_loop (hn.trans find?_addLoop_self) hnext
    ((hlink .bodyHead (by simp)).trans hp.link?_body) hbody⟩

/-- Behind its body the node of a loop does what is left of the loop from its head on. -/
theorem Lowered.addLoop (hp : Lowered lo c g p) {head : NodeId} {q : Segment}
    (hq : q.Within (g.size - lo + 1))
    (hrun : ∀ (h : Graph) to?, h.Follows (c.head.or (some g.size)) (some g.size) p →
      h.Follows (some g.size) to? (.loop condition p) → h.Follows (some head) to? q) :
    Lowered lo ⟨some head, [⟨g.size, .next⟩]⟩ (addLoop kind condition c g) q where
  size := by
    rw [size_addLoop]
    exact Nat.le_succ_of_le hp.size
  exits slot hs := by
    cases List.mem_singleton.1 hs
    exact ⟨hp.size, hp.link?_next⟩
  empty hn := by cases hn
  within := by
    rw [size_addLoop, Nat.succ_sub hp.size]
    exact hq
  follows h to? hagree hto := by
    obtain ⟨hbody, hloop⟩ := hp.follows_addLoop hagree (hto _ (by simp))
    exact hrun h to? hbody hloop

theorem Lowered.whileLoop (hp : Lowered lo c g p) :
    Lowered lo ⟨some g.size, [⟨g.size, .next⟩]⟩ (Graph.addLoop kind condition c g)
      (.loop condition p) :=
  hp.addLoop hp.within.loop fun _ _ _ hloop => hloop

/-- A loop that tests last begins with its body. -/
theorem Lowered.untilLoop (hp : Lowered lo c g p) :
    Lowered lo ⟨some (c.head.getD g.size), [⟨g.size, .next⟩]⟩ (Graph.addLoop kind condition c g)
      (p.seq (.loop condition p)) := by
  have hhead : c.head.or (some g.size) = some (c.head.getD g.size) := by cases c.head <;> rfl
  refine hp.addLoop hp.within.seq_loop fun h to? hbody hloop => ?_
  rw [hhead] at hbody
  exact hbody.seq hloop

end Loop

end Graph
end Seudocodigo
