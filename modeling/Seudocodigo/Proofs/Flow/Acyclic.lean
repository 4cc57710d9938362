import Seudocodigo.Module.Flow
import Seudocodigo.Proofs.Flow.Closure
import Seudocodigo.Proofs.Stack.Balanced

/-! Only the bodies of loops make cycles. Nodes are ranked as they stand in the text, a test before
the branches that are numbered before it; all links but those to bodies lead to greater ranks. -/
namespace Seudocodigo
namespace Graph

open Relation

/-- A link leads from the first node to the second, and not to the body of a loop. -/
def Onward (g : Graph) (i j : NodeId) : Prop :=
  ∃ link, link ≠ .bodyHead ∧ g.link? ⟨i, link⟩ = some (some j)

/-- From a number on, links that do not lead to bodies lead to greater ranks, and in the text what
follows has a greater number. -/
structure Ranked (lo : Nat) (rank : NodeId → Nat) (g : Graph) : Prop where
  bounded : ∀ id, lo ≤ id → id < g.size → rank id < g.size - lo
  next : ∀ i j, lo ≤ i → g.Next i j → i < j
  onward : ∀ i j, lo ≤ i → g.Onward i j → rank i < rank j

variable {lo : Nat} {g g' : Graph} {c c' : Chain} {rank rank' : NodeId → Nat}

theorem ranked_empty (g : Graph) : Ranked g.size (fun _ => 0) g where
  bounded _ hle hlt := absurd hle (Nat.not_le.2 hlt)
  next _ _ hle hnext := absurd hle (Nat.not_le.2 (lt_size_of_link? hnext))
  onward _ _ hle := fun ⟨_, _, hlink⟩ => absurd hle (Nat.not_le.2 (lt_size_of_link? hlink))

theorem ranked_action (g : Graph) (a : Action) :
    Ranked g.size (fun _ => 0) (g.add (.generic a none)).2 := by
  have hnone (slot : Slot) (j : NodeId) (hle : g.size ≤ slot.node) :
      (g.add (.generic a none)).2.link? slot ≠ some (some j) := by
    intro hlink
    obtain ⟨-, hlink⟩ | ⟨hlt, -⟩ := link?_add_cases hlink
    · cases hslot : slot.link <;> rw [hslot] at hlink <;> cases hlink
    · exact absurd hle (Nat.not_le.2 hlt)
  refine ⟨fun id hle hlt => ?_, fun i j hle hnext => absurd hnext (hnone _ j hle),
    fun i j hle ⟨_, _, hlink⟩ => absurd hlink (hnone _ j hle)⟩
  rw [size_add]
  omega

section Sum

/-- The ranks of a part, and behind them all those of the part that begins at the second number. -/
def sumRank (lo mid : Nat) (rank rank' : NodeId → Nat) (id : NodeId) : Nat :=
  if id < mid then rank id else mid - lo + rank' id

theorem sumRank_of_lt {mid id : Nat} (h : id < mid) : sumRank lo mid rank rank' id = rank id :=
  if_pos h

theorem sumRank_of_le {mid id : Nat} (h : mid ≤ id) :
    sumRank lo mid rank rank' id = mid - lo + rank' id :=
  if_neg (Nat.not_lt.2 h)

variable {i j : NodeId}

theorem Ranked.sum_bounded (hr : Ranked lo rank g) (hr' : Ranked g.size rank' g')
    (hlo : lo ≤ g.size) (hmid : g.size ≤ g'.size) {id : NodeId} (hle : lo ≤ id)
    (hlt : id < g'.size) : sumRank lo g.size rank rank' id < g'.size - lo := by
  by_cases hid : id < g.size
  · have := hr.bounded id hle hid
    rw [sumRank_of_lt hid]
    omega
  · have := hr'.bounded id (Nat.not_lt.1 hid) hlt
    rw [sumRank_of_le (Nat.not_lt.1 hid)]
    omega

theorem Ranked.sum_left (hr : Ranked lo rank g) (hp : Wired lo c g) (hle : lo ≤ i)
    (hij : g.Onward i j) : sumRank lo g.size rank rank' i < sumRank lo g.size rank rank' j := by
  obtain ⟨link, hne, hlink⟩ := hij
  rw [sumRank_of_lt (lt_size_of_link? hlink), sumRank_of_lt (hp.inside _ j hle hlink).2]
  exact hr.onward i j hle ⟨link, hne, hlink⟩

theorem Ranked.sum_right (hr' : Ranked g.size rank' g') (hq : Wired g.size c' g')
    (hle : g.size ≤ i) (hij : g'.Onward i j) :
    sumRank lo g.size rank rank' i < sumRank lo g.size rank rank' j := by
  obtain ⟨link, hne, hlink⟩ := hij
  rw [sumRank_of_le hle, sumRank_of_le (hq.inside _ j hle hlink).1]
  exact Nat.add_lt_add_left (hr'.onward i j hle ⟨link, hne, hlink⟩) _

/-- The exits of a part have lesser ranks than what stands behind it. -/
theorem Ranked.sum_exit (hr : Ranked lo rank g) (hp : Wired lo c g) {link : Link}
    (hs : ⟨i, link⟩ ∈ c.exits) (hle : g.size ≤ j) :
    sumRank lo g.size rank rank' i < sumRank lo g.size rank rank' j := by
  obtain ⟨hlo, hlt, -⟩ := hp.exit_open hs
  rw [sumRank_of_lt hlt, sumRank_of_le hle]
  exact Nat.lt_add_right _ (hr.bounded i hlo hlt)

end Sum

theorem Ranked.attach (hr : Ranked lo rank g) (hr' : Ranked g.size rank' g') (hp : Wired lo c g)
    (hq : Wired g.size c' g') (hg : ∀ id, id < g.size → g'.find? id = g.find? id) {target : NodeId}
    (hhead' : c'.head = some target) :
    Ranked lo (sumRank lo g.size rank rank') (g'.fillAll target c.exits) := by
  obtain ⟨htarget, -⟩ := hq.head target hhead'
  refine ⟨fun id hle hlt => ?_, fun i j hle hnext => ?_, fun i j hle ⟨link, hlink, hij⟩ => ?_⟩
  · rw [size_fillAll] at hlt ⊢
    exact hr.sum_bounded hr' hp.size hq.size hle hlt
  · obtain ⟨hs, hto⟩ | ⟨-, -, hnext⟩ | ⟨-, hle', hnext⟩ := link?_attach_cases hp hg hnext
    · cases hto
      exact Nat.lt_of_lt_of_le (hp.exit_open hs).2.1 htarget
    · exact hr.next i j hle hnext
    · exact hr'.next i j hle' hnext
  · obtain ⟨hs, hto⟩ | ⟨-, -, hij⟩ | ⟨-, hle', hij⟩ := link?_attach_cases hp hg hij
    · cases hto
      exact hr.sum_exit hp hs htarget
    · exact hr.sum_left hp hle ⟨link, hlink, hij⟩
    · exact hr'.sum_right hq hle' ⟨link, hlink, hij⟩

theorem Ranked.join (hr : Ranked lo rank g) (hr' : Ranked g.size rank' g') (hp : Wired lo c g)
    (hq : Wired g.size c' g') (hg : ∀ id, id < g.size → g'.find? id = g.find? id) :
    ∃ rank, Ranked lo rank (g'.join c c').2 := by
  cases hhead' : c'.head with
  | none =>
    obtain rfl : g' = g := ext_find? (hq.empty hhead') hg
    rw [join_of_behind_empty hhead']
    exact ⟨rank, hr⟩
  | some target =>
    cases hhead : c.head with
    | none =>
      obtain rfl : g.size = lo := hp.empty hhead
      rw [join_of_before_empty hhead hhead']
      exact ⟨rank', hr'⟩
    | some head =>
      rw [join_of_heads hhead hhead']
      exact ⟨_, hr.attach hr' hp hq hg hhead'⟩

/-- The node of a conditional has the least rank, then come those of its first branch. -/
theorem Ranked.branch (hr : Ranked lo rank g) (hr' : Ranked g.size rank' g') (hp : Wired lo c g)
    (hq : Wired g.size c' g') (hg : ∀ id, id < g.size → g'.find? id = g.find? id)
    (condition : List Action) :
    Ranked lo (fun id => if id = g'.size then 0 else sumRank lo g.size rank rank' id + 1)
      (addBranch condition c c' g') := by
  have hlo : lo ≤ g'.size := Nat.le_trans hp.size hq.size
  have hown {j : NodeId} (hj : j < g'.size) :
      (if g'.size = g'.size then 0 else sumRank lo g.size rank rank' g'.size + 1) <
        if j = g'.size then 0 else sumRank lo g.size rank rank' j + 1 := by
    rw [if_pos rfl, if_neg (Nat.ne_of_lt hj)]
    exact Nat.succ_pos _
  have hbranch {i j : NodeId} (hi : i < g'.size) (hj : j < g'.size)
      (hij : sumRank lo g.size rank rank' i < sumRank lo g.size rank rank' j) :
      (if i = g'.size then 0 else sumRank lo g.size rank rank' i + 1) <
        if j = g'.size then 0 else sumRank lo g.size rank rank' j + 1 := by
    rw [if_neg (Nat.ne_of_lt hi), if_neg (Nat.ne_of_lt hj)]
    exact Nat.succ_lt_succ hij
  refine ⟨fun id hle hlt => ?_, fun i j hle hnext => ?_, fun i j hle ⟨link, hlink, hij⟩ => ?_⟩
  · rw [size_addBranch] at hlt ⊢
    split
    · omega
    · next hne =>
      have := hr.sum_bounded hr' hp.size hq.size hle
        (Nat.lt_of_le_of_ne (Nat.lt_succ_iff.1 hlt) hne)
      omega
  · obtain ⟨-, hto⟩ | ⟨hs, -⟩ | ⟨hs, -⟩ | ⟨-, hnext⟩ | ⟨hle', -, hnext⟩ :=
      link?_addBranch_cases hg hnext
    · cases hto
    · cases hs
    · cases hs
    · exact hr.next i j hle hnext
    · exact hr'.next i j hle' hnext
  · obtain ⟨-, hto⟩ | ⟨hs, hto⟩ | ⟨hs, hto⟩ | ⟨hlt, hij⟩ | ⟨hle', hlt, hij⟩ :=
      link?_addBranch_cases hg hij
    · cases hto
    · cases hs
      exact hown (Nat.lt_of_lt_of_le (hp.head j hto.symm).2 hq.size)
    · cases hs
      exact hown (hq.head j hto.symm).2
    · exact hbranch (Nat.lt_of_lt_of_le hlt hq.size)
        (Nat.lt_of_lt_of_le (hp.inside _ j hle hij).2 hq.size)
        (hr.sum_left hp hle ⟨link, hlink, hij⟩)
    · exact hbranch hlt (hq.inside _ j hle' hij).2 (hr'.sum_right hq hle' ⟨link, hlink, hij⟩)

/-- The node of a loop has a greater rank than its body. -/
theorem Ranked.addLoop (hr : Ranked lo rank g) (hp : Wired lo c g) (kind : LoopKind)
    (condition : List Action) :
    Ranked lo (sumRank lo g.size rank fun _ => 0) (Graph.addLoop kind condition c g) := by
  have hlo := hp.size
  refine ⟨fun id hle hlt => ?_, fun i j hle hnext => ?_, fun i j hle ⟨link, hlink, hij⟩ => ?_⟩
  · rw [size_addLoop] at hlt ⊢
    by_cases hid : id < g.size
    · have := hr.bounded id hle hid
      rw [sumRank_of_lt hid]
      omega
    · rw [sumRank_of_le (Nat.not_lt.1 hid)]
      omega
  · obtain ⟨-, hto⟩ | ⟨hs, -⟩ | ⟨hs, hto⟩ | ⟨-, -, hnext⟩ := link?_addLoop_cases hp hnext
    · cases hto
    · cases hs
    · cases hto
      exact (hp.exit_open hs).2.1
    · exact hr.next i j hle hnext
  · obtain ⟨-, hto⟩ | ⟨hs, -⟩ | ⟨hs, hto⟩ | ⟨-, -, hij⟩ := link?_addLoop_cases hp hij
    · cases hto
    · cases hs
      exact absurd rfl hlink
    · cases hto
      exact hr.sum_exit hp hs (Nat.le_refl _)
    · exact hr.sum_left hp hle ⟨link, hlink, hij⟩

end Graph

open Seudocodigo.Graph Relation

theorem Plan.ranked (p : Plan) (g : Graph) : ∃ rank, Ranked g.size rank (p.build g).2 := by
  induction p generalizing g with
  | nothing => exact ⟨_, ranked_empty g⟩
  | action a => exact ⟨_, ranked_action g a⟩
  | seq p q ihp ihq =>
    obtain ⟨-, hp⟩ := p.wired g
    obtain ⟨hsame, hq⟩ := q.wired (p.build g).2
    obtain ⟨rank, hr⟩ := ihp g
    obtain ⟨rank', hr'⟩ := ihq (p.build g).2
    rw [build_seq]
    exact hr.join hr' hp hq hsame
  | branch condition p q ihp ihq =>
    obtain ⟨-, hp⟩ := p.wired g
    obtain ⟨hsame, hq⟩ := q.wired (p.build g).2
    obtain ⟨rank, hr⟩ := ihp g
    obtain ⟨rank', hr'⟩ := ihq (p.build g).2
    exact ⟨_, hr.branch hr' hp hq hsame condition⟩
  | loop kind condition p ih =>
    obtain ⟨-, hp⟩ := p.wired g
    obtain ⟨rank, hr⟩ := ih g
    exact ⟨_, hr.addLoop hp kind condition⟩

def Node.entersBody : Node → Bool
  | .loop _ _ _ _ .loopBody => true
  | _ => false

theorem Node.link?_unselected (node : Node) (link : Link) :
    node.unselected.link? link = node.link? link := by
  cases node <;> cases link <;> rfl

/-- Control takes one of the links of the node. -/
theorem Node.link?_of_controlNext {node : Node} {j : NodeId} (h : node.controlNext = some j)
    (hb : node.entersBody = false) :
    ∃ link, link ≠ .bodyHead ∧ node.link? link = some (some j) := by
  cases node with
  | generic a next => exact ⟨.next, nofun, congrArg some h⟩
  | branch c trueHead falseHead next selector =>
    cases selector with
    | trueBranch => exact ⟨.trueHead, nofun, congrArg some h⟩
    | falseBranch => exact ⟨.falseHead, nofun, congrArg some h⟩
    | nextStatement => exact ⟨.next, nofun, congrArg some h⟩
  | loop k c bodyHead next selector =>
    cases selector with
    | loopBody => cases hb
    | programBody => exact ⟨.next, nofun, congrArg some h⟩

namespace Graph

variable {g : Graph} {rank : NodeId → Nat}

namespace Ranked

theorem lt_of_transGen (h : Ranked 0 rank g) {i j : NodeId} (hij : TransGen g.Onward i j) :
    rank i < rank j := by
  induction hij with
  | single hij => exact h.onward _ _ (Nat.zero_le _) hij
  | tail _ hij ih => exact Nat.lt_trans ih (h.onward _ _ (Nat.zero_le _) hij)

/-- Until control goes to the body of a loop, no rank is met twice. -/
theorem length_wander_le (h : Ranked 0 rank g) {from? to? : Option NodeId} {nodes : List Node}
    (hw : g.Wander from? nodes to?) (hb : ∀ node ∈ nodes.dropLast, node.entersBody = false)
    {id : NodeId} (hid : from? = some id) (hne : nodes ≠ []) :
    rank id + nodes.length ≤ g.size := by
  induction hw generalizing id with
  | stay => exact absurd rfl hne
  | @step selected first node nodes to? hselected hnode hrest ih =>
    cases hid
    obtain ⟨other, hother, hsame⟩ := hselected.find? hnode
    have hbound := h.bounded first (Nat.zero_le _) (lt_size_of_find? hother)
    generalize hnext : node.controlNext = next? at hrest ih
    cases hrest with
    | stay => simp only [List.length_cons, List.length_nil]; omega
    | @step selected' second node' nodes' _ hselected' hnode' hrest' =>
      rw [List.dropLast_cons_of_ne_nil (List.cons_ne_nil _ _), List.forall_mem_cons] at hb
      have hlater := ih hb.2 rfl (List.cons_ne_nil _ _)
      obtain ⟨link, hlink, hto⟩ := Node.link?_of_controlNext hnext hb.1
      have hstep : g.Onward first second := by
        refine ⟨link, hlink, ?_⟩
        rw [link?, hother, Option.bind_some, ← Node.link?_unselected, hsame,
          Node.link?_unselected, hto]
      have := h.onward first second (Nat.zero_le _) hstep
      simp only [List.length_cons] at hlater ⊢
      omega

end Ranked

/-- A walk can be taken in two parts. -/
theorem Wander.of_append {from? to? : Option NodeId} {before behind : List Node}
    (h : g.Wander from? (before ++ behind) to?) :
    ∃ between?, g.Wander from? before between? ∧ g.Wander between? behind to? := by
  induction before generalizing from? with
  | nil => exact ⟨from?, .stay from?, h⟩
  | cons node before ih =>
    cases h with
    | step hselected hnode hrest =>
      obtain ⟨between?, hbefore, hbehind⟩ := ih hrest
      exact ⟨between?, .step hselected hnode hbefore, hbehind⟩

/-- Between two bodies of loops a walk passes no more nodes than there are. -/
theorem Ranked.length_between_le (h : Ranked 0 rank g) {from? to? : Option NodeId}
    {before between behind : List Node} (hw : g.Wander from? (before ++ between ++ behind) to?)
    (hb : ∀ node ∈ between.dropLast, node.entersBody = false) : between.length ≤ g.size := by
  obtain ⟨_, hfirst, -⟩ := hw.of_append
  obtain ⟨between?, -, hw⟩ := hfirst.of_append
  cases hw with
  | stay => exact Nat.zero_le _
  | @step _ id _ _ _ hselected hnode hrest =>
    have hlength := h.length_wander_le (.step hselected hnode hrest) hb rfl
      (List.cons_ne_nil _ _)
    exact Nat.le_trans (Nat.le_add_left _ (rank id)) hlength

/-- Along growing numbers a walk comes to its end before it has met all nodes. -/
theorem within_structural {g : Graph}
    (h : ∀ (id : Nat) node (target : Nat), g.find? id = some node →
      node.structuralNext = some target → id < target ∧ target < g.size) {n id : Nat}
    {passed : List NodeId} (hp : ∀ i ∈ passed, i < id) (hid : id < g.size) (hn : g.size < n + id) :
    let w := Walk.within g Node.structuralNext n passed (some id)
    w.stop = none ∧ (∀ i ∈ w.path, id ≤ i) ∧ w.path.Nodup ∧ w.path.length + id ≤ g.size := by
  induction n generalizing id passed with
  | zero => omega
  | succ n ih =>
    have hnew : passed.contains id = false := by
      rw [← Bool.not_eq_true, List.contains_iff_mem]
      exact fun hm => Nat.lt_irrefl _ (hp id hm)
    simp only [Walk.within, hnew, Bool.false_eq_true, if_false, Walk.behind]
    cases hto : (g.find? id).bind Node.structuralNext with
    | none =>
      have hend : Walk.within g Node.structuralNext n (id :: passed) none = ⟨[], none⟩ := by
        cases n <;> rfl
      rw [hend]
      refine ⟨rfl, by simp, by simp, ?_⟩
      simp only [List.length_cons, List.length_nil]
      omega
    | some target =>
      obtain ⟨node, hnode, hnext⟩ := Option.bind_eq_some_iff.1 hto
      obtain ⟨hlt, hsize⟩ := h id node target hnode hnext
      have hpassed : ∀ i ∈ id :: passed, i < target :=
        List.forall_mem_cons.2 ⟨hlt, fun i hi => Nat.lt_trans (hp i hi) hlt⟩
      obtain ⟨hstop, hpath, hnodup, hlength⟩ :=
        ih hpassed hsize (by omega)
      refine ⟨hstop, List.forall_mem_cons.2 ⟨Nat.le_refl _, fun i hi => ?_⟩,
        List.nodup_cons.2 ⟨fun hi => ?_, hnodup⟩, ?_⟩
      · exact Nat.le_trans (Nat.le_of_lt hlt) (hpath i hi)
      · exact Nat.lt_irrefl _ (Nat.lt_of_lt_of_le hlt (hpath id hi))
      · simp only [List.length_cons]
        omega

theorem next_of_structuralNext {id target : NodeId} {node : Node} (hn : g.find? id = some node)
    (h : node.structuralNext = some target) : g.Next id target := by
  rw [Next, link?, hn, Option.bind_some, ← h]
  cases node <;> rfl

end Graph

/-- In the graph of a module the number of what follows in the text is greater than that of the node
itself, and links that do not lead to bodies of loops make no cycle. So from every node the text
comes to its end, without meeting a node again, and however the selectors are set before each step,
a walk along control passes no more nodes than there are until it goes to the body of a loop
again. -/
theorem ScopedModule.acyclic_compile (m : ScopedModule) (s : Signatures) :
    let g := (m.compile s).graph
    (∀ id node target, g.find? id = some node → node.structuralNext = some target →
      id < target ∧ target < g.size) ∧
      (∀ id, ¬ Relation.TransGen g.Onward id id) ∧
      (∀ id, id < g.size → (Walk.structural g (some id)).stop = none ∧
        (Walk.structural g (some id)).path.Nodup ∧
          (Walk.structural g (some id)).path.length ≤ g.size) ∧
      ∀ from? before between behind to?, g.Wander from? (before ++ between ++ behind) to? →
        (∀ node ∈ between.dropLast, node.entersBody = false) → between.length ≤ g.size := by
  obtain ⟨-, hwired⟩ := (planOf s m.module.body).wired .empty
  obtain ⟨rank, hranked⟩ := (planOf s m.module.body).ranked .empty
  rw [Plan.build_planOf] at hwired hranked
  have hstructural : ∀ id node target, (m.compile s).graph.find? id = some node →
      node.structuralNext = some target → id < target ∧ target < (m.compile s).graph.size := by
    intro id node target hn hto
    have hnext := next_of_structuralNext hn hto
    exact ⟨hranked.next id target (Nat.zero_le _) hnext,
      (hwired.inside _ target (Nat.zero_le _) hnext).2⟩
  refine ⟨hstructural, fun id hcycle => ?_, fun id hid => ?_, ?_⟩
  · exact Nat.lt_irrefl _ (hranked.lt_of_transGen hcycle)
  · have hpassed : ∀ i ∈ ([] : List NodeId), i < id := by simp
    have hsteps : (m.compile s).graph.size < (m.compile s).graph.size + 2 + id := by omega
    obtain ⟨hstop, -, hnodup, hlength⟩ := within_structural hstructural hpassed hid hsteps
    exact ⟨hstop, hnodup, Nat.le_trans (Nat.le_add_right _ id) hlength⟩
  · exact fun from? before between behind to? hw hb => hranked.length_between_le hw hb

end Seudocodigo
