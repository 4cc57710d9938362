import Seudocodigo.Proofs.Flow.Nodes

/-! Graphs built from statements are walked as the statements are structured. -/
namespace Seudocodigo
namespace Build

open Builder Seudocodigo.Graph

def Lowers (m : Build Chain) (p : Segment) : Prop :=
  ∀ g : Graph, (∀ id, id < g.size → (m g).2.find? id = g.find? id) ∧
    Lowered g.size (m g).1 (m g).2 p

variable {m n : Build Chain} {p q : Segment}

theorem Lowers.empty : Lowers (pure .empty) .skip := fun g => ⟨fun _ _ => rfl, lowered_empty g⟩

theorem run_bind_join (m n : Build Chain) (g : Graph) :
    (do
      let first ← m
      let rest ← n
      Builder.join first rest : Build Chain) g =
      (n (m g).2).2.join (m g).1 (n (m g).2).1 :=
  run_join (m g).1 (n (m g).2).1 (n (m g).2).2

theorem Lowers.join (hm : Lowers m p) (hn : Lowers n q) :
    Lowers (do
      let first ← m
      let rest ← n
      Builder.join first rest) (p.seq q) := by
  intro g
  obtain ⟨hsame, hp⟩ := hm g
  obtain ⟨hsame', hq⟩ := hn (m g).2
  obtain ⟨hjoin, hlowered⟩ := hp.join hq hsame'
  rw [run_bind_join]
  refine ⟨fun id hid => ?_, hlowered⟩
  exact (hjoin id hid).trans ((hsame' id (Nat.lt_of_lt_of_le hid hp.size)).trans (hsame id hid))

theorem Lowers.straight (as : List Action) : Lowers (straight as) (.actions as) := by
  induction as with
  | nil => exact .empty
  | cons a as ih =>
    have hone : Lowers (do
        let id ← Builder.add (.generic a none)
        return ⟨some id, [⟨id, .next⟩]⟩) (.actions [a]) :=
      fun g => ⟨fun id hid => find?_add_lt g _ hid, lowered_action g a⟩
    exact hone.join ih

theorem straight_cons (a : Action) (as : List Action) (g : Graph) :
    let rest := (straight as : Build Chain) (g.add (.generic a none)).2
    (straight (a :: as) : Build Chain) g =
      rest.2.join ⟨some g.size, [⟨g.size, .next⟩]⟩ rest.1 :=
  run_join ⟨some g.size, [⟨g.size, .next⟩]⟩ _ _

/-- Actions become nodes of their own in their order, each of which leads to the next one. -/
theorem find?_straight (as : List Action) (g : Graph) :
    let built := (straight as : Build Chain) g
    (built.1.head = if as = [] then none else some g.size) ∧
      built.2.size = g.size + as.length ∧
      ∀ (i : Nat) (a : Action), as[i]? = some a → built.2.find? (g.size + i) =
        some (.generic a (if i + 1 < as.length then some (g.size + i + 1) else none)) := by
  induction as generalizing g with
  | nil => exact ⟨rfl, rfl, by simp⟩
  | cons a as ih =>
    obtain ⟨hhead, hsize, hnodes⟩ := ih (g.add (.generic a none)).2
    obtain ⟨hframe, -⟩ := Lowers.straight as (g.add (.generic a none)).2
    rw [size_add] at hsize hnodes hframe
    let rest := (straight as : Build Chain) (g.add (.generic a none)).2
    have hfirst : rest.2.find? g.size = some (.generic a none) := by
      rw [hframe g.size (Nat.lt_succ_self _), find?_add_self]
    rw [straight_cons]
    cases as with
    | nil =>
      refine ⟨rfl, hsize, fun i b hb => ?_⟩
      cases i with
      | zero => cases hb; exact hfirst
      | succ i => cases hb
    | cons b bs =>
      rw [if_neg (by simp), size_add] at hhead
      have hjoin : rest.2.join ⟨some g.size, [⟨g.size, .next⟩]⟩ rest.1 =
          (⟨some g.size, rest.1.exits⟩, rest.2.fill (g.size + 1) ⟨g.size, .next⟩) := by
        rw [Graph.join, hhead]
        rfl
      rw [hjoin]
      refine ⟨rfl, ?_, fun i c hc => ?_⟩
      · rw [Graph.fill, size_modify, hsize, List.length_cons, List.length_cons, List.length_cons]
        omega
      · rw [Graph.fill, find?_modify]
        cases i with
        | zero =>
          cases hc
          rw [Nat.add_zero, if_pos rfl, hfirst]
          simp [Node.setLink]
        | succ i =>
          have hnode := hnodes i c hc
          rw [Nat.add_right_comm] at hnode
          rw [if_neg (by simp), ← Nat.add_assoc, hnode]
          simp only [List.length_cons, Nat.add_lt_add_iff_right]

theorem Lowers.branch (hm : Lowers m p) (hn : Lowers n q) (condition : List Action) :
    Lowers (do
      let thenChain ← m
      let elseChain ← n
      Builder.branch condition thenChain elseChain) (.test condition p q) := by
  intro g
  obtain ⟨hsame, hp⟩ := hm g
  obtain ⟨hsame', hq⟩ := hn (m g).2
  refine ⟨fun id hid => ?_, hp.branch hq hsame' condition⟩
  have hid' := Nat.lt_of_lt_of_le hid hp.size
  exact (find?_add_lt _ _ (Nat.lt_of_lt_of_le hid' hq.size)).trans
    ((hsame' id hid').trans (hsame id hid))

theorem find?_loop (g : Graph) {c : Chain} (hc : Lowered lo c g p) (kind : LoopKind)
    (condition : List Action) {id : Nat} (hid : id < lo) :
    ((loop kind condition c : Build Chain) g).2.find? id = g.find? id := by
  have hlt := Nat.lt_of_lt_of_le hid hc.size
  refine (find?_fillAll_of_ne _ _ _ fun slot hs he => ?_).trans (find?_add_lt g _ hlt)
  obtain ⟨-, rfl⟩ | ⟨-, hs⟩ := mem_exitsOr.1 hs
  · exact absurd hlt (he ▸ Nat.lt_irrefl _)
  · exact absurd hid (Nat.not_lt.2 (he ▸ (hc.exits slot hs).1))

theorem Lowers.whileLoop (hm : Lowers m p) (condition : List Action) :
    Lowers (do
      let body ← m
      Builder.loop .whileLoop condition body) (.loop condition p) := by
  intro g
  obtain ⟨hsame, hp⟩ := hm g
  exact ⟨fun id hid => (find?_loop _ hp _ _ hid).trans (hsame id hid),
    hp.whileLoop⟩

theorem Lowers.untilLoop (hm : Lowers m p) (condition : List Action) :
    Lowers (do
      let body ← m
      Builder.loop .untilLoop condition body) (p.seq (.loop condition p)) := by
  intro g
  obtain ⟨hsame, hp⟩ := hm g
  exact ⟨fun id hid => (find?_loop _ hp _ _ hid).trans (hsame id hid),
    hp.untilLoop⟩

mutual

theorem lowers_flow (s : Signatures) (st : Statement) : Lowers (st.flow s) (st.segment s) := by
  cases st with
  | declaration => rw [Statement.flow, Statement.segment]; exact .empty
  | assignment => rw [Statement.flow, Statement.segment]; exact .straight _
  | call => rw [Statement.flow, Statement.segment]; exact .straight _
  | result => rw [Statement.flow, Statement.segment]; exact .straight _
  | conditional _ thenBranch elseBranch _ =>
    rw [Statement.flow, Statement.segment]
    exact (lowers_flowOf s thenBranch).branch (lowers_flowOf s elseBranch) _
  | whileLoop _ body _ =>
    rw [Statement.flow, Statement.segment]
    exact (lowers_flowOf s body).whileLoop _
  | untilLoop body _ _ =>
    rw [Statement.flow, Statement.segment]
    exact (lowers_flowOf s body).untilLoop _
  | counting l =>
    obtain ⟨start, bound, body, p⟩ := l
    let l : CountingLoop := ⟨start, bound, body, p⟩
    have hturn := (lowers_flowOf s body).join (.straight (l.increment.code s))
    have hloop := (Lowers.straight (start.code s)).join (hturn.whileLoop (l.condition.code s))
    rw [Statement.flow, Statement.segment]
    simp only [bind_assoc] at hloop
    exact hloop

theorem lowers_flowOf (s : Signatures) (ss : List Statement) :
    Lowers (flowOf s ss) (segmentOf s ss) := by
  cases ss with
  | nil => rw [flowOf, segmentOf]; exact .empty
  | cons st sts =>
    rw [flowOf, segmentOf]
    exact (lowers_flow s st).join (lowers_flowOf s sts)

end

/-- In as many steps as the statements record, and in more, a walk from the head does what the
statements do as they are structured. -/
theorem trace_flowOf (s : Signatures) (ss : List Statement) (outcomes : List Bool) (n : Nat) :
    let built := (flowOf s ss : Build Chain) .empty
    let executed := (segmentOf s ss).run outcomes
    built.2.trace (executed.1.length + n) outcomes built.1.head =
      (executed.1, executed.2.isNone) := by
  obtain ⟨-, hlowered⟩ := lowers_flowOf s ss .empty
  generalize ((flowOf s ss : Build Chain) .empty) = built at hlowered ⊢
  generalize segmentOf s ss = p at hlowered ⊢
  obtain ⟨c, g⟩ := built
  have hlowered : Lowered 0 c g p := hlowered
  have hfollows := hlowered.follows g none (agrees_of_find? fun _ _ _ => rfl) fun slot hs =>
    (hlowered.exits slot hs).2
  have htrace := hfollows outcomes n
  simp only [Option.or_none, continued, trace_none] at htrace
  intro built executed
  refine htrace.trans ?_
  cases hleft : executed.2 with
  | none => rfl
  | some rest => rw [List.append_nil]; rfl

/-- The budget of a walk is enough. -/
theorem length_run_le (s : Signatures) (ss : List Statement) (outcomes : List Bool) :
    ((segmentOf s ss).run outcomes).1.length ≤
      (outcomes.length + 1) * (((flowOf s ss : Build Chain) .empty).2.size + 1) := by
  obtain ⟨-, hlowered⟩ := lowers_flowOf s ss .empty
  have hwithin := Nat.le_trans (Nat.le_add_right _ _) (hlowered.within outcomes)
  refine Nat.le_trans hwithin ?_
  rw [show Graph.empty.size = 0 from rfl]
  simp only [Nat.sub_zero, Nat.add_mul, Nat.mul_add, Nat.mul_one, Nat.one_mul,
    Nat.mul_comm ((flowOf s ss : Build Chain) .empty).2.size]
  omega

/-- The graph that statements are lowered to, walked with the given outcomes from its head on,
records what the statements do with these outcomes as they are structured, and it waits at a test
where they do. -/
theorem run_flowOf (s : Signatures) (ss : List Statement) (outcomes : List Bool) :
    let built := (flowOf s ss : Build Chain) .empty
    let walk := (Walk.run built.2 outcomes built.1.head).1
    let executed := (segmentOf s ss).run outcomes
    walk.records built.2 = executed.1 ∧ walk.stop.isNone = executed.2.isSome := by
  intro built walk executed
  obtain ⟨n, hn⟩ := Nat.exists_eq_add_of_le (length_run_le s ss outcomes)
  have htrace := trace_flowOf s ss outcomes n
  simp only [← hn, trace, Prod.mk.injEq] at htrace
  obtain ⟨hrecords, hstop⟩ := htrace
  have hnot := congrArg (!·) hstop
  rw [Option.not_isSome, Option.not_isNone] at hnot
  exact ⟨hrecords, hnot⟩

end Build
end Seudocodigo
