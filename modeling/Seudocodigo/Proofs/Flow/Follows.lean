import Seudocodigo.Proofs.Flow.Segment

/-! Walks that record what parts of programs record. -/
namespace Seudocodigo
namespace Graph

/-- What is recorded with the given outcomes by a part and, where it has ended, behind it. -/
def continued (p : Segment) (behind : List Bool → List Record × Bool) (outcomes : List Bool) :
    List Record × Bool :=
  match (p.run outcomes).2 with
  | none => ((p.run outcomes).1, true)
  | some rest => ((p.run outcomes).1 ++ (behind rest).1, (behind rest).2)

/-- With the given outcomes a walk from `from?` does what the part does and goes on at `to?`. A step
is taken for every entry of the record. -/
def FollowsWith (g : Graph) (from? to? : Option NodeId) (p : Segment) (outcomes : List Bool) :
    Prop :=
  ∀ n, g.trace ((p.run outcomes).1.length + n) outcomes from? =
    continued p (fun rest => g.trace n rest to?) outcomes

def Follows (g : Graph) (from? to? : Option NodeId) (p : Segment) : Prop :=
  ∀ outcomes, g.FollowsWith from? to? p outcomes

variable {g : Graph} {from? between? to? : Option NodeId} {id : NodeId} {node : Node}
  {p q : Segment} {condition : List Action} {outcomes : List Bool}

theorem Follows.skip : g.Follows to? to? .skip := by
  intro outcomes n
  simp [continued, Segment.skip, Segment.actions]

theorem FollowsWith.seq (hp : g.FollowsWith from? between? p outcomes)
    (hq : ∀ rest, (p.run outcomes).2 = some rest → g.FollowsWith between? to? q rest) :
    g.FollowsWith from? to? (p.seq q) outcomes := by
  intro n
  simp only [continued, Segment.seq]
  cases h : (p.run outcomes).2 with
  | none =>
    have hrun := hp n
    simp only [continued, h] at hrun ⊢
    exact hrun
  | some rest =>
    have hrun := hp ((q.run rest).1.length + n)
    simp only [continued, h] at hrun
    rw [List.length_append, Nat.add_assoc, hrun, hq rest h n]
    simp only [continued]
    cases (q.run rest).2 <;> simp

theorem Follows.seq (hp : g.Follows from? between? p) (hq : g.Follows between? to? q) :
    g.Follows from? to? (p.seq q) :=
  fun outcomes => (hp outcomes).seq fun rest _ => hq rest

theorem FollowsWith.congr (h : p.run outcomes = q.run outcomes)
    (hp : g.FollowsWith from? to? p outcomes) : g.FollowsWith from? to? q outcomes := by
  intro n
  have hrun := hp n
  simp only [continued, h] at hrun ⊢
  exact hrun

theorem Follows.action {a : Action} (hn : g.find? id = some node) (hr : node.record = .action a)
    (hto : node.after true = to?) : g.Follows (some id) to? (.actions [a]) := by
  intro outcomes n
  simp only [Segment.actions, continued, List.map_cons, List.map_nil, List.length_cons,
    List.length_nil]
  rw [Nat.zero_add, Nat.add_comm, trace_action n outcomes hn hr true, hto]
  rfl

theorem FollowsWith.wait (hn : g.find? id = some node) (hr : node.record = .test condition) :
    g.FollowsWith (some id) to? (.test condition p q) [] := by
  intro n
  simp only [Segment.test, continued, List.length_cons, List.length_nil]
  rw [Nat.zero_add, Nat.add_comm, trace_wait n hn hr]

theorem FollowsWith.test {outcome : Bool} (hn : g.find? id = some node)
    (hr : node.record = .test condition)
    (h : g.FollowsWith (node.after outcome) to? (if outcome then p else q) outcomes) :
    g.FollowsWith (some id) to? (.test condition p q) (outcome :: outcomes) := by
  intro n
  have hrun := h n
  simp only [Segment.test, continued, List.length_cons] at hrun ⊢
  rw [Nat.add_right_comm, trace_test _ outcomes hn hr outcome, hrun]
  cases ((if outcome then p else q).run outcomes).2 <;> rfl

theorem Follows.test (hn : g.find? id = some node) (hr : node.record = .test condition)
    (hp : g.Follows (node.after true) to? p) (hq : g.Follows (node.after false) to? q) :
    g.Follows (some id) to? (.test condition p q) := by
  intro outcomes
  cases outcomes with
  | nil => exact .wait hn hr
  | cons outcome outcomes =>
    cases outcome with
    | true => exact .test hn hr (hp outcomes)
    | false => exact .test hn hr (hq outcomes)

/-- The induction is on the outcomes that are left, as every turn takes one. -/
theorem Follows.loop (hn : g.find? id = some node) (hr : node.record = .test condition)
    (hto : node.after false = to?) (hp : g.Follows (node.after true) (some id) p) :
    g.Follows (some id) to? (.loop condition p) := by
  intro outcomes
  induction hl : outcomes.length using Nat.strongRecOn generalizing outcomes with
  | ind len ih =>
    subst hl
    refine .congr (Segment.loop_run condition p outcomes).symm ?_
    cases outcomes with
    | nil => exact .wait hn hr
    | cons outcome outcomes =>
      refine .test hn hr ?_
      cases outcome with
      | true =>
        refine (hp outcomes).seq fun rest hrest => ih rest.length ?_ rest rfl
        exact Nat.lt_succ_of_le (p.shrinks hrest)
      | false =>
        rw [hto]
        exact Follows.skip outcomes

end Graph
end Seudocodigo
