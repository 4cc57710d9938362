import Seudocodigo.Proofs.Flow.Lowering

/-! Paths through graphs along all links that control can take. -/
namespace Seudocodigo
namespace Graph

/-- The nodes with the given records lead from one place to another; a test may have either
outcome. -/
inductive Path (g : Graph) : Option NodeId → List Record → Option NodeId → Prop where
  | stay (at? : Option NodeId) : Path g at? [] at?
  | step {id : NodeId} {node : Node} {records : List Record} {to? : Option NodeId}
    (outcome : Bool) :
    g.find? id = some node → Path g (node.after outcome) records to? →
    Path g (some id) (node.record :: records) to?

variable {g : Graph} {from? to? : Option NodeId} {records : List Record}

/-- A path is the beginning of a walk, and all of it if it leaves the graph. -/
theorem Path.trace (h : g.Path from? records to?) : ∃ outcomes, ∀ n,
    records <+: (g.trace (records.length + n) outcomes from?).1 ∧
      (to? = none → g.trace (records.length + n) outcomes from? = (records, false)) := by
  induction h with
  | stay at? =>
    refine ⟨[], fun n => ⟨List.nil_prefix, fun hend => ?_⟩⟩
    rw [hend, trace_none]
  | @step id node records to? outcome hn _ ih =>
    obtain ⟨outcomes, ih⟩ := ih
    cases hr : node.record with
    | action a =>
      refine ⟨outcomes, fun n => ?_⟩
      obtain ⟨hbegins, hend⟩ := ih n
      rw [List.length_cons, Nat.add_right_comm, trace_action _ _ hn hr outcome]
      exact ⟨List.cons_prefix_cons.2 ⟨rfl, hbegins⟩, fun hto => by rw [hend hto]⟩
    | test condition =>
      refine ⟨outcome :: outcomes, fun n => ?_⟩
      obtain ⟨hbegins, hend⟩ := ih n
      rw [List.length_cons, Nat.add_right_comm, trace_test _ _ hn hr outcome]
      exact ⟨List.cons_prefix_cons.2 ⟨rfl, hbegins⟩, fun hto => by rw [hend hto]⟩

theorem exists_path_trace (g : Graph) (n : Nat) (outcomes : List Bool) (from? : Option NodeId) :
    ∃ to?, g.Path from? (g.trace n outcomes from?).1 to? := by
  induction n generalizing outcomes from? with
  | zero => exact ⟨from?, .stay from?⟩
  | succ n ih =>
    cases from? with
    | none => exact ⟨none, .stay none⟩
    | some id =>
      cases hn : g.find? id with
      | none =>
        have hrecords : (g.trace (n + 1) outcomes (some id)).1 = [] := by
          simp [Graph.trace, Walk.runWithin, Walk.records, hn]
        rw [hrecords]
        exact ⟨some id, .stay _⟩
      | some node =>
        cases hr : node.record with
        | action a =>
          obtain ⟨to?, h⟩ := ih outcomes (node.after true)
          rw [trace_action n outcomes hn hr true, ← hr]
          exact ⟨to?, .step true hn h⟩
        | test condition =>
          cases outcomes with
          | nil =>
            rw [trace_wait n hn hr, ← hr]
            exact ⟨_, .step true hn (.stay _)⟩
          | cons outcome outcomes =>
            obtain ⟨to?, h⟩ := ih outcomes (node.after outcome)
            rw [trace_test n outcomes hn hr outcome, ← hr]
            exact ⟨to?, .step outcome hn h⟩

end Graph

namespace Build

/-- Paths from the head of what statements are lowered to are what the statements do. -/
theorem path_flowOf (s : Signatures) (ss : List Statement) {records : List Record}
    {to? : Option NodeId}
    (h : ((flowOf s ss : Build Chain) .empty).2.Path
      ((flowOf s ss : Build Chain) .empty).1.head records to?) :
    ∃ outcomes, records <+: ((segmentOf s ss).run outcomes).1 ∧
      (to? = none → records = ((segmentOf s ss).run outcomes).1) := by
  obtain ⟨outcomes, htrace⟩ := h.trace
  obtain ⟨hbegins, hend⟩ := htrace ((segmentOf s ss).run outcomes).1.length
  rw [Nat.add_comm, trace_flowOf] at hbegins hend
  exact ⟨outcomes, hbegins, fun hto => (congrArg Prod.fst (hend hto)).symm⟩

theorem exists_path_flowOf (s : Signatures) (ss : List Statement) (outcomes : List Bool) :
    ∃ to?, ((flowOf s ss : Build Chain) .empty).2.Path ((flowOf s ss : Build Chain) .empty).1.head
      ((segmentOf s ss).run outcomes).1 to? := by
  have h := Graph.exists_path_trace ((flowOf s ss : Build Chain) .empty).2
    (((segmentOf s ss).run outcomes).1.length + 0) outcomes
    ((flowOf s ss : Build Chain) .empty).1.head
  rwa [trace_flowOf] at h

end Build
end Seudocodigo
