import Seudocodigo.Proofs.Stack.Balance

/-! Parts of programs that find the operands they need, whatever the outcomes of their tests. -/
namespace Seudocodigo
namespace Segment

variable {p : CompiledProgram} {m : CompiledModule} {q r : Segment} {condition : List Action}
  {as : List Action} {outcomes : List Bool}

def Runs (p : CompiledProgram) (m : CompiledModule) (q : Segment) : Prop :=
  ∀ outcomes, ∃ stack, m.execute? p (q.run outcomes).1 [] = some stack

/-- The part leaves nothing on the stack either, whether it ends or waits at a test. -/
def Clean (p : CompiledProgram) (m : CompiledModule) (q : Segment) : Prop :=
  ∀ outcomes, m.execute? p (q.run outcomes).1 [] = some []

def Decides (p : CompiledProgram) (m : CompiledModule) (condition : List Action) : Prop :=
  m.run? p condition [] = some [.value .logical]

/-- With some outcomes the part ends, and any others are left. -/
def Ends (q : Segment) : Prop := ∀ rest, ∃ outcomes, (q.run outcomes).2 = some rest

theorem execute?_test (h : Decides p m condition) (records : List Record) :
    m.execute? p (.test condition :: records) [] = m.execute? p records [] := by
  rw [CompiledModule.execute?, CompiledModule.pass?, if_pos ⟨rfl, h⟩, Option.bind_some]

theorem decides_of_execute? {records : List Record} {stack : List Operand}
    (h : m.execute? p (.test condition :: records) [] = some stack) : Decides p m condition := by
  obtain ⟨_, hpass, -⟩ := Option.bind_eq_some_iff.1 h
  rw [CompiledModule.pass?] at hpass
  split at hpass
  · next hboth => exact hboth.2
  · cases hpass

/-- What is executed is executed up to any place. -/
theorem execute?_beginning {records others : List Record} (h : records <+: others)
    {stack rest : List Operand} (hexec : m.execute? p others stack = some rest) :
    ∃ between, m.execute? p records stack = some between := by
  obtain ⟨more, rfl⟩ := h
  rw [CompiledModule.execute?_append] at hexec
  obtain ⟨between, hfirst, -⟩ := Option.bind_eq_some_iff.1 hexec
  exact ⟨between, hfirst⟩

namespace Clean

theorem actions (h : m.execute? p (as.map .action) [] = some []) : (actions as).Clean p m :=
  fun _ => h

theorem skip : skip.Clean p m := actions rfl

theorem seq (hq : q.Clean p m) (hr : r.Clean p m) : (q.seq r).Clean p m := by
  intro outcomes
  rw [Segment.seq]
  dsimp only
  cases (q.run outcomes).2 with
  | none => exact hq outcomes
  | some rest =>
    dsimp only
    rw [CompiledModule.execute?_append, hq, Option.bind_some]
    exact hr rest

theorem test (hc : Decides p m condition) (hq : q.Clean p m) (hr : r.Clean p m) :
    (test condition q r).Clean p m := by
  intro outcomes
  cases outcomes with
  | nil => exact execute?_test hc []
  | cons outcome outcomes =>
    refine (execute?_test hc _).trans ?_
    cases outcome with
    | true => exact hq outcomes
    | false => exact hr outcomes

/-- The induction is on the outcomes that are left, as every turn takes one. -/
theorem loop (hc : Decides p m condition) (hq : q.Clean p m) : (loop condition q).Clean p m := by
  intro outcomes
  induction hl : outcomes.length using Nat.strongRecOn generalizing outcomes with
  | ind len ih =>
    subst hl
    rw [loop_run]
    cases outcomes with
    | nil => exact execute?_test hc []
    | cons outcome outcomes =>
      refine (execute?_test hc _).trans ?_
      cases outcome with
      | false => rfl
      | true =>
        rw [if_pos rfl, Segment.seq]
        dsimp only
        cases hrest : (q.run outcomes).2 with
        | none => exact hq outcomes
        | some rest =>
          dsimp only
          rw [CompiledModule.execute?_append, hq, Option.bind_some]
          exact ih rest.length (Nat.lt_succ_of_le (q.shrinks hrest)) rest rfl

end Clean

namespace Runs

theorem seq_left (h : (q.seq r).Runs p m) : q.Runs p m := by
  intro outcomes
  obtain ⟨stack, hexec⟩ := h outcomes
  refine execute?_beginning ?_ hexec
  rw [Segment.seq]
  dsimp only
  split
  · exact List.prefix_rfl
  · exact List.prefix_append ..

theorem seq_right (h : (q.seq r).Runs p m) (hq : q.Clean p m) (he : q.Ends) : r.Runs p m := by
  intro rest
  obtain ⟨outcomes, hrest⟩ := he rest
  obtain ⟨stack, hexec⟩ := h outcomes
  simp only [Segment.seq, hrest] at hexec
  rw [CompiledModule.execute?_append, hq, Option.bind_some] at hexec
  exact ⟨stack, hexec⟩

theorem decides (h : (test condition q r).Runs p m) : Decides p m condition := by
  obtain ⟨stack, hexec⟩ := h []
  exact decides_of_execute? hexec

theorem test_left (h : (test condition q r).Runs p m) : q.Runs p m := by
  intro outcomes
  obtain ⟨stack, hexec⟩ := h (true :: outcomes)
  exact ⟨stack, (execute?_test h.decides _).symm.trans hexec⟩

theorem test_right (h : (test condition q r).Runs p m) : r.Runs p m := by
  intro outcomes
  obtain ⟨stack, hexec⟩ := h (false :: outcomes)
  exact ⟨stack, (execute?_test h.decides _).symm.trans hexec⟩

/-- A loop is a test with a turn behind it. -/
theorem of_loop (h : (loop condition q).Runs p m) :
    (test condition (q.seq (loop condition q)) skip).Runs p m := by
  intro outcomes
  rw [← loop_run]
  exact h outcomes

end Runs

namespace Ends

theorem actions (as : List Action) : (actions as).Ends := fun rest => ⟨rest, rfl⟩

theorem seq (hq : q.Ends) (hr : r.Ends) : (q.seq r).Ends := by
  intro rest
  obtain ⟨between, hrest⟩ := hr rest
  obtain ⟨outcomes, hbetween⟩ := hq between
  refine ⟨outcomes, ?_⟩
  simp only [Segment.seq, hbetween, hrest]

theorem test (hq : q.Ends) : (test condition q r).Ends := by
  intro rest
  obtain ⟨outcomes, hrest⟩ := hq rest
  exact ⟨true :: outcomes, hrest⟩

theorem loop : (loop condition q).Ends := by
  intro rest
  refine ⟨false :: rest, ?_⟩
  rw [loop_run]
  rfl

end Ends
end Segment
end Seudocodigo
