import Seudocodigo.Proofs.Flow.Links
import Seudocodigo.Scope
import Seudocodigo.Statement.Flow

/-! Plans: statements reduced to the few ways in which their graphs are put together. What holds of
all plans holds of all statements. -/
namespace Seudocodigo

/-- How a graph is built: a node for an action, parts behind one another, and the node of a test
behind the parts that it leads to. -/
inductive Plan where
  | nothing
  | action (a : Action)
  | seq (p q : Plan)
  | branch (condition : List Action) (p q : Plan)
  | loop (kind : LoopKind) (condition : List Action) (p : Plan)

namespace Plan

open Builder

def build : Plan → Build Chain
  | .nothing => return .empty
  | .action a => do
    let id ← add (.generic a none)
    return ⟨some id, [⟨id, .next⟩]⟩
  | .seq p q => do
    let first ← p.build
    let rest ← q.build
    Builder.join first rest
  | .branch condition p q => do
    let thenChain ← p.build
    let elseChain ← q.build
    Builder.branch condition thenChain elseChain
  | .loop kind condition p => do
    let body ← p.build
    Builder.loop kind condition body

theorem build_seq (p q : Plan) (g : Graph) : (seq p q).build g =
    (q.build (p.build g).2).2.join (p.build g).1 (q.build (p.build g).2).1 :=
  Build.run_join (p.build g).1 (q.build (p.build g).2).1 (q.build (p.build g).2).2

def straight : List Action → Plan
  | [] => .nothing
  | a :: as => .seq (.action a) (straight as)

def isEmpty : Plan → Bool
  | .nothing => true
  | .seq p q => p.isEmpty && q.isEmpty
  | .action _ | .branch .. | .loop .. => false

theorem build_straight (as : List Action) : (straight as).build = Builder.straight as := by
  induction as with
  | nil => rfl
  | cons a as ih =>
    rw [straight, build, ih]
    rfl

theorem isEmpty_straight (as : List Action) : (straight as).isEmpty = as.isEmpty := by
  cases as <;> rfl

end Plan

mutual

def Statement.plan (s : Signatures) : Statement → Plan
  | .declaration .. => .nothing
  | .assignment a => .straight (a.code s)
  | .call c => .straight (c.statementCode s)
  | .result value _ => .straight (value.code s ++ [.result])
  | .conditional condition thenBranch elseBranch _ =>
    .branch (condition.code s) (planOf s thenBranch) (planOf s elseBranch)
  | .whileLoop condition body _ => .loop .whileLoop (condition.code s) (planOf s body)
  | .untilLoop body condition _ =>
    .loop .untilLoop (condition.code s ++ [.apply .not]) (planOf s body)
  | .counting ⟨start, bound, body, p⟩ =>
    let l : CountingLoop := ⟨start, bound, body, p⟩
    .seq (.straight (start.code s))
      (.loop .whileLoop (l.condition.code s)
        (.seq (planOf s body) (.straight (l.increment.code s))))

def planOf (s : Signatures) : List Statement → Plan
  | [] => .nothing
  | st :: sts => .seq (st.plan s) (planOf s sts)

end

namespace Plan

section Compositional

variable {m : Type → Type} [Monad m] [Builder m]

/-- What holds of parts and their plans holds of what is put together from them. -/
structure Compositional (R : m Chain → Plan → Prop) : Prop where
  nothing : R (return .empty) .nothing
  action (a : Action) : R (do
    let id ← Builder.add (.generic a none)
    return ⟨some id, [⟨id, .next⟩]⟩) (.action a)
  seq {b c : m Chain} {p q : Plan} : R b p → R c q → R (do
    let first ← b
    let rest ← c
    Builder.join first rest) (.seq p q)
  branch {b c : m Chain} {p q : Plan} (condition : List Action) : R b p → R c q → R (do
    let thenChain ← b
    let elseChain ← c
    Builder.branch condition thenChain elseChain) (.branch condition p q)
  loop {b : m Chain} {p : Plan} (kind : LoopKind) (condition : List Action) : R b p → R (do
    let body ← b
    Builder.loop kind condition body) (.loop kind condition p)

namespace Compositional

variable {R : m Chain → Plan → Prop}

theorem straight [LawfulMonad m] (h : Compositional R) (as : List Action) :
    R (Builder.straight as) (.straight as) := by
  induction as with
  | nil => exact h.nothing
  | cons a as ih =>
    have hmore := h.seq (h.action a) ih
    simp only [bind_assoc, pure_bind] at hmore
    exact hmore

mutual

theorem flow [LawfulMonad m] (h : Compositional R) (s : Signatures) (st : Statement) :
    R (st.flow s) (st.plan s) := by
  cases st with
  | declaration => rw [Statement.flow, Statement.plan]; exact h.nothing
  | assignment => rw [Statement.flow, Statement.plan]; exact h.straight _
  | call => rw [Statement.flow, Statement.plan]; exact h.straight _
  | result => rw [Statement.flow, Statement.plan]; exact h.straight _
  | conditional _ thenBranch elseBranch _ =>
    rw [Statement.flow, Statement.plan]
    exact h.branch _ (flowOf h s thenBranch) (flowOf h s elseBranch)
  | whileLoop _ body _ =>
    rw [Statement.flow, Statement.plan]
    exact h.loop _ _ (flowOf h s body)
  | untilLoop body _ _ =>
    rw [Statement.flow, Statement.plan]
    exact h.loop _ _ (flowOf h s body)
  | counting l =>
    obtain ⟨start, bound, body, p⟩ := l
    let l : CountingLoop := ⟨start, bound, body, p⟩
    have hturn := h.seq (flowOf h s body) (h.straight (l.increment.code s))
    have hloop := h.seq (h.straight (start.code s))
      (h.loop .whileLoop (l.condition.code s) hturn)
    rw [Statement.flow, Statement.plan]
    simp only [bind_assoc] at hloop
    exact hloop

theorem flowOf [LawfulMonad m] (h : Compositional R) (s : Signatures) (ss : List Statement) :
    R (flowOf s ss) (planOf s ss) := by
  cases ss with
  | nil => rw [Seudocodigo.flowOf, planOf]; exact h.nothing
  | cons st sts =>
    rw [Seudocodigo.flowOf, planOf]
    exact h.seq (flow h s st) (flowOf h s sts)

end

end Compositional
end Compositional

theorem compositional_build :
    Compositional fun (b : Build Chain) (p : Plan) => p.build = b where
  nothing := rfl
  action _ := rfl
  seq hb hc := by rw [build, hb, hc]
  branch _ hb hc := by rw [build, hb, hc]
  loop _ _ hb := by rw [build, hb]

theorem build_planOf (s : Signatures) (ss : List Statement) :
    (planOf s ss).build = flowOf s ss :=
  compositional_build.flowOf s ss

/-- Of all statements only declarations add no node. -/
theorem isEmpty_plan (s : Signatures) (st : Statement) :
    (st.plan s).isEmpty = st.isDeclaration := by
  cases st with
  | declaration => simp only [Statement.plan]; rfl
  | assignment a =>
    simp only [Statement.plan, isEmpty_straight]
    simp [Assignment.code, Statement.isDeclaration]
  | call c =>
    obtain ⟨name, args, p⟩ := c
    simp only [Statement.plan, isEmpty_straight]
    simp [Call.statementCode, Call.code, Statement.isDeclaration]
  | result =>
    simp only [Statement.plan, isEmpty_straight]
    simp [Statement.isDeclaration]
  | conditional => simp only [Statement.plan]; rfl
  | whileLoop => simp only [Statement.plan]; rfl
  | untilLoop => simp only [Statement.plan]; rfl
  | counting l =>
    obtain ⟨start, bound, body, p⟩ := l
    simp only [Statement.plan, isEmpty, Bool.and_false]
    rfl

theorem isEmpty_planOf (s : Signatures) (ss : List Statement) :
    (planOf s ss).isEmpty = true ↔ ∀ st ∈ ss, st.isDeclaration = true := by
  induction ss with
  | nil => simp [planOf, isEmpty]
  | cons st sts ih => rw [planOf, isEmpty, Bool.and_eq_true, ih, isEmpty_plan, List.forall_mem_cons]

end Plan
end Seudocodigo
