import Seudocodigo.Proofs.Stack.Checked

/-! How high the stack of operands is, whatever lies on it. A call leaves something if it is a call
of a function of the program. Where every call that is an operand does, the actions of an expression
add one operand, and those of a statement add nothing. -/
namespace Seudocodigo

def Program.functions (p : Program) : List String :=
  (p.subprograms.filter (·.returns?.isSome)).map (·.name)

def Action.takes : Action → Nat
  | .push _ | .load _ => 0
  | .subscript _ n | .reference _ n | .call _ n => n
  | .apply op => op.arity
  | .discard | .result => 1
  | .assign _ n => n + 1

def Action.puts (functions : List String) : Action → Nat
  | .push _ | .load _ | .subscript .. | .reference .. | .apply _ => 1
  | .call name _ => if name ∈ functions then 1 else 0
  | .discard | .result | .assign .. => 0

def Action.heightAfter? (functions : List String) (a : Action) (height : Nat) : Option Nat :=
  if a.takes ≤ height then some (height - a.takes + a.puts functions) else none

def heightAfter? (functions : List String) (as : List Action) (height : Nat) : Option Nat :=
  as.foldlM (fun h a => a.heightAfter? functions h) height

/-- A call leaves a value by the signatures just if it is one of the functions. -/
def Signatures.YieldsFor (s : Signatures) (functions : List String) : Prop :=
  ∀ name, s.yields name = true ↔ name ∈ functions

variable {s : Signatures} {fs : List String}

theorem heightAfter?_append (as bs : List Action) (height : Nat) :
    heightAfter? fs (as ++ bs) height = (heightAfter? fs as height).bind (heightAfter? fs bs) :=
  List.foldlM_append

theorem heightAfter?_singleton (a : Action) (height : Nat) :
    heightAfter? fs [a] height = a.heightAfter? fs height := by
  rw [heightAfter?, List.foldlM_cons]
  exact bind_pure _

theorem Action.heightAfter?_add {a : Action} {n : Nat} (h : a.takes = n) (height : Nat) :
    a.heightAfter? fs (height + n) = some (height + a.puts fs) := by
  rw [heightAfter?, h, if_pos (Nat.le_add_left n height), Nat.add_sub_cancel]

theorem heightAfter?_access (a : Access) (height : Nat) :
    heightAfter? fs (codeOf s [.access a]) height =
      (heightAfter? fs (indexCode s a.indices) height).bind
        (Action.heightAfter? fs (.reference a.name a.indices.length)) := by
  rw [codeOf_access, heightAfter?_append]
  refine Option.bind_congr fun _ _ => ?_
  rw [heightAfter?_singleton]
  obtain ⟨name, indices⟩ := a
  cases indices <;> rfl

/-- It makes no difference to the height whether an argument is passed by reference. -/
theorem heightAfter?_argumentOf (name : String) (i : Nat) (e : Expression) (height : Nat) :
    heightAfter? fs (s.argumentOf name i e) height =
      heightAfter? fs (codeOf s e.elements) height := by
  rw [Signatures.argumentOf, Expression.code_eq]
  split
  · next a _ ha _ =>
    rw [Expression.access?_eq_some.1 ha, heightAfter?_access, heightAfter?_append]
    exact Option.bind_congr fun _ _ => heightAfter?_singleton _ _
  · rfl

def Adds (fs : List String) (n : Nat) (as : List Action) : Prop :=
  ∀ height, heightAfter? fs as height = some (height + n)

namespace Adds

theorem nil : Adds fs 0 [] := fun _ => rfl

theorem append {m n : Nat} {as bs : List Action} (ha : Adds fs m as) (hb : Adds fs n bs) :
    Adds fs (m + n) (as ++ bs) := by
  intro height
  rw [heightAfter?_append, ha, Option.bind_some, hb, Nat.add_assoc]

/-- An action that takes all of the operands. -/
theorem act {n : Nat} {as : List Action} (h : Adds fs n as) {a : Action} (ha : a.takes = n) :
    Adds fs (a.puts fs) (as ++ [a]) := by
  intro height
  rw [heightAfter?_append, h, Option.bind_some, heightAfter?_singleton, Action.heightAfter?_add ha]

theorem indexCode {indices : List Expression} (h : ∀ e ∈ indices, Adds fs 1 (codeOf s e.elements)) :
    Adds fs indices.length (indexCode s indices) := by
  induction indices with
  | nil =>
    rw [Seudocodigo.indexCode]
    exact .nil
  | cons e es ih =>
    rw [List.forall_mem_cons] at h
    rw [Seudocodigo.indexCode, Expression.code_eq, List.length_cons, Nat.add_comm]
    exact h.1.append (ih h.2)

theorem argumentCode {args : List Expression} (h : ∀ e ∈ args, Adds fs 1 (codeOf s e.elements))
    (name : String) (i : Nat) : Adds fs args.length (argumentCode s name i args) := by
  induction args generalizing i with
  | nil =>
    rw [Seudocodigo.argumentCode]
    exact .nil
  | cons e es ih =>
    rw [List.forall_mem_cons] at h
    have hfirst : Adds fs 1 (s.argumentOf name i e) := fun height => by
      rw [heightAfter?_argumentOf, h.1]
    rw [argumentCode_cons, List.length_cons, Nat.add_comm]
    exact hfirst.append (ih h.2 (i + 1))

theorem call {c : Call} (h : ∀ e ∈ c.args, Adds fs 1 (codeOf s e.elements)) :
    Adds fs (if c.name ∈ fs then 1 else 0) (c.code s) := by
  obtain ⟨name, args, p⟩ := c
  rw [Call.code]
  exact (argumentCode h name 0).act rfl

theorem codeOf (hs : s.YieldsFor fs) {es : List Element} (h : Postorder es)
    (hy : s.YieldsAll (callsAmong es)) : Adds fs 1 (codeOf s es) := by
  induction h with
  | literal value =>
    rw [Seudocodigo.codeOf, Seudocodigo.codeOf, Element.code]
    exact nil.act rfl
  | @access a _ ih =>
    rw [callsAmong_access, Signatures.yieldsAll_callsWithin] at hy
    intro height
    rw [heightAfter?_access, indexCode fun e he => ih e he (hy e he)]
    exact Action.heightAfter?_add rfl height
  | @call c _ ih =>
    rw [callsAmong_call, Signatures.yieldsAll_append, Signatures.yieldsAll_callsWithin] at hy
    have hcall := call fun e he => ih e he (hy.1 e he)
    rwa [if_pos ((hs c.name).1 (hy.2 c.name (by simp))), ← codeOf_call] at hcall
  | @unary op es hop _ ih =>
    rw [callsAmong_append, Signatures.yieldsAll_append] at hy
    rw [codeOf_append, codeOf_operator]
    exact (ih hy.1).act (if_pos hop)
  | @binary op ls rs hop _ _ ihl ihr =>
    rw [callsAmong_append, callsAmong_append, Signatures.yieldsAll_append,
      Signatures.yieldsAll_append] at hy
    rw [codeOf_append, codeOf_append, codeOf_operator]
    exact ((ihl hy.1.1).append (ihr hy.1.2)).act (if_neg (by simp [hop]))

end Adds

/-! The parts of statements. -/

section Statements

variable (hs : s.YieldsFor fs)
include hs

namespace Expression.Usable

variable {e : Expression} {es : List Expression}

theorem adds (h : e.Usable s) : Adds fs 1 (e.code s) := by
  rw [code_eq]
  exact .codeOf hs h.postorder h.yields

theorem adds_all (h : ∀ e ∈ es, e.Usable s) : ∀ e ∈ es, Adds fs 1 (codeOf s e.elements) :=
  fun e he => .codeOf hs (h e he).postorder (h e he).yields

end Expression.Usable

theorem adds_assignment {a : Assignment} (h : ∀ e ∈ a.expressions, e.Usable s) :
    Adds fs 0 (a.code s) := by
  obtain ⟨hvalue, hindices⟩ := List.forall_mem_cons.1 h
  exact ((hvalue.adds hs).append (.indexCode (Expression.Usable.adds_all hs hindices))).act
    (Nat.add_comm _ _)

theorem adds_statementCode {c : Call} (h : ∀ e ∈ c.args, e.Usable s) :
    Adds fs 0 (c.statementCode s) := by
  have hcall := Adds.call (s := s) (Expression.Usable.adds_all hs h)
  rw [Call.statementCode]
  by_cases hy : s.yields c.name = true
  · rw [if_pos ((hs c.name).1 hy)] at hcall
    rw [if_pos hy]
    exact hcall.act rfl
  · rw [if_neg fun hmem => hy ((hs c.name).2 hmem)] at hcall
    rwa [if_neg hy, List.append_nil]

theorem adds_result {value : Expression} (h : value.Usable s) :
    Adds fs 0 (value.code s ++ [.result]) := (h.adds hs).act rfl

/-- `repetir` goes on while the negated condition holds. -/
theorem adds_negated {condition : Expression} (h : condition.Usable s) :
    Adds fs 1 (condition.code s ++ [.apply .not]) := (h.adds hs).act rfl

end Statements

theorem CountingLoop.usable_condition {l : CountingLoop}
    (htarget : ∀ e ∈ l.start.target.indices, e.Usable s) (hbound : l.bound.Usable s) :
    l.condition.Usable s where
  postorder := postorder_condition (fun e he => (htarget e he).postorder) hbound.postorder
  yields := by
    rw [callsAmong_condition]
    exact Signatures.yieldsAll_append.2
      ⟨Signatures.yieldsAll_callsWithin.2 fun e he => (htarget e he).yields, hbound.yields⟩

end Seudocodigo
