import Seudocodigo.Proofs.Expression.Formula
import Seudocodigo.Proofs.Stack.Code

/-! The value of an expression, whatever variables hold and operators and modules do, and the stack
machine that finds it. The actions of an expression put its value on the stack, with all effects in
the order of the text. -/
namespace Seudocodigo

/-- What reading, operators and modules do with operands of some type, and with which effects. -/
structure Primitives (m : Type → Type) (ν : Type) where
  literal : Value → ν
  /-- The part of a variable that the indices select. -/
  read : String → List ν → m ν
  /-- A reference to that part. -/
  refer : String → List ν → m ν
  operate : Operator → List ν → m ν
  /-- Runs a module with its arguments. What a procedure gives is of no use. -/
  invoke : String → List ν → m ν
  store : String → List ν → ν → m Unit
  /-- Leaves a function with its result. -/
  leave : ν → m Unit

def Signatures.parameters (s : Signatures) (name : String) : List Variable :=
  ((s.find? name).map (·.parameters)).getD []

section Definitions

variable {m : Type → Type} [Monad m] {ν : Type} (P : Primitives m ν) (s : Signatures)

mutual

/-- What a formula gives where it is passed: a variable passed by reference gives a reference and is
not read, all else gives its value. The left operand is evaluated before the right one, and indices
and arguments before the access or the call. -/
def Formula.passed (byReference : Bool) : Formula → m ν
  | .literal value => return P.literal value
  | .access name indices => do
    let vs ← valuesOf indices
    if byReference then P.refer name vs else P.read name vs
  | .call name args _ => do P.invoke name (← argumentsOf (s.parameters name) args)
  | .unary op _ t => do P.operate op [← t.passed false]
  | .binary op _ l r => do
    let x ← l.passed false
    let y ← r.passed false
    P.operate op [x, y]

def valuesOf : List Term → m (List ν)
  | [] => return []
  | ⟨t, _⟩ :: ts => do
    let v ← t.passed false
    return v :: (← valuesOf ts)

def argumentsOf : List Variable → List Term → m (List ν)
  | _, [] => return []
  | params, ⟨t, _⟩ :: ts => do
    let v ← t.passed (params.head?.any (·.byReference))
    return v :: (← argumentsOf params.tail ts)

end

def Formula.value (t : Formula) : m ν := t.passed P s false

namespace Primitives

def takeOperands (n : Nat) (stack : List ν) : OptionT m (List ν × List ν) :=
  if n ≤ stack.length then return ((stack.take n).reverse, stack.drop n) else OptionT.fail

def act : Action → List ν → OptionT m (List ν)
  | .push value, stack => return P.literal value :: stack
  | .load name, stack => return (← P.read name []) :: stack
  | .subscript name n, stack => do
    let (indices, rest) ← takeOperands n stack
    return (← P.read name indices) :: rest
  | .reference name n, stack => do
    let (indices, rest) ← takeOperands n stack
    return (← P.refer name indices) :: rest
  | .apply op, stack => do
    let (operands, rest) ← takeOperands op.arity stack
    return (← P.operate op operands) :: rest
  | .call name n, stack => do
    let (args, rest) ← takeOperands n stack
    let v ← P.invoke name args
    return if s.yields name then v :: rest else rest
  | .discard, stack => do
    let (_, rest) ← takeOperands 1 stack
    return rest
  | .assign name n, stack => do
    let (operands, rest) ← takeOperands (n + 1) stack
    match operands with
    | [] => OptionT.fail
    | value :: indices =>
      P.store name indices value
      return rest
  | .result, stack => do
    match stack with
    | [] => OptionT.fail
    | value :: rest =>
      P.leave value
      return rest

def run : List Action → List ν → OptionT m (List ν)
  | [], stack => return stack
  | a :: as, stack => do run as (← P.act s a stack)

end Primitives

end Definitions

section Correctness

variable {m : Type → Type} [Monad m] {ν : Type} (P : Primitives m ν) (s : Signatures)

/-- The actions put on the stack what the evaluation gives, and have its effects. -/
def Gives (as : List Action) (x : m ν) : Prop :=
  ∀ stack, P.run s as stack = liftM x >>= fun v => pure (v :: stack)

structure GivesAll (n : Nat) (as : List Action) (xs : m (List ν)) : Prop where
  run : ∀ stack, P.run s as stack = liftM xs >>= fun vs => pure (vs.reverse ++ stack)
  length : ∀ {β : Type} {f g : List ν → OptionT m β},
    (∀ vs, vs.length = n → f vs = g vs) → (liftM xs >>= f) = liftM xs >>= g

variable {P s}

theorem Primitives.takeOperands_append {n : Nat} {vs : List ν} (h : vs.length = n)
    (stack : List ν) : takeOperands n (vs.reverse ++ stack) = (pure (vs, stack) : OptionT m _) := by
  subst h
  rw [takeOperands, if_pos (by simp)]
  simp

variable [LawfulMonad m]

namespace Primitives

theorem run_append (as bs : List Action) (stack : List ν) :
    P.run s (as ++ bs) stack = P.run s as stack >>= P.run s bs := by
  induction as generalizing stack with
  | nil => rw [run, pure_bind]; rfl
  | cons a as ih => simp only [List.cons_append, run, ih, bind_assoc]

theorem run_singleton (a : Action) (stack : List ν) : P.run s [a] stack = P.act s a stack :=
  bind_pure _

end Primitives

namespace GivesAll

theorem nil : GivesAll P s 0 [] (pure []) where
  run stack := by
    rw [liftM_pure, pure_bind]
    rfl
  length h := by
    rw [liftM_pure, pure_bind, pure_bind]
    exact h [] rfl

theorem cons {n : Nat} {as bs : List Action} {x : m ν} {xs : m (List ν)} (hx : Gives P s as x)
    (hxs : GivesAll P s n bs xs) :
    GivesAll P s (n + 1) (as ++ bs) (do
      let v ← x
      let vs ← xs
      return v :: vs) where
  run stack := by
    rw [Primitives.run_append, hx]
    simp only [liftM_bind, liftM_pure, bind_assoc, pure_bind]
    refine bind_congr fun v => (hxs.run _).trans ?_
    simp only [List.reverse_cons, List.append_assoc, List.singleton_append]
  length h := by
    simp only [liftM_bind, liftM_pure, bind_assoc, pure_bind]
    exact bind_congr fun v => hxs.length fun vs hvs => h (v :: vs) (congrArg (· + 1) hvs)

/-- An action that takes all these operands and puts something in their place. -/
theorem act {n : Nat} {as : List Action} {xs : m (List ν)} (hxs : GivesAll P s n as xs)
    {a : Action} {f : List ν → m ν}
    (ha : ∀ vs stack, vs.length = n →
      P.act s a (vs.reverse ++ stack) = liftM (f vs) >>= fun v => pure (v :: stack)) :
    Gives P s (as ++ [a]) (xs >>= f) := by
  intro stack
  rw [Primitives.run_append, hxs.run]
  simp only [liftM_bind, bind_assoc, pure_bind, Primitives.run_singleton]
  exact hxs.length fun vs hvs => ha vs stack hvs

end GivesAll

/-! What the actions of expressions do with their operands. -/

variable {vs stack : List ν}

theorem act_fetch {a : Access} (h : vs.length = a.indices.length) :
    P.act s a.fetch (vs.reverse ++ stack) =
      liftM (P.read a.name vs) >>= fun v => pure (v :: stack) := by
  obtain ⟨name, indices⟩ := a
  cases indices with
  | nil => rw [List.eq_nil_of_length_eq_zero h]; rfl
  | cons => rw [Access.fetch, Primitives.act, Primitives.takeOperands_append h, pure_bind]

theorem act_reference {name : String} {n : Nat} (h : vs.length = n) :
    P.act s (.reference name n) (vs.reverse ++ stack) =
      liftM (P.refer name vs) >>= fun v => pure (v :: stack) := by
  rw [Primitives.act, Primitives.takeOperands_append h, pure_bind]

theorem act_apply {op : Operator} (h : vs.length = op.arity) :
    P.act s (.apply op) (vs.reverse ++ stack) =
      liftM (P.operate op vs) >>= fun v => pure (v :: stack) := by
  rw [Primitives.act, Primitives.takeOperands_append h, pure_bind]

theorem act_call {name : String} {n : Nat} (hy : s.yields name = true) (h : vs.length = n) :
    P.act s (.call name n) (vs.reverse ++ stack) =
      liftM (P.invoke name vs) >>= fun v => pure (v :: stack) := by
  rw [Primitives.act, Primitives.takeOperands_append h, pure_bind]
  simp only [hy, if_true]

namespace Gives

variable {as bs : List Action} {x y : m ν} {op : Operator}

theorem literal (value : Value) : Gives P s [.push value] (pure (P.literal value)) := by
  intro stack
  rw [Primitives.run_singleton, liftM_pure, pure_bind]
  rfl

theorem unary (hop : op.leadsOperand = true) (h : Gives P s as x) :
    Gives P s (as ++ [.apply op]) (do P.operate op [← x]) := by
  have hact := (GivesAll.cons h .nil).act (a := .apply op) fun _ _ hvs =>
    act_apply (hvs.trans (if_pos hop).symm)
  simpa only [List.append_nil, bind_assoc, pure_bind] using hact

theorem binary (hop : op.leadsOperand = false) (hx : Gives P s as x) (hy : Gives P s bs y) :
    Gives P s (as ++ bs ++ [.apply op]) (do
      let v ← x
      let w ← y
      P.operate op [v, w]) := by
  have hact := (GivesAll.cons hx (.cons hy .nil)).act (a := .apply op) fun _ _ hvs =>
    act_apply (hvs.trans (if_neg (by simp [hop])).symm)
  simpa only [List.append_nil, bind_assoc, pure_bind] using hact

end Gives

/-- No operand is missing, and the value and the last state are those of the evaluation. -/
theorem Gives.run_eq {σ : Type} {P : Primitives (StateT σ m) ν} {as : List Action}
    {x : StateT σ m ν} (h : Gives P s as x) (stack : List ν) (state : σ) :
    (P.run s as stack).run.run state =
      (fun r => (some (r.1 :: stack), r.2)) <$> x.run state := by
  have hrun : (liftM x : OptionT (StateT σ m) ν).run = some <$> x := by
    rw [map_eq_pure_bind]
    rfl
  rw [h stack]
  simp [hrun]

/-- What is passed at a position is passed by reference if the parameter there is. -/
theorem Signatures.byReference_eq {name : String} (hy : s.yields name = true) (i : Nat) :
    s.byReference name i = ((s.parameters name).drop i).head?.any (·.byReference) := by
  rw [yields, Bool.and_eq_true, Bool.not_eq_true'] at hy
  rw [byReference, hy.1, if_neg (by simp), parameters, List.head?_drop]
  cases s.find? name with
  | none => rfl
  | some sig => cases hp : sig.parameters[i]? <;> simp [hp]

def Formula.code (s : Signatures) (byReference : Bool) : Formula → List Action
  | .access name indices =>
    let a : Access := ⟨name, expressionsOfTerms indices⟩
    indexCode s a.indices ++ [if byReference then .reference name indices.length else a.fetch]
  | t => codeOf s t.elements

theorem code_false (t : Formula) : t.code s false = codeOf s t.elements := by
  cases t with
  | access name indices => rw [Formula.elements, codeOf_access]; rfl
  | _ => rfl

theorem argumentOf_expression (name : String) (i : Nat) (t : Formula) (p : Location) :
    s.argumentOf name i (Term.expression ⟨t, p⟩) = t.code s (s.byReference name i) := by
  rw [Signatures.argumentOf, Expression.code_eq, Term.expression]
  cases s.byReference name i with
  | false =>
    rw [code_false]
    cases (Expression.mk t.elements p).access? <;> rfl
  | true =>
    cases ha : (Expression.mk t.elements p).access? with
    | none =>
      cases t with
      | access name indices => rw [Formula.elements] at ha; cases ha
      | _ => rfl
    | some a =>
      obtain ⟨ts, rfl, hts⟩ := Formula.eq_access_of_elements (Expression.access?_eq_some.1 ha)
      simp only [Formula.code, if_true, ← hts, length_expressionsOfTerms]

mutual

theorem gives_formula (byReference : Bool) (t : Formula)
    (h : s.YieldsAll (callsAmong t.elements)) :
    Gives P s (t.code s byReference) (t.passed P s byReference) := by
  cases t with
  | literal value =>
    have hcode : codeOf s (Formula.literal value).elements = [.push value] := by
      rw [Formula.elements, codeOf, codeOf, Element.code]; rfl
    simp only [Formula.code, Formula.passed, hcode]
    exact .literal value
  | access name indices =>
    rw [Formula.elements, callsAmong_access] at h
    have hindices := givesAll_indices indices h
    rw [Formula.passed]
    cases byReference with
    | true => exact hindices.act fun _ _ hvs => act_reference hvs
    | false =>
      exact hindices.act fun _ _ hvs =>
        act_fetch (hvs.trans (length_expressionsOfTerms indices).symm)
  | call name args p =>
    rw [Formula.elements, callsAmong_call, Signatures.yieldsAll_append] at h
    have hy : s.yields name = true := h.2 name (by simp)
    simp only [Formula.code, Formula.elements, codeOf_call, Call.code, length_expressionsOfTerms,
      Formula.passed]
    exact (givesAll_arguments hy 0 args h.1).act fun _ _ hvs => act_call hy hvs
  | unary op hop t =>
    rw [Formula.elements, callsAmong_append, Signatures.yieldsAll_append] at h
    have ht := gives_formula false t h.1
    rw [code_false] at ht
    simp only [Formula.code, Formula.elements, codeOf_append, codeOf_operator, Formula.passed]
    exact ht.unary hop
  | binary op hop l r =>
    rw [Formula.elements, callsAmong_append, callsAmong_append, Signatures.yieldsAll_append,
      Signatures.yieldsAll_append] at h
    have hl := gives_formula false l h.1.1
    have hr := gives_formula false r h.1.2
    rw [code_false] at hl hr
    simp only [Formula.code, Formula.elements, codeOf_append, codeOf_operator, Formula.passed]
    exact hl.binary hop hr

theorem givesAll_indices (ts : List Term) (h : s.YieldsAll (callsWithin (expressionsOfTerms ts))) :
    GivesAll P s ts.length (indexCode s (expressionsOfTerms ts)) (valuesOf P s ts) := by
  cases ts with
  | nil =>
    rw [expressionsOfTerms, indexCode, valuesOf]
    exact .nil
  | cons t ts =>
    obtain ⟨t, p⟩ := t
    rw [expressionsOfTerms, callsWithin, Signatures.yieldsAll_append, Term.expression,
      Expression.operandCalls] at h
    rw [expressionsOfTerms, indexCode, Term.expression, Expression.code, valuesOf]
    have ht := gives_formula false t h.1
    rw [code_false] at ht
    exact .cons ht (givesAll_indices ts h.2)

theorem givesAll_arguments {name : String} (hy : s.yields name = true) (i : Nat) (ts : List Term)
    (h : s.YieldsAll (callsWithin (expressionsOfTerms ts))) :
    GivesAll P s ts.length (argumentCode s name i (expressionsOfTerms ts))
      (argumentsOf P s ((s.parameters name).drop i) ts) := by
  cases ts with
  | nil =>
    rw [expressionsOfTerms, argumentCode, argumentsOf]
    exact .nil
  | cons t ts =>
    obtain ⟨t, p⟩ := t
    rw [expressionsOfTerms, callsWithin, Signatures.yieldsAll_append, Term.expression,
      Expression.operandCalls] at h
    rw [expressionsOfTerms, argumentCode_cons, argumentOf_expression, argumentsOf,
      ← Signatures.byReference_eq hy, List.tail_drop]
    exact .cons (gives_formula _ t h.1) (givesAll_arguments hy (i + 1) ts h.2)

end

end Correctness

/-- The actions of an expression, run one by one on any stack and in any state, put the value of its
only term on the stack and leave the state that finding this value leaves. -/
theorem Expression.run_code_eq_value {c d : Cursor} {e : Expression}
    (h : Expression.parse.outcome c = (.ok e, d)) {s : Signatures}
    (hs : ∀ name ∈ e.operandCalls, s.yields name = true) :
    ∃ t : Term, (∀ u : Term, u.expression = e ↔ u = t) ∧
      ∀ {m : Type → Type} [Monad m] [LawfulMonad m] {σ ν : Type} (P : Primitives (StateT σ m) ν)
        (stack : List ν) (state : σ),
        (P.run s (e.code s) stack).run.run state =
          (fun r => (some (r.1 :: stack), r.2)) <$> (t.formula.value P s).run state := by
  obtain ⟨⟨t, p⟩, ht⟩ := existsUnique_term h
  refine ⟨⟨t, p⟩, ht, fun P stack state => ?_⟩
  obtain rfl : Term.expression ⟨t, p⟩ = e := (ht _).2 rfl
  rw [Term.expression] at hs ⊢
  rw [operandCalls] at hs
  have hgives : Gives P s _ _ := gives_formula false t hs
  rw [code_false] at hgives
  rw [code]
  exact hgives.run_eq stack state

/-- The tokens of `f(v[i], n) - n`. -/
def difference : List Token :=
  [.word "f", .symbol .leftParen, .word "v", .symbol .leftBracket, .word "i", .symbol .rightBracket,
    .symbol .comma, .word "n", .symbol .rightParen, .symbol .minus, .word "n"].map
    fun kind => ⟨kind, kind.text, .start⟩

def firstByReference : Signatures :=
  .ofList [("f", ⟨"f", [⟨"x", .integer, [], true, .start⟩, ⟨"y", .integer, [], false, .start⟩],
    some .integer⟩)]

/-- Notes each effect with its operands. Operands are named by the number of the effect they come
from, literals by zero. -/
def noted : Primitives (StateT (List (Action × List Nat)) Id) Nat where
  literal _ := 0
  read name indices := note (.subscript name indices.length) indices
  refer name indices := note (.reference name indices.length) indices
  operate op operands := note (.apply op) operands
  invoke name args := note (.call name args.length) args
  store name indices value := discard (note (.assign name indices.length) (value :: indices))
  leave value := discard (note .result [value])
where
  note (a : Action) (operands : List Nat) : StateT (List (Action × List Nat)) Id Nat :=
    fun log => (log.length + 1, log ++ [(a, operands)])

theorem Expression.run_code_difference : ∃ e d,
    Expression.parse.outcome (.ofTokens difference) = (.ok e, d) ∧
      (noted.run firstByReference (e.code firstByReference) [0]).run.run [] =
        (some [6, 0],
          [(.subscript "i" 0, []), (.reference "v" 1, [1]), (.subscript "n" 0, []),
            (.call "f" 2, [2, 3]), (.subscript "n" 0, []), (.apply .minus, [4, 5])]) := by
  let index : Term := ⟨.access "i" [], .start⟩
  let call : Formula := .call "f" [⟨.access "v" [index], .start⟩, ⟨.access "n" [], .start⟩] .start
  let t : Term := ⟨.binary .minus rfl call (.access "n" []), .start⟩
  have hparse : (Expression.parse.outcome (.ofTokens difference)).1 = .ok t.expression := by
    rfl
  have hyields : ∀ name ∈ t.expression.operandCalls, firstByReference.yields name = true := by
    decide +kernel
  obtain ⟨u, hu, hrun⟩ := run_code_eq_value (Prod.ext hparse rfl) hyields
  obtain rfl : t = u := (hu t).1 rfl
  refine ⟨t.expression, _, Prod.ext hparse rfl, ?_⟩
  rw [hrun]
  rfl

end Seudocodigo
