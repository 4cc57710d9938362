import Seudocodigo.Proofs.Stack.Code

/-! By how much actions let the stack of operands grow. Where the actions of an expression can be
carried out, the stack lacks a value for every call in it that leaves nothing. -/
namespace Seudocodigo

variable {p : CompiledProgram} {m : CompiledModule} {s : Signatures}

def Action.gain (p : CompiledProgram) : Action → Int
  | .push _ | .load _ => 1
  | .subscript _ n | .reference _ n => 1 - n
  | .apply op => 1 - op.arity
  | .call name n => (if p.yields name then 1 else 0) - n
  | .discard | .result => -1
  | .assign _ n => -1 - n

def gainOf (p : CompiledProgram) : List Action → Int
  | [] => 0
  | a :: as => a.gain p + gainOf p as

theorem gainOf_append (as bs : List Action) :
    gainOf p (as ++ bs) = gainOf p as + gainOf p bs := by
  induction as with
  | nil => exact (Int.zero_add _).symm
  | cons a as ih => rw [List.cons_append, gainOf, gainOf, ih, Int.add_assoc]

theorem gainOf_singleton (a : Action) : gainOf p [a] = a.gain p := Int.add_zero _

theorem Operator.length_act {op : Operator} {stack rest : List Operand}
    (h : op.act stack = some rest) : (rest.length : Int) = stack.length + (1 - op.arity) := by
  rw [arity]
  cases hop : op.leadsOperand with
  | true =>
    match stack, h with
    | .value t :: stack, h =>
      rw [act_unary hop] at h
      obtain ⟨u, -, rfl⟩ := Option.map_eq_some_iff.1 h
      simp
  | false =>
    match stack, h with
    | .value r :: .value l :: stack, h =>
      rw [act_binary hop] at h
      obtain ⟨u, -, rfl⟩ := Option.map_eq_some_iff.1 h
      simp only [List.length_cons, Bool.false_eq_true, if_false]
      omega
    | [.value _], h | .value _ :: .reference _ :: _, h => simp [act, hop] at h

namespace CompiledModule

variable {stack rest : List Operand}

theorem length_call {name : String} {n : Nat}
    (h : m.act? p (.call name n) stack = some rest) :
    (rest.length : Int) = stack.length + (Action.call name n).gain p := by
  rw [act?] at h
  rw [Action.gain, CompiledProgram.yields]
  split at h
  · next hname =>
    split at h
    · cases h
      rw [List.length_drop, hname]
      simp only [Bool.not_true, Bool.false_and, Bool.false_eq_true, if_false]
      omega
    · cases h
  · next hname =>
    obtain ⟨callee, hcallee, h⟩ := Option.bind_eq_some_iff.1 h
    obtain ⟨below, hbelow, h⟩ := Option.bind_eq_some_iff.1 h
    split at h
    · next hlen =>
      cases h
      have htake := Operand.length_of_take? hbelow
      rw [List.length_map, hlen] at htake
      rw [hcallee, Option.bind_some, eq_false_of_ne_true hname, htake]
      cases callee.kind.returns? with
      | none =>
        simp only [Option.map_none, Option.toList_none, List.nil_append, Option.isSome_none,
          Bool.and_false, Bool.false_eq_true, if_false]
        omega
      | some t =>
        simp only [Option.map_some, Option.toList_some, List.length_append, List.length_cons,
          List.length_nil, Bool.not_false, Option.isSome_some, Bool.and_self, if_true]
        omega
    · cases h

theorem length_assign {name : String} {n : Nat}
    (h : m.act? p (.assign name n) stack = some rest) :
    (rest.length : Int) = stack.length + (Action.assign name n).gain p := by
  obtain ⟨below, hbelow, h⟩ := Option.bind_eq_some_iff.1 h
  obtain ⟨t, -, h⟩ := Option.bind_eq_some_iff.1 h
  have hlen := Operand.length_of_takeIndices? hbelow
  match below, h with
  | .value u :: below, h =>
    dsimp only at h
    split at h
    · cases h
      rw [List.length_cons] at hlen
      simp only [Action.gain]
      omega
    · cases h

/-- An action that is carried out lets the stack grow as stated. -/
theorem length_act? {a : Action} (h : m.act? p a stack = some rest) :
    (rest.length : Int) = stack.length + a.gain p := by
  cases a with
  | push value => cases h; rfl
  | load name =>
    obtain ⟨t, -, rfl⟩ := Option.map_eq_some_iff.1 h
    rfl
  | subscript name n | reference name n =>
    obtain ⟨below, hbelow, h⟩ := Option.bind_eq_some_iff.1 h
    obtain ⟨t, -, rfl⟩ := Option.map_eq_some_iff.1 h
    have hlen := Operand.length_of_takeIndices? hbelow
    simp only [Action.gain, List.length_cons]
    omega
  | apply op => exact Operator.length_act h
  | call => exact length_call h
  | discard =>
    cases stack with
    | nil => cases h
    | cons t stack =>
      cases h
      simp only [Action.gain, List.length_cons]
      omega
  | assign => exact length_assign h
  | result =>
    match stack, h with
    | .value u :: stack, h =>
      rw [act?] at h
      split at h
      · cases h
        simp only [Action.gain, List.length_cons]
        omega
      · cases h

theorem length_run? {as : List Action} (h : m.run? p as stack = some rest) :
    (rest.length : Int) = stack.length + gainOf p as := by
  induction as generalizing stack with
  | nil => cases h; exact (Int.add_zero _).symm
  | cons a as ih =>
    obtain ⟨between, ha, h⟩ := Option.bind_eq_some_iff.1 h
    have hfirst := length_act? ha
    have hrest := ih h
    rw [gainOf]
    omega

end CompiledModule

def Signatures.missing (s : Signatures) (names : List String) : Nat := names.countP (!s.yields ·)

theorem Signatures.missing_append (names others : List String) :
    s.missing (names ++ others) = s.missing names + s.missing others :=
  List.countP_append

theorem Signatures.missing_eq_zero {names : List String} :
    s.missing names = 0 ↔ s.YieldsAll names := by
  simp [missing, YieldsAll]

theorem gainOf_access (a : Access) :
    gainOf p (codeOf s [.access a]) =
      gainOf p (indexCode s a.indices) + (1 - a.indices.length) := by
  rw [codeOf_access, gainOf_append, gainOf_singleton]
  obtain ⟨name, indices⟩ := a
  cases indices <;> rfl

theorem gainOf_operator (op : Operator) : gainOf p (codeOf s [.operator op]) = 1 - op.arity := by
  rw [codeOf_operator, gainOf_singleton]
  rfl

theorem gainOf_call (hp : p.Serves s) (c : Call) :
    gainOf p (c.code s) = gainOf p (argumentCode s c.name 0 c.args) +
      ((if s.yields c.name then 1 else 0) - c.args.length) := by
  obtain ⟨name, args, q⟩ := c
  rw [Call.code, gainOf_append, gainOf_singleton, Action.gain, hp.yields]

/-- It makes no difference to the growth whether an argument is passed by reference. -/
theorem gainOf_argumentOf (name : String) (i : Nat) (e : Expression) :
    gainOf p (s.argumentOf name i e) = gainOf p (codeOf s e.elements) := by
  rw [Signatures.argumentOf, Expression.code_eq]
  split
  · next a _ ha _ =>
    rw [Expression.access?_eq_some.1 ha, gainOf_access, gainOf_append, gainOf_singleton]
    rfl
  · rfl

theorem gainOf_indexCode {indices : List Expression}
    (h : ∀ e ∈ indices, gainOf p (codeOf s e.elements) + s.missing (callsAmong e.elements) = 1) :
    gainOf p (indexCode s indices) + s.missing (callsWithin indices) = indices.length := by
  induction indices with
  | nil => rw [indexCode, callsWithin]; rfl
  | cons e es ih =>
    obtain ⟨he, hes⟩ := List.forall_mem_cons.1 h
    have hrest := ih hes
    rw [indexCode, callsWithin, gainOf_append, Signatures.missing_append, Expression.code_eq,
      Expression.operandCalls_eq, List.length_cons]
    omega

theorem gainOf_argumentCode {args : List Expression} {name : String} {i : Nat}
    (h : ∀ e ∈ args, gainOf p (codeOf s e.elements) + s.missing (callsAmong e.elements) = 1) :
    gainOf p (argumentCode s name i args) + s.missing (callsWithin args) = args.length := by
  induction args generalizing i with
  | nil => rw [argumentCode, callsWithin]; rfl
  | cons e es ih =>
    obtain ⟨he, hes⟩ := List.forall_mem_cons.1 h
    have hrest := ih (i := i + 1) hes
    rw [argumentCode_cons, callsWithin, gainOf_append, Signatures.missing_append,
      gainOf_argumentOf, Expression.operandCalls_eq, List.length_cons]
    omega

/-- The actions of an expression let the stack grow by one value, less one for every call in it
that leaves nothing. -/
theorem gainOf_codeOf (hp : p.Serves s) {es : List Element} (h : Postorder es) :
    gainOf p (codeOf s es) + s.missing (callsAmong es) = 1 := by
  induction h with
  | literal value => rw [codeOf, codeOf, Element.code, callsAmong, callsAmong]; rfl
  | @access a _ ih =>
    have hindices := gainOf_indexCode ih
    rw [gainOf_access, callsAmong_access]
    omega
  | @call c _ ih =>
    have hargs : gainOf p (argumentCode s c.name 0 c.args) + s.missing (callsWithin c.args) =
        c.args.length := gainOf_argumentCode ih
    have hname : s.missing [c.name] = if s.yields c.name then 0 else 1 := by
      cases hy : s.yields c.name <;> simp [Signatures.missing, hy]
    rw [codeOf_call, gainOf_call hp, callsAmong_call, Signatures.missing_append, hname]
    split <;> omega
  | @unary op es hop _ ih =>
    rw [codeOf_append, gainOf_append, gainOf_operator, callsAmong_append, callsAmong_operator,
      List.append_nil, Operator.arity, if_pos hop]
    omega
  | @binary op ls rs hop _ _ ihl ihr =>
    rw [codeOf_append, codeOf_append, gainOf_append, gainOf_append, gainOf_operator,
      callsAmong_append, callsAmong_append, callsAmong_operator, List.append_nil,
      Signatures.missing_append, Operator.arity, if_neg (by simp [hop])]
    omega

end Seudocodigo
