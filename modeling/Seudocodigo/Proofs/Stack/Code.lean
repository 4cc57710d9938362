import Seudocodigo.Proofs.Stack.Machine
import Seudocodigo.Proofs.Stack.Operands

/-! The actions of expressions, and which of them can end a statement. -/
namespace Seudocodigo

structure CompiledProgram.Serves (p : CompiledProgram) (s : Signatures) : Prop where
  found : ∀ {name sig}, s.find? name = some sig →
    ∃ callee, p.find? name = some callee ∧ callee.parameters = sig.parameters
  returns : ∀ {name callee}, p.find? name = some callee →
    callee.kind.returns? = (s.find? name).bind Signature.returns?

theorem CompiledProgram.Serves.yields {p : CompiledProgram} {s : Signatures} (h : p.Serves s)
    (name : String) : p.yields name = s.yields name := by
  rw [CompiledProgram.yields, Signatures.yields]
  cases hc : p.find? name with
  | some callee => rw [Option.bind_some, h.returns hc]
  | none =>
    cases hs : s.find? name with
    | none => rfl
    | some sig =>
      obtain ⟨callee, hf, -⟩ := h.found hs
      rw [hc] at hf
      cases hf

def Signatures.YieldsAll (s : Signatures) (names : List String) : Prop :=
  ∀ name ∈ names, s.yields name = true

theorem Signatures.yieldsAll_append {s : Signatures} {names others : List String} :
    s.YieldsAll (names ++ others) ↔ s.YieldsAll names ∧ s.YieldsAll others :=
  List.forall_mem_append

theorem Expression.access?_eq_some {e : Expression} {a : Access} :
    e.access? = some a ↔ e.elements = [.access a] := by
  rw [access?]
  split
  · next b hb => rw [hb]; simp
  · next h => exact ⟨nofun, fun he => absurd he (h a)⟩

def Signatures.argumentOf (s : Signatures) (module : String) (i : Nat) (e : Expression) :
    List Action :=
  match e.access?, s.byReference module i with
  | some a, true => indexCode s a.indices ++ [.reference a.name a.indices.length]
  | _, _ => e.code s

theorem argumentCode_cons (s : Signatures) (module : String) (i : Nat) (e : Expression)
    (args : List Expression) :
    argumentCode s module i (e :: args) =
      s.argumentOf module i e ++ argumentCode s module (i + 1) args := by
  obtain ⟨es, q⟩ := e
  rw [Signatures.argumentOf]
  cases ha : Expression.access? ⟨es, q⟩ with
  | none =>
    refine argumentCode.eq_3 s module i q args es fun name indices he _ => ?_
    rw [Expression.access?_eq_some.2 he] at ha
    cases ha
  | some a =>
    cases Expression.access?_eq_some.1 ha
    obtain ⟨name, indices⟩ := a
    cases hb : s.byReference module i with
    | true => exact argumentCode.eq_2 s module i q args name indices hb
    | false =>
      refine argumentCode.eq_3 s module i q args _ fun _ _ _ ht => ?_
      rw [hb] at ht
      cases ht

theorem codeOf_append (s : Signatures) (es fs : List Element) :
    codeOf s (es ++ fs) = codeOf s es ++ codeOf s fs := by
  induction es with
  | nil => rw [codeOf]; rfl
  | cons e es ih => rw [List.cons_append, codeOf, codeOf, ih, List.append_assoc]

theorem Expression.code_eq (s : Signatures) (e : Expression) : e.code s = codeOf s e.elements := by
  obtain ⟨es, q⟩ := e
  rw [Expression.code]

theorem Expression.operandCalls_eq (e : Expression) : e.operandCalls = callsAmong e.elements := by
  obtain ⟨es, q⟩ := e
  rw [Expression.operandCalls]

theorem Signatures.yieldsAll_callsWithin {s : Signatures} {es : List Expression} :
    s.YieldsAll (callsWithin es) ↔ ∀ e ∈ es, s.YieldsAll (callsAmong e.elements) := by
  rw [callsWithin_eq, YieldsAll]
  simp only [List.mem_flatMap, Expression.operandCalls_eq]
  exact ⟨fun h e he name hn => h name ⟨e, he, hn⟩, fun h name ⟨e, he, hn⟩ => h e he name hn⟩

def Access.fetch (a : Access) : Action :=
  match a.indices with
  | [] => .load a.name
  | i :: is => .subscript a.name (i :: is).length

theorem codeOf_access (s : Signatures) (a : Access) :
    codeOf s [.access a] = indexCode s a.indices ++ [a.fetch] := by
  obtain ⟨name, indices⟩ := a
  cases indices with
  | nil => rw [codeOf, codeOf, Element.code, indexCode]; rfl
  | cons i is => rw [codeOf, codeOf, Element.code, indexCode, List.append_nil]; rfl

theorem codeOf_operator (s : Signatures) (op : Operator) :
    codeOf s [.operator op] = [.apply op] := by
  rw [codeOf, codeOf, Element.code]; rfl

theorem codeOf_call (s : Signatures) (c : Call) : codeOf s [.call c] = c.code s := by
  obtain ⟨name, args, q⟩ := c
  rw [codeOf, codeOf, Element.code, List.append_nil]

def Inner (p : CompiledProgram) (as : List Action) : Prop :=
  ∀ a ∈ as, a.endsStatement p = false

section Inner

variable {p : CompiledProgram} {s : Signatures}

theorem Inner.append {as bs : List Action} (ha : Inner p as) (hb : Inner p bs) :
    Inner p (as ++ bs) :=
  List.forall_mem_append.2 ⟨ha, hb⟩

theorem Inner.singleton {a : Action} (ha : a.endsStatement p = false) : Inner p [a] :=
  List.forall_mem_singleton.2 ha

theorem inner_indexCode {indices : List Expression}
    (h : ∀ e ∈ indices, Inner p (codeOf s e.elements)) : Inner p (indexCode s indices) := by
  induction indices with
  | nil => rw [indexCode]; exact nofun
  | cons e es ih =>
    obtain ⟨he, hes⟩ := List.forall_mem_cons.1 h
    rw [indexCode, Expression.code_eq]
    exact he.append (ih hes)

theorem inner_argumentCode {args : List Expression} {name : String} {i : Nat}
    (h : ∀ e ∈ args, Inner p (codeOf s e.elements)) : Inner p (argumentCode s name i args) := by
  induction args generalizing i with
  | nil => rw [argumentCode]; exact nofun
  | cons e es ih =>
    obtain ⟨he, hes⟩ := List.forall_mem_cons.1 h
    rw [argumentCode_cons]
    refine Inner.append ?_ (ih hes)
    rw [Signatures.argumentOf, Expression.code_eq]
    split
    · next a _ ha _ =>
      rw [Expression.access?_eq_some.1 ha, codeOf_access] at he
      exact Inner.append (List.forall_mem_append.1 he).1 (.singleton rfl)
    · exact he

theorem inner_call (hp : p.Serves s) {c : Call} (h : Inner p (argumentCode s c.name 0 c.args))
    (hy : s.yields c.name = true) : Inner p (c.code s) := by
  obtain ⟨name, args, q⟩ := c
  rw [Call.code]
  refine h.append (.singleton ?_)
  rw [Action.endsStatement, hp.yields, hy]
  rfl

theorem inner_codeOf (hp : p.Serves s) {es : List Element} (h : Postorder es)
    (hy : s.YieldsAll (callsAmong es)) : Inner p (codeOf s es) := by
  induction h with
  | literal value => rw [codeOf, codeOf, Element.code]; exact .singleton rfl
  | @access a _ ih =>
    rw [callsAmong_access, Signatures.yieldsAll_callsWithin] at hy
    rw [codeOf_access]
    refine (inner_indexCode fun e he => ih e he (hy e he)).append (.singleton ?_)
    rw [Access.fetch]
    split <;> rfl
  | @call c _ ih =>
    rw [callsAmong_call] at hy
    obtain ⟨hyargs, hyname⟩ := Signatures.yieldsAll_append.1 hy
    rw [Signatures.yieldsAll_callsWithin] at hyargs
    have hargs : Inner p (argumentCode s c.name 0 c.args) :=
      inner_argumentCode fun e he => ih e he (hyargs e he)
    rw [codeOf_call]
    exact inner_call hp hargs (hyname c.name (by simp))
  | @unary op es _ _ ih =>
    rw [callsAmong_append] at hy
    rw [codeOf_append, codeOf_operator]
    exact (ih (Signatures.yieldsAll_append.1 hy).1).append (.singleton rfl)
  | @binary op ls rs _ _ _ ihl ihr =>
    rw [callsAmong_append, callsAmong_append] at hy
    obtain ⟨hyl, hyr⟩ := Signatures.yieldsAll_append.1 (Signatures.yieldsAll_append.1 hy).1
    rw [codeOf_append, codeOf_append, codeOf_operator]
    exact ((ihl hyl).append (ihr hyr)).append (.singleton rfl)

end Inner

end Seudocodigo
