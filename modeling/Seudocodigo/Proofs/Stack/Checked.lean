import Seudocodigo.Proofs.Stack.Statements
import Seudocodigo.Proofs.Stack.Typed
import Seudocodigo.Statement.Typing

/-! Statements without type errors find the operands that they need if all calls that are operands
leave something. -/
namespace Seudocodigo

theorem ok_of_failure {check : Except TypeError α} (h : failure check = []) :
    ∃ a, check = .ok a := by
  cases check with
  | error e => cases h
  | ok a => exact ⟨a, rfl⟩

theorem ok_of_require {check : Except TypeError Ty} {expected : Ty} {problem : Ty → TypeProblem}
    {q : Location} (h : failure (require check expected problem q) = []) :
    check = .ok expected := by
  obtain ⟨u, hu⟩ := ok_of_failure h
  obtain ⟨t, ht, hu⟩ := exists_of_bind_eq_ok hu
  split at hu
  · next he => rw [ht, he]
  · cases hu

/-- The operators of the expression stand behind their operands, and its calls leave something. -/
structure Expression.Usable (s : Signatures) (e : Expression) : Prop where
  postorder : Postorder e.elements
  yields : s.YieldsAll (callsAmong e.elements)

section Checked

variable {Γ : Context} {p : CompiledProgram} {m : CompiledModule}

theorem execute?_of_inner {as : List Action} (h : Inner p as) (stack : List Operand) :
    m.execute? p (as.map .action) stack = m.run? p as stack := by
  induction as generalizing stack with
  | nil => rfl
  | cons a as ih =>
    obtain ⟨ha, has⟩ := List.forall_mem_cons.1 h
    rw [List.map_cons, CompiledModule.execute?, CompiledModule.run?, CompiledModule.pass?]
    cases m.act? p a stack with
    | none => rfl
    | some rest =>
      rw [Option.filter_some, ha, Bool.not_false, Bool.true_or, if_pos rfl]
      exact ih has rest

/-- The last action of a statement may leave nothing. -/
theorem clean_ending {as : List Action} {a : Action} (h : Inner p as)
    (hrun : m.run? p (as ++ [a]) [] = some []) : (Segment.actions (as ++ [a])).Clean p m := by
  refine .actions ?_
  rw [CompiledModule.run?_append] at hrun
  obtain ⟨between, has, ha⟩ := Option.bind_eq_some_iff.1 hrun
  rw [CompiledModule.run?_singleton] at ha
  rw [List.map_append, CompiledModule.execute?_append, execute?_of_inner h, has, Option.bind_some,
    List.map_singleton, CompiledModule.execute?, CompiledModule.pass?, ha]
  simp [CompiledModule.execute?]

namespace Expression.Usable

variable {e : Expression}

theorem inner (hp : p.Serves Γ.signatures) (h : e.Usable Γ.signatures) :
    Inner p (codeOf Γ.signatures e.elements) :=
  inner_codeOf hp h.postorder h.yields

theorem leavesTyped (hp : p.Serves Γ.signatures) (hm : m.Hosts Γ) (h : e.Usable Γ.signatures) :
    LeavesTyped p m Γ e.elements :=
  leavesTyped_of_postorder hp hm h.postorder h.yields

theorem puts (hp : p.Serves Γ.signatures) (hm : m.Hosts Γ) (h : e.Usable Γ.signatures) {t : Ty}
    (ht : e.type Γ = .ok t) : Puts p m (codeOf Γ.signatures e.elements) t :=
  LeavesTyped.expression (h.leavesTyped hp hm) ht

end Expression.Usable

theorem clean_assignment (hp : p.Serves Γ.signatures) (hm : m.Hosts Γ) {a : Assignment}
    {q : Location} {expected received : Ty} (h : ∀ e ∈ a.expressions, e.Usable Γ.signatures)
    (ht : a.target.type Γ q = .ok expected) (hv : a.value.type Γ = .ok received)
    (haccepts : expected.accepts received = true) :
    (Segment.actions (a.code Γ.signatures)).Clean p m := by
  obtain ⟨hvalue, hindices⟩ := List.forall_mem_cons.1 h
  obtain ⟨hselected, u, hc⟩ := hm.selected? ht
  have hputs := hvalue.puts hp hm hv
  have hrun := run?_indexCode (fun e he => (hindices e he).leavesTyped hp hm) hc
  have hinner := (hvalue.inner hp).append (inner_indexCode fun e he => (hindices e he).inner hp)
  rw [Assignment.code, Expression.code_eq]
  refine clean_ending hinner ?_
  rw [CompiledModule.run?_append, CompiledModule.run?_append, hputs, Option.bind_some, hrun,
    Option.bind_some, CompiledModule.run?_singleton, CompiledModule.act?,
    Operand.takeIndices?_append, Option.bind_eq_bind, Option.bind_some, hselected]
  exact if_pos haccepts

theorem clean_call (hp : p.Serves Γ.signatures) (hm : m.Hosts Γ) {c : Call} {u : Unit}
    (h : ∀ e ∈ c.args, e.Usable Γ.signatures) (hc : c.check Γ = .ok u) :
    (Segment.actions (c.statementCode Γ.signatures)).Clean p m := by
  have hrun := run?_call hp (fun e he => (h e he).leavesTyped hp hm) hc []
  have hargs : Inner p (argumentCode Γ.signatures c.name 0 c.args) :=
    inner_argumentCode fun e he => (h e he).inner hp
  rw [Call.statementCode]
  cases hyields : Γ.signatures.yields c.name with
  | true =>
    rw [if_pos rfl]
    refine clean_ending (inner_call hp hargs hyields) ?_
    rw [CompiledModule.run?_append, hrun, hyields, if_pos rfl, Option.bind_some]
    rfl
  | false =>
    rw [hyields, if_neg (by simp)] at hrun
    rw [if_neg (by simp), List.append_nil]
    obtain ⟨name, args, q⟩ := c
    rw [Call.code] at hrun ⊢
    exact clean_ending hargs hrun

theorem clean_result (hp : p.Serves Γ.signatures) (hm : m.Hosts Γ) {value : Expression}
    {q : Location} {u : Unit} (h : value.Usable Γ.signatures) (hc : checkResult Γ value q = .ok u) :
    (Segment.actions (value.code Γ.signatures ++ [.result])).Clean p m := by
  rw [checkResult] at hc
  split at hc
  · cases hc
  · next expected hreturns =>
    obtain ⟨received, ht, hc⟩ := exists_of_bind_eq_ok hc
    split at hc
    · next he =>
      rw [Expression.code_eq]
      refine clean_ending (h.inner hp) ?_
      rw [CompiledModule.run?_append, h.puts hp hm ht, Option.bind_some,
        CompiledModule.run?_singleton, CompiledModule.act?, hm.returns, hreturns, he, if_pos rfl]
    · cases hc

theorem decides_of_check (hp : p.Serves Γ.signatures) (hm : m.Hosts Γ) {condition : Expression}
    (h : condition.Usable Γ.signatures) (hc : failure (condition.checkCondition Γ) = []) :
    Segment.Decides p m (condition.code Γ.signatures) := by
  have hputs := h.puts hp hm (ok_of_require hc)
  rw [Segment.Decides, Expression.code_eq]
  exact hputs []

namespace CountingLoop

variable {l : CountingLoop}

/-- The condition of a counting loop compares two integers. -/
theorem decides_condition (hp : p.Serves Γ.signatures) (hm : m.Hosts Γ) {q : Location}
    (htarget : ∀ e ∈ l.start.target.indices, e.Usable Γ.signatures)
    (hbound : l.bound.Usable Γ.signatures) (ht : l.start.target.type Γ q = .ok .integer)
    (hb : l.bound.type Γ = .ok .integer) :
    Segment.Decides p m (l.condition.code Γ.signatures) := by
  have haccess := puts_access hm (fun e he => (htarget e he).leavesTyped hp hm) ht
  have hcompare : Operator.lessEqual.binaryType? .integer .integer = some .logical := rfl
  have hputs := puts_binary rfl haccess (hbound.puts hp hm hb) hcompare
  rw [Segment.Decides, Expression.code_eq]
  exact hputs []

theorem type_increment (h : l.start.target.type Γ l.location = .ok .integer) :
    l.increment.value.type Γ = .ok .integer := by
  rw [increment, Expression.type, typeElements, Element.typeOnto, h]
  rfl

theorem usable_increment {s : Signatures} (h : ∀ e ∈ l.start.target.indices, e.Usable s) :
    ∀ e ∈ l.increment.expressions, e.Usable s := by
  have hpost := allPostorder_increment (l := l) fun e he => (h e he).postorder
  refine List.forall_mem_cons.2 ⟨⟨hpost _ List.mem_cons_self, ?_⟩, h⟩
  rw [callsAmong_increment]
  exact Signatures.yieldsAll_callsWithin.2 fun e he => (h e he).yields

/-- A counting loop is an assignment and a loop that ends its turns with another one. -/
theorem clean_segment (hp : p.Serves Γ.signatures) (hm : m.Hosts Γ) {turn : Segment}
    (hstart : ∀ e ∈ l.start.expressions, e.Usable Γ.signatures)
    (hbound : l.bound.Usable Γ.signatures)
    (ht : l.start.target.type Γ l.location = .ok .integer)
    (hv : l.start.value.type Γ = .ok .integer) (hb : l.bound.type Γ = .ok .integer)
    (hturn : turn.Clean p m) :
    ((Segment.actions (l.start.code Γ.signatures)).seq
      (.loop (l.condition.code Γ.signatures)
        (turn.seq (.actions (l.increment.code Γ.signatures))))).Clean p m := by
  obtain ⟨-, htarget⟩ := List.forall_mem_cons.1 hstart
  have hincrement := clean_assignment hp hm (usable_increment htarget) ht (type_increment ht) rfl
  exact .seq (clean_assignment hp hm hstart ht hv rfl)
    (.loop (decides_condition hp hm htarget hbound ht hb) (.seq hturn hincrement))

end CountingLoop

mutual

theorem clean_segment (hp : p.Serves Γ.signatures) (hm : m.Hosts Γ) (st : Statement)
    (h : ∀ e ∈ st.expressions, e.Usable Γ.signatures) (he : st.errors Γ = []) :
    (st.segment Γ.signatures).Clean p m := by
  cases st with
  | declaration => rw [Statement.segment]; exact .skip
  | assignment a =>
    rw [Statement.segment]
    rw [Statement.errors] at he
    obtain ⟨u, hu⟩ := ok_of_failure he
    obtain ⟨expected, ht, hu⟩ := exists_of_bind_eq_ok hu
    obtain ⟨received, hv, hu⟩ := exists_of_bind_eq_ok hu
    split at hu
    · next haccepts => exact clean_assignment hp hm h ht hv haccepts
    · cases hu
  | call c =>
    rw [Statement.segment]
    rw [Statement.errors] at he
    obtain ⟨u, hu⟩ := ok_of_failure he
    exact clean_call hp hm h hu
  | result value q =>
    rw [Statement.segment]
    rw [Statement.errors] at he
    obtain ⟨u, hu⟩ := ok_of_failure he
    exact clean_result hp hm (h value (by simp [Statement.expressions])) hu
  | conditional condition thenBranch elseBranch _ =>
    rw [Statement.segment]
    rw [Statement.errors] at he
    rw [Statement.expressions] at h
    obtain ⟨hfirst, helse⟩ := List.forall_mem_append.1 h
    obtain ⟨hcondition, hthen⟩ := List.forall_mem_cons.1 hfirst
    obtain ⟨hefirst, heelse⟩ := List.append_eq_nil_iff.1 he
    obtain ⟨hecondition, hethen⟩ := List.append_eq_nil_iff.1 hefirst
    exact .test (decides_of_check hp hm hcondition hecondition)
      (clean_segmentOf hp hm thenBranch hthen hethen)
      (clean_segmentOf hp hm elseBranch helse heelse)
  | whileLoop condition body _ =>
    rw [Statement.segment]
    rw [Statement.errors] at he
    rw [Statement.expressions] at h
    obtain ⟨hcondition, hbody⟩ := List.forall_mem_cons.1 h
    obtain ⟨hecondition, hebody⟩ := List.append_eq_nil_iff.1 he
    exact .loop (decides_of_check hp hm hcondition hecondition)
      (clean_segmentOf hp hm body hbody hebody)
  | untilLoop body condition _ =>
    rw [Statement.segment]
    rw [Statement.errors] at he
    rw [Statement.expressions] at h
    obtain ⟨hcondition, hbody⟩ := List.forall_mem_cons.1 h
    obtain ⟨hecondition, hebody⟩ := List.append_eq_nil_iff.1 he
    have hclean := clean_segmentOf hp hm body hbody hebody
    refine hclean.seq (.loop ?_ hclean)
    rw [Segment.Decides, CompiledModule.run?_append, decides_of_check hp hm hcondition hecondition]
    rfl
  | counting l =>
    obtain ⟨start, bound, body, q⟩ := l
    rw [Statement.segment]
    rw [Statement.errors] at he
    rw [Statement.expressions] at h
    obtain ⟨hfirst, hbody⟩ := List.forall_mem_append.1 h
    obtain ⟨hbound, hstart⟩ := List.forall_mem_cons.1 hfirst
    obtain ⟨heheader, hebody⟩ := List.append_eq_nil_iff.1 he
    obtain ⟨hefirst, hebound⟩ := List.append_eq_nil_iff.1 heheader
    obtain ⟨hecounter, hevalue⟩ := List.append_eq_nil_iff.1 hefirst
    exact CountingLoop.clean_segment (l := ⟨start, bound, body, q⟩) hp hm hstart hbound
      (ok_of_require hecounter) (ok_of_require hevalue) (ok_of_require hebound)
      (clean_segmentOf hp hm body hbody hebody)

theorem clean_segmentOf (hp : p.Serves Γ.signatures) (hm : m.Hosts Γ) (ss : List Statement)
    (h : ∀ e ∈ expressionsOf ss, e.Usable Γ.signatures) (he : errorsOf Γ ss = []) :
    (segmentOf Γ.signatures ss).Clean p m := by
  cases ss with
  | nil => rw [segmentOf]; exact .skip
  | cons st sts =>
    rw [segmentOf]
    rw [errorsOf] at he
    rw [expressionsOf] at h
    obtain ⟨hfirst, hrest⟩ := List.forall_mem_append.1 h
    obtain ⟨hefirst, herest⟩ := List.append_eq_nil_iff.1 he
    exact (clean_segment hp hm st hfirst hefirst).seq (clean_segmentOf hp hm sts hrest herest)

end

end Checked
end Seudocodigo
