import Seudocodigo.Proofs.Stack.Segments

/-! Statements find the operands that they need only if all calls that are operands leave
something. -/
namespace Seudocodigo

section Growth

variable {p : CompiledProgram} {m : CompiledModule} {s : Signatures}

theorem AllPostorder.gain (hp : p.Serves s) {es : List Expression} (h : AllPostorder es) :
    ∀ e ∈ es, gainOf p (codeOf s e.elements) + s.missing (callsAmong e.elements) = 1 :=
  fun e he => gainOf_codeOf hp (h e he)

theorem gainOf_assignment (hp : p.Serves s) {a : Assignment} (h : AllPostorder a.expressions) :
    gainOf p (a.code s) + s.missing (callsWithin a.expressions) = 0 := by
  obtain ⟨hvalue, hindices⟩ := List.forall_mem_cons.1 (h.gain hp)
  have hrest := gainOf_indexCode hindices
  rw [Assignment.code, gainOf_append, gainOf_append, gainOf_singleton, Assignment.expressions,
    callsWithin, Signatures.missing_append, Expression.code_eq, Expression.operandCalls_eq,
    Action.gain]
  omega

theorem gainOf_statementCode (hp : p.Serves s) {c : Call} (h : AllPostorder c.args) :
    gainOf p (c.statementCode s) + s.missing (callsWithin c.args) = 0 := by
  have hargs : gainOf p (argumentCode s c.name 0 c.args) + s.missing (callsWithin c.args) =
      c.args.length := gainOf_argumentCode (h.gain hp)
  rw [Call.statementCode, gainOf_append, gainOf_call hp]
  split
  · rw [gainOf_singleton, Action.gain]
    omega
  · rw [show gainOf p [] = 0 from rfl]
    omega

theorem gainOf_result (hp : p.Serves s) {value : Expression} (h : Postorder value.elements) :
    gainOf p (value.code s ++ [.result]) + s.missing (callsWithin [value]) = 0 := by
  have hvalue := gainOf_codeOf hp h
  rw [gainOf_append, gainOf_singleton, callsWithin, callsWithin, List.append_nil,
    Expression.code_eq, Expression.operandCalls_eq, Action.gain]
  omega

theorem yieldsAll_of_decides {condition : List Action} {names : List String}
    (hgain : gainOf p condition + s.missing names = 1) (h : Segment.Decides p m condition) :
    s.YieldsAll names := by
  have hlen := CompiledModule.length_run? h
  simp only [List.length_cons, List.length_nil] at hlen
  exact Signatures.missing_eq_zero.1 (by omega)

theorem yieldsAll_of_runs {as : List Action} {names : List String}
    (hgain : gainOf p as + s.missing names = 0) (h : (Segment.actions as).Runs p m) :
    s.YieldsAll names ∧ (Segment.actions as).Clean p m := by
  obtain ⟨stack, hexec⟩ := h []
  have hlen := CompiledModule.length_run? (CompiledModule.run?_of_execute? hexec)
  rw [List.length_nil] at hlen
  have hstack : stack.length = 0 := by omega
  rw [List.length_eq_zero_iff.1 hstack] at hexec
  exact ⟨Signatures.missing_eq_zero.1 (by omega), .actions hexec⟩

end Growth

/-! The condition and the last step of a counting loop are expressions as well. -/

namespace CountingLoop

variable {l : CountingLoop}

theorem postorder_condition (ht : AllPostorder l.start.target.indices)
    (hb : Postorder l.bound.elements) : Postorder l.condition.elements := by
  have h : Postorder ([.access l.start.target] ++ l.bound.elements ++ [.operator .lessEqual]) :=
    .binary rfl (.access ht) hb
  exact h

theorem callsAmong_condition (l : CountingLoop) : callsAmong l.condition.elements =
    callsWithin l.start.target.indices ++ callsAmong l.bound.elements := by
  have h := callsAmong_append [.access l.start.target] l.bound.elements
  rw [condition, callsAmong_append, callsAmong_operator, List.append_nil, ← callsAmong_access]
  exact h

theorem callsAmong_increment (l : CountingLoop) :
    callsAmong l.increment.value.elements = callsWithin l.start.target.indices := by
  have happend := callsAmong_append [.access l.start.target]
    [.literal (.integer 1), .operator .plus]
  rw [callsAmong_access, callsAmong, callsAmong_operator, Element.operandCalls] at happend
  exact happend.trans (List.append_nil _)

theorem allPostorder_increment (ht : AllPostorder l.start.target.indices) :
    AllPostorder l.increment.expressions := by
  have h : Postorder ([.access l.start.target] ++ [.literal (.integer 1)] ++ [.operator .plus]) :=
    .binary rfl (.access ht) (.literal _)
  exact .cons h ht

end CountingLoop

mutual

theorem ends_segment (s : Signatures) (st : Statement) : (st.segment s).Ends := by
  cases st with
  | declaration | assignment | call | result => rw [Statement.segment]; exact .actions _
  | conditional _ thenBranch _ _ => rw [Statement.segment]; exact (ends_segmentOf s thenBranch).test
  | whileLoop => rw [Statement.segment]; exact .loop
  | untilLoop body _ _ => rw [Statement.segment]; exact (ends_segmentOf s body).seq .loop
  | counting l =>
    obtain ⟨start, bound, body, p⟩ := l
    rw [Statement.segment]
    exact (Segment.Ends.actions _).seq .loop

theorem ends_segmentOf (s : Signatures) (ss : List Statement) : (segmentOf s ss).Ends := by
  cases ss with
  | nil => rw [segmentOf]; exact .actions _
  | cons st sts =>
    rw [segmentOf]
    exact (ends_segment s st).seq (ends_segmentOf s sts)

end

section Forced

variable {p : CompiledProgram} {m : CompiledModule} {s : Signatures}

theorem gainOf_expression (hp : p.Serves s) {e : Expression} (h : Postorder e.elements) :
    gainOf p (e.code s) + s.missing e.operandCalls = 1 := by
  rw [Expression.code_eq, Expression.operandCalls_eq]
  exact gainOf_codeOf hp h

theorem yieldsAll_callsWithin_append {es fs : List Expression} :
    s.YieldsAll (callsWithin (es ++ fs)) ↔
      s.YieldsAll (callsWithin es) ∧ s.YieldsAll (callsWithin fs) := by
  rw [callsWithin_eq, callsWithin_eq, callsWithin_eq, List.flatMap_append]
  exact Signatures.yieldsAll_append

/-- What is known of a turn of a counting loop without the step at its end is known of the loop. -/
theorem CountingLoop.yieldsAll_of_segment (hp : p.Serves s) {l : CountingLoop} {turn : Segment}
    {names : List String} (hstart : AllPostorder l.start.expressions)
    (hbound : Postorder l.bound.elements) (hends : turn.Ends)
    (hturn : turn.Runs p m → s.YieldsAll names ∧ turn.Clean p m)
    (h : ((Segment.actions (l.start.code s)).seq
      (.loop (l.condition.code s) (turn.seq (.actions (l.increment.code s))))).Runs p m) :
    s.YieldsAll (callsWithin (l.bound :: l.start.expressions)) ∧ s.YieldsAll names ∧
      ((Segment.actions (l.start.code s)).seq
        (.loop (l.condition.code s) (turn.seq (.actions (l.increment.code s))))).Clean p m := by
  obtain ⟨-, htarget⟩ := List.forall_mem_cons.1 hstart
  obtain ⟨hystart, hcstart⟩ := yieldsAll_of_runs (gainOf_assignment hp hstart) h.seq_left
  have hloop := (h.seq_right hcstart (.actions _)).of_loop
  have hround := hloop.test_left.seq_left
  obtain ⟨hyturn, hcturn⟩ := hturn hround.seq_left
  obtain ⟨-, hcstep⟩ := yieldsAll_of_runs (gainOf_assignment hp (allPostorder_increment htarget))
    (hround.seq_right hcturn hends)
  have hcondition := yieldsAll_of_decides
    (gainOf_expression hp (postorder_condition htarget hbound)) hloop.decides
  rw [Expression.operandCalls_eq, callsAmong_condition, ← Expression.operandCalls_eq] at hcondition
  obtain ⟨-, hybound⟩ := Signatures.yieldsAll_append.1 hcondition
  exact ⟨Signatures.yieldsAll_append.2 ⟨hybound, hystart⟩, hyturn,
    hcstart.seq (.loop hloop.decides (hcturn.seq hcstep))⟩

mutual

/-- Where a statement finds its operands whatever the outcomes of its tests, all calls that are
operands leave something, and the statement leaves nothing. -/
theorem yieldsAll_of_segment (hp : p.Serves s) (st : Statement)
    (hpost : AllPostorder st.expressions) (h : (st.segment s).Runs p m) :
    s.YieldsAll (callsWithin st.expressions) ∧ (st.segment s).Clean p m := by
  cases st with
  | declaration =>
    rw [Statement.segment] at h ⊢
    exact ⟨nofun, .skip⟩
  | assignment a =>
    rw [Statement.segment] at h ⊢
    exact yieldsAll_of_runs (gainOf_assignment hp hpost) h
  | call c =>
    rw [Statement.segment] at h ⊢
    exact yieldsAll_of_runs (gainOf_statementCode hp hpost) h
  | result value _ =>
    rw [Statement.segment] at h ⊢
    exact yieldsAll_of_runs (gainOf_result hp (hpost value (by simp [Statement.expressions]))) h
  | conditional condition thenBranch elseBranch _ =>
    rw [Statement.segment] at h ⊢
    rw [Statement.expressions] at hpost ⊢
    obtain ⟨hfirst, helse⟩ := List.forall_mem_append.1 hpost
    obtain ⟨hcondition, hthen⟩ := List.forall_mem_cons.1 hfirst
    obtain ⟨hythen, hcthen⟩ := yieldsAll_of_segmentOf hp thenBranch hthen h.test_left
    obtain ⟨hyelse, hcelse⟩ := yieldsAll_of_segmentOf hp elseBranch helse h.test_right
    have hycondition := yieldsAll_of_decides (gainOf_expression hp hcondition) h.decides
    refine ⟨yieldsAll_callsWithin_append.2 ⟨?_, hyelse⟩, .test h.decides hcthen hcelse⟩
    exact Signatures.yieldsAll_append.2 ⟨hycondition, hythen⟩
  | whileLoop condition body _ =>
    rw [Statement.segment] at h ⊢
    rw [Statement.expressions] at hpost ⊢
    obtain ⟨hcondition, hbody⟩ := List.forall_mem_cons.1 hpost
    have hturn := h.of_loop
    obtain ⟨hybody, hcbody⟩ := yieldsAll_of_segmentOf hp body hbody hturn.test_left.seq_left
    have hycondition := yieldsAll_of_decides (gainOf_expression hp hcondition) hturn.decides
    exact ⟨Signatures.yieldsAll_append.2 ⟨hycondition, hybody⟩, .loop hturn.decides hcbody⟩
  | untilLoop body condition _ =>
    rw [Statement.segment] at h ⊢
    rw [Statement.expressions] at hpost ⊢
    obtain ⟨hcondition, hbody⟩ := List.forall_mem_cons.1 hpost
    obtain ⟨hybody, hcbody⟩ := yieldsAll_of_segmentOf hp body hbody h.seq_left
    have hdecides := (h.seq_right hcbody (ends_segmentOf s body)).of_loop.decides
    have hgain : gainOf p (condition.code s ++ [.apply .not]) + s.missing condition.operandCalls =
        1 := by
      have hexpression := gainOf_expression hp hcondition
      rw [gainOf_append, gainOf_singleton, show (Action.apply .not).gain p = 0 from rfl]
      omega
    have hycondition := yieldsAll_of_decides hgain hdecides
    exact ⟨Signatures.yieldsAll_append.2 ⟨hycondition, hybody⟩, hcbody.seq (.loop hdecides hcbody)⟩
  | counting l =>
    obtain ⟨start, bound, body, q⟩ := l
    rw [Statement.segment] at h ⊢
    rw [Statement.expressions] at hpost ⊢
    obtain ⟨hfirst, hbody⟩ := List.forall_mem_append.1 hpost
    obtain ⟨hbound, hstart⟩ := List.forall_mem_cons.1 hfirst
    obtain ⟨hyheader, hybody, hclean⟩ := CountingLoop.yieldsAll_of_segment
      (l := ⟨start, bound, body, q⟩) hp hstart hbound (ends_segmentOf s body)
      (yieldsAll_of_segmentOf hp body hbody) h
    exact ⟨yieldsAll_callsWithin_append.2 ⟨hyheader, hybody⟩, hclean⟩

theorem yieldsAll_of_segmentOf (hp : p.Serves s) (ss : List Statement)
    (hpost : AllPostorder (expressionsOf ss)) (h : (segmentOf s ss).Runs p m) :
    s.YieldsAll (callsWithin (expressionsOf ss)) ∧ (segmentOf s ss).Clean p m := by
  cases ss with
  | nil =>
    rw [segmentOf] at h ⊢
    exact ⟨nofun, .skip⟩
  | cons st sts =>
    rw [segmentOf] at h ⊢
    rw [expressionsOf] at hpost ⊢
    obtain ⟨hfirst, hrest⟩ := List.forall_mem_append.1 hpost
    obtain ⟨hy, hc⟩ := yieldsAll_of_segment hp st hfirst h.seq_left
    obtain ⟨hys, hcs⟩ := yieldsAll_of_segmentOf hp sts hrest
      (h.seq_right hc (ends_segment s st))
    exact ⟨yieldsAll_callsWithin_append.2 ⟨hy, hys⟩, hc.seq hcs⟩

end

end Forced

end Seudocodigo
