import Seudocodigo.Proofs.References

/-! Modules by themselves. Of the other modules of a program nothing counts for the errors and the
graph of a module but the signatures of those that it calls. -/
namespace Seudocodigo

mutual

/-- The names of the modules that a statement calls, itself or in an expression at any depth. -/
def Statement.callees : Statement → List String
  | .declaration .. => []
  | .assignment a => callsWithin a.expressions
  | .conditional condition thenBranch elseBranch _ =>
    condition.operandCalls ++ calleesOf thenBranch ++ calleesOf elseBranch
  | .whileLoop condition body _ | .untilLoop body condition _ =>
    condition.operandCalls ++ calleesOf body
  | .counting ⟨start, bound, body, _⟩ =>
    callsWithin start.expressions ++ bound.operandCalls ++ calleesOf body
  | .call ⟨name, args, _⟩ => callsWithin args ++ [name]
  | .result value _ => value.operandCalls

def calleesOf : List Statement → List String
  | [] => []
  | st :: sts => st.callees ++ calleesOf sts

end

def Module.callees (m : Module) : List String := calleesOf m.body

namespace Signatures

/-- Each of the names has the same signature in both, or none in either. -/
def Agree (names : List String) (s t : Signatures) : Prop :=
  ∀ name ∈ names, s.find? name = t.find? name

variable {s t : Signatures} {names others : List String}

theorem agree_append :
    Agree (names ++ others) s t ↔ Agree names s t ∧ Agree others s t := List.forall_mem_append

theorem agree_singleton {name : String} : Agree [name] s t ↔ s.find? name = t.find? name :=
  List.forall_mem_singleton

theorem agree_callsWithin {e : Expression} {es : List Expression} :
    Agree (callsWithin (e :: es)) s t ↔ Agree e.operandCalls s t ∧ Agree (callsWithin es) s t := by
  rw [callsWithin, agree_append]

theorem agree_assignment {a : Assignment} :
    Agree (callsWithin a.expressions) s t ↔
      Agree a.value.operandCalls s t ∧ Agree (callsWithin a.target.indices) s t :=
  agree_callsWithin

theorem Agree.byReference {name : String} (h : s.find? name = t.find? name) (i : Nat) :
    s.byReference name i = t.byReference name i := by
  rw [Signatures.byReference, Signatures.byReference, h]

theorem Agree.yields {name : String} (h : s.find? name = t.find? name) :
    s.yields name = t.yields name := by
  rw [Signatures.yields, Signatures.yields, h]

end Signatures

open Signatures

/-! The type of an expression. -/

section Typing

variable {Γ : Context} {t : Signatures}

def Context.withSignatures (Γ : Context) (t : Signatures) : Context := { Γ with signatures := t }

theorem Context.callType_congr {name : String} (h : Γ.signatures.find? name = t.find? name) :
    (Γ.withSignatures t).callType name = Γ.callType name := by
  rw [callType, callType, h]
  rfl

mutual

theorem Expression.type_congr (e : Expression) (h : Agree e.operandCalls Γ.signatures t) :
    e.type (Γ.withSignatures t) = e.type Γ := by
  obtain ⟨es, p⟩ := e
  rw [Expression.operandCalls] at h
  rw [Expression.type, Expression.type, typeElements_congr p es [] h]

theorem typeElements_congr (p : Location) (es : List Element) (stack : List Ty)
    (h : Agree (callsAmong es) Γ.signatures t) :
    typeElements (Γ.withSignatures t) p es stack = typeElements Γ p es stack := by
  cases es with
  | nil => rw [typeElements, typeElements]
  | cons e es =>
    rw [callsAmong] at h
    obtain ⟨he, hes⟩ := agree_append.1 h
    rw [typeElements, typeElements, Element.typeOnto_congr p e stack he]
    exact bind_congr fun stack => typeElements_congr p es stack hes

theorem Element.typeOnto_congr (p : Location) (e : Element) (stack : List Ty)
    (h : Agree e.operandCalls Γ.signatures t) :
    e.typeOnto (Γ.withSignatures t) p stack = e.typeOnto Γ p stack := by
  cases e with
  | literal | operator => rw [Element.typeOnto, Element.typeOnto]
  | access a =>
    obtain ⟨name, indices⟩ := a
    rw [Element.operandCalls] at h
    rw [Element.typeOnto, Element.typeOnto, Access.type_congr p ⟨name, indices⟩ h]
  | call c =>
    obtain ⟨name, args, q⟩ := c
    rw [Element.operandCalls] at h
    rw [Element.typeOnto, Element.typeOnto, Call.check_congr ⟨name, args, q⟩ h,
      Context.callType_congr (agree_singleton.1 (agree_append.1 h).2)]

theorem Access.type_congr (p : Location) (a : Access)
    (h : Agree (callsWithin a.indices) Γ.signatures t) :
    a.type (Γ.withSignatures t) p = a.type Γ p := by
  obtain ⟨name, indices⟩ := a
  rw [Access.type, Access.type, checkIndices_congr name indices h]
  rfl

theorem checkIndices_congr (name : String) (es : List Expression)
    (h : Agree (callsWithin es) Γ.signatures t) :
    checkIndices (Γ.withSignatures t) name es = checkIndices Γ name es := by
  cases es with
  | nil => rw [checkIndices, checkIndices]
  | cons e es =>
    obtain ⟨he, hes⟩ := agree_callsWithin.1 h
    rw [checkIndices, checkIndices, Expression.type_congr e he, checkIndices_congr name es hes]

theorem Call.check_congr (c : Call)
    (h : Agree (callsWithin c.args ++ [c.name]) Γ.signatures t) :
    c.check (Γ.withSignatures t) = c.check Γ := by
  obtain ⟨name, args, q⟩ := c
  obtain ⟨hargs, hname⟩ := agree_append.1 h
  have hfind : (Γ.withSignatures t).signatures.find? name = Γ.signatures.find? name :=
    (agree_singleton.1 hname).symm
  rw [Call.check, Call.check, hfind, checkBuiltinArguments_congr name 1 args hargs]
  split
  · rfl
  · split
    · rfl
    · rw [checkArguments_congr name 1 args _ hargs]

theorem checkArguments_congr (name : String) (i : Nat) (es : List Expression) (vs : List Variable)
    (h : Agree (callsWithin es) Γ.signatures t) :
    checkArguments (Γ.withSignatures t) name i es vs = checkArguments Γ name i es vs := by
  cases es with
  | nil => rw [checkArguments, checkArguments] <;> nofun
  | cons e es =>
    cases vs with
    | nil => rw [checkArguments, checkArguments] <;> nofun
    | cons v vs =>
      obtain ⟨he, hes⟩ := agree_callsWithin.1 h
      rw [checkArguments, checkArguments, Expression.type_congr e he,
        checkArguments_congr name (i + 1) es vs hes]

theorem checkBuiltinArguments_congr (name : String) (i : Nat) (es : List Expression)
    (h : Agree (callsWithin es) Γ.signatures t) :
    checkBuiltinArguments (Γ.withSignatures t) name i es = checkBuiltinArguments Γ name i es := by
  cases es with
  | nil => rw [checkBuiltinArguments, checkBuiltinArguments]
  | cons e es =>
    obtain ⟨he, hes⟩ := agree_callsWithin.1 h
    rw [checkBuiltinArguments, checkBuiltinArguments, Expression.type_congr e he,
      checkBuiltinArguments_congr name (i + 1) es hes]

end

end Typing

/-! The actions of an expression. -/

section Code

variable {s t : Signatures}

/-- What is passed for an argument depends on the signature of the module, and on what the argument
itself comes to. -/
theorem Signatures.argumentOf_congr {name : String} (hname : s.find? name = t.find? name) (i : Nat)
    {e : Expression} (he : e.code s = e.code t) :
    s.argumentOf name i e = t.argumentOf name i e := by
  rw [argumentOf, argumentOf, Agree.byReference hname i]
  split
  · next a _ ha _ =>
    rw [Expression.code_eq, Expression.code_eq, Expression.access?_eq_some.1 ha, codeOf_access,
      codeOf_access] at he
    rw [List.append_cancel_right he]
  · exact he

mutual

theorem Expression.code_congr (e : Expression) (h : Agree e.operandCalls s t) :
    e.code s = e.code t := by
  obtain ⟨es, p⟩ := e
  rw [Expression.operandCalls] at h
  rw [Expression.code, Expression.code, codeOf_congr es h]

theorem codeOf_congr (es : List Element) (h : Agree (callsAmong es) s t) :
    codeOf s es = codeOf t es := by
  cases es with
  | nil => rw [codeOf, codeOf]
  | cons e es =>
    rw [callsAmong] at h
    obtain ⟨he, hes⟩ := agree_append.1 h
    rw [codeOf, codeOf, Element.code_congr e he, codeOf_congr es hes]

theorem Element.code_congr (e : Element) (h : Agree e.operandCalls s t) : e.code s = e.code t := by
  cases e with
  | literal | operator => rw [Element.code, Element.code]
  | access a =>
    obtain ⟨name, indices⟩ := a
    rw [Element.operandCalls] at h
    cases indices with
    | nil => rw [Element.code, Element.code]
    | cons i is =>
      obtain ⟨hi, his⟩ := agree_callsWithin.1 h
      rw [Element.code, Element.code, Expression.code_congr i hi, indexCode_congr is his]
  | call c =>
    obtain ⟨name, args, q⟩ := c
    rw [Element.operandCalls] at h
    rw [Element.code, Element.code, Call.code_congr ⟨name, args, q⟩ h]

theorem indexCode_congr (es : List Expression) (h : Agree (callsWithin es) s t) :
    indexCode s es = indexCode t es := by
  cases es with
  | nil => rw [indexCode, indexCode]
  | cons e es =>
    obtain ⟨he, hes⟩ := agree_callsWithin.1 h
    rw [indexCode, indexCode, Expression.code_congr e he, indexCode_congr es hes]

theorem Call.code_congr (c : Call) (h : Agree (callsWithin c.args ++ [c.name]) s t) :
    c.code s = c.code t := by
  obtain ⟨name, args, q⟩ := c
  obtain ⟨hargs, hname⟩ := agree_append.1 h
  rw [Call.code, Call.code, argumentCode_congr name 0 args hargs (agree_singleton.1 hname)]

theorem argumentCode_congr (name : String) (i : Nat) (args : List Expression)
    (h : Agree (callsWithin args) s t) (hname : s.find? name = t.find? name) :
    argumentCode s name i args = argumentCode t name i args := by
  cases args with
  | nil => rw [argumentCode, argumentCode]
  | cons e args =>
    obtain ⟨he, hargs⟩ := agree_callsWithin.1 h
    rw [argumentCode_cons, argumentCode_cons,
      Signatures.argumentOf_congr hname i (Expression.code_congr e he),
      argumentCode_congr name (i + 1) args hargs hname]

end

theorem Assignment.code_congr {a : Assignment} (h : Agree (callsWithin a.expressions) s t) :
    a.code s = a.code t := by
  obtain ⟨hvalue, htarget⟩ := agree_assignment.1 h
  rw [Assignment.code, Assignment.code, Expression.code_congr _ hvalue, indexCode_congr _ htarget]

/-- The condition and the step of a counting loop call what its header calls. -/
theorem CountingLoop.code_congr {l : CountingLoop}
    (htarget : Agree (callsWithin l.start.target.indices) s t)
    (hbound : Agree l.bound.operandCalls s t) :
    l.condition.code s = l.condition.code t ∧ l.increment.code s = l.increment.code t := by
  constructor
  · refine Expression.code_congr _ ?_
    rw [Expression.operandCalls_eq, callsAmong_condition, ← Expression.operandCalls_eq]
    exact agree_append.2 ⟨htarget, hbound⟩
  · refine Assignment.code_congr (agree_assignment.2 ⟨?_, htarget⟩)
    rw [Expression.operandCalls_eq, callsAmong_increment]
    exact htarget

theorem Call.statementCode_congr {c : Call} (h : Agree (callsWithin c.args ++ [c.name]) s t) :
    c.statementCode s = c.statementCode t := by
  obtain ⟨-, hname⟩ := agree_append.1 h
  rw [Call.statementCode, Call.statementCode, Call.code_congr c h,
    Agree.yields (agree_singleton.1 hname)]

end Code

/-! The errors and the graph of statements. -/

section Statements

variable {Γ : Context} {s t : Signatures}

theorem Assignment.check_congr {a : Assignment}
    (h : Agree (callsWithin a.expressions) Γ.signatures t) :
    a.check (Γ.withSignatures t) = a.check Γ := by
  obtain ⟨hvalue, htarget⟩ := agree_assignment.1 h
  rw [Assignment.check, Assignment.check, Access.type_congr _ _ htarget,
    Expression.type_congr _ hvalue]

theorem Expression.checkCondition_congr {e : Expression}
    (h : Agree e.operandCalls Γ.signatures t) :
    e.checkCondition (Γ.withSignatures t) = e.checkCondition Γ := by
  rw [checkCondition, checkCondition, Expression.type_congr _ h]

mutual

theorem Statement.errors_congr (st : Statement) (h : Agree st.callees Γ.signatures t) :
    st.errors (Γ.withSignatures t) = st.errors Γ := by
  cases st with
  | declaration => rw [Statement.errors, Statement.errors]
  | assignment a =>
    rw [Statement.callees] at h
    rw [Statement.errors, Statement.errors, Assignment.check_congr h]
  | conditional condition thenBranch elseBranch _ =>
    rw [Statement.callees] at h
    obtain ⟨hfirst, helse⟩ := agree_append.1 h
    obtain ⟨hcondition, hthen⟩ := agree_append.1 hfirst
    rw [Statement.errors, Statement.errors, Expression.checkCondition_congr hcondition,
      errorsOf_congr thenBranch hthen, errorsOf_congr elseBranch helse]
  | whileLoop condition body _ | untilLoop body condition _ =>
    rw [Statement.callees] at h
    obtain ⟨hcondition, hbody⟩ := agree_append.1 h
    rw [Statement.errors, Statement.errors, Expression.checkCondition_congr hcondition,
      errorsOf_congr body hbody]
  | counting l =>
    obtain ⟨start, bound, body, p⟩ := l
    rw [Statement.callees] at h
    obtain ⟨hheader, hbody⟩ := agree_append.1 h
    obtain ⟨hstart, hbound⟩ := agree_append.1 hheader
    obtain ⟨hvalue, htarget⟩ := agree_assignment.1 hstart
    rw [Statement.errors, Statement.errors, Access.type_congr _ _ htarget,
      Expression.type_congr _ hvalue, Expression.type_congr _ hbound, errorsOf_congr body hbody]
  | call c =>
    obtain ⟨name, args, q⟩ := c
    rw [Statement.callees] at h
    rw [Statement.errors, Statement.errors, Call.check_congr _ h]
  | result value p =>
    rw [Statement.callees] at h
    rw [Statement.errors, Statement.errors, checkResult, checkResult, Expression.type_congr _ h]
    rfl

theorem errorsOf_congr (ss : List Statement) (h : Agree (calleesOf ss) Γ.signatures t) :
    errorsOf (Γ.withSignatures t) ss = errorsOf Γ ss := by
  cases ss with
  | nil => rw [errorsOf, errorsOf]
  | cons st sts =>
    rw [calleesOf] at h
    obtain ⟨hst, hsts⟩ := agree_append.1 h
    rw [errorsOf, errorsOf, Statement.errors_congr st hst, errorsOf_congr sts hsts]

end

mutual

theorem Statement.flow_congr (st : Statement) (h : Agree st.callees s t) :
    (st.flow s : Build Chain) = st.flow t := by
  cases st with
  | declaration => rw [Statement.flow, Statement.flow]
  | assignment a =>
    rw [Statement.callees] at h
    rw [Statement.flow, Statement.flow, Assignment.code_congr h]
  | conditional condition thenBranch elseBranch _ =>
    rw [Statement.callees] at h
    obtain ⟨hfirst, helse⟩ := agree_append.1 h
    obtain ⟨hcondition, hthen⟩ := agree_append.1 hfirst
    rw [Statement.flow, Statement.flow, Expression.code_congr _ hcondition,
      flowOf_congr thenBranch hthen, flowOf_congr elseBranch helse]
  | whileLoop condition body _ | untilLoop body condition _ =>
    rw [Statement.callees] at h
    obtain ⟨hcondition, hbody⟩ := agree_append.1 h
    rw [Statement.flow, Statement.flow, Expression.code_congr _ hcondition,
      flowOf_congr body hbody]
  | counting l =>
    obtain ⟨start, bound, body, p⟩ := l
    rw [Statement.callees] at h
    obtain ⟨hheader, hbody⟩ := agree_append.1 h
    obtain ⟨hstart, hbound⟩ := agree_append.1 hheader
    obtain ⟨-, htarget⟩ := agree_assignment.1 hstart
    obtain ⟨hcondition, hstep⟩ :=
      CountingLoop.code_congr (l := ⟨start, bound, body, p⟩) htarget hbound
    rw [Statement.flow, Statement.flow, Assignment.code_congr hstart, flowOf_congr body hbody,
      hcondition, hstep]
  | call c =>
    obtain ⟨name, args, q⟩ := c
    rw [Statement.callees] at h
    rw [Statement.flow, Statement.flow, Call.statementCode_congr h]
  | result value p =>
    rw [Statement.callees] at h
    rw [Statement.flow, Statement.flow, Expression.code_congr _ h]

theorem flowOf_congr (ss : List Statement) (h : Agree (calleesOf ss) s t) :
    (flowOf s ss : Build Chain) = flowOf t ss := by
  cases ss with
  | nil => rw [flowOf, flowOf]
  | cons st sts =>
    rw [calleesOf] at h
    obtain ⟨hst, hsts⟩ := agree_append.1 h
    rw [flowOf, flowOf, Statement.flow_congr st hst, flowOf_congr sts hsts]

end

end Statements

/-! A module in two programs. -/

theorem calleesOf_filter (ss : List Statement) :
    calleesOf (ss.filter (!·.isDeclaration)) = calleesOf ss := by
  induction ss with
  | nil => rfl
  | cons st sts ih =>
    cases st with
    | declaration =>
      rw [calleesOf, Statement.callees, ← ih]
      rfl
    | _ => exact congrArg (_ ++ ·) ih

section Module

variable {m : Module} {s t : Signatures}

theorem Module.agree_hoisted (h : Agree m.callees s t) :
    Agree (calleesOf m.hoisted.module.body) s t := by
  rw [show m.hoisted.module.body = m.body.filter (!·.isDeclaration) from rfl, calleesOf_filter]
  exact h

theorem Module.report_congr (h : Agree m.callees s t) :
    m.hoisted.report s = m.hoisted.report t := by
  have herrors := errorsOf_congr (Γ := m.hoisted.context s) _ (Module.agree_hoisted h)
  rw [ScopedModule.report, ScopedModule.report, ScopedModule.errors, ScopedModule.errors,
    ← herrors]
  rfl

theorem Module.compile_congr (h : Agree m.callees s t) :
    m.hoisted.compile s = m.hoisted.compile t := by
  rw [ScopedModule.compile, ScopedModule.compile, flowOf_congr _ (Module.agree_hoisted h)]

/-- Of modules with distinct names, the reports under the name of one are its own. -/
theorem Module.filter_reports {ms : List Module} (hd : (ms.map (·.name)).Nodup) (hm : m ∈ ms) :
    (ms.flatMap (·.reports s)).filter (·.module = m.name) = m.reports s := by
  have hown (n : Module) : (n.reports s).filter (·.module = n.name) = n.reports s :=
    List.filter_eq_self.2 fun r hr => decide_eq_true (module_of_mem_reports hr)
  have hother {ns : List Module} (hns : ∀ n ∈ ns, n.name ≠ m.name) :
      (ns.flatMap (·.reports s)).filter (·.module = m.name) = [] := by
    refine List.filter_eq_nil_iff.2 fun r hr => ?_
    obtain ⟨n, hn, hr⟩ := List.mem_flatMap.1 hr
    rw [module_of_mem_reports hr, decide_eq_true_iff]
    exact hns n hn
  induction ms with
  | nil => cases hm
  | cons n ms ih =>
    obtain ⟨hnew, hd⟩ := List.nodup_cons.1 hd
    rw [List.flatMap_cons, List.filter_append]
    cases List.mem_cons.1 hm with
    | inl he =>
      subst he
      have hrest : ∀ k ∈ ms, k.name ≠ m.name := fun k hk hname =>
        hnew (List.mem_map.2 ⟨k, hk, hname⟩)
      rw [hown, hother hrest, List.append_nil]
    | inr hm =>
      have hne : n.name ≠ m.name := fun hname => hnew (List.mem_map.2 ⟨m, hm, hname.symm⟩)
      have hfirst := hother (List.forall_mem_singleton.2 hne)
      rw [List.flatMap_singleton] at hfirst
      rw [hfirst, List.nil_append, ih hd hm]

end Module

namespace Program

variable {p q : Program} {m : Module}

theorem Spelled.distinct {ts : List Token} (h : Spelled ts p) : (p.modules.map (·.name)).Nodup := by
  rw [modules, List.map_cons, List.nodup_cons]
  refine ⟨fun hmem => ?_, h.free.distinct⟩
  obtain ⟨n, hn, hname⟩ := List.mem_map.1 hmem
  exact h.free.ne_mainName hn (hname.trans h.main.2)

/-- What is reported under the name of a module is what it has itself to report. -/
theorem Spelled.filter_reports {ts : List Token} (h : Spelled ts p) (hm : m ∈ p.modules) :
    p.reports.filter (·.module = m.name) = m.reports p.signatures := by
  rw [p.reports_eq, ← Module.filter_reports h.distinct hm]
  rfl

/-- A module that two programs have in common is checked and compiled in both alike if each name
that it calls has the same signature in both, or none in either. Nothing else of the other modules
counts. -/
theorem separate_ofTokens {ts us : List Token} (hp : ofTokens ts = .ok p)
    (hq : ofTokens us = .ok q) (hmp : m ∈ p.modules) (hmq : m ∈ q.modules)
    (h : Agree m.callees p.signatures q.signatures) :
    m.hoisted.report p.signatures = m.hoisted.report q.signatures ∧
      p.reports.filter (·.module = m.name) = q.reports.filter (·.module = m.name) ∧
      ∃ lowered, p.flow.find? m.name = some lowered ∧ q.flow.find? m.name = some lowered := by
  have hsp := spelled_of_ofTokens hp
  have hsq := spelled_of_ofTokens hq
  have hreport := Module.report_congr h
  refine ⟨hreport, ?_, m.hoisted.compile p.signatures, find?_flow hsp.main.2 hsp.free hmp, ?_⟩
  · rw [hsp.filter_reports hmp, hsq.filter_reports hmq, Module.reports, Module.reports, hreport]
  · rw [Module.compile_congr h]
    exact find?_flow hsq.main.2 hsq.free hmq

def callingWith (others : List Token) (line : Nat) : List Token :=
  callingMain ++ [⟨.endOfLine, "\n", ⟨4, 4⟩⟩] ++ others ++ idleProcedure "p" line ++
    [⟨.endOfFile, "", ⟨11, 1⟩⟩]

/-- A procedure that is not called may come in between. -/
theorem separate_between :
    let between := idleProcedure "q" 5 ++ [⟨.endOfLine, "\n", ⟨7, 16⟩⟩]
    ∃ p q lowered, ofTokens (callingWith [] 5) = .ok p ∧ ofTokens (callingWith between 8) = .ok q ∧
      p.main.callees = ["p"] ∧ p.flow.find? p.main.name = some lowered ∧
        q.flow.find? p.main.name = some lowered := by
  intro between
  have haccepted : ∃ p q, ofTokens (callingWith [] 5) = .ok p ∧
      ofTokens (callingWith between 8) = .ok q ∧ q.main = p.main ∧ p.main.callees = ["p"] ∧
      (p.subprograms.map fun m => (m.name, m.signature)) = [("p", ⟨"p", [], none⟩)] ∧
      (q.subprograms.map fun m => (m.name, m.signature)) =
        [("q", ⟨"q", [], none⟩), ("p", ⟨"p", [], none⟩)] :=
    ⟨_, _, rfl, rfl, rfl, rfl, rfl, rfl⟩
  obtain ⟨p, q, hp, hq, hmain, hcallees, hps, hqs⟩ := haccepted
  have hagree : Agree p.main.callees p.signatures q.signatures := by
    rw [hcallees, agree_singleton, signatures, signatures, hps, hqs]
    decide
  obtain ⟨-, -, lowered, hlowered, hsame⟩ := separate_ofTokens hp hq List.mem_cons_self
    (hmain ▸ List.mem_cons_self) hagree
  exact ⟨p, q, lowered, hp, hq, hcallees, hlowered, hsame⟩

end Program
end Seudocodigo
