import Seudocodigo.Proofs.Stack.Code

/-! Expressions that are well typed put a value of their type on the stack, provided that all calls
in them leave something. -/
namespace Seudocodigo

/-- The module has the variables and the result with which its statements are checked. -/
structure CompiledModule.Hosts (m : CompiledModule) (Γ : Context) : Prop where
  scope : ∀ name,
    (m.scope.find? name).map (·.toVariable) = (Γ.scope.find? name).map (·.toVariable)
  returns : m.kind.returns? = Γ.returns?

theorem exists_of_bind_eq_ok {ε α β : Type} {x : Except ε α} {f : α → Except ε β} {b : β}
    (h : x >>= f = .ok b) : ∃ a, x = .ok a ∧ f a = .ok b := by
  cases hx : x with
  | error e => rw [hx] at h; cases h
  | ok a => rw [hx] at h; exact ⟨a, rfl, h⟩

theorem typeElements_append (Γ : Context) (q : Location) (es fs : List Element) (ts : List Ty) :
    typeElements Γ q (es ++ fs) ts = typeElements Γ q es ts >>= typeElements Γ q fs := by
  induction es generalizing ts with
  | nil => rw [typeElements]; rfl
  | cons e es ih =>
    rw [List.cons_append, typeElements, typeElements, bind_assoc]
    exact congrArg _ (funext ih)

def Puts (p : CompiledProgram) (m : CompiledModule) (as : List Action) (t : Ty) : Prop :=
  ∀ stack, m.run? p as stack = some (.value t :: stack)

def LeavesTyped (p : CompiledProgram) (m : CompiledModule) (Γ : Context) (es : List Element) :
    Prop :=
  ∀ {q ts us}, typeElements Γ q es ts = .ok us →
    ∃ t, us = t :: ts ∧ Puts p m (codeOf Γ.signatures es) t

section Typed

variable {Γ : Context} {p : CompiledProgram} {m : CompiledModule} {name : String}

theorem LeavesTyped.expression {e : Expression} {t : Ty} (h : LeavesTyped p m Γ e.elements)
    (ht : e.type Γ = .ok t) : Puts p m (codeOf Γ.signatures e.elements) t := by
  obtain ⟨es, q⟩ := e
  rw [Expression.type] at ht
  obtain ⟨us, hus, ht⟩ := exists_of_bind_eq_ok ht
  obtain ⟨u, rfl, hputs⟩ := h hus
  cases ht
  exact hputs

theorem run?_indexCode {indices : List Expression}
    (h : ∀ e ∈ indices, LeavesTyped p m Γ e.elements) {u : Unit}
    (hc : checkIndices Γ name indices = .ok u) (stack : List Operand) :
    m.run? p (indexCode Γ.signatures indices) stack =
      some (.replicate indices.length (.value .integer) ++ stack) := by
  induction indices generalizing stack with
  | nil => rw [indexCode]; rfl
  | cons e es ih =>
    obtain ⟨he, hes⟩ := List.forall_mem_cons.1 h
    rw [checkIndices] at hc
    obtain ⟨t, ht, hc⟩ := exists_of_bind_eq_ok hc
    split at hc
    · next hint =>
      rw [hint] at ht
      have hputs := he.expression ht stack
      rw [indexCode, CompiledModule.run?_append, Expression.code_eq, hputs, Option.bind_some,
        ih hes hc, List.length_cons, List.replicate_succ', List.append_assoc]
      rfl
    · cases hc

theorem CompiledModule.Hosts.selected? (hm : m.Hosts Γ) {a : Access} {q : Location} {t : Ty}
    (h : a.type Γ q = .ok t) :
    m.selected? a.name a.indices.length = some t ∧
      ∃ u, checkIndices Γ a.name a.indices = .ok u := by
  obtain ⟨name, indices⟩ := a
  rw [Access.type] at h
  split at h
  · cases h
  · next v hv =>
    split at h
    · cases h
    · next hle =>
      obtain ⟨u, hu, h⟩ := exists_of_bind_eq_ok h
      cases h
      refine ⟨?_, u, hu⟩
      have hvar := hm.scope name
      rw [hv, Option.map_some] at hvar
      obtain ⟨w, hw, hvw⟩ := Option.map_eq_some_iff.1 hvar
      rw [CompiledModule.selected?, hw, Option.bind_eq_bind, Option.bind_some, hvw,
        if_pos (Nat.not_lt.1 hle)]

theorem puts_access (hm : m.Hosts Γ) {a : Access} {q : Location} {t : Ty}
    (h : ∀ e ∈ a.indices, LeavesTyped p m Γ e.elements) (ht : a.type Γ q = .ok t) :
    Puts p m (codeOf Γ.signatures [.access a]) t := by
  intro stack
  obtain ⟨hselected, u, hc⟩ := hm.selected? ht
  rw [codeOf_access, CompiledModule.run?_append, run?_indexCode h hc, Option.bind_some,
    CompiledModule.run?_singleton]
  obtain ⟨name, indices⟩ := a
  cases indices with
  | nil =>
    rw [List.length_nil] at hselected
    rw [Access.fetch, CompiledModule.act?, hselected]
    rfl
  | cons i is =>
    rw [Access.fetch, CompiledModule.act?, Operand.takeIndices?_append, Option.bind_eq_bind,
      Option.bind_some, hselected, Option.map_some]

/-- Where a variable can be read, there can be a reference to it. -/
theorem act?_reference {a : Access} {t : Ty} {stack rest : List Operand}
    (h : m.act? p a.fetch stack = some (.value t :: rest)) :
    m.act? p (.reference a.name a.indices.length) stack = some (.reference t :: rest) := by
  obtain ⟨name, indices⟩ := a
  cases indices with
  | nil =>
    obtain ⟨u, hu, h⟩ := Option.map_eq_some_iff.1 h
    cases h
    rw [CompiledModule.act?, List.length_nil, hu]
    rfl
  | cons i is =>
    obtain ⟨below, hbelow, h⟩ := Option.bind_eq_some_iff.1 h
    obtain ⟨u, hu, h⟩ := Option.map_eq_some_iff.1 h
    cases h
    rw [CompiledModule.act?, hbelow, Option.bind_eq_bind, Option.bind_some, hu, Option.map_some]

def Signatures.operandOf (s : Signatures) (module : String) (i : Nat) (t : Ty) : Operand :=
  if s.byReference module i then .reference t else .value t

theorem run?_argumentOf {e : Expression} {t : Ty} {i : Nat}
    (h : Puts p m (codeOf Γ.signatures e.elements) t)
    (href : Γ.signatures.byReference name i = true → e.access?.isSome) (stack : List Operand) :
    m.run? p (Γ.signatures.argumentOf name i e) stack =
      some (Γ.signatures.operandOf name i t :: stack) := by
  rw [Signatures.argumentOf, Signatures.operandOf]
  cases hb : Γ.signatures.byReference name i with
  | false =>
    rw [Expression.code_eq]
    cases e.access? <;> exact h stack
  | true =>
    obtain ⟨a, ha⟩ := Option.isSome_iff_exists.1 (href hb)
    have hread := h stack
    rw [Expression.access?_eq_some.1 ha, codeOf_access, CompiledModule.run?_append] at hread
    obtain ⟨between, hindices, hfetch⟩ := Option.bind_eq_some_iff.1 hread
    rw [CompiledModule.run?_singleton] at hfetch
    rw [ha]
    dsimp only
    rw [CompiledModule.run?_append, hindices, Option.bind_some, CompiledModule.run?_singleton,
      act?_reference hfetch]
    rfl

theorem run?_argumentCode {args : List Expression} {vs : List Variable} {i k : Nat} {u : Unit}
    (h : ∀ e ∈ args, LeavesTyped p m Γ e.elements) (hlen : args.length = vs.length)
    (href : ∀ j, Γ.signatures.byReference name (k + j) = (vs[j]?.map (·.byReference)).getD false)
    (hc : checkArguments Γ name i args vs = .ok u) (stack : List Operand) :
    m.run? p (argumentCode Γ.signatures name k args) stack =
      some ((vs.map Variable.operand).reverse ++ stack) := by
  induction args generalizing vs i k stack with
  | nil =>
    cases vs with
    | nil => rw [argumentCode]; rfl
    | cons => cases hlen
  | cons e es ih =>
    cases vs with
    | nil => cases hlen
    | cons v vs =>
      obtain ⟨he, hes⟩ := List.forall_mem_cons.1 h
      rw [checkArguments] at hc
      obtain ⟨t, ht, hc⟩ := exists_of_bind_eq_ok hc
      split at hc
      · cases hc
      · next htype =>
        split at hc
        · cases hc
        · next hvar =>
          have hfirst := href 0
          simp only [Nat.add_zero, List.getElem?_cons_zero, Option.map_some, Option.getD_some]
            at hfirst
          have hrest (j : Nat) : Γ.signatures.byReference name (k + 1 + j) =
              (vs[j]?.map (·.byReference)).getD false := by
            have hj := href (j + 1)
            rwa [List.getElem?_cons_succ, ← Nat.add_assoc, Nat.add_right_comm] at hj
          have hputs := he.expression ht
          have hoperand : Γ.signatures.operandOf name k t = v.operand := by
            rw [Signatures.operandOf, Variable.operand, hfirst, Decidable.not_not.1 htype]
          have hlen' : es.length = vs.length := Nat.succ.inj hlen
          rw [argumentCode_cons, CompiledModule.run?_append, run?_argumentOf hputs,
            Option.bind_some, hoperand, ih hes hlen' hrest hc, List.map_cons, List.reverse_cons,
            List.append_assoc]
          · rfl
          · intro hb
            rw [hfirst] at hb
            rw [hb, Bool.true_and] at hvar
            exact Option.isSome_iff_ne_none.2 (by simpa using hvar)

theorem run?_builtinArguments {args : List Expression} {i k : Nat} {u : Unit}
    (h : ∀ e ∈ args, LeavesTyped p m Γ e.elements) (hname : Module.isBuiltin name = true)
    (hc : checkBuiltinArguments Γ name i args = .ok u) :
    ∃ operands : List Operand, operands.length = args.length ∧ ∀ stack,
      m.run? p (argumentCode Γ.signatures name k args) stack = some (operands ++ stack) := by
  induction args generalizing i k with
  | nil => exact ⟨[], rfl, fun stack => by rw [argumentCode]; rfl⟩
  | cons e es ih =>
    obtain ⟨he, hes⟩ := List.forall_mem_cons.1 h
    rw [checkBuiltinArguments] at hc
    obtain ⟨t, ht, hc⟩ := exists_of_bind_eq_ok hc
    split at hc
    · cases hc
    · split at hc
      · cases hc
      · next hvar =>
        obtain ⟨operands, hlen, hrun⟩ := ih (k := k + 1) hes hc
        have hputs := he.expression ht
        have href (hb : Γ.signatures.byReference name k = true) : e.access?.isSome := by
          rw [Signatures.byReference, if_pos hname] at hb
          rw [hb, Bool.true_and] at hvar
          exact Option.isSome_iff_ne_none.2 (by simpa using hvar)
        refine ⟨operands ++ [Γ.signatures.operandOf name k t], by simp [hlen], fun stack => ?_⟩
        rw [argumentCode_cons, CompiledModule.run?_append, run?_argumentOf hputs href,
          Option.bind_some, hrun, List.append_assoc]
        rfl

/-- A call puts what the module returns in the place of its arguments. -/
theorem run?_call (hp : p.Serves Γ.signatures) {c : Call} {u : Unit}
    (h : ∀ e ∈ c.args, LeavesTyped p m Γ e.elements) (hc : c.check Γ = .ok u)
    (stack : List Operand) :
    m.run? p (c.code Γ.signatures) stack =
      some (if Γ.signatures.yields c.name then .value (Γ.callType c.name) :: stack else stack) := by
  obtain ⟨name, args, q⟩ := c
  rw [Call.check] at hc
  rw [Call.code, CompiledModule.run?_append, Signatures.yields, Context.callType]
  split at hc
  · next hname =>
    obtain ⟨operands, hlen, hrun⟩ := run?_builtinArguments h hname hc
    have hargs : args.length ≤ (operands ++ stack).length := by
      rw [List.length_append, hlen]
      exact Nat.le_add_right _ _
    rw [hrun, Option.bind_some, CompiledModule.run?_singleton, CompiledModule.act?, if_pos hname,
      if_pos hargs, ← hlen, List.drop_left, hname]
    rfl
  · next hname =>
    split at hc
    · cases hc
    · next sig hsig =>
      split at hc
      · next hlen =>
        obtain ⟨callee, hcallee, hparams⟩ := hp.found hsig
        have href (j : Nat) : Γ.signatures.byReference name (0 + j) =
            (sig.parameters[j]?.map (·.byReference)).getD false := by
          rw [Signatures.byReference, if_neg hname, hsig, Option.bind_some, Nat.zero_add]
        have hreturns := hp.returns hcallee
        rw [run?_argumentCode h hlen href hc, Option.bind_some, CompiledModule.run?_singleton]
        cases hr : sig.returns? <;>
          simp [CompiledModule.act?, hname, hcallee, hparams, Operand.take?_append, hlen, hreturns,
            hsig, hr]
      · cases hc

theorem typeElements_unary {op : Operator} {q : Location} {t : Ty} {ts us : List Ty}
    (hop : op.leadsOperand = true) (h : typeElements Γ q [.operator op] (t :: ts) = .ok us) :
    ∃ r, op.unaryType? t = some r ∧ us = r :: ts := by
  rw [typeElements, Element.typeOnto] at h
  obtain ⟨vs, hvs, h⟩ := exists_of_bind_eq_ok h
  rw [Operator.typeOnto, if_pos hop] at hvs
  split at hvs
  · next r hr =>
    cases hvs
    cases h
    exact ⟨r, hr, rfl⟩
  · cases hvs

theorem typeElements_binary {op : Operator} {q : Location} {l r : Ty} {ts us : List Ty}
    (hop : op.leadsOperand = false) (h : typeElements Γ q [.operator op] (r :: l :: ts) = .ok us) :
    ∃ t, op.binaryType? l r = some t ∧ us = t :: ts := by
  rw [typeElements, Element.typeOnto] at h
  obtain ⟨vs, hvs, h⟩ := exists_of_bind_eq_ok h
  rw [Operator.typeOnto, if_neg (by simp [hop])] at hvs
  simp only [List.tail_cons, List.headD_cons] at hvs
  split at hvs
  · next t ht =>
    cases hvs
    cases h
    exact ⟨t, ht, rfl⟩
  · cases hvs

theorem puts_unary {op : Operator} {es : List Element} {t r : Ty} (hop : op.leadsOperand = true)
    (h : Puts p m (codeOf Γ.signatures es) t) (hr : op.unaryType? t = some r) :
    Puts p m (codeOf Γ.signatures (es ++ [.operator op])) r := by
  intro stack
  rw [codeOf_append, codeOf_operator, CompiledModule.run?_append, h, Option.bind_some,
    CompiledModule.run?_singleton, CompiledModule.act?, Operator.act_unary hop, hr, Option.map_some]

theorem puts_binary {op : Operator} {ls rs : List Element} {l r t : Ty}
    (hop : op.leadsOperand = false) (hl : Puts p m (codeOf Γ.signatures ls) l)
    (hr : Puts p m (codeOf Γ.signatures rs) r) (ht : op.binaryType? l r = some t) :
    Puts p m (codeOf Γ.signatures (ls ++ rs ++ [.operator op])) t := by
  intro stack
  rw [codeOf_append, codeOf_append, codeOf_operator, CompiledModule.run?_append,
    CompiledModule.run?_append, hl, Option.bind_some, hr, Option.bind_some,
    CompiledModule.run?_singleton, CompiledModule.act?, Operator.act_binary hop, ht,
    Option.map_some]

theorem puts_literal (value : Value) :
    Puts p m (codeOf Γ.signatures [.literal value]) value.ty := by
  intro stack
  rw [codeOf, codeOf, Element.code]
  rfl

theorem leavesTyped_of_postorder (hp : p.Serves Γ.signatures) (hm : m.Hosts Γ) {es : List Element}
    (h : Postorder es) (hy : Γ.signatures.YieldsAll (callsAmong es)) : LeavesTyped p m Γ es := by
  induction h with
  | literal value =>
    intro q ts us ht
    rw [typeElements, Element.typeOnto] at ht
    cases ht
    exact ⟨value.ty, rfl, puts_literal value⟩
  | @access a _ ih =>
    intro q ts us ht
    rw [typeElements, Element.typeOnto] at ht
    obtain ⟨vs, hvs, ht⟩ := exists_of_bind_eq_ok ht
    obtain ⟨t, hts, hvs⟩ := exists_of_bind_eq_ok hvs
    cases hvs
    cases ht
    rw [callsAmong_access, Signatures.yieldsAll_callsWithin] at hy
    exact ⟨t, rfl, puts_access hm (fun e he => ih e he (hy e he)) hts⟩
  | @call c _ ih =>
    intro q ts us ht
    obtain ⟨name, args, q'⟩ := c
    rw [typeElements, Element.typeOnto] at ht
    obtain ⟨vs, hvs, ht⟩ := exists_of_bind_eq_ok ht
    obtain ⟨u, hu, hvs⟩ := exists_of_bind_eq_ok hvs
    cases hvs
    cases ht
    rw [callsAmong_call] at hy
    obtain ⟨hyargs, hyname⟩ := Signatures.yieldsAll_append.1 hy
    rw [Signatures.yieldsAll_callsWithin] at hyargs
    refine ⟨_, rfl, fun stack => ?_⟩
    have hrun := run?_call hp (fun e he => ih e he (hyargs e he)) hu stack
    rw [if_pos (hyname name (by simp))] at hrun
    rw [codeOf_call]
    exact hrun
  | @unary op es hop _ ih =>
    intro q ts us ht
    rw [callsAmong_append] at hy
    rw [typeElements_append] at ht
    obtain ⟨vs, hvs, ht⟩ := exists_of_bind_eq_ok ht
    obtain ⟨t, rfl, hputs⟩ := ih (Signatures.yieldsAll_append.1 hy).1 hvs
    obtain ⟨r, hr, rfl⟩ := typeElements_unary hop ht
    exact ⟨r, rfl, puts_unary hop hputs hr⟩
  | @binary op ls rs hop _ _ ihl ihr =>
    intro q ts us ht
    rw [callsAmong_append, callsAmong_append] at hy
    obtain ⟨hyl, hyr⟩ := Signatures.yieldsAll_append.1 (Signatures.yieldsAll_append.1 hy).1
    rw [typeElements_append, typeElements_append] at ht
    obtain ⟨vs, hvs, ht⟩ := exists_of_bind_eq_ok ht
    obtain ⟨ws, hws, hvs⟩ := exists_of_bind_eq_ok hvs
    obtain ⟨l, rfl, hleft⟩ := ihl hyl hws
    obtain ⟨r, rfl, hright⟩ := ihr hyr hvs
    obtain ⟨t, hresult, rfl⟩ := typeElements_binary hop ht
    exact ⟨t, rfl, puts_binary hop hleft hright hresult⟩

end Typed

end Seudocodigo
