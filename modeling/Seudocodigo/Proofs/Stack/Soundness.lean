import Seudocodigo.Proofs.Stack.Checked

/-! Compiled programs find the operands that they need along all paths, unless a call that leaves
nothing is an operand. -/
namespace Seudocodigo

theorem expressionsOf_filter (ss : List Statement) :
    expressionsOf (ss.filter (!·.isDeclaration)) = expressionsOf ss := by
  induction ss with
  | nil => rfl
  | cons s ss ih =>
    cases s with
    | declaration => exact ih
    | _ => exact congrArg (_ ++ ·) ih

theorem Scope.find?_allocate (s : Scope) (name : String) :
    s.allocate.find? name = (s.find? name).map Local.allocate := by
  have hname : (fun v : Local => decide (v.name = name)) ∘ Local.allocate =
      fun v => decide (v.name = name) :=
    funext fun v => by rw [Function.comp_apply, Local.toVariable_allocate]
  rw [Scope.find?, Scope.allocate, List.find?_map, Scope.find?, hname]

namespace NameMap

variable {α β : Type}

theorem find?_foldl_insert (es : List (String × α)) (f : α → β) {m : NameMap α} {n : NameMap β}
    (h : ∀ name, (m.find? name).map f = n.find? name) (name : String) :
    ((es.foldl (fun m e => m.insert e.1 e.2) m).find? name).map f =
      ((es.map fun e => (e.1, f e.2)).foldl (fun m e => m.insert e.1 e.2) n).find? name := by
  induction es generalizing m n with
  | nil => exact h name
  | cons e es ih =>
    refine ih fun name => ?_
    rw [find?_insert, find?_insert]
    split
    · rfl
    · exact h name

theorem find?_ofList_map (es : List (String × α)) (f : α → β) (name : String) :
    ((ofList es).find? name).map f = (ofList (es.map fun e => (e.1, f e.2))).find? name :=
  find?_foldl_insert es f (fun _ => rfl) name

theorem mem_of_find?_foldl {es : List (String × α)} {m : NameMap α} {name : String} {a : α}
    (h : (es.foldl (fun m e => m.insert e.1 e.2) m).find? name = some a) :
    (name, a) ∈ es ∨ m.find? name = some a := by
  induction es generalizing m with
  | nil => exact .inr h
  | cons e es ih =>
    obtain hmem | hfirst := ih h
    · exact .inl (List.mem_cons_of_mem _ hmem)
    · rw [find?_insert] at hfirst
      split at hfirst
      · next he =>
        cases hfirst
        exact .inl (by rw [← he]; exact List.mem_cons_self)
      · exact .inr hfirst

theorem mem_of_find?_ofList {es : List (String × α)} {name : String} {a : α}
    (h : (ofList es).find? name = some a) : (name, a) ∈ es := by
  obtain hmem | hempty := mem_of_find?_foldl h
  · exact hmem
  · cases hempty

theorem find?_foldl_of_notMem {es : List (String × α)} {name : String}
    (h : name ∉ es.map (·.1)) (m : NameMap α) :
    (es.foldl (fun m e => m.insert e.1 e.2) m).find? name = m.find? name := by
  induction es generalizing m with
  | nil => rfl
  | cons e es ih =>
    rw [List.map_cons, List.mem_cons, not_or] at h
    rw [List.foldl_cons, ih h.2, find?_insert, if_neg (Ne.symm h.1)]

/-- Of distinct names each has its own entry. -/
theorem find?_ofList_of_mem {es : List (String × α)} (hd : (es.map (·.1)).Nodup) {name : String}
    {a : α} (h : (name, a) ∈ es) : (ofList es).find? name = some a := by
  rw [ofList]
  generalize (empty : NameMap α) = m
  induction es generalizing m with
  | nil => cases h
  | cons e es ih =>
    rw [List.map_cons, List.nodup_cons] at hd
    rw [List.foldl_cons]
    cases List.mem_cons.1 h with
    | inl he =>
      rw [← he] at hd ⊢
      rw [find?_foldl_of_notMem hd.1, find?_insert, if_pos rfl]
    | inr hmem => exact ih hd.2 hmem _

end NameMap

theorem ScopedModule.hosts_compile (m : ScopedModule) (s : Signatures) :
    (m.compile s).Hosts (m.context s) where
  scope name := by
    show (m.scope.allocate.find? name).map _ = (m.scope.find? name).map _
    rw [Scope.find?_allocate, Option.map_map]
    exact congrArg (Option.map · _) (funext Local.toVariable_allocate)
  returns := rfl

/-- Where the statements have no type errors, the paths through their graph have all operands if and
only if the calls that are operands leave something. -/
theorem ScopedModule.stackSound_compile {p : CompiledProgram} {s : Signatures} (hp : p.Serves s)
    {m : ScopedModule} (hpost : AllPostorder (expressionsOf m.module.body))
    (he : errorsOf (m.context s) m.module.body = []) :
    (m.compile s).StackSound p ↔ s.YieldsAll (callsWithin (expressionsOf m.module.body)) := by
  constructor
  · intro h
    have hruns : (segmentOf s m.module.body).Runs p (m.compile s) := fun outcomes => by
      obtain ⟨to?, hpath⟩ := Build.exists_path_flowOf s m.module.body outcomes
      obtain ⟨stack, hexec, -⟩ := h _ to? hpath
      exact ⟨stack, hexec⟩
    exact (yieldsAll_of_segmentOf hp _ hpost hruns).1
  · intro hy records to? hpath
    have hclean := clean_segmentOf hp (m.hosts_compile s) _
      (fun e hmem => ⟨hpost e hmem, Signatures.yieldsAll_callsWithin.1 hy e hmem⟩) he
    obtain ⟨outcomes, hbegins, hend⟩ := Build.path_flowOf s m.module.body hpath
    obtain ⟨stack, hexec⟩ := Segment.execute?_beginning hbegins (hclean outcomes)
    refine ⟨stack, hexec, fun hto => ?_⟩
    rw [hend hto] at hexec
    exact Option.some.inj (hexec.symm.trans (hclean outcomes))

namespace Program

variable {p : Program}

/-- A subprogram is compiled with the parameters and the result of its signature. -/
theorem signatures_eq (p : Program) (name : String) :
    (p.flow.modules.find? name).map (fun m => ⟨m.name, m.parameters, m.kind.returns?⟩) =
      p.signatures.find? name := by
  rw [flow, signatures, NameMap.find?_ofList_map, List.map_map]
  rfl

theorem exists_of_find?_flow {name : String} {m : CompiledModule}
    (h : p.flow.modules.find? name = some m) :
    ∃ n ∈ p.subprograms, n.name = name ∧ m = n.hoisted.compile p.signatures := by
  obtain ⟨n, hn, he⟩ := List.mem_map.1 (NameMap.mem_of_find?_ofList h)
  cases he
  exact ⟨n, hn, rfl, rfl⟩

theorem find?_signatures (hfree : NamesFree p.subprograms) {name : String} {sig : Signature} :
    p.signatures.find? name = some sig ↔ ∃ f ∈ p.subprograms, f.name = name ∧ f.signature = sig := by
  constructor
  · intro h
    obtain ⟨f, hf, he⟩ := List.mem_map.1 (NameMap.mem_of_find?_ofList h)
    cases he
    exact ⟨f, hf, rfl, rfl⟩
  · rintro ⟨f, hf, rfl, rfl⟩
    refine NameMap.find?_ofList_of_mem ?_ (List.mem_map_of_mem hf)
    rw [List.map_map]
    exact hfree.distinct

theorem find?_flow_main (hfree : NamesFree p.subprograms) :
    p.flow.modules.find? Module.mainName = none := by
  cases h : p.flow.modules.find? Module.mainName with
  | none => rfl
  | some m =>
    obtain ⟨n, hn, hname, -⟩ := exists_of_find?_flow h
    exact absurd hname (hfree.ne_mainName hn)

theorem serves_flow (hmain : p.main.kind = .main) (hfree : NamesFree p.subprograms) :
    p.flow.Serves p.signatures where
  found {name sig} h := by
    rw [← signatures_eq] at h
    obtain ⟨m, hm, rfl⟩ := Option.map_eq_some_iff.1 h
    refine ⟨m, ?_, rfl⟩
    rw [CompiledProgram.find?, if_neg ?_, hm]
    intro hname
    rw [hname, find?_flow_main hfree] at hm
    cases hm
  returns {name callee} h := by
    rw [CompiledProgram.find?] at h
    rw [← signatures_eq]
    split at h
    · next hname =>
      cases h
      rw [hname, find?_flow_main hfree]
      show p.main.kind.returns? = none
      rw [hmain]
      rfl
    · rw [h]
      rfl

/-- Every compiled module comes from the module of its name. -/
theorem exists_of_flow {ts : List Token} (h : Spelled ts p) {name : String} {m : CompiledModule}
    (hm : p.flow.find? name = some m) :
    ∃ n ∈ p.modules, n.name = name ∧ m = n.hoisted.compile p.signatures := by
  rw [CompiledProgram.find?] at hm
  split at hm
  · next hname =>
    cases hm
    exact ⟨p.main, List.mem_cons_self, h.main.2.trans hname.symm, rfl⟩
  · obtain ⟨n, hn, he⟩ := exists_of_find?_flow hm
    exact ⟨n, List.mem_cons_of_mem _ hn, he⟩

theorem errorsOf_of_reports (h : p.reports = []) {m : Module} (hm : m ∈ p.modules) :
    errorsOf (m.hoisted.context p.signatures) m.hoisted.module.body = [] := by
  have hreport := List.filter_eq_nil_iff.1 h (m.hoisted.report p.signatures)
    (List.mem_map_of_mem (List.mem_map_of_mem hm))
  simp only [Bool.not_eq_true', Bool.not_eq_false] at hreport
  have hall := List.isEmpty_iff.1 hreport
  exact (List.append_eq_nil_iff.1 (List.append_eq_nil_iff.1 hall).2).1

end Program

/-- Of a program that compiles, a module finds the operands that it needs along all paths if and
only if every call that is an operand in it leaves a value. -/
theorem stackSound_iff {source : String} {compiled : CompiledProgram}
    (h : compile source = .ok compiled) :
    ∃ program, Program.ofSource source = .ok program ∧
      ∀ name lowered, compiled.find? name = some lowered →
        ∃ m ∈ program.modules, m.name = name ∧ lowered = m.hoisted.compile program.signatures ∧
          (lowered.StackSound compiled ↔
            ∀ callee ∈ m.operandCalls, compiled.yields callee = true) := by
  obtain ⟨program, hsource, hcompile⟩ := exists_of_bind_eq_ok h
  refine ⟨program, hsource, fun name lowered hlowered => ?_⟩
  obtain ⟨ts, hspelled⟩ : ∃ ts, Program.Spelled ts program := by
    rw [Program.ofSource] at hsource
    split at hsource
    · cases hsource
    · next tokens _ =>
      cases ht : Program.ofTokens tokens with
      | error e => rw [ht] at hsource; cases hsource
      | ok p =>
        rw [ht] at hsource
        cases hsource
        exact ⟨_, Program.spelled_of_ofTokens ht⟩
  rw [Program.compile] at hcompile
  split at hcompile
  · next hreports =>
    cases hcompile
    obtain ⟨m, hm, hname, rfl⟩ := Program.exists_of_flow hspelled hlowered
    refine ⟨m, hm, hname, rfl, ?_⟩
    have hserves := Program.serves_flow hspelled.main.1 hspelled.free
    have hbody : expressionsOf m.hoisted.module.body = expressionsOf m.body :=
      expressionsOf_filter m.body
    have hpost := hspelled.allPostorder hm
    rw [← hbody] at hpost
    rw [ScopedModule.stackSound_compile hserves hpost
      (Program.errorsOf_of_reports (List.isEmpty_iff.1 hreports) hm), hbody, callsWithin_eq]
    simp only [hserves.yields]
    rfl
  · cases hcompile

def functionOperands : String :=
  "entero funcion doble(entero n)\ninicio\nretornar n * 2\nfinfuncion\n"
    ++ "procedimiento subir(ref entero n)\ninicio\nn <- doble(n)\nfinprocedimiento\n"
    ++ "variables\nentero a[2], i\ninicio\npara i <- 1 hasta 2\nsubir(a[i])\nfinpara\n"
    ++ "si doble(a[1]) = 4 entonces\nescribir(a[2])\nfinsi\nfin\n"

theorem stackSound_functionOperands : ∃ compiled, compile functionOperands = .ok compiled ∧
    ∀ name lowered, compiled.find? name = some lowered → lowered.StackSound compiled := by
  have hcheck : (match compile functionOperands, Program.ofSource functionOperands with
      | .ok compiled, .ok program => program.modules.all (·.operandCalls.all compiled.yields)
      | _, _ => false) = true := by decide +kernel
  cases hc : compile functionOperands with
  | error e => rw [hc] at hcheck; cases hcheck
  | ok compiled =>
    obtain ⟨program, hp, hsound⟩ := stackSound_iff hc
    rw [hc, hp] at hcheck
    refine ⟨compiled, rfl, fun name lowered hl => ?_⟩
    obtain ⟨m, hm, -, -, hiff⟩ := hsound name lowered hl
    refine hiff.2 fun callee hcallee => ?_
    exact List.all_eq_true.1 (List.all_eq_true.1 hcheck m hm) callee hcallee

def procedureOperands : String :=
  "procedimiento p()\ninicio\nfinprocedimiento\n"
    ++ "variables\ninicio\nsi p() = p() entonces\nfinsi\nfin\n"

/-- Calls of a procedure can be compared, though they leave nothing to compare. -/
theorem not_stackSound_procedureOperands : ∃ compiled,
    compile procedureOperands = .ok compiled ∧ ¬ compiled.main.StackSound compiled := by
  let record := Record.test [.call "p" 0, .call "p" 0, .apply .equal]
  have hcheck : (match compile procedureOperands with
      | .ok compiled => decide (compiled.main.entry = some 0 ∧
        (compiled.main.graph.find? 0).map Node.record = some record ∧
        compiled.main.execute? compiled [record] [] = none)
      | .error _ => false) = true := by decide +kernel
  cases hc : compile procedureOperands with
  | error e => rw [hc] at hcheck; cases hcheck
  | ok compiled =>
    rw [hc] at hcheck
    obtain ⟨hentry, hrecord, hstuck⟩ := of_decide_eq_true hcheck
    refine ⟨compiled, rfl, fun hsound => ?_⟩
    obtain ⟨node, hnode, hr⟩ := Option.map_eq_some_iff.1 hrecord
    have hpath : compiled.main.graph.Path compiled.main.entry [record] (node.after true) := by
      rw [hentry, ← hr]
      exact .step true hnode (.stay _)
    obtain ⟨stack, hexec, -⟩ := hsound _ _ hpath
    rw [hstuck] at hexec
    cases hexec

end Seudocodigo
