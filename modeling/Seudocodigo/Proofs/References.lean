import Seudocodigo.Proofs.Accepted

/-! Arguments passed by reference: the checker demands a variable just where the actions of a call
take a reference to one. -/
namespace Seudocodigo

open Statement

/-- The module changes its argument at the given position, counted from zero: it is the one that
reads, or its parameter there is passed by reference. -/
def Program.Refers (p : Program) (module : String) (i : Nat) : Prop :=
  module = "leer" ∨
    ∃ f ∈ p.subprograms, f.name = module ∧ f.parameters[i]?.any (·.byReference) = true

instance (p : Program) (module : String) (i : Nat) : Decidable (p.Refers module i) :=
  inferInstanceAs (Decidable (_ ∨ _))

namespace Program

variable {p : Program}

/-- What the signatures say of a parameter is what its module says. -/
theorem byReference_iff (hfree : NamesFree p.subprograms) {name : String} {i : Nat} :
    p.signatures.byReference name i = true ↔ p.Refers name i := by
  rw [Signatures.byReference, Refers]
  split
  · next hbuiltin =>
    rw [decide_eq_true_iff]
    refine (or_iff_left ?_).symm
    rintro ⟨f, hf, rfl, -⟩
    rw [hfree.isBuiltin hf] at hbuiltin
    cases hbuiltin
  · next hbuiltin =>
    have hne : name ≠ "leer" := fun he => hbuiltin (by rw [he]; decide)
    rw [or_iff_right hne]
    have hany (f : Module) : ((f.signature.parameters[i]?).map (·.byReference)).getD false =
        f.parameters[i]?.any (·.byReference) := by
      show ((f.parameters[i]?).map _).getD false = _
      cases f.parameters[i]? <;> rfl
    constructor
    · intro h
      cases hs : p.signatures.find? name with
      | none => rw [hs] at h; cases h
      | some sig =>
        obtain ⟨f, hf, hname, rfl⟩ := (find?_signatures hfree).1 hs
        rw [hs, Option.bind_some, hany] at h
        exact ⟨f, hf, hname, h⟩
    · rintro ⟨f, hf, hname, href⟩
      rw [(find?_signatures hfree).2 ⟨f, hf, hname, rfl⟩, Option.bind_some, hany, href]

theorem find?_flow (hmain : p.main.name = Module.mainName) (hfree : NamesFree p.subprograms)
    {n : Module} (hn : n ∈ p.modules) :
    p.flow.find? n.name = some (n.hoisted.compile p.signatures) := by
  rw [CompiledProgram.find?]
  cases List.mem_cons.1 hn with
  | inl he => rw [he, if_pos hmain]; rfl
  | inr hsub =>
    rw [if_neg (hfree.ne_mainName hsub)]
    refine NameMap.find?_ofList_of_mem ?_ (List.mem_map_of_mem hsub)
    rw [List.map_map]
    exact hfree.distinct

end Program

/-! The checker asks for variables. -/

section Checked

variable {Γ : Context} {name : String}

theorem access_of_checkArguments {args : List Expression} {vs : List Variable} {k i : Nat}
    {u : Unit} {e : Expression} {v : Variable} (h : checkArguments Γ name k args vs = .ok u)
    (he : args[i]? = some e) (hv : vs[i]? = some v) (href : v.byReference = true) :
    e.access?.isSome = true := by
  induction args generalizing k i vs with
  | nil => cases he
  | cons first args ih =>
    cases vs with
    | nil => cases hv
    | cons w vs =>
      obtain ⟨-, hvariable, hrest⟩ := checkArguments_cons h
      cases i with
      | zero =>
        cases he
        cases hv
        exact hvariable href
      | succ i => exact ih hrest he hv

theorem access_of_checkBuiltinArguments {args : List Expression} {k : Nat} {u : Unit}
    (h : checkBuiltinArguments Γ name k args = .ok u) (hname : name = "leer") :
    ∀ e ∈ args, e.access?.isSome = true := by
  induction args generalizing k with
  | nil => nofun
  | cons e es ih =>
    obtain ⟨-, hvariable, hrest⟩ := checkBuiltinArguments_cons h
    exact List.forall_mem_cons.2 ⟨hvariable hname, ih hrest⟩

/-- Of a call that is checked, what is passed by reference is a variable. -/
theorem access_of_check {c : Call} {u : Unit} (h : c.check Γ = .ok u) {i : Nat} {e : Expression}
    (he : c.args[i]? = some e) (href : Γ.signatures.byReference c.name i = true) :
    ∃ a, e.elements = [.access a] := by
  have hsome : e.access?.isSome = true := by
    rw [Signatures.byReference] at href
    obtain ⟨hbuiltin, hargs⟩ | ⟨hbuiltin, sig, hsig, -, hargs⟩ := c.check_cases h
    · rw [if_pos hbuiltin, decide_eq_true_iff] at href
      exact access_of_checkBuiltinArguments hargs href e (List.mem_of_getElem? he)
    · rw [hbuiltin, if_neg Bool.false_ne_true, hsig, Option.bind_some] at href
      cases hv : sig.parameters[i]? with
      | none => rw [hv] at href; cases href
      | some v => rw [hv] at href; exact access_of_checkArguments hargs he hv href
  obtain ⟨a, ha⟩ := Option.isSome_iff_exists.1 hsome
  exact ⟨a, Expression.access?_eq_some.1 ha⟩

end Checked

/-! The actions take references to variables only. -/

section Code

variable {s : Signatures} {name : String} {i : Nat} {e : Expression}

theorem argumentOf_reference {a : Access} (href : s.byReference name i = true)
    (he : e.elements = [.access a]) :
    s.argumentOf name i e = indexCode s a.indices ++ [.reference a.name a.indices.length] := by
  rw [Signatures.argumentOf, Expression.access?_eq_some.2 he, href]

theorem argumentOf_value (href : s.byReference name i = false) :
    s.argumentOf name i e = e.code s := by
  rw [Signatures.argumentOf, href]
  split
  · next hb => cases hb
  · rfl

theorem Element.lastAction_ne_reference (el : Element) (module : String) (n : Nat) :
    el.lastAction ≠ .reference module n := by
  cases el with
  | literal | operator | call => nofun
  | access a =>
    obtain ⟨name, indices⟩ := a
    cases indices <;> nofun

/-- An expression that is evaluated leaves no reference. -/
theorem Expression.getLast?_code_ne (e : Expression) (module : String) (n : Nat) :
    (e.code s).getLast? ≠ some (.reference module n) := by
  rw [Expression.code_eq]
  obtain hnil | ⟨front, el, hconcat⟩ := List.eq_nil_or_concat e.elements
  · rw [hnil, codeOf]
    nofun
  · rw [hconcat, List.concat_eq_append, codeOf_append, codeOf_element, ← List.append_assoc,
      List.getLast?_concat]
    exact fun he => el.lastAction_ne_reference module n (Option.some.inj he)

/-- The actions of an argument of a call that is checked end in a reference just where the callee
changes its argument. Then they refer to the variable that the argument is; else they find its
value. -/
theorem argumentOf_of_check {Γ : Context} {c : Call} {u : Unit} (h : c.check Γ = .ok u)
    (he : c.args[i]? = some e) :
    let actions := Γ.signatures.argumentOf c.name i e
    let refers := Γ.signatures.byReference c.name i = true
    ((∃ module n, actions.getLast? = some (.reference module n)) ↔ refers) ∧
      (refers → ∃ a, e.elements = [.access a] ∧
        actions = indexCode Γ.signatures a.indices ++ [.reference a.name a.indices.length]) ∧
      (¬ refers → actions = e.code Γ.signatures) := by
  intro actions refers
  have hreference (href : refers) : ∃ a, e.elements = [.access a] ∧
      actions = indexCode Γ.signatures a.indices ++ [.reference a.name a.indices.length] := by
    obtain ⟨a, ha⟩ := access_of_check h he href
    exact ⟨a, ha, argumentOf_reference href ha⟩
  have hvalue (href : ¬ refers) : actions = e.code Γ.signatures :=
    argumentOf_value (Bool.eq_false_iff.2 href)
  refine ⟨⟨fun ⟨module, n, hlast⟩ => ?_, fun href => ?_⟩, hreference, hvalue⟩
  · by_contra href
    rw [hvalue href] at hlast
    exact e.getLast?_code_ne module n hlast
  · obtain ⟨a, -, hactions⟩ := hreference href
    exact ⟨a.name, a.indices.length, by rw [hactions, List.getLast?_concat]⟩

end Code

/-- Of a text that compiles take any call, at whatever depth, also in the condition or the last step
of a counting loop. Its actions stand in the graph of its module in one piece: those of its
arguments one after the other, then the call. The actions of an argument end in a reference just if
the callee is the module that reads or its parameter is passed by reference; then the argument is a
variable, and its actions are those of its indices and the reference to it. Else they are those of
the argument as an expression. -/
theorem references_compile {source : String} {compiled : CompiledProgram}
    (h : compile source = .ok compiled) :
    ∃ program, Program.ofSource source = .ok program ∧ ∀ m ∈ program.modules,
      ∃ lowered, compiled.find? m.name = some lowered ∧ ∀ c, Calls m.body c →
        let s := program.signatures
        lowered.graph.Carries (c.code s) ∧
          c.code s = (c.args.mapIdx (s.argumentOf c.name)).flatten ++
            [.call c.name c.args.length] ∧
          ∀ i e, c.args[i]? = some e →
            let actions := s.argumentOf c.name i e
            ((∃ name n, actions.getLast? = some (.reference name n)) ↔ program.Refers c.name i) ∧
              (program.Refers c.name i → ∃ a, e.elements = [.access a] ∧
                actions = indexCode s a.indices ++ [.reference a.name a.indices.length]) ∧
              (¬ program.Refers c.name i → actions = e.code s) := by
  obtain ⟨p, ts, hsource, hspelled, hreports, rfl⟩ := exists_of_compile h
  refine ⟨p, hsource, fun m hm => ⟨_, Program.find?_flow hspelled.main.2 hspelled.free hm, ?_⟩⟩
  intro c hc s
  have hcalls : Calls m.hoisted.module.body c := hc.filter
  refine ⟨?_, ?_, fun i e he => ?_⟩
  · rw [(m.hoisted.compile_eq s).1]
    exact carries_of_calls hcalls .empty
  · rw [Call.code_eq, argumentCode_eq]
    simp only [Nat.zero_add]
  · obtain ⟨u, hu⟩ := check_of_calls (hspelled.allPostorder_hoisted hm)
      (Program.errorsOf_of_reports hreports hm) hcalls
    simp only [← Program.byReference_iff hspelled.free]
    exact argumentOf_of_check hu he

def mixedArguments : String :=
  "procedimiento poner(ref entero x, entero y)\ninicio\nx <- y\nfinprocedimiento\n"
    ++ "variables\nentero a[3], i\ninicio\nleer(i)\nponer(a[i], i + 1)\nfin\n"

theorem references_mixedArguments : ∃ compiled program c,
    compile mixedArguments = .ok compiled ∧ Program.ofSource mixedArguments = .ok program ∧
      Calls program.main.body c ∧ c.name = "poner" ∧
        ∃ first second, c.args[0]? = some first ∧ c.args[1]? = some second ∧
          (∃ a, first.elements = [.access a] ∧
            program.signatures.argumentOf c.name 0 first =
              indexCode program.signatures a.indices ++ [.reference a.name a.indices.length]) ∧
          program.signatures.argumentOf c.name 1 second = second.code program.signatures := by
  have hcheck : (match compile mixedArguments, Program.ofSource mixedArguments with
      | .ok _, .ok program => decide (program.Refers "poner" 0 ∧ ¬ program.Refers "poner" 1) &&
        program.main.body.any fun st => match st with
          | .call c => decide (c.name = "poner" ∧ c.args.length = 2)
          | _ => false
      | _, _ => false) = true := by decide +kernel
  cases hc : compile mixedArguments with
  | error e => rw [hc] at hcheck; cases hcheck
  | ok compiled =>
    obtain ⟨program, hp, hreferences⟩ := references_compile hc
    rw [hc, hp] at hcheck
    obtain ⟨hrefers, hcall⟩ := (Bool.and_eq_true _ _).mp hcheck
    obtain ⟨hfirst, hsecond⟩ := of_decide_eq_true hrefers
    obtain ⟨st, hst, hmatch⟩ := List.any_eq_true.1 hcall
    obtain ⟨lowered, -, hcalls⟩ := hreferences program.main List.mem_cons_self
    cases st with
    | call c =>
      obtain ⟨hname, hlen⟩ := of_decide_eq_true hmatch
      have hmem : Calls program.main.body c := .inl (.member hst)
      obtain ⟨-, -, hargs⟩ := hcalls c hmem
      have h0 : c.args[0]? = some c.args[0] := List.getElem?_eq_getElem (by omega)
      have h1 : c.args[1]? = some c.args[1] := List.getElem?_eq_getElem (by omega)
      exact ⟨compiled, program, c, rfl, hp, hmem, hname, _, _, h0, h1,
        (hargs 0 _ h0).2.1 (hname ▸ hfirst), (hargs 1 _ h1).2.2 (hname ▸ hsecond)⟩
    | _ => cases hmatch

end Seudocodigo
