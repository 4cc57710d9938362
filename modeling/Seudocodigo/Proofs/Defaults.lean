import Mathlib.Algebra.Order.BigOperators.GroupWithZero.List
import Mathlib.Algebra.Order.Ring.Nat
import Seudocodigo.Proofs.Accepted
import Seudocodigo.Proofs.Flow.Closure

/-! The cases that are provided for and never come up. Whatever is parsed, no operator lacks an
operand while types are found, no declaration is left among the statements, no loop has an empty
body and no array is too large for its cells. -/
namespace Seudocodigo

open Statement

/-! Statements that are spelled, and those that counting loops stand for. -/

namespace Statement

/-- The statement does something, and if it is a loop it has a body. -/
def Proper : Statement → Prop
  | .declaration .. => False
  | .whileLoop _ body _ | .untilLoop body _ _ => body ≠ []
  | .assignment _ | .conditional .. | .counting _ | .call _ | .result .. => True

/-- The statement is spelled, or a counting loop that is spelled stands for it. -/
inductive Parsed : Statement → Prop where
  | spelled {ts : List Token} {st : Statement} : Spelled ts st → Parsed st
  | start {ts : List Token} {l : CountingLoop} :
    Spelled ts (.counting l) → Parsed (.assignment l.start)
  | asWhile {ts : List Token} {l : CountingLoop} : Spelled ts (.counting l) → Parsed l.asWhile
  | increment {l : CountingLoop} : Parsed (.assignment l.increment)

variable {ts : List Token} {ss : List Statement} {st : Statement}

theorem Block.parsed (h : Block ts ss) : ∀ st ∈ ss, Parsed st := by
  induction ss generalizing ts with
  | nil => nofun
  | cons st ss ih =>
    cases h with
    | cons hst _ hss => exact List.forall_mem_cons.2 ⟨.spelled hst, ih hss⟩

theorem Parsed.proper (h : Parsed st) : st.Proper := by
  cases h with
  | start | increment => trivial
  | asWhile => exact List.append_ne_nil_of_right_ne_nil _ (List.cons_ne_nil _ _)
  | spelled h =>
    cases h with
    | whileLoop _ _ _ _ hne _ => exact hne
    | untilLoop _ _ _ hne _ _ _ => exact hne
    | assignment | call | result | conditional | alternative | counting => trivial

theorem Parsed.inner (h : Parsed st) : ∀ u ∈ st.inner, Parsed u := by
  cases h with
  | start | increment => nofun
  | asWhile h =>
    cases h with
    | counting _ _ _ _ _ hbody _ =>
      exact List.forall_mem_append.2 ⟨hbody.parsed, List.forall_mem_singleton.2 .increment⟩
  | spelled h =>
    cases h with
    | assignment | call | result => nofun
    | conditional _ _ _ _ hbody _ =>
      exact List.forall_mem_append.2 ⟨hbody.parsed, nofun⟩
    | alternative _ _ _ _ hbody _ _ hother _ =>
      exact List.forall_mem_append.2 ⟨hbody.parsed, hother.parsed⟩
    | whileLoop _ _ _ hbody _ _ => exact hbody.parsed
    | untilLoop _ _ hbody _ _ _ _ => exact hbody.parsed
    | counting ht hstart hu hbound hns hbody hw =>
      have hspelled := Spelled.counting ht hstart hu hbound hns hbody hw
      exact List.forall_mem_cons.2
        ⟨.start hspelled, List.forall_mem_singleton.2 (.asWhile hspelled)⟩

theorem Parsed.within (h : ∀ u ∈ ss, Parsed u) (hst : Within ss st) : Parsed st := by
  induction hst with
  | member hmem => exact h _ hmem
  | inner _ hmem ih => exact ih.inner _ hmem

theorem Declarations.isDeclaration {ds : List Statement} (h : Declarations ts ds) :
    ∀ st ∈ ds, st.isDeclaration = true := by
  induction h with
  | nil => nofun
  | cons hd _ _ ih =>
    cases hd
    exact List.forall_mem_cons.2 ⟨rfl, ih⟩

end Statement

namespace Module

variable {ts : List Token} {m : Module}

theorem Body.parsed {closer : Keyword} {body : List Statement} (h : Body closer ts body) :
    ∀ st ∈ body, st.isDeclaration = false → Parsed st := by
  cases h with
  | mk hds _ _ hss _ =>
    refine List.forall_mem_append.2 ⟨fun st hst hnot => ?_, fun st hst _ => hss.parsed st hst⟩
    rw [hds.isDeclaration st hst] at hnot
    cases hnot

/-- What is left of a body without its declarations is parsed. -/
theorem Spelled.parsed (h : Spelled ts m) : ∀ st ∈ m.hoisted.module.body, Parsed st := by
  have hparameters (vs : List Variable) (p : Location) :
      ∀ st ∈ redeclared vs p, st.isDeclaration = false → Parsed st := by
    cases vs with
    | nil => nofun
    | cons => exact List.forall_mem_singleton.2 nofun
  have hbody : ∀ st ∈ m.body, st.isDeclaration = false → Parsed st := by
    cases h with
    | main _ _ hb => exact hb.parsed
    | function _ _ _ _ _ hb | procedure _ _ _ _ hb =>
      exact List.forall_mem_append.2 ⟨hparameters _ _, hb.parsed⟩
  intro st hst
  obtain ⟨hmem, hnot⟩ := List.mem_filter.1 hst
  exact hbody st hmem (by simpa using hnot)

end Module

/-! Loops are built around chains that have nodes. -/

namespace Plan

def loopBodies : Plan → List Plan
  | .nothing | .action _ => []
  | .seq p q | .branch _ p q => p.loopBodies ++ q.loopBodies
  | .loop _ _ p => p :: p.loopBodies

theorem loopBodies_straight (as : List Action) : (straight as).loopBodies = [] := by
  induction as with
  | nil => rfl
  | cons a as ih => exact ih

end Plan

section Loops

variable {s : Signatures}

theorem isEmpty_planOf_eq_false {ss : List Statement} (hne : ss ≠ [])
    (h : ∀ st, Within ss st → st.Proper) : (planOf s ss).isEmpty = false := by
  rw [← Bool.not_eq_true, Plan.isEmpty_planOf]
  intro hall
  obtain ⟨st, hst⟩ := List.exists_mem_of_ne_nil ss hne
  have hproper := h st (.member hst)
  have hdeclaration := hall st hst
  cases st with
  | declaration => exact hproper
  | _ => cases hdeclaration

mutual

theorem isEmpty_loopBodies_plan (st : Statement) (hst : st.Proper)
    (h : ∀ u, Within st.inner u → u.Proper) : ∀ q ∈ (st.plan s).loopBodies, q.isEmpty = false := by
  cases st with
  | declaration => exact absurd hst id
  | assignment | call | result => rw [Statement.plan, Plan.loopBodies_straight]; nofun
  | conditional _ thenBranch elseBranch _ =>
    rw [Statement.plan, Plan.loopBodies]
    exact List.forall_mem_append.2
      ⟨isEmpty_loopBodies thenBranch fun u hu => h u (hu.mono fun _ => List.mem_append_left _),
        isEmpty_loopBodies elseBranch fun u hu => h u (hu.mono fun _ => List.mem_append_right _)⟩
  | whileLoop _ body _ =>
    rw [Statement.plan, Plan.loopBodies]
    exact List.forall_mem_cons.2 ⟨isEmpty_planOf_eq_false hst h, isEmpty_loopBodies body h⟩
  | untilLoop body _ _ =>
    rw [Statement.plan, Plan.loopBodies]
    exact List.forall_mem_cons.2 ⟨isEmpty_planOf_eq_false hst h, isEmpty_loopBodies body h⟩
  | counting l =>
    obtain ⟨start, bound, body, q⟩ := l
    let l : CountingLoop := ⟨start, bound, body, q⟩
    have hwhile : Within (Statement.counting l).inner l.asWhile :=
      .member (List.mem_cons_of_mem _ List.mem_cons_self)
    have hbody : ∀ u, Within body u → u.Proper :=
      fun u hu => h u (hwhile.trans (hu.mono fun _ => List.mem_append_left _))
    have hlast : (Plan.straight (l.increment.code s)).isEmpty = false := by
      simp [Plan.isEmpty_straight, Assignment.code]
    simp only [Statement.plan, Plan.loopBodies, Plan.loopBodies_straight, List.nil_append,
      List.append_nil]
    refine List.forall_mem_cons.2 ⟨?_, isEmpty_loopBodies body hbody⟩
    rw [Plan.isEmpty, Bool.and_eq_false_iff]
    exact .inr hlast

theorem isEmpty_loopBodies (ss : List Statement) (h : ∀ u, Within ss u → u.Proper) :
    ∀ q ∈ (planOf s ss).loopBodies, q.isEmpty = false := by
  cases ss with
  | nil => rw [planOf]; nofun
  | cons st sts =>
    have hfirst : Within (st :: sts) st := .member List.mem_cons_self
    rw [planOf, Plan.loopBodies]
    exact List.forall_mem_append.2
      ⟨isEmpty_loopBodies_plan st (h st hfirst) fun u hu => h u (hfirst.trans hu),
        isEmpty_loopBodies sts fun u hu => h u (hu.mono fun _ => List.mem_cons_of_mem _)⟩

end

end Loops

/-! Arrays get their cells. -/

namespace Variable

structure Bounded (v : Variable) : Prop where
  positive : ∀ len ∈ v.dims, 0 < len
  bounded : v.dims.prod ≤ maxCells

variable {ts : List Token} {v : Variable}

theorem Dimensions.bounded {name : String} {atom : Atom} {dims : List Nat} {byReference : Bool}
    {q : Location} (h : Dimensions ts dims) : Bounded ⟨name, atom, dims, byReference, q⟩ := by
  cases h with
  | none => exact ⟨nofun, show 1 ≤ maxCells by decide⟩
  | some _ hl hprod _ =>
    refine ⟨?_, hprod⟩
    clear hprod
    induction hl with
    | one hlen => exact List.forall_mem_singleton.2 hlen.pos
    | more hlen _ _ ih => exact List.forall_mem_cons.2 ⟨hlen.pos, ih⟩

theorem bounded_of_listed {N : List Token → Variable → Prop} {vs : List Variable}
    (hN : ∀ {us v}, N us v → v.Bounded) (h : Listed N ts vs) : ∀ v ∈ vs, v.Bounded := by
  induction h with
  | one hv => exact List.forall_mem_singleton.2 (hN hv)
  | more hv _ _ ih => exact List.forall_mem_cons.2 ⟨hN hv, ih⟩

theorem Declared.bounded {a : Atom} (h : Declared a ts v) : v.Bounded := by
  cases h with
  | mk _ hdims => exact hdims.bounded

theorem Parameter.bounded (h : Parameter ts v) : v.Bounded := by
  cases h with
  | byValue _ _ hdims => exact hdims.bounded
  | byReference _ _ _ hdims => exact hdims.bounded

theorem Parameters.bounded {vs : List Variable} (h : Parameters ts vs) : ∀ v ∈ vs, v.Bounded := by
  cases h with
  | none => nofun
  | some _ hl _ => exact bounded_of_listed Parameter.bounded hl

end Variable

namespace Module

variable {ts : List Token} {m : Module}

theorem Body.bounded {closer : Keyword} {body : List Statement} (h : Body closer ts body) :
    ∀ st ∈ body, ∀ v ∈ st.declared, v.Bounded := by
  cases h with
  | mk hds _ _ hss _ =>
    refine List.forall_mem_append.2 ⟨?_, fun st hst => ?_⟩
    · clear hss
      induction hds with
      | nil => nofun
      | cons hd _ _ ih =>
        cases hd with
        | mk _ hl =>
          exact List.forall_mem_cons.2 ⟨Variable.bounded_of_listed Variable.Declared.bounded hl, ih⟩
    · have hproper := (hss.parsed st hst).proper
      cases st with
      | declaration => exact absurd hproper id
      | _ => nofun

theorem bounded_redeclared {vs : List Variable} (h : ∀ v ∈ vs, v.Bounded) (p : Location) :
    ∀ st ∈ redeclared vs p, ∀ v ∈ st.declared, v.Bounded := by
  cases vs with
  | nil => nofun
  | cons => exact List.forall_mem_singleton.2 h

/-- All variables that a module declares can get their cells. -/
theorem Spelled.bounded (h : Spelled ts m) :
    ∀ v ∈ m.body.flatMap Statement.declared, v.Bounded := by
  have hbody : ∀ st ∈ m.body, ∀ v ∈ st.declared, v.Bounded := by
    cases h with
    | main _ _ hb => exact hb.bounded
    | function _ _ _ hparameters _ hb | procedure _ _ hparameters _ hb =>
      exact List.forall_mem_append.2 ⟨bounded_redeclared hparameters.bounded _, hb.bounded⟩
  intro v hv
  obtain ⟨st, hst, hdeclared⟩ := List.mem_flatMap.1 hv
  exact hbody st hst v hdeclared

end Module

namespace Scope

theorem mem_declare {s : Scope} {v w : Local} (h : w ∈ (s.declare v).2.locals) :
    w ∈ s.locals ∨ w = v := by
  rw [declare] at h
  split at h
  · exact .inl h
  · exact (List.mem_append.1 h).imp_right List.mem_singleton.1

/-- The variables of a scope are those declared in it. -/
theorem mem_declareAll {s : Scope} {vs : List Variable} {w : Local}
    (h : w ∈ (s.declareAll vs).1.locals) : w ∈ s.locals ∨ ∃ v ∈ vs, w = .ofVariable v := by
  induction vs generalizing s with
  | nil => exact .inl h
  | cons v vs ih =>
    have hrest : w ∈ ((s.declare (.ofVariable v)).2.declareAll vs).1.locals := by
      rw [declareAll] at h
      split at h
      · next heq => rw [heq]; exact h
      · next heq => rw [heq]; exact h
    obtain hmem | ⟨u, hu, he⟩ := ih hrest
    · exact (mem_declare hmem).imp_right fun he => ⟨v, List.mem_cons_self, he⟩
    · exact .inr ⟨u, List.mem_cons_of_mem _ hu, he⟩

end Scope

namespace Local

/-- If no length is zero, the product grows from one to the next, so all of them fit if the last one
does. -/
theorem foldlM_cells {dims : List Nat} (hpos : ∀ len ∈ dims, 0 < len) {cells : Nat}
    (h : cells * dims.prod < Nat.pow 2 64) :
    dims.foldlM product? cells = some (cells * dims.prod) := by
  induction dims generalizing cells with
  | nil => rw [List.prod_nil, Nat.mul_one]; rfl
  | cons len dims ih =>
    obtain ⟨-, hrest⟩ := List.forall_mem_cons.1 hpos
    rw [List.prod_cons, ← Nat.mul_assoc] at h ⊢
    have hlt : cells * len < Nat.pow 2 64 :=
      Nat.lt_of_le_of_lt (Nat.le_mul_of_pos_right _ (List.prod_pos hrest)) h
    rw [List.foldlM_cons, product?, if_pos hlt]
    exact ih hrest h

theorem cellCount?_eq {v : Local} (h : v.toVariable.Bounded) :
    v.cellCount? = some v.dims.prod := by
  have hlt : 1 * v.dims.prod < Nat.pow 2 64 := by
    rw [Nat.one_mul]
    exact Nat.lt_of_le_of_lt h.bounded (by decide)
  rw [cellCount?, foldlM_cells h.positive hlt, Nat.one_mul]

/-- An array within bounds gets as many cells as its dimensions say, all without a value. -/
theorem values_allocate {v : Local} (h : v.toVariable.Bounded) (harray : v.isArray = true) :
    v.allocate.values = some (.replicate v.dims.prod .uninitialized) := by
  rw [allocate, if_pos harray, cellCount?_eq h]
  dsimp only
  rw [if_pos h.bounded]

end Local

/-- Of every text that is read as a program, whether or not it has type errors, take the statements
of a module without its declarations. In any context, the type of every expression in them, also of
the conditions and the steps that counting loops stand for, is found without an operator that lacks
an operand, and is the only one left. None of the statements within is a declaration, and every loop
has a body, the plan of which adds a node to any graph. Every array of the module gets all of its
cells. -/
theorem defaults_ofSource {source : String} {p : Program}
    (h : Program.ofSource source = .ok p) : ∀ m ∈ p.modules,
      let n := m.hoisted
      (∀ Γ x, Reaches n.module.body x → x.Settles Γ) ∧
        (∀ st, Within n.module.body st → st.Proper) ∧
          (∀ s, (planOf s n.module.body).build = flowOf s n.module.body ∧
            ∀ body ∈ (planOf s n.module.body).loopBodies, ∀ g,
              (body.build g).1.isEmpty = false) ∧
            ∀ s, ∀ v ∈ (n.compile s).scope.toList, v.isArray = true →
              v.values = some (.replicate v.dims.prod .uninitialized) := by
  obtain ⟨ts, hspelled⟩ := Program.exists_spelled h
  intro m hm n
  obtain ⟨us, hus⟩ := hspelled.spelled m hm
  have hproper : ∀ st, Within n.module.body st → st.Proper :=
    fun st hst => (Parsed.within hus.parsed hst).proper
  refine ⟨fun Γ x hx => ?_, hproper, fun s => ⟨Plan.build_planOf s _, fun body hbody g => ?_⟩,
    fun s v hv harray => ?_⟩
  · exact Expression.settles_of_postorder ((hspelled.allPostorder_hoisted hm).reaches hx) Γ
  · have hempty := isEmpty_loopBodies n.module.body hproper body hbody
    rw [Chain.isEmpty, Option.isNone_eq_false_iff, Option.isSome_iff_ne_none, ne_eq,
      body.head_build, hempty]
    exact Bool.false_ne_true
  · obtain ⟨w, hw, rfl⟩ := List.mem_map.1 hv
    obtain hnone | ⟨u, hu, rfl⟩ := Scope.mem_declareAll hw
    · cases hnone
    · have hdims : (Local.ofVariable u).allocate.dims = u.dims := by
        rw [Local.toVariable_allocate]
        rfl
      rw [hdims]
      refine Local.values_allocate (hus.bounded u hu) ?_
      rw [Local.toVariable_allocate] at harray
      exact harray

/-- Its counter is no integer, its bound is not declared, and its last call has no module. -/
def untypedCounting : String :=
  "variables\nreal a[2, 3]\ninicio\npara a[1] <- verdadero hasta n + 1\nmostrar(-a[2, 1])\n"
    ++ "finpara\nfin\n"

theorem defaults_untypedCounting : ∃ p, Program.ofSource untypedCounting = .ok p ∧
    p.reports.isEmpty = false ∧
      (∀ Γ x, Reaches p.main.hoisted.module.body x → x.Settles Γ) ∧
        ∃ v ∈ (p.main.hoisted.compile p.signatures).scope.toList,
          v.values = some (.replicate 6 .uninitialized) := by
  have hcheck : (match Program.ofSource untypedCounting with
      | .ok p => !p.reports.isEmpty && (p.main.hoisted.compile p.signatures).scope.toList.any
        fun v => decide (v.isArray = true ∧ v.dims.prod = 6)
      | .error _ => false) = true := by decide +kernel
  cases hp : Program.ofSource untypedCounting with
  | error e => rw [hp] at hcheck; cases hcheck
  | ok p =>
    rw [hp] at hcheck
    obtain ⟨hwrong, hany⟩ := (Bool.and_eq_true _ _).mp hcheck
    obtain ⟨v, hv, harray⟩ := List.any_eq_true.1 hany
    obtain ⟨harray, hcells⟩ := of_decide_eq_true harray
    obtain ⟨hsettles, -, -, hvalues⟩ := defaults_ofSource hp p.main List.mem_cons_self
    refine ⟨p, rfl, by simpa using hwrong, hsettles, v, hv, ?_⟩
    rw [hvalues _ v hv harray, hcells]

end Seudocodigo
