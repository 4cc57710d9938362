import Mathlib.Data.List.Induction
import Seudocodigo.Proofs.Defaults
import Seudocodigo.Proofs.References

/-! Declarations on their way from the text into the scope of a module. The first of each name is
kept and the others are errors, all in the order of the text, and the statements stay as they
are. -/
namespace Seudocodigo

open Statement

namespace Variable

def marked (vs : List Variable) : List (Variable × Bool) :=
  vs.mapIdx fun i v => (v, (vs.take i).any (·.name = v.name))

def firsts (vs : List Variable) : List Variable := ((marked vs).filter (!·.2)).map (·.1)

def repeats (vs : List Variable) : List Variable := ((marked vs).filter (·.2)).map (·.1)

variable {vs : List Variable}

theorem marked_append (vs : List Variable) (v : Variable) :
    marked (vs ++ [v]) = marked vs ++ [(v, vs.any (·.name = v.name))] := by
  have hfront : (vs.mapIdx fun i w => (w, ((vs ++ [v]).take i).any (·.name = w.name))) =
      marked vs := by
    refine List.mapIdx_eq_mapIdx_iff.2 fun i hi => ?_
    rw [List.take_append_of_le_length (Nat.le_of_lt hi)]
  rw [marked, List.mapIdx_concat, hfront, List.take_left]

theorem firsts_append (vs : List Variable) (v : Variable) :
    firsts (vs ++ [v]) = firsts vs ++ if vs.any (·.name = v.name) then [] else [v] := by
  rw [firsts, marked_append, List.filter_append, List.map_append]
  cases vs.any (·.name = v.name) <;> rfl

theorem repeats_append (vs : List Variable) (v : Variable) :
    repeats (vs ++ [v]) = repeats vs ++ if vs.any (·.name = v.name) then [v] else [] := by
  rw [repeats, marked_append, List.filter_append, List.map_append]
  cases vs.any (·.name = v.name) <;> rfl

theorem repeats_subset (vs : List Variable) : repeats vs ⊆ vs := by
  induction vs using List.reverseRecOn with
  | nil => exact List.Subset.refl _
  | append_singleton vs v ih =>
    rw [repeats_append]
    refine List.append_subset.2 ⟨List.Subset.trans ih (List.subset_append_left _ _), ?_⟩
    split
    · exact List.subset_append_right _ _
    · exact List.nil_subset _

/-- Without repeated names all are the first of theirs. -/
theorem firsts_of_repeats (h : repeats vs = []) : firsts vs = vs := by
  have hfirst : ∀ e ∈ marked vs, (!e.2) = true := by
    intro e he
    have hnot := List.filter_eq_nil_iff.1 (List.map_eq_nil_iff.1 h) e he
    rw [Bool.not_eq_true] at hnot
    rw [hnot, Bool.not_false]
  rw [firsts, List.filter_eq_self.2 hfirst, marked]
  refine List.ext_getElem? fun i => ?_
  rw [List.getElem?_map, List.getElem?_mapIdx]
  cases vs[i]? <;> rfl

/-- Every name is that of some variable among the first ones. -/
theorem any_firsts (vs : List Variable) (name : String) :
    (firsts vs).any (·.name = name) = vs.any (·.name = name) := by
  induction vs using List.reverseRecOn with
  | nil => rfl
  | append_singleton vs v ih =>
    rw [firsts_append, List.any_append, List.any_append, ih]
    split
    · next hany =>
      by_cases hname : v.name = name
      · rw [← hname, hany]
        rfl
      · simp [hname]
    · rfl

end Variable

namespace Scope

open Variable

def duplicate (v : Variable) : TypeError := ⟨.duplicateVariable v.name, v.location⟩

variable {s : Scope} {v : Variable}

theorem declareAll_append (s : Scope) (us vs : List Variable) :
    s.declareAll (us ++ vs) =
      (((s.declareAll us).1.declareAll vs).1,
        (s.declareAll us).2 ++ ((s.declareAll us).1.declareAll vs).2) := by
  induction us generalizing s with
  | nil => rfl
  | cons u us ih =>
    rw [List.cons_append, declareAll, declareAll]
    split
    · exact ih _
    · next earlier scope _ =>
      rw [ih scope]
      rfl

theorem declareAll_singleton (s : Scope) (v : Variable) :
    let taken := (s.find? v.name).isSome
    (s.declareAll [v]).1.locals = s.locals ++ (if taken then [] else [.ofVariable v]) ∧
      (s.declareAll [v]).2 = if taken then [duplicate v] else [] := by
  intro taken
  rw [declareAll]
  split
  · next scope hdeclare =>
    rw [declare] at hdeclare
    split at hdeclare
    · cases hdeclare
    · next hfind =>
      cases hdeclare
      rw [show taken = false from congrArg Option.isSome hfind]
      exact ⟨rfl, rfl⟩
  · next earlier scope hdeclare =>
    rw [declare] at hdeclare
    split at hdeclare
    · next hfind =>
      cases hdeclare
      rw [show taken = true from congrArg Option.isSome hfind]
      exact ⟨(List.append_nil _).symm, rfl⟩
    · cases hdeclare

/-- The scope lists the first variable of each name, and the others are errors. -/
theorem declareAll_empty (vs : List Variable) :
    (empty.declareAll vs).1.locals = (firsts vs).map Local.ofVariable ∧
      (empty.declareAll vs).2 = (repeats vs).map duplicate := by
  induction vs using List.reverseRecOn with
  | nil => exact ⟨rfl, rfl⟩
  | append_singleton vs v ih =>
    obtain ⟨hlocals, herrors⟩ := ih
    have hfind : ((empty.declareAll vs).1.find? v.name).isSome = vs.any (·.name = v.name) := by
      rw [find?, List.isSome_find?, hlocals, List.any_map, ← any_firsts]
      rfl
    obtain ⟨hnext, hlast⟩ := declareAll_singleton (empty.declareAll vs).1 v
    rw [declareAll_append, hnext, hlast, hlocals, herrors, hfind, firsts_append, repeats_append]
    cases vs.any (·.name = v.name) <;> simp

end Scope

namespace Statement

variable {ts : List Token} {ss : List Statement}

/-- Among spelled statements there is no declaration, at any depth. -/
theorem Block.isDeclaration {st : Statement} (h : Block ts ss) (hst : Within ss st) :
    st.isDeclaration = false := by
  have hproper := (Parsed.within h.parsed hst).proper
  cases st with
  | declaration => exact absurd hproper id
  | _ => rfl

theorem Block.declared (h : Block ts ss) : ss.flatMap declared = [] := by
  refine List.flatMap_eq_nil_iff.2 fun st hst => ?_
  have hnot := h.isDeclaration (.member hst)
  cases st with
  | declaration => cases hnot
  | _ => rfl

end Statement

namespace Module

/-- The parameters of a module, its declarations and its statements stand one behind the other among
the tokens, and they make up its body. -/
inductive Laid (m : Module) (ds ss : List Statement) : List Token → Prop where
  | mk {as ps bs ts cs us es : List Token} :
    Variable.Parameters ps m.parameters ∨ ps = [] ∧ m.parameters = [] →
    Declarations ts ds → Block us ss →
    m.body = redeclared m.parameters m.location ++ ds ++ ss →
    Laid m ds ss (as ++ ps ++ bs ++ ts ++ cs ++ us ++ es)

variable {ts us : List Token} {m : Module} {ds ss : List Statement}

theorem Laid.mono (h : Laid m ds ss us) (hin : us <:+: ts) : Laid m ds ss ts := by
  obtain ⟨front, behind, rfl⟩ := hin
  cases h with
  | @mk as ps bs ts cs us es hps hds hss hbody =>
    have hall := @Laid.mk m ds ss (front ++ as) ps bs ts cs us (es ++ behind) hps hds hss hbody
    simpa only [List.append_assoc] using hall

theorem Spelled.laid (h : Spelled ts m) : ∃ ds ss, Laid m ds ss ts := by
  cases h with
  | @main t ns _ _ _ _ hb =>
    cases hb with
    | @mk u w ts ms us ds ss hds _ _ hss _ =>
      have hall := @Laid.mk ⟨"principal", .main, [], ds ++ ss, t.location⟩ ds ss (t :: ns) [] [] ts
        (u :: ms) us [w] (.inr ⟨rfl, rfl⟩) hds hss rfl
      exact ⟨ds, ss, by simpa using hall⟩
  | @function t u w ps ns _ a name vs _ _ _ _ hps _ hb =>
    cases hb with
    | @mk x y ts ms us ds ss hds _ _ hss _ =>
      have hall := @Laid.mk ⟨name, .function a, vs, redeclared vs t.location ++ (ds ++ ss),
        t.location⟩ ds ss [t, u, w] ps ns ts (x :: ms) us [y] (.inl hps) hds hss
        (List.append_assoc ..).symm
      exact ⟨ds, ss, by simpa using hall⟩
  | @procedure t w ps ns _ name vs _ _ _ hps _ hb =>
    cases hb with
    | @mk x y ts ms us ds ss hds _ _ hss _ =>
      have hall := @Laid.mk ⟨name, .procedure, vs, redeclared vs t.location ++ (ds ++ ss),
        t.location⟩ ds ss [t, w] ps ns ts (x :: ms) us [y] (.inl hps) hds hss
        (List.append_assoc ..).symm
      exact ⟨ds, ss, by simpa using hall⟩

theorem declared_redeclared (vs : List Variable) (p : Location) :
    (redeclared vs p).flatMap declared = vs := by
  cases vs with
  | nil => rfl
  | cons => exact List.append_nil _

theorem isDeclaration_redeclared (vs : List Variable) (p : Location) :
    ∀ st ∈ redeclared vs p, st.isDeclaration = true := by
  cases vs with
  | nil => nofun
  | cons => exact List.forall_mem_singleton.2 rfl

/-- What the body declares are the parameters and behind them what the declarations do. -/
theorem Laid.declared (h : Laid m ds ss ts) :
    m.body.flatMap Statement.declared = m.parameters ++ ds.flatMap Statement.declared := by
  cases h with
  | mk _ _ hss hbody =>
    rw [hbody, List.flatMap_append, List.flatMap_append, declared_redeclared, hss.declared,
      List.append_nil]

theorem Laid.filter (h : Laid m ds ss ts) : m.body.filter (!·.isDeclaration) = ss := by
  cases h with
  | mk _ hds hss hbody =>
    have hfront : ∀ st ∈ redeclared m.parameters m.location ++ ds,
        ¬ (!st.isDeclaration) = true := by
      refine List.forall_mem_append.2 ⟨fun st hst => ?_, fun st hst => ?_⟩
      · rw [isDeclaration_redeclared _ _ st hst]
        exact Bool.false_ne_true
      · rw [hds.isDeclaration st hst]
        exact Bool.false_ne_true
    have hbehind : ∀ st ∈ ss, (!st.isDeclaration) = true := by
      intro st hst
      rw [hss.isDeclaration (.member hst)]
      rfl
    rw [hbody, List.filter_append, List.filter_eq_nil_iff.2 hfront,
      List.filter_eq_self.2 hbehind, List.nil_append]

theorem Laid.hoisted (h : Laid m ds ss ts) :
    let vs := m.parameters ++ ds.flatMap Statement.declared
    m.hoisted.scope.toList = (Variable.firsts vs).map Local.ofVariable ∧
      m.hoisted.hoistErrors = (Variable.repeats vs).map Scope.duplicate ∧
      m.hoisted.module = { m with body := ss } := by
  intro vs
  rw [show vs = m.body.flatMap Statement.declared from h.declared.symm, ← h.filter]
  obtain ⟨hlocals, herrors⟩ := Scope.declareAll_empty (m.body.flatMap Statement.declared)
  exact ⟨hlocals, herrors, rfl⟩

/-- If no name is declared twice, the scope lists all that is declared. -/
theorem Laid.toList_scope (h : Laid m ds ss ts) (hnone : m.hoisted.hoistErrors = []) :
    m.hoisted.scope.toList =
      (m.parameters ++ ds.flatMap Statement.declared).map Local.ofVariable := by
  obtain ⟨hlocals, herrors, -⟩ := h.hoisted
  rw [herrors, List.map_eq_nil_iff] at hnone
  rw [hlocals, Variable.firsts_of_repeats hnone]

end Module

namespace Program

open Variable

variable {p : Program} {tokens : List Token}

theorem exists_laid (h : ofTokens tokens = .ok p) {m : Module} (hm : m ∈ p.modules) :
    ∃ ds ss, m.Laid ds ss tokens := by
  obtain ⟨us, hin, hus⟩ := (spelled_of_ofTokens h).exists_piece m hm
  obtain ⟨ds, ss, hlaid⟩ := hus.laid
  exact ⟨ds, ss, hlaid.mono (hin.trans (List.takeWhile_prefix _).isInfix)⟩

/-- Of every program that is read and each of its modules, whether or not it has type errors. The
scope lists the first variable of each name, of the parameters and behind them of the declarations,
as the tokens have them, and every other one is an error. The statements are left as they are, and
there is no declaration among them at any depth. So if there are no errors, the scope begins with
the parameters, and these are what the signature has by which calls of the module are checked. -/
theorem hoisted_ofTokens (h : ofTokens tokens = .ok p) : ∀ m ∈ p.modules,
    ∃ ds ss, m.Laid ds ss tokens ∧
      let n := m.hoisted
      let vs := m.parameters ++ ds.flatMap Statement.declared
      n.scope.toList = (firsts vs).map Local.ofVariable ∧
        n.hoistErrors = (repeats vs).map Scope.duplicate ∧
        n.module = { m with body := ss } ∧ (∀ st, Within ss st → st.isDeclaration = false) ∧
        (n.hoistErrors = [] →
          (n.scope.toList.take m.parameters.length).map (·.toVariable) = m.parameters ∧
          (m ∈ p.subprograms →
            ∃ sig, p.signatures.find? m.name = some sig ∧ sig.parameters = m.parameters)) := by
  intro m hm
  obtain ⟨ds, ss, hlaid⟩ := exists_laid h hm
  refine ⟨ds, ss, hlaid, ?_⟩
  intro n vs
  obtain ⟨hlocals, herrors, hbody⟩ := hlaid.hoisted
  refine ⟨hlocals, herrors, hbody, fun st hst => ?_, fun hnone => ⟨?_, fun hsub => ?_⟩⟩
  · cases hlaid with
    | mk _ _ hss _ => exact hss.isDeclaration hst
  · rw [hlaid.toList_scope hnone, ← List.map_take, List.take_left, List.map_map]
    exact List.map_id _
  · exact ⟨m.signature, (find?_signatures (spelled_of_ofTokens h).free).2 ⟨m, hsub, rfl, rfl⟩, rfl⟩

def repeatedName : String :=
  "procedimiento p(entero x, ref real x)\nentero y[2], x\ninicio\nfinprocedimiento\n"
    ++ "variables\nlogico z\ninicio\nfin\n"

theorem hoisted_repeatedName : ∃ tokens p, tokenize repeatedName = .ok tokens ∧
    ofTokens tokens = .ok p ∧ ∃ m ∈ p.subprograms, ∃ ds ss, m.Laid ds ss tokens ∧
      let vs := m.parameters ++ ds.flatMap Statement.declared
      vs.map (·.name) = ["x", "x", "y", "x"] ∧ (firsts vs).map (·.name) = ["x", "y"] ∧
        m.hoisted.scope.toList = (firsts vs).map Local.ofVariable ∧
        m.hoisted.hoistErrors = (repeats vs).map Scope.duplicate ∧
        (m.hoisted.hoistErrors.map (·.location)) = [⟨1, 27⟩, ⟨2, 14⟩] := by
  have hcheck : ((tokenize repeatedName).toOption.bind fun tokens =>
      (ofTokens tokens).toOption).any (fun p => p.subprograms.any fun m =>
        let vs := m.body.flatMap Statement.declared
        decide (vs.map (·.name) = ["x", "x", "y", "x"] ∧ (firsts vs).map (·.name) = ["x", "y"] ∧
          (m.hoisted.hoistErrors.map (·.location)) = [⟨1, 27⟩, ⟨2, 14⟩])) = true := by
    decide +kernel
  cases ht : tokenize repeatedName with
  | error es => rw [ht] at hcheck; cases hcheck
  | ok tokens =>
    rw [ht, Except.toOption, Option.bind_some] at hcheck
    cases hp : ofTokens tokens with
    | error e => rw [hp] at hcheck; cases hcheck
    | ok p =>
      rw [hp, Except.toOption, Option.any_some] at hcheck
      obtain ⟨m, hm, hnames⟩ := List.any_eq_true.1 hcheck
      obtain ⟨hall, hfirsts, hplaces⟩ := of_decide_eq_true hnames
      obtain ⟨ds, ss, hlaid, hscope, herrors, -⟩ :=
        hoisted_ofTokens hp m (List.mem_cons_of_mem _ hm)
      rw [hlaid.declared] at hall hfirsts
      exact ⟨tokens, p, rfl, hp, m, hm, ds, ss, hlaid, hall, hfirsts, hscope, herrors, hplaces⟩

end Program
end Seudocodigo
