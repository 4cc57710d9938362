import Seudocodigo.Module.Parse
import Seudocodigo.Proofs.InStep.Statement

/-! Declarations, modules and programs in two texts at the same time. -/
namespace Seudocodigo

open Parse

def Module.parseBehindHeading (kind : ModuleKind) (closer : Keyword) (e : BlockEnd) (p : Location) :
    Parse Module := do
  let name ← word
  let vs ← Variable.parseParameters
  lineEnd
  let body ← Module.parseBody closer e
  return ⟨name, kind, vs, Module.declareParameters vs p ++ body, p⟩

namespace Likeness

open Variable

variable {L : Likeness} {n m : Nat}

theorem inStep_dimensionList (cells n m : Nat) :
    L.InStep (L.Within n m) (L.Within n m) id (dimensionList cells n) (dimensionList cells m) := by
  refine inStep_of_step (S := Eq) (fun n cells => dimensionList cells n)
    (fun n cells => dimensionList cells n) ?_ ?_ n m (rfl : cells = cells)
  · rintro cells _ rfl
    exact ⟨.fail _ _, .fail _ _⟩
  · rintro n m h cells _ rfl
    refine current_bind fun t u htu _ => ?_
    rw [← htu]
    have hfail (expected : List String) (reason : Option SyntaxReason) :
        L.InStep (L.At t.kind (n + 1) (m + 1)) (L.Within (n + 1) (m + 1)) (id : List Nat → _)
          (fail expected reason) (fail expected reason) :=
      (inStep_fail _ _ _).forAt
    split
    · next len hlen =>
      split
      · exact hfail _ _
      · split
        · exact hfail _ _
        · next cells _ =>
          refine (advance_bind (by simp [hlen]) (by simp [hlen]) fun _ _ _ => ?_).loosen
          refine takeSymbol_bind (.loosen ?_) (.pure rfl)
          refine ((h cells cells rfl).narrow (Nat.sub_le n 1) (Nat.sub_le m 1)).map ?_
          exact fun as bs habs => congrArg (len.toNat :: ·) habs
    · exact hfail _ _

theorem keeps_dimensions : L.Keeps id parseDimensions parseDimensions := fun n m => by
  refine takeSymbol_bind (.loosen ?_) (.pure rfl)
  refine (keeps_budget (p := fun n => dimensionList 1 n >>= _) fun n m => ?_) _ _
  exact (inStep_dimensionList 1 n m).bind fun _ _ hdims =>
    ((takes_symbol _ _).keeps n m).map fun _ _ _ => hdims

theorem keeps_declared (a : Atom) :
    L.Keeps (Variable.relocate L.place) (parseDeclared a) (parseDeclared a) := fun n m => by
  refine (keeps_location n m).bind fun p q hpq => (takes_word.keeps n m).bind fun x y hxy => ?_
  refine (keeps_dimensions n m).map fun ds es hds => ?_
  obtain rfl : x = y := hxy
  obtain rfl : ds = es := hds
  rw [Variable.relocate, Variable.relocate, hpq]

theorem keeps_parameter :
    L.Keeps (Variable.relocate L.place) parseParameter parseParameter := fun n m => by
  refine (keeps_location n m).bind fun p q hpq => (keeps_takeKeyword _ n m).bind fun r s hrs => ?_
  refine (takes_atom.keeps n m).bind fun a b hab => (takes_word.keeps n m).bind fun x y hxy => ?_
  refine (keeps_dimensions n m).map fun ds es hds => ?_
  obtain rfl : r = s := hrs
  obtain rfl : a = b := hab
  obtain rfl : x = y := hxy
  obtain rfl : ds = es := hds
  rw [Variable.relocate, Variable.relocate, hpq]

theorem keeps_parameters :
    L.Keeps (List.map (Variable.relocate L.place)) parseParameters parseParameters := fun n m => by
  refine ((takes_symbol _ _).keeps n m).bind fun _ _ _ => takeSymbol_bind (.loosen (.pure rfl)) ?_
  refine (keeps_budget (p := fun n => commaList parseParameter n >>= _) fun n m => ?_) n m
  exact (keeps_parameter n m).commaList.bind fun _ _ hvs =>
    ((takes_symbol _ _).keeps n m).map fun _ _ _ => hvs

open Statement

theorem takes_declaration :
    L.Takes (Statement.relocate L.place) parseDeclaration parseDeclaration := fun n m => by
  refine (keeps_location n m).bind fun p q hpq => (takes_atom n m).bind fun a b hab => ?_
  obtain rfl : a = b := hab
  refine (keeps_budget (p := fun n => commaList (parseDeclared a) n >>= _) fun n m => ?_) _ _
  refine (keeps_declared a n m).commaList.map fun vs ws hvs => ?_
  simp only [Statement.relocate, hvs, hpq]

theorem inStep_declarationsWithin (n m : Nat) :
    L.InStep (L.Within n m) (L.Within n m) (List.map (Statement.relocate L.place))
      (declarationsWithin n) (declarationsWithin m) := by
  refine inStep_of_step (S := Eq) (fun n (_ : Unit) => declarationsWithin n)
    (fun n _ => declarationsWithin n) ?_ ?_ n m (rfl : () = ())
  · exact fun _ _ _ => ⟨.pure _, .pure _⟩
  · rintro n m h _ _ rfl
    refine (keeps_skipLineEnds _ _).bind fun _ _ _ => current_bind fun t u htu _ => ?_
    rw [← htu]
    split
    · refine .forAt (.loosen ?_)
      refine (takes_declaration _ _).bind fun d e hde => (keeps_lineEnd _ _).bind fun _ _ _ => ?_
      refine (h () () rfl).map fun ds es hds => ?_
      rw [List.map_cons, List.map_cons, hde, hds]
    · exact (InStep.pure rfl).forAt

theorem keeps_declarations :
    L.Keeps (List.map (Statement.relocate L.place)) parseDeclarations parseDeclarations :=
  keeps_budget inStep_declarationsWithin

theorem keeps_body (closer : Keyword) (e : BlockEnd) :
    L.Keeps (List.map (Statement.relocate L.place)) (Module.parseBody closer e)
      (Module.parseBody closer e) := fun n m => by
  refine (keeps_declarations n m).bind fun ds es hds => ?_
  refine ((takes_keyword _ _).keeps n m).bind fun _ _ _ => (keeps_lineEnd n m).bind fun _ _ _ => ?_
  refine (keeps_block e n m).bind fun ss ts hss => ?_
  refine ((takes_keyword _ _).keeps n m).map fun _ _ _ => ?_
  rw [List.map_append, List.map_append, hds, hss]

theorem relocate_declareParameters {vs ws : List Variable} {p q : Location}
    (h : vs.map (Variable.relocate L.place) = ws.map (Variable.relocate L.place))
    (hpq : L.place p = L.place q) :
    (Module.declareParameters vs p).map (Statement.relocate L.place) =
      (Module.declareParameters ws q).map (Statement.relocate L.place) := by
  have hempty : vs.isEmpty = ws.isEmpty := by simpa using congrArg List.isEmpty h
  rw [Module.declareParameters, Module.declareParameters, hempty]
  split
  · rfl
  · simp only [List.map_cons, List.map_nil, Statement.relocate, h, hpq]

section Module

variable (w : Keyword)

theorem inStep_main :
    L.InStep (L.At (.keyword w) n m) (L.Within (n - 1) (m - 1)) (Module.relocate L.place)
      Module.parseMain Module.parseMain := by
  refine advance_bind (by simp) (by simp) fun t u htu => (keeps_lineEnd _ _).bind fun _ _ _ => ?_
  refine (keeps_body _ _ _ _).map fun ss ts hss => ?_
  simp only [Module.relocate, List.map_nil, hss, htu]

theorem keeps_behindHeading (kind : ModuleKind) (closer : Keyword) (e : BlockEnd) {p q : Location}
    (hpq : L.place p = L.place q) :
    L.Keeps (Module.relocate L.place) (Module.parseBehindHeading kind closer e p)
      (Module.parseBehindHeading kind closer e q) := fun n m => by
  refine (takes_word.keeps n m).bind fun x y hxy => (keeps_parameters n m).bind fun vs ws hvs => ?_
  refine (keeps_lineEnd n m).bind fun _ _ _ => (keeps_body _ _ n m).map fun ss ts hss => ?_
  obtain rfl : x = y := hxy
  simp only [Module.relocate, List.map_append, relocate_declareParameters hvs hpq, hvs, hss, hpq]

theorem inStep_procedure :
    L.InStep (L.At (.keyword w) n m) (L.Within (n - 1) (m - 1)) (Module.relocate L.place)
      Module.parseProcedure Module.parseProcedure :=
  advance_bind (by simp) (by simp) fun _ _ htu => keeps_behindHeading _ _ _ htu _ _

theorem inStep_function (returns : Atom) :
    L.InStep (L.At (.keyword w) n m) (L.Within (n - 1) (m - 1)) (Module.relocate L.place)
      (Module.parseFunction returns) (Module.parseFunction returns) :=
  advance_bind (by simp) (by simp) fun _ _ htu =>
    ((takes_keyword _ _).keeps _ _).bind fun _ _ _ => keeps_behindHeading _ _ _ htu _ _

end Module

theorem takes_module : L.Takes (Module.relocate L.place) Module.parse Module.parse := fun n m => by
  refine current_bind fun t u htu _ => ?_
  rw [← htu]
  generalize t.kind = k
  have hfail : L.InStep (L.At k n m) (L.Within (n - 1) (m - 1)) (Module.relocate L.place)
      (fail ["variables", "procedimiento", "funcion"] none)
      (fail ["variables", "procedimiento", "funcion"] none) :=
    (inStep_fail _ _ _).forAt
  cases k with
  | keyword w =>
    cases w with
    | vars => exact inStep_main _
    | procedimiento => exact inStep_procedure _
    | entero | real | logico | caracter => exact inStep_function _ _
    | _ => exact hfail
  | _ => exact hfail

open Program

def modulesRead (L : Likeness) : Option Module × List Module → Option Module × List Module :=
  Prod.map (Option.map (Module.relocate L.place)) (List.map (Module.relocate L.place))

theorem result_addModule {t u : Token} {m m' : Module} {main main' : Option Module}
    {ms ms' : List Module} (htu : t.kind = u.kind) (hp : L.place t.location = L.place u.location)
    (hm : m.relocate L.place = m'.relocate L.place)
    (h : L.modulesRead (main, ms) = L.modulesRead (main', ms')) :
    L.result L.modulesRead (addModule t m main ms) =
      L.result L.modulesRead (addModule u m' main' ms') := by
  obtain ⟨hmain, hms⟩ := Prod.ext_iff.1 h
  have hkind : m.kind = m'.kind := by simpa [Module.relocate] using congrArg Module.kind hm
  have hname : m.name = m'.name := by simpa [Module.relocate] using congrArg Module.name hm
  have hsome : main.isSome = main'.isSome := by
    simpa [modulesRead] using congrArg Option.isSome hmain
  have hnames : ms.map Module.name = ms'.map Module.name := by
    simpa [modulesRead, Function.comp_def, Module.relocate] using
      congrArg (List.map Module.name) hms
  have hany : ms.any (·.name = m.name) = ms'.any (·.name = m.name) := by
    have h := congrArg (List.any · fun name => decide (name = m.name)) hnames
    simp only [List.any_map] at h
    exact h
  have herror (expected : List String) (reason : Option SyntaxReason) :
      (SyntaxError.ofToken t expected reason).relocate L.place =
        (SyntaxError.ofToken u expected reason).relocate L.place := by
    simp only [SyntaxError.ofToken, SyntaxError.relocate, htu, hp]
  simp only [addModule, hkind, ← hname, ← hany, ← hsome]
  split
  · split
    · exact congrArg Except.error (herror _ _)
    · exact congrArg Except.ok (Prod.ext (congrArg some hm) hms)
  · split
    · exact congrArg Except.error (herror _ _)
    · refine congrArg Except.ok (Prod.ext hmain ?_)
      simp only [modulesRead, Prod.map_snd, List.map_append, List.map_cons, List.map_nil,
        hm] at hms ⊢
      rw [hms]

theorem modulesWithin_succ (n : Nat) (main : Option Module) (ms : List Module) :
    modulesWithin (n + 1) main ms = (do
      let t ← current
      if decide (t.kind = .endOfFile) then
        match main with
        | some main => return ⟨main, ms⟩
        | none => fail ["variables"] (some .missingMain)
      else
        let m ← Module.parse
        lineEnd
        let (main, ms) ← addModule t m main ms
        modulesWithin n main ms) := rfl

theorem inStep_modulesWithin (n m : Nat) :
    L.InStep (L.Within n m) (L.Within n m) (Program.relocate L.place) (modulesWithin n none [])
      (modulesWithin m none []) := by
  let modulesAt (n : Nat) (i : Option Module × List Module) := modulesWithin n i.1 i.2
  refine inStep_of_step (S := fun i j => L.modulesRead i = L.modulesRead j) modulesAt modulesAt
    (fun _ _ _ => ⟨.fail _ _, .fail _ _⟩) ?_ n m (rfl : L.modulesRead (none, []) = _)
  rintro n m h ⟨main, ms⟩ ⟨main', ms'⟩ hread
  simp only [modulesAt, modulesWithin_succ]
  refine current_bind fun t u htu hp => ?_
  rw [← htu]
  split
  · obtain ⟨hmain, hms⟩ := Prod.ext_iff.1 hread
    cases main with
    | some main =>
      cases main' with
      | some main' =>
        refine (InStep.pure ?_).forAt
        rw [Program.relocate, Program.relocate, show ms.map _ = ms'.map _ from hms]
        exact congrArg (Program.mk · _) (Option.some.inj hmain)
      | none => cases hmain
    | none =>
      cases main' with
      | some main' => cases hmain
      | none => exact (inStep_fail _ _ _).forAt
  · refine .forAt (.loosen ?_)
    refine (takes_module _ _).bind fun a b hab => (keeps_lineEnd _ _).bind fun _ _ _ => ?_
    exact (inStep_lift (result_addModule htu hp hab hread)).bind fun i j hij => h i j hij

theorem keeps_program : L.Keeps (Program.relocate L.place) Program.parse Program.parse := fun n m =>
  (keeps_skipLineEnds n m).bind fun _ _ _ => keeps_budget inStep_modulesWithin n m

end Likeness

end Seudocodigo
