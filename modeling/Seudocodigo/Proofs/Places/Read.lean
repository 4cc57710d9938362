import Seudocodigo.Proofs.InStep.Program
import Seudocodigo.Proofs.Parse.Draws
import Seudocodigo.Proofs.Places

/-! The places in what is read, and in the errors, are places of the tokens that it is read from. -/
namespace Seudocodigo

open Parse

variable {ts : List Token}

theorem placesOfExpressions_subset {es : List Expression} {ps : List Location}
    (h : ∀ e ∈ es, e.places ⊆ ps) : placesOfExpressions es ⊆ ps := by
  rw [placesOfExpressions_eq_flatMap]
  intro p hp
  obtain ⟨e, he, hp⟩ := List.mem_flatMap.1 hp
  exact h e he hp

theorem placesOf_nil_subset (ps : List Location) : placesOf [] ⊆ ps := by
  rw [placesOf]
  exact List.nil_subset ps

theorem placesOfElements_append (es fs : List Element) :
    placesOfElements (es ++ fs) = placesOfElements es ++ placesOfElements fs := by
  simp only [placesOfElements_eq_flatMap, List.flatMap_append]

namespace Expression

/-- Operators are not noted with a place. -/
theorem placesOfElements_emit (ops : List Operator) : placesOfElements (emit ops) = [] := by
  rw [placesOfElements_eq_flatMap, emit, List.flatMap_map]
  refine List.flatMap_eq_nil_iff.2 fun op _ => ?_
  rw [Element.places]

theorem draws_located {p : Parse (List Element)}
    (h : Draws ts (placesOfElements · ⊆ ts.map (·.location)) p) :
    Draws ts (Expression.places · ⊆ ts.map (·.location)) (located p) := by
  refine Draws.location.bind fun p hp => h.map fun es hes => ?_
  rw [Expression.places]
  exact List.cons_subset.2 ⟨hp, hes⟩

section Item

variable {item : Parse Expression} (h : Draws ts (Expression.places · ⊆ ts.map (·.location)) item)
  (n : Nat)

include h

theorem draws_argumentList :
    Draws ts (fun es => ∀ e ∈ es, e.places ⊆ ts.map (·.location)) (argumentList item n) :=
  (Draws.symbol _ _).bind fun _ _ => (Draws.takeSymbol _).bind fun _ _ => .ite (.pure nofun)
    ((Draws.commaList h n).bind fun _ hargs => (Draws.symbol _ _).map fun _ _ => hargs)

theorem draws_indexList :
    Draws ts (fun es => ∀ e ∈ es, e.places ⊆ ts.map (·.location)) (indexList item n) :=
  (Draws.takeSymbol _).bind fun _ _ => .ite
    ((Draws.commaList h n).bind fun _ hindices => (Draws.symbol _ _).map fun _ _ => hindices)
    (.pure nofun)

theorem draws_named (name : String) :
    Draws ts (Element.places · ⊆ ts.map (·.location)) (named item n name) := by
  refine Draws.location.bind fun p hp => Draws.advance.bind fun _ _ => ?_
  refine (Draws.atSymbol _).bind fun _ _ => .ite ?_ ?_
  · refine (draws_argumentList h n).map fun args hargs => ?_
    rw [Element.places, Call.places]
    exact List.cons_subset.2 ⟨hp, placesOfExpressions_subset hargs⟩
  · refine (draws_indexList h n).map fun indices hindices => ?_
    rw [Element.places, Access.places]
    exact placesOfExpressions_subset hindices

end Item

/-- The scans from both sides of an operand draw their places from the tokens. -/
theorem draws_scan (n : Nat) (ops : List Operator) (outer : List (List Operator)) :
    Draws ts (placesOfElements · ⊆ ts.map (·.location)) (operand n ops outer) ∧
      Draws ts (placesOfElements · ⊆ ts.map (·.location)) (afterOperand n ops outer) := by
  induction n generalizing ops outer with
  | zero => exact ⟨.fail _ _, .fail _ _⟩
  | succ n ih =>
    constructor
    · rw [operand_succ]
      refine Draws.current.bind fun t _ => ?_
      split
      · refine Draws.advance.bind fun _ _ => (ih ops outer).2.map fun es hes => ?_
        rwa [placesOfElements, Element.places, List.nil_append]
      · refine (draws_named (draws_located (ih [] []).1) n _).bind fun e he => ?_
        refine (ih ops outer).2.map fun es hes => ?_
        rw [placesOfElements]
        exact List.append_subset.2 ⟨he, hes⟩
      · exact Draws.advance.bind fun _ _ => (ih _ _).1
      · exact Draws.advance.bind fun _ _ => (ih _ _).1
      · exact .fail _ _
    · have hemitted (stronger : List Operator) (es : List Element)
          (hes : placesOfElements es ⊆ ts.map (·.location)) :
          placesOfElements (emit stronger ++ es) ⊆ ts.map (·.location) := by
        rwa [placesOfElements_append, placesOfElements_emit, List.nil_append]
      refine Draws.current.bind fun t _ => ?_
      split
      · exact Draws.advance.bind fun _ _ => (ih _ _).1.map (hemitted _)
      · refine .pure ?_
        rw [placesOfElements_emit]
        exact List.nil_subset _
      · exact .ite (Draws.advance.bind fun _ _ => (ih _ _).2.map (hemitted _)) (.fail _ _)

theorem draws_parse : Draws ts (Expression.places · ⊆ ts.map (·.location)) Expression.parse :=
  draws_located (Draws.budget.bind fun n _ => (draws_scan n [] []).1)

theorem draws_parseArguments :
    Draws ts (fun es => ∀ e ∈ es, e.places ⊆ ts.map (·.location)) parseArguments :=
  Draws.budget.bind fun n _ => draws_argumentList draws_parse n

theorem draws_parseIndices :
    Draws ts (fun es => ∀ e ∈ es, e.places ⊆ ts.map (·.location)) parseIndices :=
  Draws.budget.bind fun n _ => draws_indexList draws_parse n

end Expression

theorem Access.draws_parse : Draws ts (Access.places · ⊆ ts.map (·.location)) Access.parse := by
  refine Draws.word.bind fun _ _ => Expression.draws_parseIndices.map fun indices hindices => ?_
  rw [Access.places]
  exact placesOfExpressions_subset hindices

namespace Statement

open Expression

theorem draws_assignment :
    Draws ts (Assignment.places · ⊆ ts.map (·.location)) parseAssignment := by
  refine Draws.location.bind fun p hp => Access.draws_parse.bind fun target htarget => ?_
  refine (Draws.symbol _ _).bind fun _ _ => draws_parse.map fun value hvalue => ?_
  exact List.cons_subset.2 ⟨hp, List.append_subset.2 ⟨htarget, hvalue⟩⟩

theorem draws_call : Draws ts (Call.places · ⊆ ts.map (·.location)) parseCall := by
  refine Draws.location.bind fun p hp => Draws.word.bind fun _ _ => ?_
  refine draws_parseArguments.map fun args hargs => ?_
  rw [Call.places]
  exact List.cons_subset.2 ⟨hp, placesOfExpressions_subset hargs⟩

section Block

variable {block : BlockEnd → Parse (List Statement)}
  (h : ∀ e, Draws ts (placesOf · ⊆ ts.map (·.location)) (block e))

include h

theorem draws_else : Draws ts (placesOf · ⊆ ts.map (·.location)) (parseElse block) := by
  refine (Draws.takeKeyword _).bind fun _ _ => .ite ?_ (.pure (placesOf_nil_subset _))
  exact Draws.lineEnd.bind fun _ _ => h _

theorem draws_nonempty (e : BlockEnd) :
    Draws ts (placesOf · ⊆ ts.map (·.location)) (parseNonempty (block e)) :=
  (h e).bind fun _ hss => .ite (.fail _ _) (.pure hss)

theorem draws_conditional :
    Draws ts (Statement.places · ⊆ ts.map (·.location)) (parseConditional block) := by
  refine Draws.advance.bind fun first hfirst => draws_parse.bind fun condition hcondition => ?_
  refine (Draws.keyword _ _).bind fun _ _ => Draws.lineEnd.bind fun _ _ => ?_
  refine (h _).bind fun _ hthen => (draws_else h).bind fun _ helse => ?_
  refine (Draws.keyword _ _).map fun _ _ => ?_
  simp only [Statement.places, List.cons_append, List.cons_subset, List.append_subset]
  exact ⟨List.mem_map_of_mem hfirst, ⟨hcondition, hthen⟩, helse⟩

theorem draws_while :
    Draws ts (Statement.places · ⊆ ts.map (·.location)) (parseWhile block) := by
  refine Draws.advance.bind fun first hfirst => draws_parse.bind fun condition hcondition => ?_
  refine Draws.lineEnd.bind fun _ _ => (draws_nonempty h _).bind fun body hbody => ?_
  refine (Draws.keyword _ _).map fun _ _ => ?_
  simp only [Statement.places, List.cons_append, List.cons_subset, List.append_subset]
  exact ⟨List.mem_map_of_mem hfirst, hcondition, hbody⟩

theorem draws_until :
    Draws ts (Statement.places · ⊆ ts.map (·.location)) (parseUntil block) := by
  refine Draws.advance.bind fun first hfirst => Draws.lineEnd.bind fun _ _ => ?_
  refine (draws_nonempty h _).bind fun body hbody => (Draws.keyword _ _).bind fun _ _ => ?_
  refine (Draws.keyword _ _).bind fun _ _ => draws_parse.map fun condition hcondition => ?_
  simp only [Statement.places, List.cons_append, List.cons_subset, List.append_subset]
  exact ⟨List.mem_map_of_mem hfirst, hcondition, hbody⟩

theorem draws_counting :
    Draws ts (Statement.places · ⊆ ts.map (·.location)) (parseCounting block) := by
  refine Draws.advance.bind fun first hfirst => Access.draws_parse.bind fun target htarget => ?_
  refine (Draws.symbol _ _).bind fun _ _ => draws_parse.bind fun value hvalue => ?_
  refine (Draws.keyword _ _).bind fun _ _ => draws_parse.bind fun bound hbound => ?_
  refine Draws.lineEnd.bind fun _ _ => (h _).bind fun body hbody => ?_
  refine (Draws.keyword _ _).map fun _ _ => ?_
  have hplace := List.mem_map_of_mem (f := (·.location)) hfirst
  simp only [Statement.places, Assignment.places, List.cons_append, List.cons_subset,
    List.append_subset]
  exact ⟨hplace, hplace, ⟨⟨htarget, hvalue⟩, hbound⟩, hbody⟩

theorem draws_statement :
    Draws ts (Statement.places · ⊆ ts.map (·.location)) (parseWith block) := by
  refine Draws.cursor.bind fun c _ => ?_
  split
  · exact draws_conditional h
  · exact draws_while h
  · exact draws_until h
  · exact draws_counting h
  · refine Draws.advance.bind fun first hfirst => draws_parse.map fun value hvalue => ?_
    rw [Statement.places]
    exact List.cons_subset.2 ⟨List.mem_map_of_mem hfirst, hvalue⟩
  · refine .ite (draws_call.map fun c hc => ?_) (draws_assignment.map fun a ha => ?_)
    · rwa [Statement.places]
    · rwa [Statement.places]
  · exact .fail _ _

end Block

theorem draws_blockWithin (n : Nat) (e : BlockEnd) :
    Draws ts (placesOf · ⊆ ts.map (·.location)) (blockWithin n e) := by
  induction n generalizing e with
  | zero => exact .fail _ _
  | succ n ih =>
    refine Draws.skipLineEnds.bind fun _ _ => Draws.cursor.bind fun c _ => ?_
    refine .ite (.pure (placesOf_nil_subset _)) (.ite (.fail _ _) ?_)
    refine (draws_statement ih).bind fun s hs => Draws.lineEnd.bind fun _ _ => ?_
    refine (ih e).map fun ss hss => ?_
    rw [placesOf]
    exact List.append_subset.2 ⟨hs, hss⟩

theorem draws_block (e : BlockEnd) :
    Draws ts (placesOf · ⊆ ts.map (·.location)) (parseBlock e) :=
  Draws.budget.bind fun n _ => draws_blockWithin n e

end Statement

namespace Variable

theorem draws_dimensionList (cells n : Nat) : Draws ts (fun _ => True) (dimensionList cells n) := by
  induction n generalizing cells with
  | zero => exact .fail _ _
  | succ n ih =>
    refine Draws.current.bind fun t _ => ?_
    split
    · refine .ite (.fail _ _) ?_
      split
      · exact .fail _ _
      · refine Draws.advance.bind fun _ _ => (Draws.takeSymbol _).bind fun _ _ => ?_
        exact .ite ((ih _).map fun _ _ => trivial) (.pure trivial)
    · exact .fail _ _

theorem draws_dimensions : Draws ts (fun _ => True) parseDimensions := by
  refine (Draws.takeSymbol _).bind fun _ _ => .ite ?_ (.pure trivial)
  refine Draws.budget.bind fun n _ => (draws_dimensionList 1 n).bind fun _ _ => ?_
  exact (Draws.symbol _ _).map fun _ _ => trivial

theorem draws_declared (a : Atom) :
    Draws ts (·.location ∈ ts.map (·.location)) (parseDeclared a) :=
  Draws.location.bind fun _ hp => Draws.word.bind fun _ _ => draws_dimensions.map fun _ _ => hp

theorem draws_parameter : Draws ts (·.location ∈ ts.map (·.location)) parseParameter :=
  Draws.location.bind fun _ hp => (Draws.takeKeyword _).bind fun _ _ => Draws.atom.bind fun _ _ =>
    Draws.word.bind fun _ _ => draws_dimensions.map fun _ _ => hp

theorem draws_parameters :
    Draws ts (fun vs => ∀ v ∈ vs, v.location ∈ ts.map (·.location)) parseParameters := by
  refine (Draws.symbol _ _).bind fun _ _ => (Draws.takeSymbol _).bind fun _ _ => ?_
  refine .ite (.pure nofun) (Draws.budget.bind fun n _ => ?_)
  exact (Draws.commaList draws_parameter n).bind fun _ hvs => (Draws.symbol _ _).map fun _ _ => hvs

end Variable

theorem map_location_subset {vs : List Variable} {ps : List Location}
    (h : ∀ v ∈ vs, v.location ∈ ps) : vs.map (·.location) ⊆ ps := by
  intro p hp
  obtain ⟨v, hv, rfl⟩ := List.mem_map.1 hp
  exact h v hv

namespace Statement

theorem draws_declaration :
    Draws ts (Statement.places · ⊆ ts.map (·.location)) parseDeclaration := by
  refine Draws.location.bind fun p hp => Draws.atom.bind fun a _ => Draws.budget.bind fun n _ => ?_
  refine (Draws.commaList (Variable.draws_declared a) n).map fun vs hvs => ?_
  rw [Statement.places]
  exact List.cons_subset.2 ⟨hp, map_location_subset hvs⟩

theorem draws_declarationsWithin (n : Nat) :
    Draws ts (placesOf · ⊆ ts.map (·.location)) (declarationsWithin n) := by
  induction n with
  | zero => exact .pure (placesOf_nil_subset _)
  | succ n ih =>
    refine Draws.skipLineEnds.bind fun _ _ => Draws.current.bind fun t _ => ?_
    refine .ite ?_ (.pure (placesOf_nil_subset _))
    refine draws_declaration.bind fun d hd => Draws.lineEnd.bind fun _ _ => ih.map fun ds hds => ?_
    rw [placesOf]
    exact List.append_subset.2 ⟨hd, hds⟩

end Statement

namespace Module

theorem draws_body (closer : Keyword) (e : BlockEnd) :
    Draws ts (placesOf · ⊆ ts.map (·.location)) (parseBody closer e) := by
  refine (Draws.budget.bind fun n _ => Statement.draws_declarationsWithin n).bind fun ds hds => ?_
  refine (Draws.keyword _ _).bind fun _ _ => Draws.lineEnd.bind fun _ _ => ?_
  refine (Statement.draws_block e).bind fun ss hss => (Draws.keyword _ _).map fun _ _ => ?_
  rw [placesOf_eq_flatMap] at hds hss ⊢
  rw [List.flatMap_append]
  exact List.append_subset.2 ⟨hds, hss⟩

/-- Parameters that are declared once more add no places. -/
theorem placesOf_declareParameters {vs : List Variable} {p : Location} {ps : List Location}
    (hvs : ∀ v ∈ vs, v.location ∈ ps) (hp : p ∈ ps) : placesOf (declareParameters vs p) ⊆ ps := by
  rw [declareParameters]
  split
  · exact placesOf_nil_subset ps
  · rw [placesOf, placesOf, Statement.places, List.append_nil]
    exact List.cons_subset.2 ⟨hp, map_location_subset hvs⟩

theorem draws_main : Draws ts (Module.places · ⊆ ts.map (·.location)) parseMain := by
  refine Draws.advance.bind fun first hfirst => Draws.lineEnd.bind fun _ _ => ?_
  refine (draws_body _ _).map fun body hbody => ?_
  exact List.cons_subset.2 ⟨List.mem_map_of_mem hfirst, hbody⟩

/-- The rest of a procedure or a function that begins at the place of one of the tokens. -/
theorem draws_behindHeading (kind : ModuleKind) (closer : Keyword) (e : BlockEnd) {p : Location}
    (hp : p ∈ ts.map (·.location)) :
    Draws ts (Module.places · ⊆ ts.map (·.location)) (parseBehindHeading kind closer e p) := by
  refine Draws.word.bind fun _ _ => Variable.draws_parameters.bind fun vs hvs => ?_
  refine Draws.lineEnd.bind fun _ _ => (draws_body _ _).map fun body hbody => ?_
  have hdeclared := placesOf_declareParameters hvs hp
  rw [placesOf_eq_flatMap] at hbody hdeclared
  rw [Module.places, placesOf_eq_flatMap, List.flatMap_append]
  refine List.cons_subset.2 ⟨hp, List.append_subset.2 ⟨map_location_subset hvs, ?_⟩⟩
  exact List.append_subset.2 ⟨hdeclared, hbody⟩

theorem draws_parse : Draws ts (Module.places · ⊆ ts.map (·.location)) Module.parse := by
  refine Draws.current.bind fun t _ => ?_
  split
  · exact draws_main
  · exact Draws.advance.bind fun _ hfirst => draws_behindHeading _ _ _ (List.mem_map_of_mem hfirst)
  · exact Draws.advance.bind fun _ hfirst => (Draws.keyword _ _).bind fun _ _ =>
      draws_behindHeading _ _ _ (List.mem_map_of_mem hfirst)
  · exact .fail _ _

end Module

namespace Program

/-- A module that cannot be added is reported at its first token. -/
theorem draws_addModule {first : Token} (hfirst : first ∈ ts) (m : Module) (main : Option Module)
    (ms : List Module) :
    Draws ts (fun _ => True) (liftM (addModule first m main ms) :
      Parse (Option Module × List Module)) := by
  refine .lift (fun _ _ => trivial) fun e he => ⟨first, hfirst, ?_⟩
  rw [addModule] at he
  split at he
  · split at he
    · cases he; rfl
    · cases he
  · split at he
    · cases he; rfl
    · cases he

theorem draws_modulesWithin (n : Nat) (main : Option Module) (ms : List Module) :
    Draws ts (fun _ => True) (modulesWithin n main ms) := by
  induction n generalizing main ms with
  | zero => exact .fail _ _
  | succ n ih =>
    refine Draws.cursor.bind fun c hc => .ite ?_ ?_
    · cases main with
      | some main => exact .pure trivial
      | none => exact .fail _ _
    · refine Module.draws_parse.bind fun m _ => Draws.lineEnd.bind fun _ _ => ?_
      exact (draws_addModule (hc List.mem_cons_self) m main ms).bind fun _ _ => ih _ _

theorem draws_parse : Draws ts (fun _ => True) Program.parse :=
  Draws.skipLineEnds.bind fun _ _ => Draws.budget.bind fun n _ => draws_modulesWithin n none []

end Program

end Seudocodigo
