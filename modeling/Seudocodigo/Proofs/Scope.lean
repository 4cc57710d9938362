import Mathlib.Data.Finset.Card
import Mathlib.Data.List.Induction
import Seudocodigo.Proofs.Stack.Soundness

/-! Scopes and what was asked of them, declaration by declaration. A scope can be kept in two parts,
the entries by their names and the names in the order in which they came; the two never fall out of
step, and together they show the first declaration of each name and nothing else. -/
namespace Seudocodigo

namespace NameMap

variable {α β : Type}

def map (f : α → β) (m : NameMap α) : NameMap β :=
  ⟨m.entries.map fun e => (e.1, f e.2), List.pairwise_map.2 m.ascending⟩

theorem find?_map (f : α → β) (m : NameMap α) (name : String) :
    (m.map f).find? name = (m.find? name).map f := by
  rw [find?, map, List.find?_map, Option.map_map, find?, Option.map_map]
  rfl

/-- Where a function changes nothing that it has changed before, mapping it twice does not
either. -/
theorem map_map_self {f : α → α} (h : ∀ a, f (f a) = f a) (m : NameMap α) :
    (m.map f).map f = m.map f := by
  simp only [map, List.map_map, Function.comp_def, h]

end NameMap

namespace Local

/-- The number of cells that a variable can be given, if it is an array and not too large. -/
def room? (v : Local) : Option Nat :=
  if v.isArray then v.cellCount?.filter (· ≤ maxCells) else none

theorem room?_eq_some {v : Local} {cells : Nat} :
    v.room? = some cells ↔ v.isArray = true ∧ v.cellCount? = some cells ∧ cells ≤ maxCells := by
  rw [room?]
  split
  · next h => rw [Option.filter_eq_some_iff, decide_eq_true_iff, and_iff_right h]
  · next h => exact iff_of_false nofun fun hall => h hall.1

theorem allocate_eq (v : Local) : v.allocate =
    match v.room? with
    | some cells => { v with values := some (.replicate cells .uninitialized) }
    | none => v := by
  rw [allocate, room?]
  split
  · cases v.cellCount? with
    | none => rfl
    | some cells => by_cases hle : cells ≤ maxCells <;> simp [Option.filter, hle]
  · rfl

/-- An array that is not too large gets as many cells as it has room for. -/
theorem values_allocate_of_le {v : Local} {cells : Nat} (harray : v.isArray = true)
    (hcells : v.cellCount? = some cells) (hle : cells ≤ maxCells) :
    v.allocate.values = some (.replicate cells .uninitialized) := by
  rw [v.allocate_eq, room?_eq_some.2 ⟨harray, hcells, hle⟩]

/-- The cells of anything else are left as they are. -/
theorem values_allocate_of_lt {v : Local}
    (h : ∀ cells, v.isArray = true → v.cellCount? = some cells → maxCells < cells) :
    v.allocate.values = v.values := by
  rw [v.allocate_eq]
  cases hroom : v.room? with
  | none => rfl
  | some cells =>
    obtain ⟨harray, hcells, hle⟩ := room?_eq_some.1 hroom
    exact absurd hle (Nat.not_le.2 (h cells harray hcells))

/-- To give cells a second time makes no difference. -/
theorem allocate_allocate (v : Local) : v.allocate.allocate = v.allocate := by
  have hroom : v.allocate.room? = v.room? := by
    rw [allocate_eq]
    cases h : v.room? with
    | none => exact h
    | some cells => exact h
  rw [allocate_eq v.allocate, hroom]
  cases h : v.room? with
  | none => rfl
  | some cells => rw [allocate_eq, h]

end Local

namespace Scope

variable {s : Scope} {v : Local}

theorem ext_locals {s t : Scope} (h : s.locals = t.locals) : s = t := by
  cases s; cases t; cases h; rfl

theorem declare_cases (s : Scope) (v : Local) :
    (∃ earlier, s.find? v.name = some earlier ∧ s.declare v = (some earlier, s)) ∨
      s.find? v.name = none ∧ (s.declare v).1 = none ∧
        (s.declare v).2.locals = s.locals ++ [v] := by
  rw [declare]
  split
  · next earlier h => exact .inl ⟨earlier, h, rfl⟩
  · next h => exact .inr ⟨h, rfl, rfl⟩

/-- An entry is found by its name. -/
theorem find?_of_mem (h : v ∈ s.locals) : s.find? v.name = some v := by
  cases hw : s.find? v.name with
  | none => exact absurd (List.mem_map_of_mem h) (name_not_mem_of_find?_eq_none hw)
  | some w =>
    have hname : w.name = v.name := by simpa using List.find?_some hw
    rw [List.inj_on_of_nodup_map s.distinct (List.mem_of_find?_eq_some hw) h hname]

theorem find?_eq_none_iff {name : String} :
    s.find? name = none ↔ name ∉ s.locals.map (·.name) := by
  refine ⟨name_not_mem_of_find?_eq_none, fun h => List.find?_eq_none.2 fun v hv => ?_⟩
  rw [decide_eq_true_iff]
  exact fun hname => h (List.mem_map.2 ⟨v, hv, hname⟩)

inductive Step where
  | declare (v : Local)
  | allocate

namespace Step

def perform (s : Scope) : Step → Scope
  | .declare v => (s.declare v).2
  | .allocate => s.allocate

def name? : Step → Option String
  | .declare v => some v.name
  | .allocate => none

def isAllocation : Step → Bool
  | .declare _ => false
  | .allocate => true

def names (steps : List Step) : List String := steps.filterMap name?

/-- The entry that a step leaves if it has the given number among all steps: none if there was a
step of the same name before it. If there is an allocation behind it, the entry has got its
cells. -/
def entryAt? (steps : List Step) : Step × Nat → Option Local
  | (.declare v, i) =>
    if v.name ∈ names (steps.take i) then none
    else some (if (steps.drop i).any isAllocation then v.allocate else v)
  | (.allocate, _) => none

def entries (steps : List Step) : List Local := steps.zipIdx.filterMap (entryAt? steps)

end Step

def after (steps : List Step) : Scope := steps.foldl Step.perform empty

namespace Step

variable {steps : List Step}

theorem names_concat (steps : List Step) (step : Step) :
    names (steps ++ [step]) = names steps ++ step.name?.toList := by
  rw [names, List.filterMap_append, names]
  cases step <;> rfl

/-- One more step makes no difference to the entries before it, unless it is an allocation. -/
theorem entryAt?_concat {x : Step × Nat} (hx : x ∈ steps.zipIdx) (step : Step) :
    entryAt? (steps ++ [step]) x =
      (entryAt? steps x).map fun v => if step.isAllocation then v.allocate else v := by
  obtain ⟨earlier, i⟩ := x
  have hle : i ≤ steps.length :=
    Nat.le_of_lt (List.getElem?_eq_some_iff.1 (List.mem_zipIdx_iff_getElem?.1 hx)).1
  cases earlier with
  | allocate => rfl
  | declare v =>
    rw [entryAt?, entryAt?, List.take_append_of_le_length hle, List.drop_append_of_le_length hle,
      List.any_append, List.any_cons, List.any_nil, Bool.or_false]
    split
    · rfl
    · cases (steps.drop i).any isAllocation <;> cases step.isAllocation <;>
        simp [Local.allocate_allocate]

theorem entries_concat (steps : List Step) (step : Step) :
    entries (steps ++ [step]) =
      (entries steps).map (fun v => if step.isAllocation then v.allocate else v) ++
        match step with
        | .declare v => if v.name ∈ names steps then [] else [v]
        | .allocate => [] := by
  rw [entries, List.zipIdx_append, List.zipIdx_singleton, Nat.zero_add, List.filterMap_append,
    entries, List.map_filterMap, List.filterMap_congr fun _ hx => entryAt?_concat hx step]
  refine congrArg (_ ++ ·) ?_
  cases step with
  | allocate => rfl
  | declare v =>
    by_cases hv : v.name ∈ names steps <;> simp [entryAt?, hv, isAllocation]

end Step

theorem after_concat (steps : List Step) (step : Step) :
    after (steps ++ [step]) = step.perform (after steps) := by
  rw [after, List.foldl_append]
  rfl

/-- The entries of a scope are those that the steps to it leave, one for each name. -/
theorem locals_after (steps : List Step) :
    (after steps).locals = Step.entries steps ∧
      ∀ name, name ∈ (after steps).locals.map (·.name) ↔ name ∈ Step.names steps := by
  induction steps using List.reverseRecOn with
  | nil => exact ⟨rfl, fun _ => Iff.rfl⟩
  | append_singleton steps step ih =>
    obtain ⟨hlocals, hnames⟩ := ih
    rw [after_concat, Step.entries_concat, Step.names_concat, ← hlocals]
    cases step with
    | allocate =>
      have hsame : ((after steps).locals.map Local.allocate).map (·.name) =
          (after steps).locals.map (·.name) := by
        simp
      refine ⟨(List.append_nil _).symm, fun name => ?_⟩
      rw [Step.perform, allocate, hsame, hnames]
      simp [Step.name?]
    | declare v =>
      simp only [Step.perform, Step.isAllocation, Bool.false_eq_true, if_false, List.map_id',
        Step.name?, Option.toList_some, List.mem_append, List.mem_singleton]
      obtain ⟨earlier, hfind, hdeclare⟩ | ⟨hfind, -, hnew⟩ := declare_cases (after steps) v
      · have hv : v.name ∈ Step.names steps := by
          rw [← hnames]
          by_contra hnot
          rw [find?_eq_none_iff.2 hnot] at hfind
          cases hfind
        rw [hdeclare, if_pos hv, List.append_nil]
        refine ⟨rfl, fun name => ?_⟩
        rw [hnames, or_iff_left_of_imp]
        rintro rfl
        exact hv
      · have hv : v.name ∉ Step.names steps := by
          rw [← hnames]
          exact find?_eq_none_iff.1 hfind
        rw [hnew, if_neg hv]
        refine ⟨rfl, fun name => ?_⟩
        rw [List.map_append, List.mem_append, hnames, List.map_singleton, List.mem_singleton]

/-- A scope has as many entries as there were names. -/
theorem size_after (steps : List Step) :
    (after steps).size = (Step.names steps).toFinset.card := by
  have hsame : ((after steps).locals.map (·.name)).toFinset = (Step.names steps).toFinset := by
    ext name
    rw [List.mem_toFinset, List.mem_toFinset, (locals_after steps).2]
  rw [← hsame, List.toFinset_card_of_nodup (after steps).distinct, List.length_map, size]

theorem allocate_allocate (s : Scope) : s.allocate.allocate = s.allocate := by
  refine ext_locals ?_
  show (s.locals.map Local.allocate).map Local.allocate = s.locals.map Local.allocate
  rw [List.map_map]
  exact List.map_congr_left fun v _ => v.allocate_allocate

end Scope

/-- A scope in two parts. -/
structure Register where
  entries : NameMap Local
  names : List String

namespace Register

def empty : Register := ⟨.empty, []⟩

def find? (t : Register) (name : String) : Option Local := t.entries.find? name

def contains (t : Register) (name : String) : Bool := t.entries.contains name

def size (t : Register) : Nat := t.names.length

def toList (t : Register) : List Local := t.names.filterMap t.find?

def declare (t : Register) (v : Local) : Option Local × Register :=
  if t.contains v.name then (t.find? v.name, t)
  else (none, ⟨t.entries.insert v.name v, t.names ++ [v.name]⟩)

def allocate (t : Register) : Register := ⟨t.entries.map Local.allocate, t.names⟩

def perform (t : Register) : Scope.Step → Register
  | .declare v => (t.declare v).2
  | .allocate => t.allocate

def after (steps : List Scope.Step) : Register := steps.foldl perform empty

theorem declare_of_find? {t : Register} {v earlier : Local} (h : t.find? v.name = some earlier) :
    t.declare v = (some earlier, t) := by
  have hcontains : t.contains v.name = true := congrArg Option.isSome h
  rw [declare, if_pos hcontains, h]

/-- The two parts are in step with each other and with a scope. -/
structure Shows (t : Register) (s : Scope) : Prop where
  names : t.names = s.locals.map (·.name)
  find? : ∀ name, t.find? name = s.find? name

namespace Shows

variable {t : Register} {s : Scope}

theorem size (h : Shows t s) : t.size = s.size := by
  rw [Register.size, h.names, List.length_map, Scope.size]

theorem contains (h : Shows t s) (name : String) : t.contains name = s.contains name :=
  congrArg Option.isSome (h.find? name)

theorem toList (h : Shows t s) : t.toList = s.toList := by
  have hfind : ∀ v ∈ s.locals, (t.find? ∘ fun v : Local => v.name) v = some v := fun v hv => by
    rw [Function.comp_apply, h.find?, Scope.find?_of_mem hv]
  rw [Register.toList, h.names, List.filterMap_map, List.filterMap_congr hfind, List.filterMap_some,
    Scope.toList]

/-- Both give the same answer to a declaration, and stay in step. -/
theorem declare (h : Shows t s) (v : Local) :
    (t.declare v).1 = (s.declare v).1 ∧ Shows (t.declare v).2 (s.declare v).2 := by
  have hcontains : t.contains v.name = (s.find? v.name).isSome := h.contains v.name
  rw [Register.declare, hcontains]
  obtain ⟨earlier, hfind, hdeclare⟩ | ⟨hfind, hnone, hnew⟩ := s.declare_cases v
  · rw [hfind, hdeclare, Option.isSome_some, if_pos rfl, h.find?, hfind]
    exact ⟨rfl, h⟩
  · rw [hfind, Option.isSome_none, if_neg Bool.false_ne_true]
    refine ⟨hnone.symm, ?_, fun name => ?_⟩
    · rw [hnew, List.map_append, ← h.names, List.map_singleton]
    · have hold : t.entries.find? name = s.locals.find? (·.name = name) := h.find? name
      rw [Register.find?, NameMap.find?_insert, Scope.find?, hnew, List.find?_append, hold]
      by_cases hname : v.name = name
      · rw [if_pos hname, ← hname, show s.locals.find? (·.name = v.name) = none from hfind]
        simp
      · simp [hname]

theorem allocate (h : Shows t s) : Shows t.allocate s.allocate where
  names := by
    rw [Register.allocate, Scope.allocate, h.names]
    simp
  find? name := by
    rw [Scope.find?_allocate, ← h.find?, Register.find?, Register.allocate, NameMap.find?_map]
    rfl

end Shows

theorem shows_after (steps : List Scope.Step) : Shows (after steps) (.after steps) := by
  induction steps using List.reverseRecOn with
  | nil => exact ⟨rfl, fun _ => rfl⟩
  | append_singleton steps step ih =>
    have hlast : after (steps ++ [step]) = perform (after steps) step := by
      rw [after, List.foldl_append]
      rfl
    rw [hlast, Scope.after_concat]
    cases step with
    | declare v => exact (ih.declare v).2
    | allocate => exact ih.allocate

theorem allocate_allocate (t : Register) : t.allocate.allocate = t.allocate := by
  rw [allocate, allocate, NameMap.map_map_self Local.allocate_allocate]

/-- Names are looked up among the entries listed. -/
theorem lookup_after (steps : List Scope.Step) (name : String) :
    (after steps).find? name = (after steps).toList.find? (·.name = name) ∧
      (after steps).contains name = (after steps).toList.any (·.name = name) := by
  have h := shows_after steps
  rw [h.toList, h.contains, h.find?]
  exact ⟨rfl, List.isSome_find?⟩

/-- A declaration finds the entry of its name if there was one of that name before. -/
theorem declare_after (steps : List Scope.Step) (v : Local) :
    (v.name ∈ Scope.Step.names steps → ∃ earlier, (after steps).find? v.name = some earlier ∧
      (after steps).declare v = (some earlier, after steps) ∧
        (Scope.after steps).declare v = (some earlier, .after steps)) ∧
    (v.name ∉ Scope.Step.names steps →
      ((after steps).declare v).1 = none ∧ ((Scope.after steps).declare v).1 = none) := by
  have h := shows_after steps
  rw [← (Scope.locals_after steps).2]
  constructor
  · intro hv
    obtain ⟨earlier, hfind, hdeclare⟩ | ⟨hfind, -⟩ := (Scope.after steps).declare_cases v
    · have htaken : (after steps).find? v.name = some earlier := (h.find? v.name).trans hfind
      exact ⟨earlier, htaken, declare_of_find? htaken, hdeclare⟩
    · exact absurd hv (Scope.find?_eq_none_iff.1 hfind)
  · intro hv
    obtain ⟨earlier, hfind, -⟩ | ⟨-, hnone, -⟩ := (Scope.after steps).declare_cases v
    · rw [Scope.find?_eq_none_iff.2 hv] at hfind
      cases hfind
    · exact ⟨(h.declare v).1.trans hnone, hnone⟩

end Register

/-- Where declarations and allocations lead from an empty scope, kept in two parts or in one. There
are as many entries as names were declared; they are the first ones of their names, in the order in
which they came, with cells if there was an allocation later. Names are looked up among the entries
listed. A name that is taken is answered with its entry, and nothing changes. An allocation gives
the arrays that are not too large their cells, changes nothing else, and a second one makes no
difference. -/
theorem scope_after_steps (steps : List Scope.Step) :
    let t := Register.after steps
    let s := Scope.after steps
    (t.toList = s.toList ∧ t.size = s.size ∧
      ∀ name, t.find? name = s.find? name ∧ t.contains name = s.contains name) ∧
    (t.size = (Scope.Step.names steps).toFinset.card ∧
      t.toList = Scope.Step.entries steps ∧ (t.toList.map (·.name)).Nodup ∧
      ∀ name, name ∈ t.toList.map (·.name) ↔ name ∈ Scope.Step.names steps) ∧
    (∀ name, t.find? name = t.toList.find? (·.name = name) ∧
      t.contains name = t.toList.any (·.name = name)) ∧
    (∀ v : Local,
      (v.name ∈ Scope.Step.names steps → ∃ earlier, t.find? v.name = some earlier ∧
        t.declare v = (some earlier, t) ∧ s.declare v = (some earlier, s)) ∧
      (v.name ∉ Scope.Step.names steps → (t.declare v).1 = none ∧ (s.declare v).1 = none)) ∧
    (t.allocate.toList = t.toList.map Local.allocate ∧ s.allocate.toList = t.allocate.toList ∧
      t.allocate.allocate = t.allocate ∧ s.allocate.allocate = s.allocate) ∧
    ∀ v : Local, v.allocate.toVariable = v.toVariable ∧
      (∀ cells, v.isArray = true → v.cellCount? = some cells → cells ≤ Nat.pow 2 24 →
        v.allocate.values = some (.replicate cells .uninitialized)) ∧
      ((∀ cells, v.isArray = true → v.cellCount? = some cells → Nat.pow 2 24 < cells) →
        v.allocate.values = v.values) := by
  intro t s
  have h : Register.Shows t s := Register.shows_after steps
  obtain ⟨hlocals, hnames⟩ := Scope.locals_after steps
  have hlist : t.toList = s.locals := h.toList
  refine ⟨⟨h.toList, h.size, fun name => ⟨h.find? name, h.contains name⟩⟩,
    ⟨h.size.trans (Scope.size_after steps), hlist.trans hlocals, ?_, ?_⟩,
    Register.lookup_after steps, Register.declare_after steps,
    ⟨?_, h.allocate.toList.symm, t.allocate_allocate, s.allocate_allocate⟩,
    fun v => ⟨v.toVariable_allocate, fun _ => Local.values_allocate_of_le,
      Local.values_allocate_of_lt⟩⟩
  · rw [hlist]
    exact s.distinct
  · rw [hlist]
    exact hnames
  · rw [h.allocate.toList, hlist]
    rfl

def entryNamed (name : String) (atom : Atom) (dims : List Nat) (values : Option (Array Value)) :
    Local :=
  ⟨⟨name, atom, dims, false, ⟨1, 1⟩⟩, values⟩

/-- Between two allocations one name is declared again, and an array that is too large. The last
array is declared too late to get cells. -/
def scatteredSteps : List Scope.Step :=
  [.declare (entryNamed "n" .integer [] none),
    .declare (entryNamed "m" .integer [2, 3] (some #[.integer 1])), .allocate,
    .declare (entryNamed "n" .real [5] none),
    .declare (entryNamed "w" .real [maxCells, 2] (some #[.boolean true])), .allocate,
    .declare (entryNamed "late" .logical [4] none)]

theorem scope_after_scatteredSteps :
    let t := Register.after scatteredSteps
    let again := entryNamed "m" .real [] none
    t.size = 4 ∧
      (t.toList.map fun v => (v.name, v.atom, v.dims, v.values.map (·.size))) =
        [("n", .integer, [], none), ("m", .integer, [2, 3], some 6),
          ("w", .real, [maxCells, 2], some 1), ("late", .logical, [4], none)] ∧
      again.name ∈ Scope.Step.names scatteredSteps ∧
      ∃ earlier, t.find? "m" = some earlier ∧ t.declare again = (some earlier, t) := by
  intro t again
  obtain ⟨-, ⟨hsize, hlist, -⟩, -, hdeclare, -⟩ := scope_after_steps scatteredSteps
  have hagain : again.name ∈ Scope.Step.names scatteredSteps := by decide
  obtain ⟨earlier, hfind, htaken, -⟩ := (hdeclare again).1 hagain
  refine ⟨?_, ?_, hagain, earlier, hfind, htaken⟩
  · rw [hsize]
    decide
  · rw [hlist]
    decide

end Seudocodigo
