import Mathlib.Algebra.Order.Ring.Int
import Seudocodigo.Proofs.Hoisting

/-! From the lengths of an array to its cells. The product is formed step by step, in the parser and
once more in the scope, with numbers of 64 bits; what comes out is the exact product or nothing. -/
namespace Seudocodigo

open Parse

structure Number where
  token : Token
  value : Int
  kind : token.kind = .integer value

namespace Number

inductive Spelled : List Token → Number → Prop where
  | mk (l : Number) : Spelled [l.token] l

def refusal (l : Number) : SyntaxError :=
  if l.value ≤ 0 then .ofToken l.token ["positive integer"] none
  else .ofToken l.token ["smaller dimensions"] (some .arrayTooLarge)

end Number

/-- The numbers can be lengths behind others that give the stated number of cells. -/
structure Fits (cells : Nat) (ns : List Int) : Prop where
  positive : ∀ n ∈ ns, 0 < n
  bounded : cells * ns.prod ≤ maxCells

instance (cells : Nat) (ns : List Int) : Decidable (Fits cells ns) :=
  decidable_of_iff ((∀ n ∈ ns, 0 < n) ∧ cells * ns.prod ≤ maxCells)
    ⟨fun h => ⟨h.1, h.2⟩, fun h => ⟨h.1, h.2⟩⟩

section Fits

variable {cells : Nat} {n : Int} {ms ns : List Int}

theorem fits_nil : Fits cells [] ↔ cells ≤ maxCells := by
  constructor
  · intro h
    have hle := h.bounded
    rw [List.prod_nil, mul_one] at hle
    exact_mod_cast hle
  · intro h
    refine ⟨nofun, ?_⟩
    rw [List.prod_nil, mul_one]
    exact_mod_cast h

theorem fits_cons : Fits cells (n :: ns) ↔ 0 < n ∧ Fits (cells * n.toNat) ns := by
  have hprod (hn : 0 < n) : (cells : Int) * (n :: ns).prod = (cells * n.toNat : Nat) * ns.prod := by
    rw [List.prod_cons, Int.natCast_mul, Int.toNat_of_nonneg (Int.le_of_lt hn), mul_assoc]
  constructor
  · intro ⟨hpos, hle⟩
    obtain ⟨hn, hns⟩ := List.forall_mem_cons.1 hpos
    exact ⟨hn, hns, hprod hn ▸ hle⟩
  · intro ⟨hn, hns, hle⟩
    exact ⟨List.forall_mem_cons.2 ⟨hn, hns⟩, hprod hn ▸ hle⟩

/-- Numbers that fit do so without those behind them. -/
theorem Fits.left (h : Fits cells (ms ++ ns)) : Fits cells ms := by
  obtain ⟨hpos, hle⟩ := h
  obtain ⟨hms, hns⟩ := List.forall_mem_append.1 hpos
  refine ⟨hms, le_trans ?_ hle⟩
  have hone : 1 ≤ ns.prod := Int.add_one_le_of_lt (List.prod_pos hns)
  have hcells : 0 ≤ (cells : Int) * ms.prod :=
    mul_nonneg (Int.natCast_nonneg _) (Int.le_of_lt (List.prod_pos hms))
  rw [List.prod_append, ← mul_assoc]
  exact le_mul_of_one_le_right hcells hone

end Fits

namespace Variable

variable {cells : Nat} {ts us : List Token} {l : Number} {ls : List Number} {d : Cursor}

/-- A number is passed just if it fits. -/
theorem outcome_dimensionList (cells n : Nat) (l : Number) (us : List Token) (d : Cursor) :
    (dimensionList cells (n + 1)).outcome (.before (l.token :: us) d) =
      if Fits cells [l.value] then
        (do
          if ← takeSymbol .comma then
            let dims ← dimensionList (cells * l.value.toNat) n
            return l.value.toNat :: dims
          else return [l.value.toNat] : Parse (List Nat)).outcome (.before us d)
      else (.error l.refusal, .before (l.token :: us) d) := by
  have hfits : Fits cells [l.value] ↔ 0 < l.value ∧ cells * l.value.toNat ≤ maxCells := by
    rw [fits_cons, fits_nil]
  rw [dimensionList, outcome_current_bind, Cursor.current_before_cons, l.kind, Number.refusal]
  dsimp only
  by_cases hpos : l.value ≤ 0
  · rw [if_pos hpos, if_pos hpos, if_neg fun h => by have := (hfits.1 h).1; omega]
    rfl
  · rw [if_neg hpos, if_neg hpos]
    cases hcells : cellsWithin? cells l.value.toNat with
    | none =>
      have hlarge := cellsWithin?_eq_none.1 hcells
      rw [if_neg fun h => Nat.not_le.2 hlarge (hfits.1 h).2]
      rfl
    | some total =>
      obtain ⟨rfl, hle⟩ := cellsWithin?_eq_some.1 hcells
      rw [if_pos (hfits.2 ⟨by omega, hle⟩)]
      exact outcome_bind_of_ok (advance_before (by simp [l.kind]))

/-- Numbers are read if they fit, and else the first with which they do not is refused. -/
theorem dimensionList_numbers {n : Nat} (hls : Listed Number.Spelled ts ls) (hn : ts.length < n)
    (hcells : cells ≤ maxCells) (hd : d.current.kind ≠ .symbol .comma) :
    let ns := ls.map (·.value)
    let r := (dimensionList cells n).outcome (.before ts d)
    Fits cells ns ∧ r = (.ok (ns.map Int.toNat), d) ∨
      ∃ i l, ls[i]? = some l ∧ Fits cells (ns.take i) ∧ ¬ Fits cells (ns.take (i + 1)) ∧
        r.1 = .error l.refusal := by
  induction hls generalizing n cells with
  | @one _ l hl =>
    cases hl
    cases n with
    | zero => omega
    | succ n =>
      rw [outcome_dimensionList]
      by_cases hfits : Fits cells [l.value]
      · rw [if_pos hfits, Cursor.before_nil, outcome_bind_of_ok (takeSymbol_not_here hd)]
        exact .inl ⟨hfits, rfl⟩
      · rw [if_neg hfits]
        exact .inr ⟨0, l, rfl, fits_nil.2 hcells, hfits, rfl⟩
  | @more _ us _ l ls hl hcomma _ ih =>
    cases hl
    cases n with
    | zero => omega
    | succ n =>
      simp only [List.length_append, List.length_cons, List.length_nil] at hn
      rw [List.singleton_append, outcome_dimensionList]
      by_cases hfits : Fits cells [l.value]
      · obtain ⟨hpos, hnil⟩ := fits_cons.1 hfits
        rw [if_pos hfits, outcome_bind_of_ok (takeSymbol_before hcomma), if_pos rfl]
        obtain ⟨hall, hr⟩ | ⟨i, k, hk, hfront, hnot, hr⟩ := ih (n := n) (by omega) (fits_nil.1 hnil)
        · rw [outcome_bind_of_ok hr]
          exact .inl ⟨fits_cons.2 ⟨hpos, hall⟩, rfl⟩
        · exact .inr ⟨i + 1, k, hk, fits_cons.2 ⟨hpos, hfront⟩, fun h => hnot (fits_cons.1 h).2,
            outcome_bind_of_error hr⟩
      · rw [if_neg hfits]
        exact .inr ⟨0, l, rfl, fits_nil.2 hcells, hfits, rfl⟩

/-- Of the first numbers, up to the one at the given place, each is positive, and together they give
more cells than an array may have. -/
def Exceeds (ns : List Int) (i : Nat) : Prop :=
  (∀ n ∈ ns.take (i + 1), 0 < n) ∧ maxCells < (ns.take (i + 1)).prod

theorem fits_one {ns : List Int} : Fits 1 ns ↔ (∀ n ∈ ns, 0 < n) ∧ ns.prod ≤ maxCells := by
  constructor
  · intro ⟨hpos, hle⟩
    rw [Int.natCast_one, one_mul] at hle
    exact ⟨hpos, hle⟩
  · intro ⟨hpos, hle⟩
    refine ⟨hpos, ?_⟩
    rw [Int.natCast_one, one_mul]
    exact hle

/-- Numbers that fit do not exceed anywhere. -/
theorem not_exceeds_of_fits {ns : List Int} {i j : Nat} (h : Fits 1 (ns.take i)) (hj : j < i) :
    ¬ Exceeds ns j := by
  rintro ⟨-, hlarge⟩
  have hsplit := List.take_append_drop (j + 1) (ns.take i)
  rw [List.take_take, Nat.min_eq_left hj] at hsplit
  rw [← hsplit] at h
  exact not_le.2 hlarge (fits_one.1 h.left).2

/-- What a number is refused for that is the first with which others do not fit any more. -/
theorem reason_refusal {ns : List Int} {i : Nat} (hl : ns[i]? = some l.value)
    (hfront : Fits 1 (ns.take i)) (hnot : ¬ Fits 1 (ns.take (i + 1)))
    (hreason : l.refusal.reason = some .arrayTooLarge) :
    l.refusal = .ofToken l.token ["smaller dimensions"] (some .arrayTooLarge) ∧ Exceeds ns i := by
  rw [Number.refusal] at hreason ⊢
  by_cases hpos : l.value ≤ 0
  · rw [if_pos hpos] at hreason
    cases hreason
  · rw [if_neg hpos]
    have hall : ∀ n ∈ ns.take (i + 1), 0 < n := by
      rw [List.take_add_one, hl]
      exact List.forall_mem_append.2 ⟨hfront.positive, List.forall_mem_singleton.2 (by omega)⟩
    exact ⟨rfl, hall, not_le.1 fun hle => hnot (fits_one.2 ⟨hall, hle⟩)⟩

section Brackets

variable {t u : Token} (ht : t.kind = .symbol .leftBracket)
  (hls : Listed Number.Spelled us ls) (hu : u.kind = .symbol .rightBracket) (d : Cursor)
include ht hls hu

theorem parseDimensions_numbers :
    let ns := ls.map (·.value)
    let r := parseDimensions.outcome (.before (t :: us ++ [u]) d)
    Fits 1 ns ∧ r = (.ok (ns.map Int.toNat), d) ∨
      ∃ i l, ls[i]? = some l ∧ Fits 1 (ns.take i) ∧ ¬ Fits 1 (ns.take (i + 1)) ∧
        r.1 = .error l.refusal := by
  have hn : us.length < (Cursor.before us (.before [u] d)).rest.length + 1 := by
    rw [Cursor.length_rest_before]
    omega
  have hd : (Cursor.before [u] d).current.kind ≠ .symbol .comma := by simp [hu]
  intro ns r
  have hr : r = parseDimensions.outcome (.before (t :: us ++ [u]) d) := rfl
  rw [parseDimensions, List.cons_append, outcome_bind_of_ok (takeSymbol_before ht), if_pos rfl,
    outcome_budget_bind, Cursor.before_append] at hr
  obtain ⟨hall, hlist⟩ | ⟨i, l, hl, hfront, hnot, hlist⟩ :=
    dimensionList_numbers hls hn (show 1 ≤ maxCells by decide) hd
  · rw [outcome_bind_of_ok hlist, outcome_bind_of_ok (symbol_before hu _)] at hr
    exact .inl ⟨hall, hr⟩
  · exact .inr ⟨i, l, hl, hfront, hnot, by rw [hr, outcome_bind_of_error hlist]⟩

theorem parseDimensions_eq_ok {dims : List Nat} {e : Cursor} :
    let ns := ls.map (·.value)
    parseDimensions.outcome (.before (t :: us ++ [u]) d) = (.ok dims, e) ↔
      Fits 1 ns ∧ dims = ns.map Int.toNat ∧ e = d := by
  intro ns
  obtain ⟨hall, hr⟩ | ⟨i, l, -, -, hnot, hr⟩ := parseDimensions_numbers ht hls hu d
  · rw [hr]
    constructor
    · intro hok
      cases hok
      exact ⟨hall, rfl, rfl⟩
    · rintro ⟨-, rfl, rfl⟩
      rfl
  · constructor
    · intro hok
      rw [hok] at hr
      cases hr
    · intro ⟨hall, _⟩
      rw [← List.take_append_drop (i + 1) ns] at hall
      exact absurd hall.left hnot

theorem parseDimensions_tooLarge {e : SyntaxError}
    (he : (parseDimensions.outcome (.before (t :: us ++ [u]) d)).1 = .error e)
    (hreason : e.reason = some .arrayTooLarge) :
    let ns := ls.map (·.value)
    ∃ i l, ls[i]? = some l ∧
      e = .ofToken l.token ["smaller dimensions"] (some .arrayTooLarge) ∧
      Exceeds ns i ∧ ∀ j < i, ¬ Exceeds ns j := by
  intro ns
  obtain ⟨-, hr⟩ | ⟨i, l, hl, hfront, hnot, hr⟩ := parseDimensions_numbers ht hls hu d
  · rw [hr] at he
    cases he
  · rw [hr] at he
    cases he
    have hvalue : ns[i]? = some l.value := by rw [List.getElem?_map, hl]; rfl
    obtain ⟨herror, hexceeds⟩ := reason_refusal hvalue hfront hnot hreason
    exact ⟨i, l, hl, herror, hexceeds, fun j hj => not_exceeds_of_fits hfront hj⟩

end Brackets

end Variable

/-- An array gets the cells that its dimensions give, and nothing else gets any. -/
theorem Local.cells_allocate (u : Local) (h : u.toVariable.Bounded) (hnone : u.values = none) :
    let v := u.allocate
    (v.isArray = true → v.cellCount? = some v.dims.prod ∧
      v.values = some (.replicate v.dims.prod .uninitialized)) ∧
      (v.isArray = false → v.values = none) := by
  intro v
  have hsame : v.toVariable = u.toVariable := u.toVariable_allocate
  refine ⟨fun harray => ⟨cellCount?_eq (hsame ▸ h), ?_⟩, fun hsimple => ?_⟩
  · rw [hsame] at harray ⊢
    exact values_allocate h harray
  · rw [hsame] at hsimple
    rw [show v.values = u.allocate.values from rfl, allocate, hsimple, if_neg Bool.false_ne_true]
    exact hnone

open Variable

/-- The variables of a module that is compiled are those of its scope, and they can get their
cells. -/
theorem Module.Spelled.exists_of_mem_scope {ts : List Token} {m : Module} (h : Module.Spelled ts m)
    {s : Signatures} {v : Local} (hv : v ∈ (m.hoisted.compile s).scope.toList) :
    ∃ w : Variable, w.Bounded ∧ v = (Local.ofVariable w).allocate := by
  obtain ⟨u, hu, rfl⟩ := List.mem_map.1 hv
  obtain hnone | ⟨w, hw, rfl⟩ := Scope.mem_declareAll hu
  · cases hnone
  · exact ⟨w, h.bounded w hw, rfl⟩

/-- The dimensions of an array are read if and only if they are positive and give, multiplied
without any bound, no more cells than an array may have. If they are refused as too large, it is the
first one with which they give more. So of a text that compiles, each array of a module, be it a
parameter or not, has exactly the cells that its dimensions give, all without a value, and nothing
else has any. -/
theorem cells_compile :
    (∀ (t u : Token) (us : List Token) (ls : List Number) (d : Cursor),
      t.kind = .symbol .leftBracket → Listed Number.Spelled us ls →
      u.kind = .symbol .rightBracket →
      let ns := ls.map (·.value)
      let r := parseDimensions.outcome (.before (t :: us ++ [u]) d)
      ((∃ dims e, r = (.ok dims, e)) ↔ (∀ n ∈ ns, 0 < n) ∧ ns.prod ≤ maxCells) ∧
        (∀ dims e, r = (.ok dims, e) → dims = ns.map Int.toNat ∧ e = d) ∧
        ∀ e, r.1 = .error e → e.reason = some .arrayTooLarge → ∃ i l, ls[i]? = some l ∧
          e = .ofToken l.token ["smaller dimensions"] (some .arrayTooLarge) ∧
          Exceeds ns i ∧ ∀ j < i, ¬ Exceeds ns j) ∧
    ∀ source compiled, compile source = .ok compiled → ∀ m ∈ compiled.all,
      (∀ w ∈ m.parameters, ∃ v ∈ m.scope.toList, v.toVariable = w) ∧
        ∀ v ∈ m.scope.toList,
          (v.isArray = true → v.cellCount? = some v.dims.prod ∧
            v.values = some (.replicate v.dims.prod .uninitialized)) ∧
          (v.isArray = false → v.values = none) := by
  refine ⟨fun t u us ls d ht hls hu => ?_, fun source compiled h m hm => ?_⟩
  · intro ns r
    have hok (dims e) : r = (.ok dims, e) ↔ _ := parseDimensions_eq_ok ht hls hu d
    refine ⟨?_, fun dims e hr => ((hok dims e).1 hr).2,
      fun e he hreason => parseDimensions_tooLarge ht hls hu d he hreason⟩
    rw [← fits_one]
    exact ⟨fun ⟨dims, e, hr⟩ => ((hok dims e).1 hr).1,
      fun hall => ⟨_, d, (hok _ d).2 ⟨hall, rfl, rfl⟩⟩⟩
  · obtain ⟨p, ts, -, hspelled, hreports, rfl⟩ := exists_of_compile h
    obtain ⟨n, hn, rfl⟩ := Program.exists_of_mem_all hm
    obtain ⟨us, hus⟩ := hspelled.spelled n hn
    refine ⟨fun w hw => ?_, fun v hv => ?_⟩
    · obtain ⟨ds, ss, hlaid⟩ := hus.laid
      have hscope := hlaid.toList_scope (p.reports_eq_nil.1 hreports n hn).1
      refine ⟨(Local.ofVariable w).allocate, List.mem_map_of_mem ?_, Local.toVariable_allocate _⟩
      rw [show n.hoisted.scope.locals = _ from hscope]
      exact List.mem_map_of_mem (List.mem_append_left _ hw)
    · obtain ⟨w, hw, rfl⟩ := hus.exists_of_mem_scope hv
      exact (Local.ofVariable w).cells_allocate hw rfl

def lengthAt (n : Int) (column : Nat) : Number :=
  ⟨⟨.integer n, toString n, ⟨1, column⟩⟩, n, rfl⟩

def arraysAndVariable : String :=
  "procedimiento p(ref real b[4])\ninicio\nfinprocedimiento\n"
    ++ "variables\nentero a[2, 3], i\ninicio\ni <- 1\nfin\n"

/-- Two lengths may be all that is allowed; a third one is refused then. -/
theorem cells_threeLengths :
    let ls := [lengthAt 4096 2, lengthAt 4096 7, lengthAt 2 12]
    let ns := ls.map (·.value)
    let bracket (s : Symbol) (column : Nat) : Token := ⟨.symbol s, s.text, ⟨1, column⟩⟩
    let us := [(lengthAt 4096 2).token, bracket .comma 6, (lengthAt 4096 7).token,
      bracket .comma 11, (lengthAt 2 12).token]
    let r := parseDimensions.outcome
      (.before (bracket .leftBracket 1 :: us ++ [bracket .rightBracket 13]) (.ofTokens []))
    (∀ n ∈ ns, 0 < n) ∧ (¬ ∃ dims e, r = (.ok dims, e)) ∧
      (∃ i l, ls[i]? = some l ∧ l.token.location = ⟨1, 12⟩ ∧
        r.1 = .error (.ofToken l.token ["smaller dimensions"] (some .arrayTooLarge)) ∧
        Exceeds ns i ∧ ∀ j < i, ¬ Exceeds ns j) ∧
      ∃ compiled, compile arraysAndVariable = .ok compiled ∧
        ∃ v ∈ compiled.main.scope.toList, v.values = some (.replicate 6 .uninitialized) := by
  intro ls ns bracket us r
  have hus : Listed Number.Spelled us ls :=
    .more (Number.Spelled.mk _) rfl (.more (Number.Spelled.mk _) rfl (.one (Number.Spelled.mk _)))
  obtain ⟨hdims, hprograms⟩ := cells_compile
  obtain ⟨haccepted, -, hrefused⟩ := hdims (bracket .leftBracket 1) (bracket .rightBracket 13)
    us ls (.ofTokens []) rfl hus rfl
  have hr : r.1 = .error (lengthAt 2 12).refusal := rfl
  obtain ⟨i, l, hl, herror, hexceeds⟩ := hrefused _ hr rfl
  have hplace : l.token.location = ⟨1, 12⟩ := (congrArg SyntaxError.location herror).symm
  have hcheck : (match compile arraysAndVariable with
      | .ok compiled => compiled.main.scope.toList.any fun v =>
        decide (v.isArray = true ∧ v.dims.prod = 6)
      | .error _ => false) = true := by decide +kernel
  refine ⟨by decide, fun hok => ?_, ⟨i, l, hl, hplace, by rw [hr, herror], hexceeds⟩, ?_⟩
  · exact absurd (haccepted.1 hok).2 (by decide)
  · cases hc : compile arraysAndVariable with
    | error e => rw [hc] at hcheck; cases hcheck
    | ok compiled =>
      rw [hc] at hcheck
      obtain ⟨v, hv, hsix⟩ := List.any_eq_true.1 hcheck
      obtain ⟨harray, hcells⟩ := of_decide_eq_true hsix
      obtain ⟨-, hstorage⟩ := hprograms _ compiled hc compiled.main List.mem_cons_self
      obtain ⟨-, hvalues⟩ := (hstorage v hv).1 harray
      exact ⟨compiled, rfl, v, hv, by rw [hvalues, hcells]⟩

end Seudocodigo
