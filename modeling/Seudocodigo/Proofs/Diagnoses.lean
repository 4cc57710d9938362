import Seudocodigo.Proofs.Places.Reported
import Seudocodigo.Proofs.Token.Reprint

/-! What type errors say about types. The text of a type tells it from all other types, and whatever
is reported, the types that are named are really wrong. -/
namespace Seudocodigo

theorem Atom.eq_of_name {a b : Atom} (h : a.name.toList = b.name.toList) : a = b := by
  cases a <;> cases b <;> first | rfl | exact absurd h (by decide)

theorem Atom.ne_leftBracket_of_mem_name {a : Atom} {c : Char} (h : c ∈ a.name.toList) :
    c ≠ '[' := by
  have hall : a.name.toList.all (· ≠ '[') = true := by cases a <;> decide
  exact of_decide_eq_true (List.all_eq_true.1 hall c h)

namespace Ty

def brackets (dims : List Nat) : List Char :=
  dims.flatMap fun n => '[' :: Nat.toDigits 10 n ++ [']']

theorem brackets_cons (n : Nat) (dims : List Nat) :
    brackets (n :: dims) = '[' :: (Nat.toDigits 10 n ++ ']' :: brackets dims) := by
  simp [brackets]

theorem toList_text (t : Ty) : t.text.toList = t.base.name.toList ++ brackets t.dims := by
  rw [text, String.toList_append, String.toList_join, List.flatMap_map, brackets]
  refine congrArg (_ ++ ·) (List.flatMap_congr fun n _ => ?_)
  have hnumber : (toString n).toList = Nat.toDigits 10 n := by
    rw [Nat.toString_eq_ofList_toDigits, String.toList_ofList]
  show ("[" ++ toString n ++ "]").toList = _
  rw [String.toList_append, String.toList_append, hnumber]
  rfl

theorem toDigits_injective {m n : Nat} (h : Nat.toDigits 10 m = Nat.toDigits 10 n) : m = n := by
  calc
    m = Nat.ofDigitChars 10 (Nat.toDigits 10 m) 0 := Nat.ofDigitChars_ten_toDigits.symm
    _ = Nat.ofDigitChars 10 (Nat.toDigits 10 n) 0 := by rw [h]
    _ = n := Nat.ofDigitChars_ten_toDigits

theorem brackets_injective {ds es : List Nat} (h : brackets ds = brackets es) : ds = es := by
  induction ds generalizing es with
  | nil =>
    cases es with
    | nil => rfl
    | cons n es => rw [brackets_cons] at h; cases h
  | cons m ds ih =>
    cases es with
    | nil => rw [brackets_cons] at h; cases h
    | cons n es =>
      rw [brackets_cons, brackets_cons] at h
      have hends (k : Nat) (rest : List Char) :
          (Nat.toDigits 10 k ++ ']' :: rest).takeWhile Char.isDigit = Nat.toDigits 10 k ∧
            (Nat.toDigits 10 k ++ ']' :: rest).dropWhile Char.isDigit = ']' :: rest := by
        refine takeWhile_append_of_ends (fun c hc => ?_) fun c hc => ?_
        · exact Nat.isDigit_of_mem_toDigits (by decide) (by decide) hc
        · cases hc
          decide
      have hlists := (List.cons.inj h).2
      have hfirst := congrArg (List.takeWhile Char.isDigit) hlists
      have hrest := congrArg (List.dropWhile Char.isDigit) hlists
      rw [(hends m _).1, (hends n _).1] at hfirst
      rw [(hends m _).2, (hends n _).2] at hrest
      rw [toDigits_injective hfirst, ih (List.cons.inj hrest).2]

/-- Types with the same text are equal: the word of the scalar type ends at the first bracket, and
each length at the next one. -/
theorem text_inj {a b : Ty} : a.text = b.text ↔ a = b := by
  refine ⟨fun h => ?_, congrArg text⟩
  have hends (t : Ty) : (t.base.name.toList ++ brackets t.dims).takeWhile (· ≠ '[') =
        t.base.name.toList ∧
      (t.base.name.toList ++ brackets t.dims).dropWhile (· ≠ '[') = brackets t.dims := by
    refine takeWhile_append_of_ends (fun c hc => ?_) fun c hc => ?_
    · exact decide_eq_true (Atom.ne_leftBracket_of_mem_name hc)
    · cases hdims : t.dims with
      | nil => rw [hdims] at hc; cases hc
      | cons n dims => rw [hdims, brackets_cons] at hc; cases hc; rfl
  have hlists : a.base.name.toList ++ brackets a.dims = b.base.name.toList ++ brackets b.dims := by
    rw [← toList_text, ← toList_text, h]
  have hbase := congrArg (List.takeWhile (· ≠ '[')) hlists
  have hdims := congrArg (List.dropWhile (· ≠ '[')) hlists
  rw [(hends a).1, (hends b).1] at hbase
  rw [(hends a).2, (hends b).2] at hdims
  rw [← a.ofDims_base_dims, ← b.ofDims_base_dims, Atom.eq_of_name hbase, brackets_injective hdims]

end Ty

theorem Program.wrong_of_mem_reports {p : Program} {r : Report} (hr : r ∈ p.reports)
    {error : TypeError} (h : error ∈ r.errors) : error.problem.Wrong := by
  obtain ⟨m, hm, rfl⟩ := List.mem_map.1 (List.mem_of_mem_filter hr)
  obtain ⟨m, -, rfl⟩ := List.mem_map.1 hm
  exact (Module.justified_of_mem_report h).wrong

namespace TypeProblem

def types? : TypeProblem → Option (Ty × Ty)
  | .assignment expected received | .argument _ _ expected received
  | .resultType _ expected received => some (expected, received)
  | _ => none

def mismatches : List String :=
  ["assignment-incompatible-types", "call-wrong-argument-type", "function-bad-return-type"]

theorem exists_types_of_mismatch {problem : TypeProblem} (h : problem.tag ∈ mismatches) :
    ∃ expected received, problem.types? = some (expected, received) := by
  cases problem with
  | assignment expected received | argument _ _ expected received
  | resultType _ expected received => exact ⟨expected, received, rfl⟩
  | _ => exact absurd h (by simp [mismatches, tag])

theorem ne_of_types {problem : TypeProblem} (h : problem.Wrong) {expected received : Ty}
    (htypes : problem.types? = some (expected, received)) : expected ≠ received := by
  cases problem with
  | assignment target value =>
    cases htypes
    rintro rfl
    rw [TypeProblem.Wrong, Ty.accepts_self] at h
    cases h
  | argument _ _ _ _ | resultType _ _ _ => cases htypes; exact Ne.symm h
  | _ => cases htypes

end TypeProblem

/-- The text of a type tells it from all others. So an error that says which type was expected and
which one was found never says the same of both, and a type that is accepted in place of another one
reads differently. -/
theorem types_readable :
    (∀ a b : Ty, a.text = b.text ↔ a = b) ∧
    (∀ (p : Program), ∀ r ∈ p.reports, ∀ e ∈ r.errors, e.problem.tag ∈ TypeProblem.mismatches →
      ∃ expected received, e.problem.types? = some (expected, received) ∧
        expected.text ≠ received.text) ∧
    ∀ target value : Ty, target.accepts value = true → value ≠ target →
      value.text ≠ target.text := by
  refine ⟨fun a b => Ty.text_inj, fun p r hr e he htag => ?_, fun target value _ hne => ?_⟩
  · obtain ⟨expected, received, htypes⟩ := TypeProblem.exists_types_of_mismatch htag
    refine ⟨expected, received, htypes, fun htext => ?_⟩
    exact TypeProblem.ne_of_types (Program.wrong_of_mem_reports hr he) htypes (Ty.text_inj.1 htext)
  · exact fun htext => hne (Ty.text_inj.1 htext)

/-- A function that returns a real number in place of an integer, and a main module that assigns an
array of real numbers to one of integers and calls the function with a truth value. The assignment
the other way round is accepted. -/
def threeMismatches : String :=
  "entero funcion f(real x)\ninicio\nretornar x\nfinfuncion\n"
    ++ "variables\nentero a[12]\nreal b[12]\ninicio\na <- b\nb <- a\na[1] <- f(verdadero)\nfin\n"

def threeMismatchesFound : List Report :=
  [⟨"principal", [⟨.assignment (.array 12 .integer) (.array 12 .real), ⟨9, 1⟩⟩,
      ⟨.argument "f" 1 .real .logical, ⟨11, 11⟩⟩]⟩,
    ⟨"f", [⟨.resultType "f" .integer .real, ⟨3, 1⟩⟩]⟩]

theorem types_readable_threeMismatches :
    compile threeMismatches = .error (.types threeMismatchesFound) ∧
    (∀ r ∈ threeMismatchesFound, ∀ e ∈ r.errors, ∃ expected received,
      e.problem.types? = some (expected, received) ∧ expected.text ≠ received.text) ∧
    (Ty.array 12 .real).accepts (.array 12 .integer) = true ∧
      (Ty.array 12 .integer).text ≠ (Ty.array 12 .real).text := by
  have hcompile : compile threeMismatches = .error (.types threeMismatchesFound) := by
    have hmap : (compile threeMismatches).map (fun _ => ()) =
        .error (.types threeMismatchesFound) := by decide +kernel
    cases hsource : compile threeMismatches with
    | ok compiled => rw [hsource] at hmap; cases hmap
    | error other => rw [hsource] at hmap; cases hmap; rfl
  obtain ⟨-, p, -, -, hreports⟩ := exists_of_compile_types hcompile
  have htags : ∀ r ∈ threeMismatchesFound, ∀ e ∈ r.errors,
      e.problem.tag ∈ TypeProblem.mismatches := by decide
  refine ⟨hcompile, fun r hr e he => ?_, rfl, ?_⟩
  · exact types_readable.2.1 p r (hreports ▸ hr) e he (htags r hr e he)
  · exact types_readable.2.2 (.array 12 .real) (.array 12 .integer) rfl (by decide)

end Seudocodigo
