/-! Sets of characters given as the runs of code points that make them up. -/
namespace Seudocodigo.Text

/-- Membership in a set given by its runs, each a first and a last code point, in ascending
order. -/
def inRuns : List (Nat × Nat) → Nat → Bool
  | [], _ => false
  | (first, last) :: runs, n => if n < first then false else n ≤ last || inRuns runs n

theorem inRuns_of_mem {runs : List (Nat × Nat)} {n : Nat} (h : inRuns runs n = true) :
    ∃ r ∈ runs, r.1 ≤ n ∧ n ≤ r.2 := by
  induction runs with
  | nil => simp [inRuns] at h
  | cons r runs ih =>
    obtain ⟨first, last⟩ := r
    simp only [inRuns] at h
    split at h
    · simp at h
    · rename_i hf
      rcases Bool.or_eq_true _ _ ▸ h with hl | hr
      · exact ⟨(first, last), by simp, by omega, by simpa using hl⟩
      · obtain ⟨r, hr, hb⟩ := ih hr
        exact ⟨r, by simp [hr], hb⟩

end Seudocodigo.Text
