/-! Text cut at every occurrence of a character. -/
namespace Seudocodigo.Text

def pieces (cut : Char) : List Char → List (List Char)
  | [] => [[]]
  | c :: cs =>
    if c = cut then [] :: pieces cut cs
    else match pieces cut cs with
      | [] => [[c]]
      | piece :: rest => (c :: piece) :: rest

theorem pieces_ne_nil (cut : Char) (cs : List Char) : pieces cut cs ≠ [] := by
  cases cs with
  | nil => simp [pieces]
  | cons c cs =>
    simp only [pieces]
    split
    · simp
    · split <;> simp

/-- Nothing but the cuts is lost. -/
theorem intercalate_pieces (cut : Char) (cs : List Char) :
    [cut].intercalate (pieces cut cs) = cs := by
  induction cs with
  | nil => simp [pieces]
  | cons c cs ih =>
    have hne := pieces_ne_nil cut cs
    rcases hp : pieces cut cs with _ | ⟨piece, rest⟩
    · exact absurd hp hne
    · rw [hp] at ih
      by_cases hc : c = cut
      · simp only [pieces, hc, if_true, hp]
        rw [← ih]
        simp [List.intercalate]
      · simp only [pieces, hc, if_false, hp]
        rw [← ih]
        cases rest <;> simp [List.intercalate]

theorem not_mem_of_mem_pieces {cut : Char} {cs piece : List Char} (h : piece ∈ pieces cut cs) :
    cut ∉ piece := by
  induction cs generalizing piece with
  | nil => simp_all [pieces]
  | cons c cs ih =>
    simp only [pieces] at h
    split at h
    · rcases List.mem_cons.1 h with rfl | h
      · simp
      · exact ih h
    · rename_i hc
      split at h
      · simp_all
        exact fun e => hc e.symm
      · rename_i hp
        rcases List.mem_cons.1 h with rfl | h
        · have := ih (by rw [hp]; exact List.mem_cons_self)
          simp [this]
          exact fun e => hc e.symm
        · exact ih (by rw [hp]; exact List.mem_cons_of_mem _ h)

end Seudocodigo.Text
