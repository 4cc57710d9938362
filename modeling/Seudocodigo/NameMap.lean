/-! Maps from names, kept in ascending order of the names, so that maps with the same entries are
equal. Names are compared by code points. -/
namespace Seudocodigo

structure NameMap (α : Type) where
  entries : List (String × α)
  ascending : entries.Pairwise (·.1 < ·.1)

namespace NameMap

variable {α : Type}

def empty : NameMap α := ⟨[], .nil⟩

def find? (m : NameMap α) (name : String) : Option α :=
  (m.entries.find? (·.1 = name)).map (·.2)

def contains (m : NameMap α) (name : String) : Bool := (m.find? name).isSome

def toList (m : NameMap α) : List (String × α) := m.entries

def size (m : NameMap α) : Nat := m.entries.length

def insertEntry (name : String) (a : α) : List (String × α) → List (String × α)
  | [] => [(name, a)]
  | (key, b) :: es =>
    if name < key then (name, a) :: (key, b) :: es
    else if name = key then (name, a) :: es
    else (key, b) :: insertEntry name a es

theorem lt_of_not_lt_of_ne {a b : String} (h : ¬ a < b) (hne : a ≠ b) : b < a := by
  apply Classical.byContradiction
  intro hba
  exact hne (String.le_antisymm (String.not_lt.1 hba) (String.not_lt.1 h))

theorem lt_of_mem_insertEntry {key name : String} {a : α} {es : List (String × α)}
    (hn : key < name) (h : ∀ e ∈ es, key < e.1) : ∀ e ∈ insertEntry name a es, key < e.1 := by
  induction es with
  | nil => simpa [insertEntry] using hn
  | cons e es ih =>
    obtain ⟨k, b⟩ := e
    have hk : key < k := h (k, b) (by simp)
    have ht : ∀ e ∈ es, key < e.1 := fun e he => h e (by simp [he])
    intro e he
    simp only [insertEntry] at he
    split at he
    · rcases List.mem_cons.1 he with rfl | he
      · exact hn
      · exact h e he
    · split at he
      · rcases List.mem_cons.1 he with rfl | he
        · exact hn
        · exact ht e he
      · rcases List.mem_cons.1 he with rfl | he
        · exact hk
        · exact ih ht e he

theorem insertEntry_ascending (name : String) (a : α) {es : List (String × α)}
    (h : es.Pairwise (·.1 < ·.1)) : (insertEntry name a es).Pairwise (·.1 < ·.1) := by
  induction es with
  | nil => simp [insertEntry]
  | cons e es ih =>
    obtain ⟨key, b⟩ := e
    obtain ⟨hk, ht⟩ := List.pairwise_cons.1 h
    simp only [insertEntry]
    split
    · next hlt =>
      refine List.pairwise_cons.2 ⟨fun e he => ?_, h⟩
      rcases List.mem_cons.1 he with rfl | he
      · exact hlt
      · exact String.lt_trans hlt (hk e he)
    · next hlt =>
      split
      · next heq => subst heq; exact List.pairwise_cons.2 ⟨hk, ht⟩
      · next hne =>
        exact List.pairwise_cons.2
          ⟨lt_of_mem_insertEntry (lt_of_not_lt_of_ne hlt hne) hk, ih ht⟩

def insert (m : NameMap α) (name : String) (a : α) : NameMap α :=
  ⟨insertEntry name a m.entries, insertEntry_ascending name a m.ascending⟩

def ofList (es : List (String × α)) : NameMap α :=
  es.foldl (fun m e => m.insert e.1 e.2) empty

theorem find?_insertEntry (name key : String) (a : α) (es : List (String × α)) :
    ((insertEntry name a es).find? (·.1 = key)).map (·.2)
      = if name = key then some a else (es.find? (·.1 = key)).map (·.2) := by
  induction es with
  | nil => by_cases h : name = key <;> simp [insertEntry, h]
  | cons e es ih =>
    obtain ⟨k, b⟩ := e
    simp only [insertEntry]
    split
    · by_cases h : name = key <;> simp [h]
    · split
      · next h => subst h; by_cases h : name = key <;> simp [h]
      · next hne =>
        by_cases hk : k = key
        · subst hk; simp [hne]
        · simp [hk, ih]

theorem find?_insert (m : NameMap α) (name key : String) (a : α) :
    (m.insert name a).find? key = if name = key then some a else m.find? key :=
  find?_insertEntry name key a m.entries

end NameMap
end Seudocodigo
