/-!
Finite maps from names. Both the scopes of the static analysis and those of a
running program are such maps, and so are the fields of an instance and the
methods of a class. A name has at most one entry.
-/

namespace Lox

structure Names (α : Type) where
  entries : List (String × α)
deriving Repr, DecidableEq

variable {α : Type}

/-- The entries with one of them set, in its old place or as the last. -/
def setEntry (name : String) (value : α) : List (String × α) → List (String × α)
  | [] => [(name, value)]
  | (other, old) :: rest =>
      if other = name then (name, value) :: rest else (other, old) :: setEntry name value rest

namespace Names

def empty : Names α := ⟨[]⟩

def find? (names : Names α) (name : String) : Option α := names.entries.lookup name

def contains (names : Names α) (name : String) : Bool := (names.find? name).isSome

def set (names : Names α) (name : String) (value : α) : Names α :=
  ⟨setEntry name value names.entries⟩

/-- The map with these entries, where a later one overrides an earlier one. -/
def ofList (entries : List (String × α)) : Names α :=
  entries.foldl (fun names entry => names.set entry.1 entry.2) empty

theorem find_empty (name : String) : (empty : Names α).find? name = none := rfl

theorem find_set (names : Names α) (name other : String) (value : α) :
    (names.set name value).find? other =
      if other = name then some value else names.find? other := by
  obtain ⟨entries⟩ := names
  simp only [find?, set]
  have skip (first : String) (old : α) (rest : List (String × α)) (different : ¬other = first) :
      List.lookup other ((first, old) :: rest) = List.lookup other rest := by
    simp [List.lookup_cons, beq_false_of_ne different]
  induction entries with
  | nil =>
      by_cases same : other = name
      · simp [setEntry, same]
      · simp [setEntry, skip, same]
  | cons entry rest induction =>
      obtain ⟨first, old⟩ := entry
      by_cases found : first = name
      · subst found
        by_cases same : other = first
        · simp [setEntry, same]
        · simp [setEntry, skip, same]
      · by_cases same : other = first
        · subst same
          simp [setEntry, found]
        · simp [setEntry, found, skip, same, induction]

theorem contains_set (names : Names α) (name other : String) (value : α) :
    (names.set name value).contains other = (decide (other = name) || names.contains other) := by
  simp only [contains, find_set]
  by_cases same : other = name <;> simp [same]

theorem find_fold_set (entries : List (String × α)) (names : Names α) (name : String) :
    (entries.foldl (fun names entry => names.set entry.1 entry.2) names).find? name =
      (entries.reverse.lookup name).or (names.find? name) := by
  induction entries generalizing names with
  | nil => rfl
  | cons entry rest induction =>
      obtain ⟨first, value⟩ := entry
      rw [List.foldl_cons, induction, List.reverse_cons, List.lookup_append, find_set]
      cases rest.reverse.lookup name with
      | some value => rfl
      | none =>
          rw [List.lookup_cons]
          by_cases same : name = first
          · simp [same]
          · simp [same, beq_false_of_ne same]

/-- The last entry of a name counts. -/
theorem find_of_list (entries : List (String × α)) (name : String) :
    (ofList entries).find? name = entries.reverse.lookup name := by
  rw [ofList, find_fold_set, find_empty, Option.or_none]

theorem mem_of_find {entries : List (String × α)} {name : String} {value : α}
    (found : (ofList entries).find? name = some value) : (name, value) ∈ entries := by
  rw [find_of_list, List.lookup_eq_some_iff] at found
  obtain ⟨before, after, same, -⟩ := found
  rw [← List.mem_reverse, same]
  simp

theorem contains_of_list (entries : List (String × α)) (name : String) :
    (ofList entries).contains name = true ↔ name ∈ entries.map Prod.fst := by
  rw [contains, find_of_list, List.lookup_isSome_iff, List.mem_map]
  simp only [List.mem_reverse, beq_iff_eq, eq_comm (a := name)]

end Names

end Lox
