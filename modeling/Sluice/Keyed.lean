/-!
# Entries with text keys

A mapping from texts is a list of entries in ascending key order (by code point), each key once.
`Keyed.insert` keeps that form, so two mappings with the same content are the same list, and
`List.lookup` reads an entry back. In a mapping made from a list the later of two entries with one
key counts (`lookup_ofList`).
-/

namespace Sluice.Keyed

variable {α : Type}

/-- Ascending key order, each key once. -/
def Sorted (entries : List (String × α)) : Prop := entries.Pairwise fun a b => a.1 < b.1

/-- Sets the entry of `key`, in place if the key is there and in order if it is not. -/
def insert (key : String) (value : α) : List (String × α) → List (String × α)
  | [] => [(key, value)]
  | (k, v) :: rest =>
    if key < k then (key, value) :: (k, v) :: rest
    else if key = k then (key, value) :: rest
    else (k, v) :: insert key value rest

/-- The mapping with the given entries; of two entries with one key the later counts. -/
def ofList (entries : List (String × α)) : List (String × α) :=
  entries.foldl (fun result entry => insert entry.1 entry.2 result) []

/-- A key that was inserted has the value it was inserted with. -/
@[simp] theorem lookup_insert_self (key : String) (value : α) (entries : List (String × α)) :
    (insert key value entries).lookup key = some value := by
  induction entries with
  | nil => simp [insert]
  | cons entry rest ih =>
    obtain ⟨k, v⟩ := entry
    unfold insert
    by_cases hlt : key < k
    · simp [hlt]
    · by_cases heq : key = k
      · rw [if_neg hlt, if_pos heq]
        simp
      · have hbeq : (key == k) = false := by simpa using heq
        rw [if_neg hlt, if_neg heq, List.lookup_cons, hbeq]
        exact ih

/-- Inserting one key leaves the values of the others as they are. -/
theorem lookup_insert_of_ne {key other : String} (hne : other ≠ key) (value : α)
    (entries : List (String × α)) :
    (insert key value entries).lookup other = entries.lookup other := by
  have hbeq : (other == key) = false := by simpa using hne
  induction entries with
  | nil => simp [insert, List.lookup_cons, hbeq]
  | cons entry rest ih =>
    obtain ⟨k, v⟩ := entry
    unfold insert
    by_cases hlt : key < k
    · simp [hlt, List.lookup_cons, hbeq]
    · by_cases heq : key = k
      · subst heq
        rw [if_neg hlt, if_pos rfl]
        simp [List.lookup_cons, hbeq]
      · simp [hlt, heq, List.lookup_cons, ih]

/-- Inserting adds no entry but the inserted one. -/
theorem mem_insert {key : String} {value : α} {entries : List (String × α)} {entry : String × α}
    (h : entry ∈ insert key value entries) : entry = (key, value) ∨ entry ∈ entries := by
  induction entries with
  | nil => simpa [insert] using h
  | cons head rest ih =>
    obtain ⟨k, v⟩ := head
    unfold insert at h
    by_cases hlt : key < k
    · simpa [hlt] using h
    · by_cases heq : key = k
      · rw [if_neg hlt, if_pos heq] at h
        rcases List.mem_cons.mp h with hhead | hrest
        · exact Or.inl hhead
        · exact Or.inr (List.mem_cons_of_mem _ hrest)
      · rw [if_neg hlt, if_neg heq] at h
        rcases List.mem_cons.mp h with hhead | hrest
        · exact Or.inr (hhead ▸ List.mem_cons_self)
        · exact (ih hrest).imp_right (List.mem_cons_of_mem _)

/-- Setting an entry keeps the order. -/
theorem sorted_insert (key : String) (value : α) {entries : List (String × α)}
    (h : Sorted entries) : Sorted (insert key value entries) := by
  induction entries with
  | nil => simp [insert, Sorted]
  | cons entry rest ih =>
    obtain ⟨k, v⟩ := entry
    obtain ⟨hfirst, hrest⟩ := List.pairwise_cons.mp h
    unfold insert
    by_cases hlt : key < k
    · rw [if_pos hlt]
      refine List.pairwise_cons.mpr ⟨?_, h⟩
      intro other hother
      rcases List.mem_cons.mp hother with rfl | hmem
      · exact hlt
      · exact String.lt_trans hlt (hfirst other hmem)
    · by_cases heq : key = k
      · subst heq
        rw [if_neg hlt, if_pos rfl]
        exact List.pairwise_cons.mpr ⟨hfirst, hrest⟩
      · rw [if_neg hlt, if_neg heq]
        refine List.pairwise_cons.mpr ⟨?_, ih hrest⟩
        intro other hother
        rcases mem_insert hother with rfl | hmem
        · exact Decidable.byContradiction fun hle =>
            heq (String.le_antisymm (String.not_lt.mp hle) (String.not_lt.mp hlt))
        · exact hfirst other hmem

/-- Inserting entries one by one adds no other entries. -/
private theorem mem_foldl_insert {entries result : List (String × α)} {entry : String × α}
    (h : entry ∈ entries.foldl (fun result entry => insert entry.1 entry.2 result) result) :
    entry ∈ entries ∨ entry ∈ result := by
  induction entries generalizing result with
  | nil => exact Or.inr h
  | cons head rest ih =>
    rcases ih h with hrest | hinsert
    · exact Or.inl (List.mem_cons_of_mem _ hrest)
    · rcases mem_insert hinsert with rfl | hresult
      · exact Or.inl List.mem_cons_self
      · exact Or.inr hresult

/-- A mapping made from a list has no other entries. -/
theorem mem_ofList {entries : List (String × α)} {entry : String × α}
    (h : entry ∈ ofList entries) : entry ∈ entries :=
  (mem_foldl_insert h).resolve_right List.not_mem_nil

/-- Inserting entries one by one keeps a mapping in order. -/
private theorem sorted_foldl_insert (entries : List (String × α)) {result : List (String × α)}
    (h : Sorted result) :
    Sorted (entries.foldl (fun result entry => insert entry.1 entry.2 result) result) := by
  induction entries generalizing result with
  | nil => exact h
  | cons entry rest ih => exact ih (sorted_insert entry.1 entry.2 h)

/-- A mapping made from a list is in order. -/
theorem sorted_ofList (entries : List (String × α)) : Sorted (ofList entries) :=
  sorted_foldl_insert entries List.Pairwise.nil

/-- Of entries inserted one by one the last under a key counts, and before them the ones there
were. -/
private theorem lookup_foldl_insert (key : String) (entries result : List (String × α)) :
    (entries.foldl (fun result entry => insert entry.1 entry.2 result) result).lookup key =
      (entries.reverse.lookup key).or (result.lookup key) := by
  induction entries generalizing result with
  | nil => simp
  | cons entry rest ih =>
    obtain ⟨k, v⟩ := entry
    rw [List.foldl_cons, ih, List.reverse_cons, List.lookup_append, Option.or_assoc]
    congr 1
    by_cases heq : key = k
    · subst heq
      simp
    · have hbeq : (key == k) = false := by simpa using heq
      rw [lookup_insert_of_ne heq, List.lookup_cons, hbeq]
      simp

/-- Of the entries with one key the last is read back. -/
theorem lookup_ofList (key : String) (entries : List (String × α)) :
    (ofList entries).lookup key = entries.reverse.lookup key := by
  rw [ofList, lookup_foldl_insert]
  simp

end Sluice.Keyed
