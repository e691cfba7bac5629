/-!
Tables: lists of pairs that keep the order in which their keys were first inserted.

Values are found with `List.lookup`.  Main statements: an insertion and a removal are seen under
their own key and under no other, a key that is present keeps its place, and a new key comes last.
-/

namespace SmallLisp

/-- A list of keys with their values. -/
abbrev Table (α β : Type) := List (α × β)

namespace Table

variable {α β : Type} [BEq α]

/-- The table with `key` bound to `v`: in its old place if it has one, else at the end. -/
def insert (key : α) (v : β) : Table α β → Table α β
  | [] => [(key, v)]
  | (other, old) :: rest =>
      if other == key then (other, v) :: rest else (other, old) :: insert key v rest

/-- The table without `key`. -/
def erase (key : α) (table : Table α β) : Table α β :=
  table.filter fun (other, _) => !(other == key)

/-- The keys in order. -/
def keys (table : Table α β) : List α :=
  table.map Prod.fst

/-- What an insertion leaves in a table was there before or has the new value. -/
theorem mem_insert {key : α} {v : β} {table : Table α β} {entry : α × β}
    (h : entry ∈ insert key v table) : entry.2 = v ∨ entry ∈ table := by
  induction table with
  | nil => simp_all [insert]
  | cons first rest ih =>
    obtain ⟨other, old⟩ := first
    rw [insert] at h
    split at h
    · rcases List.mem_cons.mp h with rfl | hrest
      · exact Or.inl rfl
      · exact Or.inr (List.mem_cons_of_mem _ hrest)
    · rcases List.mem_cons.mp h with rfl | hrest
      · exact Or.inr List.mem_cons_self
      · exact (ih hrest).imp_right (List.mem_cons_of_mem _)

variable [LawfulBEq α]

theorem mem_of_lookup {key : α} {v : β} {table : Table α β} (h : table.lookup key = some v) :
    (key, v) ∈ table := by
  obtain ⟨before, after, rfl, -⟩ := List.lookup_eq_some_iff.mp h
  exact List.mem_append_right before List.mem_cons_self

theorem lookup_insert_self (key : α) (v : β) (table : Table α β) :
    (insert key v table).lookup key = some v := by
  induction table with
  | nil => simp [insert]
  | cons entry rest ih =>
    obtain ⟨other, old⟩ := entry
    by_cases h : other = key
    · simp [insert, h]
    · have hne : (key == other) = false := by simpa using Ne.symm h
      simp [insert, h, List.lookup_cons, hne, ih]

theorem lookup_insert_of_ne {key wanted : α} (h : wanted ≠ key) (v : β) (table : Table α β) :
    (insert key v table).lookup wanted = table.lookup wanted := by
  have hne : (wanted == key) = false := by simpa using h
  induction table with
  | nil => simp [insert, List.lookup_cons, hne]
  | cons entry rest ih =>
    obtain ⟨other, old⟩ := entry
    by_cases hkey : other = key
    · subst hkey; simp [insert, List.lookup_cons, hne]
    · simp [insert, hkey, List.lookup_cons, ih]

theorem lookup_erase_self (key : α) (table : Table α β) : (erase key table).lookup key = none := by
  rw [List.lookup_eq_none_iff]
  intro entry hentry
  have hne : entry.1 ≠ key := by simpa using (List.mem_filter.mp hentry).2
  simpa using hne.symm

theorem lookup_erase_of_ne {key wanted : α} (h : wanted ≠ key) (table : Table α β) :
    (erase key table).lookup wanted = table.lookup wanted := by
  induction table with
  | nil => rfl
  | cons entry rest ih =>
    obtain ⟨other, v⟩ := entry
    simp only [erase] at ih
    by_cases hkey : other = key
    · have hne : (wanted == other) = false := by simpa [hkey] using h
      simp [erase, hkey, List.lookup_cons, hkey ▸ hne, ih]
    · simp [erase, hkey, List.lookup_cons, ih]

/-- A key that is present keeps its place. -/
theorem keys_insert_of_mem {key : α} (v : β) {table : Table α β} (h : key ∈ keys table) :
    keys (insert key v table) = keys table := by
  induction table with
  | nil => simp [keys] at h
  | cons entry rest ih =>
    obtain ⟨other, old⟩ := entry
    by_cases hkey : other = key
    · simp [insert, keys, hkey]
    · have hrest : key ∈ keys rest := by simpa [keys, Ne.symm hkey] using h
      simpa [insert, keys, hkey] using ih hrest

/-- A new key comes last. -/
theorem keys_insert_of_not_mem {key : α} (v : β) {table : Table α β} (h : key ∉ keys table) :
    keys (insert key v table) = keys table ++ [key] := by
  induction table with
  | nil => simp [insert, keys]
  | cons entry rest ih =>
    obtain ⟨other, old⟩ := entry
    have hkey : other ≠ key := by
      rintro rfl
      simp [keys] at h
    have hrest : key ∉ keys rest := by
      intro hmem
      simp only [keys] at hmem
      simp [keys, hmem] at h
    simpa [insert, keys, hkey] using ih hrest

theorem nodup_keys_insert (key : α) (v : β) {table : Table α β} (h : (keys table).Nodup) :
    (keys (insert key v table)).Nodup := by
  by_cases hkey : key ∈ keys table
  · rw [keys_insert_of_mem v hkey]
    exact h
  · rw [keys_insert_of_not_mem v hkey, List.nodup_append]
    refine ⟨h, by simp, ?_⟩
    rintro a ha b hb rfl
    exact hkey (List.mem_singleton.mp hb ▸ ha)

theorem keys_subset_insert (key : α) (v : β) (table : Table α β) :
    keys table ⊆ keys (insert key v table) := by
  by_cases h : key ∈ keys table
  · rw [keys_insert_of_mem v h]
    exact fun _ hmem => hmem
  · rw [keys_insert_of_not_mem v h]
    exact List.subset_append_left _ _

theorem mem_keys_insert (key : α) (v : β) (table : Table α β) :
    key ∈ keys (insert key v table) := by
  by_cases h : key ∈ keys table
  · exact keys_subset_insert key v table h
  · simp [keys_insert_of_not_mem v h]

end Table

end SmallLisp
