/-!
# Dictionaries

Lists of keys with values, in ascending order of the keys, no key twice. Text keys are ordered by
code points, which is also the order of their UTF-8 bytes.
-/

namespace Lineage

/-- Keys with values, in ascending order of the keys. -/
abbrev Dictionary (κ α : Type) := List (κ × α)

namespace Dictionary

variable {κ α : Type} [LT κ] [DecidableLT κ] [DecidableEq κ]

/-- Binds a key, in place of any earlier value. -/
def insert (key : κ) (value : α) : Dictionary κ α → Dictionary κ α
  | [] => [(key, value)]
  | (k, v) :: rest =>
    if key = k then (key, value) :: rest
    else if key < k then (key, value) :: (k, v) :: rest
    else (k, v) :: insert key value rest

def find? (key : κ) (d : Dictionary κ α) : Option α :=
  (List.find? (fun entry => decide (entry.1 = key)) d).map Prod.snd

/-- Binds the keys of a list in turn, so that the last value of a key stays. -/
def ofList (entries : List (κ × α)) : Dictionary κ α :=
  entries.foldl (fun d (k, v) => insert k v d) []

def keys (d : Dictionary κ α) : List κ := d.map Prod.fst

/-! ### Looking up -/

omit [LT κ] [DecidableLT κ] in
theorem find?_cons (key k : κ) (v : α) (d : Dictionary κ α) :
    find? key ((k, v) :: d) = if k = key then some v else find? key d := by
  by_cases h : k = key <;> simp [find?, h]

/-- A key is bound to what was inserted last, all other keys to what they were. -/
theorem find?_insert (key k : κ) (v : α) (d : Dictionary κ α) :
    find? key (insert k v d) = if k = key then some v else find? key d := by
  induction d with
  | nil => exact find?_cons key k v []
  | cons entry rest ih =>
    obtain ⟨k', v'⟩ := entry
    rw [insert]
    split
    · next h =>
      subst h
      rw [find?_cons, find?_cons]
      split <;> rfl
    · next h =>
      split
      · exact find?_cons key k v _
      · rw [find?_cons, ih, find?_cons]
        by_cases hk : k = key
        · rw [if_pos hk, if_pos hk, if_neg (hk ▸ Ne.symm h)]
        · rw [if_neg hk, if_neg hk]

/-! ### Entries -/

theorem mem_of_mem_insert {key : κ} {value : α} {d : Dictionary κ α} {entry : κ × α}
    (h : entry ∈ insert key value d) : entry = (key, value) ∨ entry ∈ d := by
  induction d with
  | nil => exact .inl (List.mem_singleton.1 h)
  | cons first rest ih =>
    obtain ⟨k, v⟩ := first
    rw [insert] at h
    split at h
    · obtain rfl | h := List.mem_cons.1 h
      · exact .inl rfl
      · exact .inr (List.mem_cons_of_mem _ h)
    · split at h
      · exact List.mem_cons.1 h
      · obtain rfl | h := List.mem_cons.1 h
        · exact .inr List.mem_cons_self
        · exact (ih h).imp_right (List.mem_cons_of_mem _)

theorem mem_keys_insert {key k : κ} {value : α} {d : Dictionary κ α} :
    k ∈ keys (insert key value d) ↔ k = key ∨ k ∈ keys d := by
  induction d with
  | nil => exact List.mem_cons
  | cons first rest ih =>
    obtain ⟨k', v⟩ := first
    rw [insert]
    split
    · next h => simp [keys, h]
    · split
      · simp [keys]
      · simp only [keys, List.map_cons, List.mem_cons] at ih ⊢
        rw [ih]
        exact or_left_comm

theorem mem_of_mem_ofList {entries : List (κ × α)} {entry : κ × α}
    (h : entry ∈ (ofList entries : Dictionary κ α)) : entry ∈ entries := by
  have hfold : ∀ d : Dictionary κ α,
      entry ∈ entries.foldl (fun d (k, v) => insert k v d) d → entry ∈ d ∨ entry ∈ entries := by
    clear h
    induction entries with
    | nil => exact fun d h => .inl h
    | cons first rest ih =>
      intro d h
      obtain h | h := ih _ h
      · obtain rfl | h := mem_of_mem_insert h
        · exact .inr List.mem_cons_self
        · exact .inl h
      · exact .inr (List.mem_cons_of_mem _ h)
  exact (hfold [] h).resolve_left List.not_mem_nil

/-- The keys of a list are all bound. -/
theorem mem_keys_ofList {entries : List (κ × α)} {k : κ} :
    k ∈ keys (ofList entries : Dictionary κ α) ↔ k ∈ entries.map Prod.fst := by
  have hfold : ∀ d : Dictionary κ α, k ∈ keys (entries.foldl (fun d (k, v) => insert k v d) d) ↔
      k ∈ entries.map Prod.fst ∨ k ∈ keys d := by
    induction entries with
    | nil => simp
    | cons first rest ih =>
      intro d
      rw [List.foldl_cons, ih, mem_keys_insert, List.map_cons, List.mem_cons, or_left_comm,
        or_assoc]
  exact (hfold []).trans (or_iff_left List.not_mem_nil)

end Dictionary

end Lineage
