/-!
# Finite tables

A `Table` maps finitely many keys to values.

* **Every key stands in it once,** so the number of entries is the number of keys.
* A new key goes to the end; a key that is there keeps its place and gets the new value.
-/

namespace DecafLang

/-- A finite map from keys to values. -/
structure Table (κ : Type) (α : Type) where
  entries : List (κ × α)
  distinct : (entries.map Prod.fst).Nodup

namespace Table

variable {κ α : Type}

/-! ## 1. Operations -/

/-- The table without entries. -/
def empty : Table κ α := ⟨[], by simp⟩

instance : Inhabited (Table κ α) := ⟨empty⟩

/-- The number of keys. -/
def size (t : Table κ α) : Nat := t.entries.length

variable [DecidableEq κ]

/-- The value of the first entry with a key. -/
def find (k : κ) : List (κ × α) → Option α
  | [] => none
  | (k', a) :: r => if k' = k then some a else find k r

/-- The value of a key. -/
def get? (t : Table κ α) (k : κ) : Option α := find k t.entries

/-- The entries with a key set to a value. -/
def put (k : κ) (a : α) : List (κ × α) → List (κ × α)
  | [] => [(k, a)]
  | (k', a') :: r => if k' = k then (k, a) :: r else (k', a') :: put k a r

theorem keys_put (k : κ) (a : α) (l : List (κ × α)) :
    (put k a l).map Prod.fst
      = if k ∈ l.map Prod.fst then l.map Prod.fst else l.map Prod.fst ++ [k] := by
  induction l with
  | nil => simp [put]
  | cons e r ih =>
    obtain ⟨k', a'⟩ := e
    by_cases h : k' = k
    · simp [put, h]
    · by_cases hr : k ∈ r.map Prod.fst
      · simp_all [put]
      · simp_all [put, Ne.symm h]

theorem nodup_keys_put {k : κ} {a : α} {l : List (κ × α)} (h : (l.map Prod.fst).Nodup) :
    ((put k a l).map Prod.fst).Nodup := by
  rw [keys_put]
  split
  · exact h
  · rename_i hk
    exact List.nodup_append.mpr ⟨h, by simp, fun x hx y hy => by
      rintro rfl
      exact hk ((List.mem_singleton.mp hy) ▸ hx)⟩

/-- The table with a key set to a value. -/
def insert (t : Table κ α) (k : κ) (a : α) : Table κ α :=
  ⟨put k a t.entries, nodup_keys_put t.distinct⟩

/-- The table with the key set, unless it has a value already. -/
def insertNew (t : Table κ α) (k : κ) (a : α) : Table κ α :=
  match t.get? k with
  | some _ => t
  | none => t.insert k a

/-- The table with several keys set, one after the other. -/
def insertAll (t : Table κ α) (l : List (κ × α)) : Table κ α :=
  l.foldl (fun t e => t.insert e.1 e.2) t

/-! ## 2. What a look-up sees -/

@[simp] theorem get?_empty (k : κ) : (empty : Table κ α).get? k = none := rfl

theorem find_put (k k' : κ) (a : α) (l : List (κ × α)) :
    find k' (put k a l) = if k = k' then some a else find k' l := by
  induction l with
  | nil => simp [put, find]
  | cons e r ih =>
    obtain ⟨j, b⟩ := e
    by_cases h : j = k
    · by_cases h' : k = k' <;> simp_all [put, find]
    · by_cases h' : k = k'
      · simp_all [put, find]
      · simp [put, find, h, h', ih]

@[simp] theorem get?_insert (t : Table κ α) (k k' : κ) (a : α) :
    (t.insert k a).get? k' = if k = k' then some a else t.get? k' :=
  find_put k k' a t.entries

theorem get?_insertNew (t : Table κ α) (k k' : κ) (a : α) :
    (t.insertNew k a).get? k' = if k = k' then some ((t.get? k).getD a) else t.get? k' := by
  unfold insertNew
  split
  · rename_i h
    split
    · rename_i hk; subst hk; simp [h]
    · rfl
  · rename_i h
    simp [h]

theorem find_eq_none {k : κ} {l : List (κ × α)} :
    find k l = none ↔ k ∉ l.map Prod.fst := by
  induction l with
  | nil => simp [find]
  | cons e r ih =>
    obtain ⟨j, b⟩ := e
    by_cases h : j = k
    · simp [find, h]
    · simp_all [find, Ne.symm h]

theorem mem_of_find {k : κ} {a : α} {l : List (κ × α)} (h : find k l = some a) : (k, a) ∈ l := by
  induction l with
  | nil => cases h
  | cons x l ih =>
    rw [find] at h
    split at h
    · rename_i e
      cases h
      exact e ▸ List.mem_cons_self
    · exact List.mem_cons_of_mem _ (ih h)

theorem find_of_mem {k : κ} {a : α} {l : List (κ × α)} (h : (l.map Prod.fst).Nodup)
    (hm : (k, a) ∈ l) : find k l = some a := by
  induction l with
  | nil => cases hm
  | cons e r ih =>
    obtain ⟨j, b⟩ := e
    obtain ⟨hj, hr⟩ := List.nodup_cons.mp h
    rcases List.mem_cons.mp hm with e | hm
    · cases e
      exact if_pos rfl
    · have hne : j ≠ k := by
        rintro rfl
        exact hj (List.mem_map.mpr ⟨_, hm, rfl⟩)
      simp only [find, if_neg hne]
      exact ih hr hm

theorem insertAll_append (t : Table κ α) (l l' : List (κ × α)) :
    t.insertAll (l ++ l') = (t.insertAll l).insertAll l' := List.foldl_append

theorem get?_insertAll_of_not_mem {t : Table κ α} {k : κ} {l : List (κ × α)}
    (h : k ∉ l.map Prod.fst) : (t.insertAll l).get? k = t.get? k := by
  induction l generalizing t with
  | nil => rfl
  | cons e r ih =>
    have hr : k ∉ r.map Prod.fst := fun hm => h (List.mem_cons_of_mem _ hm)
    have he : e.1 ≠ k := fun e' => h (e' ▸ List.mem_cons_self)
    show ((t.insert e.1 e.2).insertAll r).get? k = _
    rw [ih hr, get?_insert, if_neg he]

/-- Of keys that are set once each, every one has its value. -/
theorem get?_insertAll_of_mem {t : Table κ α} {k : κ} {a : α} {l : List (κ × α)}
    (h : (l.map Prod.fst).Nodup) (hm : (k, a) ∈ l) : (t.insertAll l).get? k = some a := by
  induction l generalizing t with
  | nil => cases hm
  | cons e r ih =>
    obtain ⟨he, hr⟩ := List.nodup_cons.mp h
    show ((t.insert e.1 e.2).insertAll r).get? k = _
    rcases List.mem_cons.mp hm with e' | hm
    · subst e'
      rw [get?_insertAll_of_not_mem he, get?_insert, if_pos rfl]
    · exact ih hr hm

theorem put_of_find {k : κ} {a : α} {l : List (κ × α)} (h : find k l = some a) : put k a l = l := by
  induction l with
  | nil => cases h
  | cons e r ih =>
    obtain ⟨j, b⟩ := e
    rw [find] at h
    rw [put]
    split at h
    · rename_i hj
      cases h
      rw [if_pos hj, hj]
    · rename_i hj
      rw [if_neg hj, ih h]

/-- Setting a key to the value that it has changes nothing. -/
theorem insert_of_get? {t : Table κ α} {k : κ} {a : α} (h : t.get? k = some a) :
    t.insert k a = t := by
  obtain ⟨l, hl⟩ := t
  unfold insert
  simp only [put_of_find h]

theorem insertAll_eq_self {t : Table κ α} {l : List (κ × α)}
    (h : ∀ e ∈ l, t.get? e.1 = some e.2) : t.insertAll l = t := by
  induction l with
  | nil => rfl
  | cons e l ih =>
    show (t.insert e.1 e.2).insertAll l = t
    rw [insert_of_get? (h e List.mem_cons_self), ih fun x hx => h x (List.mem_cons_of_mem _ hx)]

theorem size_insert (t : Table κ α) (k : κ) (a : α) :
    (t.insert k a).size = t.size + if t.get? k = none then 1 else 0 := by
  have h := congrArg List.length (keys_put k a t.entries)
  simp only [List.length_map] at h
  simp only [size, insert, get?, find_eq_none, h]
  by_cases hk : k ∈ t.entries.map Prod.fst
  · simp only [hk, if_true, not_true, if_false, List.length_map]; rfl
  · simp only [hk, if_false, not_false_iff, if_true, List.length_append, List.length_map]; rfl

end Table

end DecafLang
