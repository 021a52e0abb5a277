import Mathlib.Data.List.Nodup
import DecafLang.Layout

/-!
# Places of names

What a list of entries with names looks like after further entries have been put in their places.

* The names that are there stay where they are, and no name is there twice.
* **Where further names are put behind those that are there, all keep their positions**
  (`position?_stays`).
* A table has what has been put into it (`Table.isSome_insertAll`, `get?_insertAll_iff`).
-/

namespace DecafLang

/-! ## 1. Names in their places -/

section

variable {α : Type} {name : α → String} {x y : α} {l xs : List α} {n : String}

theorem map_place (x : α) (l : List α) : (place name x l).map name =
    if name x ∈ l.map name then l.map name else l.map name ++ [name x] := by
  induction l with
  | nil => rfl
  | cons y l ih =>
    unfold place
    by_cases h : name y = name x
    · simp [h]
    · simp only [if_neg h, List.map_cons, ih, List.mem_cons, Ne.symm h, false_or]
      split <;> rfl

/-- The names that are there stay where they are. -/
theorem names_place (x : α) (l : List α) : l.map name <+: (place name x l).map name := by
  rw [map_place]
  split
  · exact List.prefix_rfl
  · exact List.prefix_append _ _

theorem mem_place (x : α) (l : List α) : x ∈ place name x l := by
  induction l with
  | nil => exact List.mem_cons_self
  | cons y l ih =>
    unfold place
    split
    · exact List.mem_cons_self
    · exact List.mem_cons_of_mem _ ih

theorem mem_place_of_mem (hy : y ∈ l) (hn : name y ≠ name x) : y ∈ place name x l := by
  induction l with
  | nil => cases hy
  | cons z l ih =>
    unfold place
    rcases List.mem_cons.mp hy with rfl | hy
    · rw [if_neg hn]
      exact List.mem_cons_self
    · split
      · exact List.mem_cons_of_mem _ hy
      · exact List.mem_cons_of_mem _ (ih hy)

theorem mem_foldl_place (hx : x ∈ l) (hn : name x ∉ xs.map name) :
    x ∈ xs.foldl (fun l y => place name y l) l := by
  induction xs generalizing l with
  | nil => exact hx
  | cons y xs ih =>
    obtain ⟨hy, hn⟩ := not_or.mp fun h => hn (List.mem_cons.mpr h)
    exact ih (mem_place_of_mem hx hy) hn

/-- All that are placed under names of their own are there. -/
theorem mem_foldl_place_of_nodup (hn : (xs.map name).Nodup) (hx : x ∈ xs) :
    x ∈ xs.foldl (fun l y => place name y l) l := by
  induction xs generalizing l with
  | nil => cases hx
  | cons y xs ih =>
    obtain ⟨hy, hn⟩ := List.nodup_cons.mp hn
    rw [List.foldl_cons]
    rcases List.mem_cons.mp hx with rfl | hx
    · exact mem_foldl_place (mem_place _ l) hy
    · exact ih hn hx

theorem name_mem_foldl_place (hx : name x ∈ l.map name ∨ x ∈ xs) :
    name x ∈ (xs.foldl (fun l y => place name y l) l).map name := by
  induction xs generalizing l with
  | nil => exact hx.elim id nofun
  | cons y xs ih =>
    refine ih ?_
    rcases hx with hx | hx
    · exact .inl ((names_place y l).subset hx)
    · rcases List.mem_cons.mp hx with rfl | hx
      · exact .inl (List.mem_map_of_mem (mem_place x l))
      · exact .inr hx

theorem nodup_place (x : α) (h : (l.map name).Nodup) : ((place name x l).map name).Nodup := by
  rw [map_place]
  split
  · exact h
  · rename_i hx
    refine List.nodup_append.mpr ⟨h, List.nodup_singleton _, fun a ha b hb e => hx ?_⟩
    rwa [← List.mem_singleton.mp hb, ← e]

theorem of_mem_place (h : y ∈ place name x l) : y = x ∨ y ∈ l := by
  induction l with
  | nil => exact .inl (List.mem_singleton.mp h)
  | cons z l ih =>
    unfold place at h
    split at h
    · exact (List.mem_cons.mp h).imp_right (List.mem_cons_of_mem z)
    · rcases List.mem_cons.mp h with rfl | h
      · exact .inr List.mem_cons_self
      · exact (ih h).imp_right (List.mem_cons_of_mem z)

theorem find?_name_cons (x : α) (l : List α) (n : String) : (x :: l).find? (name · == n) =
    if name x = n then some x else l.find? (name · == n) := by
  by_cases h : name x = n
  · rw [if_pos h]
    exact List.find?_cons_of_pos (beq_iff_eq.mpr h)
  · rw [if_neg h]
    exact List.find?_cons_of_neg fun e => h (beq_iff_eq.mp e)

theorem find?_place (x : α) (l : List α) (n : String) : (place name x l).find? (name · == n) =
    if name x = n then some x else l.find? (name · == n) := by
  induction l with
  | nil => exact find?_name_cons x [] n
  | cons y l ih =>
    unfold place
    split
    · rename_i h
      rw [find?_name_cons, find?_name_cons, h]
      by_cases hn : name x = n
      · rw [if_pos hn, if_pos hn]
      · rw [if_neg hn, if_neg hn, if_neg hn]
    · rename_i h
      rw [find?_name_cons, find?_name_cons, ih]
      -- an entry of another name in front is passed over in both lists
      by_cases hn : name x = n
      · have hy : name y ≠ n := fun hy => h (hy.trans hn.symm)
        rw [if_neg hy, if_pos hn, if_pos hn]
      · rw [if_neg hn, if_neg hn]

/-- **New names come behind those that are there,** each once, in the order of the entries. -/
theorem map_foldl_place (xs l : List α) : (xs.foldl (fun l y => place name y l) l).map name =
    l.map name ++ ((xs.map name).removeAll (l.map name)).eraseDups := by
  induction xs generalizing l with
  | nil => exact (List.append_nil _).symm
  | cons x xs ih =>
    rw [List.foldl_cons, ih, map_place, List.map_cons, List.cons_removeAll]
    -- a name that is there keeps its place, and a new one goes behind
    by_cases h : name x ∈ l.map name
    · rw [if_pos h, if_neg (by simpa using h)]
    -- the new name is no longer counted among those to come
    · have hrest : (xs.map name).removeAll (l.map name ++ [name x]) =
          ((xs.map name).removeAll (l.map name)).filter fun n => !n == name x := by
        unfold List.removeAll
        rw [List.filter_filter]
        exact List.filter_congr fun n _ => by simp [Bool.and_comm, Bool.beq_eq_decide_eq]
      rw [if_neg h, if_pos (by simpa using h), hrest, List.eraseDups_cons, List.append_assoc]
      rfl

theorem names_foldl_place (xs l : List α) :
    l.map name <+: (xs.foldl (fun l y => place name y l) l).map name := by
  rw [map_foldl_place]
  exact List.prefix_append _ _

theorem nodup_foldl_place (xs : List α) (h : (l.map name).Nodup) :
    ((xs.foldl (fun l y => place name y l) l).map name).Nodup := by
  induction xs generalizing l with
  | nil => exact h
  | cons x xs ih => exact ih (nodup_place x h)

theorem of_mem_foldl_place (h : y ∈ xs.foldl (fun l y => place name y l) l) : y ∈ xs ∨ y ∈ l := by
  induction xs generalizing l with
  | nil => exact .inr h
  | cons x xs ih =>
    rcases ih h with h | h
    · exact .inl (List.mem_cons_of_mem x h)
    · rcases of_mem_place h with rfl | h
      · exact .inl List.mem_cons_self
      · exact .inr h

/-- The entry of a name is the last of that name that has been put in its place. -/
theorem find?_foldl_place (xs l : List α) (n : String) :
    (xs.foldl (fun l y => place name y l) l).find? (name · == n) =
      (xs.findRev? (name · == n)).or (l.find? (name · == n)) := by
  rw [List.findRev?_eq_find?_reverse]
  induction xs generalizing l with
  | nil => rfl
  | cons x xs ih =>
    -- of several the last one placed is found
    have hx : (x :: xs).reverse.find? (name · == n) =
        (xs.reverse.find? (name · == n)).or (if name x = n then some x else none) := by
      rw [List.reverse_cons, List.find?_append, find?_name_cons]
      rfl
    rw [List.foldl_cons, ih, find?_place, hx, Option.or_assoc]
    split <;> rfl

/-- Where names are distinct, the last entry of a name is the first one. -/
theorem findRev?_of_nodup (hn : (xs.map name).Nodup) (n : String) :
    xs.findRev? (name · == n) = xs.find? (name · == n) := by
  rw [List.findRev?_eq_find?_reverse]
  induction xs with
  | nil => rfl
  | cons x xs ih =>
    obtain ⟨hx, hn⟩ := List.nodup_cons.mp hn
    rw [List.reverse_cons, List.find?_append, ih hn, find?_name_cons, find?_name_cons]
    by_cases h : name x = n
    -- no other has this name, so first and last are one
    · have hnone : xs.find? (name · == n) = none := by
        refine List.find?_eq_none.mpr fun y hy e => hx ?_
        rw [h, ← beq_iff_eq.mp e]
        exact List.mem_map_of_mem hy
      rw [if_pos h, if_pos h, hnone]
      rfl
    · rw [if_neg h, if_neg h]
      exact Option.or_none

end

/-! ## 2. Positions -/

section

variable {α : Type} {name : α → String} {x : α} {l l' : List α} {n : String} {s : Nat}

theorem position?_eq (l : List α) : position? name n l = (l.map name).findIdx? (· == n) := by
  unfold position?
  rw [List.findIdx?_map]
  rfl

/-- **Where further names are put behind those that are there, all keep their positions.** -/
theorem position?_stays (h : l.map name <+: l'.map name) (hs : position? name n l = some s) :
    position? name n l' = some s := by
  obtain ⟨r, e⟩ := h
  rw [position?_eq] at hs ⊢
  rw [← e, List.findIdx?_append, hs]
  rfl

/-- At the position of a name stands the first entry of that name. -/
theorem getElem?_position? (hs : position? name n l = some s) :
    l[s]? = l.find? (name · == n) := by
  obtain ⟨hlt, hn, hfirst⟩ := List.findIdx?_eq_some_iff_getElem.mp hs
  have hf : l.find? (name · == n) = some l[s] :=
    List.find?_eq_some_iff_getElem.mpr ⟨hn, s, hlt, rfl, fun j hj => by simpa using hfirst j hj⟩
  rw [List.getElem?_eq_getElem hlt, hf]

theorem position?_getElem (hn : (l.map name).Nodup) (hx : l[s]? = some x) :
    position? name (name x) l = some s := by
  obtain ⟨hlt, rfl⟩ := List.getElem?_eq_some_iff.mp hx
  refine List.findIdx?_eq_some_iff_getElem.mpr ⟨hlt, beq_self_eq_true _, fun j hj => ?_⟩
  have hne := List.nodup_iff_getElem?_ne_getElem?.mp hn j s hj (by simpa using hlt)
  simpa [hlt, Nat.lt_trans hj hlt] using hne

theorem position?_isSome (h : n ∈ l.map name) : (position? name n l).isSome = true := by
  rw [position?_eq, List.findIdx?_isSome, List.any_eq_true]
  exact ⟨n, h, beq_self_eq_true n⟩

/-- A name that was there before further ones were put behind it has had its position since. -/
theorem position?_since (h : l.map name <+: l'.map name) (hn : (l'.map name).Nodup)
    (hm : name x ∈ l.map name) (hx : l'[s]? = some x) : position? name (name x) l = some s := by
  obtain ⟨k, hk⟩ := Option.isSome_iff_exists.mp (position?_isSome hm)
  cases (position?_stays h hk).symm.trans (position?_getElem hn hx)
  exact hk

end

/-! ## 3. Tables -/

theorem Table.isSome_insertAll {κ α : Type} [DecidableEq κ] {t : Table κ α} {k : κ}
    {l : List (κ × α)} :
    ((t.insertAll l).get? k).isSome = true ↔ (t.get? k).isSome = true ∨ k ∈ l.map Prod.fst := by
  induction l generalizing t with
  | nil => exact ⟨.inl, fun h => h.elim id nofun⟩
  | cons e l ih =>
    show (((t.insert e.1 e.2).insertAll l).get? k).isSome = true ↔ _
    rw [ih, get?_insert, List.map_cons, List.mem_cons]
    -- the key is found if it is this entry's, or among the others
    by_cases he : e.1 = k
    · rw [if_pos he]
      exact ⟨fun _ => .inr (.inl he.symm), fun _ => .inl rfl⟩
    · rw [if_neg he]
      exact ⟨Or.imp_right .inr, Or.imp_right fun h => h.resolve_left fun e' => he e'.symm⟩

/-- A value in the table has been set, or it was there before. -/
theorem Table.of_get?_insertAll {κ α : Type} [DecidableEq κ] {t : Table κ α} {l : List (κ × α)}
    {k : κ} {a : α} (h : (t.insertAll l).get? k = some a) : (k, a) ∈ l ∨ t.get? k = some a := by
  induction l generalizing t with
  | nil => exact .inr h
  | cons e l ih =>
    -- a later entry hides this one, and this one hides what was in the table
    rcases ih (t := t.insert e.1 e.2) h with h | h
    · exact .inl (List.mem_cons_of_mem e h)
    · rw [get?_insert] at h
      split at h
      · rename_i hk
        cases h
        exact .inl (hk ▸ List.mem_cons_self)
      · exact .inr h

/-- Where no key is set to two values, the table is what has been set. -/
theorem Table.get?_insertAll_iff {κ α : Type} [DecidableEq κ] {l : List (κ × α)}
    (hl : ∀ k a b, (k, a) ∈ l → (k, b) ∈ l → a = b) {k : κ} {a : α} :
    (empty.insertAll l).get? k = some a ↔ (k, a) ∈ l := by
  have hset : ∀ {b}, (empty.insertAll l).get? k = some b → (k, b) ∈ l := fun h =>
    (of_get?_insertAll h).resolve_right (Option.not_mem_none _)
  constructor
  · exact hset
  · intro h
    have hs : ((empty.insertAll l).get? k).isSome = true :=
      isSome_insertAll.mpr (.inr (List.mem_map.mpr ⟨_, h, rfl⟩))
    obtain ⟨b, hb⟩ := Option.isSome_iff_exists.mp hs
    rw [hb, hl k a b h (hset hb)]

end DecafLang
