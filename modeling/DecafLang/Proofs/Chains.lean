import Mathlib.Logic.Relation
import Mathlib.Data.List.Infix
import DecafLang.Chain

/-!
# Ways along links

What `Chain.follow` meets, apart from the bound on its steps.

* **With room for all things there are, the room does not matter** (`Chain.follow_room`), and what
  is met is what can be reached (`Chain.mem_fromStart_iff`).
* A way that goes over into another by a renaming of the things does so as a whole
  (`Chain.follow_map`).
* The rest of a way is the beginning of the way from where it goes on
  (`Chain.fromStart_of_split`).
-/

namespace DecafLang

namespace Chain

open Relation

variable {α β : Type} [DecidableEq α] {next : α → Option α} {room room' : Nat}
  {seen seen' l : List α} {a b : α}

/-- One thing links to another. -/
def Links (next : α → Option α) (a b : α) : Prop := next a = some b

/-- What holds of a thing and is passed on along the links holds of all that is met. -/
theorem follow_all {P : α → Prop} (hs : ∀ a b, P a → next a = some b → P b) (ha : P a) :
    ∀ b ∈ follow next room seen a, P b := by
  induction room generalizing seen a with
  | zero => exact nofun
  | succ k ih =>
    unfold follow
    split
    · exact nofun
    · rename_i b hb
      have hb := hs a b ha hb
      split
      · exact nofun
      · exact List.forall_mem_cons.mpr ⟨hb, ih hb⟩

/-! ## 1. Room -/

/-- How many of the things have not been seen. -/
def unseen (l seen : List α) : Nat := l.countP fun x => x ∉ seen

theorem unseen_cons_lt (hb : b ∈ l) (hs : b ∉ seen) : unseen l (b :: seen) < unseen l seen := by
  obtain ⟨front, back, rfl⟩ := List.append_of_mem hb
  have hle : ∀ l : List α, unseen l (b :: seen) ≤ unseen l seen := fun l => by
    refine List.countP_mono_left fun x _ hx => ?_
    simp only [decide_eq_true_eq] at hx ⊢
    exact fun h => hx (List.mem_cons_of_mem _ h)
  have h₁ := hle front
  have h₂ := hle back
  unfold unseen at *
  simp only [List.countP_append, List.countP_cons, List.mem_cons, true_or, not_true_eq_false,
    decide_false, Bool.false_eq_true, if_false, hs, not_false_eq_true, decide_true, if_true]
  simp only [List.mem_cons] at h₁ h₂
  omega

theorem mem_seen_of_unseen (h : unseen l seen ≤ 0) (hb : b ∈ l) : b ∈ seen := by
  have := List.countP_eq_zero.mp (Nat.le_zero.mp h) b hb
  simpa using this

section

variable (hl : ∀ a b, next a = some b → b ∈ l)

include hl

theorem follow_succ (hr : unseen l seen ≤ room) :
    follow next (room + 1) seen a = follow next room seen a := by
  induction room generalizing seen a with
  | zero =>
    unfold follow
    split
    · rfl
    · rename_i b hb
      rw [if_pos (mem_seen_of_unseen hr (hl a b hb))]
  | succ k ih =>
    rw [follow, follow]
    split
    · rfl
    · rename_i b hb
      by_cases hs : b ∈ seen
      · rw [if_pos hs, if_pos hs]
      · have := unseen_cons_lt (hl a b hb) hs
        rw [if_neg hs, if_neg hs, ih (by omega)]

theorem follow_of_le (hr : unseen l seen ≤ room) (hle : room ≤ room') :
    follow next room' seen a = follow next room seen a := by
  induction hle with
  | refl => rfl
  | step hle ih => rw [follow_succ hl (Nat.le_trans hr hle), ih]

/-- **With room for all things that are linked to, the room does not matter.** -/
theorem follow_room (hr : l.length ≤ room) (hr' : l.length ≤ room') :
    follow next room seen a = follow next room' seen a := by
  have hu : unseen l seen ≤ l.length := List.countP_le_length
  rw [follow_of_le hl hu hr, follow_of_le hl hu hr']

/-- The way ends where there is no link, or at something that was seen or met. -/
theorem follow_closed (hr : unseen l seen ≤ room) {x y : α} (hx : x ∈ a :: follow next room seen a)
    (hy : next x = some y) : y ∈ seen ∨ y ∈ follow next room seen a := by
  induction room generalizing seen a with
  | zero =>
    obtain rfl := List.mem_singleton.mp hx
    exact .inl (mem_seen_of_unseen hr (hl x y hy))
  | succ k ih =>
    unfold follow at hx ⊢
    split at hx
    · rename_i hn
      obtain rfl := List.mem_singleton.mp hx
      rw [hn] at hy
      cases hy
    · rename_i b hb
      split at hx
      · rename_i hs
        obtain rfl := List.mem_singleton.mp hx
        obtain rfl := Option.some.inj (hb.symm.trans hy)
        exact .inl hs
      · rename_i hs
        rw [if_neg hs]
        -- the first step, or one of the walk behind it
        rcases List.mem_cons.mp hx with rfl | hx
        · obtain rfl := Option.some.inj (hb.symm.trans hy)
          exact .inr List.mem_cons_self
        · have := unseen_cons_lt (hl a b hb) hs
          rcases ih (by omega) hx with h | h
          · exact (List.mem_cons.mp h).elim (fun e => .inr (e ▸ List.mem_cons_self)) .inl
          · exact .inr (List.mem_cons_of_mem _ h)

/-- **What is met is what can be reached.** -/
theorem mem_fromStart_iff (hr : l.length ≤ room) :
    b ∈ fromStart next room a ↔ ReflTransGen (Links next) a b := by
  constructor
  · intro hb
    rcases List.mem_cons.mp hb with rfl | hb
    · exact .refl
    · exact follow_all (P := ReflTransGen (Links next) a) (fun _ _ hx hy => hx.tail hy) .refl b hb
  · intro hb
    induction hb with
    | refl => exact List.mem_cons_self
    | tail _ hy ih =>
      -- There is room for every element of `l`, so the walk stops only where it would repeat.
      have hu : unseen l [a] ≤ room := Nat.le_trans List.countP_le_length hr
      rcases follow_closed hl hu ih hy with h | h
      · exact List.mem_singleton.mp h ▸ List.mem_cons_self
      · exact List.mem_cons_of_mem _ h

end

/-! ## 2. One way and another -/

/-- Ways that go over into each other step by step do so as a whole. -/
theorem follow_map [DecidableEq β] {next' : β → Option β} {f : α → β} {D : α → Prop}
    (hf : ∀ a, D a → next' (f a) = (next a).map f) (hd : ∀ a b, D a → next a = some b → D b)
    (hi : ∀ a b, D a → D b → f a = f b → a = b) (hs : ∀ x ∈ seen, D x) (ha : D a) :
    follow next' room (seen.map f) (f a) = (follow next room seen a).map f := by
  induction room generalizing seen a with
  | zero => rfl
  | succ k ih =>
    unfold follow
    rw [hf a ha]
    cases hb : next a with
    | none => rfl
    | some b =>
      have hdb := hd a b ha hb
      -- `f` is injective where the walk is, so both walks stop at the same step.
      have hmem : f b ∈ seen.map f ↔ b ∈ seen := by
        refine ⟨fun h => ?_, List.mem_map_of_mem⟩
        obtain ⟨x, hx, e⟩ := List.mem_map.mp h
        exact hi x b (hs x hx) hdb e ▸ hx
      simp only [Option.map_some, hmem]
      split
      · rfl
      · rw [List.map_cons, ← ih (List.forall_mem_cons.mpr ⟨hdb, hs⟩) hdb, List.map_cons]

/-- A way on which less has been seen goes at least as far. -/
theorem follow_farther (hs : seen' ⊆ seen) (hr : room ≤ room') :
    follow next room seen a <+: follow next room' seen' a := by
  induction room generalizing seen seen' a room' with
  | zero => exact List.nil_prefix
  | succ k ih =>
    obtain ⟨k', rfl⟩ := Nat.exists_eq_add_of_le' hr
    rw [follow, ← Nat.add_assoc, follow]
    split
    · exact List.prefix_rfl
    · rename_i b hb
      by_cases h : b ∈ seen
      · rw [if_pos h]
        exact List.nil_prefix
      · rw [if_neg h, if_neg fun h' => h (hs h')]
        exact (List.prefix_cons_inj b).mpr (ih (List.cons_subset_cons b hs) (Nat.le_add_left _ _))

/-- Where a way goes on, it does so with what was seen. -/
theorem follow_split {x : α} {front back : List α}
    (h : follow next room seen a = front ++ x :: back) :
    ∃ room' seen', room' ≤ room ∧ x ∈ seen' ∧ back = follow next room' seen' x := by
  induction room generalizing seen a front with
  | zero => exact absurd h.symm (List.append_ne_nil_of_right_ne_nil _ (List.cons_ne_nil _ _))
  | succ k ih =>
    unfold follow at h
    split at h
    · exact absurd h.symm (List.append_ne_nil_of_right_ne_nil _ (List.cons_ne_nil _ _))
    · rename_i b hb
      split at h
      · exact absurd h.symm (List.append_ne_nil_of_right_ne_nil _ (List.cons_ne_nil _ _))
      -- The room and the elements seen at `x` are those left when the walk got there.
      · cases front with
        | nil =>
          obtain ⟨rfl, rfl⟩ := List.cons.inj h
          exact ⟨k, b :: seen, Nat.le_succ k, List.mem_cons_self, rfl⟩
        | cons y front =>
          obtain ⟨-, h⟩ := List.cons.inj h
          obtain ⟨room', seen', hr, hx, e⟩ := ih h
          exact ⟨room', seen', Nat.le_succ_of_le hr, hx, e⟩

/-- **The rest of a way is the beginning of the way from where it goes on.** -/
theorem fromStart_of_split {x : α} {front back : List α}
    (h : fromStart next room a = front ++ x :: back) : x :: back <+: fromStart next room x := by
  cases front with
  | nil =>
    obtain ⟨rfl, rfl⟩ := List.cons.inj h
    exact List.prefix_rfl
  | cons y front =>
    obtain ⟨-, h⟩ := List.cons.inj h
    obtain ⟨room', seen', hr, hx, rfl⟩ := follow_split h
    refine (List.prefix_cons_inj x).mpr (follow_farther (fun y hy => ?_) hr)
    exact List.mem_singleton.mp hy ▸ hx

/-- What can not be reached may have been seen or not. -/
theorem follow_congr (h : ∀ b, TransGen (Links next) a b → (b ∈ seen ↔ b ∈ seen')) :
    follow next room seen a = follow next room seen' a := by
  induction room generalizing seen seen' a with
  | zero => rfl
  | succ k ih =>
    unfold follow
    split
    · rfl
    · rename_i b hb
      have hb : Links next a b := hb
      simp only [h b (.single hb)]
      split
      · rfl
      -- what is reached from `b` is reached from `a` as well
      · rw [ih fun x hx => ?_]
        rw [List.mem_cons, List.mem_cons, h x (.head hb hx)]

/-- **Away from all cycles, the way goes on as the way from the next thing.** -/
theorem fromStart_cons (hl : ∀ a b, next a = some b → b ∈ l) (hr : l.length ≤ room)
    (ha : ¬ TransGen (Links next) a a) :
    fromStart next room a = a :: ((next a).map (fromStart next room)).getD [] := by
  unfold fromStart
  have hu : unseen l [a] ≤ room := Nat.le_trans List.countP_le_length hr
  rw [← follow_succ hl hu, follow]
  cases hb : next a with
  | none => rfl
  | some b =>
    have hb : Links next a b := hb
    have hne : b ∉ [a] := fun h => ha (.single (List.mem_singleton.mp h ▸ hb))
    -- That `a` was seen makes no difference: without a cycle the walk never meets it again.
    have e : follow next room [b, a] b = follow next room [b] b := follow_congr fun x hx => by
      have hx : x ≠ a := fun e => ha (.head hb (e ▸ hx))
      simp only [List.mem_cons, List.not_mem_nil, hx, or_false]
    simp only [if_neg hne, e, Option.map_some, Option.getD_some]

end Chain

end DecafLang
