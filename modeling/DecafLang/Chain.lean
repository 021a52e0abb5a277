/-!
# Following links

`Chain.follow` lists what is met on the way along links, such as from a class to the class it
extends.

* **The way ends where there is no link, or where it comes back to something it has seen.** So a
  cycle is walked once.
* The number of steps is bounded by the room that the caller gives; the callers give the number
  of all things there are.
-/

namespace DecafLang

namespace Chain

variable {α : Type} [DecidableEq α]

/-- What is met after `a` along the links, as long as it is not among the things seen. -/
def follow (next : α → Option α) : Nat → List α → α → List α
  | 0, _, _ => []
  | room + 1, seen, a =>
    match next a with
    | none => []
    | some b => if b ∈ seen then [] else b :: follow next room (b :: seen) b

/-- What is met from `a` on, with `a` itself in front. -/
def fromStart (next : α → Option α) (room : Nat) (a : α) : List α := a :: follow next room [a] a

theorem follow_not_seen {next : α → Option α} {room : Nat} {seen : List α} {a b : α}
    (h : b ∈ follow next room seen a) : b ∉ seen := by
  induction room generalizing seen a with
  | zero => simp [follow] at h
  | succ k ih =>
    simp only [follow] at h
    split at h
    · simp at h
    · rename_i c hc
      split at h
      · simp at h
      · rename_i hs
        rcases List.mem_cons.mp h with rfl | h
        · exact hs
        · intro hb
          exact ih h (List.mem_cons_of_mem _ hb)

theorem exists_of_mem_follow {next : α → Option α} {room : Nat} {seen : List α} {a b : α}
    (h : b ∈ follow next room seen a) : ∃ c, next c = some b := by
  induction room generalizing seen a with
  | zero => simp [follow] at h
  | succ k ih =>
    simp only [follow] at h
    split at h
    · simp at h
    · rename_i c hc
      split at h
      · simp at h
      · rcases List.mem_cons.mp h with rfl | h
        · exact ⟨a, hc⟩
        · exact ih h

theorem nodup_follow (next : α → Option α) (room : Nat) (seen : List α) (a : α) :
    (follow next room seen a).Nodup := by
  induction room generalizing seen a with
  | zero => simp [follow]
  | succ k ih =>
    simp only [follow]
    split
    · simp
    · split
      · simp
      · exact List.nodup_cons.mpr ⟨fun h => follow_not_seen h (by simp), ih _ _⟩

theorem nodup_fromStart (next : α → Option α) (room : Nat) (a : α) :
    (fromStart next room a).Nodup :=
  List.nodup_cons.mpr ⟨fun h => follow_not_seen h (by simp), nodup_follow _ _ _ _⟩

end Chain

end DecafLang
