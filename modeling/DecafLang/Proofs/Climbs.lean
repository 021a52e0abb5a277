import Mathlib.Data.List.Perm.Subperm
import DecafLang.Proofs.Chains
import DecafLang.Proofs.Forests

/-!
# The way up

Where the noted names of bases lead, in any forest that can come about.

* `Forest.Climb` is the way up as a walker takes it: from a scope to the scope that is registered
  for the name it notes, and on from there. **The way ends where no name is noted, where nothing is
  registered for the name, and where it would come back;** it ends nowhere else.
* From every scope there is exactly one way (`Climb.unique`, `WellFormed.climb_parents`), no longer
  than the forest, and all that can be reached is met on it.
* So what is found above a scope is the nearest declaration of the name, and nothing is found only
  if there is none (`Forest.searched_under_any_use`). Names that are registered for nothing, a class
  that extends itself and cycles, also those that are entered from outside, are no exception.
-/

namespace DecafLang

namespace Forest

open Relation

variable {f : Forest} {seen ks ks' : List ScopeId} {k j : ScopeId} {name : String}

/-! ## 1. The way of a walker -/

/-- Why the way up ends at a scope, when some scopes have been visited. -/
inductive Halts (f : Forest) (seen : List ScopeId) (k : ScopeId) : Prop
  /-- The scope notes no name. -/
  | top (hp : (f.scope k).parent = none)
  /-- Nothing is registered for the name. -/
  | unknown {name : String} (hp : (f.scope k).parent = some name)
      (ho : f.ownerScope? name = none)
  /-- The name leads back. -/
  | back {name : String} {j : ScopeId} (hp : (f.scope k).parent = some name)
      (ho : f.ownerScope? name = some j) (hs : j ∈ seen)

/-- The scopes that are met on the way up from a scope, when some have been visited. -/
inductive Climb (f : Forest) : List ScopeId → ScopeId → List ScopeId → Prop
  | halt {seen : List ScopeId} {k : ScopeId} (h : f.Halts seen k) : f.Climb seen k []
  | on {seen ks : List ScopeId} {k j : ScopeId} {name : String}
      (hp : (f.scope k).parent = some name) (ho : f.ownerScope? name = some j) (hs : j ∉ seen)
      (hc : f.Climb (j :: seen) j ks) : f.Climb seen k (j :: ks)

theorem parent?_eq_some : f.parent? k = some j ↔
    ∃ name, (f.scope k).parent = some name ∧ f.ownerScope? name = some j := Option.bind_eq_some_iff

/-- The way ends where it has nowhere new to go. -/
theorem halts_iff : f.Halts seen k ↔ ∀ j, f.parent? k = some j → j ∈ seen := by
  constructor
  · intro h j hj
    obtain ⟨n, hn, ho⟩ := parent?_eq_some.mp hj
    cases h with
    | top hp => rw [hp] at hn; cases hn
    | unknown hp ho' =>
      cases hp.symm.trans hn
      rw [ho'] at ho
      cases ho
    | back hp ho' hs =>
      cases hp.symm.trans hn
      cases ho'.symm.trans ho
      exact hs
  · intro h
    cases hp : (f.scope k).parent with
    | none => exact .top hp
    | some n =>
      cases ho : f.ownerScope? n with
      | none => exact .unknown hp ho
      | some j => exact .back hp ho (h j (parent?_eq_some.mpr ⟨n, hp, ho⟩))

/-- **There is no other way.** -/
theorem Climb.unique (h : f.Climb seen k ks) (h' : f.Climb seen k ks') : ks = ks' := by
  induction h generalizing ks' with
  | halt h =>
    -- Both climbs are at the same scope, so they stop or go on together.
    cases h' with
    | halt _ => rfl
    | on hp ho hs _ => exact absurd (halts_iff.mp h _ (parent?_eq_some.mpr ⟨_, hp, ho⟩)) hs
  | on hp ho hs _ ih =>
    cases h' with
    | halt h' => exact absurd (halts_iff.mp h' _ (parent?_eq_some.mpr ⟨_, hp, ho⟩)) hs
    | on hp' ho' _ hc' =>
      cases hp.symm.trans hp'
      cases ho.symm.trans ho'
      rw [ih hc']

/-- With room for all that is linked to, the walk is the way up: its bound cuts nothing off. -/
theorem climb_follow {l : List ScopeId} {room : Nat} (hl : ∀ k j, f.parent? k = some j → j ∈ l)
    (hr : Chain.unseen l seen ≤ room) : f.Climb seen k (Chain.follow f.parent? room seen k) := by
  induction room generalizing seen k with
  -- no room is left exactly when every scope that can be a parent was seen
  | zero => exact .halt (halts_iff.mpr fun j hj => Chain.mem_seen_of_unseen hr (hl k j hj))
  | succ room ih =>
    unfold Chain.follow
    cases hj : f.parent? k with
    | none =>
      exact .halt (halts_iff.mpr fun j hj' => absurd (hj'.symm.trans hj) (Option.some_ne_none j))
    | some j =>
      by_cases hs : j ∈ seen
      · simp only [if_pos hs]
        refine .halt (halts_iff.mpr fun i hi => ?_)
        cases hj.symm.trans hi
        exact hs
      · simp only [if_neg hs]
        obtain ⟨n, hp, ho⟩ := parent?_eq_some.mp hj
        have := Chain.unseen_cons_lt (hl k j hj) hs
        exact .on hp ho hs (ih (by omega))

/-! ## 2. The way in a forest -/

/-- The way up from a scope: the only one there is, not longer than the forest, and with all on it
that can be reached. -/
structure Way (f : Forest) (k : ScopeId) (ks : List ScopeId) : Prop where
  climb_iff : ∀ l, f.Climb [k] k l ↔ l = ks
  length_le : (k :: ks).length ≤ f.size
  mem_iff : ∀ j, j ∈ k :: ks ↔ ReflTransGen (Chain.Links f.parent?) k j

/-- What is found under a name among scopes in their order: the declaration in the first scope that
has one, or nothing if none has. -/
structure Nearest (f : Forest) (ks : List ScopeId) (name : String) (d? : Option Decl) : Prop where
  found : ∀ d, d? = some d ↔ ∃ front k back, ks = front ++ k :: back ∧
    (f.scope k).get? name = some d ∧ ∀ j ∈ front, (f.scope j).get? name = none
  missing : d? = none ↔ ∀ k ∈ ks, (f.scope k).get? name = none

theorem nearest_above (f : Forest) (k : ScopeId) (name : String) :
    f.Nearest (f.parents k) name (f.above? k name) :=
  ⟨fun _ => List.findSome?_eq_some_iff, List.findSome?_eq_none_iff⟩

namespace WellFormed

variable (h : f.WellFormed)

include h

/-- What is noted leads to a scope that is there. -/
theorem parent?_mem (k j : ScopeId) (hj : f.parent? k = some j) : j ∈ List.range f.size := by
  obtain ⟨n, -, ho⟩ := parent?_eq_some.mp hj
  exact List.mem_range.mpr (h.owned n j ho).1

/-- **The scopes above a scope are those that the walker meets.** -/
theorem climb_parents (k : ScopeId) : f.Climb [k] k (f.parents k) := by
  refine climb_follow h.parent?_mem (Nat.le_trans List.countP_le_length ?_)
  rw [List.length_range]

theorem way_parents (hk : k < f.size) : f.Way k (f.parents k) where
  climb_iff l := ⟨fun hl => hl.unique (h.climb_parents k), fun e => e ▸ h.climb_parents k⟩
  length_le := by
    -- no scope is visited twice, and all that are visited are there
    have hn : (k :: f.parents k).Nodup := Chain.nodup_fromStart f.parent? f.size k
    have hs : k :: f.parents k ⊆ List.range f.size := by
      refine List.cons_subset.mpr ⟨List.mem_range.mpr hk, fun j hj => ?_⟩
      obtain ⟨i, hi⟩ := Chain.exists_of_mem_follow hj
      exact h.parent?_mem i j hi
    have hle := (hn.subperm hs).length_le
    rwa [List.length_range] at hle
  mem_iff _ := Chain.mem_fromStart_iff (l := List.range f.size) h.parent?_mem
    (Nat.le_of_eq List.length_range)

end WellFormed

/-! ## 3. What is found -/

/-- What the look-ups along the noted names give. -/
structure Searched (f : Forest) : Prop where
  /-- What the innermost open scope inherits is the nearest on the way up from it. -/
  inherited : ∃ ks, f.Way f.current ks ∧ ∀ name, f.Nearest ks name (f.inherited? name)
  /-- Behind a name that is registered for nothing there is no member. -/
  unregistered : ∀ owner, f.ownerScope? owner = none → ∀ name, f.member? owner name = none
  /-- A member is the declaration in the scope of the owner itself, if there is one. -/
  own : ∀ owner k, f.ownerScope? owner = some k →
    ∀ name d, (f.scope k).get? name = some d → f.member? owner name = some d
  /-- Any other member is the nearest on the way up from that scope. -/
  above : ∀ owner k, f.ownerScope? owner = some k → ∃ ks, f.Way k ks ∧
    ∀ name, (f.scope k).get? name = none → f.Nearest ks name (f.member? owner name)

theorem member?_of_owner {owner : String} (ho : f.ownerScope? owner = some k) :
    f.member? owner name = f.within? k name := by
  unfold member?
  rw [ho]
  rfl

theorem WellFormed.searched (h : f.WellFormed) : f.Searched where
  inherited := ⟨f.parents f.current, h.way_parents h.current_lt, f.nearest_above f.current⟩
  unregistered owner ho name := by
    unfold member?
    rw [ho]
    rfl
  own owner k ho name d hd := by
    rw [member?_of_owner ho, within?, hd]
    rfl
  above owner k ho := by
    refine ⟨f.parents k, h.way_parents (h.owned owner k ho).1, fun name hn => ?_⟩
    rw [member?_of_owner ho, within?, hn]
    exact f.nearest_above k name

/-- **Under any use, what is found above a scope is the nearest declaration on the way up.** The way
goes through no scope twice, and it loses nothing that can be reached. -/
theorem searched_under_any_use (us : List Use) : (Declared.start.run us).forest.Searched :=
  WellFormed.searched (wellFormed_empty.run (s := Declared.start) us).1

/-- Two classes extend each other, and a third one extends the first of them. -/
def entwined : List Use := [
  .enterOwned 7 ⟨"A", .cls⟩, .setBase "B", .insert (loose 1 "x"), .exit,
  .enterOwned 8 ⟨"B", .cls⟩, .setBase "A", .insert (loose 2 "y"), .exit,
  .enterOwned 9 ⟨"C", .cls⟩, .setBase "A"]

-- Both are met from outside, and the way ends where it comes back to the first.
example : (Declared.start.run entwined).forest.parents 3 = [1, 2] ∧
    ((Declared.start.run entwined).forest.inherited? "y").map Decl.id = some 2 ∧
    ((Declared.start.run entwined).forest.inherited? "z").isNone = true := ⟨rfl, rfl, rfl⟩

end Forest

end DecafLang
