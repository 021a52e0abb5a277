import DecafLang.Syntax.Handwritten
import DecafLang.Hierarchy.Subtyping
import DecafLang.Proofs.Overriding

/-!
# Subtyping as reachability

What `Hierarchy.ancestors`, `isSubclass`, `implements` and `accepts` decide, in a hierarchy that
may have cycles.

* The walk up from a class comes to its end by itself (`Chain.walk_follow`): the bound on its
  steps is never what ends it.
* **The n-th name on the way is the one that n steps lead to and fewer do not**
  (`Chain.getElem?_fromStart_iff`).
* **Whether a value of one type may stand where another is required is an order on the types**
  (`Hierarchy.accepts_trans`, `Hierarchy.Acyclic.accepts_antisymm`), once the type that could not
  be determined is left out. An interface has nothing above it, so the ways over classes and the
  lists of interfaces meet only at the end of a way.
-/

namespace DecafLang

open Relation

/-! ## 1. The walk -/

namespace Chain

variable {α : Type} [DecidableEq α] {next : α → Option α} {room : Nat} {seen l : List α} {a b : α}

/-- The walk along the links, without a bound: it ends where there is no link, or where the link
leads back to something that was seen. -/
inductive Walk (next : α → Option α) : List α → α → List α → Prop
  | stop {seen : List α} {a : α} (stops : next a = none) : Walk next seen a []
  | back {seen : List α} {a b : α} (link : next a = some b) (met : b ∈ seen) : Walk next seen a []
  | on {seen rest : List α} {a b : α} (link : next a = some b) (new : b ∉ seen)
    (walk : Walk next (b :: seen) b rest) : Walk next seen a (b :: rest)

/-- What a number of steps leads to. -/
def after (next : α → Option α) : Nat → α → Option α
  | 0, a => some a
  | n + 1, a => (next a).bind (after next n)

theorem after_of_follow {n : Nat} (h : (follow next room seen a)[n]? = some b) :
    after next (n + 1) a = some b := by
  -- Each step of the walk spends room, and position 0 is one step away.
  induction room generalizing seen a n with
  | zero => cases h
  | succ k ih =>
    unfold follow at h
    split at h
    · cases h
    · rename_i c hc
      split at h
      · cases h
      · rw [after, hc, Option.bind_some]
        cases n with
        | zero => exact h
        | succ n => exact ih h

theorem after_of_fromStart {n : Nat} (h : (fromStart next room a)[n]? = some b) :
    after next n a = some b := by
  cases n with
  | zero => exact h
  | succ n => exact after_of_follow h

omit [DecidableEq α] in
theorem reaches_of_after {n : Nat} (h : after next n a = some b) :
    ReflTransGen (Links next) a b := by
  induction n generalizing a with
  | zero => exact Option.some.inj h ▸ .refl
  | succ n ih =>
    obtain ⟨c, hc, h⟩ := Option.bind_eq_some_iff.mp h
    exact .head hc (ih h)

section

variable (hl : ∀ a b, next a = some b → b ∈ l)

include hl

/-- **With room for all things that are linked to, the bound does not end the walk.** -/
theorem walk_follow (hr : unseen l seen ≤ room) : Walk next seen a (follow next room seen a) := by
  induction room generalizing seen a with
  | zero =>
    rw [follow]
    cases hb : next a with
    | none => exact .stop hb
    | some b => exact .back hb (mem_seen_of_unseen hr (hl a b hb))
  | succ k ih =>
    rw [follow]
    split
    · rename_i hn
      exact .stop hn
    · rename_i b hb
      split
      · rename_i hs
        exact .back hb hs
      · rename_i hs
        have := unseen_cons_lt (hl a b hb) hs
        exact .on hb hs (ih (by omega))

/-- **The n-th thing that is met is the one that n steps lead to and fewer do not.** -/
theorem getElem?_fromStart_iff (hr : l.length ≤ room) {n : Nat} :
    (fromStart next room a)[n]? = some b ↔
      after next n a = some b ∧ ∀ m < n, after next m a ≠ some b := by
  constructor
  · intro h
    refine ⟨after_of_fromStart h, fun m hm hb => ?_⟩
    obtain ⟨hn, e⟩ := List.getElem?_eq_some_iff.mp h
    have hm' : m < (fromStart next room a).length := Nat.lt_trans hm hn
    -- the m-th thing is the same, and nothing is met twice
    have he := (after_of_fromStart (List.getElem?_eq_getElem hm')).symm.trans hb
    have := (nodup_fromStart next room a).getElem_inj_iff.mp ((Option.some.inj he).trans e.symm)
    omega
  · intro ⟨h, hfew⟩
    obtain ⟨k, hk⟩ := List.mem_iff_getElem?.mp
      ((mem_fromStart_iff hl hr).mpr (reaches_of_after h))
    have hle : n ≤ k := Nat.le_of_not_lt fun hlt => hfew k hlt (after_of_fromStart hk)
    rcases Nat.lt_or_eq_of_le hle with hlt | rfl
    · obtain ⟨hk', e⟩ := List.getElem?_eq_some_iff.mp hk
      have hn : n < (fromStart next room a).length := Nat.lt_trans hlt hk'
      have he := (after_of_fromStart (List.getElem?_eq_getElem hn)).symm.trans h
      have := (nodup_fromStart next room a).getElem_inj_iff.mp ((Option.some.inj he).trans e.symm)
      omega
    · exact hk

end

end Chain

/-! ## 2. Classes and interfaces -/

namespace Hierarchy

variable {h : Hierarchy} {a b c i : String}

theorem class?_eq_some_iff {d : ClassDecl} : h.class? a = some d ↔ h.get? a = some (.cls d) := by
  unfold class?
  cases h.get? a with
  | none => simp
  | some t => cases t <;> simp [TypeDecl.cls?]

theorem iface?_isSome_iff : (h.iface? a).isSome = true ↔ ∃ f, h.get? a = some (.iface f) := by
  unfold iface?
  cases h.get? a with
  | none => simp
  | some t => cases t <;> simp [TypeDecl.iface?]

theorem mem_listed_iff : i ∈ h.listed a ↔ (∃ f, h.get? i = some (.iface f)) ∧
    ∃ d, h.get? a = some (.cls d) ∧ i ∈ d.interfaces.map Ident.name := by
  rw [← iface?_isSome_iff]
  simp only [← class?_eq_some_iff]
  unfold listed
  cases h.class? a with
  | none => simp
  | some d => simp [and_comm]

theorem isSubclass_iff : h.isSubclass a b = true ↔ ReflTransGen (Chain.Links h.base?) a b :=
  decide_eq_true_iff.trans mem_ancestors_iff

theorem implements_iff : h.implements a i = true ↔ (∃ f, h.get? i = some (.iface f)) ∧
    ∃ c d, ReflTransGen (Chain.Links h.base?) a c ∧ h.get? c = some (.cls d) ∧
      i ∈ d.interfaces.map Ident.name := by
  unfold implements
  simp only [List.any_eq_true, decide_eq_true_eq, mem_listed_iff, mem_ancestors_iff]
  constructor
  · intro ⟨c, hc, hi, d, hd, hm⟩
    exact ⟨hi, c, d, hc, hd, hm⟩
  · intro ⟨hi, c, d, hc, hd, hm⟩
    exact ⟨c, hc, hi, d, hd, hm⟩

/-- Nothing is above what is no class. -/
theorem eq_of_isSubclass (ha : h.class? a = none) (hb : h.isSubclass a b = true) : a = b := by
  rcases (isSubclass_iff.mp hb).cases_head with e | ⟨c, hc, -⟩
  · exact e
  · have := (base?_isSome hc).1
    rw [ha] at this
    cases this

/-- What implements something is a class. -/
theorem class_of_implements (hi : h.implements a i = true) : (h.class? a).isSome = true := by
  obtain ⟨-, c, d, hc, hd, -⟩ := implements_iff.mp hi
  rw [class_of_ancestor (mem_ancestors_iff.mpr hc), class?_eq_some_iff.mpr hd]
  rfl

/-- What is implemented is no class. -/
theorem implemented_no_class (hi : h.implements a i = true) : h.class? i = none := by
  obtain ⟨⟨f, hf⟩, -⟩ := implements_iff.mp hi
  unfold class?
  rw [hf]
  rfl

/-! ## 3. The order -/

/-- Whether a class or interface is another one, derives from it or implements it. -/
def Below (h : Hierarchy) (a b : String) : Prop :=
  h.isSubclass a b = true ∨ h.implements a b = true

theorem Below.trans (hab : h.Below a b) (hbc : h.Below b c) : h.Below a c := by
  rcases hab with hab | hab
  · have hup := isSubclass_iff.mp hab
    rcases hbc with hbc | hbc
    · exact .inl (isSubclass_iff.mpr (hup.trans (isSubclass_iff.mp hbc)))
    · obtain ⟨hc, k, d, hk, hd⟩ := implements_iff.mp hbc
      exact .inr (implements_iff.mpr ⟨hc, k, d, hup.trans hk, hd⟩)
  · -- `b` is an interface, so the second step stays where it is
    have hb := implemented_no_class hab
    rcases hbc with hbc | hbc
    · exact eq_of_isSubclass hb hbc ▸ .inr hab
    · have := class_of_implements hbc
      rw [hb] at this
      cases this

/-- **Where no class is above itself, no two types are below each other.** -/
theorem Acyclic.below_antisymm (ha : h.Acyclic) (hab : h.Below a b) (hba : h.Below b a) :
    a = b := by
  rcases hab with hab | hab
  · rcases hba with hba | hba
    · rcases reflTransGen_iff_eq_or_transGen.mp (isSubclass_iff.mp hab) with e | hup
      · exact e.symm
      -- one way up at least, and back again: a cycle
      · exact absurd (hup.trans_left (isSubclass_iff.mp hba)) (ha a)
    · exact eq_of_isSubclass (implemented_no_class hba) hab
  · have hb := implemented_no_class hab
    rcases hba with hba | hba
    · exact (eq_of_isSubclass hb hba).symm
    · have := class_of_implements hba
      rw [hb] at this
      cases this

variable {r s t : Ty}

/-- **What a value may stand for**: its own type, a named or array type where it is `null`, and
the types above its class. -/
theorem accepts_iff (hs : s ≠ .error) (ht : t ≠ .error) : h.accepts s t = true ↔
    s = t ∨ (t = .null ∧ ((∃ n, s = .named n) ∨ ∃ e, s = .array e)) ∨
      ∃ a b, s = .named b ∧ t = .named a ∧ h.Below a b := by
  cases s <;> cases t <;>
    first
    | exact absurd rfl hs
    | exact absurd rfl ht
    | simp [accepts, Ty.equiv_iff_eq]
  -- Only two names are left, where the hierarchy decides.
  case named.named b a =>
    constructor
    · rintro ((rfl | hsub) | himp)
      · exact .inl rfl
      · exact .inr (.inl hsub)
      · exact .inr (.inr himp)
    · rintro (rfl | hsub | himp)
      · exact .inl (.inl rfl)
      · exact .inl (.inr hsub)
      · exact .inr himp

theorem accepts_refl (t : Ty) : h.accepts t t = true := by
  cases t <;> simp [accepts, Ty.equiv_iff_eq]

/-- **What may stand for something may stand for all that this may stand for.** -/
theorem accepts_trans (hr : r ≠ .error) (hs : s ≠ .error) (ht : t ≠ .error)
    (hrs : h.accepts r s = true) (hst : h.accepts s t = true) : h.accepts r t = true := by
  rcases (accepts_iff hr hs).mp hrs with rfl | ⟨rfl, -⟩ | ⟨a, b, rfl, rfl, hab⟩
  · exact hst
  · -- only `null` stands for `null`
    rcases (accepts_iff hs ht).mp hst with rfl | ⟨-, ⟨n, e⟩ | ⟨n, e⟩⟩ | ⟨_, _, e, -⟩
    · exact hrs
    all_goals cases e
  · rcases (accepts_iff hs ht).mp hst with rfl | ⟨rfl, -⟩ | ⟨c, a', e, rfl, hca⟩
    · exact hrs
    · exact (accepts_iff hr ht).mpr (.inr (.inl ⟨rfl, .inl ⟨b, rfl⟩⟩))
    · cases e
      exact (accepts_iff hr ht).mpr (.inr (.inr ⟨c, b, rfl, rfl, hca.trans hab⟩))

/-- **Where no class is above itself, types that may stand for each other are the same.** -/
theorem Acyclic.accepts_antisymm (ha : h.Acyclic) (hs : s ≠ .error) (ht : t ≠ .error)
    (hst : h.accepts s t = true) (hts : h.accepts t s = true) : s = t := by
  rcases (accepts_iff hs ht).mp hst with e | ⟨rfl, hnull⟩ | ⟨a, b, rfl, rfl, hab⟩
  · exact e
  · rcases (accepts_iff ht hs).mp hts with e | ⟨rfl, -⟩ | ⟨_, _, e, -⟩
    · exact e.symm
    · rfl
    · cases e
  · rcases (accepts_iff ht hs).mp hts with e | ⟨e, -⟩ | ⟨b', a', e, e', hba⟩
    · exact e.symm
    · cases e
    · cases e
      cases e'
      exact congrArg Ty.named (ha.below_antisymm hba hab)

/-- What the relations of a hierarchy decide. -/
structure Subtyping (h : Hierarchy) : Prop where
  /-- The walk up from a name ends by itself, with what it has met. -/
  ends : ∀ d, ∃ met, Chain.Walk h.base? [d] d met ∧ h.ancestors d = d :: met
  nodup : ∀ d, (h.ancestors d).Nodup
  mem_iff : ∀ d a, a ∈ h.ancestors d ↔ ReflTransGen (fun x y => h.base? x = some y) d a
  /-- Each name stands where the least number of steps that leads to it says. -/
  nearest : ∀ d n a, (h.ancestors d)[n]? = some a ↔
    Chain.after h.base? n d = some a ∧ ∀ m < n, Chain.after h.base? m d ≠ some a
  subclass_iff : ∀ d a,
    h.isSubclass d a = true ↔ ReflTransGen (fun x y => h.base? x = some y) d a
  implements_iff : ∀ d i, h.implements d i = true ↔ (∃ f, h.get? i = some (.iface f)) ∧
    ∃ c k, ReflTransGen (fun x y => h.base? x = some y) d c ∧ h.get? c = some (.cls k) ∧
      i ∈ k.interfaces.map Ident.name
  refl : ∀ t, t ≠ .error → h.accepts t t = true
  trans : ∀ r s t, r ≠ .error → s ≠ .error → t ≠ .error →
    h.accepts r s = true → h.accepts s t = true → h.accepts r t = true
  antisymm : h.Acyclic → ∀ s t, s ≠ .error → t ≠ .error →
    h.accepts s t = true → h.accepts t s = true → s = t

end Hierarchy

/-- **Subtyping is reachability along the superclasses, and an order on the types**, in every
program: what is above a class is listed without repetition and by distance, also where
inheritance goes round in a circle. -/
theorem Program.subtyping (p : Program) : (Hierarchy.ofProgram p).Subtyping :=
  let h := Hierarchy.ofProgram p
  have hl : ∀ a b, h.base? a = some b → b ∈ h.names := fun _ _ => Hierarchy.base?_mem_names
  have hr : h.names.length ≤ h.types.length := Nat.le_of_eq (List.length_map _)
  { ends := fun _ => ⟨_, Chain.walk_follow hl (Nat.le_trans List.countP_le_length hr), rfl⟩
    nodup := fun _ => Chain.nodup_fromStart _ _ _
    mem_iff := fun _ _ => Hierarchy.mem_ancestors_iff
    nearest := fun _ _ _ => Chain.getElem?_fromStart_iff hl hr
    subclass_iff := fun _ _ => Hierarchy.isSubclass_iff
    implements_iff := fun _ _ => Hierarchy.implements_iff
    refl := fun t _ => Hierarchy.accepts_refl t
    trans := fun _ _ _ => Hierarchy.accepts_trans
    antisymm := fun ha _ _ => ha.accepts_antisymm }

/-- A circle of two classes that a third one leads into: the walk ends where it would come back. -/
example : (Hierarchy.mk (["A", "B", "C"].zipWith (fun n b => .cls ⟨.nowhere,
    .called n, some (.called b), [], []⟩) ["B", "C", "B"])).ancestors "A" =
      ["A", "B", "C"] := by decide

/-- A tile may stand for what a square lists, and no two types of the figures stand for each
other. -/
theorem subtyping_figures : (Hierarchy.ofProgram figures).Acyclic ∧
    (Hierarchy.ofProgram figures).accepts (.named "Sized") (.named "Tile") = true ∧
    ∀ s t, s ≠ .error → t ≠ .error → (Hierarchy.ofProgram figures).accepts s t = true →
      (Hierarchy.ofProgram figures).accepts t s = true → s = t := by
  have ha : (Hierarchy.ofProgram figures).Acyclic := by decide +kernel
  have hs : (Hierarchy.ofProgram figures).Subtyping := figures.subtyping
  refine ⟨ha, ?_, hs.antisymm ha⟩
  exact hs.trans _ (.named "Square") _ (by simp) (by simp) (by simp) (by decide +kernel)
    (by decide +kernel)

end DecafLang
