import Mathlib.Data.List.Nodup
import DecafLang.Proofs.Sorting
import DecafLang.Hierarchy.Basic

/-!
# Hierarchies without cycles

**The classes of a hierarchy are sorted exactly if no class is above itself**
(`Hierarchy.Acyclic.sorted`, `acyclic_of_sorted`), and then each stands behind the one that it
extends (`Hierarchy.Sorts`).

Only classes have bases, so a cycle of types is one of classes.
-/

namespace DecafLang

open Relation

namespace Hierarchy

/-! ## 1. Bases and derived classes -/

/-- No class is above itself. -/
def Acyclic (h : Hierarchy) : Prop := ∀ c, ¬ TransGen (fun a b => h.base? a = some b) c c

variable {h : Hierarchy} {a b : String}

theorem mem_names (ha : (h.get? a).isSome = true) : a ∈ h.names := by
  obtain ⟨t, ht⟩ := Option.isSome_iff_exists.mp ha
  have hn : t.name = a := by simpa using List.find?_some ht
  exact List.mem_map.mpr ⟨t, List.mem_of_find?_eq_some ht, hn⟩

theorem isSome_of_class? (ha : (h.class? a).isSome = true) : (h.get? a).isSome = true :=
  Option.isSome_of_isSome_bind ha

theorem isSome_of_iface? (ha : (h.iface? a).isSome = true) : (h.get? a).isSome = true :=
  Option.isSome_of_isSome_bind ha

/-- No type is both. -/
theorem not_iface (ha : (h.class? a).isSome = true) : (h.iface? a).isSome = false := by
  unfold class? at ha
  unfold iface?
  cases hg : h.get? a with
  | none => rfl
  | some t =>
    rw [hg] at ha
    cases t with
    | cls c => rfl
    | iface i => cases ha

theorem base?_isSome (hb : h.base? a = some b) :
    (h.class? a).isSome = true ∧ (h.class? b).isSome = true := by
  unfold base? at hb
  split at hb
  · cases hb
  · rename_i c hc
    split at hb
    · cases hb
    · split at hb
      · rename_i hi
        cases hb
        exact ⟨by rw [hc]; rfl, hi⟩
      · cases hb

theorem listed_isSome (hb : b ∈ h.listed a) :
    (h.class? a).isSome = true ∧ (h.iface? b).isSome = true := by
  unfold listed at hb
  split at hb
  · cases hb
  · rename_i c hc
    exact ⟨by rw [hc]; rfl, (List.mem_filter.mp hb).2⟩

theorem mem_bases : b ∈ h.bases a ↔ h.base? a = some b ∨ b ∈ h.listed a := by
  unfold bases
  rw [List.mem_reverse, List.mem_append, Option.mem_toList]

theorem mem_derived : b ∈ h.derived a ↔ b ∈ h.names ∧ (h.base? b = some a ∨ a ∈ h.listed b) := by
  unfold derived
  rw [List.mem_reverse, List.mem_flatMap]
  constructor
  · intro ⟨c, hc, hb⟩
    obtain ⟨x, hx, rfl⟩ := List.mem_map.mp hb
    obtain ⟨hm, e⟩ := List.mem_filter.mp hx
    obtain rfl := of_decide_eq_true e
    rw [List.mem_append, Option.mem_toList] at hm
    exact ⟨hc, hm⟩
  · intro ⟨hb, ha⟩
    refine ⟨b, hb, List.mem_map.mpr ⟨a, List.mem_filter.mpr ⟨?_, decide_eq_true rfl⟩, rfl⟩⟩
    rw [List.mem_append, Option.mem_toList]
    exact ha

theorem class_of_derived (hb : b ∈ h.derived a) : (h.class? b).isSome = true := by
  rcases (mem_derived.mp hb).2 with hb | hb
  · exact (base?_isSome hb).1
  · exact (listed_isSome hb).1

/-- A class derives only from classes by `extends`. -/
theorem base?_of_derived (hb : b ∈ h.derived a) (ha : (h.class? a).isSome = true) :
    h.base? b = some a := by
  rcases (mem_derived.mp hb).2 with hb | hb
  · exact hb
  · have := (listed_isSome hb).2
    rw [not_iface ha] at this
    cases this

/-- **A cycle of types is a cycle of classes.** -/
theorem cycle_of_derived (hc : TransGen (Precedence.Derives h.derived) a a) :
    (h.class? a).isSome = true ∧ TransGen (fun a b => h.base? a = some b) a a := by
  have up : ∀ b, TransGen (Precedence.Derives h.derived) a b → (h.class? b).isSome = true ∧
      ((h.class? a).isSome = true → TransGen (fun a b => h.base? b = some a) a b) := by
    intro b hb
    induction hb with
    | single hb => exact ⟨class_of_derived hb, fun hc => .single (base?_of_derived hb hc)⟩
    | tail _ hb ih =>
      exact ⟨class_of_derived hb, fun hc => (ih.2 hc).tail (base?_of_derived hb ih.1)⟩
  obtain ⟨hs, hu⟩ := up a hc
  exact ⟨hs, (hu hs).swap⟩

theorem Acyclic.derived (ha : h.Acyclic) : Precedence.Acyclic h.derived := fun c hc =>
  ha c (cycle_of_derived hc).2

/-- The derived types of a type are types. -/
theorem derived_subset : ∀ n ∈ h.names, h.derived n ⊆ h.names := fun _ _ _ hb =>
  (mem_derived.mp hb).1

/-- A base is a type, and has the class among those derived from it. -/
theorem bases_derived : ∀ n, ∀ b ∈ h.bases n, b ∈ h.names ∧ n ∈ h.derived b := by
  intro n b hb
  rcases mem_bases.mp hb with hb | hb
  · obtain ⟨hn, hc⟩ := base?_isSome hb
    exact ⟨mem_names (isSome_of_class? hc),
      mem_derived.mpr ⟨mem_names (isSome_of_class? hn), .inl hb⟩⟩
  · obtain ⟨hn, hi⟩ := listed_isSome hb
    exact ⟨mem_names (isSome_of_iface? hi),
      mem_derived.mpr ⟨mem_names (isSome_of_class? hn), .inr hb⟩⟩

/-! ## 2. Sorted classes -/

theorem class?_name {c : ClassDecl} (hc : h.class? a = some c) : c.name = a := by
  obtain ⟨t, ht, e⟩ := Option.bind_eq_some_iff.mp hc
  have hn : t.name = a := by simpa using List.find?_some ht
  cases t <;> cases e
  exact hn

/-- The classes of a hierarchy, each once, and each behind the one that it extends. -/
structure Sorts (h : Hierarchy) (cs : List ClassDecl) : Prop where
  nodup : (cs.map ClassDecl.name).Nodup
  mem_iff : ∀ c, c ∈ cs ↔ ∃ n, h.class? n = some c
  front : ∀ done c rest, cs = done ++ c :: rest → ∀ b, h.base? c.name = some b →
    b ∈ done.map ClassDecl.name

/-- The order of the types gives that of the classes. -/
theorem Sorts.of_order (ha : h.Acyclic) {order : List String} (hn : order.Nodup)
    (hs : h.names ⊆ order)
    (e : Precedence.sort h.derived h.bases h.names = .ok order) :
    h.Sorts (order.filterMap h.class?) where
  nodup := by
    rw [List.map_filterMap]
    refine List.Nodup.filterMap (fun n n' b hb hb' => ?_) hn
    obtain ⟨c, hc, rfl⟩ := Option.map_eq_some_iff.mp hb
    obtain ⟨c', hc', e⟩ := Option.map_eq_some_iff.mp hb'
    rw [← class?_name hc, ← class?_name hc', e]
  mem_iff c := by
    rw [List.mem_filterMap]
    constructor
    · intro ⟨n, _, hn⟩
      exact ⟨n, hn⟩
    · intro ⟨n, hn⟩
      exact ⟨n, hs (mem_names (isSome_of_class? (Option.isSome_of_mem hn))), hn⟩
  front done c rest he b hb := by
    -- A split of the classes is a split of the sorted names, with interfaces left out.
    obtain ⟨front, l, rfl, rfl, hl⟩ := List.filterMap_eq_append_iff.mp he
    obtain ⟨skipped, n, back, rfl, hskip, hc, rfl⟩ := List.filterMap_eq_cons_iff.mp hl
    obtain rfl := class?_name hc
    obtain ⟨d, hd⟩ := Option.isSome_iff_exists.mp (base?_isSome hb).2
    have hself : b ≠ c.name := fun he => ha c.name (.single (he ▸ hb))
    have hbefore : b ∈ front ++ skipped := by
      have he : front ++ (skipped ++ c.name :: back) = (front ++ skipped) ++ c.name :: back :=
        (List.append_assoc ..).symm
      exact (Precedence.bases_front e he (mem_bases.mpr (.inl hb))).resolve_left hself
    have hfront : b ∈ front := (List.mem_append.mp hbefore).resolve_right fun hm => by
      rw [hskip b hm] at hd
      cases hd
    exact List.mem_map.mpr ⟨d, List.mem_filterMap.mpr ⟨b, hfront, hd⟩, class?_name hd⟩

/-- **Without a cycle all classes are sorted.** -/
theorem Acyclic.sorted (ha : h.Acyclic) : ∃ cs, h.sorted = .ok cs ∧ h.Sorts cs := by
  obtain ⟨order, e, hs, hn⟩ := Precedence.sort_ok ha.derived derived_subset bases_derived
  refine ⟨order.filterMap h.class?, ?_, .of_order ha hn hs e⟩
  unfold Hierarchy.sorted
  rw [e]

/-- **Only without a cycle the classes are sorted.** -/
theorem acyclic_of_sorted {cs : List ClassDecl} (e : h.sorted = .ok cs) : h.Acyclic := by
  have hd : Precedence.Acyclic h.derived := by
    unfold Hierarchy.sorted at e
    cases ho : Precedence.sort h.derived h.bases h.names with
    | error n =>
      rw [ho] at e
      cases e
    | ok order =>
      refine Precedence.acyclic_of_sort ho fun a b hb => ?_
      obtain ⟨hn, hb⟩ := mem_derived.mp hb
      exact ⟨hn, mem_bases.mpr hb⟩
  intro c hc
  have derives : ∀ a b, h.base? b = some a → Precedence.Derives h.derived a b := fun a b hb =>
    mem_derived.mpr ⟨mem_names (isSome_of_class? (base?_isSome hb).1), .inl hb⟩
  -- `base?` leads up and `derived` leads down, hence the swap.
  exact hd c (TransGen.mono derives _ _ (TransGen.swap _ _ hc))

theorem acyclic_iff : h.Acyclic ↔ h.sorted.isOk = true := by
  constructor
  · intro ha
    obtain ⟨cs, e, -⟩ := ha.sorted
    rw [e]
    rfl
  · intro hs
    cases e : h.sorted with
    | error r =>
      rw [e] at hs
      cases hs
    | ok cs => exact acyclic_of_sorted e

instance : Decidable h.Acyclic := decidable_of_iff _ acyclic_iff.symm

end Hierarchy

end DecafLang
