import DecafLang.Proofs.Acyclic
import DecafLang.Proofs.Sweeps

/-!
# Classes in order, or a class on a cycle

**The classes of a program are put in order exactly if no class is above itself, and what is
refused otherwise is a class that is above itself** (`Program.classes_in_order`).

* The order is that of the two sweeps over the graph of the types: its links go from a class or an
  interface to the classes that name it, and are added in the order of the text (`graph`).
* A class that derives from one on a cycle, without being on it, is never refused. Neither is an
  interface: it has no bases, so it is on no cycle.
-/

namespace DecafLang

open Relation

namespace Hierarchy

variable {h : Hierarchy}

/-! ## 1. The graph of the types -/

/-- What a class names, the class that it extends before the interfaces that it lists. -/
def named (h : Hierarchy) (c : String) : List String := (h.base? c).toList ++ h.listed c

/-- The types, and a link to each class from each type that it names. -/
def graph (h : Hierarchy) : Precedence.Graph String where
  nodes := h.names
  links := h.names.flatMap fun c => (h.named c).map fun b => (b, c)

theorem graph_outgoing : h.graph.outgoing = h.derived := by
  funext n
  unfold Precedence.Graph.outgoing graph derived
  rw [List.filter_flatMap, List.map_flatMap]
  congr 2
  funext c
  rw [List.filter_map, List.map_map]
  rfl

/-- Only a class names types. -/
theorem named_eq_nil {c : String} (hc : c ∉ h.names) : h.named c = [] := by
  refine List.eq_nil_iff_forall_not_mem.mpr fun b hb => hc (mem_names (isSome_of_class? ?_))
  rcases List.mem_append.mp hb with hb | hb
  · exact (base?_isSome (Option.mem_toList.mp hb)).1
  · exact (listed_isSome hb).1

/-- The links that lead from a class's names to it are those to the class. -/
theorem map_links_to (n c : String) :
    (((h.named c).map fun b => (b, c)).filter (·.2 = n)).map Prod.fst =
      if c = n then h.named c else [] := by
  rw [List.filter_map, List.map_map]
  show ((h.named c).filter fun _ => decide (c = n)).map id = _
  by_cases hc : c = n
  · rw [if_pos hc, List.filter_eq_self.mpr fun _ _ => decide_eq_true hc, List.map_id]
  · rw [if_neg hc, List.filter_eq_nil_iff.mpr fun _ _ e => hc (of_decide_eq_true e)]
    rfl

theorem graph_incoming (hn : h.names.Nodup) : h.graph.incoming = h.bases := by
  have others : ∀ n (l : List String), n ∉ l →
      l.flatMap (fun c => if c = n then h.named c else []) = [] := fun n l hl =>
    List.flatMap_eq_nil_iff.mpr fun c hc => if_neg fun e : c = n => hl (e ▸ hc)
  funext n
  unfold Precedence.Graph.incoming bases
  refine congrArg List.reverse ?_
  show ((h.names.flatMap fun c => (h.named c).map fun b => (b, c)).filter (·.2 = n)).map Prod.fst =
    h.named n
  rw [List.filter_flatMap, List.map_flatMap, funext (map_links_to n)]
  by_cases hm : n ∈ h.names
  -- Each name is met once, so only its own place contributes edges that lead to it.
  · obtain ⟨l, r, e⟩ := List.append_of_mem hm
    rw [e] at hn ⊢
    have hlr := (List.nodup_cons.mp (List.nodup_middle.mp hn)).1
    rw [List.flatMap_append, List.flatMap_cons, if_pos rfl,
      others n l fun hl => hlr (List.mem_append_left _ hl),
      others n r fun hr => hlr (List.mem_append_right _ hr), List.nil_append, List.append_nil]
  · rw [others n _ hm, named_eq_nil hm]

/-- **The sweeps over the graph give the sort of the types.** -/
theorem sweeps_iff (hn : h.names.Nodup) {r : Except String (List String)} :
    h.graph.Sweeps r ↔ Precedence.sort h.derived h.bases h.names = r := by
  rw [← graph_outgoing, ← graph_incoming hn]
  refine h.graph.sweeps_iff fun l hl => ?_
  obtain ⟨c, hc, hl⟩ := List.mem_flatMap.mp hl
  obtain ⟨b, _, rfl⟩ := List.mem_map.mp hl
  exact hc

theorem nodup_firsts (seen : List String) (l : List TypeDecl) :
    ((firsts seen l).map TypeDecl.name).Nodup ∧
      ∀ n ∈ (firsts seen l).map TypeDecl.name, n ∉ seen := by
  induction l generalizing seen with
  | nil => exact ⟨List.nodup_nil, nofun⟩
  | cons t l ih =>
    unfold firsts
    split
    · exact ih seen
    · rename_i ht
      obtain ⟨hn, hs⟩ := ih (t.name :: seen)
      refine ⟨List.nodup_cons.mpr ⟨fun h => hs _ h List.mem_cons_self, hn⟩, ?_⟩
      exact List.forall_mem_cons.mpr ⟨ht, fun n h hm => hs n h (List.mem_cons_of_mem _ hm)⟩

theorem nodup_names_ofProgram (p : Program) : (ofProgram p).names.Nodup := (nodup_firsts [] _).1

/-! ## 2. Refusals -/

/-- **What is refused is a class above itself.** -/
theorem cycle_of_sorted {r : Refusal} (e : h.sorted = .error r) :
    ∃ c, h.class? c.name = some c ∧ r = .cyclicInheritance c.name c.node.span ∧
      TransGen (fun a b => h.base? a = some b) c.name c.name := by
  unfold Hierarchy.sorted at e
  cases hs : Precedence.sort h.derived h.bases h.names with
  | ok order =>
    rw [hs] at e
    cases e
  | error n =>
    rw [hs] at e
    obtain ⟨hc, hcycle⟩ :=
      cycle_of_derived (Precedence.cycle_of_sort derived_subset bases_derived hs)
    -- The name that is blamed is a class: interfaces derive from nothing.
    obtain ⟨c, hc⟩ := Option.isSome_iff_exists.mp hc
    obtain rfl := class?_name hc
    obtain ⟨t, ht, hcls⟩ := Option.bind_eq_some_iff.mp hc
    refine ⟨c, hc, ?_, hcycle⟩
    cases t with
    | iface i => cases hcls
    | cls c =>
      cases hcls
      cases e
      unfold cycleAt
      rw [ht]
      rfl

end Hierarchy

/-! ## 3. The classes of a program -/

/-- **The classes of a program are put in order exactly if none is above itself.** Each is then
there once, behind the class that it extends; otherwise a class is refused that is above itself.
The order of the types is what the two sweeps give. -/
theorem Program.classes_in_order (p : Program) :
    let h := Hierarchy.ofProgram p
    (∀ r, h.graph.Sweeps r ↔ Precedence.sort h.derived h.bases h.names = r) ∧
    ((∃ cs, h.sorted = .ok cs) ↔ ∀ c, ¬ TransGen (fun a b => h.base? a = some b) c c) ∧
    (∀ cs, h.sorted = .ok cs → h.Sorts cs) ∧
    ∀ r, h.sorted = .error r → ∃ c, h.class? c.name = some c ∧
      r = .cyclicInheritance c.name c.node.span ∧
        TransGen (fun a b => h.base? a = some b) c.name c.name := by
  intro h
  refine ⟨fun r => Hierarchy.sweeps_iff (Hierarchy.nodup_names_ofProgram p), ⟨?_, ?_⟩, ?_, ?_⟩
  · intro ⟨cs, e⟩
    exact Hierarchy.acyclic_of_sorted e
  · intro ha
    obtain ⟨cs, e, -⟩ := Hierarchy.Acyclic.sorted ha
    exact ⟨cs, e⟩
  · intro cs e
    obtain ⟨cs', e', hs⟩ := (Hierarchy.acyclic_of_sorted e).sorted
    cases e.symm.trans e'
    exact hs
  · intro r e
    exact Hierarchy.cycle_of_sorted e

end DecafLang
