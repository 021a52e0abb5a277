import DecafLang.Syntax.Handwritten
import DecafLang.Proofs.Ancestry
import DecafLang.Proofs.Numbering

/-!
# The register and the hierarchy

Members behind the name of a type, in programs whose classes may hold types.

* The hierarchy knows the types at the top level. The register of scopes takes in nested types as
  well, and **a name there belongs to the first type of the name that is met**, at whatever depth
  (`Program.Numbered.ownerScope?_registered`).
* Where every ancestor of a type is registered under its own name, the members behind the name are
  those that the hierarchy gives (`Program.Named.member_registered`).
* Where a nested type took the name, **no member that the type declares is found behind it**
  (`Program.Numbered.member_lost`).
-/

namespace DecafLang

/-! ## 1. All types -/

mutual

/-- The types in a declaration, each in front of those that are declared in it. -/
def Decl.allTypes : Decl → List TypeDecl
  | .var _ => []
  | .fn _ => []
  | .iface i => [.iface i]
  | .cls c => c.allTypes

/-- A class, and the types in it. -/
def ClassDecl.allTypes : ClassDecl → List TypeDecl
  | ⟨n, i, b, is, ms⟩ => .cls ⟨n, i, b, is, ms⟩ :: Decl.allTypesIn ms

/-- The types in several declarations. -/
def Decl.allTypesIn : List Decl → List TypeDecl
  | [] => []
  | d :: r => d.allTypes ++ Decl.allTypesIn r

end

mutual

theorem Decl.find?_claims_all (name : String) : ∀ d : Decl,
    d.openings.find? (·.claims name) =
      (d.allTypes.find? (·.name == name)).map TypeDecl.opening
  | .var _ => rfl
  | .fn g => by
    have hg := FnDecl.find?_claims [g] name
    rwa [List.flatMap_singleton] at hg
  | .iface i => by
    show (_ :: i.members.flatMap FnDecl.openings).find? _ = _
    rw [List.find?_cons, FnDecl.find?_claims]
    show (match (TypeDecl.iface i).opening.claims name with | true => _ | false => _) =
      ([TypeDecl.iface i].find? _).map _
    rw [TypeDecl.claims_opening, List.find?_cons]
    cases (TypeDecl.iface i).name == name <;> rfl
  | .cls c => c.find?_claims_all name

theorem ClassDecl.find?_claims_all (name : String) : ∀ c : ClassDecl,
    c.openings.find? (·.claims name) =
      (c.allTypes.find? (·.name == name)).map TypeDecl.opening
  | ⟨n, i, b, is, ms⟩ => by
    show ((TypeDecl.cls ⟨n, i, b, is, ms⟩).opening :: Decl.openingsAll ms).find? _ =
      ((TypeDecl.cls ⟨n, i, b, is, ms⟩ :: Decl.allTypesIn ms).find? _).map _
    rw [List.find?_cons, List.find?_cons, TypeDecl.claims_opening, Decl.find?_claims_in name ms]
    cases (TypeDecl.cls ⟨n, i, b, is, ms⟩).name == name <;> rfl

/-- Of several declarations, the first type of a name claims it. -/
theorem Decl.find?_claims_in (name : String) : ∀ ds : List Decl,
    (Decl.openingsAll ds).find? (·.claims name) =
      ((Decl.allTypesIn ds).find? (·.name == name)).map TypeDecl.opening
  | [] => rfl
  | d :: r => by
    show (d.openings ++ Decl.openingsAll r).find? _ =
      ((d.allTypes ++ Decl.allTypesIn r).find? _).map _
    rw [List.find?_append, List.find?_append, d.find?_claims_all name, Decl.find?_claims_in name r]
    cases d.allTypes.find? (·.name == name) <;> rfl

end

mutual

theorem Decl.all_types_opened : ∀ d : Decl,
    (d.allTypes.map TypeDecl.opening).Sublist d.openings
  | .var _ => .slnil
  | .fn _ => List.nil_sublist _
  | .iface _ => List.singleton_sublist.mpr List.mem_cons_self
  | .cls c => c.all_types_opened

theorem ClassDecl.all_types_opened : ∀ c : ClassDecl,
    (c.allTypes.map TypeDecl.opening).Sublist c.openings
  | ⟨_, _, _, _, ms⟩ => (Decl.all_types_opened_in ms).cons_cons _

/-- The types have scopes, in their order. -/
theorem Decl.all_types_opened_in : ∀ ds : List Decl,
    ((Decl.allTypesIn ds).map TypeDecl.opening).Sublist (Decl.openingsAll ds)
  | [] => .slnil
  | d :: r => by
    show ((d.allTypes ++ Decl.allTypesIn r).map _).Sublist (d.openings ++ Decl.openingsAll r)
    rw [List.map_append]
    exact d.all_types_opened.append (Decl.all_types_opened_in r)

end

namespace TypeDecl

theorem mem_allTypes (t : TypeDecl) : t ∈ t.decl.allTypes := by
  cases t with
  | cls c =>
    cases c
    exact List.mem_cons_self
  | iface i => exact List.mem_cons_self

end TypeDecl

namespace Program

/-- The classes and interfaces of a program, the nested ones among them, in the order in which they
are met. -/
def allTypes (p : Program) : List TypeDecl := Decl.allTypesIn p.decls

/-- The type that a name is registered for: the first of the name that is met. -/
def registered? (p : Program) (name : String) : Option TypeDecl :=
  p.allTypes.find? (·.name == name)

variable {p : Program} {t u : TypeDecl} {name member : String}

theorem mem_allTypes (ht : t ∈ p.types) : t ∈ p.allTypes := by
  have along : ∀ ds : List Decl, t.decl ∈ ds → t ∈ Decl.allTypesIn ds := by
    intro ds hd
    induction ds with
    | nil => cases hd
    | cons d ds ih =>
      rcases List.mem_cons.mp hd with rfl | hd
      · exact List.mem_append_left _ t.mem_allTypes
      · exact List.mem_append_right _ (ih hd)
  exact along p.decls (mem_types.mp ht)

theorem mem_of_registered? (h : p.registered? name = some t) : t ∈ p.allTypes ∧ t.name = name :=
  ⟨List.mem_of_find?_eq_some h, by simpa using List.find?_some h⟩

/-! ## 2. The register -/

namespace Numbered

variable (h : p.Numbered)

include h

/-- The types have numbers of their own, the nested ones too. -/
theorem nodup_allTypes : (p.allTypes.map TypeDecl.id).Nodup := by
  have hs := (Decl.all_types_opened_in p.decls).map Opening.node
  rw [List.map_map, show Opening.node ∘ TypeDecl.opening = TypeDecl.id from
    funext TypeDecl.opening_node] at hs
  exact h.nodup_nodes.sublist hs

omit h in
theorem opening_registered (ht : t ∈ p.allTypes) : t.opening ∈ p.openings :=
  (Decl.all_types_opened_in p.decls).subset (List.mem_map_of_mem ht)

/-- **The scope of a name is that of the first type of the name that is met.** -/
theorem ownerScope?_registered (name : String) :
    p.scopes.ownerScope? name = (p.registered? name).map fun t => p.scopes.slotOf t.id := by
  have e : (p.openings.map Opening.kept).find? (·.claims name) =
      (p.openings.find? (·.claims name)).map Opening.kept := List.find?_map
  have hc : p.openings.find? (·.claims name) = (p.registered? name).map TypeDecl.opening :=
    Decl.find?_claims_in name p.decls
  rw [h.opened_kept.ownerScope?_slot, e, hc, Option.map_map, Option.map_map]
  cases p.registered? name with
  | none => rfl
  | some t => exact congrArg some (congrArg _ t.opening_node)

/-- What is found behind a name lies in a type that some name is registered for. -/
theorem of_member_registered {d : Decl} (hm : p.scopes.member? name member = some d) :
    ∃ x u, p.registered? x = some u ∧ d ∈ u.members := by
  have of_scope : ∀ {x k}, p.scopes.ownerScope? x = some k →
      (p.scopes.scope k).get? member = some d →
        ∃ x u, p.registered? x = some u ∧ d ∈ u.members := by
    intro x k hk hd
    rw [h.ownerScope?_registered] at hk
    obtain ⟨u, hu, rfl⟩ := Option.map_eq_some_iff.mp hk
    rw [h.get?_opening (opening_registered (mem_of_registered? hu).1)] at hd
    exact ⟨x, u, hu, List.mem_of_find?_eq_some hd⟩
  obtain ⟨k, hk, hd⟩ := Option.bind_eq_some_iff.mp hm
  -- the class's own member, or one met on the way up
  rcases Option.or_eq_some_iff.mp hd with hd | ⟨-, hd⟩
  · exact of_scope hk hd
  · obtain ⟨j, hj, hd⟩ := List.exists_of_findSome?_eq_some hd
    obtain ⟨x, hx⟩ := (Forest.of_mem_parents hj).2
    exact of_scope hx hd

/-- A declaration is a member of one type. -/
theorem eq_of_member {d : Decl} (ht : t ∈ p.allTypes) (hu : u ∈ p.allTypes) (hd : d ∈ t.members)
    (hd' : d ∈ u.members) : t = u := by
  have hn := (List.nodup_append.mp h.nodup_declared).2.1
  have e : t.opening = u.opening :=
    eq_of_mem_flatMap (x := d.id) hn (opening_registered ht) (opening_registered hu)
      (List.mem_map_of_mem (t.opening_decls ▸ hd)) (List.mem_map_of_mem (u.opening_decls ▸ hd'))
  refine List.inj_on_of_nodup_map h.nodup_allTypes ht hu ?_
  rw [← t.opening_node, ← u.opening_node, e]

/-- **A type whose name went to another one has lost its members:** what it declares is not found
behind its name. -/
theorem member_lost (ht : t ∈ p.types) (hr : p.registered? t.name ≠ some t) {d : Decl}
    (hd : d ∈ t.members) : p.scopes.member? name member ≠ some d := by
  intro hm
  obtain ⟨x, u, hu, hd'⟩ := h.of_member_registered hm
  obtain ⟨hm, rfl⟩ := mem_of_registered? hu
  obtain rfl := h.eq_of_member (mem_allTypes ht) hm hd hd'
  exact hr hu

end Numbered

end Program

/-! ## 3. The hierarchy -/

namespace Hierarchy

/-- What a type itself declares under a name. -/
def own? (h : Hierarchy) (member name : String) : Option Decl :=
  (h.get? name).bind fun t => t.members.find? (·.name == member)

/-- The declaration of a name in the first type that has it, of a type and its ancestors. -/
def nearest? (h : Hierarchy) (name member : String) : Option Decl :=
  (h.ancestors name).findSome? (h.own? member)

end Hierarchy

/-- The scope of the type that the hierarchy knows under a name. -/
def Program.slotNamed (p : Program) (name : String) : ScopeId :=
  ((p.analyze.hierarchy.get? name).map fun u => p.scopes.slotOf u.id).getD 0

namespace Program.Named

variable {p : Program} {t : TypeDecl} {name : String} (h : p.Named)

include h

theorem get?_eq (ht : t ∈ p.types) : p.analyze.hierarchy.get? t.name = some t :=
  (hierarchy_get? h.nodup_names t.name).trans (h.type?_eq ht)

/-- The members of a type have names of their own. -/
theorem nodup_type_members (ht : t ∈ p.types) : (t.members.map Decl.name).Nodup := by
  obtain ⟨k, hk⟩ := h.hasAll _ (opening_mem ht)
  have hn := h.tidy k
  rwa [hk.decls_eq, t.opening_decls] at hn

/-- A class and its ancestors are types at the top level. -/
theorem type_of_ancestor (ht : t ∈ p.types) (ha : name ∈ p.analyze.hierarchy.ancestors t.name) :
    ∃ u ∈ p.types, u.name = name := by
  rcases List.mem_cons.mp ha with rfl | ha
  · exact ⟨t, ht, rfl⟩
  · obtain ⟨a, hb⟩ := Chain.exists_of_mem_follow ha
    obtain ⟨c, hc⟩ := Option.isSome_iff_exists.mp (Hierarchy.base?_isSome hb).2
    exact ⟨.cls c, mem_types.mpr (h.class_mem hc), Hierarchy.class?_name hc⟩

/-- The hierarchy has the name that stands after `extends`. -/
theorem base?_type (ht : t ∈ p.types) : p.analyze.hierarchy.base? t.name = t.base? := by
  cases t with
  | cls c => exact h.base?_eq (mem_types.mp ht)
  | iface i =>
    have hc : p.analyze.hierarchy.class? i.name = none :=
      congrArg (·.bind TypeDecl.cls?) (h.get?_eq ht)
    show p.analyze.hierarchy.base? i.name = none
    unfold Hierarchy.base?
    rw [hc]

theorem slotNamed_eq (ht : t ∈ p.types) : p.slotNamed t.name = p.scopes.slotOf t.id := by
  unfold slotNamed
  rw [h.get?_eq ht]
  rfl

theorem slotNamed_inj {u : TypeDecl} (ht : t ∈ p.types) (hu : u ∈ p.types)
    (e : p.slotNamed t.name = p.slotNamed u.name) : t = u := by
  rw [h.slotNamed_eq ht, h.slotNamed_eq hu] at e
  exact List.inj_on_of_nodup_map h.numbered.nodup_types ht hu (h.numbered.slotOf_inj ht hu e)

/-- The scope of a type is linked to that of its base, if that is registered under its own name. -/
theorem parent?_slotNamed (ht : t ∈ p.types)
    (hr : ∀ b, p.analyze.hierarchy.base? t.name = some b →
      (∃ u ∈ p.types, u.name = b) ∧ p.registered? b = p.analyze.hierarchy.get? b) :
    p.scopes.parent? (p.slotNamed t.name) =
      (p.analyze.hierarchy.base? t.name).map p.slotNamed := by
  have hp : (p.scopes.scope (p.scopes.slotOf t.id)).parent = t.base? :=
    (h.numbered.has_type ht).parent_eq.trans t.opening_parent
  unfold Forest.parent?
  rw [h.slotNamed_eq ht, hp]
  rw [h.base?_type ht] at hr ⊢
  cases hb : t.base? with
  | none => rfl
  | some b =>
    obtain ⟨⟨u, hu, rfl⟩, hreg⟩ := hr b hb
    show p.scopes.ownerScope? u.name = some (p.slotNamed u.name)
    rw [h.numbered.ownerScope?_registered, hreg, h.get?_eq hu, h.slotNamed_eq hu]
    rfl

/-- **Where the bases above a type are registered under their own names, the scopes above its scope
are those of its ancestors.** -/
theorem parents_linked (ht : t ∈ p.types)
    (hr : ∀ a ∈ p.analyze.hierarchy.ancestors t.name, ∀ b,
      p.analyze.hierarchy.base? a = some b → p.registered? b = p.analyze.hierarchy.get? b) :
    p.scopes.parents (p.scopes.slotOf t.id) =
      (p.analyze.hierarchy.ancestors t.name).tail.map p.slotNamed := by
  -- `hr` speaks of the ancestors only, so the walk must not leave them.
  have closed : ∀ a b, a ∈ p.analyze.hierarchy.ancestors t.name →
      p.analyze.hierarchy.base? a = some b → b ∈ p.analyze.hierarchy.ancestors t.name :=
    fun a b ha hb => Hierarchy.ancestors_trans ha (Hierarchy.mem_ancestors_iff.mpr (.single hb))
  -- The walk over scopes is the walk over names, since distinct ancestors have distinct scopes.
  have hmap : Chain.follow p.scopes.parent? p.scopes.size [p.slotNamed t.name]
      (p.slotNamed t.name) =
        (Chain.follow p.analyze.hierarchy.base? p.scopes.size [t.name] t.name).map p.slotNamed := by
    have hs : ∀ a ∈ [t.name], a ∈ p.analyze.hierarchy.ancestors t.name := fun a ha =>
      List.mem_singleton.mp ha ▸ List.mem_cons_self
    refine Chain.follow_map (D := (· ∈ p.analyze.hierarchy.ancestors t.name)) ?_ closed ?_ hs
      List.mem_cons_self
    · intro a ha
      obtain ⟨u, hu, rfl⟩ := h.type_of_ancestor ht ha
      exact h.parent?_slotNamed hu fun b hb =>
        ⟨h.type_of_ancestor ht (closed u.name b ha hb), hr u.name ha b hb⟩
    · intro a b ha hb e
      obtain ⟨u, hu, rfl⟩ := h.type_of_ancestor ht ha
      obtain ⟨v, hv, rfl⟩ := h.type_of_ancestor ht hb
      exact congrArg TypeDecl.name (h.slotNamed_inj hu hv e)
  have hroom : Chain.follow p.analyze.hierarchy.base? p.scopes.size [t.name] t.name =
      (p.analyze.hierarchy.ancestors t.name).tail := by
    refine Chain.follow_room (l := p.analyze.hierarchy.names)
      (fun _ _ hb => Hierarchy.base?_mem_names hb) ?_ (Nat.le_of_eq (List.length_map _))
    rw [Hierarchy.names, List.length_map, hierarchy_types h.nodup_names]
    exact h.numbered.types_length_le
  unfold Forest.parents
  rw [← h.slotNamed_eq ht, hmap, hroom]

/-- **Where the ancestors of a type are registered under their own names, the scopes above its
scope are theirs.** -/
theorem parents_registered (ht : t ∈ p.types)
    (hr : ∀ a ∈ p.analyze.hierarchy.ancestors t.name,
      p.registered? a = p.analyze.hierarchy.get? a) :
    p.scopes.parents (p.scopes.slotOf t.id) =
      (p.analyze.hierarchy.ancestors t.name).tail.map p.slotNamed :=
  h.parents_linked ht fun _ ha b hb =>
    hr b (Hierarchy.ancestors_trans ha (Hierarchy.mem_ancestors_iff.mpr (.single hb)))

/-- **The register and the hierarchy agree where the names of the types are their own.** If every
ancestor of a type is what its name is registered for, then what is found behind the name of the
type is the nearest declaration. A type whose name is registered for another one is cut off: the
hierarchy gives its members, and they are found behind no name. -/
theorem member_nearest (ht : t ∈ p.types) :
    ((∀ a ∈ p.analyze.hierarchy.ancestors t.name,
        p.registered? a = p.analyze.hierarchy.get? a) →
      ∀ member, p.scopes.member? t.name member =
        p.analyze.hierarchy.nearest? t.name member) ∧
    (p.registered? t.name ≠ p.analyze.hierarchy.get? t.name →
      ∀ d ∈ t.members, p.analyze.hierarchy.nearest? t.name d.name = some d ∧
        ∀ name member, p.scopes.member? name member ≠ some d) := by
  constructor
  · intro hr member
    have own : ∀ {u}, u ∈ p.types → (p.scopes.scope (p.scopes.slotOf u.id)).get? member =
        p.analyze.hierarchy.own? member u.name := fun {u} hu => by
      unfold Hierarchy.own?
      rw [h.numbered.get?_eq hu, h.get?_eq hu]
      rfl
    have hs : p.scopes.ownerScope? t.name = some (p.scopes.slotOf t.id) := by
      rw [h.numbered.ownerScope?_registered, hr _ List.mem_cons_self, h.get?_eq ht]
      rfl
    -- Both sides search the class first and then upwards, in the same order.
    unfold Forest.member? Forest.within? Forest.above? Hierarchy.nearest?
    rw [hs, Option.bind_some, own ht, h.parents_registered ht hr, List.findSome?_map]
    refine Eq.trans ?_ (findSome?_cons_or _ _ _).symm
    refine congrArg _ (findSome?_congr fun a ha => ?_)
    obtain ⟨u, hu, rfl⟩ := h.type_of_ancestor ht (List.mem_of_mem_tail ha)
    show (p.scopes.scope (p.slotNamed u.name)).get? member = _
    rw [h.slotNamed_eq hu]
    exact own hu
  · intro hr d hd
    rw [h.get?_eq ht] at hr
    have ho : p.analyze.hierarchy.own? d.name t.name = some d := by
      unfold Hierarchy.own?
      rw [h.get?_eq ht]
      exact find?_key (h.nodup_type_members ht) hd
    refine ⟨?_, fun name member => h.numbered.member_lost ht hr hd⟩
    unfold Hierarchy.nearest?
    refine (findSome?_cons_or _ _ _).trans ?_
    rw [ho]
    rfl

end Program.Named

/-- A box holds a class of labels of its own, and there are labels at the top level as well. -/
def boxes : Program := .number [
  .cls ⟨.nowhere, .called "Box", none, [], [
    .cls ⟨.nowhere, .called "Label", none, [], [.var (.int "size")]⟩]⟩,
  .cls ⟨.nowhere, .called "Label", none, [], [
    .fn ⟨.nowhere, .called "width", .prim 0 .int, [], some ⟨.nowhere, [],
      [.ret .nowhere (some (.int .nowhere 7))]⟩⟩]⟩,
  .cls ⟨.nowhere, .called "Crate", some (.called "Box"), [], [
    .var (.int "weight")]⟩,
  .fn ⟨.nowhere, .called "main", .prim 0 .void, [], some ⟨.nowhere,
    [.called "l" (.named 0 (.called "Label"))],
    [.set (.use "l") (.new .nowhere (.called "Label")),
      .expr (.send .nowhere (.use "l") (.called "width") [])]⟩⟩]

theorem boxes_named : boxes.Named := ⟨Program.number_numbered _, rfl, rfl⟩

/-- The type of a name among the boxes. -/
def boxes.typeOf (name : String) : TypeDecl := (boxes.type? name).getD (.cls default)

theorem boxes.typeOf_mem {name : String} (h : (boxes.type? name).isSome = true) :
    boxes.typeOf name ∈ boxes.types ∧ (boxes.typeOf name).name = name := by
  obtain ⟨t, ht⟩ := Option.isSome_iff_exists.mp h
  unfold boxes.typeOf
  rw [ht]
  exact Program.mem_of_type? ht

/-- All members of a crate are found, and the width of a label is not. -/
theorem member_nearest_boxes :
    (∀ member, boxes.scopes.member? "Crate" member =
      boxes.analyze.hierarchy.nearest? "Crate" member) ∧
    ∀ d ∈ (boxes.typeOf "Label").members, boxes.analyze.hierarchy.nearest? "Label" d.name = some d ∧
      ∀ name member, boxes.scopes.member? name member ≠ some d := by
  obtain ⟨hc, ec⟩ := boxes.typeOf_mem (show (boxes.type? "Crate").isSome = true by decide +kernel)
  obtain ⟨hl, el⟩ := boxes.typeOf_mem (show (boxes.type? "Label").isSome = true by decide +kernel)
  have hup : boxes.analyze.hierarchy.ancestors "Crate" = ["Crate", "Box"] := by decide +kernel
  have found := (boxes_named.member_nearest hc).1
  have lost := (boxes_named.member_nearest hl).2
  rw [ec, hup] at found
  rw [el] at lost
  refine ⟨found ?_, lost fun e => ?_⟩
  · exact List.forall_mem_cons.mpr ⟨rfl, List.forall_mem_cons.mpr ⟨rfl, nofun⟩⟩
  · have hi : (boxes.registered? "Label").map TypeDecl.id ≠
        (boxes.analyze.hierarchy.get? "Label").map TypeDecl.id := by decide +kernel
    exact hi (congrArg _ e)

/-- The hierarchy knows the width of a label, and behind the name of the class it is not found. -/
theorem member_not_nearest_boxes : boxes.Named ∧ "Label" ∈ boxes.types.map TypeDecl.name ∧
    boxes.scopes.member? "Label" "width" ≠ boxes.analyze.hierarchy.nearest? "Label" "width" := by
  refine ⟨boxes_named, by decide +kernel, fun e => ?_⟩
  have hs : (boxes.scopes.member? "Label" "width").isSome ≠
      (boxes.analyze.hierarchy.nearest? "Label" "width").isSome := by decide +kernel
  exact hs (congrArg Option.isSome e)

end DecafLang
