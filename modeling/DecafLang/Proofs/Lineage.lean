import Mathlib.Data.List.Perm.Subperm
import DecafLang.Proofs.Chains
import DecafLang.Proofs.Written

/-!
# The types above a type

What a type inherits, read off the text of the program.

* `Program.above` lists what is met from a type on by following `extends` to the first type of
  that name. The way ends at an unknown name, at an interface, and where it comes back to a type.
* **The scopes lead the same way** (`Program.Numbered.parents_eq`), in every program whose classes
  hold no types, whatever is declared twice.
* So all that the checks ask the scopes of a class about can be answered from the text: members
  (`member?_eq`), inherited members (`inherited?_eq`), prototypes (`required?_eq`).
-/

namespace DecafLang

/-! ## 1. Types in the text -/

namespace TypeDecl

/-- The number of the declaration. -/
def id (t : TypeDecl) : NodeId := t.decl.id

/-- What is declared in the type. -/
def members : TypeDecl → List Decl
  | cls c => c.members
  | iface i => i.members.map .fn

/-- The name after `extends`. -/
def base? : TypeDecl → Option String
  | cls c => c.base.map Ident.name
  | iface _ => none

/-- The scope of the type. -/
def opening : TypeDecl → Opening
  | cls c => ⟨c.node.id, c.heading.addAll c.members⟩
  | iface i => ⟨i.node.id, .holding (some i.owner) (i.members.map .fn)⟩

@[simp] theorem opening_node (t : TypeDecl) : t.opening.node = t.id := by
  cases t <;> rfl

@[simp] theorem opening_decls (t : TypeDecl) : t.opening.scope.decls = t.members := by
  cases t <;> rfl

@[simp] theorem opening_parent (t : TypeDecl) : t.opening.scope.parent = t.base? := by
  cases t <;> rfl

/-- A declaration is a type if it is that of a type. -/
theorem ofDecl?_eq_some {d : Decl} {t : TypeDecl} : ofDecl? d = some t ↔ d = t.decl := by
  constructor
  · intro h
    cases d <;> cases h <;> rfl
  · rintro rfl
    cases t <;> rfl

end TypeDecl

/-- An element that alone leads to anything is all that a list leads to. -/
theorem flatMap_alone {α β : Type} {f : α → List β} {l : List α} {x : α} (hn : l.Nodup)
    (hx : x ∈ l) (h : ∀ y ∈ l, y ≠ x → f y = []) : l.flatMap f = f x := by
  obtain ⟨front, back, rfl⟩ := List.append_of_mem hx
  have hd := List.nodup_middle.mp hn
  have apart : ∀ y ∈ front ++ back, f y = [] := fun y hy => by
    refine h y ?_ fun e => (List.nodup_cons.mp hd).1 (e ▸ hy)
    exact (List.perm_middle.mem_iff).mpr (List.mem_cons_of_mem _ hy)
  have none_of : ∀ l' : List α, l' ⊆ front ++ back → l'.flatMap f = [] := fun l' hl =>
    List.flatMap_eq_nil_iff.mpr fun y hy => apart y (hl hy)
  rw [List.flatMap_append, List.flatMap_cons, none_of front (List.subset_append_left _ _),
    none_of back (List.subset_append_right _ _), List.nil_append, List.append_nil]

/-- An entry that only one element of a list leads to is counted there: the others lead to nothing
once all other entries are left out. -/
theorem count_flatMap_alone {α β : Type} [DecidableEq β] {f : α → List β} {l : List α} {x : α}
    {b : β} (hn : l.Nodup) (hx : x ∈ l) (h : ∀ y ∈ l, b ∈ f y → y = x) :
    (l.flatMap f).count b = (f x).count b := by
  have apart : ∀ y ∈ l, y ≠ x → (f y).filter (· == b) = [] := fun y hy hne =>
    List.filter_eq_nil_iff.mpr fun c hc hb => hne (h y hy (eq_of_beq hb ▸ hc))
  rw [List.count, List.countP_eq_length_filter, List.filter_flatMap,
    flatMap_alone hn hx apart, ← List.countP_eq_length_filter, ← List.count]

/-- Functions that agree on a list find the same in it. -/
theorem findSome?_congr {α β : Type} {f g : α → Option β} {l : List α} (h : ∀ a ∈ l, f a = g a) :
    l.findSome? f = l.findSome? g := by
  induction l with
  | nil => rfl
  | cons a l ih =>
    rw [List.findSome?_cons, List.findSome?_cons, h a List.mem_cons_self,
      ih fun b hb => h b (List.mem_cons_of_mem _ hb)]

/-- What is found first is found in front or behind. -/
theorem findSome?_cons_or {α β : Type} (f : α → Option β) (a : α) (l : List α) :
    (a :: l).findSome? f = (f a).or (l.findSome? f) := by
  rw [List.findSome?_cons]
  cases f a <;> rfl

/-- To look among what is kept is to look among all. -/
theorem findSome?_filterMap {α β γ : Type} (f : α → Option β) (g : β → Option γ) (l : List α) :
    (l.filterMap f).findSome? g = l.findSome? fun a => (f a).bind g := by
  induction l with
  | nil => rfl
  | cons a l ih =>
    rw [List.filterMap_cons, findSome?_cons_or _ a, ← ih]
    cases f a with
    | none => rfl
    | some b => exact findSome?_cons_or g b _

/-- The declaration of a name in the first of several lists that has one. -/
def Decl.among? (dss : List (List Decl)) (name : String) : Option Decl :=
  dss.findSome? fun ds => ds.find? (·.name == name)

/-- Among lists of declarations the first one is looked through first. -/
theorem Decl.among?_cons (ds : List Decl) (dss : List (List Decl)) (name : String) :
    Decl.among? (ds :: dss) name = (ds.find? (·.name == name)).or (Decl.among? dss name) :=
  findSome?_cons_or _ ds dss

theorem Decl.among?_singleton (ds : List Decl) (name : String) :
    Decl.among? [ds] name = ds.find? (·.name == name) := by
  rw [Decl.among?_cons]
  exact Option.or_none

namespace Program

/-- The classes and interfaces at the top level, in the order of the text. -/
def types (p : Program) : List TypeDecl := p.decls.filterMap TypeDecl.ofDecl?

/-- The first class or interface of a name. -/
def type? (p : Program) (name : String) : Option TypeDecl := p.types.find? (·.name == name)

/-- The class or interface with a number. -/
def typeAt? (p : Program) (id : NodeId) : Option TypeDecl := p.types.find? (·.id == id)

/-- The number of the type whose name stands after `extends`. -/
def extended? (p : Program) (id : NodeId) : Option NodeId :=
  ((p.typeAt? id).bind TypeDecl.base?).bind fun name => (p.type? name).map TypeDecl.id

/-- The types above a type, nearest first. -/
def above (p : Program) (t : TypeDecl) : List TypeDecl :=
  (Chain.follow p.extended? p.types.length [t.id] t.id).filterMap p.typeAt?

/-- The members of a type and of those above it. -/
def lineage (p : Program) (t : TypeDecl) : List (List Decl) :=
  t.members :: (p.above t).map TypeDecl.members

variable {p : Program} {t : TypeDecl} {name : String}

/-- The types of a program are those of its declarations that are types. -/
theorem mem_types : t ∈ p.types ↔ t.decl ∈ p.decls := by
  unfold types
  rw [List.mem_filterMap]
  constructor
  · intro ⟨d, hd, e⟩
    exact TypeDecl.ofDecl?_eq_some.mp e ▸ hd
  · intro h
    exact ⟨_, h, TypeDecl.ofDecl?_eq_some.mpr rfl⟩

/-- The type of a name is a type of the program, and has the name. -/
theorem mem_of_type? (h : p.type? name = some t) : t ∈ p.types ∧ t.name = name :=
  ⟨List.mem_of_find?_eq_some h, by simpa using List.find?_some h⟩

/-- The type at a node is a type of the program, and stands there. -/
theorem mem_of_typeAt? {i : NodeId} (h : p.typeAt? i = some t) : t ∈ p.types ∧ t.id = i :=
  ⟨List.mem_of_find?_eq_some h, by simpa using List.find?_some h⟩

/-- The types stand in the order of the declarations. -/
theorem types_sublist (ds : List Decl) :
    ((ds.filterMap TypeDecl.ofDecl?).map TypeDecl.decl).Sublist ds := by
  induction ds with
  | nil => exact .slnil
  | cons d ds ih =>
    cases d with
    | var v => exact ih.cons _
    | fn g => exact ih.cons _
    | iface i => exact ih.cons_cons _
    | cls c => exact ih.cons_cons _

/-- The types have numbers of their own. -/
theorem Numbered.nodup_types (h : p.Numbered) : (p.types.map TypeDecl.id).Nodup := by
  have hn := (List.nodup_append.mp h.nodup_declared).1
  have hs := (types_sublist p.decls).map Decl.id
  rw [List.map_map] at hs
  exact hn.sublist hs

/-- No class stands at the top level twice. -/
theorem Numbered.nodup_classes (h : p.Numbered) : (p.decls.filterMap Decl.cls?).Nodup := by
  have hn : p.decls.Nodup := (List.nodup_append.mp h.nodup_declared).1.of_map
  refine hn.filterMap fun d d' b hd hd' => ?_
  cases d <;> cases hd
  cases d' <;> cases hd'
  rfl

/-- At the node of a type stands this type. -/
theorem Numbered.typeAt?_eq (h : p.Numbered) (ht : t ∈ p.types) : p.typeAt? t.id = some t :=
  find?_key h.nodup_types ht

/-- A type extends the first type of the name that it gives. -/
theorem Numbered.extended?_eq (h : p.Numbered) (ht : t ∈ p.types) :
    p.extended? t.id = t.base?.bind fun name => (p.type? name).map TypeDecl.id := by
  unfold extended?
  rw [h.typeAt?_eq ht]
  rfl

/-- What is met on the way is a type. -/
theorem of_extended? {i j : NodeId} (h : p.extended? i = some j) : ∃ t ∈ p.types, t.id = j := by
  obtain ⟨name, -, hn⟩ := Option.bind_eq_some_iff.mp h
  obtain ⟨t, ht, e⟩ := Option.map_eq_some_iff.mp hn
  exact ⟨t, (mem_of_type? ht).1, e⟩

/-- **The types above are met by following their numbers.** -/
theorem Numbered.above_ids (h : p.Numbered) (t : TypeDecl) :
    (p.above t).map TypeDecl.id = Chain.follow p.extended? p.types.length [t.id] t.id := by
  -- every number on the way is that of a type
  have hall : ∀ i ∈ Chain.follow p.extended? p.types.length [t.id] t.id,
      (p.typeAt? i).map TypeDecl.id = some i := fun i hi => by
    obtain ⟨j, hj⟩ := Chain.exists_of_mem_follow hi
    obtain ⟨u, hu, rfl⟩ := of_extended? hj
    rw [h.typeAt?_eq hu]
    rfl
  unfold above
  rw [List.map_filterMap, List.filterMap_congr hall, List.filterMap_some]

/-- What is met is a type of the program. -/
theorem mem_types_of_above {u : TypeDecl} (h : u ∈ p.above t) : u ∈ p.types := by
  obtain ⟨i, -, hi⟩ := List.mem_filterMap.mp h
  exact (mem_of_typeAt? hi).1

end Program

/-! ## 2. The scopes of types -/

/-- A scope that is at most that of a function is registered under no name. -/
theorem Opening.not_claims {o : Opening} (h : ∀ w, o.scope.owner = some w → w.kind = .fn)
    (name : String) : o.claims name = false := by
  unfold claims
  split
  · rename_i w hw
    rw [h w hw]
    rfl
  · rfl

/-- Functions are not registered as types. -/
theorem FnDecl.find?_claims (gs : List FnDecl) (name : String) :
    (gs.flatMap FnDecl.openings).find? (·.claims name) = none := by
  refine List.find?_eq_none.mpr fun o ho => ?_
  obtain ⟨g, -, ho⟩ := List.mem_flatMap.mp ho
  rw [o.not_claims (g.opens_variables o ho).2]
  exact Bool.false_ne_true

/-- Neither is anything in a class that holds no types. -/
theorem Decl.find?_claims_members {ds : List Decl} (hd : ∀ d ∈ ds, d.isType = false)
    (name : String) : (Decl.openingsAll ds).find? (·.claims name) = none := by
  refine List.find?_eq_none.mpr fun o ho => ?_
  obtain ⟨d, hm, ho⟩ := Decl.mem_openings ho
  -- only functions have scopes among the members
  have hw : ∀ w, o.scope.owner = some w → w.kind = .fn := by
    cases d with
    | var _ => cases ho
    | fn g => exact (g.opens_variables o ho).2
    | iface _ => cases hd _ hm
    | cls _ => cases hd _ hm
  rw [o.not_claims hw]
  exact Bool.false_ne_true

/-- The scope of a type claims the name of the type. -/
theorem TypeDecl.claims_opening (t : TypeDecl) (name : String) :
    t.opening.claims name = (t.name == name) := by
  cases t <;> exact Bool.true_and _

namespace Program

variable {p : Program} {t u : TypeDecl} {name : String}

/-- **The scope of a name is that of the first type of the name.** -/
theorem Flat.find?_claims (hf : p.Flat) (name : String) :
    p.openings.find? (·.claims name) = (p.type? name).map TypeDecl.opening := by
  have all : ∀ ds : List Decl, (∀ c, Decl.cls c ∈ ds → ∀ d ∈ c.members, d.isType = false) →
      (Decl.openingsAll ds).find? (·.claims name) =
        ((ds.filterMap TypeDecl.ofDecl?).find? (·.name == name)).map TypeDecl.opening := by
    intro ds hds
    -- a type stands in front of what is declared in it, and that claims nothing
    have step : ∀ {t : TypeDecl} {os r : List Opening} {ts : List TypeDecl},
        os.find? (·.claims name) = none →
        r.find? (·.claims name) = (ts.find? (·.name == name)).map TypeDecl.opening →
        (t.opening :: os ++ r).find? (·.claims name) =
          ((t :: ts).find? (·.name == name)).map TypeDecl.opening := by
      intro t os r ts hos hr
      rw [List.cons_append, List.find?_cons, List.find?_cons, t.claims_opening]
      cases t.name == name with
      | true => rfl
      | false => rw [List.find?_append, hos, Option.none_or, hr]
    induction ds with
    | nil => rfl
    | cons d ds ih =>
      have ih := ih fun c hc => hds c (List.mem_cons_of_mem _ hc)
      cases d with
      | var v => exact ih
      | fn g =>
        have hg := FnDecl.find?_claims [g] name
        rw [List.flatMap_singleton] at hg
        show (g.openings ++ _).find? _ = _
        rw [List.find?_append, hg, Option.none_or, ih]
        rfl
      | iface i => exact step (t := .iface i) (FnDecl.find?_claims i.members name) ih
      | cls c =>
        have hm := Decl.find?_claims_members (hds c List.mem_cons_self) name
        show (c.openings ++ _).find? _ = _
        rw [c.openings_eq]
        exact step (t := .cls c) hm ih
  exact all p.decls hf

/-- Every type opens a scope. -/
theorem opening_mem (ht : t ∈ p.types) : t.opening ∈ p.openings := by
  refine (Decl.openings_sublist (mem_types.mp ht)).subset ?_
  cases t with
  | cls c =>
    show _ ∈ c.openings
    rw [c.openings_eq]
    exact List.mem_cons_self
  | iface i => exact List.mem_cons_self

namespace Numbered

/-- The scope of a type is there, with what it takes in. -/
theorem has_opening (h : p.Numbered) (ho : t.opening ∈ p.openings) :
    p.scopes.Has t.opening.kept (p.scopes.slotOf t.id) := by
  obtain ⟨k, hk⟩ := h.hasAll_kept _ (List.mem_map_of_mem ho)
  have e : p.scopes.slotOf t.id = k := by
    cases t <;> exact Forest.slotOf_of_get? hk.1
  rwa [e]

/-- **The scope of a type is there, with its members.** -/
theorem has_type (h : p.Numbered) (ht : t ∈ p.types) :
    p.scopes.Has t.opening.kept (p.scopes.slotOf t.id) := h.has_opening (opening_mem ht)

/-- The scope of a type finds what the type declares. -/
theorem get?_opening (h : p.Numbered) (ho : t.opening ∈ p.openings) (name : String) :
    (p.scopes.scope (p.scopes.slotOf t.id)).get? name = t.members.find? (·.name == name) := by
  have e : (p.scopes.scope (p.scopes.slotOf t.id)).decls = Decl.admitted [] t.members := by
    rw [(h.has_opening ho).decls_eq]
    cases t <;> rfl
  unfold Scope.get?
  rw [e]
  exact Decl.find?_admitted [] t.members name

/-- Different types have different scopes. -/
theorem slotOf_inj (h : p.Numbered) (ht : t ∈ p.types) (hu : u ∈ p.types)
    (e : p.scopes.slotOf t.id = p.scopes.slotOf u.id) : t.id = u.id := by
  have := h.opened_kept.slotOf_inj (List.mem_map_of_mem (opening_mem ht))
    (List.mem_map_of_mem (opening_mem hu))
  cases t <;> cases u <;> exact this e

/-- There are scopes for all types. -/
theorem types_length_le (h : p.Numbered) : p.types.length ≤ p.scopes.size := by
  have hn : (p.types.map TypeDecl.opening).Nodup := by
    refine List.Nodup.of_map Opening.node ?_
    have e : (p.types.map TypeDecl.opening).map Opening.node = p.types.map TypeDecl.id := by
      rw [List.map_map]
      exact List.map_congr_left fun t _ => by cases t <;> rfl
    rw [e]
    exact h.nodup_types
  have hsub : p.types.map TypeDecl.opening ⊆ p.openings := fun o ho => by
    obtain ⟨t, ht, rfl⟩ := List.mem_map.mp ho
    exact opening_mem ht
  have hle := (hn.subperm hsub).length_le
  rw [List.length_map] at hle
  rw [h.opened_kept.size_eq, List.length_map]
  exact Nat.le_trans hle (Nat.le_add_left _ _)

variable (h : p.Numbered) (hf : p.Flat)

include h hf

/-- **Under a name the scope of the first type of that name is registered.** -/
theorem ownerScope?_eq (name : String) :
    p.scopes.ownerScope? name = (p.type? name).map fun t => p.scopes.slotOf t.id := by
  have e : (p.openings.map Opening.kept).find? (·.claims name) =
      (p.openings.find? (·.claims name)).map Opening.kept := List.find?_map
  rw [h.opened_kept.ownerScope?_slot, e, hf.find?_claims, Option.map_map, Option.map_map]
  cases p.type? name with
  | none => rfl
  | some t => cases t <;> rfl

/-- **The scope of a type leads to that of the type that it extends.** -/
theorem parent?_eq (ht : t ∈ p.types) :
    p.scopes.parent? (p.scopes.slotOf t.id) = (p.extended? t.id).map p.scopes.slotOf := by
  have e : (p.scopes.scope (p.scopes.slotOf t.id)).parent = t.base? := by
    rw [(h.has_type ht).parent_eq]
    cases t <;> rfl
  unfold Forest.parent?
  rw [e, h.extended?_eq ht]
  cases t.base? with
  | none => rfl
  | some name =>
    show p.scopes.ownerScope? name = _
    rw [h.ownerScope?_eq hf, Option.bind_some, Option.map_map]
    rfl

/-- **The scopes above the scope of a type are those of the types above it.** -/
theorem parents_eq (ht : t ∈ p.types) : p.scopes.parents (p.scopes.slotOf t.id) =
    (p.above t).map fun u => p.scopes.slotOf u.id := by
  -- both walks go the same way as long as they go
  have hmap : Chain.follow p.scopes.parent? p.scopes.size [p.scopes.slotOf t.id]
      (p.scopes.slotOf t.id) =
        (Chain.follow p.extended? p.scopes.size [t.id] t.id).map p.scopes.slotOf := by
    have hs : ∀ i ∈ [t.id], ∃ u ∈ p.types, u.id = i := fun i hi =>
      ⟨t, ht, (List.mem_singleton.mp hi).symm⟩
    refine Chain.follow_map (D := fun i => ∃ u ∈ p.types, u.id = i) ?_ ?_ ?_ hs ⟨t, ht, rfl⟩
    · rintro _ ⟨u, hu, rfl⟩
      exact h.parent?_eq hf hu
    · exact fun _ _ _ hb => of_extended? hb
    · rintro _ _ ⟨u, hu, rfl⟩ ⟨u', hu', rfl⟩
      exact h.slotOf_inj hu hu'
  -- and neither is cut off early, since no type is met twice
  have hroom : Chain.follow p.extended? p.scopes.size [t.id] t.id =
      Chain.follow p.extended? p.types.length [t.id] t.id := by
    refine Chain.follow_room (l := p.types.map TypeDecl.id) (fun _ _ hb => ?_) ?_ ?_
    · obtain ⟨u, hu, rfl⟩ := of_extended? hb
      exact List.mem_map_of_mem hu
    · rw [List.length_map]
      exact h.types_length_le
    · rw [List.length_map]
  unfold Forest.parents
  rw [hmap, hroom, ← h.above_ids, List.map_map]
  rfl

/-! ## 3. What is found in them -/

omit hf in
/-- A scope gives the first member of a name. -/
theorem get?_eq (ht : t ∈ p.types) (name : String) :
    (p.scopes.scope (p.scopes.slotOf t.id)).get? name = t.members.find? (·.name == name) :=
  h.get?_opening (opening_mem ht) name

/-- What is found above a scope is found among the members of the types above. -/
theorem above?_eq (ht : t ∈ p.types) (name : String) :
    p.scopes.above? (p.scopes.slotOf t.id) name =
      Decl.among? ((p.above t).map TypeDecl.members) name := by
  unfold Forest.above? Decl.among?
  rw [h.parents_eq hf ht, List.findSome?_map, List.findSome?_map]
  exact findSome?_congr fun u hu => h.get?_eq (mem_types_of_above hu) name

/-- **What a type has or inherits is what it or a type above it declares.** -/
theorem within?_eq (ht : t ∈ p.types) (name : String) :
    p.scopes.within? (p.scopes.slotOf t.id) name = Decl.among? (p.lineage t) name := by
  unfold Forest.within? lineage
  rw [h.get?_eq ht, h.above?_eq hf ht, Decl.among?_cons]

/-- A member behind the name of a type. -/
theorem member?_eq (owner name : String) : p.scopes.member? owner name =
    (p.type? owner).bind fun t => Decl.among? (p.lineage t) name := by
  unfold Forest.member?
  rw [h.ownerScope?_eq hf]
  cases ht : p.type? owner with
  | none => rfl
  | some t => exact h.within?_eq hf (mem_of_type? ht).1 name

omit hf in
/-- The scope of a type is opened, and that is all. -/
theorem enter_type (ht : t ∈ p.types) (w : Owner) :
    p.scopes.enterOwned t.id w = p.scopes.withOpen [p.scopes.slotOf t.id] := by
  have hk := h.has_type ht
  have hi := h.inner_eq
  have e : ∀ k, p.scopes.withOpen (k :: p.scopes.inner) = p.scopes.withOpen [k] := fun k => by
    rw [hi]
  rw [← e]
  cases t <;> exact hk.enterOwned rfl

omit hf in
/-- To enter a class is to open its scope. -/
theorem enterClass_eq {c : ClassDecl} (hc : Decl.cls c ∈ p.decls) :
    p.scopes.enterClass c = p.scopes.withOpen [p.scopes.slotOf c.node.id] :=
  h.enter_type (t := .cls c) (mem_types.mpr hc) c.owner

/-- What a class inherits. -/
theorem inherited?_eq {c : ClassDecl} (hc : Decl.cls c ∈ p.decls) (name : String) :
    (p.scopes.enterClass c).inherited? name =
      Decl.among? ((p.above (.cls c)).map TypeDecl.members) name := by
  rw [h.enterClass_eq hc]
  exact h.above?_eq hf (t := .cls c) (mem_types.mpr hc) name

/-- What the interfaces ask for that a class lists. -/
theorem required?_eq {c : ClassDecl} (hc : Decl.cls c ∈ p.decls) (name : String) :
    (p.scopes.enterClass c).required? name = c.interfaces.findSome? fun i =>
      (p.type? i.name).bind fun t => t.members.find? (·.name == name) := by
  have hi : (p.scopes.scope (p.scopes.slotOf c.node.id)).interfaces =
      c.interfaces.map Ident.name :=
    (congrArg Scope.interfaces (h.has_type (t := .cls c) (mem_types.mpr hc)).2 :)
  rw [h.enterClass_eq hc]
  show (p.scopes.scope (p.scopes.slotOf c.node.id)).interfaces.findSome? (fun i =>
    (p.scopes.ownerScope? i).bind fun id => (p.scopes.scope id).get? name) = _
  rw [hi, List.findSome?_map]
  refine findSome?_congr fun i _ => ?_
  show (p.scopes.ownerScope? i.name).bind _ = _
  rw [h.ownerScope?_eq hf]
  cases ht : p.type? i.name with
  | none => rfl
  | some t => exact h.get?_eq (mem_of_type? ht).1 name

end Numbered

end Program

end DecafLang
