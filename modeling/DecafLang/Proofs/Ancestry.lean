import DecafLang.Proofs.Lineage
import DecafLang.Proofs.Acyclic
import DecafLang.Proofs.Inherited

/-!
# Members and ancestors

The members of a class, told by the hierarchy of the program.

* `Hierarchy.member?` is the nearest declaration of a name among those of a class and of its
  ancestors, `Hierarchy.inherited?` the nearest among the ancestors alone.
* **In a flat program whose names are in order the scopes give the same answers**
  (`Program.Named.member_class`, `inherited_class`), since a class extends a class of the
  hierarchy, and every class is the only type of its name.
-/

namespace DecafLang

open Relation

/-! ## 1. The hierarchy -/

namespace Hierarchy

/-- What a class declares under a name. -/
def declared? (h : Hierarchy) (member cls : String) : Option Decl :=
  (h.class? cls).bind fun c => c.members.find? (·.name == member)

/-- The nearest declaration of a name in a class or above. -/
def member? (h : Hierarchy) (cls member : String) : Option Decl :=
  (h.ancestors cls).findSome? (h.declared? member)

/-- The nearest declaration of a name above a class. -/
def inherited? (h : Hierarchy) (cls member : String) : Option Decl :=
  (h.ancestors cls).tail.findSome? (h.declared? member)

variable {h : Hierarchy} {a b name member : String} {c : ClassDecl} {d : Decl}

theorem member?_eq (h : Hierarchy) (cls member : String) :
    h.member? cls member = (h.declared? member cls).or (h.inherited? cls member) :=
  findSome?_cons_or _ cls (h.ancestors cls).tail

theorem declared?_eq_some (hd : h.declared? member name = some d) :
    ∃ c, h.class? name = some c ∧ d ∈ c.members ∧ d.name = member := by
  obtain ⟨c, hc, hd⟩ := Option.bind_eq_some_iff.mp hd
  exact ⟨c, hc, List.mem_of_find?_eq_some hd, by simpa using List.find?_some hd⟩

theorem base?_mem_names (hb : h.base? a = some b) : b ∈ h.names :=
  mem_names (isSome_of_class? (base?_isSome hb).2)

/-- **The ancestors are what can be reached by `extends`.** -/
theorem mem_ancestors_iff :
    b ∈ h.ancestors a ↔ ReflTransGen (Chain.Links h.base?) a b :=
  Chain.mem_fromStart_iff (l := h.names) (fun _ _ => base?_mem_names)
    (Nat.le_of_eq (List.length_map _))

theorem ancestors_trans {c : String} (hb : b ∈ h.ancestors a) (hc : c ∈ h.ancestors b) :
    c ∈ h.ancestors a :=
  mem_ancestors_iff.mpr ((mem_ancestors_iff.mp hb).trans (mem_ancestors_iff.mp hc))

/-- All ancestors of a class are classes, and only a class has others than itself. -/
theorem class_of_ancestor (hb : b ∈ h.ancestors a) :
    (h.class? a).isSome = (h.class? b).isSome := by
  induction mem_ancestors_iff.mp hb with
  | refl => rfl
  | tail hab hbc ih =>
    obtain ⟨hb, hc⟩ := base?_isSome hbc
    rw [ih (mem_ancestors_iff.mpr hab), hb, hc]

/-- Types with names of their own are all in the hierarchy. -/
theorem firsts_eq {l : List TypeDecl} {seen : List String} (hn : (l.map TypeDecl.name).Nodup)
    (hs : ∀ t ∈ l, t.name ∉ seen) : firsts seen l = l := by
  induction l generalizing seen with
  | nil => rfl
  | cons t l ih =>
    obtain ⟨ht, hn⟩ := List.nodup_cons.mp hn
    obtain ⟨hts, hs⟩ := List.forall_mem_cons.mp hs
    unfold firsts
    rw [if_neg hts, ih hn fun u hu hm => ?_]
    rcases List.mem_cons.mp hm with e | hm
    · exact ht (e ▸ List.mem_map_of_mem hu)
    · exact hs u hu hm

end Hierarchy

/-! ## 2. The hierarchy of a program -/

namespace Program

variable {p : Program} {name : String} {c : ClassDecl}

theorem nodup_type_names (hn : (p.decls.map Decl.name).Nodup) :
    (p.types.map TypeDecl.name).Nodup := by
  have hs := (types_sublist p.decls).map Decl.name
  rw [List.map_map] at hs
  exact hn.sublist hs

/-- **Where the names at the top level are distinct, all types are in the hierarchy.** -/
theorem hierarchy_types (hn : (p.decls.map Decl.name).Nodup) :
    p.analyze.hierarchy.types = p.types :=
  Hierarchy.firsts_eq (nodup_type_names hn) fun _ _ => List.not_mem_nil

theorem hierarchy_get? (hn : (p.decls.map Decl.name).Nodup) (name : String) :
    p.analyze.hierarchy.get? name = p.type? name := by
  unfold Hierarchy.get? type?
  rw [hierarchy_types hn]

theorem mem_of_class? (hc : p.analyze.hierarchy.class? name = some c) :
    Decl.cls c ∈ p.decls := by
  obtain ⟨t, ht, e⟩ := Option.bind_eq_some_iff.mp hc
  have hd := mem_types.mp (Hierarchy.mem_of_firsts (List.mem_of_find?_eq_some ht))
  cases t <;> cases e
  exact hd

/-- The number of the type at the top level that has a name. -/
def typeNumber (p : Program) (name : String) : NodeId :=
  ((p.type? name).map TypeDecl.id).getD 0

/-- A class at the top level has the name. -/
def HasClass (p : Program) (name : String) : Prop := ∃ c, Decl.cls c ∈ p.decls ∧ c.name = name

namespace Named

/-- A type at the top level is the type of its name. -/
theorem type?_eq (h : p.Named) {t : TypeDecl} (ht : t ∈ p.types) : p.type? t.name = some t :=
  find?_key (nodup_type_names h.nodup_names) ht

theorem type?_class (h : p.Named) (hc : Decl.cls c ∈ p.decls) :
    p.type? c.name = some (.cls c) := h.type?_eq (t := .cls c) (mem_types.mpr hc)

theorem class?_eq (h : p.Named) (hc : Decl.cls c ∈ p.decls) :
    p.analyze.hierarchy.class? c.name = some c := by
  have ht := h.type?_class hc
  unfold Hierarchy.class?
  rw [hierarchy_get? h.nodup_names]
  exact congrArg (·.bind TypeDecl.cls?) ht

theorem iface?_eq (h : p.Named) {i : IfaceDecl} (hi : Decl.iface i ∈ p.decls) :
    p.analyze.hierarchy.iface? i.name = some i := by
  have ht := h.type?_eq (t := .iface i) (mem_types.mpr hi)
  unfold Hierarchy.iface?
  rw [hierarchy_get? h.nodup_names]
  exact congrArg (·.bind TypeDecl.iface?) ht

theorem class_mem (_ : p.Named) (hc : p.analyze.hierarchy.class? name = some c) :
    Decl.cls c ∈ p.decls := mem_of_class? hc

theorem base?_eq (h : p.Named) (hc : Decl.cls c ∈ p.decls) :
    p.analyze.hierarchy.base? c.name = c.base.map Ident.name := by
  unfold Hierarchy.base?
  rw [h.class?_eq hc]
  dsimp only
  split
  · rename_i hb
    rw [hb]
    rfl
  · rename_i b hb
    -- the base is a class of the program, and has the name that is given
    obtain ⟨d, hd, e⟩ := h.base_class hc hb
    rw [hb, ← e, h.class?_eq hd, Option.map_some, ← e]
    rfl

/-- What a class extends has the name of a class. -/
theorem base?_class (h : p.Named) (hc : Decl.cls c ∈ p.decls)
    (hb : p.analyze.hierarchy.base? c.name = some name) :
    ∃ d, Decl.cls d ∈ p.decls ∧ d.name = name := by
  rw [h.base?_eq hc] at hb
  obtain ⟨b, hb', rfl⟩ := Option.map_eq_some_iff.mp hb
  exact h.base_class hc hb'

theorem typeNumber_eq (h : p.Named) (hc : Decl.cls c ∈ p.decls) :
    p.typeNumber c.name = c.node.id := by
  unfold typeNumber
  rw [h.type?_class hc]
  rfl

theorem hasClass_base (h : p.Named) {a b : String} (ha : p.HasClass a)
    (hb : p.analyze.hierarchy.base? a = some b) : p.HasClass b := by
  obtain ⟨c, hc, rfl⟩ := ha
  exact h.base?_class hc hb

/-- The number that a class extends is that of its base. -/
theorem extended?_typeNumber (h : p.Named) {a : String} (ha : p.HasClass a) :
    p.extended? (p.typeNumber a) = (p.analyze.hierarchy.base? a).map p.typeNumber := by
  obtain ⟨c, hc, rfl⟩ := ha
  rw [h.typeNumber_eq hc, show c.node.id = (TypeDecl.cls c).id from rfl,
    h.numbered.extended?_eq (t := .cls c) (mem_types.mpr hc), h.base?_eq hc]
  show (c.base.map Ident.name).bind _ = _
  cases hb : c.base.map Ident.name with
  | none => rfl
  | some n =>
    obtain ⟨b, hm, rfl⟩ := h.base?_class hc ((h.base?_eq hc).trans hb)
    rw [Option.bind_some, h.type?_class hm, Option.map_some, Option.map_some,
      h.typeNumber_eq hm]
    rfl

theorem typeNumber_inj (h : p.Named) {a b : String} (ha : p.HasClass a) (hb : p.HasClass b)
    (e : p.typeNumber a = p.typeNumber b) : a = b := by
  obtain ⟨c, hc, rfl⟩ := ha
  obtain ⟨d, hd, rfl⟩ := hb
  rw [h.typeNumber_eq hc, h.typeNumber_eq hd] at e
  have hc : TypeDecl.cls c ∈ p.types := mem_types.mpr hc
  have hd : TypeDecl.cls d ∈ p.types := mem_types.mpr hd
  cases List.inj_on_of_nodup_map h.numbered.nodup_types hc hd e
  rfl

/-- **The types above a class are its ancestors.** -/
theorem above_eq (h : p.Named) (hc : Decl.cls c ∈ p.decls) :
    p.above (.cls c) = (p.analyze.hierarchy.ancestors c.name).tail.filterMap p.type? := by
  have hclass : p.HasClass c.name := ⟨c, hc, rfl⟩
  -- by number or by name, the walk up the bases goes the same way
  have hmap : Chain.follow p.extended? p.types.length [p.typeNumber c.name] (p.typeNumber c.name) =
      (Chain.follow p.analyze.hierarchy.base? p.types.length [c.name] c.name).map p.typeNumber :=
    Chain.follow_map (fun _ => h.extended?_typeNumber) (fun _ _ => h.hasClass_base)
      (fun _ _ => h.typeNumber_inj) (fun _ hn => List.mem_singleton.mp hn ▸ hclass) hclass
  unfold above
  have ht : p.analyze.hierarchy.types.length = p.types.length :=
    congrArg List.length (hierarchy_types h.nodup_names)
  rw [show (TypeDecl.cls c).id = p.typeNumber c.name from (h.typeNumber_eq hc).symm, hmap,
    List.filterMap_map]
  show _ = (Chain.follow _ p.analyze.hierarchy.types.length [c.name] c.name).filterMap _
  rw [ht]
  refine List.filterMap_congr fun n hn => ?_
  -- all that is met on the way is a class of the program
  obtain ⟨d, hd, rfl⟩ := Chain.follow_all (fun _ _ => h.hasClass_base) hclass n hn
  show p.typeAt? (p.typeNumber d.name) = _
  rw [h.typeNumber_eq hd, h.type?_class hd]
  exact h.numbered.typeAt?_eq (t := .cls d) (mem_types.mpr hd)

/-- What is declared above a class. -/
theorem among_above (h : p.Named) (hc : Decl.cls c ∈ p.decls) (member : String) :
    Decl.among? ((p.above (.cls c)).map TypeDecl.members) member =
      p.analyze.hierarchy.inherited? c.name member := by
  -- by induction over the classes on the way: the first that has the member decides
  have along : ∀ l : List String, (∀ n ∈ l, (p.analyze.hierarchy.class? n).isSome = true) →
      Decl.among? ((l.filterMap p.type?).map TypeDecl.members) member =
        l.findSome? (p.analyze.hierarchy.declared? member) := by
    intro l hl
    induction l with
    | nil => rfl
    | cons n l ih =>
      obtain ⟨hn, hl⟩ := List.forall_mem_cons.mp hl
      obtain ⟨d, hd⟩ := Option.isSome_iff_exists.mp hn
      have ht : p.type? n = some (.cls d) :=
        (Hierarchy.class?_name hd) ▸ h.type?_class (h.class_mem hd)
      have hdec : p.analyze.hierarchy.declared? member n =
          d.members.find? (·.name == member) := by
        unfold Hierarchy.declared?
        rw [hd]
        rfl
      rw [List.filterMap_cons, ht, List.map_cons, Decl.among?_cons, ih hl, List.findSome?_cons,
        hdec]
      show (d.members.find? (·.name == member)).or _ = _
      cases d.members.find? (·.name == member) <;> rfl
  rw [h.above_eq hc]
  refine along _ fun n hn => ?_
  rw [← Hierarchy.class_of_ancestor (List.mem_of_mem_tail hn), h.class?_eq hc]
  rfl

variable (hf : p.Flat)

include hf

/-- **What a class inherits is declared by its nearest ancestor that has the name.** -/
theorem inherited_class (h : p.Named) (hc : Decl.cls c ∈ p.decls) (member : String) :
    (p.scopes.enterClass c).inherited? member = p.analyze.hierarchy.inherited? c.name member :=
  (h.numbered.inherited?_eq hf hc member).trans (h.among_above hc member)

/-- **A member of a class is declared by it or by its nearest ancestor that has the name.** -/
theorem member_class (h : p.Named) (hc : Decl.cls c ∈ p.decls) (member : String) :
    p.scopes.member? c.name member = p.analyze.hierarchy.member? c.name member := by
  have ht := h.type?_class hc
  have hd : p.analyze.hierarchy.declared? member c.name =
      c.members.find? (·.name == member) := by
    unfold Hierarchy.declared?
    rw [h.class?_eq hc]
    rfl
  rw [h.numbered.member?_eq hf, ht, Option.bind_some, lineage, Decl.among?_cons, h.among_above hc,
    Hierarchy.member?_eq, hd]
  rfl

/-- The members of an interface are its prototypes. -/
theorem member_iface (h : p.Named) {i : IfaceDecl} (hi : Decl.iface i ∈ p.decls)
    (member : String) : p.scopes.member? i.name member =
      (i.members.map Decl.fn).find? (·.name == member) := by
  have ht : p.type? i.name = some (.iface i) := h.type?_eq (t := .iface i) (mem_types.mpr hi)
  have he : p.extended? i.node.id = none :=
    h.numbered.extended?_eq (t := .iface i) (mem_types.mpr hi)
  have ha : p.above (.iface i) = [] := by
    unfold above
    cases p.types.length with
    | zero => rfl
    | succ k =>
      rw [Chain.follow, show (TypeDecl.iface i).id = i.node.id from rfl, he]
      rfl
  rw [h.numbered.member?_eq hf, ht, Option.bind_some, lineage, ha]
  exact Decl.among?_singleton _ member

end Named

end Program

end DecafLang
