import DecafLang.Syntax.Handwritten
import DecafLang.Proofs.Ancestry
import DecafLang.Proofs.Numbering

/-!
# Overriding

What the classes of a program owe to what they inherit.

* `ClassDecl.Conforms` says it of one class, by the hierarchy alone: its fields have names of their
  own, its methods replace methods of the same signature, and it has a method for every prototype.
* **The checker has nothing to say about the members exactly if every class conforms**
  (`Program.Named.conforms_iff`).
* A class that conforms compares with the nearest declaration above it only. **So signatures agree
  all the way up** (`Hierarchy.agrees_above`), along cycles as well, and a value may stand for one
  of another type without a method changing its signature.
-/

namespace DecafLang

/-! ## 1. What a class owes -/

/-- The signature of a function as it is written. -/
def FnDecl.signature (g : FnDecl) : Ty.Signature := ⟨g.result.ty, g.formals.map fun v => v.type.ty⟩

/-- What a class owes to the classes above it and to the interfaces it lists. -/
structure ClassDecl.Conforms (h : Hierarchy) (c : ClassDecl) : Prop where
  /-- No field has the name of an inherited member, nor that of a prototype. -/
  fields : ∀ v ∈ c.fields, (∀ a ∈ (h.ancestors c.name).tail, h.declared? v.name a = none) ∧
    ∀ i ∈ c.interfaces, ∀ d, h.iface? i.name = some d → ∀ q ∈ d.members, q.name ≠ v.name
  /-- What a method replaces is a method of the same signature. -/
  methods : ∀ g ∈ c.methods, ∀ d, h.inherited? c.name g.name = some d →
    ∃ k, d = .fn k ∧ k.signature = g.signature
  /-- For every prototype there is a method of its signature. -/
  prototypes : ∀ i ∈ c.interfaces, ∀ d, h.iface? i.name = some d → ∀ q ∈ d.members,
    ∃ k, h.member? c.name q.name = some (.fn k) ∧ k.signature = q.signature

/-! ## 2. All the way up -/

namespace Hierarchy

variable {h : Hierarchy} {a b member : String} {g : FnDecl}

/-- All classes conform, and their members are fields and methods. -/
structure Conforming (h : Hierarchy) : Prop where
  conforms : ∀ n c, h.class? n = some c → c.Conforms h
  flat : ∀ n c, h.class? n = some c → ∀ d ∈ c.members, d.isType = false

/-- What a class declares has the signature of what it replaces. -/
theorem Conforming.replaces (hc : h.Conforming) {d : Decl} (hd : h.declared? member a = some d)
    (hi : h.inherited? a member = some (.fn g)) : ∃ k, d = .fn k ∧ k.signature = g.signature := by
  obtain ⟨c, hcls, hm, rfl⟩ := declared?_eq_some hd
  obtain rfl := class?_name hcls
  have hk := hc.conforms _ c hcls
  cases d with
  | var v =>
    have hv := (hk.fields v (ClassDecl.mem_fields.mpr hm)).1
    have : h.inherited? c.name v.name = none := List.findSome?_eq_none_iff.mpr hv
    rw [show h.inherited? c.name v.name = _ from hi] at this
    cases this
  | fn k =>
    -- what is inherited under the name of a method is a method itself
    obtain ⟨k', e, hs⟩ := hk.methods k (ClassDecl.mem_methods.mpr hm) _ hi
    cases e
    exact ⟨k, rfl, hs.symm⟩
  | iface _ => cases hc.flat _ c hcls _ hm
  | cls _ => cases hc.flat _ c hcls _ hm

/-- **Every declaration above a class has the signature of the nearest one.** -/
theorem Conforming.agrees_above (hc : h.Conforming) (hb : b ∈ h.ancestors a)
    (hd : h.declared? member b = some (.fn g)) :
    ∃ k, h.member? a member = some (.fn k) ∧ k.signature = g.signature := by
  -- the nearest one from any ancestor on, as long as `b` is still to come
  have along : ∀ (l front : List String), h.ancestors a = front ++ l → b ∈ l →
      ∃ k, l.findSome? (h.declared? member) = some (.fn k) ∧ k.signature = g.signature := by
    intro l
    induction l with
    | nil => exact fun _ _ hb => nomatch hb
    | cons x rest ih =>
      intro front e hb
      have further : b ∈ rest → ∃ k, rest.findSome? (h.declared? member) = some (.fn k) ∧
          k.signature = g.signature := ih (front ++ [x]) (by rw [e, List.append_assoc]; rfl)
      rw [List.findSome?_cons]
      cases hx : h.declared? member x with
      | none =>
        rcases List.mem_cons.mp hb with rfl | hb
        · rw [hx] at hd
          cases hd
        · exact further hb
      | some d =>
        rcases List.mem_cons.mp hb with rfl | hb
        · exact ⟨g, hx.symm.trans hd, rfl⟩
        · obtain ⟨k, hk, hs⟩ := further hb
          -- the ancestors of `x` begin with those of `a` that come behind it
          obtain ⟨more, hm⟩ := Chain.fromStart_of_split e
          have hi : h.inherited? x member = some (.fn k) := by
            have ht : (h.ancestors x).tail = rest ++ more := congrArg List.tail hm.symm
            unfold inherited?
            rw [ht, List.findSome?_append, hk]
            rfl
          obtain ⟨k', rfl, hs'⟩ := hc.replaces hx hi
          exact ⟨k', rfl, hs'.trans hs⟩
  exact along (h.ancestors a) [] rfl hb

/-- **A class has every method that one above it has, with the same signature.** -/
theorem Conforming.agrees (hc : h.Conforming) (hb : b ∈ h.ancestors a)
    (hm : h.member? b member = some (.fn g)) :
    ∃ k, h.member? a member = some (.fn k) ∧ k.signature = g.signature := by
  obtain ⟨n, hn, hd⟩ := List.exists_of_findSome?_eq_some hm
  exact hc.agrees_above (ancestors_trans hb hn) hd

end Hierarchy

/-! ## 3. What the checker says -/

/-- Types that denote what they say are compared as they are written. -/
theorem Notes.sameSignature_iff {a : Notes} {g k : FnDecl} (hg : (Decl.fn g).Written a)
    (hk : (Decl.fn k).Written a) : a.sameSignature g k = true ↔ g.signature = k.signature := by
  -- Notes that know the types as they are written give the written signature.
  have written : ∀ {g : FnDecl}, (Decl.fn g).Written a → a.signature? g = some g.signature := by
    intro g hg
    have e : a.signature g = g.signature := by
      unfold Notes.signature FnDecl.signature
      rw [hg.1, List.map_congr_left hg.2]
    have hr : g.signature.ret.isError = false := by
      cases hr : g.signature.ret.isError with
      | false => rfl
      | true => exact absurd (Ty.isError_iff.mp hr) g.result.ty_ne_error
    have hf : g.signature.formals.any Ty.isError = false := by
      refine List.any_eq_false.mpr fun t ht he => ?_
      obtain ⟨v, -, rfl⟩ := List.mem_map.mp ht
      exact v.type.ty_ne_error (Ty.isError_iff.mp he)
    unfold Notes.signature?
    dsimp only
    rw [e, hr, hf]
    rfl
  unfold Notes.sameSignature
  rw [written hg, written hk]
  exact Ty.Signature.agrees_iff_eq

namespace Program.Named

variable {p : Program} {c : ClassDecl}

/-- Whatever a type declares denotes what it says. -/
theorem written_member (h : p.Named) {t : TypeDecl} (ht : t ∈ p.types) {d : Decl}
    (hd : d ∈ t.members) : d.Written p.analyze.resolved.notes := by
  -- The member's head is looked up when the declaration is visited, whichever kind it is.
  have looked : d.Heads (p.findings p.scopes) := by
    have hsub : t.decl.uses p.scopes ⊆ p.findings p.scopes := fun x hx =>
      List.mem_flatMap.mpr ⟨t.decl, mem_types.mp ht, hx⟩
    cases t with
    | cls c =>
      have hs : d.usesAsMember (p.scopes.enterClass c) ⊆ (Decl.cls c).uses p.scopes := fun x hx =>
        List.mem_append_right _ (List.mem_flatMap.mpr ⟨d, hd, hx⟩)
      cases hk : d.isType with
      | true => exact Decl.heads_type hk
      | false => exact (Decl.heads_member hk _).1.mono (List.Subset.trans hs hsub)
    | iface i =>
      obtain ⟨g, hg, rfl⟩ := List.mem_map.mp hd
      have hs : g.uses (p.scopes.enterIface i) ⊆ (Decl.iface i).uses p.scopes := fun x hx =>
        List.mem_flatMap.mpr ⟨g, hg, hx⟩
      exact (g.heads _).mono (List.Subset.trans hs hsub)
  exact looked.written fun x hx => (h.settled x hx).1

theorem written_method (h : p.Named) (hc : Decl.cls c ∈ p.decls) {g : FnDecl}
    (hg : g ∈ c.methods) : (Decl.fn g).Written p.analyze.resolved.notes :=
  h.written_member (t := .cls c) (mem_types.mpr hc) (ClassDecl.mem_methods.mp hg)

theorem written_prototype (h : p.Named) {i : IfaceDecl} (hi : Decl.iface i ∈ p.decls)
    {q : FnDecl} (hq : q ∈ i.members) : (Decl.fn q).Written p.analyze.resolved.notes :=
  h.written_member (t := .iface i) (mem_types.mpr hi) (List.mem_map_of_mem hq)

/-- What the hierarchy finds for a name denotes what it says. -/
theorem written_declared (h : p.Named) {cls member : String} {d : Decl}
    (hd : p.analyze.hierarchy.declared? member cls = some d) :
    d.Written p.analyze.resolved.notes := by
  obtain ⟨b, hb, hm, -⟩ := Hierarchy.declared?_eq_some hd
  exact h.written_member (t := .cls b) (mem_types.mpr (h.class_mem hb)) hm

/-- An interface of the hierarchy is declared at the top level. -/
theorem iface_mem (h : p.Named) {name : String} {i : IfaceDecl}
    (hi : p.analyze.hierarchy.iface? name = some i) : Decl.iface i ∈ p.decls ∧ i.name = name := by
  obtain ⟨t, ht, e⟩ := Option.bind_eq_some_iff.mp hi
  rw [hierarchy_get? h.nodup_names] at ht
  obtain ⟨hm, hn⟩ := mem_of_type? ht
  cases t <;> cases e
  exact ⟨mem_types.mp hm, hn⟩

section

variable (h : p.Named) (hf : p.Flat) (hc : Decl.cls c ∈ p.decls)

include h hf hc

/-- The declaration that the listed interfaces give for a name is one of their prototypes. -/
theorem of_required {name : String} {d : Decl}
    (hd : (p.scopes.enterClass c).required? name = some d) :
    ∃ i ∈ c.interfaces, ∃ e, p.analyze.hierarchy.iface? i.name = some e ∧
      ∃ q ∈ e.members, q.name = name ∧ d = .fn q := by
  rw [h.numbered.required?_eq hf hc] at hd
  obtain ⟨i, hi, hd⟩ := List.exists_of_findSome?_eq_some hd
  obtain ⟨e, he, hn, -⟩ := h.listed_iface hc hi
  have ht : p.type? e.name = some (.iface e) := h.type?_eq (t := .iface e) (mem_types.mpr he)
  rw [← hn, ht] at hd
  have hd : (e.members.map Decl.fn).find? (·.name == name) = some d := hd
  obtain ⟨q, hq, rfl⟩ := List.mem_map.mp (List.mem_of_find?_eq_some hd)
  have hq' : (Decl.fn q).name = name := by simpa using List.find?_some hd
  exact ⟨i, hi, e, hn ▸ h.iface?_eq he, q, hq, hq', rfl⟩

/-- The listed interfaces give nothing for a name that no prototype has. -/
theorem required_none {name : String} : (p.scopes.enterClass c).required? name = none ↔
    ∀ i ∈ c.interfaces, ∀ e, p.analyze.hierarchy.iface? i.name = some e →
      ∀ q ∈ e.members, q.name ≠ name := by
  constructor
  · intro hn i hi e he q hq hqn
    rw [h.numbered.required?_eq hf hc] at hn
    obtain ⟨hd, hen⟩ := h.iface_mem he
    have ht : p.type? e.name = some (.iface e) := h.type?_eq (t := .iface e) (mem_types.mpr hd)
    have hn := List.findSome?_eq_none_iff.mp hn i hi
    rw [← hen, ht] at hn
    have hn : (e.members.map Decl.fn).find? (·.name == name) = none := hn
    exact List.find?_eq_none.mp hn _ (List.mem_map_of_mem hq) (beq_iff_eq.mpr hqn)
  · intro ha
    cases hd : (p.scopes.enterClass c).required? name with
    | none => rfl
    | some d =>
      obtain ⟨i, hi, e, he, q, hq, hqn, -⟩ := h.of_required hf hc hd
      exact absurd hqn (ha i hi e he q hq)

theorem field_faults_iff (v : VarDecl) : v.fieldFaults (p.scopes.enterClass c) = [] ↔
    (∀ a ∈ (p.analyze.hierarchy.ancestors c.name).tail,
      p.analyze.hierarchy.declared? v.name a = none) ∧
    ∀ i ∈ c.interfaces, ∀ e, p.analyze.hierarchy.iface? i.name = some e →
      ∀ q ∈ e.members, q.name ≠ v.name := by
  have hi : (p.scopes.enterClass c).inherited? v.name = none ↔
      ∀ a ∈ (p.analyze.hierarchy.ancestors c.name).tail,
        p.analyze.hierarchy.declared? v.name a = none := by
    rw [h.inherited_class hf hc]
    exact List.findSome?_eq_none_iff
  rw [← hi, ← h.required_none hf hc]
  unfold VarDecl.fieldFaults
  cases (p.scopes.enterClass c).inherited? v.name with
  | some d => exact ⟨nofun, fun hk => nomatch hk.1⟩
  | none =>
    cases (p.scopes.enterClass c).required? v.name with
    | some d => exact ⟨nofun, fun hk => nomatch hk.2⟩
    | none => exact ⟨fun _ => ⟨rfl, rfl⟩, fun _ => rfl⟩

theorem override_faults_iff {g : FnDecl} (hg : g ∈ c.methods) :
    g.overrideFaults (p.scopes.enterClass c) p.analyze.resolved.notes = [] ↔
      ∀ d, p.analyze.hierarchy.inherited? c.name g.name = some d →
        ∃ k, d = .fn k ∧ k.signature = g.signature := by
  unfold FnDecl.overrideFaults
  rw [h.inherited_class hf hc]
  cases hi : p.analyze.hierarchy.inherited? c.name g.name with
  | none => exact ⟨fun _ => nofun, fun _ => rfl⟩
  | some d =>
    -- What is inherited is declared in an ancestor, so its signature is known too.
    obtain ⟨n, -, hd⟩ := List.exists_of_findSome?_eq_some hi
    have hw := h.written_declared hd
    cases d with
    | fn k =>
      have hs := Notes.sameSignature_iff (h.written_method hc hg) hw
      constructor
      · intro he d hd
        cases hd
        refine ⟨k, rfl, (hs.mp ?_).symm⟩
        dsimp only at he
        split at he
        · rename_i hk
          exact hk
        · cases he
      · intro ha
        obtain ⟨k', e, hk⟩ := ha _ rfl
        cases e
        exact if_pos (hs.mpr hk.symm)
    | _ => exact ⟨nofun, fun ha => by obtain ⟨_, e, _⟩ := ha _ rfl; cases e⟩

/-- The class has a method for a prototype exactly if the nearest member of that name is one. -/
theorem has_method_iff {e : IfaceDecl} (he : Decl.iface e ∈ p.decls) {q : FnDecl}
    (hq : q ∈ e.members) :
    c.hasMethod (p.scopes.enterClass c) p.analyze.resolved.notes q = true ↔
      ∃ k, p.analyze.hierarchy.member? c.name q.name = some (.fn k) ∧
        k.signature = q.signature := by
  have hm : (p.scopes.enterClass c).member? c.name q.name =
      p.analyze.hierarchy.member? c.name q.name := by
    rw [h.numbered.enterClass_eq hc]
    exact h.member_class hf hc q.name
  unfold ClassDecl.hasMethod
  rw [hm]
  cases hd : p.analyze.hierarchy.member? c.name q.name with
  | none => exact ⟨nofun, nofun⟩
  | some d =>
    -- the nearest declaration decides, whatever its kind
    obtain ⟨n, -, hd⟩ := List.exists_of_findSome?_eq_some hd
    have hw := h.written_declared hd
    cases d with
    | fn k =>
      have hs := Notes.sameSignature_iff hw (h.written_prototype he hq)
      refine hs.trans ⟨fun e => ⟨k, rfl, e⟩, fun ⟨_, e, hk⟩ => ?_⟩
      cases e
      exact hk
    | _ => exact ⟨nofun, nofun⟩

theorem missing_iff {i : Ident} (hi : i ∈ c.interfaces) :
    c.missing? (p.scopes.enterClass c) p.analyze.resolved.notes i = none ↔
      ∀ e, p.analyze.hierarchy.iface? i.name = some e → ∀ q ∈ e.members,
        ∃ k, p.analyze.hierarchy.member? c.name q.name = some (.fn k) ∧
          k.signature = q.signature := by
  obtain ⟨e, he, hn, hk⟩ := h.listed_iface hc hi
  have hiface : p.analyze.hierarchy.iface? i.name = some e := hn ▸ h.iface?_eq he
  have hall : e.members.all (c.hasMethod (p.scopes.enterClass c) p.analyze.resolved.notes) = true ↔
      ∀ q ∈ e.members, ∃ k, p.analyze.hierarchy.member? c.name q.name = some (.fn k) ∧
        k.signature = q.signature :=
    List.all_eq_true.trans (forall₂_congr fun q hq => h.has_method_iff hf hc he hq)
  have hm : c.missing? (p.scopes.enterClass c) p.analyze.resolved.notes i = none ↔
      e.members.all (c.hasMethod (p.scopes.enterClass c) p.analyze.resolved.notes) = true := by
    unfold ClassDecl.missing?
    rw [hk]
    dsimp only
    split
    · rename_i ht
      exact ⟨fun _ => ht, fun _ => rfl⟩
    · rename_i ht
      exact ⟨nofun, fun h => absurd h ht⟩
  rw [hm, hall, hiface]
  exact ⟨fun ha _ e' => by cases e'; exact ha, fun ha => ha e rfl⟩

/-- A class that has a method for every prototype has nothing to fear from comparing its own. -/
theorem required_faults {g : FnDecl} (hg : g ∈ c.methods)
    (hp : ∀ i ∈ c.interfaces, ∀ e, p.analyze.hierarchy.iface? i.name = some e → ∀ q ∈ e.members,
      ∃ k, p.analyze.hierarchy.member? c.name q.name = some (.fn k) ∧ k.signature = q.signature) :
    g.requiredFaults (p.scopes.enterClass c) p.analyze.resolved.notes = [] := by
  unfold FnDecl.requiredFaults
  cases hd : (p.scopes.enterClass c).required? g.name with
  | none => rfl
  | some d =>
    obtain ⟨i, hi, e, he, q, hq, hn, rfl⟩ := h.of_required hf hc hd
    obtain ⟨k, hk, hs⟩ := hp i hi e he q hq
    -- the nearest member of the name is the method itself
    have hown : p.analyze.hierarchy.member? c.name q.name = some (.fn g) := by
      have hd : p.analyze.hierarchy.declared? g.name c.name = some (.fn g) := by
        unfold Hierarchy.declared?
        rw [h.class?_eq hc]
        exact find?_key (h.nodup_members hc) (ClassDecl.mem_methods.mp hg)
      rw [hn, Hierarchy.member?_eq, hd]
      rfl
    cases hown.symm.trans hk
    exact if_pos ((Notes.sameSignature_iff (h.written_method hc hg)
      (h.written_prototype (h.iface_mem he).1 hq)).mpr hs)

/-- **The checker finds nothing wrong with a class exactly if it conforms.** -/
theorem faults_iff : c.faults (p.scopes.enterClass c) p.analyze.resolved.notes = [] ↔
    c.Conforms p.analyze.hierarchy := by
  unfold ClassDecl.faults
  rw [List.append_eq_nil_iff, List.flatMap_eq_nil_iff, Option.toList_eq_nil_iff,
    List.findSome?_eq_none_iff]
  constructor
  · intro ⟨hm, hp⟩
    refine ⟨fun v hv => ?_, fun g hg => ?_, fun i hi => (h.missing_iff hf hc hi).mp (hp i hi)⟩
    · exact (h.field_faults_iff hf hc v).mp (hm _ (ClassDecl.mem_fields.mp hv))
    · have hg' := hm _ (ClassDecl.mem_methods.mp hg)
      exact (h.override_faults_iff hf hc hg).mp (List.append_eq_nil_iff.mp hg').1
  · intro hk
    refine ⟨fun d hd => ?_, fun i hi => (h.missing_iff hf hc hi).mpr (hk.prototypes i hi)⟩
    cases d with
    | var v => exact (h.field_faults_iff hf hc v).mpr (hk.fields v (ClassDecl.mem_fields.mpr hd))
    | fn g =>
      have hg := ClassDecl.mem_methods.mpr hd
      exact List.append_eq_nil_iff.mpr ⟨(h.override_faults_iff hf hc hg).mpr (hk.methods g hg),
        h.required_faults hf hc hg hk.prototypes⟩
    | iface _ => rfl
    | cls _ => rfl

end

/-- What the checker has found out about the members. -/
theorem conformance_iff (h : p.Named) (hf : p.Flat) : p.analyze.conformance.diagnostics = [] ↔
    ∀ c, Decl.cls c ∈ p.decls → c.Conforms p.analyze.hierarchy := by
  rw [h.numbered.conformance_eq, List.flatMap_eq_nil_iff]
  constructor
  · intro ha c hc
    exact (h.faults_iff hf hc).mp (ha c (List.mem_filterMap.mpr ⟨_, hc, rfl⟩))
  · intro ha c hc
    obtain ⟨d, hd, e⟩ := List.mem_filterMap.mp hc
    cases d <;> cases e
    exact (h.faults_iff hf hd).mpr (ha c hd)

theorem conforming (h : p.Named) (hf : p.Flat) (hc : p.analyze.conformance.diagnostics = []) :
    p.analyze.hierarchy.Conforming where
  conforms _ c hn := (h.conformance_iff hf).mp hc c (h.class_mem hn)
  flat _ c hn := hf c (h.class_mem hn)

/-! ## 4. Substitution -/

/-- A class has the methods of the classes above it. -/
theorem agrees_class (h : p.Named) (hf : p.Flat) (hk : p.analyze.hierarchy.Conforming)
    {D N member : String} {g : FnDecl} (hb : N ∈ p.analyze.hierarchy.ancestors D)
    (hN : (p.analyze.hierarchy.class? N).isSome = true)
    (hm : p.analyze.hierarchy.member? N member = some (.fn g)) :
    ∃ k, p.scopes.member? D member = some (.fn k) ∧ k.signature = g.signature := by
  obtain ⟨d, hd⟩ := Option.isSome_iff_exists.mp ((Hierarchy.class_of_ancestor hb).trans hN)
  obtain rfl := Hierarchy.class?_name hd
  rw [h.member_class hf (h.class_mem hd)]
  exact hk.agrees hb hm

/-- A class has the prototypes of the interfaces that it or a class above it lists. -/
theorem agrees_listed (h : p.Named) (hf : p.Flat) (hk : p.analyze.hierarchy.Conforming)
    {C D N member : String} {g : FnDecl} (hb : C ∈ p.analyze.hierarchy.ancestors D)
    (hN : N ∈ p.analyze.hierarchy.listed C) (hm : p.scopes.member? N member = some (.fn g)) :
    ∃ k, p.scopes.member? D member = some (.fn k) ∧ k.signature = g.signature := by
  obtain ⟨hC, hi⟩ := Hierarchy.listed_isSome hN
  obtain ⟨c, hc⟩ := Option.isSome_iff_exists.mp hC
  obtain ⟨e, he⟩ := Option.isSome_iff_exists.mp hi
  unfold Hierarchy.listed at hN
  rw [hc] at hN
  obtain ⟨i, hic, rfl⟩ := List.mem_map.mp (List.mem_filter.mp hN).1
  obtain ⟨hed, hn⟩ := h.iface_mem he
  rw [← hn, h.member_iface hf hed] at hm
  obtain ⟨q, hq, e'⟩ := List.mem_map.mp (List.mem_of_find?_eq_some hm)
  cases e'
  have hqn : (Decl.fn g).name = member := by simpa using List.find?_some hm
  obtain ⟨k, hkm, hs⟩ := (hk.conforms C c hc).prototypes i hic e he g hq
  obtain rfl := Hierarchy.class?_name hc
  -- from the class that lists the interface down to the class asked for
  obtain ⟨k', hk', hs'⟩ := h.agrees_class hf hk hb hC hkm
  exact ⟨k', hqn ▸ hk', hs'.trans hs⟩

/-- **The checker is exact about members, and substitution is safe.** It has nothing to say exactly
if every class conforms, and then a value of a type that may stand for another has every method of
that other, with the same signature. -/
theorem conforms_iff (h : p.Named) (hf : p.Flat) :
    (p.analyze.conformance.diagnostics = [] ↔
      ∀ c, Decl.cls c ∈ p.decls → c.Conforms p.analyze.hierarchy) ∧
    (p.analyze.conformance.diagnostics = [] →
      ∀ D N, p.analyze.hierarchy.accepts (.named N) (.named D) = true →
        ∀ member g, p.analyze.forest.member? N member = some (.fn g) →
          ∃ k, p.analyze.forest.member? D member = some (.fn k) ∧ k.signature = g.signature) := by
  refine ⟨h.conformance_iff hf, fun hc D N ha member g hm => ?_⟩
  have hk := h.conforming hf hc
  have ef : p.analyze.forest = p.scopes := h.numbered.typed_forest
  rw [ef] at hm ⊢
  have ha : (N == D || p.analyze.hierarchy.isSubclass D N || p.analyze.hierarchy.implements D N) =
      true := ha
  rw [Bool.or_eq_true, Bool.or_eq_true] at ha
  rcases ha with (ha | ha) | ha
  · obtain rfl := beq_iff_eq.mp ha
    exact ⟨g, hm, rfl⟩
  · have hb : N ∈ p.analyze.hierarchy.ancestors D := of_decide_eq_true ha
    rcases (Hierarchy.mem_ancestors_iff.mp hb).cases_tail with rfl | ⟨b, -, hl⟩
    · exact ⟨g, hm, rfl⟩
    · obtain ⟨n, hn⟩ := Option.isSome_iff_exists.mp (Hierarchy.base?_isSome hl).2
      obtain rfl := Hierarchy.class?_name hn
      rw [h.member_class hf (h.class_mem hn)] at hm
      exact h.agrees_class hf hk hb (by rw [hn]; rfl) hm
  · obtain ⟨C, hC, hl⟩ := List.any_eq_true.mp ha
    exact h.agrees_listed hf hk hC (of_decide_eq_true hl) hm

end Program.Named

/-- A tile is a square, and a square is a figure; the square replaces a method, and lists an
interface that asks for it. -/
def figures : Program := .number [
  .cls ⟨.nowhere, .called "Tile", some (.called "Square"), [], [.var (.int "hue")]⟩,
  .iface ⟨.nowhere, .called "Sized", [⟨.nowhere, .called "size", .prim 0 .int, [], none⟩]⟩,
  .cls ⟨.nowhere, .called "Square", some (.called "Figure"), [.called "Sized"], [
    .var (.int "side"),
    .fn ⟨.nowhere, .called "size", .prim 0 .int, [], some ⟨.nowhere, [],
      [.ret .nowhere (some (.use "side"))]⟩⟩]⟩,
  .cls ⟨.nowhere, .called "Figure", none, [], [
    .fn ⟨.nowhere, .called "size", .prim 0 .int, [], some ⟨.nowhere, [],
      [.ret .nowhere (some (.int .nowhere 0))]⟩⟩]⟩,
  .fn ⟨.nowhere, .called "main", .prim 0 .void, [], some .empty⟩]

theorem figures_flat : figures.Flat := of_decide_eq_true rfl

theorem figures_named : figures.Named := ⟨Program.number_numbered _, rfl, rfl⟩

/-- The classes of figures conform, so that a tile has all methods of what it may stand for. -/
theorem conforms_iff_figures :
    (∀ c, Decl.cls c ∈ figures.decls → c.Conforms figures.analyze.hierarchy) ∧
      ∀ D N, figures.analyze.hierarchy.accepts (.named N) (.named D) = true →
        ∀ member g, figures.analyze.forest.member? N member = some (.fn g) →
          ∃ k, figures.analyze.forest.member? D member = some (.fn k) ∧
            k.signature = g.signature := by
  have hk : figures.analyze.conformance.diagnostics.isEmpty = true := by decide +kernel
  obtain ⟨hc, hs⟩ := figures_named.conforms_iff figures_flat
  exact ⟨hc.mp (List.isEmpty_iff.mp hk), hs (List.isEmpty_iff.mp hk)⟩

end DecafLang
