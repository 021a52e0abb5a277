import DecafLang.Proofs.Chains
import DecafLang.Proofs.Written

/-!
# What members and names stand for

Where the declarations come from that are found in a flat program whose names are in order.

* The classes of the hierarchy are the classes at the top level.
* A registered scope is that of a class or an interface at the top level
  (`Program.Flat.registered`).
* **A class inherits from classes only** (`Program.Named.parents_class`): what `extends` names has
  been found to be a class.
* What a name stands for around a function is at the top level or a member of a class.
-/

namespace DecafLang

/-! ## 1. Classes -/

theorem Decl.names_of_vars (ds : List Decl) :
    ((ds.filterMap Decl.var?).map VarDecl.name).Sublist (ds.map Decl.name) := by
  induction ds with
  | nil => exact .slnil
  | cons d ds ih =>
    cases d with
    | var v => exact ih.cons_cons v.name
    | _ => exact ih.cons _

theorem Decl.names_of_fns (ds : List Decl) :
    ((ds.filterMap Decl.fn?).map FnDecl.name).Sublist (ds.map Decl.name) := by
  induction ds with
  | nil => exact .slnil
  | cons d ds ih =>
    cases d with
    | fn g => exact ih.cons_cons g.name
    | _ => exact ih.cons _

namespace Hierarchy

theorem mem_of_firsts {t : TypeDecl} {seen : List String} {l : List TypeDecl}
    (h : t ∈ firsts seen l) : t ∈ l := by
  induction l generalizing seen with
  | nil => cases h
  | cons u l ih =>
    unfold firsts at h
    split at h
    · exact List.mem_cons_of_mem _ (ih h)
    · rcases List.mem_cons.mp h with rfl | h
      · exact List.mem_cons_self
      · exact List.mem_cons_of_mem _ (ih h)

/-- Every name that is not among those seen is there once. -/
theorem name_mem_firsts {t : TypeDecl} {seen : List String} {l : List TypeDecl} (h : t ∈ l)
    (hn : t.name ∉ seen) : t.name ∈ (firsts seen l).map TypeDecl.name := by
  induction l generalizing seen with
  | nil => cases h
  | cons u l ih =>
    unfold firsts
    split
    · rename_i hu
      -- kept or not, a later type of another name is met further on
      rcases List.mem_cons.mp h with rfl | h
      · exact absurd hu hn
      · exact ih h hn
    · rw [List.map_cons, List.mem_cons]
      rcases List.mem_cons.mp h with rfl | h
      · exact .inl rfl
      · by_cases e : t.name = u.name
        · exact .inl e
        · exact .inr (ih h fun hm => (List.mem_cons.mp hm).elim e hn)

end Hierarchy

namespace Program.Named

variable {p : Program}

/-- The classes of the hierarchy are those at the top level. -/
theorem class_iff (h : p.Named) {c : ClassDecl} :
    (∃ n, p.analyze.hierarchy.class? n = some c) ↔ Decl.cls c ∈ p.decls := by
  -- The hierarchy keeps the first type of each name; here names are distinct, so it keeps all.
  have mem : ∀ {t}, t ∈ p.analyze.hierarchy.types → t.decl ∈ p.decls := by
    intro t ht
    obtain ⟨d, hd, e⟩ := List.mem_filterMap.mp (Hierarchy.mem_of_firsts ht)
    cases d <;> cases e
    · exact hd
    · exact hd
  constructor
  · intro ⟨n, hn⟩
    obtain ⟨t, ht, e⟩ := Option.bind_eq_some_iff.mp hn
    have hd := mem (List.mem_of_find?_eq_some ht)
    cases t <;> cases e
    exact hd
  · intro hd
    have hm : TypeDecl.cls c ∈ p.decls.filterMap TypeDecl.ofDecl? :=
      List.mem_filterMap.mpr ⟨_, hd, rfl⟩
    obtain ⟨t, ht, e⟩ := List.mem_map.mp (Hierarchy.name_mem_firsts hm (List.not_mem_nil))
    refine ⟨c.name, ?_⟩
    have hs : (p.analyze.hierarchy.get? c.name).isSome = true := by
      unfold Hierarchy.get?
      rw [List.find?_isSome]
      exact ⟨t, ht, beq_iff_eq.mpr e⟩
    obtain ⟨u, hu⟩ := Option.isSome_iff_exists.mp hs
    have hn : u.name = c.name := by simpa using List.find?_some hu
    have e := h.eq_of_name (mem (List.mem_of_find?_eq_some hu)) hd hn
    unfold Hierarchy.class?
    rw [hu]
    cases u <;> cases e
    rfl

/-- The members of a class have names of their own. -/
theorem nodup_members (h : p.Named) {c : ClassDecl} (hc : Decl.cls c ∈ p.decls) :
    (c.members.map Decl.name).Nodup := by
  obtain ⟨k, hk, -⟩ := c.enter_eq (openings_of_mem h.hasAll hc)
  have := h.tidy k
  rwa [hk.decls_eq] at this

/-- The fields of a class have names of their own. -/
theorem nodup_fields (h : p.Named) {c : ClassDecl} (hc : Decl.cls c ∈ p.decls) :
    (c.fields.map VarDecl.name).Nodup :=
  (h.nodup_members hc).sublist (Decl.names_of_vars c.members)

/-- The methods of a class have names of their own. -/
theorem nodup_methods (h : p.Named) {c : ClassDecl} (hc : Decl.cls c ∈ p.decls) :
    (c.methods.map FnDecl.name).Nodup :=
  (h.nodup_members hc).sublist (Decl.names_of_fns c.members)

/-- No function at the top level is a method. -/
theorem not_method (h : p.Named) {g : FnDecl} (hd : Decl.fn g ∈ p.decls) {c : ClassDecl}
    (hc : Decl.cls c ∈ p.decls) {m : FnDecl} (hm : m ∈ c.methods) : m.id ≠ g.id := by
  intro e
  have hn := (List.nodup_append.mp h.numbered.nodup_declared).2.2
  have ho : (⟨c.node.id, c.heading.addAll c.members⟩ : Opening) ∈ p.openings := by
    refine (Decl.openings_sublist hc).subset ?_
    show _ ∈ c.openings
    rw [c.openings_eq]
    exact List.mem_cons_self
  refine hn _ (List.mem_map_of_mem hd) _ (List.mem_flatMap.mpr ⟨_, ho, ?_⟩) e.symm
  exact List.mem_map_of_mem (f := Decl.id) (ClassDecl.mem_methods.mp hm)

end Program.Named

/-! ## 2. Registered scopes -/

/-- The scope of a class. -/
def ClassDecl.Scoped (c : ClassDecl) (s : Scope) : Prop :=
  s.decls = c.members ∧ s.parent = c.base.map Ident.name

/-- The scope of an interface. -/
def IfaceDecl.Scoped (i : IfaceDecl) (s : Scope) : Prop :=
  s.decls = i.members.map .fn ∧ s.parent = none

namespace Program

variable {p : Program} {o : Opening} {w : Owner}

/-- The functions among declarations open no scope with another owner than a function. -/
theorem owner_fn {gs : List FnDecl} (ho : o ∈ gs.flatMap FnDecl.openings)
    (hw : o.scope.owner = some w) : w.kind = .fn := by
  obtain ⟨g, -, ho⟩ := List.mem_flatMap.mp ho
  exact (g.opens_variables o ho).2 w hw

/-- **A scope of a class or an interface is that of one at the top level.** -/
theorem Flat.registered (hf : p.Flat) (ho : o ∈ p.openings) (hw : o.scope.owner = some w)
    (hk : w.kind ≠ .fn) :
    (∃ c, Decl.cls c ∈ p.decls ∧ w.name = c.name ∧ c.Scoped o.scope) ∨
      ∃ i, Decl.iface i ∈ p.decls ∧ w.name = i.name ∧ i.Scoped o.scope := by
  obtain ⟨d, hd, ho⟩ := Decl.mem_openings ho
  cases d with
  | var _ => cases ho
  | fn g => exact absurd ((g.opens_variables o ho).2 w hw) hk
  | iface i =>
    rcases List.mem_cons.mp ho with rfl | ho
    · cases hw
      exact .inr ⟨i, hd, rfl, rfl, rfl⟩
    · exact absurd (owner_fn ho hw) hk
  | cls c =>
    have ho : o ∈ c.openings := ho
    rw [c.openings_eq] at ho
    rcases List.mem_cons.mp ho with rfl | ho
    · cases hw
      exact .inl ⟨c, hd, rfl, rfl, rfl⟩
    · obtain ⟨m, hm, ho⟩ := Decl.mem_openings ho
      have hflat := hf c hd m hm
      cases m with
      | var _ => cases ho
      | fn g => exact absurd ((g.opens_variables o ho).2 w hw) hk
      | iface _ => cases hflat
      | cls _ => cases hflat

namespace Named

/-- A name is registered for the scope of the class or the interface of that name. -/
theorem registered (h : p.Named) (hf : p.Flat) {name : String} {k : ScopeId}
    (hk : p.scopes.ownerScope? name = some k) :
    (∃ c, Decl.cls c ∈ p.decls ∧ c.name = name ∧ c.Scoped (p.scopes.scope k)) ∨
      ∃ i, Decl.iface i ∈ p.decls ∧ i.name = name ∧ i.Scoped (p.scopes.scope k) := by
  obtain ⟨o, ho, hc⟩ := h.opened.of_ownerScope? hk
  have hm : o ∈ p.openings := List.mem_of_getElem? (List.mem_zipIdx_iff_le_and_getElem?_sub.mp ho).2
  have hh := h.opened.has ho
  -- a scope claims the name of its owner, functions apart
  unfold Opening.claims at hc
  split at hc
  · rename_i w hw
    simp only [Bool.and_eq_true, bne_iff_ne, beq_iff_eq] at hc
    obtain ⟨hkind, rfl⟩ := hc
    rcases hf.registered hm hw hkind with ⟨c, hd, e, hs⟩ | ⟨i, hd, e, hs⟩
    · exact .inl ⟨c, hd, e.symm, hh.decls_eq.trans hs.1, hh.parent_eq.trans hs.2⟩
    · exact .inr ⟨i, hd, e.symm, hh.decls_eq.trans hs.1, hh.parent_eq.trans hs.2⟩
  · cases hc

/-! ## 3. Members -/

/-- Outside all classes and functions, names stand for declarations at the top level. -/
theorem lookup_global (h : p.Named) {name : String} {d : Decl}
    (hl : p.scopes.lookup? name = some d) : d ∈ p.decls ∧ d.name = name := by
  obtain ⟨k, hk, hd⟩ := Forest.lookup?_cases hl
  unfold Forest.active at hk
  rw [h.numbered.inner_eq] at hk
  obtain rfl := List.mem_singleton.mp hk
  rcases hd with hd | ⟨j, hj, -⟩
  · obtain ⟨hd, hn⟩ := Forest.mem_of_get? hd
    exact ⟨h.global_decls ▸ hd, hn⟩
  · have hp : (p.scopes.scope Forest.globalId).parent = none :=
      (congrArg Scope.parent h.opened.global :)
    have := (Forest.of_mem_parents hj).1
    rw [hp] at this
    cases this

/-- What a name stands for in the head of a class is declared at the top level. -/
theorem of_head (h : p.Named) {i : Ident} {s : Sought}
    (hu : p.scopes.use i s ∈ p.findings p.scopes) : ∃ d ∈ p.decls, d.name = i.name ∧
      s.accepts d = true ∧ p.analyze.resolved.notes.decl? i = some d := by
  obtain ⟨d, hl, ha, hd⟩ := Forest.use_settled.mp (h.settled _ hu).1
  obtain ⟨hm, hn⟩ := h.lookup_global hl
  exact ⟨d, hm, hn, ha, hd⟩

/-- What a class extends is a class. -/
theorem base_class (h : p.Named) {c : ClassDecl} (hc : Decl.cls c ∈ p.decls) {b : Ident}
    (hb : c.base = some b) : ∃ d, Decl.cls d ∈ p.decls ∧ d.name = b.name := by
  have hu : p.scopes.use b .cls ∈ p.findings p.scopes := by
    refine List.mem_flatMap.mpr ⟨_, hc, List.mem_append_left _ (List.mem_append_left _ ?_)⟩
    exact List.mem_map.mpr ⟨b, Option.mem_toList.mpr hb, rfl⟩
  obtain ⟨d, hd, hn, ha, -⟩ := h.of_head hu
  cases d with
  | cls d => exact ⟨d, hd, hn⟩
  | _ => cases ha

/-- What a class lists are interfaces. -/
theorem listed_iface (h : p.Named) {c : ClassDecl} (hc : Decl.cls c ∈ p.decls) {i : Ident}
    (hi : i ∈ c.interfaces) : ∃ d, Decl.iface d ∈ p.decls ∧ d.name = i.name ∧
      p.analyze.resolved.notes.decl? i = some (.iface d) := by
  have hu : p.scopes.use i .iface ∈ p.findings p.scopes := by
    refine List.mem_flatMap.mpr ⟨_, hc, List.mem_append_left _ (List.mem_append_right _ ?_)⟩
    exact List.mem_map.mpr ⟨i, hi, rfl⟩
  obtain ⟨d, hd, hn, ha, hk⟩ := h.of_head hu
  cases d with
  | iface d => exact ⟨d, hd, hn, hk⟩
  | _ => cases ha

/-- **A class inherits from classes only.** -/
theorem parents_class (h : p.Named) (hf : p.Flat) {c : ClassDecl} {k : ScopeId}
    (hc : Decl.cls c ∈ p.decls) (hk : c.Scoped (p.scopes.scope k)) :
    ∀ j ∈ p.scopes.parents k, ∃ b, Decl.cls b ∈ p.decls ∧ b.Scoped (p.scopes.scope j) := by
  refine Chain.follow_all (P := fun k => ∃ c, Decl.cls c ∈ p.decls ∧ c.Scoped (p.scopes.scope k))
    (fun k j ⟨c, hc, hk⟩ hj => ?_) ⟨c, hc, hk⟩
  obtain ⟨n, hn, hj⟩ := Option.bind_eq_some_iff.mp hj
  rw [hk.2] at hn
  obtain ⟨b, hb, rfl⟩ := Option.map_eq_some_iff.mp hn
  obtain ⟨d, hd, hn⟩ := h.base_class hc hb
  rcases h.registered hf hj with ⟨c', hc', -, hs⟩ | ⟨i, hi, e, -⟩
  · exact ⟨c', hc', hs⟩
  · cases h.eq_of_name hi hd (e.trans hn.symm)

/-- What is found in the scope of a class, or above, is a member of a class. -/
theorem of_within (h : p.Named) (hf : p.Flat) {c : ClassDecl} {k : ScopeId} {name : String}
    {d : Decl} (hc : Decl.cls c ∈ p.decls) (hk : c.Scoped (p.scopes.scope k))
    (hd : p.scopes.within? k name = some d) : ∃ b, Decl.cls b ∈ p.decls ∧ d ∈ b.members := by
  rcases Option.or_eq_some_iff.mp hd with hd | ⟨-, hd⟩
  · exact ⟨c, hc, hk.1 ▸ (Forest.mem_of_get? hd).1⟩
  · obtain ⟨j, hj, hd⟩ := List.exists_of_findSome?_eq_some hd
    obtain ⟨b, hb, hs⟩ := h.parents_class hf hc hk j hj
    exact ⟨b, hb, hs.1 ▸ (Forest.mem_of_get? hd).1⟩

/-- **A member found behind a name is a member of a class, or a prototype of the interface of that
name.** -/
theorem of_member (h : p.Named) (hf : p.Flat) {owner name : String} {d : Decl}
    (hm : p.scopes.member? owner name = some d) :
    (∃ c, Decl.cls c ∈ p.decls ∧ d ∈ c.members) ∨
      ∃ i g, Decl.iface i ∈ p.decls ∧ i.name = owner ∧ d = .fn g := by
  obtain ⟨k, hk, hd⟩ := Option.bind_eq_some_iff.mp hm
  rcases h.registered hf hk with ⟨c, hc, -, hs⟩ | ⟨i, hi, e, hs⟩
  · exact .inl (h.of_within hf hc hs hd)
  · refine .inr ⟨i, ?_⟩
    rcases Option.or_eq_some_iff.mp hd with hd | ⟨-, hd⟩
    · have hd := (Forest.mem_of_get? hd).1
      rw [hs.1] at hd
      obtain ⟨g, -, rfl⟩ := List.mem_map.mp hd
      exact ⟨g, hi, e, rfl⟩
    · obtain ⟨j, hj, -⟩ := List.exists_of_findSome?_eq_some hd
      have := (Forest.of_mem_parents hj).1
      rw [hs.2] at this
      cases this

theorem member_field (h : p.Named) (hf : p.Flat) {owner name : String} {v : VarDecl}
    (hm : p.scopes.member? owner name = some (.var v)) :
    ∃ c, Decl.cls c ∈ p.decls ∧ v ∈ c.fields := by
  rcases h.of_member hf hm with ⟨c, hc, hv⟩ | ⟨_, _, _, _, e⟩
  · exact ⟨c, hc, ClassDecl.mem_fields.mpr hv⟩
  · cases e

theorem member_method (h : p.Named) (hf : p.Flat) {c : ClassDecl} {name : String} {g : FnDecl}
    (hc : Decl.cls c ∈ p.decls) (hm : p.scopes.member? c.name name = some (.fn g)) :
    ∃ b, Decl.cls b ∈ p.decls ∧ g ∈ b.methods := by
  rcases h.of_member hf hm with ⟨b, hb, hg⟩ | ⟨i, _, hi, e, -⟩
  · exact ⟨b, hb, ClassDecl.mem_methods.mpr hg⟩
  · cases h.eq_of_name hi hc e

/-! ## 4. Names around functions -/

/-- **Around a function, a name stands for a declaration at the top level or, if the function is a
method, for a member of a class.** -/
theorem of_lookup (h : p.Named) (hf : p.Flat) {cls : Option ClassDecl} {g : FnDecl}
    (hg : (cls, g) ∈ p.functions) {name : String} {d : Decl}
    (hl : (p.around cls).lookup? name = some d) :
    d ∈ p.decls ∧ d.name = name ∨
      cls.isSome = true ∧ ∃ c, Decl.cls c ∈ p.decls ∧ d ∈ c.members := by
  rcases mem_functions.mp hg with ⟨rfl, -⟩ | ⟨c, rfl, hc, -⟩
  · exact .inl (h.lookup_global hl)
  · obtain ⟨k, hk, e⟩ := h.around_class hc
    rw [e] at hl
    -- the scope of the class first, then the global one
    have hl : List.findSome? (fun k => p.scopes.within? k name) [k, Forest.globalId] = some d := hl
    rw [List.findSome?_cons] at hl
    split at hl
    · rename_i d' hd
      cases hl
      exact .inr ⟨rfl, h.of_within hf hc ⟨hk.decls_eq, hk.parent_eq⟩ hd⟩
    · refine .inl (h.lookup_global ?_)
      unfold Forest.lookup? Forest.active
      rw [h.numbered.inner_eq]
      exact hl

end Named

end Program

end DecafLang
