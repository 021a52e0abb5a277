import DecafLang.Proofs.Alike
import DecafLang.Proofs.Overriding

/-!
# The order of the declarations

**Where the names at the top level are distinct, the order of the declarations there does not
matter** (`Program.Numbered.reordered_agrees`).

* Whatever is looked up by its name or by its number is found in any order. So the same is in sight
  of every name, the same types are above a type, and the classes have the same ancestors.
* Each declaration has a report of its own, and the reports of a program are those of its
  declarations, one behind the other.
* The classes may be laid out in another order. But their objects look the same, a field has one
  offset and a method one slot.
-/

namespace DecafLang

/-! ## 1. In any order -/

/-- **What has a key of its own is found in any order.** -/
theorem find?_perm {α κ : Type} [DecidableEq κ] {key : α → κ} {l l' : List α}
    (hn : (l.map key).Nodup) (hp : l'.Perm l) (k : κ) :
    l'.find? (fun x => key x == k) = l.find? (fun x => key x == k) := by
  -- a member with the key is found on both sides, or on neither
  cases hf : l.find? (fun x => key x == k) with
  | none =>
    refine List.find?_eq_none.mpr fun x hx => ?_
    exact List.find?_eq_none.mp hf x (hp.mem_iff.mp hx)
  | some x =>
    have hk : key x = k := by simpa using List.find?_some hf
    have hx : x ∈ l' := hp.mem_iff.mpr (List.mem_of_find?_eq_some hf)
    exact hk ▸ find?_key ((hp.map key).nodup_iff.mpr hn) hx

/-- A table whose keys are set once each has the same values in any order. -/
theorem Table.get?_insertAll_perm {κ α : Type} [DecidableEq κ] {l l' : List (κ × α)}
    (hn : (l.map Prod.fst).Nodup) (hp : l'.Perm l) (k : κ) :
    ((empty : Table κ α).insertAll l').get? k = ((empty : Table κ α).insertAll l).get? k := by
  have hone : ∀ {l : List (κ × α)}, (l.map Prod.fst).Nodup →
      ∀ k a b, (k, a) ∈ l → (k, b) ∈ l → a = b := fun hn k a b ha hb =>
    congrArg Prod.snd (List.inj_on_of_nodup_map hn ha hb rfl)
  refine Option.ext fun a => ?_
  rw [get?_insertAll_iff (hone ((hp.map _).nodup_iff.mpr hn)), get?_insertAll_iff (hone hn),
    hp.mem_iff]

/-- Declarations under names of their own are taken in, and what is refused is refused inside. -/
theorem Decl.clashes_all_eq {old ds : List Decl} (hn : (ds.map Decl.name).Nodup)
    (ho : ∀ d ∈ ds, d.name ∉ old.map Decl.name) :
    Decl.clashesAll old ds = ds.flatMap Decl.clashes := by
  induction ds generalizing old with
  | nil => rfl
  | cons d ds ih =>
    obtain ⟨hd, hn⟩ := List.nodup_cons.mp hn
    obtain ⟨hod, ho⟩ := List.forall_mem_cons.mp ho
    -- no declaration of this name was made before
    have hnone : old.find? (·.name == d.name) = none := List.find?_eq_none.mpr fun e he hne =>
      hod (beq_iff_eq.mp hne ▸ List.mem_map_of_mem he)
    have hc : d.clash old = [] := by
      unfold Decl.clash
      rw [hnone]
    have ha : Decl.admitted old [d] = [d] := by
      rw [Decl.admitted, hnone]
      rfl
    rw [Decl.clashesAll, hc, ha, List.nil_append, List.flatMap_cons, ih hn fun e he hm => ?_]
    rw [List.map_append, List.mem_append] at hm
    -- a later name is neither that of an older declaration nor this one
    rcases hm with hm | hm
    · exact ho e he hm
    · exact hd (List.mem_singleton.mp hm ▸ List.mem_map_of_mem he)

/-- The report of declarations in a row is made of their reports. -/
theorem Decl.check_all_eq (t : Hierarchy) (a : Notes) (f : Forest) (ds : List Decl) :
    Decl.checkAll t a f ds = ⟨ds.flatMap fun d => (d.check t a f).types,
      ds.flatMap fun d => (d.check t a f).bindings,
      ds.flatMap fun d => (d.check t a f).diagnostics⟩ := by
  induction ds with
  | nil => rfl
  | cons d ds ih =>
    rw [Decl.checkAll, ih]
    rfl

namespace Program

/-- The program with other declarations at the top level. -/
def withDecls (p : Program) (ds : List Decl) : Program := { p with decls := ds }

/-- The same declarations under names of their own, in some order. -/
structure Reordered (p q : Program) : Prop where
  numbered : p.Numbered
  flat : p.Flat
  nodup_names : (p.decls.map Decl.name).Nodup
  id_eq : q.id = p.id
  perm : q.decls.Perm p.decls

namespace Reordered

variable {p q : Program}

/-- Reordered, the program has the same numbers. -/
theorem numbered_right (h : p.Reordered q) : q.Numbered := by
  have hparts : (q.parts.map Part.id).Perm (p.parts.map Part.id) := by
    unfold parts
    rw [List.map_append, List.map_append, Decl.parts_all_eq, Decl.parts_all_eq]
    refine ((h.perm.flatMap_right _).map _).append (List.Perm.of_eq ?_)
    exact congrArg ([·]) h.id_eq
  exact hparts.nodup_iff.mpr h.numbered

theorem flat_right (h : p.Reordered q) : q.Flat := fun c hc => h.flat c (h.perm.mem_iff.mp hc)

/-- Its names are still distinct. -/
theorem nodup_right (h : p.Reordered q) : (q.decls.map Decl.name).Nodup :=
  (h.perm.map _).nodup_iff.mpr h.nodup_names

/-! ## 2. What is found -/

/-- At the top the same is in sight. -/
theorem top_eq (h : p.Reordered q) : q.top = p.top :=
  funext fun name => find?_perm h.nodup_names h.perm name

/-- The types are the same in another order. -/
theorem types_perm (h : p.Reordered q) : q.types.Perm p.types := h.perm.filterMap _

/-- Under each name there is the same type. -/
theorem type?_eq (h : p.Reordered q) : q.type? = p.type? :=
  funext fun name => find?_perm (nodup_type_names h.nodup_names) h.types_perm name

/-- At each node there is the same type. -/
theorem typeAt?_eq (h : p.Reordered q) : q.typeAt? = p.typeAt? :=
  funext fun id => find?_perm h.numbered.nodup_types h.types_perm id

/-- The same types are above a type. -/
theorem above_eq (h : p.Reordered q) : q.above = p.above := by
  have he : q.extended? = p.extended? := by
    funext id
    unfold extended?
    rw [h.typeAt?_eq, h.type?_eq]
  funext t
  unfold above
  rw [he, h.typeAt?_eq, h.types_perm.length_eq]

/-- **Above each type are the same members.** -/
theorem lineage_eq (h : p.Reordered q) : q.lineage = p.lineage := by
  funext t
  unfold lineage
  rw [h.above_eq]

/-- **The same is in sight of every name.** -/
theorem occurrences_eq (h : p.Reordered q) : q.occurrencesIn = p.occurrencesIn := by
  have ht : q.inType = p.inType := by
    funext t
    unfold inType
    rw [h.top_eq, h.lineage_eq]
  funext d
  unfold occurrencesIn
  rw [h.top_eq, ht]

/-- Each member is the same. -/
theorem member?_eq (h : p.Reordered q) (owner name : String) :
    q.scopes.member? owner name = p.scopes.member? owner name := by
  rw [h.numbered_right.member?_eq h.flat_right, h.numbered.member?_eq h.flat, h.type?_eq,
    h.lineage_eq]

/-- The hierarchies are alike. -/
theorem hierarchy_alike (h : p.Reordered q) : q.analyze.hierarchy.Alike p.analyze.hierarchy where
  get?_eq name := by
    rw [hierarchy_get? h.nodup_right, hierarchy_get? h.nodup_names, h.type?_eq]
  length_eq := by
    rw [hierarchy_types h.nodup_right, hierarchy_types h.nodup_names, h.types_perm.length_eq]

/-- **The same is found, in another order.** -/
theorem findings_perm (h : p.Reordered q) : (q.findings q.scopes).Perm (p.findings p.scopes) := by
  rw [h.numbered_right.findings_lexical h.flat_right, h.numbered.findings_lexical h.flat,
    h.occurrences_eq]
  exact h.perm.flatMap_right _

/-- So the names stand for the same. -/
theorem resolved_alike (h : p.Reordered q) :
    q.analyze.resolved.notes.Alike p.analyze.resolved.notes := by
  intro i
  unfold Notes.decl?
  rw [h.numbered_right.resolved_bindings, h.numbered.resolved_bindings]
  exact Table.get?_insertAll_perm (List.nodup_append.mp h.numbered.nodup_bound).1
    (h.findings_perm.filterMap _) i.id

/-! ## 3. What the checks say -/

/-- A class has the same members around it. -/
theorem same_members (h : p.Reordered q) {c : ClassDecl} (hc : Decl.cls c ∈ p.decls) :
    (q.scopes.enterClass c).SameMembers (p.scopes.enterClass c) := by
  have hc' := h.perm.mem_iff.mpr hc
  refine ⟨fun owner name => ?_, fun name => ?_, fun name => ?_⟩
  · rw [h.numbered_right.enterClass_eq hc', h.numbered.enterClass_eq hc]
    exact h.member?_eq owner name
  · rw [h.numbered_right.inherited?_eq h.flat_right hc', h.numbered.inherited?_eq h.flat hc,
      h.above_eq]
  · rw [h.numbered_right.required?_eq h.flat_right hc', h.numbered.required?_eq h.flat hc,
      h.type?_eq]

/-- **The checks of the members report the same, in another order.** -/
theorem conformance_perm (h : p.Reordered q) :
    q.analyze.conformance.diagnostics.Perm p.analyze.conformance.diagnostics := by
  -- each class has the same faults in both programs
  have hq : q.analyze.conformance.diagnostics = (q.decls.filterMap Decl.cls?).flatMap fun c =>
      c.faults (p.scopes.enterClass c) p.analyze.resolved.notes := by
    rw [h.numbered_right.conformance_eq]
    refine List.flatMap_congr fun c hc => ?_
    have hd := h.perm.mem_iff.mp (Decl.mem_classes.mp hc)
    exact (c.faults_alike (h.same_members hd) (h.resolved_alike.agreeIn _)
      (h.resolved_alike.agreeOn (c.uses .empty))).1
  rw [hq, h.numbered.conformance_eq]
  exact (h.perm.filterMap _).flatMap_right _

/-- **A declaration at the top level has the same report.** -/
theorem check_eq (h : p.Reordered q) {d : Decl} (hd : d ∈ p.decls) :
    d.check q.analyze.hierarchy q.analyze.resolved.notes q.scopes =
      d.check p.analyze.hierarchy p.analyze.resolved.notes p.scopes := by
  have hd' := h.perm.mem_iff.mpr hd
  cases d with
  | var _ => rfl
  | iface _ => rfl
  | fn g =>
    refine g.check_alike (h.resolved_alike.agreeIn _) (h.resolved_alike.agreeOn (g.uses .empty))
      h.hierarchy_alike.accepts_eq h.member?_eq ?_ (h.numbered_right.keeps hd')
      (h.numbered.keeps hd)
    rw [h.numbered_right.enclosing_top, h.numbered.enclosing_top]
  | cls c =>
    -- the class around is the first of its name, in either order
    have he : (q.scopes.enterClass c).enclosingClass? =
        (p.scopes.enterClass c).enclosingClass? := by
      rw [h.numbered_right.enclosing_class hd', h.numbered.enclosing_class hd]
      exact congrArg (·.bind Decl.cls?) (congrFun h.top_eq c.name)
    refine FnDecl.check_all_alike c.methods fun g hg => ?_
    exact g.check_alike (h.resolved_alike.agreeIn _) (h.resolved_alike.agreeOn (g.uses .empty))
      h.hierarchy_alike.accepts_eq (h.same_members hd).member?_eq he
      (h.numbered_right.keeps_method hd' hg) (h.numbered.keeps_method hd hg)

/-- The reports of the types are those of the declarations, in another order. -/
theorem report_perm (h : p.Reordered q) :
    q.analyze.typed.report.types.Perm p.analyze.typed.report.types ∧
      q.analyze.typed.report.bindings.Perm p.analyze.typed.report.bindings ∧
      q.analyze.typed.report.diagnostics.Perm p.analyze.typed.report.diagnostics := by
  have hq : q.analyze.typed.report =
      Decl.checkAll p.analyze.hierarchy p.analyze.resolved.notes p.scopes q.decls := by
    rw [h.numbered_right.report_eq]
    exact Decl.check_all_alike q.decls fun d hd => h.check_eq (h.perm.mem_iff.mp hd)
  have hp : p.analyze.typed.report =
      Decl.checkAll p.analyze.hierarchy p.analyze.resolved.notes p.scopes p.decls :=
    h.numbered.report_eq
  rw [hq, hp, Decl.check_all_eq, Decl.check_all_eq]
  exact ⟨h.perm.flatMap_right _, h.perm.flatMap_right _, h.perm.flatMap_right _⟩

/-- The same declarations are refused inside the declarations. -/
theorem conflicts_perm (h : p.Reordered q) :
    q.analyze.declared.conflicts.Perm p.analyze.declared.conflicts := by
  have hq : q.analyze.declared.conflicts = Decl.clashesAll [] q.decls :=
    h.numbered_right.declare_kept.2
  have hp : p.analyze.declared.conflicts = Decl.clashesAll [] p.decls := h.numbered.declare_kept.2
  rw [hq, hp, Decl.clashes_all_eq h.nodup_right fun _ _ => List.not_mem_nil,
    Decl.clashes_all_eq h.nodup_names fun _ _ => List.not_mem_nil]
  exact h.perm.flatMap_right _

end Reordered

end Program

/-- The analyses say the same, in whatever order. -/
structure Analysis.Agree (a b : Analysis) : Prop where
  diagnostics : a.diagnostics.Perm b.diagnostics
  decl?_eq : ∀ i, a.notes.decl? i = b.notes.decl? i
  type_eq : ∀ e : Expr, a.notes.types.get? e.id = b.notes.types.get? e.id

/-- **The analyses of a program and of a reordered one agree.** -/
theorem Program.Reordered.analyses_agree {p q : Program} (h : p.Reordered q) :
    q.analyze.Agree p.analyze where
  diagnostics := by
    have hr : q.analyze.resolved.diagnostics.Perm p.analyze.resolved.diagnostics := by
      unfold Resolved.diagnostics
      rw [h.numbered_right.findings_eq, h.numbered.findings_eq]
      exact h.findings_perm.filterMap _
    exact ((h.conflicts_perm.append hr).append h.conformance_perm).append h.report_perm.2.2
  decl?_eq i := by
    unfold Notes.decl?
    rw [h.numbered_right.bindings_eq, h.numbered.bindings_eq]
    refine Table.get?_insertAll_perm ?_
      ((h.findings_perm.filterMap _).append h.report_perm.2.1) i.id
    rw [List.map_append]
    exact h.numbered.nodup_bound
  type_eq e := Table.get?_insertAll_perm h.numbered.nodup_typed h.report_perm.1 e.id

/-! ## 4. Layouts -/

/-- Objects look the same, and what is in them lies in the same places. -/
structure Layout.Agree (l l' : Layout) : Prop where
  class?_eq : ∀ name, l.class? name = l'.class? name
  fieldOffset?_eq : ∀ i, l.fieldOffset? i = l'.fieldOffset? i
  methodSlot?_eq : ∀ i, l.methodSlot? i = l'.methodSlot? i

namespace Program

variable {p q : Program}

/-- There is a layout in one order exactly if there is one in the other. -/
theorem Reordered.laid_out_iff (h : p.Reordered q) :
    (∃ l, Layout.ofProgram q.analyze.hierarchy q = .ok l) ↔
      ∃ l, Layout.ofProgram p.analyze.hierarchy p = .ok l := by
  have hiff : ∀ {p : Program}, (∃ l, Layout.ofProgram p.analyze.hierarchy p = .ok l) ↔
      p.analyze.hierarchy.Acyclic := by
    intro p
    constructor
    · intro ⟨l, hl⟩
      exact (Layout.of_ofProgram hl).1
    · intro ha
      obtain ⟨l, -, hl, -⟩ := Layout.ofProgram_arranged (p := p) ha
      exact ⟨l, hl⟩
  rw [hiff, hiff, h.hierarchy_alike.acyclic_iff]

/-- **So do their layouts.** -/
theorem Reordered.layouts_agree (h : p.Reordered q) {l l' : Layout}
    (hl : Layout.ofProgram p.analyze.hierarchy p = .ok l)
    (hl' : Layout.ofProgram q.analyze.hierarchy q = .ok l') : l'.Agree l := by
  obtain ⟨ha, cs, hs, hl⟩ := Layout.of_ofProgram hl
  obtain ⟨ha', cs', hs', hl'⟩ := Layout.of_ofProgram hl'
  have hk := h.hierarchy_alike
  have hcs : ∀ c, c ∈ cs' ↔ c ∈ cs := fun c => by rw [hs'.mem_iff, hs.mem_iff, hk.class?_eq]
  have hi := h.numbered.apart hs
  have hi' := h.numbered_right.apart hs'
  refine ⟨fun name => ?_, fun i => Option.ext fun o => ?_, fun i => Option.ext fun s => ?_⟩
  · rw [hl'.class?_map hs', hl.class?_map hs, hk.class?_eq, hk.object_eq]
  · rw [hl'.fieldOffset?_iff ha' hs' hi', hl.fieldOffset?_iff ha hs hi, hk.object_eq]
    exact exists_congr fun c => and_congr_left' (hcs c)
  · rw [hl'.methodSlot?_iff hi', hl.methodSlot?_iff hi, hk.object_eq]
    exact exists_congr fun c => and_congr_left' (hcs c)

/-- **The order of the declarations does not matter.** In any order the analysis reports the same,
binds every name to the same declaration and gives every expression the same type; and there is a
layout in any order or in none, with the same objects, offsets and slots. -/
theorem Numbered.reordered_agrees (h : p.Numbered) (hf : p.Flat)
    (hn : (p.decls.map Decl.name).Nodup) {ds : List Decl} (hp : ds.Perm p.decls) :
    (p.withDecls ds).analyze.Agree p.analyze ∧
    ((∃ l, Layout.ofProgram (p.withDecls ds).analyze.hierarchy (p.withDecls ds) = .ok l) ↔
      ∃ l, Layout.ofProgram p.analyze.hierarchy p = .ok l) ∧
    ∀ l l', Layout.ofProgram p.analyze.hierarchy p = .ok l →
      Layout.ofProgram (p.withDecls ds).analyze.hierarchy (p.withDecls ds) = .ok l' →
        l'.Agree l := by
  have hr : p.Reordered (p.withDecls ds) := ⟨h, hf, hn, rfl, hp⟩
  exact ⟨hr.analyses_agree, hr.laid_out_iff, fun _ _ hl hl' => hr.layouts_agree hl hl'⟩

end Program

/-- Figures in front of squares and tiles, or behind them: all is the same. -/
theorem reordered_agrees_figures :
    (figures.withDecls figures.decls.reverse).analyze.Agree figures.analyze ∧
    ∃ l l', Layout.ofProgram figures.analyze.hierarchy figures = .ok l ∧
      Layout.ofProgram (figures.withDecls figures.decls.reverse).analyze.hierarchy
        (figures.withDecls figures.decls.reverse) = .ok l' ∧ l'.Agree l := by
  obtain ⟨ha, hiff, hall⟩ := figures_named.numbered.reordered_agrees figures_flat
    figures_named.nodup_names figures.decls.reverse_perm
  obtain ⟨l, -, hl, -⟩ :=
    Layout.ofProgram_arranged (h := figures.analyze.hierarchy) (p := figures) (by decide +kernel)
  obtain ⟨l', hl'⟩ := hiff.mpr ⟨l, hl⟩
  exact ⟨ha, l, l', hl, hl', hall l l' hl hl'⟩

end DecafLang
