import DecafLang.Syntax.Handwritten
import DecafLang.Proofs.Census
import DecafLang.Proofs.Numbering

/-!
# Where declarations go

**Every declaration of a program is in exactly one scope, or it is reported**
(`Program.Numbered.placed`).

* The scope of a construct holds the first declaration of each name that stands in the construct,
  in the order of the text. Those that come later are in no scope, and each has one report.
* That nothing else is in a scope follows from the scopes themselves: they are those of the
  constructs, each filled with what it takes in. That a scope is noted for what is in it is an
  invariant of every use of the forest (`Forest.Noted`).
-/

namespace DecafLang

/-! ## 1. What every use keeps -/

/-- **Whatever is put is counted or reported.** -/
theorem Declared.run_total (s : Declared) (us : List Use) :
    (s.run us).count + (s.run us).conflicts.length =
      s.count + s.conflicts.length + us.countP Use.inserts := by
  induction us generalizing s with
  | nil => rfl
  | cons u us ih =>
    have hu : (s.use u).count + (s.use u).conflicts.length =
        s.count + s.conflicts.length + [u].countP Use.inserts := by
      cases u with
      | insert d =>
        show (s.put d).count + (s.put d).conflicts.length = s.count + s.conflicts.length + 1
        -- a declaration is counted or reported, and all else does neither
        rcases s.put_cases d with ⟨_, -, e⟩ | ⟨-, e⟩
        · rw [e, List.length_append, ← Nat.add_assoc]
          rfl
        · rw [e, Nat.add_right_comm]
      | _ => rfl
    have e : (u :: us).countP Use.inserts = [u].countP Use.inserts + us.countP Use.inserts := by
      rw [← List.countP_append]
      rfl
    rw [e, ← Nat.add_assoc, ← hu]
    exact ih (s.use u)

namespace Forest

/-- A scope is noted for every declaration that is in one. -/
def Noted (f : Forest) : Prop :=
  ∀ k, ∀ d ∈ (f.scope k).decls, (f.declaredIn? d.id).isSome = true

variable {f f' : Forest}

theorem Noted.of_subset (h : f.Noted) (hs : ∀ k, (f'.scope k).decls ⊆ (f.scope k).decls)
    (hd : f'.declaredIn = f.declaredIn) : f'.Noted := by
  intro k d hk
  unfold declaredIn?
  rw [hd]
  exact h k d (hs k hk)

theorem scope_modify_cases (f : Forest) (g : Scope → Scope) (j k : ScopeId) :
    ({ f with scopes := f.scopes.modify j g } : Forest).scope k = f.scope k ∨
      ({ f with scopes := f.scopes.modify j g } : Forest).scope k = g (f.scope k) := by
  unfold scope
  simp only [List.getD_eq_getElem?_getD, List.getElem?_modify]
  cases f.scopes[k]? with
  | none => exact .inl rfl
  | some s =>
    by_cases hj : j = k
    · exact .inr (by simp [hj])
    · exact .inl (by simp [hj])

theorem decls_modify {g : Scope → Scope} (hg : ∀ s, (g s).decls = s.decls) (f : Forest)
    (j k : ScopeId) :
    (({ f with scopes := f.scopes.modify j g } : Forest).scope k).decls = (f.scope k).decls := by
  rcases f.scope_modify_cases g j k with e | e
  · rw [e]
  · rw [e, hg]

/-- A scope that is made has nothing in it. -/
theorem decls_grow (f : Forest) (n : NodeId) (k : ScopeId) :
    ((f.grow n).scope k).decls ⊆ (f.scope k).decls := by
  unfold grow
  split
  · exact List.Subset.refl _
  · unfold scope
    rw [List.getD_eq_getElem?_getD, List.getD_eq_getElem?_getD, List.getElem?_append]
    split
    · exact List.Subset.refl _
    · rw [List.getElem?_singleton]
      split <;> exact List.nil_subset _

theorem decls_claim (f : Forest) (j : ScopeId) (o : Owner) (k : ScopeId) :
    ((f.claim j o).scope k).decls = (f.scope k).decls := by
  unfold claim
  split
  · rfl
  · exact f.decls_modify (g := (·.claim o)) (fun _ => rfl) j k

theorem Noted.modify (h : f.Noted) {g : Scope → Scope} (hg : ∀ s, (g s).decls = s.decls)
    (j : ScopeId) : ({ f with scopes := f.scopes.modify j g } : Forest).Noted :=
  h.of_subset (fun k => by rw [f.decls_modify hg]; exact List.Subset.refl _) rfl

theorem Noted.grow (h : f.Noted) (n : NodeId) : (f.grow n).Noted := by
  refine h.of_subset (f.decls_grow n) ?_
  unfold Forest.grow
  split <;> rfl

theorem Noted.claim (h : f.Noted) (j : ScopeId) (o : Owner) : (f.claim j o).Noted := by
  refine h.of_subset (fun k => by rw [f.decls_claim]; exact List.Subset.refl _) ?_
  unfold Forest.claim
  split <;> rfl

theorem Noted.add (h : f.Noted) (d : Decl) : (f.add d).Noted := by
  intro k x hx
  have hi : (f.add d).declaredIn? x.id =
      if d.id = x.id then some f.current else f.declaredIn? x.id := Table.get?_insert _ _ _ _
  rw [hi]
  split
  · rfl
  -- another declaration is noted where it was
  · rename_i hne
    rcases f.scope_modify_cases (·.add d) f.current k with e | e
    · exact h k x (e ▸ hx)
    · have hx : x ∈ ((f.scope k).add d).decls := e ▸ hx
      rcases List.mem_append.mp hx with hx | hx
      · exact h k x hx
      · exact absurd (congrArg Decl.id (List.mem_singleton.mp hx).symm) hne

/-- **What is in a scope is noted, after any use.** -/
theorem Noted.run {s : Declared} (h : s.forest.Noted) (us : List Use) :
    (s.run us).forest.Noted := by
  induction us generalizing s with
  | nil => exact h
  | cons u us ih =>
    refine ih (s := s.use u) ?_
    cases u with
    | enter n => exact h.grow n
    | enterOwned n o => exact (h.grow n).claim _ o
    | exit => exact h
    | insert d =>
      show (s.put d).forest.Noted
      -- a refused declaration changes nothing
      rcases s.put_cases d with ⟨_, -, e⟩ | ⟨-, e⟩
      · rw [e]
        exact h
      · rw [e]
        exact h.add d
    | setBase name =>
      exact h.modify (g := fun s => { s with parent := some name }) (fun _ => rfl) _
    | addListed name =>
      exact h.modify (g := fun s => { s with interfaces := s.interfaces ++ [name] })
        (fun _ => rfl) _
    | reset => exact h

theorem noted_empty : empty.Noted := by
  intro k d hd
  have e : (empty.scope k).decls = [] := by
    cases k with
    | zero => rfl
    | succ k => rfl
  rw [e] at hd
  cases hd

end Forest

/-! ## 2. The first of a name -/

namespace Decl

/-- Whether a declaration is the first of its name. -/
def isFirst (ds : List Decl) (d : Decl) : Bool :=
  (ds.find? (·.name == d.name)).any fun x => x.id == d.id

/-- The report of a declaration that is not the first of its name, with the line of the first. -/
def repeat? (ds : List Decl) (d : Decl) : Option Diagnostic :=
  (ds.find? (·.name == d.name)).bind fun first =>
    if first.id = d.id then none
    else some (.located d.ident.span (.declConflict d.name first.ident.span.line))

variable {ds old : List Decl} {d x : Decl}

/-- A name that is there already is found where it was, whoever has it too. -/
theorem find?_repeated (h : old.find? (·.name == d.name) = some x) (name : String) :
    (old ++ d :: ds).find? (·.name == name) = (old ++ ds).find? (·.name == name) := by
  rw [List.find?_append, List.find?_append]
  by_cases he : d.name = name
  · rw [← he, h, Option.some_or, Option.some_or]
  · rw [List.find?_cons_of_neg (by simpa using he)]

/-- A declaration whose name is there already is refused, and changes nothing for the others. -/
theorem of_repeated (ds : List Decl) (h : old.find? (·.name == d.name) = some x)
    (hne : x.id ≠ d.id) :
    isFirst (old ++ d :: ds) = isFirst (old ++ ds) ∧
      repeat? (old ++ d :: ds) = repeat? (old ++ ds) ∧ isFirst (old ++ ds) d = false ∧
        repeat? (old ++ ds) d =
          some (.located d.ident.span (.declConflict d.name x.ident.span.line)) := by
  -- the first of the name stands before this one
  have hx : (old ++ ds).find? (·.name == d.name) = some x := by
    rw [List.find?_append, h, Option.some_or]
  refine ⟨funext fun y => ?_, funext fun y => ?_, ?_, ?_⟩
  · unfold isFirst
    rw [find?_repeated h]
  · unfold repeat?
    rw [find?_repeated h]
  · rw [isFirst, hx]
    exact beq_eq_false_iff_ne.mpr hne
  · rw [repeat?, hx]
    exact if_neg hne

/-- A declaration whose name is new is the first that has it. -/
theorem of_first (ds : List Decl) (h : old.find? (·.name == d.name) = none) :
    isFirst (old ++ d :: ds) d = true ∧ repeat? (old ++ d :: ds) d = none := by
  have hx : (old ++ d :: ds).find? (·.name == d.name) = some d := by
    rw [List.find?_append, h, Option.none_or, List.find?_cons_of_pos (by simp)]
  refine ⟨?_, ?_⟩
  · rw [isFirst, hx]
    exact beq_self_eq_true _
  · rw [repeat?, hx]
    exact if_pos rfl

/-- **A scope takes in the first declaration of each name, and refuses the others.** -/
theorem admitted_eq (hn : ((old ++ ds).map Decl.id).Nodup) :
    admitted old ds = ds.filter (isFirst (old ++ ds)) ∧
      refused old ds = ds.filterMap (repeat? (old ++ ds)) := by
  induction ds generalizing old with
  | nil => exact ⟨rfl, rfl⟩
  | cons d ds ih =>
    cases hf : old.find? (·.name == d.name) with
    | some x =>
      -- the two have numbers of their own, so this one is not the first
      have hne : x.id ≠ d.id := fun e => by
        rw [List.map_append, List.nodup_append] at hn
        exact hn.2.2 _ (List.mem_map_of_mem (List.mem_of_find?_eq_some hf)) _ List.mem_cons_self e
      obtain ⟨h₁, h₂, hd₁, hd₂⟩ := of_repeated ds hf hne
      obtain ⟨ha, hr⟩ := ih (hn.sublist
        (((List.sublist_cons_self d ds).append_left old).map Decl.id))
      rw [h₁, h₂, List.filter_cons_of_neg (by rw [hd₁]; exact Bool.false_ne_true),
        List.filterMap_cons_some hd₂, admitted, refused, clash, admitted, hf]
      refine ⟨ha, ?_⟩
      show _ :: refused (old ++ []) ds = _
      rw [List.append_nil, hr]
    | none =>
      obtain ⟨hd₁, hd₂⟩ := of_first ds hf
      rw [List.filter_cons_of_pos hd₁, List.filterMap_cons_none hd₂, List.append_cons, admitted,
        refused, clash, admitted, hf]
      obtain ⟨ha, hr⟩ := @ih (old ++ [d]) (by rwa [← List.append_cons])
      exact ⟨congrArg (d :: ·) ha, hr⟩

end Decl

/-! ## 3. The places of a program -/

/-- The scope that a piece should have: the global one for the program, and for any other piece the
one that its node opens. -/
def Forest.home? (f : Forest) : Part → Option ScopeId
  | .program _ => some globalId
  | q => f.scopeOf? q.id

theorem Forest.home?_of_ne {f : Forest} {q : Part} (hq : ∀ p, q ≠ .program p) :
    f.home? q = f.scopeOf? q.id := by
  unfold home?
  cases q with
  | program p => exact absurd rfl (hq p)
  | _ => rfl

theorem Part.decls_sublist (ps : List Part) :
    ((ps.filterMap Part.decl?).map Decl.id).Sublist (ps.map Part.id) := by
  induction ps with
  | nil => exact .slnil
  | cons q ps ih =>
    cases q with
    | decl d => exact ih.cons_cons d.id
    | _ => exact ih.cons _

/-- **Every declaration of the program is in one scope or reported once.** -/
structure Program.Placed (p : Program) (s : Declared) : Prop where
  /-- There is one scope for each class, interface, function and block, and the global one. -/
  size : s.forest.size = p.parts.countP fun q => q.declares?.isSome
  /-- A construct has a scope, which holds the first declarations in the construct in the order of
  the text. -/
  home : ∀ q ∈ p.parts, ∀ ds, q.declares? = some ds → ∃ k < s.forest.size,
    s.forest.home? q = some k ∧ (s.forest.scope k).decls = ds.filter (Decl.isFirst ds)
  /-- No two constructs share a scope, and no scope is without one. -/
  tenant : ∀ k < s.forest.size,
    ∃! q, q ∈ p.parts ∧ q.declares?.isSome = true ∧ s.forest.home? q = some k
  /-- A declaration stands in one construct. -/
  belongs : ∀ d ∈ p.allDecls, ∃! q, q ∈ p.parts ∧ d ∈ q.declares
  /-- The first declaration of a name is in the scope of the construct that it stands in, and in
  no other. -/
  first : ∀ q ∈ p.parts, ∀ d ∈ q.declares, Decl.isFirst q.declares d = true →
    s.forest.declaredIn? d.id = s.forest.home? q ∧
      ∀ k < s.forest.size, d ∈ (s.forest.scope k).decls ↔ s.forest.home? q = some k
  /-- A later one is in no scope. -/
  later : ∀ q ∈ p.parts, ∀ d ∈ q.declares, Decl.isFirst q.declares d = false →
    s.forest.declaredIn? d.id = none ∧ ∀ k < s.forest.size, d ∉ (s.forest.scope k).decls
  /-- Every later one has a report, and there are no others. -/
  reports : s.conflicts.Perm
    (p.parts.flatMap fun q => q.declares.filterMap (Decl.repeat? q.declares))
  total : s.count + s.conflicts.length = p.allDecls.length

namespace Program

variable {p : Program}

/-- The declarations are made by a run, which puts each of them once. -/
theorem declare_run (p : Program) : ∃ us, p.declare .empty = Declared.start.run us ∧
    us.countP Use.inserts = p.allDecls.length := by
  obtain ⟨us, e, hc⟩ := (Decl.tally_all p.decls).asks
  refine ⟨us, e .start, hc.trans ?_⟩
  unfold allDecls parts
  rw [List.filterMap_append]
  exact congrArg List.length (List.append_nil _).symm

theorem declare_wellFormed (p : Program) : (p.declare .empty).forest.WellFormed := by
  obtain ⟨us, e, -⟩ := p.declare_run
  rw [e]
  exact (Forest.wellFormed_empty.run (s := .start) us).1

theorem declare_noted (p : Program) : (p.declare .empty).forest.Noted := by
  obtain ⟨us, e, -⟩ := p.declare_run
  rw [e]
  exact Forest.noted_empty.run (s := .start) us

theorem declare_total (p : Program) : (p.declare .empty).count +
    (p.declare .empty).conflicts.length = p.allDecls.length := by
  obtain ⟨us, e, hc⟩ := p.declare_run
  rw [e, Declared.run_total, hc]
  exact Nat.zero_add _

namespace Numbered

variable {q q' : Part} {d : Decl} {k : ScopeId}

theorem eq_of_id (h : p.Numbered) (hq : q ∈ p.parts) (hq' : q' ∈ p.parts) (e : q.id = q'.id) :
    q = q' := List.inj_on_of_nodup_map h hq hq' e

theorem nodup_all_decls (h : p.Numbered) : (p.allDecls.map Decl.id).Nodup :=
  h.sublist (Part.decls_sublist p.parts)

theorem nodup_declares (h : p.Numbered) :
    ((p.parts.flatMap Part.declares).map Decl.id).Nodup :=
  (p.all_decls_perm.map Decl.id).nodup_iff.mp h.nodup_all_decls

/-- A declaration stands in one construct. -/
theorem declares_unique (h : p.Numbered) (hq : q ∈ p.parts) (hq' : q' ∈ p.parts)
    (hd : d ∈ q.declares) (hd' : d ∈ q'.declares) : q = q' :=
  eq_of_mem_flatMap (List.Nodup.of_map _ h.nodup_declares) hq hq' hd hd'

theorem eq_of_decl_id (h : p.Numbered) {d' : Decl} (hq : q ∈ p.parts) (hq' : q' ∈ p.parts)
    (hd : d ∈ q.declares) (hd' : d' ∈ q'.declares) (e : d.id = d'.id) : d = d' :=
  List.inj_on_of_nodup_map h.nodup_declares (List.mem_flatMap.mpr ⟨q, hq, hd⟩)
    (List.mem_flatMap.mpr ⟨q', hq', hd'⟩) e

/-- What a scope takes in and what it refuses of the declarations of a construct. -/
theorem admitted_declares (h : p.Numbered) (hq : q ∈ p.parts) :
    Decl.admitted [] q.declares = q.declares.filter (Decl.isFirst q.declares) ∧
      Decl.refused [] q.declares = q.declares.filterMap (Decl.repeat? q.declares) := by
  refine @Decl.admitted_eq q.declares [] ?_
  obtain ⟨l, r, e⟩ := List.append_of_mem hq
  have hn := h.nodup_declares
  rw [e, List.flatMap_append, List.flatMap_cons, List.map_append, List.map_append] at hn
  exact (List.nodup_append.mp (List.nodup_append.mp hn).2.1).1

/-- **A construct has a scope,** which holds the first declarations in the construct. -/
theorem home (h : p.Numbered) (hq : q ∈ p.parts) {ds : List Decl} (hs : q.declares? = some ds) :
    ∃ k < (p.declare .empty).forest.size, (p.declare .empty).forest.home? q = some k ∧
      ((p.declare .empty).forest.scope k).decls = ds.filter (Decl.isFirst ds) := by
  obtain ⟨ho, -⟩ := h.declare_kept
  have hw := p.declare_wellFormed
  have hds : q.declares = ds := by
    unfold Part.declares
    rw [hs]
    rfl
  have hadm := hds ▸ (h.admitted_declares hq).1
  -- the program itself has the global scope, and every other piece the one it opens
  rcases mem_parts hq with rfl | ⟨-, hp⟩
  · cases hs
    refine ⟨Forest.globalId, Nat.zero_lt_of_lt hw.current_lt, rfl, ?_⟩
    exact (congrArg Scope.decls ho.global).trans hadm
  · have hsome := Part.opening?_isSome hp
    rw [hs] at hsome
    obtain ⟨o, hopen⟩ := Option.isSome_iff_exists.mp hsome
    obtain ⟨hnode, hdecls⟩ := Part.declares_of_opening? hopen
    have hdecls := Option.some.inj (hs.symm.trans hdecls)
    obtain ⟨k, hk⟩ := ho.hasAll o.kept (List.mem_map_of_mem (mem_openings.mpr ⟨q, hq, hopen⟩))
    have hslot : (p.declare .empty).forest.scopeOf? q.id = some k := hnode ▸ hk.1
    refine ⟨k, (hw.opened _ k hslot).2, ?_, ?_⟩
    · rw [Forest.home?_of_ne hp]
      exact hslot
    · rw [hk.decls_eq, ← hadm, hdecls]
      rfl

/-- **A scope is that of one construct.** -/
theorem tenant (h : p.Numbered) (hk : k < (p.declare .empty).forest.size) :
    ∃! q, q ∈ p.parts ∧ q.declares?.isSome = true ∧
      (p.declare .empty).forest.home? q = some k := by
  have hw := p.declare_wellFormed
  have hmem : Part.program p ∈ p.parts := List.mem_append_right _ (List.mem_singleton_self _)
  -- the global scope is that of the program, and of nothing else
  by_cases hg : k = Forest.globalId
  · subst hg
    refine ⟨.program p, ⟨hmem, rfl, rfl⟩, fun q ⟨hq, _, hhome⟩ => ?_⟩
    rcases mem_parts hq with rfl | ⟨-, hp⟩
    · rfl
    · exact absurd rfl (hw.opened q.id _ (Forest.home?_of_ne hp ▸ hhome)).1
  -- any other scope is opened by one node, and that is the piece
  · obtain ⟨n, hn, only⟩ := hw.opener k hk hg
    obtain ⟨ho, -⟩ := h.declare_kept
    have hnode : n ∈ (p.declare .empty).forest.nodes :=
      List.mem_map_of_mem (Table.mem_of_find hn)
    rw [ho.nodes_eq] at hnode
    obtain ⟨o', ho', rfl⟩ := List.mem_map.mp hnode
    obtain ⟨o, hopen, rfl⟩ := List.mem_map.mp ho'
    obtain ⟨q, hq, hqo⟩ := mem_openings.mp hopen
    obtain ⟨hid, hdecls⟩ := Part.declares_of_opening? hqo
    have hp : ∀ p', q ≠ .program p' := fun p' e => by
      rw [e] at hqo
      cases hqo
    refine ⟨q, ⟨hq, by rw [hdecls]; rfl, ?_⟩, fun q' ⟨hq', _, hhome⟩ => ?_⟩
    · rw [Forest.home?_of_ne hp, ← hid]
      exact hn
    · rcases mem_parts hq' with rfl | ⟨-, hp'⟩
      · exact absurd (Option.some.inj hhome).symm hg
      · rw [Forest.home?_of_ne hp'] at hhome
        exact h.eq_of_id hq' hq ((only _ hhome).trans hid)

/-- What is in a scope is a first declaration of the construct of the scope. -/
theorem of_mem_scope (h : p.Numbered) (hk : k < (p.declare .empty).forest.size)
    (hd : d ∈ ((p.declare .empty).forest.scope k).decls) :
    ∃ q ∈ p.parts, (p.declare .empty).forest.home? q = some k ∧ d ∈ q.declares ∧
      Decl.isFirst q.declares d = true := by
  obtain ⟨q, ⟨hq, hs, hhome⟩, -⟩ := h.tenant hk
  obtain ⟨ds, hds⟩ := Option.isSome_iff_exists.mp hs
  obtain ⟨j, -, hj, hdecls⟩ := h.home hq hds
  cases hj.symm.trans hhome
  have e : q.declares = ds := by
    unfold Part.declares
    rw [hds]
    rfl
  rw [hdecls] at hd
  obtain ⟨hd, hf⟩ := List.mem_filter.mp hd
  exact ⟨q, hq, hhome, e ▸ hd, e ▸ hf⟩

theorem home_of_declares (h : p.Numbered) (hq : q ∈ p.parts) (hd : d ∈ q.declares) :
    ∃ k < (p.declare .empty).forest.size, (p.declare .empty).forest.home? q = some k ∧
      ((p.declare .empty).forest.scope k).decls = q.declares.filter (Decl.isFirst q.declares) := by
  unfold Part.declares at hd ⊢
  cases hs : q.declares? with
  | none =>
    rw [hs] at hd
    cases hd
  | some ds => exact h.home hq hs

/-- There is one scope for each construct that has one. -/
theorem size_eq (h : p.Numbered) :
    (p.declare .empty).forest.size = p.parts.countP fun q => q.declares?.isSome := by
  obtain ⟨ho, -⟩ := h.declare_kept
  have hlen := (Decl.tally_all p.decls).openings.length_eq
  have hsome : (Decl.partsAll p.decls).countP (fun q => q.opening?.isSome) =
      (Decl.partsAll p.decls).countP fun q => q.declares?.isSome :=
    List.countP_congr fun q hq => by
      rw [Part.opening?_isSome ((Decl.tally_all p.decls).inside q hq)]
  rw [List.length_filterMap_eq_countP, hsome] at hlen
  unfold parts
  rw [ho.size_eq, List.length_map, List.countP_append, hlen]
  exact Nat.add_comm _ _

/-- The first declaration of a name is in the scope of its construct, and in no other. -/
theorem mem_scope_iff (h : p.Numbered) (hq : q ∈ p.parts) (hd : d ∈ q.declares)
    (hf : Decl.isFirst q.declares d = true) (hk : k < (p.declare .empty).forest.size) :
    d ∈ ((p.declare .empty).forest.scope k).decls ↔
      (p.declare .empty).forest.home? q = some k := by
  constructor
  · intro hdk
    obtain ⟨q', hq', hhome, hd', -⟩ := h.of_mem_scope hk hdk
    rwa [h.declares_unique hq hq' hd hd']
  · intro hhome
    obtain ⟨j, -, hj, hdecls⟩ := h.home_of_declares hq hd
    cases hj.symm.trans hhome
    rw [hdecls]
    exact List.mem_filter.mpr ⟨hd, hf⟩

/-- A later one is in no scope. -/
theorem not_mem_scope (h : p.Numbered) (hq : q ∈ p.parts) (hd : d ∈ q.declares)
    (hf : Decl.isFirst q.declares d = false) (hk : k < (p.declare .empty).forest.size) :
    d ∉ ((p.declare .empty).forest.scope k).decls := by
  intro hdk
  obtain ⟨q', hq', -, hd', hf'⟩ := h.of_mem_scope hk hdk
  rw [h.declares_unique hq hq' hd hd', hf'] at hf
  cases hf

/-- The scope that is noted for a declaration has it. -/
theorem of_declaredIn (h : p.Numbered) (hq : q ∈ p.parts) (hd : d ∈ q.declares)
    (hk : (p.declare .empty).forest.declaredIn? d.id = some k) :
    k < (p.declare .empty).forest.size ∧ d ∈ ((p.declare .empty).forest.scope k).decls := by
  obtain ⟨hlt, x, hx, e⟩ := p.declare_wellFormed.recorded d.id k hk
  obtain ⟨q', hq', -, hx', -⟩ := h.of_mem_scope hlt hx
  obtain rfl := h.eq_of_decl_id hq' hq hx' hd e
  exact ⟨hlt, hx⟩

/-- What is reported is what the constructs refuse. -/
theorem reports_perm (h : p.Numbered) : (p.declare .empty).conflicts.Perm
    (p.parts.flatMap fun q => q.declares.filterMap (Decl.repeat? q.declares)) := by
  obtain ⟨-, e⟩ := h.declare_kept
  have hr := (Decl.tally_all p.decls).reports []
  have hall : (p.parts.flatMap fun q => Decl.refused [] q.declares) =
      p.parts.flatMap fun q => q.declares.filterMap (Decl.repeat? q.declares) :=
    List.flatMap_congr fun q hq => (h.admitted_declares hq).2
  rw [e, ← hall]
  unfold parts
  rw [List.flatMap_append]
  exact hr.trans (List.perm_append_comm.trans (by rw [List.flatMap_singleton]; rfl))

/-- **Every declaration is in exactly one scope, or it is reported.** -/
theorem placed (h : p.Numbered) : p.Placed (p.declare .empty) where
  size := h.size_eq
  home q hq ds hs := h.home hq hs
  tenant k hk := h.tenant hk
  belongs d hd := by
    obtain ⟨q, hq, hqd⟩ := List.mem_flatMap.mp (p.all_decls_perm.mem_iff.mp hd)
    exact ⟨q, ⟨hq, hqd⟩, fun q' ⟨hq', hqd'⟩ => h.declares_unique hq' hq hqd' hqd⟩
  first q hq d hd hf := by
    refine ⟨?_, fun k hk => h.mem_scope_iff hq hd hf hk⟩
    obtain ⟨k, hk, hhome, -⟩ := h.home_of_declares hq hd
    obtain ⟨j, hj⟩ := Option.isSome_iff_exists.mp
      (p.declare_noted k d ((h.mem_scope_iff hq hd hf hk).mpr hhome))
    obtain ⟨hlt, hdj⟩ := h.of_declaredIn hq hd hj
    rw [hj, (h.mem_scope_iff hq hd hf hlt).mp hdj]
  -- a declaration that is not the first of its name lies in no scope
  later q hq d hd hf := by
    refine ⟨Option.eq_none_iff_forall_ne_some.mpr fun k hk => ?_,
      fun k hk => h.not_mem_scope hq hd hf hk⟩
    obtain ⟨hlt, hdk⟩ := h.of_declaredIn hq hd hk
    exact h.not_mem_scope hq hd hf hlt hdk
  reports := h.reports_perm
  total := p.declare_total

end Numbered

end Program

/-- A class in a class, a formal and a local that come twice, a block that hides a local, and a
function with the name of the outer class. -/
def crowd : Program := .number [
  .cls ⟨.onLine 1, .onLine "Outer" 1, none, [], [
    .var (var "x" 2),
    .cls ⟨.onLine 3, .onLine "Inner" 3, none, [], [.var (var "x" 4), .var (var "x" 5)]⟩,
    .fn ⟨.onLine 6, .onLine "f" 6, .prim 0 .void, [var "a" 6, var "a" 7],
      some ⟨.onLine 8, [var "b" 8], [
        .block ⟨.onLine 9, [var "b" 9, var "c" 10, var "b" 11], []⟩]⟩⟩]⟩,
  .fn ⟨.onLine 12, .onLine "Outer" 12, .prim 0 .void, [var "a" 12], none⟩]
where
  var (s : String) (line : Nat) : VarDecl := ⟨.onLine line, .onLine s line, .prim 0 .int⟩

/-- Of the fourteen declarations of the crowd four are refused, and each report has the line of the
first. -/
theorem placed_crowd :
    crowd.Numbered ∧ crowd.Placed (crowd.declare .empty) ∧
    (crowd.declare .empty).forest.size = 7 ∧ (crowd.declare .empty).count = 10 ∧
    (crowd.declare .empty).conflicts = [
      .located (.point 5 1) (.declConflict "x" 4), .located (.point 7 1) (.declConflict "a" 6),
      .located (.point 11 1) (.declConflict "b" 9),
      .located (.point 12 1) (.declConflict "Outer" 1)] :=
  have hn : crowd.Numbered := Program.number_numbered _
  ⟨hn, hn.placed, by decide +kernel, by decide +kernel, by decide +kernel⟩

end DecafLang
