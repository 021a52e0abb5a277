import DecafLang.Proofs.Names

/-!
# The forest under any use

The walks over a program use the forest in their own orders. Nothing here depends on them: `Use`
lists what can be asked of a forest, and a run is any list of such requests.

* `WellFormed` says what holds of a forest at all times: which scopes are open, to which nodes the
  scopes belong, where they lie, what is in them and what is registered.
* `Extends` says what a later forest keeps of an earlier one. **No scope goes away, and nothing in
  a scope changes its place.**
* Only two things are done to the scopes themselves: a new one comes behind the others, or one of
  them is changed. Both keep a forest well formed, and so does every use of it.
* A declaration that is refused leaves everything as it was, and adds one report.
-/

namespace DecafLang

/-! ## 1. Uses -/

/-- What can be asked of a forest. -/
inductive Use where
  /-- Open the scope of a node. -/
  | enter (node : NodeId)
  /-- Open the scope of a named construct. -/
  | enterOwned (node : NodeId) (o : Owner)
  /-- Close the innermost scope. -/
  | exit
  /-- Put a declaration into the innermost scope. -/
  | insert (d : Decl)
  /-- Note which class the owner of the innermost scope extends. -/
  | setBase (name : String)
  /-- Note an interface that the owner of the innermost scope lists. -/
  | addListed (name : String)
  /-- Close all scopes but the global one. -/
  | reset

namespace Declared

/-- Nothing is declared yet. -/
def start : Declared := ⟨.empty, 0, []⟩

/-- Does what is asked for. -/
def use (s : Declared) : Use → Declared
  | .enter n => s.withForest (·.enter n)
  | .enterOwned n o => s.withForest (·.enterOwned n o)
  | .exit => s.exit
  | .insert d => s.put d
  | .setBase n => s.withForest (·.setBase n)
  | .addListed n => s.withForest (·.addListed n)
  | .reset => s.withForest Forest.reset

/-- Does what is asked for, one after the other. -/
def run (s : Declared) (us : List Use) : Declared := us.foldl use s

theorem run_append (s : Declared) (us vs : List Use) : s.run (us ++ vs) = (s.run us).run vs :=
  List.foldl_append

/-- **What is put is refused or appended.** The refusal names the line of the declaration that has
the name, and nothing else changes. -/
theorem put_cases (s : Declared) (d : Decl) :
    (∃ previous, (s.forest.scope s.forest.current).get? d.name = some previous ∧
      s.put d = { s with conflicts := s.conflicts ++
        [.located d.ident.span (.declConflict d.name previous.ident.span.line)] }) ∨
    ((s.forest.scope s.forest.current).get? d.name = none ∧
      s.put d = { s with forest := s.forest.add d, count := s.count + 1 }) := by
  cases hg : (s.forest.scope s.forest.current).get? d.name with
  | none => exact .inr ⟨rfl, by simp only [put, Forest.insert, hg]⟩
  | some previous => exact .inl ⟨previous, rfl, by simp only [put, Forest.insert, hg]⟩

end Declared

/-! ## 2. What holds at all times -/

namespace Scope

/-- No two declarations of the scope have one name. -/
def Distinct (s : Scope) : Prop := (s.decls.map Decl.name).Nodup

/-- Where no name comes twice, a scope gives for a name what has it. -/
theorem Distinct.get?_iff {s : Scope} (h : s.Distinct) {name : String} {d : Decl} :
    s.get? name = some d ↔ d ∈ s.decls ∧ d.name = name := by
  refine ⟨Forest.mem_of_get?, ?_⟩
  rintro ⟨hd, rfl⟩
  exact find?_key h hd

/-- A declaration whose name is free may be added. -/
theorem Distinct.add {s : Scope} (h : s.Distinct) {d : Decl} (hd : s.get? d.name = none) :
    (s.add d).Distinct := by
  -- the name is not among those that are there
  have hn : d.name ∉ s.decls.map Decl.name := by simpa [get?] using hd
  unfold Distinct Scope.add
  rw [List.map_append]
  refine List.nodup_append.mpr ⟨h, List.nodup_singleton _, fun x hx y hy => ?_⟩
  rw [List.mem_singleton.mp hy]
  exact fun e => hn (e ▸ hx)

/-- The second scope is the first, with more in it. -/
structure Extends (s s' : Scope) : Prop where
  decls : s.decls <+: s'.decls
  enclosing : s'.enclosing = s.enclosing
  owner : ∀ o, s.owner = some o → s'.owner = some o

theorem Extends.refl (s : Scope) : s.Extends s := ⟨List.prefix_rfl, rfl, fun _ => id⟩

theorem Extends.trans {s s' s'' : Scope} (h : s.Extends s') (h' : s'.Extends s'') :
    s.Extends s'' :=
  ⟨h.decls.trans h'.decls, h'.enclosing.trans h.enclosing, fun o ho => h'.owner o (h.owner o ho)⟩

theorem extends_add (s : Scope) (d : Decl) : s.Extends (s.add d) :=
  ⟨List.prefix_append _ _, rfl, fun _ => id⟩

theorem extends_claim (s : Scope) (o : Owner) : s.Extends (s.claim o) :=
  ⟨List.prefix_rfl, rfl, fun w hw => by simp only [claim, hw, Option.getD_some]⟩

end Scope

namespace Forest

/-- What holds of a forest, however it is used. -/
structure WellFormed (f : Forest) : Prop where
  /-- The global scope is open, below all others. -/
  bottom : f.active.getLast? = some globalId
  /-- What is open is there. -/
  active_lt : ∀ k ∈ f.active, k < f.size
  /-- The scope of a node is there, and is not the global one. -/
  opened : ∀ n k, f.scopeOf? n = some k → k ≠ globalId ∧ k < f.size
  /-- Every scope but the global one is the scope of exactly one node. -/
  opener : ∀ k < f.size, k ≠ globalId → ∃! n, f.scopeOf? n = some k
  /-- Every scope but the global one lies in one with a smaller number. -/
  enclosed : ∀ k < f.size, k ≠ globalId → ∃ j < k, (f.scope k).enclosing = some j
  distinct : ∀ k < f.size, (f.scope k).Distinct
  /-- What is registered under a name is the scope of the class or the interface of that name. -/
  owned : ∀ name k, f.ownerScope? name = some k →
    k < f.size ∧ ∃ o, (f.scope k).owner = some o ∧ o.name = name ∧ o.kind ≠ .fn
  /-- What is noted as declared in a scope is one of its declarations. -/
  recorded : ∀ i k, f.declaredIn? i = some k →
    k < f.size ∧ ∃ d ∈ (f.scope k).decls, d.id = i

/-- The second forest is what the first has become. -/
structure Extends (f f' : Forest) : Prop where
  size_le : f.size ≤ f'.size
  scope : ∀ k < f.size, (f.scope k).Extends (f'.scope k)
  scopeOf? : ∀ n k, f.scopeOf? n = some k → f'.scopeOf? n = some k
  ownerScope? : ∀ name k, f.ownerScope? name = some k → f'.ownerScope? name = some k

variable {f f' f'' : Forest}

theorem Extends.refl (f : Forest) : f.Extends f :=
  ⟨Nat.le_refl _, fun _ _ => .refl _, fun _ _ => id, fun _ _ => id⟩

/-- What is kept by two steps is kept by both together. -/
theorem Extends.trans (h : f.Extends f') (h' : f'.Extends f'') : f.Extends f'' where
  size_le := Nat.le_trans h.size_le h'.size_le
  scope k hk := (h.scope k hk).trans (h'.scope k (Nat.lt_of_lt_of_le hk h.size_le))
  scopeOf? n k hk := h'.scopeOf? n k (h.scopeOf? n k hk)
  ownerScope? name k hk := h'.ownerScope? name k (h.ownerScope? name k hk)

/-- The open scope is one of the scopes. -/
theorem WellFormed.current_lt (h : f.WellFormed) : f.current < f.size := by
  refine h.active_lt _ ?_
  unfold current active
  cases f.inner with
  | nil => exact List.mem_singleton_self _
  | cons k r => exact List.mem_cons_self

/-- **The forest that all begins with is well formed.** -/
theorem wellFormed_empty : empty.WellFormed where
  bottom := rfl
  active_lt k hk := by
    rw [List.mem_singleton.mp hk]
    exact Nat.zero_lt_one
  opened _ _ hk := by cases hk
  opener k hk hg := absurd (Nat.lt_one_iff.mp hk) hg
  enclosed k hk hg := absurd (Nat.lt_one_iff.mp hk) hg
  distinct k hk := by
    rw [Nat.lt_one_iff.mp hk]
    exact List.nodup_nil
  owned _ _ hk := by cases hk
  recorded _ _ hk := by cases hk

/-! ## 3. What a request does to the scopes -/

/-- At the bottom the global scope is open. -/
theorem bottom_of (f : Forest) : f.active.getLast? = some globalId := by
  rw [active, List.getLast?_append]
  rfl

/-- Which scopes are open takes nothing away. -/
theorem extends_withOpen (f : Forest) (ks : List ScopeId) : f.Extends (f.withOpen ks) :=
  ⟨Nat.le_refl _, fun _ _ => .refl _, fun _ _ => id, fun _ _ => id⟩

/-- Scopes that are there may be opened. -/
theorem WellFormed.withOpen (h : f.WellFormed) {ks : List ScopeId} (hk : ∀ k ∈ ks, k < f.size) :
    (f.withOpen ks).WellFormed where
  bottom := bottom_of _
  active_lt k hm := by
    rcases List.mem_append.mp hm with hm | hm
    · exact hk k hm
    · rw [List.mem_singleton.mp hm]
      exact Nat.zero_lt_of_lt h.current_lt
  opened := h.opened
  opener := h.opener
  enclosed := h.enclosed
  distinct := h.distinct
  owned := h.owned
  recorded := h.recorded

theorem WellFormed.inner_lt (h : f.WellFormed) : ∀ k ∈ f.inner, k < f.size := fun k hk =>
  h.active_lt k (List.mem_append_left _ hk)

/-- A new scope leaves the others where they are. -/
theorem scope_new_of_lt {s : Scope} {k : ScopeId} (e : f'.scopes = f.scopes ++ [s])
    (hk : k < f.size) : f'.scope k = f.scope k := by
  unfold scope
  rw [e, List.getD_eq_getElem?_getD, List.getD_eq_getElem?_getD, List.getElem?_append_left hk]

/-- The new scope comes last. -/
theorem scope_new {s : Scope} (e : f'.scopes = f.scopes ++ [s]) : f'.scope f.size = s := by
  unfold scope size
  rw [e, List.getD_eq_getElem?_getD, List.getElem?_concat_length]
  rfl

/-- With a new scope for a node that had none, every scope still has one node. -/
theorem WellFormed.opener_new (h : f.WellFormed) {n : NodeId} (hn : f.scopeOf? n = none)
    (hs : f'.size = f.size + 1)
    (en : ∀ n', f'.scopeOf? n' = if n = n' then some f.size else f.scopeOf? n') {k : ScopeId}
    (hk : k < f'.size) (hg : k ≠ globalId) : ∃! n', f'.scopeOf? n' = some k := by
  rcases Nat.lt_succ_iff_lt_or_eq.mp (Nat.lt_of_lt_of_eq hk hs) with hk | rfl
  -- a scope that was there is opened by the node that opened it before
  · obtain ⟨n', hn', only⟩ := h.opener k hk hg
    have hne : n ≠ n' := by
      rintro rfl
      exact absurd (hn'.symm.trans hn) (Option.some_ne_none k)
    refine ⟨n', (en n').trans ((if_neg hne).trans hn'), fun m hm => only m ?_⟩
    have hm := (en m).symm.trans hm
    split at hm
    · exact absurd (Option.some.inj hm) (Nat.ne_of_gt hk)
    · exact hm
  -- the new scope is opened by the new node, and no other node has its number
  · refine ⟨n, (en n).trans (if_pos rfl), fun m hm => ?_⟩
    have hm := (en m).symm.trans hm
    split at hm
    · rename_i e
      exact e.symm
    · exact absurd (h.opened m _ hm).2 (Nat.lt_irrefl _)

/-- **A new scope comes behind the others,** and belongs to a node that had none. -/
theorem WellFormed.push (h : f.WellFormed) {n : NodeId} (hn : f.ofNode.get? n = none) :
    ({ f with scopes := f.scopes ++ [.inside (some f.current)]
              ofNode := f.ofNode.insert n f.size } : Forest).WellFormed := by
  generalize e : ({ f with scopes := f.scopes ++ [.inside (some f.current)]
                           ofNode := f.ofNode.insert n f.size } : Forest) = f'
  have es : f'.scopes = f.scopes ++ [.inside (some f.current)] := e ▸ rfl
  have en : ∀ n', f'.scopeOf? n' = if n = n' then some f.size else f.scopeOf? n' := fun n' => by
    rw [← e]
    exact Table.get?_insert _ _ _ _
  have hs : f'.size = f.size + 1 := by
    unfold size
    rw [es, List.length_append]
    rfl
  -- what is there is an old scope or the new one
  have cases_lt : ∀ k < f'.size, k < f.size ∨ k = f.size := fun k hk =>
    Nat.lt_succ_iff_lt_or_eq.mp (Nat.lt_of_lt_of_eq hk hs)
  have old : ∀ k < f.size, f'.scope k = f.scope k := fun k => scope_new_of_lt es
  have new : f'.scope f.size = .inside (some f.current) := scope_new es
  have lt : ∀ k < f.size, k < f'.size := fun k hk => hs ▸ Nat.lt_succ_of_lt hk
  constructor
  · exact bottom_of f'
  · intro k hk
    exact lt k (h.active_lt k (by rw [← e] at hk; exact hk))
  · intro n' k hk
    rw [en] at hk
    split at hk
    · cases hk
      exact ⟨Nat.ne_of_gt (Nat.zero_lt_of_lt h.current_lt), hs ▸ Nat.lt_succ_self _⟩
    · exact ⟨(h.opened n' k hk).1, lt k (h.opened n' k hk).2⟩
  · exact fun k hk hg => h.opener_new hn hs en hk hg
  · intro k hk hg
    rcases cases_lt k hk with hk | rfl
    · rw [old k hk]
      exact h.enclosed k hk hg
    · exact ⟨f.current, h.current_lt, congrArg Scope.enclosing new⟩
  · intro k hk
    rcases cases_lt k hk with hk | rfl
    · rw [old k hk]
      exact h.distinct k hk
    · rw [new]
      exact List.nodup_nil
  · intro name k hk
    obtain ⟨hk, ho⟩ := h.owned name k (by rw [← e] at hk; exact hk)
    exact ⟨lt k hk, by rwa [old k hk]⟩
  · intro i k hk
    obtain ⟨hk, hd⟩ := h.recorded i k (by rw [← e] at hk; exact hk)
    exact ⟨lt k hk, by rwa [old k hk]⟩

/-- **A new scope keeps a forest well formed.** -/
theorem WellFormed.grow (h : f.WellFormed) (n : NodeId) : (f.grow n).WellFormed := by
  unfold Forest.grow
  split
  · exact h
  · rename_i hn
    exact h.push hn

/-- It takes nothing away. -/
theorem extends_grow (f : Forest) (n : NodeId) : f.Extends (f.grow n) := by
  unfold grow
  split
  · exact .refl f
  · rename_i hn
    refine ⟨by simp [size], fun k hk => ?_, fun n' k hk => ?_, fun _ _ => id⟩
    -- the new scope comes behind, so the others are found at their numbers
    · have e : ({ f with scopes := f.scopes ++ [.inside (some f.current)]
                         ofNode := f.ofNode.insert n f.size } : Forest).scope k = f.scope k :=
        scope_new_of_lt rfl hk
      rw [e]
      exact .refl _
    · refine (Table.get?_insert _ _ _ _).trans ((if_neg ?_).trans hk)
      rintro rfl
      exact absurd (hk.symm.trans hn) (Option.some_ne_none k)

/-- The scope of a node is one of the scopes, once it is there. -/
theorem WellFormed.slotOf_lt (h : f.WellFormed) (n : NodeId) : f.slotOf n < (f.grow n).size := by
  unfold slotOf Forest.grow
  split
  · rename_i k hk
    rw [hk]
    exact (h.opened n k hk).2
  · rename_i hk
    rw [hk]
    simp [size]

/-- The second forest is the first with one scope changed, and with what goes along with it. -/
structure Changed (f f' : Forest) (k : ScopeId) (g : Scope → Scope) : Prop where
  lt : k < f.size
  scopes : f'.scopes = f.scopes.modify k g
  inner : f'.inner = f.inner
  ofNode : f'.ofNode = f.ofNode
  keeps : ∀ s : Scope, s.Extends (g s)
  distinct : (g (f.scope k)).Distinct
  /-- A name that is new to the register is that of the scope. -/
  owners : ∀ name j, f'.ownerScope? name = some j → f.ownerScope? name = some j ∨
    j = k ∧ ∃ o, (g (f.scope k)).owner = some o ∧ o.name = name ∧ o.kind ≠ .fn
  register : ∀ name j, f.ownerScope? name = some j → f'.ownerScope? name = some j
  /-- A declaration that is new is one of the scope. -/
  declaredIn : ∀ i j, f'.declaredIn? i = some j → f.declaredIn? i = some j ∨
    j = k ∧ ∃ d ∈ (g (f.scope k)).decls, d.id = i

namespace Changed

variable {k : ScopeId} {g : Scope → Scope}

/-- A change of one scope makes no other. -/
theorem size_eq (h : f.Changed f' k g) : f'.size = f.size := by
  unfold size
  rw [h.scopes, List.length_modify]

/-- It is seen in this scope and nowhere else. -/
theorem scope_eq (h : f.Changed f' k g) (j : ScopeId) :
    f'.scope j = if j = k then g (f.scope j) else f.scope j := by
  have hl : k < f.scopes.length := h.lt
  unfold scope
  simp only [h.scopes, List.getD_eq_getElem?_getD, List.getElem?_modify]
  by_cases e : j = k
  · subst e
    simp only [if_true, List.getElem?_eq_getElem hl]
    rfl
  · simp only [if_neg e, if_neg (Ne.symm e)]
    cases f.scopes[j]? <;> rfl

theorem scope_keeps (h : f.Changed f' k g) (j : ScopeId) : (f.scope j).Extends (f'.scope j) := by
  rw [h.scope_eq]
  split
  · exact h.keeps _
  · exact .refl _

/-- **It keeps what all scopes had.** -/
theorem extends_of (h : f.Changed f' k g) : f.Extends f' where
  size_le := Nat.le_of_eq h.size_eq.symm
  scope j _ := h.scope_keeps j
  scopeOf? n j hj := by
    unfold scopeOf?
    rwa [h.ofNode]
  ownerScope? := h.register

/-- **A scope is changed,** and the forest stays well formed. -/
theorem wellFormed (h : f.Changed f' k g) (hw : f.WellFormed) : f'.WellFormed := by
  have hn : f'.scopeOf? = f.scopeOf? := by
    unfold scopeOf?
    rw [h.ofNode]
  have changed : f'.scope k = g (f.scope k) := (h.scope_eq k).trans (if_pos rfl)
  constructor
  · exact bottom_of f'
  · intro j hj
    rw [active, h.inner] at hj
    exact h.size_eq ▸ hw.active_lt j hj
  · intro n j hj
    rw [h.size_eq]
    exact hw.opened n j (hn ▸ hj)
  · intro j hj hg
    rw [hn]
    exact hw.opener j (h.size_eq ▸ hj) hg
  · intro j hj hg
    rw [(h.scope_keeps j).enclosing]
    exact hw.enclosed j (h.size_eq ▸ hj) hg
  · intro j hj
    rw [h.scope_eq]
    split
    · rename_i e
      exact e ▸ h.distinct
    · exact hw.distinct j (h.size_eq ▸ hj)
  · intro name j hj
    rw [h.size_eq]
    -- what is registered was registered before, or it is the changed scope and has its owner
    rcases h.owners name j hj with hj | ⟨rfl, ho⟩
    · obtain ⟨hl, o, ho, hn⟩ := hw.owned name j hj
      exact ⟨hl, o, (h.scope_keeps j).owner o ho, hn⟩
    · exact ⟨h.lt, changed ▸ ho⟩
  · intro i j hj
    rw [h.size_eq]
    -- what is declared was declared before, or it came with the change
    rcases h.declaredIn i j hj with hj | ⟨rfl, hd⟩
    · obtain ⟨hl, d, hd, e⟩ := hw.recorded i j hj
      exact ⟨hl, d, (h.scope_keeps j).decls.subset hd, e⟩
    · exact ⟨h.lt, changed ▸ hd⟩

end Changed

/-! ## 4. The requests -/

/-- A scope gets its first owner. -/
theorem WellFormed.changed_claim (h : f.WellFormed) {k : ScopeId} (hk : k < f.size) {o : Owner}
    (ho : (f.scope k).owner = none) : f.Changed (f.claim k o) k (·.claim o) := by
  have e : f.claim k o = { f with
      scopes := f.scopes.modify k (·.claim o)
      owners := if o.kind = .fn then f.owners else f.owners.insertNew o.name k } := by
    unfold claim
    rw [ho]
  have hc : ((f.scope k).claim o).owner = some o := by
    simp only [Scope.claim, ho, Option.getD_none]
  rw [e]
  refine ⟨hk, rfl, rfl, rfl, fun s => s.extends_claim o, h.distinct k hk, ?_, ?_, fun _ _ => .inl⟩
  · intro name j hj
    simp only [ownerScope?] at hj
    split at hj
    · exact .inl hj
    · rename_i hf
      rw [Table.get?_insertNew] at hj
      split at hj
      · rename_i hname
        -- the first to take the name keeps it
        cases hr : f.owners.get? o.name with
        | some j' =>
          rw [hr] at hj
          exact .inl (hname ▸ hr.trans hj)
        | none =>
          rw [hr] at hj
          exact .inr ⟨(Option.some.inj hj).symm, o, hc, hname, hf⟩
      · exact .inl hj
  · intro name j hj
    simp only [ownerScope?] at hj ⊢
    split
    · exact hj
    · rw [Table.get?_insertNew]
      split
      · rename_i hname
        rw [hname, hj]
        rfl
      · exact hj

/-- **A claim keeps a forest well formed,** and is refused where there is an owner. -/
theorem WellFormed.claim (h : f.WellFormed) {k : ScopeId} (hk : k < f.size) (o : Owner) :
    (f.claim k o).WellFormed ∧ f.Extends (f.claim k o) := by
  cases ho : (f.scope k).owner with
  | none => exact ⟨(h.changed_claim hk ho).wellFormed h, (h.changed_claim hk ho).extends_of⟩
  | some w =>
    have e : f.claim k o = f := by
      unfold Forest.claim
      rw [ho]
    rw [e]
    exact ⟨h, .refl f⟩

/-- A declaration whose name is free is a change of the open scope. -/
theorem WellFormed.changed_add (h : f.WellFormed) {d : Decl}
    (hd : (f.scope f.current).get? d.name = none) :
    f.Changed (f.add d) f.current (·.add d) := by
  refine ⟨h.current_lt, rfl, rfl, rfl, fun s => s.extends_add d, (h.distinct _ h.current_lt).add hd,
    fun _ _ => .inl, fun _ _ => id, fun i j hj => ?_⟩
  have hj : (if d.id = i then some f.current else f.declaredIn? i) = some j :=
    (Table.get?_insert _ _ _ _).symm.trans hj
  split at hj
  · rename_i e
    exact .inr
      ⟨(Option.some.inj hj).symm, d, List.mem_append_right _ (List.mem_singleton_self d), e⟩
  · exact .inl hj

/-- A change of what the scope remembers of its owner's head. -/
theorem WellFormed.changed_heading (h : f.WellFormed) {g : Scope → Scope}
    (hd : ∀ s, (g s).decls = s.decls) (he : ∀ s, (g s).enclosing = s.enclosing)
    (ho : ∀ s, (g s).owner = s.owner) :
    f.Changed { f with scopes := f.scopes.modify f.current g } f.current g where
  lt := h.current_lt
  scopes := rfl
  inner := rfl
  ofNode := rfl
  keeps s := ⟨hd s ▸ List.prefix_rfl, he s, fun o => by rw [ho]; exact id⟩
  distinct := by
    unfold Scope.Distinct
    rw [hd]
    exact h.distinct _ h.current_lt
  owners _ _ := .inl
  register _ _ := id
  declaredIn _ _ := .inl

/-- **What one request preserves.** -/
theorem WellFormed.use {s : Declared} (h : s.forest.WellFormed) (u : Use) :
    (s.use u).forest.WellFormed ∧ s.forest.Extends (s.use u).forest := by
  -- after a new scope was made, all that was open is still among the scopes
  have slots : ∀ n, ∀ k ∈ s.forest.slotOf n :: s.forest.inner, k < (s.forest.grow n).size := by
    intro n k hk
    rcases List.mem_cons.mp hk with rfl | hk
    · exact h.slotOf_lt n
    · exact Nat.lt_of_lt_of_le (h.inner_lt k hk) (extends_grow s.forest n).size_le
  cases u with
  | enter n =>
    exact ⟨(h.grow n).withOpen (slots n), (extends_grow _ n).trans (extends_withOpen _ _)⟩
  | enterOwned n o =>
    obtain ⟨hw, he⟩ := (h.grow n).claim (h.slotOf_lt n) o
    exact ⟨hw.withOpen fun k hk => Nat.lt_of_lt_of_le (slots n k hk) he.size_le,
      ((extends_grow _ n).trans he).trans (extends_withOpen _ _)⟩
  | exit =>
    exact ⟨h.withOpen fun k hk => h.inner_lt k (List.mem_of_mem_tail hk), extends_withOpen _ _⟩
  | insert d =>
    rcases s.put_cases d with ⟨_, -, e⟩ | ⟨hd, e⟩
    · rw [Declared.use, e]
      exact ⟨h, .refl _⟩
    · rw [Declared.use, e]
      exact ⟨(h.changed_add hd).wellFormed h, (h.changed_add hd).extends_of⟩
  | setBase name =>
    have hc := h.changed_heading (g := fun s => { s with parent := some name })
      (fun _ => rfl) (fun _ => rfl) (fun _ => rfl)
    exact ⟨hc.wellFormed h, hc.extends_of⟩
  | addListed name =>
    have hc := h.changed_heading (g := fun s => { s with interfaces := s.interfaces ++ [name] })
      (fun _ => rfl) (fun _ => rfl) (fun _ => rfl)
    exact ⟨hc.wellFormed h, hc.extends_of⟩
  -- only the global scope is open now
  | reset => exact ⟨h.withOpen fun _ hk => absurd hk List.not_mem_nil, extends_withOpen _ _⟩

/-- **What a run preserves.** -/
theorem WellFormed.run {s : Declared} (h : s.forest.WellFormed) (us : List Use) :
    (s.run us).forest.WellFormed ∧ s.forest.Extends (s.run us).forest := by
  induction us generalizing s with
  | nil => exact ⟨h, .refl _⟩
  | cons u us ih =>
    obtain ⟨hw, he⟩ := h.use u
    obtain ⟨hw', he'⟩ := ih hw
    exact ⟨hw', he.trans he'⟩

/-- **The forest stays well formed under any use.** After any requests, in any order, everything is
in its place, and whatever is asked for afterwards keeps it there. In each scope a name finds the
declaration that has it; and a declaration whose name is taken in the innermost scope is refused
with one report, while the forest is what it was. -/
theorem wellFormed_under_any_use (us vs : List Use) :
    (Declared.start.run us).forest.WellFormed ∧
    (Declared.start.run us).forest.Extends (Declared.start.run (us ++ vs)).forest ∧
    (∀ k < (Declared.start.run us).forest.size, ∀ name d,
      ((Declared.start.run us).forest.scope k).get? name = some d ↔
        d ∈ ((Declared.start.run us).forest.scope k).decls ∧ d.name = name) ∧
    ∀ d report, (Declared.start.run us).forest.insert d = .error report →
      (Declared.start.run (us ++ [.insert d])).forest = (Declared.start.run us).forest ∧
      (Declared.start.run (us ++ [.insert d])).conflicts =
        (Declared.start.run us).conflicts ++ [report] := by
  -- all invariants come from the run before, and the rest from the requests that follow
  have hw : (Declared.start.run us).forest.WellFormed :=
    (wellFormed_empty.run (s := Declared.start) us).1
  refine ⟨hw, ?_, fun k hk name d => (hw.distinct k hk).get?_iff, fun d report he => ?_⟩
  · rw [Declared.run_append]
    exact (hw.run vs).2
  · have e : Declared.start.run (us ++ [.insert d]) = (Declared.start.run us).put d :=
      Declared.run_append _ _ _
    rw [e, Declared.put, he]
    exact ⟨rfl, rfl⟩

/-- A variable without a place in a text. -/
def loose (id : NodeId) (name : String) : Decl :=
  .var ⟨⟨id, default⟩, ⟨name, ⟨id, default⟩⟩, .prim id .int⟩

/-- A node is opened plainly and then, inside itself, as a class. -/
def reopening : List Use := [.enter 7, .insert (loose 1 "x"), .enterOwned 7 ⟨"A", .cls⟩]

/-- The scope of the class refuses what it took in before it had an owner. -/
theorem wellFormed_reopening :
    (Declared.start.run reopening).forest.active = [1, 1, 0] ∧
    (Declared.start.run reopening).forest.ownerScope? "A" = some 1 ∧
    (Declared.start.run (reopening ++ [.insert (loose 2 "x")])).conflicts.length = 1 ∧
    (Declared.start.run (reopening ++ [.insert (loose 2 "x")])).forest =
      (Declared.start.run reopening).forest :=
  ⟨rfl, rfl, rfl, ((wellFormed_under_any_use reopening []).2.2.2 _ _ rfl).1⟩

end Forest

end DecafLang
