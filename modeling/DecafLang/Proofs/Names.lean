import DecafLang.Proofs.Numbers

/-!
# What names stand for

What the checks know of the names of a program, once its declarations are made.

* Scopes that are there are found again: `Forest.Has`, or `Forest.Finds` if it does not matter what
  lies in them. **A visit of scopes that are there changes nothing** (`Program.visit_eq`).
* What a name stands for lies in an open scope, or in the scope of a class or an interface that an
  open one inherits from (`Forest.lookup?_cases`).
* A finding is `Settled` if the notes have it, and a report is `Kept`. So the notes of a clean
  program agree with every look-up that was made.
-/

namespace DecafLang

namespace Forest

/-! ## 1. Scopes that are there -/

/-- The forest with these scopes open above the global one. -/
def withOpen (f : Forest) (ks : List ScopeId) : Forest := { f with inner := ks }

/-- The scope of an opening is there. -/
def Has (f : Forest) (o : Opening) (k : ScopeId) : Prop :=
  f.ofNode.get? o.node = some k ∧ (f.scope k).bare = o.scope

/-- The scopes of all openings are there. -/
def HasAll (f : Forest) (os : List Opening) : Prop := ∀ o ∈ os, ∃ k, f.Has o k

/-- The node of an opening has a scope, with an owner if there is to be one. -/
def Finds (f : Forest) (o : Opening) : Prop :=
  ∃ k, f.ofNode.get? o.node = some k ∧
    (o.scope.owner.isSome = true → (f.scope k).owner.isSome = true)

/-- The nodes of all openings have scopes. -/
def FindsAll (f : Forest) (os : List Opening) : Prop := ∀ o ∈ os, f.Finds o

section

variable {f f' : Forest} {o : Opening} {os os' : List Opening} {ds : List Decl} {k : ScopeId}

/-- A forest has scopes in a row if it has both parts. -/
theorem hasAll_append : f.HasAll (os ++ os') ↔ f.HasAll os ∧ f.HasAll os' := by
  simp only [HasAll, List.mem_append, or_imp, forall_and]

theorem hasAll_cons : f.HasAll (o :: os) ↔ (∃ k, f.Has o k) ∧ f.HasAll os := by
  simp only [HasAll, List.mem_cons, or_imp, forall_and, forall_eq]

/-- A node that has its scope gets no other. -/
theorem grow_of_get? {n : NodeId} (h : f.ofNode.get? n = some k) : f.grow n = f := by
  unfold grow
  rw [h]

/-- The scope of a node is the one that is noted. -/
theorem slotOf_of_get? {n : NodeId} (h : f.ofNode.get? n = some k) : f.slotOf n = k := by
  unfold slotOf
  rw [h]
  rfl

/-- A scope that is there is opened, and that is all. -/
theorem Has.enter (h : f.Has o k) : f.enter o.node = f.withOpen (k :: f.inner) := by
  unfold Forest.enter
  rw [grow_of_get? h.1, slotOf_of_get? h.1]
  rfl

/-- To enter a scope takes no scope away. -/
theorem HasAll.enter {os : List Opening} (ha : f.HasAll os) (h : f.Has o k) :
    (f.enter o.node).HasAll os := by
  rw [h.enter]
  exact ha

/-- **To enter a scope that is there and owned changes nothing but which scopes are open.** -/
theorem Has.enterOwned (h : f.Has o k) {w w' : Owner} (ho : o.scope.owner = some w') :
    f.enterOwned o.node w = f.withOpen (k :: f.inner) := by
  -- the scope has its owner already, so the claim changes nothing
  have e : (f.scope k).owner = some w' := (congrArg Scope.owner h.2).trans ho
  unfold Forest.enterOwned claim
  rw [grow_of_get? h.1, slotOf_of_get? h.1, e]
  rfl

/-- A scope that is there is found. -/
theorem Has.finds (h : f.Has o k) : f.Finds o :=
  ⟨k, h.1, fun ho => (congrArg (fun s => s.owner.isSome) h.2).trans ho⟩

/-- The same for scopes in a row. -/
theorem HasAll.finds (h : f.HasAll os) : f.FindsAll os := by
  intro o ho
  obtain ⟨k, hk⟩ := h o ho
  exact hk.finds

/-- Scopes that hold what they take in are found for what they are to hold. -/
theorem HasAll.finds_kept (h : f.HasAll (os.map Opening.kept)) : f.FindsAll os := fun o ho =>
  h.finds o.kept (List.mem_map_of_mem ho)

theorem findsAll_append : f.FindsAll (os ++ os') ↔ f.FindsAll os ∧ f.FindsAll os' := by
  simp only [FindsAll, List.mem_append, or_imp, forall_and]

theorem findsAll_cons : f.FindsAll (o :: os) ↔ f.Finds o ∧ f.FindsAll os := List.forall_mem_cons

/-- A scope that is found is opened, and that is all. -/
theorem Finds.enter (h : f.Finds o) : ∃ k, f.enter o.node = f.withOpen (k :: f.inner) := by
  obtain ⟨k, hk, -⟩ := h
  refine ⟨k, ?_⟩
  unfold Forest.enter
  rw [grow_of_get? hk, slotOf_of_get? hk]
  rfl

/-- An owned scope is entered like any other, as the claim is refused. -/
theorem Finds.enterOwned (h : f.Finds o) (ho : o.scope.owner.isSome = true) (w : Owner) :
    ∃ k, f.enterOwned o.node w = f.withOpen (k :: f.inner) := by
  obtain ⟨k, hk, hs⟩ := h
  obtain ⟨w', e⟩ := Option.isSome_iff_exists.mp (hs ho)
  refine ⟨k, ?_⟩
  unfold Forest.enterOwned claim
  rw [grow_of_get? hk, slotOf_of_get? hk, e]
  rfl

/-- The scope holds what the opening says. -/
theorem Has.decls_eq (h : f.Has o k) : (f.scope k).decls = o.scope.decls :=
  (congrArg Scope.decls h.2 :)

theorem Has.owner_eq (h : f.Has o k) : (f.scope k).owner = o.scope.owner :=
  (congrArg Scope.owner h.2 :)

theorem Has.parent_eq (h : f.Has o k) : (f.scope k).parent = o.scope.parent :=
  (congrArg Scope.parent h.2 :)

/-- The scopes that were opened are there, each under its number. -/
theorem Opened.has (h : Forest.empty.Opened f ds os) (hk : (o, k) ∈ os.zipIdx 1) : f.Has o k := by
  constructor
  · refine Table.find_of_mem f.ofNode.distinct ?_
    rw [h.ofNode_eq]
    exact List.mem_append_right _ (List.mem_map.mpr ⟨(o, k), hk, rfl⟩)
  · obtain ⟨hle, hi⟩ := List.mem_zipIdx_iff_le_and_getElem?_sub.mp hk
    rw [scope_bare, h.bares_eq, List.getD_eq_getElem?_getD, List.getElem?_append_right hle,
      List.getElem?_map]
    have e : os[k - (Forest.empty.bares.modify 0 (·.addAll ds)).length]? = some o := hi
    rw [show Forest.empty.current = 0 from rfl, e]
    rfl

/-- **Every opening has its scope,** under the number of its place in the row. -/
theorem Opened.hasAll (h : Forest.empty.Opened f ds os) : f.HasAll os := by
  intro o ho
  obtain ⟨i, hi, e⟩ := List.getElem_of_mem ho
  refine ⟨i + 1, h.has (List.mem_zipIdx_iff_le_and_getElem?_sub.mpr ⟨Nat.le_add_left _ _, ?_⟩)⟩
  rw [Nat.add_sub_cancel, List.getElem?_eq_getElem hi, e]

/-- The global scope holds what is declared at the top level. -/
theorem Opened.global (h : Forest.empty.Opened f ds os) :
    (f.scope globalId).bare = .holding none ds := by
  rw [scope_bare, h.bares_eq]
  rfl

end

end Forest

/-! ## 2. Visits -/


mutual

/-- **A visit of a statement changes nothing if its scopes are found.** -/
theorem Stmt.visit_eq : ∀ (s : Stmt) {f : Forest}, f.FindsAll s.openings → s.visit f = f
  | .block b, _, h => b.visit_eq h
  | .ifThen _ _ s, _, h => s.visit_eq h
  | .ifElse _ _ s o, f, h => by
    obtain ⟨hs, ho⟩ := Forest.findsAll_append.mp h
    -- the first branch leaves the forest as it is, so the second is visited in the same one
    show o.visit (s.visit f) = f
    rw [s.visit_eq hs, o.visit_eq ho]
  | .while _ _ s, _, h => s.visit_eq h
  | .for _ _ _ _ s, _, h => s.visit_eq h
  | .switch _ _ cs, _, h => Case.visit_all_eq cs h
  | .break _, _, _ => rfl
  | .ret _ _, _, _ => rfl
  | .print _ _, _, _ => rfl
  | .expr _, _, _ => rfl

/-- A visit of a block enters its scope and leaves it again. -/
theorem Block.visit_eq : ∀ (b : Block) {f : Forest}, f.FindsAll b.openings → b.visit f = f
  | ⟨n, ls, ss⟩, f, h => by
    obtain ⟨hk, hs⟩ := Forest.findsAll_cons.mp h
    obtain ⟨k, e⟩ := hk.enter
    show (Stmt.visitAll ss (f.enter n.id)).exit = f
    -- inside, the same scopes are found
    rw [show f.enter n.id = _ from e,
      Stmt.visit_all_eq ss (f := f.withOpen (k :: f.inner)) hs]
    rfl

theorem Case.visit_eq : ∀ (c : Case) {f : Forest}, f.FindsAll c.openings → c.visit f = f
  | ⟨_, ss⟩, _, h => Stmt.visit_all_eq ss h

/-- The same for statements in a row. -/
theorem Stmt.visit_all_eq : ∀ (ss : List Stmt) {f : Forest}, f.FindsAll (Stmt.openingsAll ss) →
    Stmt.visitAll ss f = f
  | [], _, _ => rfl
  | s :: r, f, h => by
    obtain ⟨hs, hr⟩ := Forest.findsAll_append.mp h
    show Stmt.visitAll r (s.visit f) = f
    rw [s.visit_eq hs, Stmt.visit_all_eq r hr]

theorem Case.visit_all_eq : ∀ (cs : List Case) {f : Forest}, f.FindsAll (Case.openingsAll cs) →
    Case.visitAll cs f = f
  | [], _, _ => rfl
  | c :: r, f, h => by
    obtain ⟨hc, hr⟩ := Forest.findsAll_append.mp h
    show Case.visitAll r (c.visit f) = f
    rw [c.visit_eq hc, Case.visit_all_eq r hr]

end

section

variable {f : Forest}

/-- A visit of a function enters its scope and leaves it again. -/
theorem FnDecl.visit_eq (g : FnDecl) (h : f.FindsAll g.openings) : g.visit f = f := by
  obtain ⟨hk, hb⟩ := Forest.findsAll_cons.mp h
  obtain ⟨k, e⟩ := hk.enterOwned rfl g.owner
  have e : f.enterFn g = f.withOpen (k :: f.inner) := e
  unfold FnDecl.visit
  rw [e]
  cases hg : g.body with
  | none => rfl
  | some b =>
    rw [hg] at hb
    show (b.visit (f.withOpen (k :: f.inner))).exit = f
    rw [b.visit_eq (f := f.withOpen (k :: f.inner)) hb]
    rfl

/-- The same for functions in a row. -/
theorem FnDecl.visit_all_eq {gs : List FnDecl} (h : ∀ g ∈ gs, f.FindsAll g.openings) :
    FnDecl.visitAll gs f = f := by
  induction gs with
  | nil => rfl
  | cons g gs ih =>
    show FnDecl.visitAll gs (g.visit f) = f
    rw [g.visit_eq (h g List.mem_cons_self)]
    exact ih fun g' hg => h g' (List.mem_cons_of_mem _ hg)

/-- The scopes of one declaration are among those of all. -/
theorem Decl.openings_sublist {d : Decl} {ds : List Decl} (hd : d ∈ ds) :
    d.openings.Sublist (Decl.openingsAll ds) := by
  induction ds with
  | nil => cases hd
  | cons x r ih =>
    rcases List.mem_cons.mp hd with rfl | hd
    · exact List.sublist_append_left _ _
    · exact (ih hd).trans (List.sublist_append_right _ _)

theorem ClassDecl.openings_eq (c : ClassDecl) :
    c.openings = ⟨c.node.id, c.heading.addAll c.members⟩ :: Decl.openingsAll c.members := by
  cases c
  rfl

/-- The scopes of the methods are among those of the class. -/
theorem ClassDecl.methods_findsAll {c : ClassDecl} (h : f.FindsAll c.openings) :
    ∀ g ∈ c.methods, f.FindsAll g.openings := by
  intro g hg o ho
  obtain ⟨d, hd, e⟩ := List.mem_filterMap.mp hg
  obtain rfl : d = .fn g := by
    cases d <;> simp_all [Decl.fn?]
  refine h o ?_
  rw [c.openings_eq]
  exact List.mem_cons_of_mem _ ((Decl.openings_sublist hd).subset ho)

/-- **The scope of a class is there to be entered.** -/
theorem ClassDecl.enter_eq {c : ClassDecl} (h : f.HasAll c.openings) :
    ∃ k, f.Has ⟨c.node.id, c.heading.addAll c.members⟩ k ∧
      f.enterClass c = f.withOpen (k :: f.inner) := by
  rw [c.openings_eq] at h
  obtain ⟨⟨k, hk⟩, -⟩ := Forest.hasAll_cons.mp h
  exact ⟨k, hk, hk.enterOwned rfl⟩

/-- The scope of a class is found and opened. -/
theorem ClassDecl.enter_found {c : ClassDecl} (h : f.FindsAll c.openings) :
    ∃ k, f.enterClass c = f.withOpen (k :: f.inner) := by
  rw [c.openings_eq] at h
  exact (Forest.findsAll_cons.mp h).1.enterOwned rfl c.owner

theorem ClassDecl.visit_scope_eq {c : ClassDecl} (h : f.FindsAll c.openings) :
    c.visitScope f = f := by
  obtain ⟨k, e⟩ := c.enter_found h
  unfold ClassDecl.visitScope
  rw [e]
  rfl

/-- A visit of a class goes through its methods. -/
theorem ClassDecl.visit_eq {c : ClassDecl} (h : f.FindsAll c.openings) : c.visit f = f := by
  obtain ⟨k, e⟩ := c.enter_found h
  unfold ClassDecl.visit
  rw [e, FnDecl.visit_all_eq (f := f.withOpen (k :: f.inner)) (c.methods_findsAll h)]
  rfl

/-- So does a visit of an interface. -/
theorem IfaceDecl.visit_eq {i : IfaceDecl} (h : f.FindsAll i.openings) : i.visit f = f := by
  obtain ⟨hk, hm⟩ := Forest.findsAll_cons.mp h
  obtain ⟨k, e⟩ := hk.enterOwned rfl i.owner
  have e : f.enterIface i = f.withOpen (k :: f.inner) := e
  unfold IfaceDecl.visit
  rw [e, FnDecl.visit_all_eq (f := f.withOpen (k :: f.inner))
    fun g hg o ho => hm o (List.mem_flatMap.mpr ⟨g, hg, ho⟩)]
  rfl

/-- A walk over declarations that gives the forest back at each of them gives it back. -/
theorem Forest.foldl_eq {step : Forest → Decl → Forest} {ds : List Decl}
    (h : ∀ d ∈ ds, step f d = f) : ds.foldl step f = f := by
  induction ds with
  | nil => rfl
  | cons d ds ih =>
    rw [List.foldl_cons, h d List.mem_cons_self]
    exact ih fun x hx => h x (List.mem_cons_of_mem _ hx)

namespace Program

variable {p : Program}

theorem openings_of_mem {d : Decl} (h : f.HasAll p.openings) (hd : d ∈ p.decls) :
    f.HasAll d.openings := fun o ho => h o ((Decl.openings_sublist hd).subset ho)

theorem found_of_mem {d : Decl} (h : f.FindsAll p.openings) (hd : d ∈ p.decls) :
    f.FindsAll d.openings := fun o ho => h o ((Decl.openings_sublist hd).subset ho)

/-- **A visit of the names changes nothing in the scopes of the declarations.** -/
theorem visit_eq (h : f.FindsAll p.openings) (hi : f.inner = []) : p.visit f = f := by
  -- no scope is open, so nothing has to be closed first
  have e : f.reset = f := by rw [Forest.reset, ← hi]
  unfold Program.visit
  rw [e]
  refine Forest.foldl_eq fun d hd => ?_
  have hd := found_of_mem h hd
  cases d with
  | var v => rfl
  | fn g => exact g.visit_eq hd
  | iface i => exact i.visit_eq hd
  | cls c => exact c.visit_eq hd

/-- Neither does a visit of the bodies. -/
theorem visit_bodies_eq (h : f.FindsAll p.openings) (hi : f.inner = []) : p.visitBodies f = f := by
  have e : f.reset = f := by rw [Forest.reset, ← hi]
  unfold Program.visitBodies
  rw [e]
  refine Forest.foldl_eq fun d hd => ?_
  have hd := found_of_mem h hd
  cases d with
  | var v => rfl
  | fn g => exact g.visit_eq hd
  | iface i => rfl
  | cls c => exact c.visit_eq hd

/-- Nor does one of the classes. -/
theorem visit_classes_eq (h : f.FindsAll p.openings) (hi : f.inner = []) :
    p.visitClasses f = f := by
  have e : f.reset = f := by rw [Forest.reset, ← hi]
  unfold Program.visitClasses
  rw [e]
  refine Forest.foldl_eq fun d hd => ?_
  have hd := found_of_mem h hd
  cases d with
  | var v => rfl
  | fn g => rfl
  | iface i => rfl
  | cls c => exact c.visit_scope_eq hd

end Program

end

/-! ## 3. Look-ups -/

/-- Of things with keys of their own, each is found by its key. -/
theorem find?_key {α κ : Type} [DecidableEq κ] {key : α → κ} {l : List α} {x : α}
    (h : (l.map key).Nodup) (hx : x ∈ l) : l.find? (fun y => key y == key x) = some x := by
  cases hf : l.find? (fun y => key y == key x) with
  | none => exact absurd (beq_self_eq_true _) (List.find?_eq_none.mp hf x hx)
  | some y =>
    have hk : key y = key x := by simpa using List.find?_some hf
    rw [List.inj_on_of_nodup_map h (List.mem_of_find?_eq_some hf) hx hk]

/-- Whether the scope of an opening may be registered under a name. -/
def Opening.claims (o : Opening) (name : String) : Bool :=
  match o.scope.owner with
  | some w => w.kind != .fn && w.name == name
  | none => false

namespace Forest

variable {f : Forest} {ds : List Decl} {os : List Opening} {name : String} {d : Decl}

/-- A scope is registered under a name if none was before. -/
theorem get?_register (t : Table String ScopeId) (o : Opening × ScopeId) (name : String) :
    (register t o).get? name = (t.get? name).or (if o.1.claims name then some o.2 else none) := by
  unfold register Opening.claims
  cases o.1.scope.owner with
  | none => simp
  | some w =>
    -- functions are not registered
    by_cases hk : w.kind = .fn
    · simp [hk]
    · by_cases hn : w.name = name
      · subst hn
        cases h : t.get? w.name <;> simp [hk, Table.get?_insertNew, h]
      · simp [hk, hn, Table.get?_insertNew]

/-- **A name is registered for the first scope that claims it.** -/
theorem get?_registerAll (t : Table String ScopeId) (l : List (Opening × ScopeId)) (name : String) :
    (l.foldl register t).get? name
      = (t.get? name).or ((l.find? fun o => o.1.claims name).map Prod.snd) := by
  induction l generalizing t with
  | nil => simp
  | cons o l ih =>
    rw [List.foldl_cons, ih, get?_register, List.find?_cons]
    cases h : o.1.claims name <;> simp

/-- **Under a name the first scope in the row that claims it is registered.** -/
theorem Opened.ownerScope?_eq (h : Forest.empty.Opened f ds os) (name : String) :
    f.ownerScope? name = ((os.zipIdx 1).find? fun o => o.1.claims name).map Prod.snd := by
  unfold ownerScope?
  rw [h.owners_eq, get?_registerAll]
  rfl

theorem Opened.of_ownerScope? (h : Forest.empty.Opened f ds os) {k : ScopeId}
    (hk : f.ownerScope? name = some k) :
    ∃ o, (o, k) ∈ os.zipIdx 1 ∧ o.claims name = true := by
  rw [h.ownerScope?_eq] at hk
  obtain ⟨⟨o, j⟩, hf, rfl⟩ := Option.map_eq_some_iff.mp hk
  have hc := List.find?_some hf
  exact ⟨o, List.mem_of_find?_eq_some hf, hc⟩

/-- A scope is registered under the number that its node has. -/
theorem Opened.ownerScope?_slot (h : Forest.empty.Opened f ds os) (name : String) :
    f.ownerScope? name = (os.find? (·.claims name)).map fun o => f.slotOf o.node := by
  have e : os.find? (·.claims name) =
      ((os.zipIdx 1).find? fun o => o.1.claims name).map Prod.fst := by
    conv_lhs => rw [← List.zipIdx_map_fst 1 os, List.find?_map]
    rfl
  rw [h.ownerScope?_eq, e, Option.map_map]
  cases hf : (os.zipIdx 1).find? fun o => o.1.claims name with
  | none => rfl
  | some o =>
    have hh := h.has (List.mem_of_find?_eq_some hf)
    exact congrArg some (slotOf_of_get? hh.1).symm

/-- The scopes of two nodes have two numbers. -/
theorem Opened.slotOf_inj (h : Forest.empty.Opened f ds os) {o o' : Opening} (ho : o ∈ os)
    (ho' : o' ∈ os) (e : f.slotOf o.node = f.slotOf o'.node) : o.node = o'.node := by
  -- at the slot of a node stands an opening of this node
  have at_slot : ∀ {o}, o ∈ os → ∃ u, (u, f.slotOf o.node) ∈ os.zipIdx 1 ∧ u.node = o.node := by
    intro o ho
    obtain ⟨k, hk⟩ := h.hasAll o ho
    rw [slotOf_of_get? hk.1]
    have hm : (o.node, k) ∈ f.ofNode.entries := Table.mem_of_find hk.1
    rw [h.ofNode_eq] at hm
    obtain ⟨⟨u, j⟩, hu, e⟩ := List.mem_map.mp hm
    obtain ⟨en, ek⟩ := Prod.mk.inj e
    exact ⟨u, ek ▸ hu, en⟩
  obtain ⟨u, hu, eu⟩ := at_slot ho
  obtain ⟨u', hu', eu'⟩ := at_slot ho'
  rw [← e] at hu'
  have hu := (List.mem_zipIdx_iff_le_and_getElem?_sub.mp hu).2
  have hu' := (List.mem_zipIdx_iff_le_and_getElem?_sub.mp hu').2
  have e : u = u' := Option.some.inj (hu.symm.trans hu')
  rw [← eu, ← eu', e]

/-- What a name stands for lies in an open scope, or in one that an open scope inherits from. -/
theorem lookup?_cases (h : f.lookup? name = some d) :
    ∃ k ∈ f.active, (f.scope k).get? name = some d ∨
      ∃ j ∈ f.parents k, (f.scope j).get? name = some d := by
  obtain ⟨k, hk, hd⟩ := List.exists_of_findSome?_eq_some h
  refine ⟨k, hk, ?_⟩
  rcases Option.or_eq_some_iff.mp hd with hd | ⟨-, hd⟩
  · exact .inl hd
  · exact .inr (List.exists_of_findSome?_eq_some hd)

/-- What a scope gives for a name lies in it, and has the name. -/
theorem mem_of_get? {s : Scope} (h : s.get? name = some d) : d ∈ s.decls ∧ d.name = name :=
  ⟨List.mem_of_find?_eq_some h, by simpa using List.find?_some h⟩

/-- All declarations in the scopes are like this. -/
def Holds (Q : Decl → Prop) (f : Forest) : Prop := ∀ k, ∀ d ∈ (f.scope k).decls, Q d

section

variable {Q : Decl → Prop} {owner : String}

/-- What lies above a scope holds of what is found there. -/
theorem Holds.above? (h : f.Holds Q) {k : ScopeId} (hd : f.above? k name = some d) : Q d := by
  obtain ⟨j, -, hj⟩ := List.exists_of_findSome?_eq_some hd
  exact h j d (mem_of_get? hj).1

theorem Holds.within? (h : f.Holds Q) {k : ScopeId} (hd : f.within? k name = some d) : Q d := by
  rcases Option.or_eq_some_iff.mp hd with hd | ⟨-, hd⟩
  · exact h k d (mem_of_get? hd).1
  · exact h.above? hd

/-- So is what a name stands for. -/
theorem Holds.lookup? (h : f.Holds Q) (hd : f.lookup? name = some d) : Q d := by
  obtain ⟨k, -, hk⟩ := List.exists_of_findSome?_eq_some hd
  exact h.within? hk

/-- So is a member. -/
theorem Holds.member? (h : f.Holds Q) (hd : f.member? owner name = some d) : Q d := by
  obtain ⟨k, -, hk⟩ := Option.bind_eq_some_iff.mp hd
  exact h.within? hk

/-- The same for what an interface requires. -/
theorem Holds.required? (h : f.Holds Q) (hd : f.required? name = some d) : Q d := by
  obtain ⟨i, -, hi⟩ := List.exists_of_findSome?_eq_some hd
  obtain ⟨k, -, hk⟩ := Option.bind_eq_some_iff.mp hi
  exact h k d (mem_of_get? hk).1

end

/-- A scope that is inherited from is registered, and what inherits from it has a parent. -/
theorem of_mem_parents {k j : ScopeId} (h : j ∈ f.parents k) :
    (f.scope k).parent.isSome = true ∧ ∃ name, f.ownerScope? name = some j := by
  constructor
  · unfold parents at h
    cases hr : f.size with
    | zero => rw [hr] at h; cases h
    | succ r =>
      -- the first step of the chain needs a name of a base
      rw [hr, Chain.follow] at h
      split at h
      · cases h
      · rename_i b hb
        obtain ⟨n, hn, -⟩ := Option.bind_eq_some_iff.mp hb
        rw [hn]
        rfl
  · obtain ⟨c, hc⟩ := Chain.exists_of_mem_follow h
    obtain ⟨n, -, hn⟩ := Option.bind_eq_some_iff.mp hc
    exact ⟨n, hn⟩

/-- The scope that is opened last is searched first, then the others are. -/
theorem lookup?_withOpen (f : Forest) (k : ScopeId) (ks : List ScopeId) (name : String) :
    (f.withOpen (k :: ks)).lookup? name =
      (f.within? k name).or ((f.withOpen ks).lookup? name) := by
  show List.findSome? (fun k => f.within? k name) (k :: (ks ++ [globalId])) = _
  rw [List.findSome?_cons]
  cases f.within? k name <;> rfl

/-- What a scope without a base has is all that is found in it. -/
theorem within?_of_parent {k : ScopeId} (h : (f.scope k).parent = none) (name : String) :
    f.within? k name = (f.scope k).get? name := by
  have hp : f.parents k = [] := by
    have hp : f.parent? k = none := by
      unfold parent?
      rw [h]
      rfl
    unfold parents
    cases f.size with
    | zero => rfl
    | succ r => rw [Chain.follow, hp]
  unfold within? above?
  rw [hp, List.findSome?_nil, Option.or_none]

/-- A scope without a base, opened on top of others: **it is searched first, then they are.** -/
theorem Has.lookup?_eq {n : NodeId} {w : Option Owner} {ds : List Decl} {k : ScopeId}
    {ks : List ScopeId} (h : f.Has ⟨n, .holding w ds⟩ k) (name : String) :
    (f.withOpen (k :: ks)).lookup? name =
      (ds.find? (·.name == name)).or ((f.withOpen ks).lookup? name) := by
  rw [lookup?_withOpen, within?_of_parent h.parent_eq]
  unfold Scope.get?
  rw [h.decls_eq]
  rfl

end Forest

/-! ## 4. Bindings -/

/-- A use that the notes know, with the declaration that was found for it. -/
def Finding.Settled (a : Notes) : Finding → Prop
  | .use i _ d => ∃ x, d = some x ∧ a.decl? i = some x
  | .fault _ => False

/-- A name is settled if it is looked up, fits, and is noted. -/
theorem Forest.use_settled {f : Forest} {i : Ident} {s : Sought} {a : Notes} :
    (f.use i s).Settled a ↔
      ∃ d, f.lookup? i.name = some d ∧ s.accepts d = true ∧ a.decl? i = some d := by
  unfold Forest.use Finding.Settled
  constructor
  · intro ⟨d, hd, ha⟩
    obtain ⟨hl, hs⟩ := Option.filter_eq_some_iff.mp hd
    exact ⟨d, hl, hs, ha⟩
  · intro ⟨d, hl, hs, ha⟩
    exact ⟨d, Option.filter_eq_some_iff.mpr ⟨hl, hs⟩, ha⟩

/-- No type says that it is in error. -/
theorem TypeExpr.ty_ne_error (t : TypeExpr) : t.ty ≠ .error := by
  cases t with
  | prim _ p => cases p <;> exact nofun
  | named _ _ => exact nofun
  | array _ _ => exact nofun

/-- **A written type whose names are known denotes what it says.** -/
theorem TypeExpr.denote_eq {f : Forest} {a : Notes} {t : TypeExpr}
    (h : ∀ x ∈ t.uses f, x.Settled a) : a.denote t = t.ty := by
  induction t with
  | prim _ _ => rfl
  | named n i =>
    obtain ⟨d, -, hs, ha⟩ := Forest.use_settled.mp (h _ List.mem_cons_self)
    -- what was looked up as a type is a class or an interface
    have hd : d.isType = true := by
      cases d with
      | var _ => cases hs
      | fn _ => cases hs
      | iface _ => rfl
      | cls _ => rfl
    simp only [Notes.denote, ha, hd, if_true, TypeExpr.ty]
  | array n t ih =>
    have e := ih h
    unfold Notes.denote
    rw [e]
    split
    · rename_i he
      exact absurd he t.ty_ne_error
    · rfl

/-- The notes have what the report says. -/
structure Report.Kept (a : Notes) (r : Report) : Prop where
  types : ∀ x ∈ r.types, a.types.get? x.1 = some x.2
  bindings : ∀ x ∈ r.bindings, a.bindings.get? x.1 = some x.2

/-- A report in two parts is kept if both parts are. -/
theorem Report.kept_append {a : Notes} {r s : Report} :
    (r ++ s).Kept a ↔ r.Kept a ∧ s.Kept a := by
  constructor
  · intro h
    exact ⟨⟨fun x hx => h.types x (List.mem_append_left _ hx),
        fun x hx => h.bindings x (List.mem_append_left _ hx)⟩,
      ⟨fun x hx => h.types x (List.mem_append_right _ hx),
        fun x hx => h.bindings x (List.mem_append_right _ hx)⟩⟩
  · intro ⟨hr, hs⟩
    exact ⟨fun x hx => (List.mem_append.mp hx).elim (hr.types x) (hs.types x),
      fun x hx => (List.mem_append.mp hx).elim (hr.bindings x) (hs.bindings x)⟩

/-- Nothing is reported, and the notes have the rest. -/
def Report.Clean (a : Notes) (r : Report) : Prop := r.diagnostics = [] ∧ r.Kept a

/-- It is clean if both parts are. -/
theorem Report.clean_append {a : Notes} {r s : Report} :
    (r ++ s).Clean a ↔ r.Clean a ∧ s.Clean a := by
  have e : (r ++ s).diagnostics = r.diagnostics ++ s.diagnostics := rfl
  unfold Clean
  rw [kept_append, e, List.append_eq_nil_iff]
  tauto

theorem Report.clean_ofFaults {a : Notes} {ds : List Diagnostic} :
    (ofFaults ds).Clean a ↔ ds = [] :=
  ⟨fun h => h.1, fun h => ⟨h, ⟨nofun, nofun⟩⟩⟩

/-- An expression breaks no rule if its parts break none, and it none itself. -/
theorem Verdict.clean_at {v : Verdict} {a : Notes} {n : Node} {parts : Report} :
    (v.at n parts).report.Clean a ↔ parts.Clean a ∧ v.faults = [] ∧
      a.types.get? n.id = some v.type ∧ ∀ b ∈ v.binding, a.bindings.get? b.1.id = some b.2 := by
  have e : (v.at n parts).report =
      parts ++ ⟨[(n.id, v.type)], (v.binding.map fun b => (b.1.id, b.2)).toList, v.faults⟩ := rfl
  rw [e, Report.clean_append]
  refine and_congr Iff.rfl ⟨fun ⟨hf, hk⟩ => ⟨hf, hk.types _ List.mem_cons_self, fun b hb => ?_⟩,
    fun ⟨hf, ht, hb⟩ => ⟨hf, ⟨fun x hx => ?_, fun x hx => ?_⟩⟩⟩
  · refine hk.bindings (b.1.id, b.2) ?_
    rw [Option.mem_def.mp hb]
    exact List.mem_cons_self
  · obtain rfl := List.mem_singleton.mp hx
    exact ht
  · obtain ⟨b, hv, rfl⟩ := Option.map_eq_some_iff.mp (Option.mem_toList.mp hx)
    exact hb b hv

/-! ## 5. The names of a program -/

namespace Program

/-- The scopes of a program. -/
def scopes (p : Program) : Forest := p.analyze.declared.forest

namespace Numbered

variable {p : Program}

/-- The scopes of a program hold what they take in. -/
theorem opened_kept (h : p.Numbered) : Forest.empty.Opened p.scopes (Decl.admitted [] p.decls)
    (p.openings.map Opening.kept) := h.declare_kept.1

theorem hasAll_kept (h : p.Numbered) : p.scopes.HasAll (p.openings.map Opening.kept) :=
  h.opened_kept.hasAll

theorem inner_eq (h : p.Numbered) : p.scopes.inner = [] := h.opened_kept.inner_eq

/-- At the top level, a name stands for the first declaration of it. -/
theorem global_get? (h : p.Numbered) (name : String) :
    (p.scopes.scope Forest.globalId).get? name = p.decls.find? (·.name == name) := by
  have e : (p.scopes.scope Forest.globalId).decls = Decl.admitted [] p.decls :=
    (congrArg Scope.decls h.opened_kept.global :)
  unfold Scope.get?
  rw [e]
  exact Decl.find?_admitted [] p.decls name

/-- **When the names are looked up the scopes are those of the declarations.** -/
theorem resolved_forest (h : p.Numbered) : p.analyze.resolved.forest = p.scopes :=
  visit_eq h.hasAll_kept.finds_kept h.inner_eq

theorem findings_eq (h : p.Numbered) : p.analyze.resolved.findings = p.findings p.scopes :=
  congrArg p.findings h.resolved_forest

theorem conform_forest (h : p.Numbered) : p.analyze.conformance.forest = p.scopes := by
  show p.visitClasses p.analyze.resolved.forest = _
  rw [h.resolved_forest]
  exact visit_classes_eq h.hasAll_kept.finds_kept h.inner_eq

/-- The members are checked in the scopes of the declarations. -/
theorem conformance_eq (h : p.Numbered) : p.analyze.conformance.diagnostics =
    (p.decls.filterMap Decl.cls?).flatMap fun c =>
      c.faults (p.scopes.enterClass c) p.analyze.resolved.notes := by
  show (p.decls.filterMap Decl.cls?).flatMap (fun c => ClassDecl.faults
    (p.analyze.conformance.forest.enterClass c) p.analyze.resolved.notes c) = _
  rw [h.conform_forest]

theorem typed_forest (h : p.Numbered) : p.analyze.typed.forest = p.scopes := by
  show p.visitBodies p.analyze.conformance.forest = _
  rw [h.conform_forest]
  exact visit_bodies_eq h.hasAll_kept.finds_kept h.inner_eq

/-- **The types are checked in the scopes of the declarations.** -/
theorem report_eq (h : p.Numbered) : p.analyze.typed.report =
    Decl.checkAll (.ofProgram p) p.analyze.resolved.notes p.scopes p.decls := by
  show Decl.checkAll _ _ p.analyze.typed.forest _ = _
  rw [h.typed_forest]
  rfl

/-- The names that the declarations before the types bind, and those that the types bind. -/
theorem nodup_bound (h : p.Numbered) :
    (Finding.bound (p.findings p.scopes) ++
      p.analyze.typed.report.bindings.map Prod.fst).Nodup := by
  have := h.nodup_keys p.scopes p.scopes (.ofProgram p) p.analyze.resolved.notes
  rw [← h.report_eq] at this
  exact this.sublist ((Finding.bound_sublist _).append (List.sublist_append_right _ _))

theorem resolved_bindings (h : p.Numbered) : p.analyze.resolved.notes.bindings =
    Table.empty.insertAll ((p.findings p.scopes).filterMap Finding.binding?) := by
  show Table.insertAll _ (p.analyze.resolved.findings.filterMap _) = _
  rw [h.findings_eq]
  rfl

/-- What is bound in the end is what was looked up, and what the types bound. -/
theorem bindings_eq (h : p.Numbered) : p.analyze.notes.bindings = Table.empty.insertAll
    ((p.findings p.scopes).filterMap Finding.binding? ++ p.analyze.typed.report.bindings) := by
  rw [Table.insertAll_append, ← h.resolved_bindings]
  rfl

/-- **A name that was looked up is noted,** before the types are checked and after. -/
theorem decl?_of_mem (h : p.Numbered) {i : Ident} {s : Sought} {d : Decl}
    (hx : Finding.use i s (some d) ∈ p.findings p.scopes) :
    p.analyze.resolved.notes.decl? i = some d ∧ p.analyze.notes.decl? i = some d := by
  have hm : (i.id, d) ∈ (p.findings p.scopes).filterMap Finding.binding? :=
    List.mem_filterMap.mpr ⟨_, hx, rfl⟩
  have hn := h.nodup_bound
  unfold Notes.decl?
  rw [h.resolved_bindings, h.bindings_eq]
  refine ⟨Table.get?_insertAll_of_mem (List.nodup_append.mp hn).1 hm,
    Table.get?_insertAll_of_mem ?_ (List.mem_append_left _ hm)⟩
  rwa [List.map_append]

/-- Every expression gets its type once. -/
theorem nodup_typed (h : p.Numbered) : (p.analyze.typed.report.types.map Prod.fst).Nodup := by
  have hk := h.nodup_keys p.scopes p.scopes (.ofProgram p) p.analyze.resolved.notes
  rw [← h.report_eq] at hk
  exact (List.nodup_append.mp (List.nodup_append.mp hk).2.1).1

/-- **The notes have the types and the bindings that were reported.** -/
theorem kept (h : p.Numbered) : p.analyze.typed.report.Kept p.analyze.notes := by
  refine ⟨fun x hx => ?_, fun x hx => ?_⟩
  · exact Table.get?_insertAll_of_mem h.nodup_typed hx
  · exact Table.get?_insertAll_of_mem (List.nodup_append.mp h.nodup_bound).2.1 hx

end Numbered

/-! ## 6. Programs whose names are in order -/

/-- **The pieces of the program have numbers of their own, no name is taken twice in one scope, and
every used name stands for something.** -/
structure Named (p : Program) : Prop where
  numbered : p.Numbered
  conflicts : p.analyze.declared.conflicts = []
  resolved : p.analyze.resolved.diagnostics = []

namespace Named

variable {p : Program}

theorem opened (h : p.Named) : Forest.empty.Opened p.scopes p.decls p.openings :=
  h.numbered.declare_opened h.conflicts

theorem hasAll (h : p.Named) : p.scopes.HasAll p.openings := h.opened.hasAll

theorem global_decls (h : p.Named) : (p.scopes.scope Forest.globalId).decls = p.decls :=
  (congrArg Scope.decls h.opened.global :)

/-- No scope has two declarations of one name. -/
theorem tidy (h : p.Named) : p.scopes.Tidy := h.opened.tidy fun k => by
  cases k with
  | zero => exact List.nodup_nil
  | succ k => exact List.nodup_nil

/-- Declarations at the top level have names of their own. -/
theorem nodup_names (h : p.Named) : (p.decls.map Decl.name).Nodup := by
  have ht := h.tidy Forest.globalId
  rwa [h.global_decls] at ht

/-- Two declarations of one name are one. -/
theorem eq_of_name (h : p.Named) {d d' : Decl} (hd : d ∈ p.decls) (hd' : d' ∈ p.decls)
    (e : d.name = d'.name) : d = d' := List.inj_on_of_nodup_map h.nodup_names hd hd' e

/-- **Every use is settled,** before the types are known and afterwards. -/
theorem settled (h : p.Named) : ∀ x ∈ p.findings p.scopes,
    x.Settled p.analyze.resolved.notes ∧ x.Settled p.analyze.notes := by
  intro x hx
  -- a name that is not settled would have been reported
  have hd : x.diagnostic? = none := by
    cases hd : x.diagnostic? with
    | none => rfl
    | some d =>
      have hm : d ∈ p.analyze.resolved.diagnostics := by
        refine List.mem_filterMap.mpr ⟨x, ?_, hd⟩
        rwa [h.numbered.findings_eq]
      rw [h.resolved] at hm
      cases hm
  cases x with
  | fault d => cases hd
  | use i s d =>
    cases d with
    | none => cases hd
    | some d =>
      obtain ⟨h₁, h₂⟩ := h.numbered.decl?_of_mem hx
      exact ⟨⟨d, rfl, h₁⟩, ⟨d, rfl, h₂⟩⟩

end Named

end Program

end DecafLang
