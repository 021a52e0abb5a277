import DecafLang.Proofs.Checked

/-!
# Types in the heads of declarations

**In a program whose names are in order, the types of a declaration denote what they say,** so the
checks see the declared types (`Program.Named.written`).

* The names in the types of every declaration that lies in a scope have been looked up
  (`Decl.Heads`). Classes and interfaces inside classes would be an exception: a `Flat` program
  has none.
* All declarations that names or members stand for lie in scopes.
-/

namespace DecafLang

/-! ## 1. What is looked up -/

/-- No class has a class or an interface among its members. -/
def Program.Flat (p : Program) : Prop :=
  ∀ c, Decl.cls c ∈ p.decls → ∀ d ∈ c.members, d.isType = false

instance (p : Program) : Decidable p.Flat :=
  decidable_of_iff (∀ c ∈ p.decls.filterMap Decl.cls?, ∀ d ∈ c.members, d.isType = false)
    ⟨fun h c hc => h c (Decl.mem_classes.mpr hc), fun h c hc => h c (Decl.mem_classes.mp hc)⟩

/-- The names in a type are among those that were looked up. -/
def TypeExpr.Heads (F : List Finding) (t : TypeExpr) : Prop := ∃ f, t.uses f ⊆ F

/-- The names in the types of a declaration are among those that were looked up. -/
def Decl.Heads (F : List Finding) : Decl → Prop
  | .var v => v.type.Heads F
  | .fn g => g.result.Heads F ∧ ∀ v ∈ g.formals, v.type.Heads F
  | _ => True

variable {F F' : List Finding} {f : Forest}

/-- What is looked up somewhere stays looked up when more is. -/
theorem TypeExpr.Heads.mono {t : TypeExpr} (h : t.Heads F) (hs : F ⊆ F') : t.Heads F' := by
  obtain ⟨f, hf⟩ := h
  exact ⟨f, List.Subset.trans hf hs⟩

/-- The same for all the types in the head of a declaration. -/
theorem Decl.Heads.mono {d : Decl} (h : d.Heads F) (hs : F ⊆ F') : d.Heads F' := by
  cases d with
  | var v => exact TypeExpr.Heads.mono h hs
  | fn g => exact ⟨h.1.mono hs, fun v hv => (h.2 v hv).mono hs⟩
  | iface _ => trivial
  | cls _ => trivial

/-- The type of each variable in a row is looked up. -/
theorem VarDecl.heads_of_mem {vs : List VarDecl} {v : VarDecl} (hv : v ∈ vs) :
    v.type.Heads (VarDecl.usesAll f vs) :=
  ⟨f, fun _ hx => List.mem_flatMap.mpr ⟨v, hv, hx⟩⟩

/-- The declarations in the scopes of these openings. -/
def Opening.AllHeads (F : List Finding) (os : List Opening) : Prop :=
  ∀ o ∈ os, ∀ d ∈ o.scope.decls, d.Heads F

namespace Opening.AllHeads

variable {os os' : List Opening} {o : Opening}

theorem nil : AllHeads F [] := nofun

/-- The same for all that lies in scopes. -/
theorem mono (h : AllHeads F os) (hs : F ⊆ F') : AllHeads F' os := fun o ho d hd =>
  (h o ho d hd).mono hs

/-- Scopes behind each other, with all that is declared in them. -/
theorem append (h : AllHeads F os) (h' : AllHeads F os') : AllHeads F (os ++ os') := fun o ho =>
  (List.mem_append.mp ho).elim (h o) (h' o)

theorem cons (ho : ∀ d ∈ o.scope.decls, d.Heads F) (h : AllHeads F os) : AllHeads F (o :: os) :=
  List.forall_mem_cons.mpr ⟨ho, h⟩

end Opening.AllHeads

open Opening (AllHeads)

mutual

/-- **The types of what is declared in a statement are looked up with it.** -/
theorem Stmt.heads : ∀ (s : Stmt) (f : Forest), AllHeads (s.uses f) s.openings
  | .block b, f => b.heads f
  | .ifThen _ _ s, f => (s.heads f).mono (List.subset_append_right _ _)
  | .ifElse _ _ s o, f =>
    .append ((s.heads f).mono (List.subset_append_of_subset_left _ (List.subset_append_right _ _)))
      ((o.heads f).mono (List.subset_append_right _ _))
  | .while _ _ s, f => (s.heads f).mono (List.subset_append_right _ _)
  | .for _ _ _ _ s, f => (s.heads f).mono (List.subset_append_right _ _)
  | .switch _ _ cs, f => (Case.heads_all cs f).mono (List.subset_append_right _ _)
  | .break _, _ => .nil
  | .ret _ _, _ => .nil
  | .print _ _, _ => .nil
  | .expr _, _ => .nil

/-- The variables of a block are looked up in its scope. -/
theorem Block.heads : ∀ (b : Block) (f : Forest), AllHeads (b.uses f) b.openings
  | ⟨n, ls, ss⟩, f => by
    refine .cons (fun d hd => ?_) ((Stmt.heads_all ss (f.enter n.id)).mono
      (List.subset_append_right _ _))
    -- what lies in the scope of a block are its variables
    obtain ⟨v, hv, rfl⟩ := List.mem_map.mp hd
    exact (VarDecl.heads_of_mem hv).mono (List.subset_append_left _ _)

/-- The same for statements in a row. -/
theorem Stmt.heads_all : ∀ (ss : List Stmt) (f : Forest),
    AllHeads (Stmt.usesAll ss f) (Stmt.openingsAll ss)
  | [], _ => .nil
  | s :: ss, f =>
    .append ((s.heads f).mono (List.subset_append_left _ _))
      ((Stmt.heads_all ss f).mono (List.subset_append_right _ _))

/-- The same for the arms of a switch. -/
theorem Case.heads_all : ∀ (cs : List Case) (f : Forest),
    AllHeads (Case.usesAll cs f) (Case.openingsAll cs)
  | [], _ => .nil
  | ⟨_, ss⟩ :: cs, f =>
    .append ((Stmt.heads_all ss f).mono (List.subset_append_left _ _))
      ((Case.heads_all cs f).mono (List.subset_append_right _ _))

end

/-- The result and the parameters of a function are looked up. -/
theorem FnDecl.heads (g : FnDecl) (f : Forest) : (Decl.fn g).Heads (g.uses f) := by
  refine ⟨⟨f, List.subset_append_of_subset_left _ (List.subset_append_left _ _)⟩, fun v hv => ?_⟩
  exact (VarDecl.heads_of_mem hv).mono
    (List.subset_append_of_subset_left _ (List.subset_append_right _ _))

/-- **So is what is declared inside the function.** -/
theorem FnDecl.heads_inside (g : FnDecl) (f : Forest) : AllHeads (g.uses f) g.openings := by
  refine .cons (fun d hd => ?_) ?_
  -- the scope of the function holds its parameters
  · obtain ⟨v, hv, rfl⟩ := List.mem_map.mp hd
    exact (g.heads f).2 v hv
  -- and the scopes inside are those of the body
  · have hsub : Block.usesOpt g.body (f.enterFn g) ⊆ g.uses f := List.subset_append_right _ _
    unfold Block.openingsOpt
    unfold Block.usesOpt at hsub
    cases hb : g.body with
    | none => exact .nil
    | some b =>
      rw [hb] at hsub
      exact (b.heads _).mono hsub

/-- A type among the members says nothing by its head. -/
theorem Decl.heads_type {d : Decl} (hd : d.isType = true) : d.Heads F := by
  cases d with
  | var _ => cases hd
  | fn _ => cases hd
  | iface _ => trivial
  | cls _ => trivial

/-- A member that is no type is looked up with its class. -/
theorem Decl.heads_member {d : Decl} (hd : d.isType = false) (f : Forest) :
    d.Heads (d.usesAsMember f) ∧ AllHeads (d.usesAsMember f) d.openings := by
  cases d with
  | var v => exact ⟨⟨f, List.Subset.refl _⟩, .nil⟩
  | fn g => exact ⟨g.heads f, g.heads_inside f⟩
  | iface _ => cases hd
  | cls _ => cases hd

/-- So are members in a row. -/
theorem Decl.heads_members {ds : List Decl} (hd : ∀ d ∈ ds, d.isType = false) (f : Forest) :
    (∀ d ∈ ds, d.Heads (ds.flatMap (Decl.usesAsMember f))) ∧
      AllHeads (ds.flatMap (Decl.usesAsMember f)) (Decl.openingsAll ds) := by
  induction ds with
  | nil => exact ⟨nofun, .nil⟩
  | cons d ds ih =>
    obtain ⟨h₁, h₂⟩ := ih fun x hx => hd x (List.mem_cons_of_mem _ hx)
    obtain ⟨h₃, h₄⟩ := Decl.heads_member (hd d List.mem_cons_self) f
    have hl : d.usesAsMember f ⊆ (d :: ds).flatMap (Decl.usesAsMember f) :=
      List.subset_append_left _ _
    have hr : ds.flatMap (Decl.usesAsMember f) ⊆ (d :: ds).flatMap (Decl.usesAsMember f) :=
      List.subset_append_right _ _
    exact ⟨List.forall_mem_cons.mpr ⟨h₃.mono hl, fun x hx => (h₁ x hx).mono hr⟩,
      .append (h₄.mono hl) (h₂.mono hr)⟩

/-- **The types of what is declared in a class are looked up,** if no type is declared there. -/
theorem ClassDecl.heads {c : ClassDecl} (hc : ∀ d ∈ c.members, d.isType = false) (f : Forest) :
    AllHeads (c.uses f) c.openings := by
  obtain ⟨h₁, h₂⟩ := Decl.heads_members hc (f.enterClass c)
  have hs : c.members.flatMap (Decl.usesAsMember (f.enterClass c)) ⊆ c.uses f :=
    List.subset_append_right _ _
  rw [c.openings_eq]
  exact .cons (fun d hd => (h₁ d hd).mono hs) (h₂.mono hs)

/-- The methods of an interface are looked up with it. -/
theorem IfaceDecl.heads (i : IfaceDecl) (f : Forest) : AllHeads (i.uses f) i.openings := by
  refine .cons (fun d hd => ?_) fun o ho => ?_
  · obtain ⟨g, hg, rfl⟩ := List.mem_map.mp hd
    exact (g.heads _).mono fun x hx => List.mem_flatMap.mpr ⟨g, hg, hx⟩
  -- a scope inside an interface is that of one of its methods
  · obtain ⟨g, hg, ho⟩ := List.mem_flatMap.mp ho
    exact fun d hd => (g.heads_inside _ o ho d hd).mono
      fun x hx => List.mem_flatMap.mpr ⟨g, hg, hx⟩

/-- A scope of declarations in a row is the scope of one of them. -/
theorem Decl.mem_openings {o : Opening} : ∀ {ds : List Decl}, o ∈ Decl.openingsAll ds →
    ∃ d ∈ ds, o ∈ d.openings
  | d :: _, h => by
    rcases List.mem_append.mp h with h | h
    · exact ⟨d, List.mem_cons_self, h⟩
    · obtain ⟨d', hd, ho⟩ := mem_openings h
      exact ⟨d', List.mem_cons_of_mem _ hd, ho⟩

namespace Program

variable {p : Program}

/-- What a declaration at the top level says about types is looked up, and so is what the scopes in
it say. -/
theorem Flat.heads (h : p.Flat) {d : Decl} (hd : d ∈ p.decls) (f : Forest) :
    d.Heads (d.uses f) ∧ AllHeads (d.uses f) d.openings := by
  cases d with
  | var v => exact ⟨⟨f, List.Subset.refl _⟩, .nil⟩
  | fn g =>
    exact ⟨(g.heads f).mono (List.subset_append_left _ _),
      (g.heads_inside f).mono (List.subset_append_left _ _)⟩
  | iface i => exact ⟨trivial, i.heads f⟩
  | cls c => exact ⟨trivial, ClassDecl.heads (h c hd) f⟩

end Program

/-! ## 2. What is written -/

/-- The types of a declaration denote what they say. -/
def Decl.Written (a : Notes) : Decl → Prop
  | .var v => a.denote v.type = v.type.ty
  | .fn g => a.denote g.result = g.result.ty ∧ ∀ v ∈ g.formals, a.denote v.type = v.type.ty
  | _ => True

/-- A type that is looked up, and whose name is settled, denotes what it says. -/
theorem TypeExpr.Heads.denote_eq {a : Notes} {t : TypeExpr} (h : t.Heads F)
    (hs : ∀ x ∈ F, x.Settled a) : a.denote t = t.ty := by
  obtain ⟨f, hf⟩ := h
  exact TypeExpr.denote_eq fun x hx => hs x (hf hx)

/-- **So does every type of a declaration.** -/
theorem Decl.Heads.written {a : Notes} {d : Decl} (h : d.Heads F) (hs : ∀ x ∈ F, x.Settled a) :
    d.Written a := by
  cases d with
  | var v => exact TypeExpr.Heads.denote_eq h hs
  | fn g => exact ⟨h.1.denote_eq hs, fun v hv => (h.2 v hv).denote_eq hs⟩
  | iface _ => trivial
  | cls _ => trivial

/-- Every declaration that lies in a scope has its types as written. -/
def Forest.Written (f : Forest) (a : Notes) : Prop := ∀ k, ∀ d ∈ (f.scope k).decls, d.Written a

/-- What a name stands for lies in a scope. -/
theorem Forest.Written.lookup? {a : Notes} (h : f.Written a) {name : String} {d : Decl}
    (hd : f.lookup? name = some d) : d.Written a :=
  (show f.Holds (Decl.Written a) from h).lookup? hd

/-- A member of a class or interface lies in a scope, too. -/
theorem Forest.Written.member? {a : Notes} (h : f.Written a) {owner name : String} {d : Decl}
    (hd : f.member? owner name = some d) : d.Written a :=
  (show f.Holds (Decl.Written a) from h).member? hd

namespace Program.Named

variable {p : Program}

/-- The scopes of a program are those of its openings, and the global one. -/
theorem mem_scope (h : p.Named) {k : ScopeId} {d : Decl} (hd : d ∈ (p.scopes.scope k).decls) :
    d ∈ p.decls ∨ ∃ o ∈ p.openings, d ∈ o.scope.decls := by
  -- what a scope holds is read off the list of scopes that the declarations leave
  have e : (p.scopes.scope k).decls = (p.scopes.bares.getD k default).decls :=
    (congrArg Scope.decls (p.scopes.scope_bare k) :)
  rw [e, h.opened.bares_eq, List.getD_eq_getElem?_getD] at hd
  cases k with
  -- the first scope is the global one
  | zero => exact .inl hd
  | succ k =>
    cases ho : p.openings[k]? with
    | none =>
      -- behind the last opening there is no scope, and so no declaration
      have hn : (Forest.empty.bares.modify 0 (·.addAll p.decls)
          ++ p.openings.map Opening.scope)[k + 1]? = none := by
        show (p.openings.map Opening.scope)[k]? = none
        rw [List.getElem?_map, ho]
        rfl
      rw [show Forest.empty.current = 0 from rfl, hn] at hd
      cases hd
    | some o =>
      have hs : (Forest.empty.bares.modify 0 (·.addAll p.decls)
          ++ p.openings.map Opening.scope)[k + 1]? = some o.scope := by
        show (p.openings.map Opening.scope)[k]? = some o.scope
        rw [List.getElem?_map, ho]
        rfl
      rw [show Forest.empty.current = 0 from rfl, hs] at hd
      exact .inr ⟨o, List.mem_of_getElem? ho, hd⟩

/-- **The types of all declarations in scopes denote what they say,** before the types of the
expressions are known and afterwards. -/
theorem written (h : p.Named) (hf : p.Flat) :
    p.scopes.Written p.analyze.resolved.notes ∧ p.scopes.Written p.analyze.notes := by
  have heads : ∀ k, ∀ d ∈ (p.scopes.scope k).decls, d.Heads (p.findings p.scopes) := by
    intro k d hd
    have hsub : ∀ x ∈ p.decls, x.uses p.scopes ⊆ p.findings p.scopes := fun x hx y hy =>
      List.mem_flatMap.mpr ⟨x, hx, hy⟩
    rcases h.mem_scope hd with hd | ⟨o, ho, hd⟩
    · exact (hf.heads hd p.scopes).1.mono (hsub d hd)
    · obtain ⟨x, hx, ho⟩ := Decl.mem_openings ho
      exact ((hf.heads hx p.scopes).2 o ho d hd).mono (hsub x hx)
  exact ⟨fun k d hd => (heads k d hd).written fun x hx => (h.settled x hx).1,
    fun k d hd => (heads k d hd).written fun x hx => (h.settled x hx).2⟩

end Program.Named

end DecafLang
