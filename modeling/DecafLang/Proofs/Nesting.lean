import DecafLang.Proofs.Placement

/-!
# How scopes are nested

**The scope of a construct lies in the scope of the construct around it**
(`Program.Numbered.nested`), for the constructs of all classes, the nested ones included.

* A `Link` is a construct together with the one around it, told from the syntax alone.
* `Nests` says that a step nests the scopes that it makes like the links. A scope is made where
  the open scope is that of the construct around it, and what is made later changes nothing in
  where it lies.
-/

namespace DecafLang

/-! ## 1. Links -/

/-- A construct with a scope, and where it stands. -/
structure Link where
  node : NodeId
  /-- The construct around it, which is the program if there is none. -/
  around : Option NodeId
  /-- Whether its scope belongs to a name. -/
  owned : Bool

mutual

/-- The constructs in a statement. -/
def Stmt.links : Stmt → Option NodeId → List Link
  | .block b, q => b.links q
  | .ifThen _ _ s, q => s.links q
  | .ifElse _ _ s o, q => s.links q ++ o.links q
  | .while _ _ s, q => s.links q
  | .for _ _ _ _ s, q => s.links q
  | .switch _ _ cs, q => Case.linksAll cs q
  | .break _, _ => []
  | .ret _ _, _ => []
  | .print _ _, _ => []
  | .expr _, _ => []

/-- A block and the constructs in it. -/
def Block.links : Block → Option NodeId → List Link
  | ⟨n, _, ss⟩, q => ⟨n.id, q, false⟩ :: Stmt.linksAll ss (some n.id)

/-- The constructs in an arm. -/
def Case.links : Case → Option NodeId → List Link
  | ⟨_, ss⟩, q => Stmt.linksAll ss q

/-- The constructs in several statements. -/
def Stmt.linksAll : List Stmt → Option NodeId → List Link
  | [], _ => []
  | s :: r, q => s.links q ++ Stmt.linksAll r q

/-- The constructs in several arms. -/
def Case.linksAll : List Case → Option NodeId → List Link
  | [], _ => []
  | c :: r, q => c.links q ++ Case.linksAll r q

end

/-- The constructs in a body that may be missing. -/
def Block.linksOpt : Option Block → Option NodeId → List Link
  | none, _ => []
  | some b, q => b.links q

/-- A function and the constructs in it. -/
def FnDecl.links (g : FnDecl) (q : Option NodeId) : List Link :=
  ⟨g.id, q, true⟩ :: Block.linksOpt g.body (some g.id)

/-- An interface and the constructs in it. -/
def IfaceDecl.links (i : IfaceDecl) (q : Option NodeId) : List Link :=
  ⟨i.node.id, q, true⟩ :: i.members.flatMap fun g => g.links (some i.node.id)

mutual

/-- The constructs of a declaration. -/
def Decl.links : Decl → Option NodeId → List Link
  | .var _, _ => []
  | .fn g, q => g.links q
  | .iface i, q => i.links q
  | .cls c, q => c.links q

/-- A class and the constructs in it. -/
def ClassDecl.links : ClassDecl → Option NodeId → List Link
  | ⟨n, _, _, _, ms⟩, q => ⟨n.id, q, true⟩ :: Decl.linksAll ms (some n.id)

/-- The constructs of several declarations. -/
def Decl.linksAll : List Decl → Option NodeId → List Link
  | [], _ => []
  | d :: r, q => d.links q ++ Decl.linksAll r q

end

/-- The constructs of a program. -/
def Program.links (p : Program) : List Link := Decl.linksAll p.decls none

/-- The links of a declaration are among those of the declarations in a row. -/
theorem Decl.mem_links_all {d : Decl} {ds : List Decl} {q : Option NodeId} {l : Link} (hd : d ∈ ds)
    (hl : l ∈ d.links q) : l ∈ Decl.linksAll ds q := by
  induction ds with
  | nil => cases hd
  | cons x r ih =>
    rcases List.mem_cons.mp hd with rfl | hd
    · exact List.mem_append_left _ hl
    · exact List.mem_append_right _ (ih hd)

theorem ClassDecl.links_eq (c : ClassDecl) (q : Option NodeId) :
    c.links q = ⟨c.node.id, q, true⟩ :: Decl.linksAll c.members (some c.node.id) := by
  cases c
  rfl

/-! ## 2. Scopes in scopes -/

namespace Forest

/-- The scope of the construct around another. -/
def place? (f : Forest) : Option NodeId → Option ScopeId
  | none => some globalId
  | some n => f.scopeOf? n

/-- **A construct has a scope that lies in the scope of the construct around it.** -/
def Lodged (f : Forest) (l : Link) : Prop :=
  ∃ k j, f.scopeOf? l.node = some k ∧ f.place? l.around = some j ∧
    (f.scope k).enclosing = some j ∧ (l.owned = true → (f.scope k).owner.isSome = true)

variable {f f' : Forest} {l : Link}

/-- A place that is there stays there. -/
theorem Extends.place? (h : f.Extends f') {q : Option NodeId} {j : ScopeId}
    (hq : f.place? q = some j) : f'.place? q = some j := by
  cases q with
  | none => exact hq
  | some n => exact h.scopeOf? n j hq

/-- A scope stays where it lies. -/
theorem Lodged.extends_of (hl : f.Lodged l) (hw : f.WellFormed) (h : f.Extends f') :
    f'.Lodged l := by
  obtain ⟨k, j, hk, hj, he, ho⟩ := hl
  have hs := h.scope k (hw.opened _ k hk).2
  refine ⟨k, j, h.scopeOf? _ k hk, h.place? hj, hs.enclosing.trans he, fun hl => ?_⟩
  obtain ⟨w, hw⟩ := Option.isSome_iff_exists.mp (ho hl)
  rw [hs.owner w hw]
  rfl

/-- A new scope lies in the open one. -/
theorem enclosing_grow {n : NodeId} (hn : n ∉ f.nodes) :
    f.size < (f.grow n).size ∧ ((f.grow n).scope f.size).enclosing = some f.current := by
  have hg : f.ofNode.get? n = none := Table.find_eq_none.mpr hn
  unfold grow
  rw [hg]
  refine ⟨by simp [size], ?_⟩
  rw [scope_new (f := f) (s := .inside (some f.current)) rfl]
  rfl

end Forest

/-! ## 3. The nesting of the declarations -/

/-- **A step nests the scopes that it makes like these links,** where the open scope is that of the
construct around them. -/
structure Nests (step : Declared → Declared) (ds : List Decl) (os : List Opening)
    (links : Option NodeId → List Link) : Prop where
  declares : ∃ cs, Declares step ds os cs
  runs : ∃ us, ∀ d : Declared, step d = d.run us
  lodged : ∀ (d : Declared) q, d.forest.WellFormed → d.forest.Ready os →
    d.forest.place? q = some d.forest.current → ∀ l ∈ links q, (step d).forest.Lodged l

namespace Nests

variable {step step' : Declared → Declared} {ds ds' : List Decl} {os os' : List Opening}
  {ls ls' : Option NodeId → List Link}

/-- A step that makes no scope. -/
theorem skip : Nests (fun d => d) [] [] fun _ => [] :=
  ⟨⟨_, .skip⟩, ⟨[], fun _ => rfl⟩, fun _ _ _ _ _ => nofun⟩

/-- A declaration alone nests nothing. -/
theorem put (x : Decl) : Nests (fun d => d.put x) [x] [] fun _ => [] :=
  ⟨⟨_, .put x⟩, ⟨[.insert x], fun _ => rfl⟩, fun _ _ _ _ _ => nofun⟩

/-- Neither do variables. -/
theorem putVars (vs : List VarDecl) : Nests (fun d => d.putVars vs) (vs.map .var) [] fun _ => [] :=
  have ⟨us, e, _⟩ := (VarDecl.tally_all vs).asks
  ⟨⟨_, .putVars vs⟩, ⟨us, e⟩, fun _ _ _ _ _ => nofun⟩

/-- **One step after the other nests the links of both.** What the first one nests stays so. -/
theorem andThen (h : Nests step ds os ls) (h' : Nests step' ds' os' ls') :
    Nests (fun d => step' (step d)) (ds ++ ds') (os ++ os') fun q => ls q ++ ls' q := by
  obtain ⟨cs, hd⟩ := h.declares
  obtain ⟨cs', hd'⟩ := h'.declares
  obtain ⟨us, e⟩ := h.runs
  obtain ⟨us', e'⟩ := h'.runs
  refine ⟨⟨_, hd.andThen hd'⟩, ⟨us ++ us', fun d => ?_⟩, fun d q hw hr hq => ?_⟩
  · rw [Declared.run_append, ← e, ← e']
  · have ho := hd.opened d hr.left
    have hr' := (Forest.ready_kept.mpr hr).right ho
    obtain ⟨hw₁, hx₁⟩ := e d ▸ hw.run us
    have hx₂ := (e' (step d) ▸ (hw₁.run us').2 : (step d).forest.Extends (step' (step d)).forest)
    refine List.forall_mem_append.mpr ⟨fun l hl => ?_, ?_⟩
    · exact (h.lodged d q hw hr.left hq l hl).extends_of hw₁ hx₂
    · exact h'.lodged (step d) q hw₁ hr' (ho.current_eq ▸ hx₁.place? hq)

/-- What a step does between the opening and the closing of a scope. -/
theorem within {enter : Forest → Forest} {o : Opening} (hd : o.scope.decls = [])
    (he : ∀ f : Forest, o.node ∉ f.nodes → f.Entered (enter f) o)
    (hx : ∀ f : Forest, f.WellFormed → (f.grow o.node).Extends (enter f))
    (hr : ∃ us, ∀ d : Declared, d.withForest enter = d.run us) (h : Nests step ds os ls) :
    Nests (fun d => (step (d.withForest enter)).exit) [] (⟨o.node, o.scope.addAll ds⟩ :: os)
      fun q => ⟨o.node, q, o.scope.owner.isSome⟩ :: ls (some o.node) := by
  obtain ⟨cs, hdecl⟩ := h.declares
  obtain ⟨us, e⟩ := hr
  obtain ⟨vs, e'⟩ := h.runs
  refine ⟨⟨_, hdecl.within hd he⟩, ⟨us ++ (vs ++ [.exit]), fun d => ?_⟩, fun d q hw hready hq => ?_⟩
  · rw [Declared.run_append, Declared.run_append, ← e, ← e']
    rfl
  -- the node has no scope so far, so the new scope is its own
  · have hn : o.node ∉ d.forest.nodes := fun hm =>
      List.disjoint_of_nodup_append hready.nodup hm List.mem_cons_self
    have hin := he d.forest hn
    obtain ⟨hw₁, hx₁⟩ := (e d ▸ hw.run us : (d.withForest enter).forest.WellFormed ∧
      d.forest.Extends (d.withForest enter).forest)
    have hx₂ : (d.withForest enter).forest.Extends (step (d.withForest enter)).exit.forest :=
      (e' (d.withForest enter) ▸ (hw₁.run vs).2 : _).trans (Forest.extends_withOpen _ _)
    have hslot : (enter d.forest).scopeOf? o.node = some d.forest.size := by
      refine Table.find_of_mem (enter d.forest).ofNode.distinct ?_
      rw [hin.ofNode_eq]
      exact List.mem_append_right _ (List.mem_singleton_self _)
    obtain ⟨hlt, henc⟩ := Forest.enclosing_grow hn
    -- it is owned as the opening says, and lies in the scope that was open
    have howner : ((enter d.forest).scope d.forest.size).owner = o.scope.owner := by
      rw [← hin.current_eq]
      exact (congrArg Scope.owner hin.scope_eq :)
    have hown : (enter d.forest).Lodged ⟨o.node, q, o.scope.owner.isSome⟩ :=
      ⟨d.forest.size, d.forest.current, hslot, hx₁.place? hq,
        ((hx d.forest hw).scope _ hlt).enclosing.trans henc, fun hs => howner ▸ hs⟩
    -- what is made later only extends the forest, so this link stays, and the others lie inside
    refine List.forall_mem_cons.mpr ⟨hown.extends_of hw₁ hx₂, ?_⟩
    exact h.lodged (d.withForest enter) (some o.node) hw₁
      (hin.ready ⟨hready.current_lt, hready.nodup⟩)
      (hslot.trans (congrArg some hin.current_eq.symm))

end Nests

namespace Forest

variable {f : Forest}

/-- To enter a construct adds at most its scope. -/
theorem extends_enter (f : Forest) (n : NodeId) : (f.grow n).Extends (f.enter n) :=
  extends_withOpen _ _

/-- The same where the scope is claimed for an owner. -/
theorem WellFormed.extends_enterOwned (h : f.WellFormed) (n : NodeId) (w : Owner) :
    (f.grow n).Extends (f.enterOwned n w) :=
  ((h.grow n).claim (h.slotOf_lt n) w).2.trans (extends_withOpen _ _)

end Forest

mutual

/-- **A statement nests the scopes of its blocks.** -/
theorem Stmt.nests : ∀ s : Stmt, Nests s.declare [] s.openings s.links
  | .block b => b.nests
  | .ifThen _ _ s => s.nests
  | .ifElse _ _ s o => s.nests.andThen o.nests
  | .while _ _ s => s.nests
  | .for _ _ _ _ s => s.nests
  | .switch _ _ cs => Case.nests_all cs
  | .break _ => .skip
  | .ret _ _ => .skip
  | .print _ _ => .skip
  | .expr _ => .skip

/-- A block nests its scope in the open one, and those of its statements inside. -/
theorem Block.nests : ∀ b : Block, Nests b.declare [] b.openings b.links
  | ⟨n, ls, ss⟩ => by
    have h := ((Nests.putVars ls).andThen (Stmt.nests_all ss)).within
      (o := ⟨n.id, .holding none []⟩) rfl (fun _ => Forest.entered_enter)
      (fun f _ => f.extends_enter n.id) ⟨[.enter n.id], fun _ => rfl⟩
    -- what a block declares stays in its scope
    rw [List.append_nil] at h
    exact h

theorem Case.nests : ∀ c : Case, Nests c.declare [] c.openings c.links
  | ⟨_, ss⟩ => Stmt.nests_all ss

/-- The same for statements in a row. -/
theorem Stmt.nests_all : ∀ ss : List Stmt,
    Nests (Stmt.declareAll ss) [] (Stmt.openingsAll ss) (Stmt.linksAll ss)
  | [] => .skip
  | s :: r => s.nests.andThen (Stmt.nests_all r)

/-- The same for the arms of a switch. -/
theorem Case.nests_all : ∀ cs : List Case,
    Nests (Case.declareAll cs) [] (Case.openingsAll cs) (Case.linksAll cs)
  | [] => .skip
  | c :: r => c.nests.andThen (Case.nests_all r)

end

theorem Block.nests_opt : ∀ b : Option Block,
    Nests (Block.declareOpt b) [] (Block.openingsOpt b) (Block.linksOpt b)
  | none => .skip
  | some b => b.nests

/-- **A function nests its scope in the open one,** and those of its body inside. -/
theorem FnDecl.nests (g : FnDecl) : Nests g.declare [.fn g] g.openings g.links := by
  have h := ((Nests.putVars g.formals).andThen (Block.nests_opt g.body)).within
    (o := ⟨g.id, .holding (some g.owner) []⟩) rfl (fun _ => Forest.entered_owned)
    (fun _ hw => hw.extends_enterOwned g.id g.owner) ⟨[.enterOwned g.id g.owner], fun _ => rfl⟩
  rw [List.append_nil] at h
  exact (Nests.put (.fn g)).andThen h

/-- The same for functions in a row. -/
theorem FnDecl.nests_all (gs : List FnDecl) :
    Nests (fun d => gs.foldl (fun d g => g.declare d) d) (gs.map .fn)
      (gs.flatMap FnDecl.openings) fun q => gs.flatMap fun g => g.links q := by
  induction gs with
  | nil => exact .skip
  | cons g gs ih => exact g.nests.andThen ih

/-- An interface nests its scope in the open one, and those of its methods inside. -/
theorem IfaceDecl.nests (i : IfaceDecl) : Nests i.declareInside [] i.openings i.links :=
  (FnDecl.nests_all i.members).within (o := ⟨i.node.id, .holding (some i.owner) []⟩) rfl
    (fun _ => Forest.entered_owned) (fun _ hw => hw.extends_enterOwned i.node.id i.owner)
    ⟨[.enterOwned i.node.id i.owner], fun _ => rfl⟩

/-- What the head of a class notes changes nothing in where its scope lies. -/
theorem Forest.WellFormed.extends_header {f : Forest} (h : f.WellFormed) (c : ClassDecl) :
    (f.grow c.node.id).Extends (f.enterHeader c) := by
  obtain ⟨us, e, -⟩ := c.enter_header_asks
  have hw : (f.enterClass c).WellFormed :=
    (h.use (s := ⟨f, 0, []⟩) (.enterOwned c.node.id c.owner)).1
  have hf : f.enterHeader c = (Declared.run ⟨f.enterClass c, 0, []⟩ us).forest :=
    congrArg Declared.forest (e ⟨f, 0, []⟩)
  rw [hf]
  exact (h.extends_enterOwned c.node.id c.owner).trans
    (hw.run (s := ⟨f.enterClass c, 0, []⟩) us).2

mutual

/-- **A declaration nests the scopes that it makes.** -/
theorem Decl.nests : ∀ x : Decl, Nests x.declare [x] x.openings x.links
  | .var v => (Nests.put (.var v)).andThen .skip
  | .fn g => g.nests
  | .iface i => (Nests.put (.iface i)).andThen i.nests
  | .cls c => (Nests.put (.cls c)).andThen c.nests

/-- A class nests its scope in the open one, and those of its members inside. -/
theorem ClassDecl.nests : ∀ c : ClassDecl, Nests c.declareInside [] c.openings c.links
  | ⟨n, i, b, is, ms⟩ => by
    -- the head of a class is a run of requests on the scope just entered
    obtain ⟨us, e, -⟩ := ClassDecl.enter_header_asks ⟨n, i, b, is, ms⟩
    exact (Decl.nests_all ms).within (o := ⟨n.id, ClassDecl.heading ⟨n, i, b, is, ms⟩⟩) rfl
      (fun _ => Forest.entered_header (c := ⟨n, i, b, is, ms⟩))
      (fun _ hw => hw.extends_header ⟨n, i, b, is, ms⟩)
      ⟨.enterOwned n.id (ClassDecl.owner ⟨n, i, b, is, ms⟩) :: us, e⟩

/-- The same for declarations in a row. -/
theorem Decl.nests_all : ∀ ds : List Decl,
    Nests (Decl.declareAll ds) ds (Decl.openingsAll ds) (Decl.linksAll ds)
  | [] => .skip
  | x :: r => x.nests.andThen (Decl.nests_all r)

end

/-- **The scopes of a program are nested like its constructs.** -/
theorem Program.Numbered.nested {p : Program} (h : p.Numbered) :
    ∀ l ∈ p.links, (p.declare .empty).forest.Lodged l := by
  refine (Decl.nests_all p.decls).lodged ⟨.empty, 0, []⟩ none Forest.wellFormed_empty ?_ rfl
  exact ⟨Nat.zero_lt_one, h.nodup_nodes⟩

end DecafLang
