import DecafLang.Syntax.Handwritten
import DecafLang.Proofs.Lineage
import DecafLang.Proofs.Numbering

/-!
# Lexical scoping

What the names of a program stand for, told without any scopes.

* An `Env` says what is in sight. It is passed down the text: every construct with declarations
  of its own puts them in front of what is in sight around it (`Env.inside`), and **the first
  declaration of a name hides all others**.
* Inside a type the members of the type are in sight, and behind them those of the types above it.
* `Program.occurrences` lists every name that is used without a base, with the kind of declaration
  that is sought and with what is in sight of it.
* **The checker finds for every occurrence what is in sight of it**
  (`Program.Numbered.resolved_lexically`), with names declared twice, names that stand for
  nothing and classes that extend each other included.
-/

namespace DecafLang

/-! ## 1. What is in sight -/

/-- What the names stand for that are in sight. -/
abbrev Env := String → Option Decl

/-- What is in sight behind some lists of declarations, the first list in front. -/
def Env.inside (e : Env) (dss : List (List Decl)) : Env := fun name =>
  (Decl.among? dss name).or (e name)

/-- A name that is used, with the kind of declaration that it asks for and what is in sight. -/
structure Occurrence where
  ident : Ident
  sought : Sought
  env : Env

namespace Occurrence

/-- What the name stands for: the declaration in sight, if it is of the kind that is asked for. -/
def meaning? (o : Occurrence) : Option Decl := (o.env o.ident.name).filter o.sought.accepts

/-- What is found for the name. -/
def finding (o : Occurrence) : Finding := .use o.ident o.sought o.meaning?

/-- The report of a name that stands for nothing. -/
def report (o : Occurrence) : Diagnostic :=
  .located o.ident.span (.notDeclared o.ident.name o.sought)

end Occurrence

/-- The name in a written type. -/
def TypeExpr.occurrences (e : Env) : TypeExpr → List Occurrence
  | .prim _ _ => []
  | .named _ i => [⟨i, .type, e⟩]
  | .array _ t => t.occurrences e

mutual

/-- The names in an expression. -/
def Expr.occurrences (e : Env) : Expr → List Occurrence
  | .binary _ _ l r => l.occurrences e ++ r.occurrences e
  | .unary _ _ x => x.occurrences e
  | .step _ _ x => x.occurrences e
  | .assign _ t v => t.occurrences e ++ v.occurrences e
  | .index _ b s => b.occurrences e ++ s.occurrences e
  | .name _ i => [⟨i, .var, e⟩]
  | .field _ b _ => b.occurrences e
  | .call _ i args => ⟨i, .fn, e⟩ :: Expr.occurrencesAll e args
  | .send _ b _ args => b.occurrences e ++ Expr.occurrencesAll e args
  | .new _ i => [⟨i, .cls, e⟩]
  | .newArray _ s t => s.occurrences e ++ t.occurrences e
  | _ => []

/-- The names in several expressions. -/
def Expr.occurrencesAll (e : Env) : List Expr → List Occurrence
  | [] => []
  | x :: r => x.occurrences e ++ Expr.occurrencesAll e r

end

/-- The names in an expression that may be missing. -/
def Expr.occurrencesOpt (e : Env) : Option Expr → List Occurrence
  | none => []
  | some x => x.occurrences e

/-- The names in the types of variables. -/
def VarDecl.occurrencesAll (e : Env) (vs : List VarDecl) : List Occurrence :=
  vs.flatMap fun v => v.type.occurrences e

mutual

/-- The names in a statement. -/
def Stmt.occurrences : Stmt → Env → List Occurrence
  | .block b, e => b.occurrences e
  | .ifThen _ t s, e => t.occurrences e ++ s.occurrences e
  | .ifElse _ t s o, e => t.occurrences e ++ s.occurrences e ++ o.occurrences e
  | .while _ t s, e => t.occurrences e ++ s.occurrences e
  | .for _ i t u s, e =>
    Expr.occurrencesOpt e i ++ t.occurrences e ++ Expr.occurrencesOpt e u ++ s.occurrences e
  | .switch _ x cs, e => x.occurrences e ++ Case.occurrencesAll cs e
  | .break _, _ => []
  | .ret _ x, e => Expr.occurrencesOpt e x
  | .print _ xs, e => Expr.occurrencesAll e xs
  | .expr x, e => x.occurrences e

/-- The names in a block, behind the locals of the block. -/
def Block.occurrences : Block → Env → List Occurrence
  | ⟨_, ls, ss⟩, e =>
    VarDecl.occurrencesAll (e.inside [ls.map .var]) ls
      ++ Stmt.occurrencesAll ss (e.inside [ls.map .var])

/-- The names in an arm. -/
def Case.occurrences : Case → Env → List Occurrence
  | ⟨_, ss⟩, e => Stmt.occurrencesAll ss e

/-- The names in several statements. -/
def Stmt.occurrencesAll : List Stmt → Env → List Occurrence
  | [], _ => []
  | s :: r, e => s.occurrences e ++ Stmt.occurrencesAll r e

/-- The names in several arms. -/
def Case.occurrencesAll : List Case → Env → List Occurrence
  | [], _ => []
  | c :: r, e => c.occurrences e ++ Case.occurrencesAll r e

end

/-- The names in a body that may be missing. -/
def Block.occurrencesOpt : Option Block → Env → List Occurrence
  | none, _ => []
  | some b, e => b.occurrences e

/-- The names in a function; those in its result stand in front of the formals. -/
def FnDecl.occurrences (g : FnDecl) (e : Env) : List Occurrence :=
  g.result.occurrences e ++ VarDecl.occurrencesAll (e.inside [g.formals.map .var]) g.formals
    ++ Block.occurrencesOpt g.body (e.inside [g.formals.map .var])

/-- The names in a member of a class. -/
def Decl.occurrencesAsMember (e : Env) : Decl → List Occurrence
  | .var v => v.type.occurrences e
  | .fn g => g.occurrences e
  | .iface _ => []
  | .cls _ => []

namespace Program

/-- What is in sight at the top level. -/
def top (p : Program) : Env := fun name => p.decls.find? (·.name == name)

/-- What is in sight inside a type. -/
def inType (p : Program) (t : TypeDecl) : Env := p.top.inside (p.lineage t)

/-- The names in a declaration at the top level; those in the head of a class stand outside it. -/
def occurrencesIn (p : Program) : Decl → List Occurrence
  | .var v => v.type.occurrences p.top
  | .fn g => g.occurrences p.top
  | .iface i => i.members.flatMap fun g => g.occurrences (p.inType (.iface i))
  | .cls c =>
    c.base.toList.map (fun b => ⟨b, .cls, p.top⟩) ++ c.interfaces.map (fun i => ⟨i, .iface, p.top⟩)
      ++ c.members.flatMap (Decl.occurrencesAsMember (p.inType (.cls c)))

/-- The names that are used in a program without a base. -/
def occurrences (p : Program) : List Occurrence := p.decls.flatMap p.occurrencesIn

end Program

/-! ## 2. Scopes that show what is in sight -/

namespace Forest

/-- In the open scopes the names stand for what is in sight. -/
def Shows (f : Forest) (e : Env) : Prop := ∀ name, f.lookup? name = e name

variable {f : Forest} {e : Env} {n : NodeId} {w : Option Owner} {ds : List Decl}
  {os os' : List Opening} {k : ScopeId}

/-- The scopes of the openings are there, with what they take in. -/
def Keeps (f : Forest) (os : List Opening) : Prop := f.HasAll (os.map Opening.kept)

/-- A forest keeps scopes in a row if it keeps both parts. -/
theorem keeps_append : f.Keeps (os ++ os') ↔ f.Keeps os ∧ f.Keeps os' := by
  unfold Keeps
  rw [List.map_append, hasAll_append]

theorem keeps_cons {o : Opening} : f.Keeps (o :: os) ↔ (∃ k, f.Has o.kept k) ∧ f.Keeps os := by
  unfold Keeps
  rw [List.map_cons, hasAll_cons]

/-- A scope on top of those that show what is in sight puts its declarations in front. -/
theorem Shows.inside (h : f.Shows e) (ho : f.Has (⟨n, .holding w ds⟩ : Opening).kept k) :
    (f.withOpen (k :: f.inner)).Shows (e.inside [ds]) := by
  intro name
  have hl : (f.withOpen (k :: f.inner)).lookup? name =
      ((Decl.admitted [] ds).find? (·.name == name)).or (f.lookup? name) := Has.lookup?_eq ho name
  have hd : (Decl.admitted [] ds).find? (·.name == name) = ds.find? (·.name == name) :=
    Decl.find?_admitted [] ds name
  unfold Env.inside
  rw [hl, hd, Decl.among?_singleton, h name]

/-- What is in sight is what is found. -/
theorem Shows.use_eq (h : f.Shows e) (i : Ident) (s : Sought) :
    f.use i s = Occurrence.finding ⟨i, s, e⟩ := by
  unfold Forest.use
  rw [h i.name]
  rfl

end Forest

/-! ## 3. What is found -/

section

variable {f : Forest} {e : Env}

/-- The name in a type is found as it is in sight. -/
theorem TypeExpr.uses_eq (h : f.Shows e) (t : TypeExpr) :
    t.uses f = (t.occurrences e).map Occurrence.finding := by
  induction t with
  | prim _ _ => rfl
  | named _ i => exact congrArg ([·]) (h.use_eq i .type)
  | array _ t ih => exact ih

mutual

/-- **The names in an expression are found as they are in sight.** -/
theorem Expr.uses_eq (h : f.Shows e) : ∀ x : Expr,
    x.uses f = (x.occurrences e).map Occurrence.finding
  | .int _ _ => rfl
  | .double _ => rfl
  | .bool _ _ => rfl
  | .string _ _ => rfl
  | .null _ => rfl
  | .this _ => rfl
  | .readInteger _ => rfl
  | .readLine _ => rfl
  | .binary _ _ l r => by
    rw [Expr.uses, Expr.occurrences, List.map_append, l.uses_eq h, r.uses_eq h]
  | .unary _ _ x => x.uses_eq h
  | .step _ _ x => x.uses_eq h
  | .assign _ t v => by
    rw [Expr.uses, Expr.occurrences, List.map_append, t.uses_eq h, v.uses_eq h]
  | .index _ b s => by
    rw [Expr.uses, Expr.occurrences, List.map_append, b.uses_eq h, s.uses_eq h]
  | .name _ i => congrArg ([·]) (h.use_eq i .var)
  | .field _ b _ => b.uses_eq h
  | .call _ i args => by
    rw [Expr.uses, Expr.occurrences, List.map_cons, Expr.uses_all_eq h args, h.use_eq]
  | .send _ b _ args => by
    rw [Expr.uses, Expr.occurrences, List.map_append, b.uses_eq h, Expr.uses_all_eq h args]
  | .new _ i => congrArg ([·]) (h.use_eq i .cls)
  | .newArray _ s t => by
    rw [Expr.uses, Expr.occurrences, List.map_append, s.uses_eq h, t.uses_eq h]

/-- The same for expressions in a row. -/
theorem Expr.uses_all_eq (h : f.Shows e) : ∀ xs : List Expr,
    Expr.usesAll f xs = (Expr.occurrencesAll e xs).map Occurrence.finding
  | [] => rfl
  | x :: r => by
    rw [Expr.usesAll, Expr.occurrencesAll, List.map_append, x.uses_eq h, Expr.uses_all_eq h r]

end

theorem Expr.uses_opt_eq (h : f.Shows e) : ∀ x : Option Expr,
    Expr.usesOpt f x = (Expr.occurrencesOpt e x).map Occurrence.finding
  | none => rfl
  | some x => x.uses_eq h

/-- The same for the types of variables. -/
theorem VarDecl.uses_all_eq (h : f.Shows e) (vs : List VarDecl) :
    VarDecl.usesAll f vs = (VarDecl.occurrencesAll e vs).map Occurrence.finding := by
  unfold VarDecl.usesAll VarDecl.occurrencesAll
  rw [List.map_flatMap]
  exact List.flatMap_congr fun v _ => v.type.uses_eq h

end

mutual

/-- **The names in a statement are found as they are in sight,** as its scopes show what lies
inside. -/
theorem Stmt.uses_eq : ∀ (s : Stmt) {f : Forest} {e : Env}, f.Shows e → f.Keeps s.openings →
    s.uses f = (s.occurrences e).map Occurrence.finding
  | .block b, _, _, h, ho => b.uses_eq h ho
  | .ifThen _ t s, _, _, h, ho => by
    rw [Stmt.uses, Stmt.occurrences, List.map_append, t.uses_eq h, s.uses_eq h ho]
  | .ifElse _ t s o, _, _, h, ho => by
    obtain ⟨hs, ho⟩ := Forest.keeps_append.mp ho
    rw [Stmt.uses, Stmt.occurrences, List.map_append, List.map_append, t.uses_eq h, s.uses_eq h hs,
      o.uses_eq h ho]
  | .while _ t s, _, _, h, ho => by
    rw [Stmt.uses, Stmt.occurrences, List.map_append, t.uses_eq h, s.uses_eq h ho]
  | .for _ i t u s, _, _, h, ho => by
    rw [Stmt.uses, Stmt.occurrences, List.map_append, List.map_append, List.map_append,
      Expr.uses_opt_eq h i, t.uses_eq h, Expr.uses_opt_eq h u, s.uses_eq h ho]
  | .switch _ x cs, _, _, h, ho => by
    rw [Stmt.uses, Stmt.occurrences, List.map_append, x.uses_eq h, Case.uses_all_eq cs h ho]
  | .break _, _, _, _, _ => rfl
  | .ret _ x, _, _, h, _ => Expr.uses_opt_eq h x
  | .print _ xs, _, _, h, _ => Expr.uses_all_eq h xs
  | .expr x, _, _, h, _ => x.uses_eq h

/-- In a block its variables hide what lies around. -/
theorem Block.uses_eq : ∀ (b : Block) {f : Forest} {e : Env}, f.Shows e → f.Keeps b.openings →
    b.uses f = (b.occurrences e).map Occurrence.finding
  | ⟨n, ls, ss⟩, f, e, h, ho => by
    obtain ⟨⟨k, hk⟩, hs⟩ := Forest.keeps_cons.mp ho
    have hin := h.inside hk
    -- the scope of the block is entered, and shows its variables in front
    have hen : f.enter n.id = f.withOpen (k :: f.inner) := hk.enter
    rw [Block.uses, Block.occurrences, List.map_append, hen, VarDecl.uses_all_eq hin,
      Stmt.uses_all_eq ss (f := f.withOpen (k :: f.inner)) hin hs]

theorem Case.uses_eq : ∀ (c : Case) {f : Forest} {e : Env}, f.Shows e → f.Keeps c.openings →
    c.uses f = (c.occurrences e).map Occurrence.finding
  | ⟨_, ss⟩, _, _, h, ho => Stmt.uses_all_eq ss h ho

/-- The same for statements in a row. -/
theorem Stmt.uses_all_eq : ∀ (ss : List Stmt) {f : Forest} {e : Env}, f.Shows e →
    f.Keeps (Stmt.openingsAll ss) →
      Stmt.usesAll ss f = (Stmt.occurrencesAll ss e).map Occurrence.finding
  | [], _, _, _, _ => rfl
  | s :: r, _, _, h, ho => by
    obtain ⟨hs, hr⟩ := Forest.keeps_append.mp ho
    rw [Stmt.usesAll, Stmt.occurrencesAll, List.map_append, s.uses_eq h hs, Stmt.uses_all_eq r h hr]

/-- The same for the arms of a switch. -/
theorem Case.uses_all_eq : ∀ (cs : List Case) {f : Forest} {e : Env}, f.Shows e →
    f.Keeps (Case.openingsAll cs) →
      Case.usesAll cs f = (Case.occurrencesAll cs e).map Occurrence.finding
  | [], _, _, _, _ => rfl
  | c :: r, _, _, h, ho => by
    obtain ⟨hc, hr⟩ := Forest.keeps_append.mp ho
    rw [Case.usesAll, Case.occurrencesAll, List.map_append, c.uses_eq h hc, Case.uses_all_eq r h hr]

end

section

variable {f : Forest} {e : Env}

/-- In a function its parameters hide what lies around. -/
theorem FnDecl.uses_eq (g : FnDecl) (h : f.Shows e) (ho : f.Keeps g.openings) :
    g.uses f = (g.occurrences e).map Occurrence.finding := by
  obtain ⟨⟨k, hk⟩, hb⟩ := Forest.keeps_cons.mp ho
  have hin := h.inside hk
  have hen : f.enterFn g = f.withOpen (k :: f.inner) := hk.enterOwned rfl
  have hbody : Block.usesOpt g.body (f.withOpen (k :: f.inner)) =
      (Block.occurrencesOpt g.body (e.inside [g.formals.map .var])).map Occurrence.finding := by
    cases hg : g.body with
    | none => rfl
    | some b =>
      rw [hg] at hb
      exact b.uses_eq (f := f.withOpen (k :: f.inner)) hin hb
  rw [FnDecl.uses, FnDecl.occurrences, List.map_append, List.map_append, hen, g.result.uses_eq h,
    VarDecl.uses_all_eq hin, hbody]

end

namespace Program.Numbered

variable {p : Program}

/-- The scopes of a declaration are kept. -/
theorem keeps (h : p.Numbered) {d : Decl} (hd : d ∈ p.decls) : p.scopes.Keeps d.openings :=
  fun o ho => h.hasAll_kept o (((Decl.openings_sublist hd).map Opening.kept).subset ho)

/-- So are those of a method, once its class is entered. -/
theorem keeps_method (h : p.Numbered) {c : ClassDecl} (hc : Decl.cls c ∈ p.decls) {g : FnDecl}
    (hg : g ∈ c.methods) : (p.scopes.enterClass c).Keeps g.openings := by
  have hsub : g.openings ⊆ (Decl.cls c).openings := fun o ho => by
    show o ∈ c.openings
    rw [c.openings_eq]
    exact List.mem_cons_of_mem _ ((Decl.openings_sublist (ClassDecl.mem_methods.mp hg)).subset ho)
  rw [h.enterClass_eq hc]
  exact fun o ho => h.keeps hc o (List.map_subset _ hsub ho)

/-- Outside all types the declarations at the top level are in sight. -/
theorem shows_top (h : p.Numbered) : p.scopes.Shows p.top := by
  intro name
  have hp : (p.scopes.scope Forest.globalId).parent = none :=
    (congrArg Scope.parent h.opened_kept.global :)
  have ha : p.scopes.active = [Forest.globalId] := by
    unfold Forest.active
    rw [h.inner_eq]
    rfl
  unfold Forest.lookup?
  rw [ha, List.findSome?_cons, List.findSome?_nil, Forest.within?_of_parent hp, h.global_get?]
  unfold top
  cases p.decls.find? (·.name == name) <;> rfl

/-- Inside a type its lineage is in sight. -/
theorem shows_type (h : p.Numbered) (hf : p.Flat) {t : TypeDecl} (ht : t ∈ p.types) :
    (p.scopes.withOpen [p.scopes.slotOf t.id]).Shows (p.inType t) := by
  intro name
  have e : p.scopes.withOpen [] = p.scopes := by
    unfold Forest.withOpen
    rw [← h.inner_eq]
  rw [Forest.lookup?_withOpen, h.within?_eq hf ht, e, h.shows_top name]
  rfl

end Program.Numbered

/-- What is found for a function of the program besides its names. -/
def Decl.mainFaults : Decl → List Finding
  | .fn g => g.mainFaults
  | _ => []

namespace Program.Numbered

variable {p : Program}

/-- What is found inside a type is what is in sight there. -/
theorem uses_fn_eq (h : p.Numbered) (hf : p.Flat) {t : TypeDecl} (ht : t ∈ p.types) {g : FnDecl}
    (hg : g.openings ⊆ t.decl.openings) :
    g.uses (p.scopes.withOpen [p.scopes.slotOf t.id]) =
      (g.occurrences (p.inType t)).map Occurrence.finding :=
  g.uses_eq (h.shows_type hf ht) fun o ho =>
    h.keeps (mem_types.mp ht) o (List.map_subset Opening.kept hg ho)

/-- **In a member the other members are in sight, and those of the types above.** -/
theorem uses_member_eq (h : p.Numbered) (hf : p.Flat) {c : ClassDecl} (hc : Decl.cls c ∈ p.decls)
    {d : Decl} (hd : d ∈ c.members) :
    d.usesAsMember (p.scopes.enterClass c) =
      (d.occurrencesAsMember (p.inType (.cls c))).map Occurrence.finding := by
  have ht : TypeDecl.cls c ∈ p.types := mem_types.mpr hc
  rw [h.enterClass_eq hc]
  cases d with
  | var v => exact v.type.uses_eq (h.shows_type hf ht)
  | fn g =>
    refine h.uses_fn_eq hf ht fun o ho => ?_
    show o ∈ c.openings
    rw [c.openings_eq]
    exact List.mem_cons_of_mem _ ((Decl.openings_sublist hd).subset ho)
  | iface _ => rfl
  | cls _ => rfl

/-- **What is found for the names of a declaration is what they stand for.** -/
theorem uses_eq (h : p.Numbered) (hf : p.Flat) {d : Decl} (hd : d ∈ p.decls) :
    d.uses p.scopes = (p.occurrencesIn d).map Occurrence.finding ++ d.mainFaults := by
  have ht := h.shows_top
  cases d with
  | var v => exact (v.type.uses_eq ht).trans (List.append_nil _).symm
  | fn g => exact congrArg (· ++ g.mainFaults) (g.uses_eq ht (h.keeps hd))
  | iface i =>
    have hi : TypeDecl.iface i ∈ p.types := mem_types.mpr hd
    -- the methods of an interface are looked up inside it
    have he : p.scopes.enterIface i = _ := h.enter_type hi i.owner
    show i.members.flatMap (fun g => g.uses (p.scopes.enterIface i)) = _ ++ []
    rw [List.append_nil, he]
    show _ = (i.members.flatMap _).map _
    rw [List.map_flatMap]
    exact List.flatMap_congr fun g hg => h.uses_fn_eq hf hi fun o ho =>
      List.mem_cons_of_mem _ (List.mem_flatMap.mpr ⟨g, hg, ho⟩)
  | cls c =>
    -- the head of a class is looked up outside of it
    have hb : c.base.toList.map (fun b => p.scopes.use b .cls) =
        (c.base.toList.map fun b => (⟨b, .cls, p.top⟩ : Occurrence)).map Occurrence.finding := by
      rw [List.map_map]
      exact List.map_congr_left fun b _ => ht.use_eq b .cls
    have hi : c.interfaces.map (fun i => p.scopes.use i .iface) =
        (c.interfaces.map fun i => (⟨i, .iface, p.top⟩ : Occurrence)).map Occurrence.finding := by
      rw [List.map_map]
      exact List.map_congr_left fun i _ => ht.use_eq i .iface
    show c.uses p.scopes = (_ ++ _ ++ _ : List Occurrence).map _ ++ []
    rw [List.append_nil, List.map_append, List.map_append, List.map_flatMap, ← hb, ← hi,
      ClassDecl.uses, List.flatMap_congr fun d hm => h.uses_member_eq hf hd hm]

/-- What the program looks up is what is in sight, with what it misses of `main`. -/
theorem findings_lexical (h : p.Numbered) (hf : p.Flat) : p.findings p.scopes =
    p.decls.flatMap fun d => (p.occurrencesIn d).map Occurrence.finding ++ d.mainFaults :=
  List.flatMap_congr fun _ hd => h.uses_eq hf hd

/-- Each occurrence is looked up. -/
theorem finding_mem (h : p.Numbered) (hf : p.Flat) {o : Occurrence} (ho : o ∈ p.occurrences) :
    o.finding ∈ p.findings p.scopes := by
  obtain ⟨d, hd, ho⟩ := List.mem_flatMap.mp ho
  rw [h.findings_lexical hf]
  exact List.mem_flatMap.mpr ⟨d, hd, List.mem_append_left _ (List.mem_map_of_mem ho)⟩

end Program.Numbered

/-! ## 4. Bindings and reports -/

/-- Names with numbers of their own are looked up once. -/
theorem Finding.eq_of_used {l : List Finding} (h : (used l).Nodup) {x y : Finding} {i j : Ident}
    (hx : x ∈ l) (hy : y ∈ l) (hi : x.ident? = some i) (hj : y.ident? = some j) (e : i.id = j.id) :
    x = y := by
  unfold used at h
  rw [List.map_filterMap] at h
  have hp := List.pairwise_filterMap.mp h
  have : Std.Symm fun x y : Finding =>
      ∀ a, x.ident?.map Ident.id = some a → ∀ b, y.ident?.map Ident.id = some b → a ≠ b :=
    ⟨fun _ _ h a ha b hb => (h b hb a ha).symm⟩
  by_contra hne
  refine hp.forall hx hy hne i.id ?_ j.id ?_ e
  · rw [hi]
    rfl
  · rw [hj]
    rfl

/-- Whether a report says that a name stands for nothing. -/
def Diagnostic.isNotDeclared : Diagnostic → Bool
  | .located _ (.notDeclared _ _) => true
  | _ => false

/-- The head of `main` has nothing to do with names that stand for nothing. -/
theorem Decl.mainFaults_declared (d : Decl) :
    (d.mainFaults.filterMap Finding.diagnostic?).filter Diagnostic.isNotDeclared = [] := by
  cases d with
  | fn g =>
    show (g.mainFaults.filterMap _).filter _ = []
    unfold FnDecl.mainFaults
    split
    · split <;> split <;> rfl
    · rfl
  | _ => rfl

/-- **A name is reported just if nothing in sight is meant by it.** -/
theorem Occurrence.reports_eq (os : List Occurrence) :
    ((os.map Occurrence.finding).filterMap Finding.diagnostic?).filter Diagnostic.isNotDeclared =
      (os.filter fun o => o.meaning?.isNone).map Occurrence.report := by
  induction os with
  | nil => rfl
  | cons o os ih =>
    have hd : o.finding.diagnostic? = if o.meaning?.isNone then some o.report else none := by
      unfold finding Finding.diagnostic?
      cases o.meaning? <;> rfl
    rw [List.map_cons, List.filterMap_cons, hd, List.filter_cons]
    split
    · rename_i hn
      split at hn
      · cases hn
      · rename_i hs
        rw [if_neg hs]
        exact ih
    · rename_i r hr
      split at hr
      · rename_i hs
        cases hr
        rw [if_pos hs, List.map_cons, ← ih]
        rfl
      · cases hr

namespace Program.Numbered

variable {p : Program}

/-- What is found for a name is what the notes have for it, also if that is nothing. -/
theorem decl?_eq (h : p.Numbered) {i : Ident} {s : Sought} {d : Option Decl}
    (hx : Finding.use i s d ∈ p.findings p.scopes) :
    p.analyze.resolved.notes.decl? i = d := by
  cases d with
  | some d => exact (h.decl?_of_mem hx).1
  | none =>
    -- a name is looked up once, so nothing else is bound to its number
    have hn : (Finding.used (p.findings p.scopes)).Nodup :=
      (List.nodup_append.mp (h.nodup_keys p.scopes p.scopes (.ofProgram p) .empty)).1
    unfold Notes.decl?
    rw [h.resolved_bindings]
    refine Table.get?_insertAll_of_not_mem fun hm => ?_
    obtain ⟨⟨k, d⟩, he, rfl⟩ := List.mem_map.mp hm
    obtain ⟨y, hy, he⟩ := List.mem_filterMap.mp he
    cases y with
    | fault _ => cases he
    | use j t d' =>
      -- what would be bound was looked up for the same name, and found nothing
      cases d' with
      | none => cases he
      | some d' =>
        obtain ⟨e, -⟩ := Prod.mk.inj (Option.some.inj he)
        cases Finding.eq_of_used hn hx hy rfl rfl e.symm

/-- **Names are resolved lexically.** An occurrence of a name is bound to the declaration that is in
sight of it, provided that this is of the kind asked for; otherwise it is bound to nothing, and
there is one report of each that is. -/
theorem resolved_lexically (h : p.Numbered) (hf : p.Flat) :
    (∀ o ∈ p.occurrences, ∀ d, p.analyze.resolved.notes.decl? o.ident = some d ↔
      o.env o.ident.name = some d ∧ o.sought.accepts d = true) ∧
    p.analyze.resolved.diagnostics.filter Diagnostic.isNotDeclared =
      (p.occurrences.filter fun o => o.meaning?.isNone).map Occurrence.report := by
  constructor
  · intro o ho d
    rw [h.decl?_eq (h.finding_mem hf ho)]
    exact Option.filter_eq_some_iff
  · unfold Resolved.diagnostics occurrences
    rw [h.findings_eq, h.findings_lexical hf, List.filterMap_flatMap, List.filter_flatMap,
      List.filter_flatMap, List.map_flatMap]
    refine List.flatMap_congr fun d _ => ?_
    rw [List.filterMap_append, List.filter_append, d.mainFaults_declared, List.append_nil]
    exact Occurrence.reports_eq _

end Program.Numbered

/-- Two classes that extend each other, one of them declared twice; a local hides the formal of its
name, and one name and one base are declared nowhere. -/
def knot : Program := .number [
  .cls ⟨.nowhere, .called "Left", some (.called "Right"), [], [
    .fn ⟨.nowhere, .called "sum", .prim 0 .int, [.called "k" (.prim 0 .bool)],
      some ⟨.nowhere, [.int "k"], [
        .set (.use "k") (.use "far"),
        .ret .nowhere (some (.call .nowhere (.called "sum") [.use "lost"]))]⟩⟩]⟩,
  .cls ⟨.nowhere, .called "Right", some (.called "Left"), [], [.var (.int "far")]⟩,
  .cls ⟨.nowhere, .called "Right", some (.called "Gone"), [], []⟩]

/-- In the knot all names are resolved lexically; two of them stand for nothing. -/
theorem resolved_lexically_knot :
    (∀ o ∈ knot.occurrences, ∀ d, knot.analyze.resolved.notes.decl? o.ident = some d ↔
      o.env o.ident.name = some d ∧ o.sought.accepts d = true) ∧
    knot.analyze.resolved.diagnostics.filter Diagnostic.isNotDeclared =
      [.located .nowhere (.notDeclared "lost" .var),
        .located .nowhere (.notDeclared "Gone" .cls)] := by
  have hf : knot.Flat := of_decide_eq_true rfl
  obtain ⟨hb, hr⟩ := (Program.number_numbered _ : knot.Numbered).resolved_lexically hf
  exact ⟨hb, hr.trans (by decide +kernel)⟩

end DecafLang
