import DecafLang.Proofs.TypeReports
import DecafLang.Proofs.Lexical
import DecafLang.Proofs.Places

/-!
# Everything once

The checks leave nothing out and come by nothing twice, whatever is wrong with the program.

* `Program.reached` lists the pieces whose names are looked up: all but the classes and interfaces
  inside classes. **One name is looked up for every name there that stands without a base**
  (`Finding.Covers`), which is carried along the syntax; it is bound, or it is reported.
* **Every expression of a body gets one type** (`Program.spots_exprs`).
* Where the pieces have numbers of their own, nothing that is written down is written over, so that
  the tables have one entry for each of these (`Program.Numbered.visited`).
-/

namespace DecafLang

/-! ## 1. Tables -/

/-- **New keys that are set once each are that many more.** -/
theorem Table.size_insertAll {κ α : Type} [DecidableEq κ] {l : List (κ × α)} {t : Table κ α}
    (hn : (l.map Prod.fst).Nodup) (hk : ∀ k ∈ l.map Prod.fst, t.get? k = none) :
    (t.insertAll l).size = t.size + l.length := by
  induction l generalizing t with
  | nil => rfl
  | cons x l ih =>
    obtain ⟨hx, hl⟩ := List.nodup_cons.mp hn
    obtain ⟨hkx, hkl⟩ := List.forall_mem_cons.mp hk
    have hk' : ∀ k ∈ l.map Prod.fst, (t.insert x.1 x.2).get? k = none := fun k hm => by
      have hne : x.1 ≠ k := fun e => hx (e ▸ hm)
      rw [get?_insert, if_neg hne]
      exact hkl k hm
    show ((t.insert x.1 x.2).insertAll l).size = _
    rw [ih hl hk', size_insert, if_pos hkx, List.length_cons]
    omega

/-! ## 2. The names that are looked up -/

/-- The names of a piece that stand without a base: the name of a type, a bare name, that of a
call by a bare name or of a new object, and those that a class extends and lists. -/
def Part.lookups : Part → List Ident
  | type (.named _ i) => [i]
  | expr (.name _ i) => [i]
  | expr (.call _ i _) => [i]
  | expr (.new _ i) => [i]
  | decl (.cls c) => c.base.toList ++ c.interfaces
  | _ => []

/-- The pieces of a declaration but for the classes and interfaces inside a class. -/
def Decl.reached : Decl → List Part
  | .cls c => (c.members.filter fun d => !d.isType).flatMap Decl.parts ++ [.decl (.cls c)]
  | d => d.parts

/-- The pieces of a program whose names are looked up. -/
def Program.reached (p : Program) : List Part := p.decls.flatMap Decl.reached

namespace Finding

/-- What is found covers pieces: one name is looked up for each of theirs, and nothing else is said
to stand for nothing. -/
structure Covers (l : List Finding) (ps : List Part) : Prop where
  perm : (l.filterMap ident?).Perm (ps.flatMap Part.lookups)
  others : ∀ d, fault d ∈ l → d.isNotDeclared = false

namespace Covers

variable {l l' : List Finding} {ps ps' : List Part}

theorem nil : Covers [] [] := ⟨.nil, nofun⟩

theorem append (h : Covers l ps) (h' : Covers l' ps') : Covers (l ++ l') (ps ++ ps') where
  perm := by
    rw [List.filterMap_append, List.flatMap_append]
    exact h.perm.append h'.perm
  others := fun d hd => (List.mem_append.mp hd).elim (h.others d) (h'.others d)

/-- The names may be looked up in another order. -/
theorem swap (h : Covers l ps) (h' : Covers l' ps') : Covers (l' ++ l) (ps ++ ps') where
  perm := by
    rw [List.filterMap_append, List.flatMap_append]
    exact List.perm_append_comm.trans (h.perm.append h'.perm)
  others := fun d hd => (List.mem_append.mp hd).elim (h'.others d) (h.others d)

/-- A piece with one name. -/
theorem one (f : Forest) (i : Ident) (s : Sought) (e : ps.flatMap Part.lookups = [i]) :
    Covers [f.use i s] ps where
  perm := e ▸ .refl [i]
  others := fun _ hd => nomatch List.mem_singleton.mp hd

/-- Pieces without names. -/
theorem none (e : ps.flatMap Part.lookups = []) : Covers [] ps := ⟨e ▸ .nil, nofun⟩

/-- Pieces behind others that have no names. -/
theorem behind (h : Covers l ps) (e : ps'.flatMap Part.lookups = []) : Covers l (ps ++ ps') := by
  have := h.append (none e)
  rwa [List.append_nil] at this

theorem flatMap {α : Type} {xs : List α} {g : α → List Finding} {parts : α → List Part}
    (h : ∀ x ∈ xs, Covers (g x) (parts x)) : Covers (xs.flatMap g) (xs.flatMap parts) := by
  induction xs with
  | nil => exact .nil
  | cons x xs ih =>
    obtain ⟨hx, hxs⟩ := List.forall_mem_cons.mp h
    exact hx.append (ih hxs)

/-- Every name that is looked up is bound or is not. -/
theorem counts (l : List Finding) :
    (l.filterMap binding?).length + l.countP isUnbound = (l.filterMap ident?).length := by
  induction l with
  | nil => rfl
  | cons x l ih =>
    cases x with
    | fault _ => exact ih
    | use i s d =>
      cases d with
      | none =>
        show _ + List.countP isUnbound (use i s Option.none :: l) = List.length (i :: _)
        -- not found: one more unbound use
        rw [List.countP_cons_of_pos rfl, List.length_cons, ← ih]
        exact (Nat.add_assoc _ _ _).symm
      | some d =>
        show List.length ((i.id, d) :: _) + List.countP isUnbound (use i s (some d) :: l) =
          List.length (i :: _)
        -- found: one more binding
        rw [List.countP_cons_of_neg Bool.false_ne_true, List.length_cons, List.length_cons, ← ih]
        exact Nat.add_right_comm _ _ _

/-- The names that are not bound are those that are said to stand for nothing. -/
theorem unbound (h : ∀ d, fault d ∈ l → d.isNotDeclared = false) :
    l.countP isUnbound = (l.filterMap diagnostic?).countP Diagnostic.isNotDeclared := by
  induction l with
  | nil => rfl
  | cons x l ih =>
    have ih := ih fun d hd => h d (List.mem_cons_of_mem _ hd)
    cases x with
    | fault d =>
      have hd : ¬ d.isNotDeclared = true := by
        rw [h d List.mem_cons_self]
        exact nofun
      show List.countP isUnbound (fault d :: l) = List.countP _ (d :: _)
      rw [List.countP_cons_of_neg Bool.false_ne_true, List.countP_cons_of_neg hd, ih]
    | use i s d =>
      cases d with
      | none =>
        show List.countP isUnbound (use i s Option.none :: l) = List.countP _ (_ :: _)
        rw [List.countP_cons_of_pos rfl, List.countP_cons_of_pos rfl, ih]
      | some d =>
        show List.countP isUnbound (use i s (some d) :: l) = _
        rw [List.countP_cons_of_neg Bool.false_ne_true, ih]
        rfl

end Covers

end Finding

open Finding (Covers)

theorem TypeExpr.covers (f : Forest) : ∀ t : TypeExpr, Covers (t.uses f) t.parts
  | .prim _ _ => .none rfl
  | .named _ i => .one f i .type rfl
  | .array _ t => (t.covers f).behind rfl

mutual

/-- **The names of an expression are looked up,** each once. -/
theorem Expr.covers (f : Forest) : ∀ e : Expr, Covers (e.uses f) e.parts
  | .int _ _ | .double _ | .bool _ _ | .string _ _ | .null _ | .this _ | .readInteger _
  | .readLine _ => .none rfl
  | .binary _ _ l r => ((l.covers f).append (r.covers f)).behind rfl
  | .unary _ _ x => (x.covers f).behind rfl
  | .step _ _ x => (x.covers f).behind rfl
  | .assign _ t v => ((t.covers f).append (v.covers f)).behind rfl
  | .index _ b s => ((b.covers f).append (s.covers f)).behind rfl
  | .name _ i => .one f i .var rfl
  | .field _ b _ => (b.covers f).behind rfl
  | .call _ i args => (Expr.covers_all f args).swap (.one f i .fn rfl)
  | .send _ b _ args => ((b.covers f).append (Expr.covers_all f args)).behind rfl
  | .new _ i => .one f i .cls rfl
  | .newArray _ s t => ((s.covers f).append (t.covers f)).behind rfl

theorem Expr.covers_all (f : Forest) : ∀ es : List Expr,
    Covers (Expr.usesAll f es) (Expr.partsAll es)
  | [] => .nil
  | e :: r => (e.covers f).append (Expr.covers_all f r)

end

theorem Expr.covers_opt (f : Forest) : ∀ e : Option Expr,
    Covers (Expr.usesOpt f e) (Expr.partsOpt e)
  | none => .nil
  | some e => e.covers f

theorem VarDecl.covers_all (f : Forest) (vs : List VarDecl) :
    Covers (VarDecl.usesAll f vs) (vs.flatMap VarDecl.parts) :=
  .flatMap fun v _ => (v.type.covers f).behind rfl

mutual

/-- **The names of a statement are looked up,** each once. -/
theorem Stmt.covers : ∀ (s : Stmt) (f : Forest), Covers (s.uses f) s.parts
  | .block b, f => b.covers f
  | .ifThen _ t s, f => (t.covers f).append (s.covers f)
  | .ifElse _ t s o, f => ((t.covers f).append (s.covers f)).append (o.covers f)
  | .while _ t s, f => (t.covers f).append (s.covers f)
  | .for _ i t u s, f =>
    (((Expr.covers_opt f i).append (t.covers f)).append (Expr.covers_opt f u)).append (s.covers f)
  | .switch _ e cs, f => (e.covers f).append (Case.covers_all cs f)
  | .break _, _ => .nil
  | .ret _ e, f => Expr.covers_opt f e
  | .print _ es, f => Expr.covers_all f es
  | .expr e, f => e.covers f

theorem Block.covers : ∀ (b : Block) (f : Forest), Covers (b.uses f) b.parts
  | ⟨n, ls, ss⟩, f =>
    ((VarDecl.covers_all (f.enter n.id) ls).append (Stmt.covers_all ss (f.enter n.id))).behind rfl

theorem Case.covers : ∀ (a : Case) (f : Forest), Covers (a.uses f) a.parts
  | ⟨_, ss⟩, f => Stmt.covers_all ss f

theorem Stmt.covers_all : ∀ (ss : List Stmt) (f : Forest),
    Covers (Stmt.usesAll ss f) (Stmt.partsAll ss)
  | [], _ => .nil
  | s :: r, f => (s.covers f).append (Stmt.covers_all r f)

theorem Case.covers_all : ∀ (cs : List Case) (f : Forest),
    Covers (Case.usesAll cs f) (Case.partsAll cs)
  | [], _ => .nil
  | a :: r, f => (a.covers f).append (Case.covers_all r f)

end

theorem FnDecl.covers (g : FnDecl) (f : Forest) : Covers (g.uses f) g.parts := by
  have hb : ∀ b : Option Block, Covers (Block.usesOpt b (f.enterFn g)) (Block.partsOpt b) := by
    intro b
    cases b with
    | none => exact .nil
    | some b => exact b.covers _
  have hhead := (g.result.covers f).append (VarDecl.covers_all (f.enterFn g) g.formals)
  exact (hhead.append (hb g.body)).behind rfl

/-- Of a class, the names of the members that are no types are looked up, and those in its head. -/
theorem ClassDecl.covers (c : ClassDecl) (f : Forest) : Covers (c.uses f) (Decl.cls c).reached := by
  have hmember : ∀ (d : Decl) (g : Forest), d.isType = false →
      Covers (d.usesAsMember g) d.parts := by
    intro d g hd
    cases d with
    | var v => exact (v.type.covers g).behind rfl
    | fn m => exact m.covers g
    | iface _ => cases hd
    | cls _ => cases hd
  -- Nested types are members too, but they are visited for themselves.
  have hskip : ∀ (ms : List Decl) (g : Forest), ms.flatMap (Decl.usesAsMember g) =
      (ms.filter fun d => !d.isType).flatMap (Decl.usesAsMember g) := by
    intro ms g
    induction ms with
    | nil => rfl
    | cons d ms ih =>
      rw [List.flatMap_cons, ih]
      cases d <;> rfl
  have hnames : ∀ (s : Sought) (is : List Ident),
      (is.map fun i => f.use i s).filterMap Finding.ident? = is := by
    intro s is
    rw [List.filterMap_map]
    exact List.filterMap_some
  have hhead : Covers (c.base.toList.map (fun b => f.use b .cls) ++
      c.interfaces.map fun i => f.use i .iface) [.decl (.cls c)] := by
    constructor
    · rw [List.filterMap_append, hnames, hnames]
      exact .of_eq (List.append_nil _).symm
    · intro d hd
      rcases List.mem_append.mp hd with hd | hd <;>
        · obtain ⟨i, -, e⟩ := List.mem_map.mp hd
          cases e
  refine Covers.swap ?_ hhead
  rw [hskip]
  refine .flatMap fun d hd => hmember d _ ?_
  have := (List.mem_filter.mp hd).2
  rwa [Bool.not_eq_true'] at this

/-- What is wrong with the head of `main` is no matter of names. -/
theorem FnDecl.covers_main (g : FnDecl) : Covers g.mainFaults [] := by
  have hone : ∀ (b : Bool) {x : Diagnostic}, x.isNotDeclared = false →
      Covers (if b then [] else [.fault x]) [] := by
    intro b x hx
    cases b with
    | true => exact .nil
    | false =>
      refine ⟨.nil, fun d hd => ?_⟩
      cases List.mem_singleton.mp hd
      exact hx
  unfold FnDecl.mainFaults
  split
  · exact (hone _ rfl).append (hone _ rfl)
  · exact .nil

/-- **The names of a declaration are looked up,** each once. -/
theorem Decl.covers (d : Decl) (f : Forest) : Covers (d.uses f) d.reached := by
  cases d with
  | var v => exact (v.type.covers f).behind rfl
  | cls c => exact c.covers f
  | iface i => exact (Covers.flatMap fun g _ => g.covers _).behind rfl
  | fn g =>
    have := (g.covers f).append g.covers_main
    rwa [List.append_nil] at this

/-! ## 3. Programs -/

namespace Program

variable {p : Program}

theorem covers (p : Program) (f : Forest) : Covers (p.findings f) p.reached :=
  .flatMap fun d _ => d.covers f

/-- The checks of a program leave nothing out and come by nothing twice. -/
structure Visited (p : Program) : Prop where
  /-- Every expression of a body has a type. -/
  typed : ∀ e, Part.expr e ∈ p.bodies → ∃ t, p.analyze.notes.types.get? e.id = some t
  /-- There are as many types as expressions. -/
  types_size : p.analyze.notes.types.size = (p.bodies.filterMap Part.expr?).length
  exprCount_eq : p.analyze.typed.exprCount = (p.bodies.filterMap Part.expr?).length
  /-- Each name without a base is counted, as bound or as not bound. -/
  counts : p.analyze.resolved.boundCount + p.analyze.resolved.unboundCount =
    (p.reached.flatMap Part.lookups).length
  bindings_size : p.analyze.resolved.boundCount = p.analyze.resolved.notes.bindings.size
  unbound_reported :
    p.analyze.resolved.unboundCount = p.analyze.resolved.diagnostics.countP Diagnostic.isNotDeclared
  /-- What a name stands for once, it stands for afterwards; the types do not bind it again. -/
  bound_once : ∀ k d, p.analyze.resolved.notes.bindings.get? k = some d →
    k ∉ p.analyze.typed.report.bindings.map Prod.fst ∧ p.analyze.notes.bindings.get? k = some d

/-- As many types are found as there are expressions. -/
theorem types_length (p : Program) (t : Hierarchy) (f : Forest) (a : Notes) :
    (p.checkTypes t f a).report.types.length = (p.bodies.filterMap Part.expr?).length := by
  have := congrArg List.length (p.types_ids t f a)
  rwa [List.length_map, List.length_map] at this

namespace Numbered

/-- **Everything is come by once.** Every expression in the body of a function or a method gets a
type, and there are no other types. Every name that stands without a base, outside of the classes
and interfaces inside classes, is looked up once, and is bound or reported. No name is bound
twice. -/
theorem visited (h : p.Numbered) : p.Visited := by
  have hn := h.nodup_keys p.scopes p.scopes (.ofProgram p) p.analyze.resolved.notes
  rw [← h.report_eq] at hn
  -- Bound uses, typed nodes and declarations: no two of these keys are equal.
  obtain ⟨hu, hk, hd⟩ := List.nodup_append.mp hn
  have hbound : (Finding.bound (p.findings p.scopes)).Nodup :=
    hu.sublist (Finding.bound_sublist _)
  have hf : p.analyze.resolved.findings = p.findings p.scopes := h.findings_eq
  have hcov := p.covers p.scopes
  constructor
  · intro e he
    obtain ⟨c, hs⟩ := (p.told p.analyze.hierarchy p.analyze.conformance.forest
      (a := p.analyze.resolved.notes) (R := fun _ => True) fun _ => trivial).spot_of_expr he
    exact ⟨_, h.type_at hs⟩
  · rw [← types_length p p.analyze.hierarchy p.analyze.conformance.forest p.analyze.resolved.notes]
    exact (Table.size_insertAll (List.nodup_append.mp hk).1 fun _ _ => rfl).trans (Nat.zero_add _)
  · exact types_length p _ _ _
  · unfold Resolved.boundCount Resolved.unboundCount
    rw [hf, Finding.Covers.counts, hcov.perm.length_eq]
  · unfold Resolved.boundCount
    rw [hf, h.resolved_bindings]
    exact ((Table.size_insertAll hbound fun _ _ => rfl).trans (Nat.zero_add _)).symm
  · unfold Resolved.unboundCount Resolved.diagnostics
    rw [hf]
    exact Finding.Covers.unbound hcov.others
  · intro k d hb
    have hused : k ∈ Finding.used (p.findings p.scopes) := by
      refine (Finding.bound_sublist _).subset ?_
      rw [h.resolved_bindings] at hb
      exact List.mem_map_of_mem
        ((Table.of_get?_insertAll hb).resolve_right (Option.not_mem_none _))
    have hnew : k ∉ p.analyze.typed.report.bindings.map Prod.fst := fun hm =>
      hd k hused k (List.mem_append_right _ hm) rfl
    exact ⟨hnew, (Table.get?_insertAll_of_not_mem hnew).trans hb⟩

end Numbered

end Program

/-- In the knot five of the seven names are bound, and five expressions have types. -/
theorem visited_knot : knot.Numbered ∧ (knot.reached.flatMap Part.lookups).length = 7 ∧
    (knot.bodies.filterMap Part.expr?).length = 5 ∧ knot.analyze.resolved.unboundCount = 2 ∧
    knot.Visited :=
  ⟨Program.number_numbered _, by decide +kernel, by decide +kernel, by decide +kernel,
    (Program.number_numbered _ : knot.Numbered).visited⟩

end DecafLang
