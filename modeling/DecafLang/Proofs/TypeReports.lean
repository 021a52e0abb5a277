import DecafLang.Proofs.Checked
import DecafLang.Proofs.Reentry

/-!
# Reports on types, place by place

The report on the types of a program, told place by place.

* A rule is asked at a `Spot`: about an expression, about what a statement asks of one, or about a
  `break`, each in the context where it stands. **What it says there depends on the spot alone.**
* The report is what is said at the spots, one after the other (`Program.report_told`). The
  expressions among them are those of the bodies, each once and in build order
  (`Program.spots_exprs`).
* What is put together stands where its operands stand (`Program.spots_closed`).
* **Every expression of a body has the type recorded that its spot gives it**
  (`Program.Numbered.type_at`).
-/

namespace DecafLang

/-! ## 1. Expressions -/

namespace Expr

/-- The expressions that an expression is put together from. -/
def operands : Expr → List Expr
  | .binary _ _ l r => [l, r]
  | .unary _ _ x => [x]
  | .step _ _ x => [x]
  | .assign _ t v => [t, v]
  | .index _ b s => [b, s]
  | .field _ b _ => [b]
  | .call _ _ args => args
  | .send _ b _ args => b :: args
  | .newArray _ s _ => [s]
  | _ => []

theorem sizeOf_operand {x : Expr} : ∀ {e : Expr}, x ∈ e.operands → sizeOf x < sizeOf e
  | .binary _ _ _ _, h | .assign _ _ _, h | .index _ _ _, h => by
    rcases List.mem_pair.mp h with rfl | rfl <;> simp only [binary.sizeOf_spec, assign.sizeOf_spec,
      index.sizeOf_spec] <;> omega
  | .unary _ _ _, h | .step _ _ _, h | .field _ _ _, h | .newArray _ _ _, h => by
    obtain rfl := List.mem_singleton.mp h
    simp only [unary.sizeOf_spec, step.sizeOf_spec, field.sizeOf_spec, newArray.sizeOf_spec]
    omega
  | .call _ _ args, h => by
    -- an argument is smaller than the list that it stands in
    have hx : sizeOf x < sizeOf args := List.sizeOf_lt_of_mem h
    simp only [call.sizeOf_spec]
    omega
  | .send _ b _ args, h => by
    simp only [send.sizeOf_spec]
    rcases List.mem_cons.mp h with rfl | h
    · omega
    · have hx : sizeOf x < sizeOf args := List.sizeOf_lt_of_mem h
      omega

/-- What an expression has as soon as its operands have it, every expression has. -/
theorem by_operands {P : Expr → Prop} (h : ∀ e, (∀ x ∈ e.operands, P x) → P e) (e : Expr) : P e :=
  h e fun x _ => by_operands h x
termination_by sizeOf e
decreasing_by exact sizeOf_operand ‹_›

/-- The expressions in an expression; it comes behind its operands. -/
def exprs (e : Expr) : List Expr := e.parts.filterMap Part.expr?

theorem exprs_all (es : List Expr) :
    (partsAll es).filterMap Part.expr? = es.flatMap exprs := by
  induction es with
  | nil => rfl
  | cons e es ih => rw [partsAll, List.filterMap_append, ih, List.flatMap_cons, exprs]

end Expr

theorem Part.mem_exprs {ps : List Part} {e : Expr} :
    e ∈ ps.filterMap Part.expr? ↔ Part.expr e ∈ ps :=
  mem_filterMap_form fun q e => by cases q <;> simp [Part.expr?]

/-- There is no expression in a written type. -/
theorem TypeExpr.exprs_parts (t : TypeExpr) : t.parts.filterMap Part.expr? = [] := by
  induction t with
  | prim _ _ => rfl
  | named _ _ => rfl
  | array _ t ih => rw [parts, List.filterMap_append, ih]; rfl

/-- There is no expression in declarations of variables. -/
theorem VarDecl.exprs_parts (vs : List VarDecl) :
    (vs.flatMap parts).filterMap Part.expr? = [] := by
  induction vs with
  | nil => rfl
  | cons v vs ih =>
    rw [List.flatMap_cons, List.filterMap_append, ih, parts, List.filterMap_append,
      v.type.exprs_parts]
    rfl

namespace Expr

theorem exprs_eq (e : Expr) : e.exprs = e.operands.flatMap exprs ++ [e] := by
  cases e <;> simp [exprs, operands, parts, exprs_all, TypeExpr.exprs_parts, Part.expr?,
    List.filterMap_cons]

theorem self_mem_exprs (e : Expr) : e ∈ e.exprs := by
  rw [exprs_eq]
  exact List.mem_append_right _ (List.mem_singleton_self e)

/-- What stands in an expression brings its operands along. -/
theorem operands_mem_exprs {y z : Expr} (hz : z ∈ y.operands) :
    ∀ e : Expr, y ∈ e.exprs → z ∈ e.exprs := by
  refine by_operands (P := fun e => y ∈ e.exprs → z ∈ e.exprs) fun e ih hy => ?_
  rw [exprs_eq, List.mem_append] at hy ⊢
  rcases hy with hy | hy
  · obtain ⟨x, hx, hy⟩ := List.mem_flatMap.mp hy
    exact .inl (List.mem_flatMap.mpr ⟨x, hx, ih x hx hy⟩)
  · obtain rfl := List.mem_singleton.mp hy
    exact .inl (List.mem_flatMap.mpr ⟨z, hz, z.self_mem_exprs⟩)

/-- What the rule of an expression says about it. -/
def verdict (c : Context) : Expr → Verdict
  | .int _ _ => .ok .int
  | .double _ => .ok .double
  | .bool _ _ => .ok .bool
  | .string _ _ => .ok .string
  | .null _ => .ok .null
  | .this n => c.thisRule n.span
  | .readInteger _ => .ok .int
  | .readLine _ => .ok .string
  | .binary n op l r => c.binaryRule n.span op (l.check c).type (r.check c).type
  | .unary n op x => Context.unaryRule n.span op (x.check c).type
  | .step n op x => Context.stepRule n.span op (x.check c).type
  | .assign n t v => c.assignRule n.span (t.check c).type (v.check c).type
  | .index n b s => Context.indexRule n.span s.span (b.check c).type (s.check c).type
  | .name _ i => c.nameRule i
  | .field _ b i => c.fieldRule (b.check c).type i
  | .call _ i args => c.callRule i (args.map fun e => (e.span, (e.check c).type))
  | .send _ b i args =>
    c.sendRule (b.check c).type i (args.map fun e => (e.span, (e.check c).type))
  | .new _ i => c.newRule i
  | .newArray _ s t => c.newArrayRule s.span (s.check c).type t

end Expr

/-- What a rule adds to the report. -/
def Verdict.note (v : Verdict) (n : Node) : Report :=
  ⟨[(n.id, v.type)], (v.binding.map fun b => (b.1.id, b.2)).toList, v.faults⟩

theorem Report.join_flatMap {α : Type} (l : List α) (g : α → List Report) :
    join (l.flatMap g) = join (l.map fun x => join (g x)) := by
  induction l with
  | nil => rfl
  | cons x l ih =>
    rw [List.flatMap_cons, join_append, ih]
    rfl

section

variable (c : Context)

theorem Expr.check_all_eq (es : List Expr) : Expr.checkAll c es =
    (es.map fun e => (e.span, (e.check c).type),
      Report.join (es.map fun e => (e.check c).report)) := by
  induction es with
  | nil => rfl
  | cons e es ih =>
    rw [Expr.checkAll, ih]
    rfl

/-- An expression is checked by its rule, behind its operands. -/
theorem Expr.check_eq (e : Expr) : e.check c =
    (e.verdict c).at e.node (Report.join (e.operands.map fun x => (x.check c).report)) := by
  cases e with
  | call n i args => rw [Expr.check, Expr.check_all_eq]; rfl
  | send n b i args => rw [Expr.check, Expr.check_all_eq]; rfl
  | binary _ _ l r | assign _ l r | index _ l r =>
    show Expr.check c _ = Verdict.at _ _ ((l.check c).report ++ ((r.check c).report ++ .empty))
    -- the reports of the operands stand in a row, with nothing behind the last
    rw [Report.append_empty]
    rfl
  | unary _ _ x | step _ _ x | field _ x _ | newArray _ x _ =>
    show Expr.check c _ = Verdict.at _ _ ((x.check c).report ++ .empty)
    rw [Report.append_empty]
    rfl
  | _ => rfl

theorem Expr.type_eq (e : Expr) : (e.check c).type = (e.verdict c).type := by
  rw [Expr.check_eq]
  rfl

/-- **The report of an expression is what the rules say about the expressions in it.** -/
theorem Expr.report_eq (e : Expr) : (e.check c).report =
    Report.join (e.exprs.map fun x => (x.verdict c).note x.node) := by
  refine Expr.by_operands (P := fun e => (e.check c).report =
    Report.join (e.exprs.map fun x => (x.verdict c).note x.node)) (fun e ih => ?_) e
  have hs : e.operands.map (fun x => (x.check c).report) = e.operands.map fun x =>
      Report.join (x.exprs.map fun y => (y.verdict c).note y.node) := List.map_congr_left ih
  rw [Expr.check_eq, Expr.exprs_eq, List.map_append, Report.join_append, List.map_flatMap,
    Report.join_flatMap, ← hs]
  exact congrArg (Report.join _ ++ ·) (Report.append_empty _).symm

end

/-! ## 2. Spots -/

/-- What a rule is asked about. -/
inductive Subject where
  | expr (e : Expr)
  | test (e : Expr)
  /-- Values to be printed count from 1. -/
  | printed (k : Nat) (e : Expr)
  | returned (s : Span) (value : Option Expr)
  | leave (s : Span)

/-- A place where a rule is asked. -/
structure Spot where
  context : Context
  subject : Subject

/-- The expressions whose types the rule looks at. -/
def Subject.operands : Subject → List Expr
  | expr e => e.operands
  | test e => [e]
  | printed _ e => [e]
  | returned _ v => v.toList
  | leave _ => []

/-- What a rule says in a context. -/
def Subject.report (c : Context) : Subject → Report
  | expr e => (e.verdict c).note e.node
  | test e => .ofFaults (Context.testFaults e.span (e.check c).type)
  | printed k e => .ofFaults (Context.printFaults k e.span (e.check c).type)
  | returned s none => .ofFaults (c.returnFaults s .void)
  | returned s (some e) => .ofFaults (c.returnFaults s (e.check c).type)
  | leave s => .ofFaults (c.breakFaults s)

namespace Spot

/-- What is said at a spot. -/
def report (s : Spot) : Report := s.subject.report s.context

/-- What is wrong at a spot. -/
def faults (s : Spot) : List Diagnostic := s.report.diagnostics

/-- The expression, if the spot is that of one. -/
def expr? (s : Spot) : Option Expr :=
  match s.subject with
  | .expr e => some e
  | _ => none

end Spot

namespace Expr

/-- The spots of the expressions in an expression. -/
def spots (c : Context) (e : Expr) : List Spot := e.exprs.map fun x => ⟨c, .expr x⟩

/-- The spots of an expression that may be missing. -/
def spotsOpt (c : Context) (e : Option Expr) : List Spot := e.toList.flatMap (spots c)

/-- The spots of a test. -/
def spotsTest (c : Context) (e : Expr) : List Spot := e.spots c ++ [⟨c, .test e⟩]

/-- The spots of values to be printed, counted from a number on. -/
def spotsPrint (c : Context) : Nat → List Expr → List Spot
  | _, [] => []
  | k, e :: r => e.spots c ++ [⟨c, .printed k e⟩] ++ spotsPrint c (k + 1) r

/-- The spots of a value that a function gives. -/
def spotsReturn (c : Context) (s : Span) (e : Option Expr) : List Spot :=
  spotsOpt c e ++ [⟨c, .returned s e⟩]

end Expr

mutual

/-- The spots of a statement. -/
def Stmt.spots : Stmt → Context → List Spot
  | .block b, c => b.spots c
  | .ifThen _ t s, c => t.spotsTest c ++ s.spots c
  | .ifElse _ t s o, c => t.spotsTest c ++ s.spots c ++ o.spots c
  | .while _ t s, c => t.spotsTest c ++ s.spots c.inBreakable
  | .for _ i t u s, c =>
    Expr.spotsOpt c i ++ t.spotsTest c ++ Expr.spotsOpt c u ++ s.spots c.inBreakable
  | .switch _ e cs, c => e.spots c ++ Case.spotsAll cs c.inBreakable
  | .break s, c => [⟨c, .leave s⟩]
  | .ret s e, c => Expr.spotsReturn c s e
  | .print _ es, c => Expr.spotsPrint c 1 es
  | .expr e, c => e.spots c

/-- The spots of a block. -/
def Block.spots : Block → Context → List Spot
  | ⟨n, _, ss⟩, c => Stmt.spotsAll ss (c.inBlock n)

/-- The spots of an arm. -/
def Case.spots : Case → Context → List Spot
  | ⟨_, ss⟩, c => Stmt.spotsAll ss c

/-- The spots of several statements. -/
def Stmt.spotsAll : List Stmt → Context → List Spot
  | [], _ => []
  | s :: r, c => s.spots c ++ Stmt.spotsAll r c

/-- The spots of several arms. -/
def Case.spotsAll : List Case → Context → List Spot
  | [], _ => []
  | a :: r, c => a.spots c ++ Case.spotsAll r c

end

/-- The spots of a body that may be missing. -/
def Block.spotsOpt : Option Block → Context → List Spot
  | none, _ => []
  | some b, c => b.spots c

/-- Where the body of a function is checked, in a forest with its surroundings open. -/
def FnDecl.context (g : FnDecl) (t : Hierarchy) (a : Notes) (f : Forest) : Context :=
  ⟨f.enterFn g, a, t, a.denote g.result, false⟩

/-- The spots of a function. -/
def FnDecl.spots (g : FnDecl) (t : Hierarchy) (a : Notes) (f : Forest) : List Spot :=
  Block.spotsOpt g.body (g.context t a f)

/-- The forest with the class open that a function belongs to, if it belongs to one. -/
def Forest.enterHome (f : Forest) : Option ClassDecl → Forest
  | none => f
  | some c => f.enterClass c

namespace Program

/-- **The spots of a program,** in the order in which they are come by. -/
def spots (p : Program) (t : Hierarchy) (f : Forest) (a : Notes) : List Spot :=
  p.functions.flatMap fun x => x.2.spots t a ((p.visitBodies f).enterHome x.1)

/-- The pieces of the bodies that are checked: those of the functions at the top level and of the
methods of the classes there. -/
def bodies (p : Program) : List Part := p.functions.flatMap fun x => Block.partsOpt x.2.body

end Program

/-! ## 3. The report told at the spots -/

/-- A report is what is said at these spots: they are those of the expressions among some pieces,
each with its operands, and what the functions around them have to give has a property. -/
structure Report.ToldAt (R : Ty → Prop) (r : Report) (l : List Spot) (ps : List Part) : Prop where
  eq_join : r = Report.join (l.map Spot.report)
  exprs_eq : l.filterMap Spot.expr? = ps.filterMap Part.expr?
  closed : ∀ s ∈ l, ∀ e ∈ s.subject.operands, ⟨s.context, .expr e⟩ ∈ l
  result : ∀ s ∈ l, R s.context.result

namespace Report.ToldAt

variable {R : Ty → Prop} {r r' : Report} {l l' : List Spot} {ps ps' : List Part}

theorem empty : Report.empty.ToldAt R [] [] := ⟨rfl, rfl, nofun, nofun⟩

theorem append (h : r.ToldAt R l ps) (h' : r'.ToldAt R l' ps') :
    (r ++ r').ToldAt R (l ++ l') (ps ++ ps') where
  eq_join := by rw [h.eq_join, h'.eq_join, List.map_append, join_append]
  exprs_eq := by rw [List.filterMap_append, List.filterMap_append, h.exprs_eq, h'.exprs_eq]
  closed := List.forall_mem_append.mpr
    ⟨fun s hs e he => List.mem_append_left _ (h.closed s hs e he),
      fun s hs e he => List.mem_append_right _ (h'.closed s hs e he)⟩
  result := List.forall_mem_append.mpr ⟨h.result, h'.result⟩

/-- A statement asks something of operands that stand where it stands. -/
theorem asks (h : r.ToldAt R l ps) {s : Spot} (hs : s.expr? = none)
    (ho : ∀ e ∈ s.subject.operands, ⟨s.context, .expr e⟩ ∈ l) (hr : R s.context.result) :
    (r ++ s.report).ToldAt R (l ++ [s]) ps where
  eq_join := by
    rw [h.eq_join, List.map_append, join_append]
    exact congrArg _ (append_empty _).symm
  exprs_eq := by
    rw [List.filterMap_append, h.exprs_eq, List.filterMap_cons_none hs]
    exact List.append_nil _
  closed := List.forall_mem_append.mpr
    -- the operands of the new spot were told before
    ⟨fun s' hs e he => List.mem_append_left _ (h.closed s' hs e he),
      List.forall_mem_singleton.mpr fun e he => List.mem_append_left _ (ho e he)⟩
  result := List.forall_mem_append.mpr ⟨h.result, List.forall_mem_singleton.mpr hr⟩

/-- The expressions among the pieces have their spots. -/
theorem spot_of_expr (h : r.ToldAt R l ps) {e : Expr} (he : Part.expr e ∈ ps) :
    ∃ c, ⟨c, .expr e⟩ ∈ l := by
  have hm := Part.mem_exprs.mpr he
  rw [← h.exprs_eq] at hm
  obtain ⟨⟨c, s⟩, hs, hx⟩ := List.mem_filterMap.mp hm
  cases s with
  | expr x =>
    cases hx
    exact ⟨c, hs⟩
  | _ => cases hx

/-- Pieces among which there is no expression. -/
theorem among (h : r.ToldAt R l ps) (e : ps'.filterMap Part.expr? = ps.filterMap Part.expr?) :
    r.ToldAt R l ps' := ⟨h.eq_join, h.exprs_eq.trans e.symm, h.closed, h.result⟩

end Report.ToldAt

section

variable {R : Ty → Prop} {c : Context}

/-- **An expression is told at the spots of the expressions in it.** -/
theorem Expr.told (hr : R c.result) (e : Expr) :
    (e.check c).report.ToldAt R (e.spots c) e.parts where
  eq_join := by
    rw [e.report_eq, spots, List.map_map]
    rfl
  exprs_eq := by
    rw [spots, List.filterMap_map]
    exact List.filterMap_some
  closed := by
    intro s hs x hx
    obtain ⟨y, hy, rfl⟩ := List.mem_map.mp hs
    exact List.mem_map.mpr ⟨x, operands_mem_exprs hx e hy, rfl⟩
  result := by
    intro s hs
    obtain ⟨y, -, rfl⟩ := List.mem_map.mp hs
    exact hr

theorem Expr.self_mem_spots (c : Context) (e : Expr) : ⟨c, .expr e⟩ ∈ e.spots c :=
  List.mem_map.mpr ⟨e, e.self_mem_exprs, rfl⟩

theorem Expr.told_opt (hr : R c.result) (e : Option Expr) :
    (Expr.checkOpt c e).ToldAt R (Expr.spotsOpt c e) (Expr.partsOpt e) := by
  cases e with
  | none => exact .empty
  | some e =>
    show Report.ToldAt R _ (e.spots c ++ []) _
    rw [List.append_nil]
    exact e.told hr

theorem Expr.told_test (hr : R c.result) (e : Expr) :
    (e.checkTest c).ToldAt R (e.spotsTest c) e.parts :=
  (e.told hr).asks (s := ⟨c, .test e⟩) rfl
    (List.forall_mem_singleton.mpr (e.self_mem_spots c)) hr

theorem Expr.told_print (hr : R c.result) (es : List Expr) (k : Nat) :
    (Expr.checkPrint c k es).ToldAt R (Expr.spotsPrint c k es) (Expr.partsAll es) := by
  induction es generalizing k with
  | nil => exact .empty
  | cons e es ih =>
    exact ((e.told hr).asks (s := ⟨c, .printed k e⟩) rfl
      (List.forall_mem_singleton.mpr (e.self_mem_spots c)) hr).append (ih (k + 1))

theorem Expr.told_return (hr : R c.result) (s : Span) (e : Option Expr) :
    (Expr.checkReturn c s e).ToldAt R (Expr.spotsReturn c s e) (Expr.partsOpt e) := by
  cases e with
  | none => exact Report.ToldAt.empty.asks (s := ⟨c, .returned s none⟩) rfl nofun hr
  | some e =>
    refine (Expr.told_opt hr (some e)).asks (s := ⟨c, .returned s (some e)⟩) rfl ?_ hr
    exact List.forall_mem_singleton.mpr (List.mem_append_left _ (e.self_mem_spots c))

end

section

variable {R : Ty → Prop}

mutual

/-- **A statement is told at its spots.** -/
theorem Stmt.told : ∀ (s : Stmt) {c : Context}, R c.result →
    (s.check c).ToldAt R (s.spots c) s.parts
  | .block b, _, hr => b.told hr
  | .ifThen _ t s, _, hr => (t.told_test hr).append (s.told hr)
  | .ifElse _ t s o, _, hr => ((t.told_test hr).append (s.told hr)).append (o.told hr)
  | .while _ t s, c, hr => (t.told_test hr).append (s.told (c := c.inBreakable) hr)
  | .for _ i t u s, c, hr =>
    (((Expr.told_opt hr i).append (t.told_test hr)).append (Expr.told_opt hr u)).append
      (s.told (c := c.inBreakable) hr)
  | .switch _ e cs, c, hr => (e.told hr).append (Case.told_all cs (c := c.inBreakable) hr)
  | .break s, c, hr => Report.ToldAt.empty.asks (s := ⟨c, .leave s⟩) rfl nofun hr
  | .ret s e, _, hr => Expr.told_return hr s e
  | .print _ es, _, hr => Expr.told_print hr es 1
  | .expr e, _, hr => e.told hr

theorem Block.told : ∀ (b : Block) {c : Context}, R c.result →
    (b.check c).ToldAt R (b.spots c) b.parts
  | ⟨n, ls, ss⟩, c, hr => (Stmt.told_all ss (c := c.inBlock n) hr).among (by
      rw [Block.parts, List.filterMap_append, List.filterMap_append, VarDecl.exprs_parts]
      exact List.append_nil _)

theorem Case.told : ∀ (a : Case) {c : Context}, R c.result →
    (a.check c).ToldAt R (a.spots c) a.parts
  | ⟨_, ss⟩, _, hr => Stmt.told_all ss hr

theorem Stmt.told_all : ∀ (ss : List Stmt) {c : Context}, R c.result →
    (Stmt.checkAll ss c).ToldAt R (Stmt.spotsAll ss c) (Stmt.partsAll ss)
  | [], _, _ => .empty
  | s :: r, _, hr => (s.told hr).append (Stmt.told_all r hr)

theorem Case.told_all : ∀ (cs : List Case) {c : Context}, R c.result →
    (Case.checkAll cs c).ToldAt R (Case.spotsAll cs c) (Case.partsAll cs)
  | [], _, _ => .empty
  | a :: r, _, hr => (a.told hr).append (Case.told_all r hr)

end

/-- A function is told at its spots. -/
theorem FnDecl.told (g : FnDecl) {t : Hierarchy} {a : Notes} (hr : R (a.denote g.result))
    (f : Forest) : (g.check t a f).ToldAt R (g.spots t a f) (Block.partsOpt g.body) := by
  unfold FnDecl.check FnDecl.spots
  cases g.body with
  | none => exact .empty
  | some b => exact b.told (c := g.context t a f) hr

end

/-! ## 4. Programs -/

namespace Program

variable {p : Program} {t : Hierarchy} {f : Forest} {a : Notes} {c : Context} {e : Expr}

theorem check_fns_eq (gs : List FnDecl) (t : Hierarchy) (a : Notes) (f : Forest) :
    FnDecl.checkAll gs t a f = Report.join (gs.map fun g => g.check t a f) := by
  induction gs with
  | nil => rfl
  | cons g gs ih =>
    rw [FnDecl.checkAll, ih]
    rfl

/-- The report of a program is that of its functions. -/
theorem check_functions (p : Program) (t : Hierarchy) (a : Notes) (f : Forest) :
    Decl.checkAll t a f p.decls =
      Report.join (p.functions.map fun x => x.2.check t a (f.enterHome x.1)) := by
  unfold functions
  induction p.decls with
  | nil => rfl
  | cons d ds ih =>
    rw [Decl.checkAll, ih, List.flatMap_cons, List.map_append, Report.join_append]
    congr 1
    cases d with
    | var _ => rfl
    | iface _ => rfl
    | fn g => exact (Report.append_empty _).symm
    -- the methods of a class are checked in its scope
    | cls c =>
      show FnDecl.checkAll c.methods t a (f.enterClass c) = _
      rw [check_fns_eq, List.map_map]
      rfl

/-- Functions that are told at their spots are told so together. -/
theorem told_functions {R : Ty → Prop} (hr : ∀ u, R (a.denote u)) (f : Forest)
    (l : List (Option ClassDecl × FnDecl)) :
    (Report.join (l.map fun x => x.2.check t a (f.enterHome x.1))).ToldAt R
      (l.flatMap fun x => x.2.spots t a (f.enterHome x.1))
      (l.flatMap fun x => Block.partsOpt x.2.body) := by
  induction l with
  | nil => exact .empty
  | cons x l ih => exact (x.2.told (hr _) _).append ih

/-- **The report of a program is told at its spots.** -/
theorem told {R : Ty → Prop} (p : Program) (t : Hierarchy) (f : Forest) (hr : ∀ u, R (a.denote u)) :
    (p.checkTypes t f a).report.ToldAt R (p.spots t f a) p.bodies := by
  show Report.ToldAt R (Decl.checkAll t a (p.visitBodies f) p.decls) _ _
  rw [check_functions]
  exact told_functions hr _ _

section

variable (p t f a)

/-- The report of a program is what is said at its spots, one after the other. -/
theorem report_told : (p.checkTypes t f a).report =
    Report.join ((p.spots t f a).map Spot.report) :=
  (p.told t f (R := fun _ => True) fun _ => trivial).eq_join

/-- The expressions at the spots are those of the bodies, each once. -/
theorem spots_exprs : (p.spots t f a).filterMap Spot.expr? = p.bodies.filterMap Part.expr? :=
  (p.told t f (R := fun _ => True) fun _ => trivial).exprs_eq

/-- What stands at a spot is a piece of the program. -/
theorem expr_of_spot {s : Spot} (hs : s ∈ p.spots t f a) {e : Expr} (he : s.expr? = some e) :
    Part.expr e ∈ p.parts := by
  have hm : e ∈ p.bodies.filterMap Part.expr? := by
    rw [← spots_exprs p t f a]
    exact List.mem_filterMap.mpr ⟨s, hs, he⟩
  obtain ⟨x, hx, hq⟩ := List.mem_flatMap.mp (Part.mem_exprs.mp hm)
  exact body_subset hx hq

/-- What is put together stands where its operands stand. -/
theorem spots_closed : ∀ s ∈ p.spots t f a, ∀ e ∈ s.subject.operands,
    ⟨s.context, .expr e⟩ ∈ p.spots t f a :=
  (p.told t f (R := fun _ => True) fun _ => trivial).closed

end

theorem diagnostics_join (rs : List Report) :
    (Report.join rs).diagnostics = rs.flatMap Report.diagnostics := by
  induction rs with
  | nil => rfl
  | cons r rs ih => exact congrArg (r.diagnostics ++ ·) ih

theorem bindings_join (rs : List Report) :
    (Report.join rs).bindings = rs.flatMap Report.bindings := by
  induction rs with
  | nil => rfl
  | cons r rs ih => exact congrArg (r.bindings ++ ·) ih

theorem types_join (rs : List Report) : (Report.join rs).types = rs.flatMap Report.types := by
  induction rs with
  | nil => rfl
  | cons r rs ih => exact congrArg (r.types ++ ·) ih

/-- The reports of a program are those of its spots. -/
theorem diagnostics_eq (p : Program) (t : Hierarchy) (f : Forest) (a : Notes) :
    (p.checkTypes t f a).diagnostics = (p.spots t f a).flatMap Spot.faults := by
  unfold TypeChecked.diagnostics
  rw [report_told, diagnostics_join, List.flatMap_map]
  rfl

/-- What gets types are the expressions of the bodies, each once. -/
theorem types_ids (p : Program) (t : Hierarchy) (f : Forest) (a : Notes) :
    (p.checkTypes t f a).report.types.map Prod.fst =
      (p.bodies.filterMap Part.expr?).map Expr.id := by
  -- each spot notes the type of its expression, if it is about one
  have hone : ∀ l : List Spot, (l.flatMap fun s => s.report.types).map Prod.fst =
      (l.filterMap Spot.expr?).map Expr.id := by
    intro l
    induction l with
    | nil => rfl
    | cons s l ih =>
      rw [List.flatMap_cons, List.map_append, ih]
      obtain ⟨c, s⟩ := s
      cases s with
      | returned _ v => cases v <;> rfl
      | _ => rfl
  rw [report_told, types_join, List.flatMap_map, hone, spots_exprs]

/-- The expressions of the bodies have numbers of their own. -/
theorem Numbered.nodup_exprs (h : p.Numbered) :
    ((p.bodies.filterMap Part.expr?).map Expr.id).Nodup := by
  rw [← p.types_ids p.analyze.hierarchy p.analyze.conformance.forest p.analyze.resolved.notes]
  exact h.nodup_typed

/-- **An expression has one spot.** -/
theorem Numbered.spot_alone (h : p.Numbered) {s : Spot} (hs : s ∈ p.spots t f a)
    (he : s.expr? = some e) : ∃ front back, p.spots t f a = front ++ s :: back ∧
      ∀ x ∈ front ++ back, x.expr? ≠ some e := by
  obtain ⟨front, back, hl⟩ := List.append_of_mem hs
  have hn : ((p.spots t f a).filterMap Spot.expr?).Nodup := by
    rw [spots_exprs]
    exact h.nodup_exprs.of_map
  rw [hl, List.filterMap_append, List.filterMap_cons_some he, List.nodup_middle,
    ← List.filterMap_append] at hn
  refine ⟨front, back, hl, fun x hx e => (List.nodup_cons.mp hn).1 ?_⟩
  exact List.mem_filterMap.mpr ⟨x, hx, e⟩

/-- **An expression of a body has the type that it is given where it stands.** -/
theorem Numbered.type_at (h : p.Numbered) (hs : ⟨c, .expr e⟩ ∈ p.spots t f a) :
    (p.checkTypes t f a).notes.types.get? e.id = some (e.check c).type := by
  have hm : (e.id, (e.check c).type) ∈ (p.checkTypes t f a).report.types := by
    rw [report_told, types_join, List.flatMap_map, e.type_eq]
    exact List.mem_flatMap.mpr ⟨_, hs, List.mem_singleton_self _⟩
  have hn := (List.nodup_append.mp (h.nodup_keys f (p.visitBodies f) t a)).2.1
  exact Table.get?_insertAll_of_mem (List.nodup_append.mp hn).1 hm

theorem Numbered.typeOf_at (h : p.Numbered) (hs : ⟨c, .expr e⟩ ∈ p.spots t f a) :
    (p.checkTypes t f a).notes.typeOf e = (e.check c).type := by
  unfold Notes.typeOf
  rw [h.type_at hs]
  rfl

end Program

end DecafLang
