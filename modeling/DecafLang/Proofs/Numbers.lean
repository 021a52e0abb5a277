import Mathlib.Data.List.Pairwise
import DecafLang.Analysis
import DecafLang.Syntax.Parts
import DecafLang.Syntax.Numbering
import DecafLang.Proofs.Scopes

/-!
# Numbers

In a program whose pieces have distinct numbers, a number tells what stands for what.

* **Every node opens one scope,** and every declaration lies in one (`nodup_nodes`,
  `nodup_declared`).
* Every name is looked up once, and every expression gets its type once (`nodup_keys`).

Each fact compares how often a number comes up in a part of the program with how often it comes up
among the pieces of that part.
-/

namespace DecafLang

/-- No two pieces have one number. **Then the checks may visit a program before they look anything
up:** each node has the one scope that declaring the program gave it, so that a walk that enters the
constructs while it looks sees the same (`Program.Numbered.around`, `Program.reads`). -/
def Program.Numbered (p : Program) : Prop := (p.parts.map Part.id).Nodup

/-! ## 1. Scopes -/

/-- The numbers of the pieces. -/
def Part.ids (ps : List Part) : List NodeId := ps.map Part.id

@[simp] theorem Part.ids_append (ps qs : List Part) : ids (ps ++ qs) = ids ps ++ ids qs :=
  List.map_append

@[simp] theorem Part.ids_cons (q : Part) (ps : List Part) : ids (q :: ps) = q.id :: ids ps := rfl

@[simp] theorem Part.ids_nil : ids [] = [] := rfl

variable {k : NodeId}

/-- Variables in a row are as many declarations as they have names. -/
theorem VarDecl.count_le (vs : List VarDecl) :
    ((vs.map Decl.var).map Decl.id).count k ≤ (Part.ids (vs.flatMap VarDecl.parts)).count k := by
  induction vs with
  | nil => exact Nat.le_refl _
  | cons v vs ih =>
    -- the declaration is a piece of its own, next to those of its type
    simp only [List.flatMap_cons, VarDecl.parts, Part.ids_append, List.count_append, List.map_cons,
      List.count_cons, Part.ids_cons, Part.ids_nil, Part.id] at ih ⊢
    omega

mutual

/-- **A number opens a scope or a declaration of a statement only where it is a piece of it.** -/
theorem Stmt.count_openings : ∀ s : Stmt,
    (s.openings.map Opening.node).count k + (Opening.declared s.openings).count k
      ≤ (Part.ids s.parts).count k
  | .block b => b.count_openings
  | .ifThen _ t s => by
    have := s.count_openings
    simp only [Stmt.openings, Stmt.parts, Part.ids_append, List.count_append]
    omega
  | .ifElse _ t s o => by
    have := s.count_openings
    have := o.count_openings
    simp only [Stmt.openings, Stmt.parts, Part.ids_append, List.map_append, List.count_append,
      Opening.declared_append]
    omega
  | .while _ t s => by
    have := s.count_openings
    simp only [Stmt.openings, Stmt.parts, Part.ids_append, List.count_append]
    omega
  | .for _ i t u s => by
    have := s.count_openings
    simp only [Stmt.openings, Stmt.parts, Part.ids_append, List.count_append]
    omega
  | .switch _ e cs => by
    have := Case.count_openings_all cs
    simp only [Stmt.openings, Stmt.parts, Part.ids_append, List.count_append]
    omega
  | .break _ => Nat.zero_le _
  | .ret _ _ => Nat.zero_le _
  | .print _ _ => Nat.zero_le _
  | .expr _ => Nat.zero_le _

/-- A block opens one scope, and its variables are declared in it. -/
theorem Block.count_openings : ∀ b : Block,
    (b.openings.map Opening.node).count k + (Opening.declared b.openings).count k
      ≤ (Part.ids b.parts).count k
  | ⟨n, ls, ss⟩ => by
    have := Stmt.count_openings_all ss
    -- the node of the block opens its scope, and the variables are declared there
    have := VarDecl.count_le (k := k) ls
    simp only [Block.openings, Block.parts, Part.ids_append, List.count_append, List.map_cons,
      List.count_cons, Opening.declared_cons, Scope.holding, List.count_nil,
      Part.ids_cons, Part.ids_nil, Part.id]
    omega

theorem Case.count_openings : ∀ c : Case,
    (c.openings.map Opening.node).count k + (Opening.declared c.openings).count k
      ≤ (Part.ids c.parts).count k
  | ⟨_, ss⟩ => Stmt.count_openings_all ss

/-- The count adds up over statements in a row. -/
theorem Stmt.count_openings_all : ∀ ss : List Stmt,
    ((Stmt.openingsAll ss).map Opening.node).count k
        + (Opening.declared (Stmt.openingsAll ss)).count k
      ≤ (Part.ids (Stmt.partsAll ss)).count k
  | [] => Nat.zero_le _
  | s :: r => by
    have := s.count_openings
    have := Stmt.count_openings_all r
    simp only [Stmt.openingsAll, Stmt.partsAll, Part.ids_append, List.map_append, List.count_append,
      Opening.declared_append]
    omega

/-- It adds up over the arms of a switch. -/
theorem Case.count_openings_all : ∀ cs : List Case,
    ((Case.openingsAll cs).map Opening.node).count k
        + (Opening.declared (Case.openingsAll cs)).count k
      ≤ (Part.ids (Case.partsAll cs)).count k
  | [] => Nat.zero_le _
  | c :: r => by
    have := c.count_openings
    have := Case.count_openings_all r
    simp only [Case.openingsAll, Case.partsAll, Part.ids_append, List.map_append, List.count_append,
      Opening.declared_append]
    omega

end

theorem Block.count_openings_opt : ∀ b : Option Block,
    ((Block.openingsOpt b).map Opening.node).count k
        + (Opening.declared (Block.openingsOpt b)).count k
      ≤ (Part.ids (Block.partsOpt b)).count k
  | none => Nat.zero_le _
  | some b => b.count_openings

/-- The nodes that open scopes are pieces, and so are the declarations, **but the node of a
function or a class is at once a declaration.** -/
theorem FnDecl.count_openings (g : FnDecl) :
    (g.openings.map Opening.node).count k ≤ (Part.ids g.parts).count k ∧
      (g.id :: Opening.declared g.openings).count k ≤ (Part.ids g.parts).count k := by
  have := Block.count_openings_opt (k := k) g.body
  have := VarDecl.count_le (k := k) g.formals
  simp only [FnDecl.openings, FnDecl.parts, Part.ids_append, List.count_append, List.map_cons,
    List.count_cons, Opening.declared_cons, Scope.holding, List.count_nil, Part.ids_cons,
    Part.ids_nil, Part.id, Decl.id, Decl.node, FnDecl.id]
  omega

/-- The count adds up over functions in a row, which are declarations themselves. -/
theorem FnDecl.count_openings_all (gs : List FnDecl) :
    ((gs.flatMap FnDecl.openings).map Opening.node).count k
        ≤ (Part.ids (gs.flatMap FnDecl.parts)).count k ∧
      ((gs.map Decl.fn).map Decl.id ++ Opening.declared (gs.flatMap FnDecl.openings)).count k
        ≤ (Part.ids (gs.flatMap FnDecl.parts)).count k := by
  induction gs with
  | nil => exact ⟨Nat.le_refl _, Nat.le_refl _⟩
  | cons g gs ih =>
    have hg := g.count_openings (k := k)
    simp only [List.flatMap_cons, Part.ids_append, List.map_append, List.count_append,
      List.map_cons, List.count_cons, Opening.declared_append, Decl.id, Decl.node, FnDecl.id]
      at ih hg ⊢
    omega

/-- An interface opens a scope, and its methods are declared in it. -/
theorem IfaceDecl.count_openings (i : IfaceDecl) :
    (i.openings.map Opening.node).count k ≤ (Part.ids i.parts).count k ∧
      (i.node.id :: Opening.declared i.openings).count k ≤ (Part.ids i.parts).count k := by
  have := FnDecl.count_openings_all (k := k) i.members
  simp only [IfaceDecl.openings, IfaceDecl.parts, Part.ids_append, List.count_append,
    List.map_cons, List.count_cons, Opening.declared_cons, Scope.holding, List.count_nil,
    Part.ids_cons, Part.ids_nil, Part.id, Decl.id, Decl.node] at this ⊢
  omega

mutual

/-- **A number is that of a scope or of a declaration only where it is a piece of the program.** -/
theorem Decl.count_openings : ∀ d : Decl,
    (d.openings.map Opening.node).count k ≤ (Part.ids d.parts).count k ∧
      (d.id :: Opening.declared d.openings).count k ≤ (Part.ids d.parts).count k
  | .var v => by
    have := VarDecl.count_le (k := k) [v]
    rw [List.flatMap_singleton] at this
    exact ⟨Nat.zero_le _, this⟩
  | .fn g => g.count_openings
  | .iface i => i.count_openings
  | .cls c => c.count_openings

/-- A class opens a scope, and its members are declared in it. -/
theorem ClassDecl.count_openings : ∀ c : ClassDecl,
    (c.openings.map Opening.node).count k ≤ (Part.ids c.parts).count k ∧
      (c.node.id :: Opening.declared c.openings).count k ≤ (Part.ids c.parts).count k
  | ⟨n, i, b, is, ms⟩ => by
    -- the number of the class itself is counted as a declaration of the scope around
    have := Decl.count_openings_all ms
    simp only [ClassDecl.openings, ClassDecl.parts, ClassDecl.heading, Scope.addAll,
      List.nil_append, Part.ids_append, List.count_append, List.map_cons, List.count_cons,
      Opening.declared_cons, List.count_nil, Part.ids_cons, Part.ids_nil, Part.id, Decl.id,
      Decl.node] at this ⊢
    omega

/-- The count adds up over declarations in a row. -/
theorem Decl.count_openings_all : ∀ ds : List Decl,
    ((Decl.openingsAll ds).map Opening.node).count k ≤ (Part.ids (Decl.partsAll ds)).count k ∧
      (ds.map Decl.id ++ Opening.declared (Decl.openingsAll ds)).count k
        ≤ (Part.ids (Decl.partsAll ds)).count k
  | [] => ⟨Nat.le_refl _, Nat.le_refl _⟩
  | d :: r => by
    have := d.count_openings
    have := Decl.count_openings_all r
    simp only [Decl.openingsAll, Decl.partsAll, Part.ids_append, List.map_append,
      List.count_append, List.map_cons, List.count_cons, Opening.declared_append] at *
    omega

end

/-! ## 2. Names and types -/

/-- The numbers of the names that are bound. -/
def Finding.bound (l : List Finding) : List NodeId := (l.filterMap Finding.binding?).map Prod.fst

/-- The numbers that a report has something for. -/
def Report.keys (r : Report) : List NodeId := r.types.map Prod.fst ++ r.bindings.map Prod.fst

/-- The name that is looked up, if one is. -/
def Finding.ident? : Finding → Option Ident
  | use i _ _ => some i
  | fault _ => none

/-- The numbers of the names that are looked up. -/
def Finding.used (l : List Finding) : List NodeId := (l.filterMap Finding.ident?).map Ident.id

/-- What is bound has been looked up. -/
theorem Finding.bound_sublist (l : List Finding) : (bound l).Sublist (used l) := by
  induction l with
  | nil => exact .slnil
  | cons x l ih =>
    cases x with
    | fault _ => exact ih
    | use i s d =>
      cases d with
      | none => exact ih.cons i.id
      | some _ => exact ih.cons_cons i.id

@[simp] theorem Finding.used_append (l l' : List Finding) : used (l ++ l') = used l ++ used l' := by
  simp only [used, List.filterMap_append, List.map_append]

@[simp] theorem Finding.used_nil : used [] = [] := rfl

/-- A name that is looked up counts once, if at all. -/
theorem Finding.count_use (f : Forest) (i : Ident) (s : Sought) (l : List Finding) :
    (used (f.use i s :: l)).count k ≤ [i.id].count k + (used l).count k := by
  rw [← List.count_append]
  exact Nat.le_refl _

namespace Report

/-- The keys of reports in a row add up. -/
@[simp] theorem count_append (r s : Report) :
    (r ++ s).keys.count k = r.keys.count k + s.keys.count k := by
  show ((r.types ++ s.types).map Prod.fst ++ (r.bindings ++ s.bindings).map Prod.fst).count k = _
  simp only [keys, List.map_append, List.count_append]
  omega

@[simp] theorem count_empty : (Report.empty).keys.count k = 0 := rfl

@[simp] theorem count_faults (ds : List Diagnostic) : (Report.ofFaults ds).keys.count k = 0 := rfl

end Report

namespace Verdict

/-- A rule binds no other name than this one. -/
def Binds (v : Verdict) (i : Option Ident) : Prop := ∀ b, v.binding = some b → i = some b.1

/-- A verdict without a binding binds nothing else either. -/
theorem Binds.of_none {v : Verdict} {i : Option Ident} (h : v.binding = none) : v.Binds i :=
  fun b hb => by
    rw [h] at hb
    cases hb

/-- A verdict that binds this identifier binds no other. -/
theorem Binds.of_some {v : Verdict} {i : Ident} {d : Decl} (h : v.binding = some (i, d)) :
    v.Binds (some i) := by
  intro b hb
  rw [h] at hb
  rw [← Option.some.inj hb]

/-- **A verdict at a node adds the number of the node and that of the name it may bind.** -/
theorem Binds.count_at {v : Verdict} {i : Option Ident} (h : v.Binds i) (n : Node) (r : Report) :
    (v.at n r).report.keys.count k
      ≤ r.keys.count k + [n.id].count k + (i.toList.map Ident.id).count k := by
  show (r ++ ⟨[(n.id, v.type)], _, v.faults⟩ : Report).keys.count k ≤ _
  rw [Report.count_append]
  -- the keys are the node, and the bound identifier if there is one
  cases hb : v.binding with
  | none =>
    simp only [Report.keys, Option.map_none, Option.toList_none, List.map_nil, List.append_nil,
      List.map_cons]
    omega
  | some b =>
    rw [h b hb]
    simp only [Report.keys, Option.map_some, Option.toList_some, List.map_nil, List.map_cons,
      List.count_append]
    omega

end Verdict

namespace Context

variable (c : Context) (s : Span)

/-- Operators bind no name. -/
theorem binds_binary (op : BinaryOp) (l r : Ty) : (c.binaryRule s op l r).Binds none := by
  refine .of_none ?_
  unfold binaryRule
  cases op.opClass <;> rfl

theorem binds_unary (op : UnaryOp) (t : Ty) : (unaryRule s op t).Binds none := by
  cases op <;> exact .of_none rfl

theorem binds_step (op : StepOp) (t : Ty) : (stepRule s op t).Binds none := by
  cases t <;> exact .of_none rfl

theorem binds_index (s' : Span) (t t' : Ty) : (indexRule s s' t t').Binds none := by
  cases t <;> exact .of_none rfl

theorem binds_this : (c.thisRule s).Binds none := by
  refine .of_none ?_
  unfold thisRule
  cases c.forest.enclosingClass? <;> rfl

theorem binds_new (i : Ident) : (c.newRule i).Binds none := by
  refine .of_none ?_
  unfold newRule
  split <;> rfl

theorem binds_name (i : Ident) : (c.nameRule i).Binds none := by
  refine .of_none ?_
  unfold nameRule
  split <;> rfl

theorem binds_call (i : Ident) (args : List (Span × Ty)) : (c.callRule i args).Binds none := by
  refine .of_none ?_
  unfold callRule
  cases c.notes.fn? i <;> rfl

/-- A field binds the name behind the dot, or nothing. -/
theorem binds_field (t : Ty) (i : Ident) : (c.fieldRule t i).Binds (some i) := by
  -- every way through the rule either finds the member and binds it, or binds nothing
  unfold fieldRule
  split
  · exact .of_none rfl
  · split
    · split
      · exact .of_none rfl
      · dsimp only
        split
        · split
          · exact .of_some rfl
          · exact .of_none rfl
        · exact .of_none rfl
    · exact .of_none rfl
  · exact .of_none rfl

/-- So does a method. -/
theorem binds_method (t : Ty) (i : Ident) (args : List (Span × Ty)) :
    (c.methodRule t i args).Binds (some i) := by
  unfold methodRule
  split
  · exact .of_some rfl
  · exact .of_none rfl

/-- A call behind a dot binds the name of the method, or nothing. -/
theorem binds_send (t : Ty) (i : Ident) (args : List (Span × Ty)) :
    (c.sendRule t i args).Binds (some i) := by
  unfold sendRule
  split
  · exact .of_none rfl
  · split
    · exact .of_none rfl
    · exact c.binds_method _ i args
  · exact c.binds_method _ i args

end Context

/-- The name in a type is a piece of the type. -/
theorem TypeExpr.count_uses (f : Forest) (t : TypeExpr) :
    (Finding.used (t.uses f)).count k ≤ (Part.ids t.parts).count k := by
  induction t with
  | prim _ _ => exact Nat.zero_le _
  | named n i =>
    have := Finding.count_use (k := k) f i .type []
    simp only [TypeExpr.uses, TypeExpr.parts, Part.ids_cons, Part.ids_nil, Part.id,
      Finding.used_nil, List.count_cons, List.count_nil] at this ⊢
    omega
  | array n t ih =>
    simp only [TypeExpr.uses, TypeExpr.parts, Part.ids_append, List.count_append]
    omega

mutual

/-- **What is found out about an expression belongs to the numbers of its pieces.** -/
theorem Expr.count_keys (f : Forest) (c : Context) : ∀ e : Expr,
    (Finding.used (e.uses f)).count k + (e.check c).report.keys.count k
      ≤ (Part.ids e.parts).count k
  | .int n _ => Nat.le_of_eq (Nat.zero_add _)
  | .double n => Nat.le_of_eq (Nat.zero_add _)
  | .bool n _ => Nat.le_of_eq (Nat.zero_add _)
  | .string n _ => Nat.le_of_eq (Nat.zero_add _)
  | .null n => Nat.le_of_eq (Nat.zero_add _)
  | .readInteger n => Nat.le_of_eq (Nat.zero_add _)
  | .readLine n => Nat.le_of_eq (Nat.zero_add _)
  | .this n => by
    have := (c.binds_this n.span).count_at (k := k) n .empty
    simp [Expr.uses, Expr.check, Expr.parts, Part.id, Expr.id, Expr.node, List.count_cons] at *
    omega
  | .binary n op l r => by
    -- each node adds its own number, and its operands add theirs
    have := (c.binds_binary n.span op (l.check c).type (r.check c).type).count_at (k := k) n
      ((l.check c).report ++ (r.check c).report)
    have := l.count_keys f c
    have := r.count_keys f c
    simp [Expr.uses, Expr.check, Expr.parts, Part.id, Expr.id, Expr.node, List.count_cons] at *
    omega
  | .unary n op x => by
    have := (Context.binds_unary n.span op (x.check c).type).count_at (k := k) n (x.check c).report
    have := x.count_keys f c
    simp [Expr.uses, Expr.check, Expr.parts, Part.id, Expr.id, Expr.node, List.count_cons] at *
    omega
  | .step n op x => by
    have := (Context.binds_step n.span op (x.check c).type).count_at (k := k) n (x.check c).report
    have := x.count_keys f c
    simp [Expr.uses, Expr.check, Expr.parts, Part.id, Expr.id, Expr.node, List.count_cons] at *
    omega
  | .assign n t v => by
    have := (Verdict.Binds.of_none (i := none)
      (v := c.assignRule n.span (t.check c).type (v.check c).type) rfl).count_at (k := k) n
      ((t.check c).report ++ (v.check c).report)
    have := t.count_keys f c
    have := v.count_keys f c
    simp [Expr.uses, Expr.check, Expr.parts, Part.id, Expr.id, Expr.node, List.count_cons] at *
    omega
  | .index n b s => by
    have := (Context.binds_index n.span s.span (b.check c).type (s.check c).type).count_at
      (k := k) n ((b.check c).report ++ (s.check c).report)
    have := b.count_keys f c
    have := s.count_keys f c
    simp [Expr.uses, Expr.check, Expr.parts, Part.id, Expr.id, Expr.node, List.count_cons] at *
    omega
  | .name n i => by
    have := (c.binds_name i).count_at (k := k) n .empty
    have := Finding.count_use (k := k) f i .var []
    simp [Expr.uses, Expr.check, Expr.parts, Part.id, Expr.id, Expr.node, List.count_cons] at *
    omega
  | .field n b i => by
    have := (c.binds_field (b.check c).type i).count_at (k := k) n (b.check c).report
    have := b.count_keys f c
    simp [Expr.uses, Expr.check, Expr.parts, Part.id, Expr.id, Expr.node, List.count_cons] at *
    omega
  | .call n i args => by
    have := (c.binds_call i (Expr.checkAll c args).1).count_at (k := k) n (Expr.checkAll c args).2
    have := Finding.count_use (k := k) f i .fn (Expr.usesAll f args)
    have := Expr.count_keys_all f c args
    simp [Expr.uses, Expr.check, Expr.parts, Part.id, Expr.id, Expr.node, List.count_cons] at *
    omega
  | .send n b i args => by
    have := (c.binds_send (b.check c).type i (Expr.checkAll c args).1).count_at (k := k) n
      ((b.check c).report ++ (Expr.checkAll c args).2)
    have := b.count_keys f c
    have := Expr.count_keys_all f c args
    simp [Expr.uses, Expr.check, Expr.parts, Part.id, Expr.id, Expr.node, List.count_cons] at *
    omega
  | .new n i => by
    have := (c.binds_new i).count_at (k := k) n .empty
    have := Finding.count_use (k := k) f i .cls []
    simp [Expr.uses, Expr.check, Expr.parts, Part.id, Expr.id, Expr.node, List.count_cons] at *
    omega
  | .newArray n s t => by
    have := (Verdict.Binds.of_none (i := none)
      (v := c.newArrayRule s.span (s.check c).type t) rfl).count_at (k := k) n (s.check c).report
    have := s.count_keys f c
    have := t.count_uses (k := k) f
    simp [Expr.uses, Expr.check, Expr.parts, Part.id, Expr.id, Expr.node, List.count_cons] at *
    omega

/-- What is found out about several expressions belongs to the numbers of their pieces. -/
theorem Expr.count_keys_all (f : Forest) (c : Context) : ∀ es : List Expr,
    (Finding.used (Expr.usesAll f es)).count k + (Expr.checkAll c es).2.keys.count k
      ≤ (Part.ids (Expr.partsAll es)).count k
  | [] => Nat.le_refl _
  | e :: r => by
    have := e.count_keys f c
    have := Expr.count_keys_all f c r
    simp only [Expr.usesAll, Expr.checkAll, Expr.partsAll, Part.ids_append, Finding.used_append,
      Report.count_append, List.count_append] at *
    omega

end

/-- The count for an expression that may be missing. -/
theorem Expr.count_keys_opt (f : Forest) (c : Context) : ∀ e : Option Expr,
    (Finding.used (Expr.usesOpt f e)).count k + (Expr.checkOpt c e).keys.count k
      ≤ (Part.ids (Expr.partsOpt e)).count k
  | none => Nat.le_refl _
  | some e => e.count_keys f c

/-- A test adds reports but no keys. -/
theorem Expr.count_keys_test (f : Forest) (c : Context) (e : Expr) :
    (Finding.used (e.uses f)).count k + (e.checkTest c).keys.count k
      ≤ (Part.ids e.parts).count k := by
  have := e.count_keys (k := k) f c
  simp only [Expr.checkTest, Report.count_append, Report.count_faults]
  omega

/-- A return adds reports but no keys. -/
theorem Expr.count_keys_return (f : Forest) (c : Context) (s : Span) : ∀ e : Option Expr,
    (Finding.used (Expr.usesOpt f e)).count k + (Expr.checkReturn c s e).keys.count k
      ≤ (Part.ids (Expr.partsOpt e)).count k
  | none => Nat.le_refl _
  | some e => by
    have := e.count_keys (k := k) f c
    simp only [Expr.usesOpt, Expr.partsOpt, Expr.checkReturn, Report.count_append,
      Report.count_faults]
    omega

/-- The values that are printed are checked in turn. -/
theorem Expr.count_keys_print (f : Forest) (c : Context) (j : Nat) (es : List Expr) :
    (Finding.used (Expr.usesAll f es)).count k + (Expr.checkPrint c j es).keys.count k
      ≤ (Part.ids (Expr.partsAll es)).count k := by
  induction es generalizing j with
  | nil => exact Nat.le_refl _
  | cons e es ih =>
    have := e.count_keys (k := k) f c
    have := ih (j + 1)
    simp only [Expr.usesAll, Expr.checkPrint, Expr.partsAll, Part.ids_append, Finding.used_append,
      Report.count_append, Report.count_faults, List.count_append]
    omega

/-- The types of variables are pieces of their declarations. -/
theorem VarDecl.count_uses (f : Forest) (vs : List VarDecl) :
    (Finding.used (VarDecl.usesAll f vs)).count k
      ≤ (Part.ids (vs.flatMap VarDecl.parts)).count k := by
  induction vs with
  | nil => exact Nat.le_refl _
  | cons v vs ih =>
    have := v.type.count_uses (k := k) f
    simp only [VarDecl.usesAll, List.flatMap_cons, VarDecl.parts, Part.ids_append,
      Finding.used_append, List.count_append] at ih ⊢
    omega

mutual

/-- **In a statement a number is looked up or noted at most as often as it is a piece.** -/
theorem Stmt.count_keys : ∀ (s : Stmt) (f : Forest) (c : Context),
    (Finding.used (s.uses f)).count k + (s.check c).keys.count k ≤ (Part.ids s.parts).count k
  | .block b, f, c => b.count_keys f c
  | .ifThen _ t s, f, c => by
    have := t.count_keys_test (k := k) f c
    have := s.count_keys f c
    simp only [Stmt.uses, Stmt.check, Stmt.parts, Part.ids_append, Finding.used_append,
      Report.count_append, List.count_append]
    omega
  | .ifElse _ t s o, f, c => by
    have := t.count_keys_test (k := k) f c
    have := s.count_keys f c
    have := o.count_keys f c
    simp only [Stmt.uses, Stmt.check, Stmt.parts, Part.ids_append, Finding.used_append,
      Report.count_append, List.count_append]
    omega
  | .while _ t s, f, c => by
    have := t.count_keys_test (k := k) f c
    have := s.count_keys f c.inBreakable
    simp only [Stmt.uses, Stmt.check, Stmt.parts, Part.ids_append, Finding.used_append,
      Report.count_append, List.count_append]
    omega
  | .for _ i t u s, f, c => by
    have := Expr.count_keys_opt (k := k) f c i
    have := t.count_keys_test (k := k) f c
    have := Expr.count_keys_opt (k := k) f c u
    have := s.count_keys f c.inBreakable
    simp only [Stmt.uses, Stmt.check, Stmt.parts, Part.ids_append, Finding.used_append,
      Report.count_append, List.count_append]
    omega
  | .switch _ e cs, f, c => by
    have := e.count_keys (k := k) f c
    have := Case.count_keys_all cs f c.inBreakable
    simp only [Stmt.uses, Stmt.check, Stmt.parts, Part.ids_append, Finding.used_append,
      Report.count_append, List.count_append]
    omega
  | .break _, _, _ => Nat.le_refl _
  | .ret s e, f, c => Expr.count_keys_return f c s e
  | .print _ es, f, c => Expr.count_keys_print f c 1 es
  | .expr e, f, c => e.count_keys f c

/-- The names in a block are those of its variables' types and of its statements. -/
theorem Block.count_keys : ∀ (b : Block) (f : Forest) (c : Context),
    (Finding.used (b.uses f)).count k + (b.check c).keys.count k ≤ (Part.ids b.parts).count k
  | ⟨n, ls, ss⟩, f, c => by
    have := Stmt.count_keys_all ss (f.enter n.id) (c.inBlock n)
    have := VarDecl.count_uses (k := k) (f.enter n.id) ls
    simp only [Block.uses, Block.check, Block.parts, Part.ids_append, Finding.used_append,
      List.count_append]
    omega

theorem Case.count_keys : ∀ (a : Case) (f : Forest) (c : Context),
    (Finding.used (a.uses f)).count k + (a.check c).keys.count k ≤ (Part.ids a.parts).count k
  | ⟨_, ss⟩, f, c => Stmt.count_keys_all ss f c

/-- The count adds up over statements in a row. -/
theorem Stmt.count_keys_all : ∀ (ss : List Stmt) (f : Forest) (c : Context),
    (Finding.used (Stmt.usesAll ss f)).count k + (Stmt.checkAll ss c).keys.count k
      ≤ (Part.ids (Stmt.partsAll ss)).count k
  | [], _, _ => Nat.le_refl _
  | s :: r, f, c => by
    have := s.count_keys f c
    have := Stmt.count_keys_all r f c
    simp only [Stmt.usesAll, Stmt.checkAll, Stmt.partsAll, Part.ids_append, Finding.used_append,
      Report.count_append, List.count_append]
    omega

/-- It adds up over the arms of a switch. -/
theorem Case.count_keys_all : ∀ (cs : List Case) (f : Forest) (c : Context),
    (Finding.used (Case.usesAll cs f)).count k + (Case.checkAll cs c).keys.count k
      ≤ (Part.ids (Case.partsAll cs)).count k
  | [], _, _ => Nat.le_refl _
  | a :: r, f, c => by
    have := a.count_keys f c
    have := Case.count_keys_all r f c
    simp only [Case.usesAll, Case.checkAll, Case.partsAll, Part.ids_append, Finding.used_append,
      Report.count_append, List.count_append]
    omega

end

/-- The head of a function is looked up, and its body is checked. -/
theorem FnDecl.count_keys (g : FnDecl) (f f' : Forest) (h : Hierarchy) (a : Notes) :
    (Finding.used (g.uses f)).count k + (g.check h a f').keys.count k
      ≤ (Part.ids g.parts).count k := by
  -- the body is walked twice: once to look names up, and once to check it
  have hb : ∀ (b : Option Block) (c : Context),
      (Finding.used (Block.usesOpt b (f.enterFn g))).count k + (Block.checkOpt b c).keys.count k
        ≤ (Part.ids (Block.partsOpt b)).count k := fun b c => by
    cases b with
    | none => exact Nat.le_refl _
    | some b => exact b.count_keys _ c
  have := hb g.body ⟨f'.enterFn g, a, h, a.denote g.result, false⟩
  have := g.result.count_uses (k := k) f
  have := VarDecl.count_uses (k := k) (f.enterFn g) g.formals
  simp only [FnDecl.uses, FnDecl.check, FnDecl.parts, Part.ids_append, Finding.used_append,
    List.count_append]
  omega

/-- What is found out about the members of a class: of the methods the types as well. -/
theorem Decl.count_keys_members (ms : List Decl) (f f' : Forest) (h : Hierarchy) (a : Notes) :
    (Finding.used (ms.flatMap (Decl.usesAsMember f))).count k
        + (FnDecl.checkAll (ms.filterMap Decl.fn?) h a f').keys.count k
      ≤ (Part.ids (Decl.partsAll ms)).count k := by
  induction ms with
  | nil => exact Nat.le_refl _
  | cons d ms ih =>
    simp only [List.flatMap_cons, Decl.partsAll, Part.ids_append, Finding.used_append,
      List.count_append]
    -- only fields and methods are checked with the class; nested types are checked on their own
    cases d with
    | var v =>
      have := VarDecl.count_uses (k := k) f [v]
      simp only [VarDecl.usesAll, List.flatMap_singleton] at this
      simp only [List.filterMap_cons, Decl.fn?, Decl.usesAsMember, Decl.parts]
      omega
    | fn g =>
      have := g.count_keys (k := k) f f' h a
      simp only [List.filterMap_cons, Decl.fn?, Decl.usesAsMember, Decl.parts, FnDecl.checkAll,
        Report.count_append]
      omega
    | iface i =>
      simp only [List.filterMap_cons, Decl.fn?, Decl.usesAsMember, Finding.used_nil,
        List.count_nil]
      omega
    | cls c =>
      simp only [List.filterMap_cons, Decl.fn?, Decl.usesAsMember, Finding.used_nil,
        List.count_nil]
      omega

/-- The names in the head of a class are pieces of it. -/
theorem Finding.count_heads (f : Forest) (s : Sought) (is : List Ident) :
    (used (is.map fun i => f.use i s)).count k ≤ (Part.ids (is.map .use)).count k := by
  induction is with
  | nil => exact Nat.le_refl _
  | cons i is ih =>
    have := Finding.count_use (k := k) f i s (is.map fun i => f.use i s)
    simp only [List.map_cons, Part.ids_cons, Part.id, List.count_cons, List.count_nil] at *
    omega

/-- The methods of an interface have heads only. -/
theorem IfaceDecl.count_keys (i : IfaceDecl) (f : Forest) :
    (Finding.used (i.uses f)).count k ≤ (Part.ids i.parts).count k := by
  -- the methods of an interface have no bodies to count
  have : ∀ gs : List FnDecl, (Finding.used (gs.flatMap fun g => g.uses (f.enterIface i))).count k
      ≤ (Part.ids (gs.flatMap FnDecl.parts)).count k := fun gs => by
    induction gs with
    | nil => exact Nat.le_refl _
    | cons g gs ih =>
      have := g.count_keys (k := k) (f.enterIface i) f ⟨[]⟩ .empty
      simp only [List.flatMap_cons, Part.ids_append, Finding.used_append, List.count_append]
      omega
  have := this i.members
  simp only [IfaceDecl.uses, IfaceDecl.parts, Part.ids_append, List.count_append]
  omega

/-- **In a declaration a number is looked up or noted at most as often as it is a piece.** -/
theorem Decl.count_keys (d : Decl) (f f' : Forest) (h : Hierarchy) (a : Notes) :
    (Finding.used (d.uses f)).count k + (d.check h a f').keys.count k
      ≤ (Part.ids d.parts).count k := by
  cases d with
  -- a global variable is looked up, but there is nothing to check
  | var v =>
    have := VarDecl.count_uses (k := k) f [v]
    simp only [VarDecl.usesAll, List.flatMap_singleton] at this
    exact this
  | fn g =>
    have hm : Finding.used g.mainFaults = [] := by
      unfold FnDecl.mainFaults
      repeat' split
      all_goals rfl
    have := g.count_keys (k := k) f f' h a
    simp only [Decl.uses, Decl.check, Decl.parts, Finding.used_append, List.count_append, hm,
      List.count_nil]
    omega
  | iface i =>
    exact i.count_keys f
  | cls c =>
    obtain ⟨n, i, b, is, ms⟩ := c
    have := Decl.count_keys_members (k := k) ms (f.enterClass ⟨n, i, b, is, ms⟩)
      (f'.enterClass ⟨n, i, b, is, ms⟩) h a
    have := Finding.count_heads (k := k) f .cls b.toList
    have := Finding.count_heads (k := k) f .iface is
    simp only [Decl.uses, ClassDecl.uses, Decl.check, ClassDecl.methods, Decl.parts,
      ClassDecl.parts, Part.ids_append, Finding.used_append, List.count_append]
    omega

/-- The count adds up over the declarations of the program. -/
theorem Decl.count_keys_all (ds : List Decl) (f f' : Forest) (h : Hierarchy) (a : Notes) :
    (Finding.used (ds.flatMap (Decl.uses f))).count k + (Decl.checkAll h a f' ds).keys.count k
      ≤ (Part.ids (Decl.partsAll ds)).count k := by
  induction ds with
  | nil => exact Nat.le_refl _
  | cons d ds ih =>
    have := d.count_keys (k := k) f f' h a
    simp only [List.flatMap_cons, Decl.checkAll, Decl.partsAll, Part.ids_append,
      Finding.used_append, Report.count_append, List.count_append]
    omega

/-- In a list without repetitions, an element comes from one place. -/
theorem eq_of_mem_flatMap {α β : Type} {f : α → List β} {l : List α} {a b : α} {x : β}
    (h : (l.flatMap f).Nodup) (ha : a ∈ l) (hb : b ∈ l) (hx : x ∈ f a) (hx' : x ∈ f b) : a = b := by
  have : Std.Symm (Function.onFun List.Disjoint f) := ⟨fun _ _ h _ hx hx' => h hx' hx⟩
  by_contra hne
  exact (List.nodup_flatMap.mp h).2.forall ha hb hne hx hx'

namespace Program

variable {p : Program}

/-- **In a numbered program no number comes up twice.** -/
theorem Numbered.count_le (h : p.Numbered) (k : NodeId) :
    (Part.ids (Decl.partsAll p.decls)).count k ≤ 1 := by
  have := List.nodup_iff_count_le_one.mp h k
  rw [parts, List.map_append, List.count_append] at this
  unfold Part.ids
  omega

/-- Every node opens one scope. -/
theorem Numbered.nodup_nodes (h : p.Numbered) : (p.openings.map Opening.node).Nodup :=
  List.nodup_iff_count_le_one.mpr fun k =>
    Nat.le_trans (Decl.count_openings_all p.decls).1 (h.count_le k)

/-- Every declaration lies in one scope, and once. -/
theorem Numbered.nodup_declared (h : p.Numbered) :
    (p.decls.map Decl.id ++ Opening.declared p.openings).Nodup :=
  List.nodup_iff_count_le_one.mpr fun k =>
    Nat.le_trans (Decl.count_openings_all p.decls).2 (h.count_le k)

/-- No number is looked up twice, gets two types, or is looked up and gets a type. -/
theorem Numbered.nodup_keys (h : p.Numbered) (f f' : Forest) (t : Hierarchy) (a : Notes) :
    (Finding.used (p.findings f) ++ (Decl.checkAll t a f' p.decls).keys).Nodup :=
  List.nodup_iff_count_le_one.mpr fun k => by
    rw [List.count_append]
    exact Nat.le_trans (Decl.count_keys_all p.decls f f' t a) (h.count_le k)

/-- **The declarations of a program leave its scopes behind,** each with what it takes in, and every
clash is reported. -/
theorem Numbered.declare_kept (h : p.Numbered) :
    Forest.empty.Opened (p.declare .empty).forest (Decl.admitted [] p.decls)
        (p.openings.map Opening.kept) ∧
      (p.declare .empty).conflicts = Decl.clashesAll [] p.decls := by
  have hr : Forest.empty.Ready p.openings := ⟨Nat.zero_lt_one, h.nodup_nodes⟩
  have hd := Decl.declares_all p.decls
  exact ⟨hd.opened ⟨.empty, 0, []⟩ hr, hd.reported ⟨.empty, 0, []⟩ hr⟩

/-- **Where no name is taken twice, the scopes take in everything.** -/
theorem Numbered.declare_opened (h : p.Numbered) (hc : (p.declare .empty).conflicts = []) :
    Forest.empty.Opened (p.declare .empty).forest p.decls p.openings := by
  obtain ⟨ho, e⟩ := h.declare_kept
  obtain ⟨hd, hk⟩ := (Decl.declares_all p.decls).clear [] (e.symm.trans hc)
  have hk : p.openings.map Opening.kept = p.openings := hk
  rwa [hd, hk] at ho

end Program

end DecafLang
