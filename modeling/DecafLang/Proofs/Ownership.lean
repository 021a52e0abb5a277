import DecafLang.Proofs.Numbers

/-!
# Whose names they are

**Every name that is used belongs to one piece of the program** (`Program.uses_perm`): to the
expression that it stands in, or to the declaration whose type or head it stands in.

* Where the pieces have numbers of their own, a number belongs to one piece (`eq_owner`).
* What the types bind are names of expressions (`Report.Own`). So they bind no name in the type of
  a declaration, and none in the head of a class.
-/

namespace DecafLang

/-! ## 1. The names of a piece -/

/-- The name in an expression that belongs to none of its parts. -/
def Expr.names : Expr → List Ident
  | .name _ i => [i]
  | .field _ _ i => [i]
  | .call _ i _ => [i]
  | .send _ _ i _ => [i]
  | .new _ i => [i]
  | .newArray _ _ t => t.ident?.toList
  | _ => []

/-- The names in a declaration that belong to none of the declarations in it. -/
def Decl.names : Decl → List Ident
  | .var v => v.type.ident?.toList
  | .fn g => g.result.ident?.toList
  | .iface _ => []
  | .cls c => c.base.toList ++ c.interfaces

namespace Part

/-- The names of a piece. -/
def names : Part → List Ident
  | expr e => e.names
  | decl d => d.names
  | _ => []

/-- The names that are used in the pieces are those of the pieces. -/
def Owned (ps : List Part) : Prop := (ps.filterMap use?).Perm (ps.flatMap names)

/-- Pieces in a row own their names if both parts do. -/
theorem Owned.append {ps qs : List Part} (h : Owned ps) (h' : Owned qs) : Owned (ps ++ qs) := by
  unfold Owned
  rw [List.filterMap_append, List.flatMap_append]
  exact List.Perm.append h h'

/-- So do the pieces of a list, if those of each member do. -/
theorem Owned.flatMap {α : Type} {xs : List α} {parts : α → List Part}
    (h : ∀ x ∈ xs, Owned (parts x)) : Owned (xs.flatMap parts) := by
  induction xs with
  | nil => exact .nil
  | cons x xs ih =>
    obtain ⟨hx, hxs⟩ := List.forall_mem_cons.mp h
    exact hx.append (ih hxs)

end Part

open DecafLang.Part (Owned)

/-- A type uses the name it is about, and no piece of it owns one. -/
theorem TypeExpr.names_parts (t : TypeExpr) :
    t.parts.filterMap Part.use? = t.ident?.toList ∧ t.parts.flatMap Part.names = [] := by
  induction t with
  | prim _ _ => exact ⟨rfl, rfl⟩
  | named _ _ => exact ⟨rfl, rfl⟩
  | array _ t ih =>
    show ((t.parts ++ _).filterMap Part.use?) = _ ∧ (t.parts ++ _).flatMap Part.names = _
    rw [List.filterMap_append, List.flatMap_append, ih.1, ih.2]
    exact ⟨List.append_nil _, rfl⟩

/-- The name in a type belongs to a piece behind the type. -/
theorem TypeExpr.owned (t : TypeExpr) {ps qs : List Part} (h : Owned ps)
    (hu : qs.filterMap Part.use? = []) (hn : qs.flatMap Part.names = t.ident?.toList) :
    Owned (t.parts ++ ps ++ qs) := by
  unfold Owned
  simp only [List.filterMap_append, List.flatMap_append, t.names_parts.1, t.names_parts.2, hu, hn,
    List.append_nil, List.nil_append]
  exact List.perm_append_comm.trans (h.append_right _)

mutual

/-- **In an expression every name that is used is owned by the node where it stands.** -/
theorem Expr.owned : ∀ e : Expr, Owned e.parts
  | .int _ _ => .nil
  | .double _ => .nil
  | .bool _ _ => .nil
  | .string _ _ => .nil
  | .null _ => .nil
  | .this _ => .nil
  | .readInteger _ => .nil
  | .readLine _ => .nil
  | .binary _ _ l r => (l.owned.append r.owned).append .nil
  | .unary _ _ x => x.owned.append .nil
  | .step _ _ x => x.owned.append .nil
  | .assign _ t v => (t.owned.append v.owned).append .nil
  | .index _ b s => (b.owned.append s.owned).append .nil
  | .name _ i => .refl [i]
  | .field _ b i => b.owned.append (.refl [i])
  | .call _ i args => (Expr.owned_all args).append (.refl [i])
  | .send _ b i args => (b.owned.append (Expr.owned_all args)).append (.refl [i])
  | .new _ i => .refl [i]
  | .newArray n s t => by
    have h : Owned (t.parts ++ [] ++ [.expr (.newArray n s t)]) :=
      t.owned .nil rfl (List.append_nil _)
    rw [Expr.parts, List.append_assoc]
    exact s.owned.append (List.append_nil t.parts ▸ h)

/-- The same for expressions in a row. -/
theorem Expr.owned_all : ∀ es : List Expr, Owned (Expr.partsAll es)
  | [] => .nil
  | e :: r => e.owned.append (Expr.owned_all r)

end

theorem Expr.owned_opt : ∀ e : Option Expr, Owned (Expr.partsOpt e)
  | none => .nil
  | some e => e.owned

/-- The name in the type of a variable is owned by its declaration. -/
theorem VarDecl.owned (v : VarDecl) : Owned v.parts := by
  -- a variable has no pieces between its type and itself
  have h : Owned (v.type.parts ++ [] ++ [.declared v.ident, .decl (.var v)]) :=
    v.type.owned .nil rfl (List.append_nil _)
  rw [List.append_nil] at h
  exact h

mutual

/-- **In a statement every name that is used has one owner.** -/
theorem Stmt.owned : ∀ s : Stmt, Owned s.parts
  | .block b => b.owned
  | .ifThen _ t s => t.owned.append s.owned
  | .ifElse _ t s o => (t.owned.append s.owned).append o.owned
  | .while _ t s => t.owned.append s.owned
  | .for _ i t u s =>
    (((Expr.owned_opt i).append t.owned).append (Expr.owned_opt u)).append s.owned
  | .switch _ e cs => e.owned.append (Case.owned_all cs)
  | .break _ => .nil
  | .ret _ e => Expr.owned_opt e
  | .print _ es => Expr.owned_all es
  | .expr e => e.owned

/-- The variables of a block own the names in their types. -/
theorem Block.owned : ∀ b : Block, Owned b.parts
  | ⟨_, _, ss⟩ => ((Owned.flatMap fun v _ => v.owned).append (Stmt.owned_all ss)).append .nil

theorem Case.owned : ∀ c : Case, Owned c.parts
  | ⟨_, ss⟩ => Stmt.owned_all ss

/-- The same for statements in a row. -/
theorem Stmt.owned_all : ∀ ss : List Stmt, Owned (Stmt.partsAll ss)
  | [] => .nil
  | s :: r => s.owned.append (Stmt.owned_all r)

/-- The same for the arms of a switch. -/
theorem Case.owned_all : ∀ cs : List Case, Owned (Case.partsAll cs)
  | [] => .nil
  | c :: r => c.owned.append (Case.owned_all r)

end

theorem Block.owned_opt : ∀ b : Option Block, Owned (Block.partsOpt b)
  | none => .nil
  | some b => b.owned

/-- A function owns the names in its result and in its parameters. -/
theorem FnDecl.owned (g : FnDecl) : Owned g.parts := by
  have h : Owned (g.result.parts ++ (g.formals.flatMap VarDecl.parts ++ Block.partsOpt g.body)
      ++ [.declared g.ident, .decl (.fn g)]) :=
    g.result.owned ((Owned.flatMap fun v _ => v.owned).append (Block.owned_opt g.body)) rfl
      (List.append_nil _)
  rw [← List.append_assoc] at h
  exact h

mutual

/-- **In a declaration every name that is used has one owner.** -/
theorem Decl.owned : ∀ d : Decl, Owned d.parts
  | .var v => v.owned
  | .fn g => g.owned
  | .iface _ => (Owned.flatMap fun g _ => g.owned).append (.refl [])
  | .cls c => c.owned

/-- A class owns the names in its head. -/
theorem ClassDecl.owned : ∀ c : ClassDecl, Owned c.parts
  | ⟨n, i, b, is, ms⟩ => by
    have h : Owned ([.declared i] ++ b.toList.map .use ++ is.map .use
        ++ [.decl (.cls ⟨n, i, b, is, ms⟩)]) := by
      -- the names in the head are used as they stand, and are pieces on their own
      have hu : ∀ is : List Ident, (is.map Part.use).filterMap Part.use? = is ∧
          (is.map Part.use).flatMap Part.names = [] := fun is => by
        induction is with
        | nil => exact ⟨rfl, rfl⟩
        | cons _ _ ih => exact ⟨congrArg (List.cons _) ih.1, ih.2⟩
      unfold Owned
      simp only [List.filterMap_append, List.flatMap_append, hu]
      exact .of_eq ((List.append_nil _).trans (List.append_nil _).symm)
    have := (Decl.owned_all ms).append h
    simp only [← List.append_assoc] at this
    exact this

/-- The same for declarations in a row. -/
theorem Decl.owned_all : ∀ ds : List Decl, Owned (Decl.partsAll ds)
  | [] => .nil
  | d :: r => d.owned.append (Decl.owned_all r)

end

/-! ## 2. The names of a program -/

namespace Program

variable {p : Program}

/-- **Every name that is used belongs to one piece.** -/
theorem uses_perm (p : Program) : p.uses.Perm (p.parts.flatMap Part.names) :=
  (Decl.owned_all p.decls).append .nil

/-- The numbers of the names that are used are among those of the pieces, in their order. -/
theorem uses_sublist (ps : List Part) :
    ((ps.filterMap Part.use?).map Ident.id).Sublist (ps.map Part.id) := by
  induction ps with
  | nil => exact .slnil
  | cons q ps ih =>
    cases q with
    | use i => exact ih.cons_cons i.id
    | _ => exact ih.cons _

/-- **The number of a name belongs to one piece.** -/
theorem Numbered.eq_owner (h : p.Numbered) {q q' : Part} (hq : q ∈ p.parts) (hq' : q' ∈ p.parts)
    {i i' : Ident} (hi : i ∈ q.names) (hi' : i' ∈ q'.names) (e : i.id = i'.id) : q = q' := by
  have hn : (p.parts.flatMap fun q => q.names.map Ident.id).Nodup := by
    rw [← List.map_flatMap, ← (p.uses_perm.map Ident.id).nodup_iff]
    exact h.sublist (uses_sublist p.parts)
  exact eq_of_mem_flatMap hn hq hq' (List.mem_map_of_mem hi) (e ▸ List.mem_map_of_mem hi')

end Program

/-! ## 3. What the types bind -/

/-- What a report binds are names of expressions among these pieces. -/
def Report.Own (r : Report) (ps : List Part) : Prop :=
  ∀ x ∈ r.bindings, ∃ e, Part.expr e ∈ ps ∧ ∃ i ∈ e.names, i.id = x.1

namespace Report.Own

variable {r s : Report} {ps qs : List Part} {v : Verdict} {n : Node}

theorem empty : Report.empty.Own ps := nofun

theorem faults {ds : List Diagnostic} : (Report.ofFaults ds).Own ps := nofun

/-- What binds names of some pieces binds names of more. -/
theorem of_subset (h : r.Own ps) (hs : ps ⊆ qs) : r.Own qs := by
  intro x hx
  obtain ⟨e, he, hi⟩ := h x hx
  exact ⟨e, hs he, hi⟩

/-- Two reports that bind names of the same pieces. -/
theorem both (h : r.Own ps) (h' : s.Own ps) : (r ++ s).Own ps :=
  List.forall_mem_append.mpr ⟨h, h'⟩

/-- Two reports that bind names of pieces of their own. -/
theorem append (h : r.Own ps) (h' : s.Own qs) : (r ++ s).Own (ps ++ qs) :=
  (h.of_subset (List.subset_append_left _ _)).both (h'.of_subset (List.subset_append_right _ _))

/-- An expression without parts that binds nothing. -/
theorem leaf (hv : v.Binds none) : (v.at n .empty).report.Own ps := by
  intro x hx
  obtain ⟨b, hb, -⟩ := Option.map_eq_some_iff.mp (Option.mem_toList.mp hx)
  cases hv b hb

/-- An expression that binds nothing itself. -/
theorem at_none (h : r.Own ps) (hv : v.Binds none) : (v.at n r).report.Own (ps ++ qs) :=
  (h.of_subset (List.subset_append_left _ _)).both (leaf (n := n) hv)

/-- An expression that binds its own name, if it binds anything. -/
theorem at_some (h : r.Own ps) {e : Expr} {i : Ident} (hv : v.Binds (some i)) (hi : i ∈ e.names) :
    (v.at n r).report.Own (ps ++ [.use i, .expr e]) := by
  refine (h.of_subset (List.subset_append_left _ _)).both fun x hx => ?_
  obtain ⟨b, hb, rfl⟩ := Option.map_eq_some_iff.mp (Option.mem_toList.mp hx)
  refine ⟨e, by simp, i, hi, ?_⟩
  rw [Option.some.inj (hv b hb)]

end Report.Own

section

variable (c : Context)

mutual

/-- **An expression binds names of its pieces.** -/
theorem Expr.binds_own : ∀ e : Expr, (e.check c).report.Own e.parts
  | .int _ _ => .leaf (.of_none rfl)
  | .double _ => .leaf (.of_none rfl)
  | .bool _ _ => .leaf (.of_none rfl)
  | .string _ _ => .leaf (.of_none rfl)
  | .null _ => .leaf (.of_none rfl)
  | .this n => .leaf (c.binds_this n.span)
  | .readInteger _ => .leaf (.of_none rfl)
  | .readLine _ => .leaf (.of_none rfl)
  | .binary n op l r =>
    (l.binds_own.append r.binds_own).at_none (c.binds_binary n.span op _ _)
  | .unary n op x => x.binds_own.at_none (Context.binds_unary n.span op _)
  | .step n op x => x.binds_own.at_none (Context.binds_step n.span op _)
  | .assign _ t v => (t.binds_own.append v.binds_own).at_none (.of_none rfl)
  | .index n b s => (b.binds_own.append s.binds_own).at_none (Context.binds_index n.span s.span _ _)
  | .name _ i => .leaf (c.binds_name i)
  | .field _ b i => b.binds_own.at_some (c.binds_field _ i) (List.mem_singleton_self i)
  | .call _ i args => (Expr.binds_own_all args).at_none (c.binds_call i _)
  | .send _ b i args =>
    -- the call itself may bind the method, whose name is a piece of it
    (b.binds_own.append (Expr.binds_own_all args)).at_some (c.binds_send _ i _)
      (List.mem_singleton_self i)
  | .new _ i => .leaf (c.binds_new i)
  | .newArray _ s _ =>
    (s.binds_own.of_subset (List.subset_append_left _ _)).at_none (.of_none rfl)

/-- The checks of expressions in a row bind names of these expressions. -/
theorem Expr.binds_own_all : ∀ es : List Expr, (Expr.checkAll c es).2.Own (Expr.partsAll es)
  | [] => .empty
  | e :: r => e.binds_own.append (Expr.binds_own_all r)

end

theorem Expr.binds_own_opt : ∀ e : Option Expr, (Expr.checkOpt c e).Own (Expr.partsOpt e)
  | none => .empty
  | some e => e.binds_own c

theorem Expr.binds_own_test (e : Expr) : (e.checkTest c).Own e.parts :=
  (e.binds_own c).both .faults

/-- So does the check of what is printed. -/
theorem Expr.binds_own_print (k : Nat) (es : List Expr) :
    (Expr.checkPrint c k es).Own (Expr.partsAll es) := by
  induction es generalizing k with
  | nil => exact .empty
  | cons e es ih => exact ((e.binds_own c).both .faults).append (ih (k + 1))

theorem Expr.binds_own_return (s : Span) : ∀ e : Option Expr,
    (Expr.checkReturn c s e).Own (Expr.partsOpt e)
  | none => .faults
  | some e => (e.binds_own c).both .faults

end

mutual

/-- **The check of a statement binds names of its expressions.** -/
theorem Stmt.binds_own : ∀ (s : Stmt) (c : Context), (s.check c).Own s.parts
  | .block b, c => b.binds_own c
  | .ifThen _ t s, c => (t.binds_own_test c).append (s.binds_own c)
  | .ifElse _ t s o, c => ((t.binds_own_test c).append (s.binds_own c)).append (o.binds_own c)
  | .while _ t s, c => (t.binds_own_test c).append (s.binds_own c.inBreakable)
  | .for _ i t u s, c =>
    (((Expr.binds_own_opt c i).append (t.binds_own_test c)).append (Expr.binds_own_opt c u)).append
      (s.binds_own c.inBreakable)
  | .switch _ e cs, c => (e.binds_own c).append (Case.binds_own_all cs c.inBreakable)
  | .break _, _ => .faults
  | .ret s e, c => Expr.binds_own_return c s e
  | .print _ es, c => Expr.binds_own_print c 1 es
  | .expr e, c => e.binds_own c

/-- The check of a block binds no name in the types of its variables. -/
theorem Block.binds_own : ∀ (b : Block) (c : Context), (b.check c).Own b.parts
  | ⟨n, _, ss⟩, c => (Stmt.binds_own_all ss (c.inBlock n)).of_subset
      (List.subset_append_of_subset_left _ (List.subset_append_right _ _))

theorem Case.binds_own : ∀ (a : Case) (c : Context), (a.check c).Own a.parts
  | ⟨_, ss⟩, c => Stmt.binds_own_all ss c

/-- The same for statements in a row. -/
theorem Stmt.binds_own_all : ∀ (ss : List Stmt) (c : Context),
    (Stmt.checkAll ss c).Own (Stmt.partsAll ss)
  | [], _ => .empty
  | s :: r, c => (s.binds_own c).append (Stmt.binds_own_all r c)

/-- The same for the arms of a switch. -/
theorem Case.binds_own_all : ∀ (cs : List Case) (c : Context),
    (Case.checkAll cs c).Own (Case.partsAll cs)
  | [], _ => .empty
  | a :: r, c => (a.binds_own c).append (Case.binds_own_all r c)

end

section

variable (h : Hierarchy) (a : Notes) (f : Forest)

/-- **The check of a function binds names in its body,** and none in its head. -/
theorem FnDecl.binds_own (g : FnDecl) : (g.check h a f).Own g.parts := by
  have hb : ∀ (b : Option Block) (c : Context), (Block.checkOpt b c).Own (Block.partsOpt b) :=
    fun b c => by
      cases b with
      | none => exact .empty
      | some b => exact b.binds_own c
  exact (hb g.body _).of_subset
    (List.subset_append_of_subset_left _ (List.subset_append_right _ _))

/-- The same for functions whose pieces lie among those given. -/
theorem FnDecl.binds_own_all {ps : List Part} (gs : List FnDecl) (hg : ∀ g ∈ gs, g.parts ⊆ ps) :
    (FnDecl.checkAll gs h a f).Own ps := by
  induction gs with
  | nil => exact .empty
  | cons g gs ih =>
    obtain ⟨hg, hgs⟩ := List.forall_mem_cons.mp hg
    exact ((g.binds_own h a f).of_subset hg).both (ih hgs)

/-- **The check of a declaration binds names of its own expressions.** -/
theorem Decl.binds_own (d : Decl) : (d.check h a f).Own d.parts := by
  cases d with
  | var v => exact .empty
  | fn g => exact g.binds_own h a f
  | iface i => exact .empty
  | cls c =>
    obtain ⟨n, i, b, is, ms⟩ := c
    -- the methods are among the members
    refine FnDecl.binds_own_all h a _ _ fun g hg q hq => ?_
    show q ∈ Decl.partsAll ms ++ _ ++ _ ++ _ ++ _
    simp only [List.append_assoc]
    exact List.mem_append_left _ (Decl.parts_subset (ClassDecl.mem_methods.mp hg) hq)

/-- **The types of a program bind names of its expressions.** -/
theorem Decl.binds_own_all (ds : List Decl) : (Decl.checkAll h a f ds).Own (Decl.partsAll ds) := by
  induction ds with
  | nil => exact .empty
  | cons d ds ih => exact (d.binds_own h a f).append ih

end

end DecafLang
