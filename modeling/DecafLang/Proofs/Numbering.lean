import DecafLang.Syntax.Numbering
import DecafLang.Proofs.Numbers

/-!
# Numbered programs

**The pieces of a program that was numbered have the numbers 0, 1, 2, … in the order in which
`Program.parts` lists them** (`Program.ids_number`), so no number is given twice.
-/

namespace DecafLang

/-! ## 1. Numbers in a row -/

/-- These are the numbers from one up to another. -/
def Row (k k' : Nat) (ns : List Nat) : Prop := k ≤ k' ∧ ns = List.range' k (k' - k)

namespace Row

variable {k k₁ k₂ : Nat} {ns ms : List Nat}

/-- Where no number is handed out, there is none in the row. -/
theorem nil (k : NodeId) : Row k k [] := by
  refine ⟨Nat.le_refl k, ?_⟩
  rw [Nat.sub_self]
  rfl

/-- One number in a row. -/
theorem one (k : NodeId) : Row k (k + 1) [k] := by
  refine ⟨Nat.le_succ k, ?_⟩
  rw [Nat.add_sub_cancel_left]
  rfl

/-- **Rows that meet are one row.** -/
theorem append (h : Row k k₁ ns) (h' : Row k₁ k₂ ms) : Row k k₂ (ns ++ ms) := by
  obtain ⟨hle, rfl⟩ := h
  obtain ⟨hle', rfl⟩ := h'
  refine ⟨Nat.le_trans hle hle', ?_⟩
  -- the second row starts where the first one ends, in steps of one
  have e : k₁ = k + 1 * (k₁ - k) := by omega
  rw [show k₂ - k = (k₁ - k) + (k₂ - k₁) by omega, ← List.range'_append, ← e]

/-- A row goes on with the next number. -/
theorem concat (h : Row k k₁ ns) : Row k (k₁ + 1) (ns ++ [k₁]) := h.append (one k₁)

/-- Pieces behind each other whose numbers meet are numbered in a row. -/
theorem parts {ps qs : List Part} (h : Row k k₁ (Part.ids ps)) (h' : Row k₁ k₂ (Part.ids qs)) :
    Row k k₂ (Part.ids (ps ++ qs)) := by
  rw [Part.ids_append]
  exact h.append h'

end Row

/-- Steps give the pieces of what they number the next numbers. -/
def Numbering.Counts {α : Type} (m : Numbering α) (parts : α → List Part) : Prop :=
  ∀ k, Row k (m k).2 (Part.ids (parts (m k).1))

/-! ## 2. Types and expressions -/

-- Each case goes through the parts in the order in which they are numbered, and the row grows by
-- those of one part at a time; the piece itself, and the name that belongs to it, come last.

/-- A written type is numbered in a row. -/
theorem TypeExpr.number_counts : ∀ t : TypeExpr, t.number.Counts TypeExpr.parts
  | .prim _ _, k => Row.one k
  | .named _ _, k => by
    have hname := Row.one k
    exact hname.concat
  | .array _ t, k => by
    have helem := t.number_counts k
    exact helem.parts (Row.one _)

mutual

/-- An expression is numbered in a row. -/
theorem Expr.number_counts : ∀ e : Expr, e.number.Counts Expr.parts
  | .int _ _, k | .double _, k | .bool _ _, k | .string _ _, k | .null _, k | .this _, k
  | .readInteger _, k | .readLine _, k => Row.one k
  | .name _ _, k | .new _ _, k => by
    have hname := Row.one k
    exact hname.concat
  | .unary _ _ x, k | .step _ _ x, k => by
    have hx := x.number_counts k
    exact hx.parts (Row.one _)
  | .binary _ _ x y, k | .assign _ x y, k | .index _ x y, k => by
    have hx := x.number_counts k
    have hxy := hx.parts (y.number_counts _)
    exact hxy.parts (Row.one _)
  | .newArray _ size t, k => by
    have hsize := size.number_counts k
    have helem := hsize.parts (t.number_counts _)
    exact helem.parts (Row.one _)
  -- a name behind a base, or in front of arguments, is numbered after them
  | .field _ base _, k => by
    have hbase := base.number_counts k
    exact hbase.parts (Row.one _).concat
  | .call _ _ args, k => by
    have hargs := Expr.number_all_counts args k
    exact hargs.parts (Row.one _).concat
  | .send _ base _ args, k => by
    have hbase := base.number_counts k
    have hargs := hbase.parts (Expr.number_all_counts args _)
    exact hargs.parts (Row.one _).concat

/-- Several expressions are numbered in a row. -/
theorem Expr.number_all_counts : ∀ es : List Expr, (Expr.numberAll es).Counts Expr.partsAll
  | [], k => Row.nil k
  | e :: es, k => by
    have he := e.number_counts k
    exact he.parts (Expr.number_all_counts es _)

end

/-- An expression that may be missing takes no number then. -/
theorem Expr.number_opt_counts : ∀ e : Option Expr, (Expr.numberOpt e).Counts Expr.partsOpt
  | none, k => Row.nil k
  | some e, k => e.number_counts k

/-! ## 3. Statements -/

/-- A variable is numbered after its type, with its name in between. -/
theorem VarDecl.number_counts (v : VarDecl) : v.number.Counts VarDecl.parts := by
  intro k
  have htype := v.type.number_counts k
  exact htype.parts (Row.one _).concat

/-- Several variables are numbered in a row. -/
theorem VarDecl.number_all_counts : ∀ vs : List VarDecl,
    (VarDecl.numberAll vs).Counts (List.flatMap VarDecl.parts)
  | [], k => Row.nil k
  | v :: vs, k => by
    have hv := v.number_counts k
    exact hv.parts (VarDecl.number_all_counts vs _)

mutual

/-- A statement has the numbers of its parts, in a row, and takes none itself unless it is a
block. -/
theorem Stmt.number_counts : ∀ s : Stmt, s.number.Counts Stmt.parts
  | .block b, k => b.number_counts k
  | .ifThen _ test body, k | .while _ test body, k => by
    have htest := test.number_counts k
    exact htest.parts (body.number_counts _)
  | .ifElse _ test body other, k => by
    have htest := test.number_counts k
    have hbody := htest.parts (body.number_counts _)
    exact hbody.parts (other.number_counts _)
  | .for _ init test update body, k => by
    have hinit := Expr.number_opt_counts init k
    have htest := hinit.parts (test.number_counts _)
    have hupdate := htest.parts (Expr.number_opt_counts update _)
    exact hupdate.parts (body.number_counts _)
  | .switch _ e arms, k => by
    have he := e.number_counts k
    exact he.parts (Case.number_all_counts arms _)
  | .break _, k => Row.nil k
  | .ret _ e, k => Expr.number_opt_counts e k
  | .print _ es, k => Expr.number_all_counts es k
  | .expr e, k => e.number_counts k

/-- A block is numbered after its locals and its statements. -/
theorem Block.number_counts : ∀ b : Block, b.number.Counts Block.parts
  | ⟨_, locals, stmts⟩, k => by
    have hlocals := VarDecl.number_all_counts locals k
    have hstmts := hlocals.parts (Stmt.number_all_counts stmts _)
    exact hstmts.parts (Row.one _)

/-- An arm has the numbers of its statements. -/
theorem Case.number_counts : ∀ c : Case, c.number.Counts Case.parts
  | ⟨_, stmts⟩, k => Stmt.number_all_counts stmts k

/-- Several statements are numbered in a row. -/
theorem Stmt.number_all_counts : ∀ ss : List Stmt, (Stmt.numberAll ss).Counts Stmt.partsAll
  | [], k => Row.nil k
  | s :: ss, k => by
    have hs := s.number_counts k
    exact hs.parts (Stmt.number_all_counts ss _)

/-- Several arms are numbered in a row. -/
theorem Case.number_all_counts : ∀ cs : List Case, (Case.numberAll cs).Counts Case.partsAll
  | [], k => Row.nil k
  | c :: cs, k => by
    have hc := c.number_counts k
    exact hc.parts (Case.number_all_counts cs _)

end

/-! ## 4. Declarations -/

/-- A body that is missing takes no number. -/
theorem Block.number_opt_counts : ∀ b : Option Block, (Block.numberOpt b).Counts Block.partsOpt
  | none, k => Row.nil k
  | some b, k => b.number_counts k

/-- A function is numbered after its result type, its formals and its body. -/
theorem FnDecl.number_counts (g : FnDecl) : g.number.Counts FnDecl.parts := by
  intro k
  have hresult := g.result.number_counts k
  have hformals := hresult.parts (VarDecl.number_all_counts g.formals _)
  have hbody := hformals.parts (Block.number_opt_counts g.body _)
  exact hbody.parts (Row.one _).concat

/-- Several functions are numbered in a row. -/
theorem FnDecl.number_all_counts : ∀ gs : List FnDecl,
    (FnDecl.numberAll gs).Counts (List.flatMap FnDecl.parts)
  | [], k => Row.nil k
  | g :: gs, k => by
    have hg := g.number_counts k
    exact hg.parts (FnDecl.number_all_counts gs _)

/-- An interface is numbered after its prototypes. -/
theorem IfaceDecl.number_counts (i : IfaceDecl) : i.number.Counts IfaceDecl.parts := by
  intro k
  have hmembers := FnDecl.number_all_counts i.members k
  exact hmembers.parts (Row.one _).concat

/-- A name that may be missing takes no number then. -/
theorem Ident.number_opt_counts : ∀ i : Option Ident,
    (Ident.numberOpt i).Counts fun i => i.toList.map .use
  | none, k => Row.nil k
  | some _, k => Row.one k

/-- Several names are numbered in a row. -/
theorem Ident.number_all_counts : ∀ is : List Ident,
    (Ident.numberAll is).Counts fun is => is.map .use
  | [], k => Row.nil k
  | _ :: is, k => by
    have hi := Row.one k
    exact hi.append (Ident.number_all_counts is _)

mutual

/-- A declaration is numbered in a row. -/
theorem Decl.number_counts : ∀ d : Decl, d.number.Counts Decl.parts
  | .var v, k => v.number_counts k
  | .fn g, k => g.number_counts k
  | .iface i, k => i.number_counts k
  | .cls c, k => c.number_counts k

/-- A class is numbered after its members and the names of its head. -/
theorem ClassDecl.number_counts : ∀ c : ClassDecl, c.number.Counts ClassDecl.parts
  | ⟨_, _, base, interfaces, members⟩, k => by
    have hmembers := Decl.number_all_counts members k
    -- the declared name comes between the members and the class that is extended
    have hbase := Ident.number_opt_counts base ((Decl.numberAll members k).2 + 1)
    have hlisted := Ident.number_all_counts interfaces
      (Ident.numberOpt base ((Decl.numberAll members k).2 + 1)).2
    exact (((hmembers.parts (Row.one _)).parts hbase).parts hlisted).parts (Row.one _)

/-- Several declarations are numbered in a row. -/
theorem Decl.number_all_counts : ∀ ds : List Decl, (Decl.numberAll ds).Counts Decl.partsAll
  | [], k => Row.nil k
  | d :: ds, k => by
    have hd := d.number_counts k
    exact hd.parts (Decl.number_all_counts ds _)

end

/-! ## 5. Programs -/

namespace Program

/-- **The pieces of a numbered program have the numbers from 0 on, in build order.** -/
theorem ids_number (ds : List Decl) :
    (number ds).parts.map Part.id = List.range (number ds).size := by
  have hdecls := Decl.number_all_counts ds 0
  have h : Row 0 ((Decl.numberAll ds 0).2 + 1) (Part.ids (number ds).parts) :=
    hdecls.parts (Row.one _)
  rw [List.range_eq_range']
  exact h.2

/-- No two pieces of a numbered program have one number. -/
theorem number_numbered (ds : List Decl) : (number ds).Numbered := by
  unfold Numbered
  rw [ids_number]
  exact List.nodup_range

end Program

end DecafLang
