import DecafLang.Syntax.Basic

/-!
# The pieces of a program

`Program.parts` lists every numbered piece of a program **in build order: a piece comes after
the pieces it is made of**, and those come from left to right.

The names that are declared are told apart from the names that are used: only the latter are
looked up.
-/

namespace DecafLang

/-- A numbered piece of a program. -/
inductive Part where
  | type (t : TypeExpr)
  /-- A name that stands for something declared elsewhere. -/
  | use (i : Ident)
  /-- A name in its own declaration. -/
  | declared (i : Ident)
  | block (b : Block)
  | expr (e : Expr)
  | decl (d : Decl)
  | program (p : Program)

namespace Part

/-- The number of the piece. -/
def id : Part → NodeId
  | type t => t.id
  | use i => i.id
  | declared i => i.id
  | block ⟨n, _, _⟩ => n.id
  | expr e => e.id
  | decl d => d.id
  | program p => p.id

/-- The expression, if the piece is one. -/
def expr? : Part → Option Expr
  | expr e => some e
  | _ => none

/-- The used name, if the piece is one. -/
def use? : Part → Option Ident
  | use i => some i
  | _ => none

/-- The declaration, if the piece is one. -/
def decl? : Part → Option Decl
  | decl d => some d
  | _ => none

end Part

/-! ## 1. Types and expressions -/

/-- The pieces of a written type. -/
def TypeExpr.parts (t : TypeExpr) : List Part :=
  match t with
  | .prim _ _ => [.type t]
  | .named _ i => [.use i, .type t]
  | .array _ e => e.parts ++ [.type t]

mutual

/-- The pieces of an expression; the expression itself is the last. -/
def Expr.parts : Expr → List Part
  | .binary n op l r => l.parts ++ r.parts ++ [.expr (.binary n op l r)]
  | .unary n op x => x.parts ++ [.expr (.unary n op x)]
  | .step n op x => x.parts ++ [.expr (.step n op x)]
  | .assign n t v => t.parts ++ v.parts ++ [.expr (.assign n t v)]
  | .index n b s => b.parts ++ s.parts ++ [.expr (.index n b s)]
  | .name n i => [.use i, .expr (.name n i)]
  | .field n b i => b.parts ++ [.use i, .expr (.field n b i)]
  | .call n i args => Expr.partsAll args ++ [.use i, .expr (.call n i args)]
  | .send n b i args => b.parts ++ Expr.partsAll args ++ [.use i, .expr (.send n b i args)]
  | .new n i => [.use i, .expr (.new n i)]
  | .newArray n s t => s.parts ++ t.parts ++ [.expr (.newArray n s t)]
  | e => [.expr e]

/-- The pieces of several expressions. -/
def Expr.partsAll : List Expr → List Part
  | [] => []
  | e :: r => e.parts ++ Expr.partsAll r

end

/-- The pieces of an expression that may be missing. -/
def Expr.partsOpt : Option Expr → List Part
  | none => []
  | some e => e.parts

/-! ## 2. Statements -/

/-- The pieces of the declaration of a variable. -/
def VarDecl.parts (v : VarDecl) : List Part := v.type.parts ++ [.declared v.ident, .decl (.var v)]

mutual

/-- The pieces of a statement. -/
def Stmt.parts : Stmt → List Part
  | .block b => b.parts
  | .ifThen _ t s => t.parts ++ s.parts
  | .ifElse _ t s o => t.parts ++ s.parts ++ o.parts
  | .while _ t s => t.parts ++ s.parts
  | .for _ i t u s => Expr.partsOpt i ++ t.parts ++ Expr.partsOpt u ++ s.parts
  | .switch _ e cs => e.parts ++ Case.partsAll cs
  | .break _ => []
  | .ret _ e => Expr.partsOpt e
  | .print _ es => Expr.partsAll es
  | .expr e => e.parts

/-- The pieces of a block; the block itself is the last. -/
def Block.parts : Block → List Part
  | ⟨n, ls, ss⟩ => ls.flatMap VarDecl.parts ++ Stmt.partsAll ss ++ [.block ⟨n, ls, ss⟩]

/-- The pieces of an arm. -/
def Case.parts : Case → List Part
  | ⟨_, ss⟩ => Stmt.partsAll ss

/-- The pieces of several statements. -/
def Stmt.partsAll : List Stmt → List Part
  | [] => []
  | s :: r => s.parts ++ Stmt.partsAll r

/-- The pieces of several arms. -/
def Case.partsAll : List Case → List Part
  | [] => []
  | c :: r => c.parts ++ Case.partsAll r

end

/-! ## 3. Declarations -/

/-- The pieces of a body that may be missing. -/
def Block.partsOpt : Option Block → List Part
  | none => []
  | some b => b.parts

/-- The pieces of a function. -/
def FnDecl.parts (f : FnDecl) : List Part :=
  f.result.parts ++ f.formals.flatMap VarDecl.parts ++ Block.partsOpt f.body
    ++ [.declared f.ident, .decl (.fn f)]

/-- The pieces of an interface. -/
def IfaceDecl.parts (i : IfaceDecl) : List Part :=
  i.members.flatMap FnDecl.parts ++ [.declared i.ident, .decl (.iface i)]

mutual

/-- The pieces of a declaration; the declaration itself is the last. -/
def Decl.parts : Decl → List Part
  | .var v => v.parts
  | .fn f => f.parts
  | .iface i => i.parts
  | .cls c => c.parts

/-- The pieces of a class. -/
def ClassDecl.parts : ClassDecl → List Part
  | ⟨n, i, b, is, ms⟩ => Decl.partsAll ms ++ [.declared i] ++ b.toList.map .use ++ is.map .use
      ++ [.decl (.cls ⟨n, i, b, is, ms⟩)]

/-- The pieces of several declarations. -/
def Decl.partsAll : List Decl → List Part
  | [] => []
  | d :: r => d.parts ++ Decl.partsAll r

end

theorem Decl.parts_all_eq (ds : List Decl) : Decl.partsAll ds = ds.flatMap Decl.parts := by
  induction ds with
  | nil => rfl
  | cons d ds ih => rw [Decl.partsAll, ih, List.flatMap_cons]

theorem Decl.parts_subset {d : Decl} {ds : List Decl} (hd : d ∈ ds) :
    d.parts ⊆ Decl.partsAll ds := by
  intro q hq
  rw [Decl.parts_all_eq]
  exact List.mem_flatMap.mpr ⟨d, hd, hq⟩

/-! ## 4. Programs -/

namespace Program

/-- Every numbered piece of a program. -/
def parts (p : Program) : List Part := Decl.partsAll p.decls ++ [.program p]

/-- Every expression. -/
def exprs (p : Program) : List Expr := p.parts.filterMap Part.expr?

/-- Every name that is used. -/
def uses (p : Program) : List Ident := p.parts.filterMap Part.use?

/-- Every declaration, formals, locals and members included. -/
def allDecls (p : Program) : List Decl := p.parts.filterMap Part.decl?

end Program

end DecafLang
