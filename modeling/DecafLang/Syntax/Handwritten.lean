import DecafLang.Syntax.Numbering

/-!
# Trees that are written by hand

Short ways to write down a tree that was not read from a text.

* Its pieces have no numbers yet. `Program.number` gives them theirs.
* They stand nowhere, or each on a line of its own where a report has to tell the place.
-/

namespace DecafLang

/-- A piece that stands nowhere in the text. -/
def Node.nowhere : Node := ⟨0, .nowhere⟩

/-- A piece at the start of a line. -/
def Node.onLine (line : Nat) : Node := ⟨0, .point line 1⟩

/-- A name that stands nowhere in the text. -/
def Ident.called (s : String) : Ident := ⟨s, .nowhere⟩

/-- A name at the start of a line. -/
def Ident.onLine (s : String) (line : Nat) : Ident := ⟨s, .onLine line⟩

/-- The declaration of a variable of a type. -/
def VarDecl.called (s : String) (t : TypeExpr) : VarDecl := ⟨.nowhere, .called s, t⟩

/-- The declaration of a number. -/
def VarDecl.int (s : String) : VarDecl := .called s (.prim 0 .int)

/-- The use of a name. -/
def Expr.use (s : String) : Expr := .name .nowhere (.called s)

/-- An assignment as a statement. -/
def Stmt.set (x y : Expr) : Stmt := .expr (.assign .nowhere x y)

/-- A block with nothing in it. -/
def Block.empty : Block := ⟨.nowhere, [], []⟩

end DecafLang
