import DecafLang.Table
import DecafLang.Syntax.Basic

/-!
# Notes

What the checker finds out about a program: the declaration that each used name stands for, and
the static type of each expression. Both are kept under the numbers of the pieces.

**A written type denotes a static type only if every name in it stands for a class or an
interface;** otherwise it denotes `Ty.error`.
-/

namespace DecafLang

/-- The two tables that the checker fills. -/
structure Notes where
  /-- The declaration that a used name stands for. -/
  bindings : Table NodeId Decl
  /-- The static type of an expression. -/
  types : Table NodeId Ty

namespace Notes

/-- Nothing is known yet. -/
def empty : Notes := ⟨.empty, .empty⟩

instance : Inhabited Notes := ⟨empty⟩

/-- The declaration that a used name stands for. -/
def decl? (a : Notes) (i : Ident) : Option Decl := a.bindings.get? i.id

/-- The variable that a used name stands for. -/
def var? (a : Notes) (i : Ident) : Option VarDecl := (a.decl? i).bind Decl.var?

/-- The function that a used name stands for. -/
def fn? (a : Notes) (i : Ident) : Option FnDecl := (a.decl? i).bind Decl.fn?

/-- The static type of an expression; one that has none gets `Ty.error`. -/
def typeOf (a : Notes) (e : Expr) : Ty := (a.types.get? e.id).getD .error

/-- The static type that a written type denotes. -/
def denote (a : Notes) : TypeExpr → Ty
  | .prim _ p => p.ty
  | .named _ i =>
    match a.decl? i with
    | some d => if d.isType then .named i.name else .error
    | none => .error
  | .array _ t =>
    match a.denote t with
    | .error => .error
    | t => .array t

/-- The types of the formals and of the result of a function. -/
def signature (a : Notes) (f : FnDecl) : Ty.Signature :=
  ⟨a.denote f.result, f.formals.map fun v => a.denote v.type⟩

end Notes

end DecafLang
