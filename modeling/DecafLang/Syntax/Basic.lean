import DecafLang.Span
import DecafLang.Ty
import DecafLang.Syntax.Operator

/-!
# Programs

The syntax tree of a program.

* **A `Node` gives a piece of the tree its number and its place.** What later stages find out
  about the piece they keep under that number.
* A bare name and a field of a base are two constructors, and so are the two kinds of call:
  only the bare ones are looked up in the enclosing scopes.
* A class may hold any declaration; an interface holds functions without a body.
-/

namespace DecafLang

/-- The number of a piece of the tree. -/
abbrev NodeId := Nat

/-- What tells a piece of the tree apart: its number, and where it stands. -/
structure Node where
  id : NodeId
  span : Span
deriving DecidableEq, Repr, Inhabited

/-- One occurrence of a name. -/
structure Ident where
  name : String
  node : Node
deriving DecidableEq, Repr, Inhabited

/-- Where the name stands. -/
def Ident.span (i : Ident) : Span := i.node.span

/-- The number of the occurrence. -/
def Ident.id (i : Ident) : NodeId := i.node.id

/-! ## 1. Types as they are written -/

/-- A primitive type. -/
inductive Prim where
  | int
  | double
  | bool
  | string
  | void
deriving DecidableEq, Repr, Inhabited

/-- The static type that a primitive type denotes. -/
def Prim.ty : Prim → Ty
  | int => .int
  | double => .double
  | bool => .bool
  | string => .string
  | void => .void

/-- A type as it is written. -/
inductive TypeExpr where
  | prim (id : NodeId) (p : Prim)
  /-- A class or an interface. -/
  | named (id : NodeId) (ident : Ident)
  | array (id : NodeId) (elem : TypeExpr)
deriving Repr, Inhabited

namespace TypeExpr

/-- The number of the type. -/
def id : TypeExpr → NodeId
  | prim i _ => i
  | named i _ => i
  | array i _ => i

/-- The static type, when every name in it is taken to name a class or an interface. -/
def ty : TypeExpr → Ty
  | prim _ p => p.ty
  | named _ i => .named i.name
  | array _ t => .array t.ty

/-- The name at the bottom of the arrays, if the type ends in one. -/
def ident? : TypeExpr → Option Ident
  | prim _ _ => none
  | named _ i => some i
  | array _ t => t.ident?

/-- Whether the type is `void` itself. -/
def isVoid : TypeExpr → Bool
  | prim _ .void => true
  | _ => false

end TypeExpr

/-! ## 2. Expressions -/

/-- An expression. -/
inductive Expr where
  | int (node : Node) (value : Int32)
  /-- No stage looks at the value of a floating point number. -/
  | double (node : Node)
  | bool (node : Node) (value : Bool)
  /-- The text between the quotes. -/
  | string (node : Node) (value : String)
  | null (node : Node)
  | this (node : Node)
  | readInteger (node : Node)
  | readLine (node : Node)
  | binary (node : Node) (op : BinaryOp) (left right : Expr)
  | unary (node : Node) (op : UnaryOp) (operand : Expr)
  | step (node : Node) (op : StepOp) (target : Expr)
  | assign (node : Node) (target value : Expr)
  | index (node : Node) (base subscript : Expr)
  /-- A bare name. -/
  | name (node : Node) (ident : Ident)
  /-- `base.field` -/
  | field (node : Node) (base : Expr) (ident : Ident)
  /-- A call by a bare name. -/
  | call (node : Node) (ident : Ident) (args : List Expr)
  /-- `base.method(args)` -/
  | send (node : Node) (base : Expr) (ident : Ident) (args : List Expr)
  | new (node : Node) (ident : Ident)
  | newArray (node : Node) (size : Expr) (elem : TypeExpr)
deriving Repr, Inhabited

namespace Expr

/-- The number and the place of an expression. -/
def node : Expr → Node
  | int n _ | double n | bool n _ | string n _ | null n | this n | readInteger n | readLine n
  | binary n _ _ _ | unary n _ _ | step n _ _ | assign n _ _ | index n _ _ | name n _ | field n _ _
  | call n _ _ | send n _ _ _ | new n _ | newArray n _ _ => n

/-- The number of an expression. -/
def id (e : Expr) : NodeId := e.node.id

/-- Where an expression stands. -/
def span (e : Expr) : Span := e.node.span

end Expr

/-! ## 3. Statements -/

/-- A variable: global, local, formal or field. -/
structure VarDecl where
  node : Node
  ident : Ident
  type : TypeExpr
deriving Repr, Inhabited

/-- The declared name as text. -/
def VarDecl.name (v : VarDecl) : String := v.ident.name

/-- The number of the declaration. -/
def VarDecl.id (v : VarDecl) : NodeId := v.node.id

mutual

/-- A statement. -/
inductive Stmt where
  | block (b : Block)
  | ifThen (span : Span) (test : Expr) (body : Stmt)
  | ifElse (span : Span) (test : Expr) (body other : Stmt)
  | while (span : Span) (test : Expr) (body : Stmt)
  | for (span : Span) (init : Option Expr) (test : Expr) (step : Option Expr) (body : Stmt)
  | switch (span : Span) (scrutinee : Expr) (cases : List Case)
  | break (span : Span)
  | ret (span : Span) (value : Option Expr)
  | print (span : Span) (args : List Expr)
  | expr (e : Expr)

/-- Local variables, and the statements that may use them. -/
structure Block where
  node : Node
  locals : List VarDecl
  stmts : List Stmt

/-- One arm of a `switch`; the one without a label is the default. -/
structure Case where
  label : Option Int32
  body : List Stmt

end

instance : Inhabited Stmt := ⟨.break .nowhere⟩

instance : Inhabited Block := ⟨⟨default, [], []⟩⟩

/-- Where a statement stands; a statement that is an expression stands where that does. -/
def Stmt.span : Stmt → Span
  | block ⟨n, _, _⟩ => n.span
  | ifThen s _ _ | ifElse s _ _ _ | .while s _ _ | .for s _ _ _ _ | switch s _ _ | .break s
  | ret s _ | print s _ => s
  | expr e => e.span

/-! ## 4. Declarations -/

/-- A function, a method, or a prototype without a body. -/
structure FnDecl where
  node : Node
  ident : Ident
  result : TypeExpr
  formals : List VarDecl
  body : Option Block
deriving Inhabited

/-- The declared name as text. -/
def FnDecl.name (f : FnDecl) : String := f.ident.name

/-- The number of the declaration. -/
def FnDecl.id (f : FnDecl) : NodeId := f.node.id

/-- An interface with its prototypes. -/
structure IfaceDecl where
  node : Node
  ident : Ident
  members : List FnDecl
deriving Inhabited

/-- The declared name as text. -/
def IfaceDecl.name (i : IfaceDecl) : String := i.ident.name

mutual

/-- A declaration. -/
inductive Decl where
  | var (v : VarDecl)
  | fn (f : FnDecl)
  | iface (i : IfaceDecl)
  | cls (c : ClassDecl)

/-- A class: the class it extends, the interfaces it lists, and its members. -/
structure ClassDecl where
  node : Node
  ident : Ident
  base : Option Ident
  interfaces : List Ident
  members : List Decl

end

instance : Inhabited ClassDecl := ⟨⟨default, default, none, [], []⟩⟩

instance : Inhabited Decl := ⟨.cls default⟩

namespace Decl

/-- The number and the place of a declaration. -/
def node : Decl → Node
  | var v => v.node
  | fn f => f.node
  | iface i => i.node
  | cls c => c.node

/-- The name that a declaration declares. -/
def ident : Decl → Ident
  | var v => v.ident
  | fn f => f.ident
  | iface i => i.ident
  | cls c => c.ident

/-- The number of a declaration. -/
def id (d : Decl) : NodeId := d.node.id

/-- The declared name as text. -/
def name (d : Decl) : String := d.ident.name

/-- The variable, if the declaration is one. -/
def var? : Decl → Option VarDecl
  | var v => some v
  | _ => none

/-- The function, if the declaration is one. -/
def fn? : Decl → Option FnDecl
  | fn f => some f
  | _ => none

/-- The class, if the declaration is one. -/
def cls? : Decl → Option ClassDecl
  | cls c => some c
  | _ => none

/-- Whether the declaration is a class or an interface. -/
def isType : Decl → Bool
  | cls _ => true
  | iface _ => true
  | _ => false

end Decl

/-- What is picked from a list by its form stands in the list. -/
theorem mem_filterMap_form {α β : Type} {form? : β → Option α} {form : α → β}
    (h : ∀ x a, form? x = some a ↔ x = form a) {xs : List β} {a : α} :
    a ∈ xs.filterMap form? ↔ form a ∈ xs := by
  rw [List.mem_filterMap]
  simp only [h, exists_eq_right]

theorem Decl.mem_classes {ds : List Decl} {c : ClassDecl} :
    c ∈ ds.filterMap Decl.cls? ↔ Decl.cls c ∈ ds :=
  mem_filterMap_form fun d c => by cases d <;> simp [cls?]

namespace ClassDecl

/-- The fields of a class, in the order of the text. -/
def fields (c : ClassDecl) : List VarDecl := c.members.filterMap Decl.var?

/-- The methods of a class, in the order of the text. -/
def methods (c : ClassDecl) : List FnDecl := c.members.filterMap Decl.fn?

/-- The declared name as text. -/
def name (c : ClassDecl) : String := c.ident.name

theorem mem_fields {c : ClassDecl} {v : VarDecl} : v ∈ c.fields ↔ Decl.var v ∈ c.members :=
  mem_filterMap_form fun d v => by cases d <;> simp [Decl.var?]

theorem mem_methods {c : ClassDecl} {g : FnDecl} : g ∈ c.methods ↔ Decl.fn g ∈ c.members :=
  mem_filterMap_form fun d g => by cases d <;> simp [Decl.fn?]

end ClassDecl

/-- A whole program. -/
structure Program where
  id : NodeId
  decls : List Decl
deriving Inhabited

end DecafLang
