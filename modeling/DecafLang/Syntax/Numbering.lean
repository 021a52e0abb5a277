import DecafLang.Syntax.Basic

/-!
# Numbering

`Program.number` gives the pieces of a program the numbers 0, 1, 2, … in build order.

* **A piece gets its number after the pieces it is made of.** A declared name and the names that
  belong to a piece get theirs just before the piece itself.
* Only the numbers change. Statements other than blocks have none.
-/

namespace DecafLang

/-- Steps that hand out numbers; the state is the next number. -/
abbrev Numbering := StateM NodeId

/-- The next number. -/
def Numbering.next : Numbering NodeId := fun k => (k, k + 1)

/-- The same node with the next number. -/
def Node.number (n : Node) : Numbering Node := do return { n with id := ← Numbering.next }

/-- The same name with the next number. -/
def Ident.number (i : Ident) : Numbering Ident := do return { i with node := ← i.node.number }

/-- The same names, numbered from left to right. -/
def Ident.numberAll : List Ident → Numbering (List Ident)
  | [] => return []
  | i :: r => do return (← i.number) :: (← Ident.numberAll r)

/-! ## 1. Types and expressions -/

/-- A written type with numbers. -/
def TypeExpr.number : TypeExpr → Numbering TypeExpr
  | .prim _ p => do return .prim (← Numbering.next) p
  | .named _ i => do
    let i ← i.number
    return .named (← Numbering.next) i
  | .array _ t => do
    let t ← t.number
    return .array (← Numbering.next) t

mutual

/-- An expression with numbers. -/
def Expr.number : Expr → Numbering Expr
  | .int n v => do return .int (← n.number) v
  | .double n => do return .double (← n.number)
  | .bool n v => do return .bool (← n.number) v
  | .string n v => do return .string (← n.number) v
  | .null n => do return .null (← n.number)
  | .this n => do return .this (← n.number)
  | .readInteger n => do return .readInteger (← n.number)
  | .readLine n => do return .readLine (← n.number)
  | .binary n op l r => do
    let l ← l.number
    let r ← r.number
    return .binary (← n.number) op l r
  | .unary n op x => do
    let x ← x.number
    return .unary (← n.number) op x
  | .step n op x => do
    let x ← x.number
    return .step (← n.number) op x
  | .assign n t v => do
    let t ← t.number
    let v ← v.number
    return .assign (← n.number) t v
  | .index n b s => do
    let b ← b.number
    let s ← s.number
    return .index (← n.number) b s
  | .name n i => do
    let i ← i.number
    return .name (← n.number) i
  | .field n b i => do
    let b ← b.number
    let i ← i.number
    return .field (← n.number) b i
  | .call n i args => do
    let args ← Expr.numberAll args
    let i ← i.number
    return .call (← n.number) i args
  | .send n b i args => do
    let b ← b.number
    let args ← Expr.numberAll args
    let i ← i.number
    return .send (← n.number) b i args
  | .new n i => do
    let i ← i.number
    return .new (← n.number) i
  | .newArray n s t => do
    let s ← s.number
    let t ← t.number
    return .newArray (← n.number) s t

/-- Several expressions with numbers. -/
def Expr.numberAll : List Expr → Numbering (List Expr)
  | [] => return []
  | e :: r => do
    let e ← e.number
    return e :: (← Expr.numberAll r)

end

/-- An expression that may be missing, with numbers. -/
def Expr.numberOpt : Option Expr → Numbering (Option Expr)
  | none => return none
  | some e => do return some (← e.number)

/-! ## 2. Statements -/

/-- A variable with numbers. -/
def VarDecl.number (v : VarDecl) : Numbering VarDecl := do
  let type ← v.type.number
  let ident ← v.ident.number
  return ⟨← v.node.number, ident, type⟩

/-- Several variables with numbers. -/
def VarDecl.numberAll : List VarDecl → Numbering (List VarDecl)
  | [] => return []
  | v :: r => do
    let v ← v.number
    return v :: (← VarDecl.numberAll r)

mutual

/-- A statement with numbers. -/
def Stmt.number : Stmt → Numbering Stmt
  | .block b => do return .block (← b.number)
  | .ifThen a t s => do
    let t ← t.number
    return .ifThen a t (← s.number)
  | .ifElse a t s o => do
    let t ← t.number
    let s ← s.number
    return .ifElse a t s (← o.number)
  | .while a t s => do
    let t ← t.number
    return .while a t (← s.number)
  | .for a i t u s => do
    let i ← Expr.numberOpt i
    let t ← t.number
    let u ← Expr.numberOpt u
    return .for a i t u (← s.number)
  | .switch a e cs => do
    let e ← e.number
    return .switch a e (← Case.numberAll cs)
  | .break a => return .break a
  | .ret a e => do return .ret a (← Expr.numberOpt e)
  | .print a es => do return .print a (← Expr.numberAll es)
  | .expr e => do return .expr (← e.number)

/-- A block with numbers. -/
def Block.number : Block → Numbering Block
  | ⟨n, ls, ss⟩ => do
    let ls ← VarDecl.numberAll ls
    let ss ← Stmt.numberAll ss
    return ⟨← n.number, ls, ss⟩

/-- An arm with numbers. -/
def Case.number : Case → Numbering Case
  | ⟨v, ss⟩ => do return ⟨v, ← Stmt.numberAll ss⟩

/-- Several statements with numbers. -/
def Stmt.numberAll : List Stmt → Numbering (List Stmt)
  | [] => return []
  | s :: r => do
    let s ← s.number
    return s :: (← Stmt.numberAll r)

/-- Several arms with numbers. -/
def Case.numberAll : List Case → Numbering (List Case)
  | [] => return []
  | c :: r => do
    let c ← c.number
    return c :: (← Case.numberAll r)

end

/-! ## 3. Declarations -/

/-- A body that may be missing, with numbers. -/
def Block.numberOpt : Option Block → Numbering (Option Block)
  | none => return none
  | some b => do return some (← b.number)

/-- A function with numbers. -/
def FnDecl.number (f : FnDecl) : Numbering FnDecl := do
  let result ← f.result.number
  let formals ← VarDecl.numberAll f.formals
  let body ← Block.numberOpt f.body
  let ident ← f.ident.number
  return ⟨← f.node.number, ident, result, formals, body⟩

/-- Several functions with numbers. -/
def FnDecl.numberAll : List FnDecl → Numbering (List FnDecl)
  | [] => return []
  | f :: r => do
    let f ← f.number
    return f :: (← FnDecl.numberAll r)

/-- An interface with numbers. -/
def IfaceDecl.number (i : IfaceDecl) : Numbering IfaceDecl := do
  let members ← FnDecl.numberAll i.members
  let ident ← i.ident.number
  return ⟨← i.node.number, ident, members⟩

/-- The name of a base class, if there is one, with its number. -/
def Ident.numberOpt : Option Ident → Numbering (Option Ident)
  | none => return none
  | some i => do return some (← i.number)

mutual

/-- A declaration with numbers. -/
def Decl.number : Decl → Numbering Decl
  | .var v => do return .var (← v.number)
  | .fn f => do return .fn (← f.number)
  | .iface i => do return .iface (← i.number)
  | .cls c => do return .cls (← c.number)

/-- A class with numbers. -/
def ClassDecl.number : ClassDecl → Numbering ClassDecl
  | ⟨n, i, b, is, ms⟩ => do
    let ms ← Decl.numberAll ms
    let i ← i.number
    let b ← Ident.numberOpt b
    let is ← Ident.numberAll is
    return ⟨← n.number, i, b, is, ms⟩

/-- Several declarations with numbers. -/
def Decl.numberAll : List Decl → Numbering (List Decl)
  | [] => return []
  | d :: r => do
    let d ← d.number
    return d :: (← Decl.numberAll r)

end

/-! ## 4. Programs -/

/-- Declarations that belong to no program, numbered from 0. -/
def Decl.numbered (ds : List Decl) : List Decl := (Decl.numberAll ds 0).1

/-- The program that some declarations make up; the program itself has the last number. -/
def Program.number (ds : List Decl) : Program :=
  let r := Decl.numberAll ds 0
  ⟨r.2, r.1⟩

/-- How many numbers the program takes. -/
def Program.size (p : Program) : Nat := p.id + 1

end DecafLang
