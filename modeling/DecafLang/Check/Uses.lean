import DecafLang.Notes
import DecafLang.Scope.Visit

/-!
# Uses of names

Every name that is used without a base stands for the declaration that the open scopes give,
provided that it is of the kind that is asked for. **Otherwise it stands for nothing, and that is
reported once.**

* After `extends` and `new` stands a class, after `implements` an interface, in a written type a
  class or an interface, in front of arguments a function, and elsewhere anything.
* What a class extends and lists is looked up outside the class, and the result type of a
  function outside the function.
* A name behind a base is left to the types.
* A function `main` at the top level takes nothing and gives nothing.
-/

namespace DecafLang

/-- Whether a declaration is of the kind that is sought. -/
def Sought.accepts : Sought → Decl → Bool
  | .type, .cls _ => true
  | .type, .iface _ => true
  | .cls, .cls _ => true
  | .iface, .iface _ => true
  | .fn, .fn _ => true
  | .var, _ => true
  | _, _ => false

/-- What is found on the way through a program. -/
inductive Finding where
  /-- A used name, what it was sought for, and what it stands for. -/
  | use (ident : Ident) (sought : Sought) (decl : Option Decl)
  | fault (d : Diagnostic)

namespace Finding

/-- The name and its declaration, if it has one. -/
def binding? : Finding → Option (NodeId × Decl)
  | use i _ (some d) => some (i.id, d)
  | _ => none

/-- The report, if there is one. -/
def diagnostic? : Finding → Option Diagnostic
  | use i s none => some (.located i.span (.notDeclared i.name s))
  | use _ _ (some _) => none
  | fault d => some d

/-- Whether a name stands for nothing. -/
def isUnbound : Finding → Bool
  | use _ _ none => true
  | _ => false

end Finding

/-- Looks a name up, for a declaration of some kind. -/
def Forest.use (f : Forest) (i : Ident) (s : Sought) : Finding :=
  .use i s ((f.lookup? i.name).filter s.accepts)

/-! ## 1. Types and expressions -/

/-- The name in a written type. -/
def TypeExpr.uses (f : Forest) : TypeExpr → List Finding
  | .prim _ _ => []
  | .named _ i => [f.use i .type]
  | .array _ t => t.uses f

mutual

/-- The names in an expression. -/
def Expr.uses (f : Forest) : Expr → List Finding
  | .binary _ _ l r => l.uses f ++ r.uses f
  | .unary _ _ x => x.uses f
  | .step _ _ x => x.uses f
  | .assign _ t v => t.uses f ++ v.uses f
  | .index _ b s => b.uses f ++ s.uses f
  | .name _ i => [f.use i .var]
  -- the name behind a base waits for the type of the base
  | .field _ b _ => b.uses f
  | .call _ i args => f.use i .fn :: Expr.usesAll f args
  | .send _ b _ args => b.uses f ++ Expr.usesAll f args
  | .new _ i => [f.use i .cls]
  | .newArray _ s t => s.uses f ++ t.uses f
  | _ => []

/-- The names in several expressions. -/
def Expr.usesAll (f : Forest) : List Expr → List Finding
  | [] => []
  | e :: r => e.uses f ++ Expr.usesAll f r

end

/-- The names in an expression that may be missing. -/
def Expr.usesOpt (f : Forest) : Option Expr → List Finding
  | none => []
  | some e => e.uses f

/-- The names in the types of variables. -/
def VarDecl.usesAll (f : Forest) (vs : List VarDecl) : List Finding :=
  vs.flatMap fun v => v.type.uses f

/-! ## 2. Statements -/

mutual

/-- The names in a statement. -/
def Stmt.uses : Stmt → Forest → List Finding
  | .block b, f => b.uses f
  | .ifThen _ t s, f => t.uses f ++ s.uses f
  | .ifElse _ t s o, f => t.uses f ++ s.uses f ++ o.uses f
  | .while _ t s, f => t.uses f ++ s.uses f
  | .for _ i t u s, f => Expr.usesOpt f i ++ t.uses f ++ Expr.usesOpt f u ++ s.uses f
  | .switch _ e cs, f => e.uses f ++ Case.usesAll cs f
  | .break _, _ => []
  | .ret _ e, f => Expr.usesOpt f e
  | .print _ es, f => Expr.usesAll f es
  | .expr e, f => e.uses f

/-- The names in a block, in the scope of the block. -/
def Block.uses : Block → Forest → List Finding
  | ⟨n, ls, ss⟩, f => VarDecl.usesAll (f.enter n.id) ls ++ Stmt.usesAll ss (f.enter n.id)

/-- The names in an arm. -/
def Case.uses : Case → Forest → List Finding
  | ⟨_, ss⟩, f => Stmt.usesAll ss f

/-- The names in several statements. -/
def Stmt.usesAll : List Stmt → Forest → List Finding
  | [], _ => []
  | s :: r, f => s.uses f ++ Stmt.usesAll r f

/-- The names in several arms. -/
def Case.usesAll : List Case → Forest → List Finding
  | [], _ => []
  | c :: r, f => c.uses f ++ Case.usesAll r f

end

/-! ## 3. Declarations -/

/-- The names in a body that may be missing. -/
def Block.usesOpt : Option Block → Forest → List Finding
  | none, _ => []
  | some b, f => b.uses f

/-- The names in a function. -/
def FnDecl.uses (g : FnDecl) (f : Forest) : List Finding :=
  g.result.uses f ++ VarDecl.usesAll (f.enterFn g) g.formals ++ Block.usesOpt g.body (f.enterFn g)

/-- The names in a member of a class; the classes and interfaces among the members are left out. -/
def Decl.usesAsMember (f : Forest) : Decl → List Finding
  | .var v => v.type.uses f
  | .fn g => g.uses f
  | .iface _ => []
  | .cls _ => []

/-- The names in a class. -/
def ClassDecl.uses (c : ClassDecl) (f : Forest) : List Finding :=
  c.base.toList.map (fun b => f.use b .cls) ++ c.interfaces.map (fun i => f.use i .iface)
    ++ c.members.flatMap (Decl.usesAsMember (f.enterClass c))

/-- The names in an interface. -/
def IfaceDecl.uses (i : IfaceDecl) (f : Forest) : List Finding :=
  i.members.flatMap fun g => g.uses (f.enterIface i)

/-- What is wrong with the head of a function, if it is the one to start with. -/
def FnDecl.mainFaults (g : FnDecl) : List Finding :=
  if g.name = "main" then
    (if g.result.isVoid then [] else [.fault (.located g.ident.span .mainNotVoid)])
    ++ (if g.formals.isEmpty then []
        else [.fault (.located g.ident.span (.wrongArgCount g.name 0 g.formals.length))])
  else []

/-- The names in a declaration at the top level. -/
def Decl.uses (f : Forest) : Decl → List Finding
  | .var v => v.type.uses f
  | .cls c => c.uses f
  | .iface i => i.uses f
  | .fn g => g.uses f ++ g.mainFaults

/-! ## 4. Programs -/

/-- What the names of a program stand for. -/
structure Resolved where
  forest : Forest
  notes : Notes
  findings : List Finding

namespace Resolved

/-- The number of names that stand for something. -/
def boundCount (r : Resolved) : Nat := (r.findings.filterMap Finding.binding?).length

/-- The number of names that stand for nothing. -/
def unboundCount (r : Resolved) : Nat := r.findings.countP Finding.isUnbound

/-- The reports, in the order of the text. -/
def diagnostics (r : Resolved) : List Diagnostic := r.findings.filterMap Finding.diagnostic?

end Resolved

/-- The names of a program, looked up in a forest that has all its scopes. -/
def Program.findings (p : Program) (f : Forest) : List Finding :=
  p.decls.flatMap fun d => d.uses f

/-- Looks up all names of a program. It is visited first; where it was visited before, a walk that
enters the constructs while it looks gives the same (`Program.walks_uses`). -/
def Program.resolve (p : Program) (f : Forest) (a : Notes) : Resolved :=
  let f := p.visit f
  let found := p.findings f
  ⟨f, { a with bindings := a.bindings.insertAll (found.filterMap Finding.binding?) }, found⟩

end DecafLang
