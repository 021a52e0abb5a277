import DecafLang.Scope.Forest

/-!
# Visiting the scopes of a program

Every walk over a program opens the scopes of the constructs on its way. `visit` is that walk and
nothing else: **it makes the scopes that are missing, and leaves the rest of the forest as it
was.** Once all scopes are there, a visit changes nothing.

A walk that looks things up visits the program first. So it can take the forest as it is and go
down into a construct by opening its scope, without giving anything back.

A compiler may as well open the scopes while it looks things up, in one walk. **The two differ only
where a scope is missing on the way.** None is once a program whose pieces have numbers of their own
(`Program.Numbered`) is declared: there every walk of that kind sees what is looked up here, and it
leaves the same forest (`Program.walks_uses`, `Program.walks_conform` and `Program.reads` in
`DecafLang.Proofs.Reentry`).
-/

namespace DecafLang

/-- The owner of the scope of a class. -/
def ClassDecl.owner (c : ClassDecl) : Owner := ⟨c.name, .cls⟩

/-- The owner of the scope of an interface. -/
def IfaceDecl.owner (i : IfaceDecl) : Owner := ⟨i.name, .iface⟩

/-- The owner of the scope of a function. -/
def FnDecl.owner (f : FnDecl) : Owner := ⟨f.name, .fn⟩

namespace Forest

/-- The forest with the scope of a class opened. -/
def enterClass (f : Forest) (c : ClassDecl) : Forest := f.enterOwned c.node.id c.owner

/-- The forest with the scope of an interface opened. -/
def enterIface (f : Forest) (i : IfaceDecl) : Forest := f.enterOwned i.node.id i.owner

/-- The forest with the scope of a function opened. -/
def enterFn (f : Forest) (g : FnDecl) : Forest := f.enterOwned g.id g.owner

end Forest

/-! ## 1. Bodies -/

mutual

/-- Visits the blocks of a statement. -/
def Stmt.visit : Stmt → Forest → Forest
  | .block b, f => b.visit f
  | .ifThen _ _ s, f => s.visit f
  | .ifElse _ _ s o, f => o.visit (s.visit f)
  | .while _ _ s, f => s.visit f
  | .for _ _ _ _ s, f => s.visit f
  | .switch _ _ cs, f => Case.visitAll cs f
  | .break _, f => f
  | .ret _ _, f => f
  | .print _ _, f => f
  | .expr _, f => f

/-- Visits a block and the blocks in it. -/
def Block.visit : Block → Forest → Forest
  | ⟨n, _, ss⟩, f => (Stmt.visitAll ss (f.enter n.id)).exit

/-- Visits the blocks of an arm. -/
def Case.visit : Case → Forest → Forest
  | ⟨_, ss⟩, f => Stmt.visitAll ss f

/-- Visits the blocks of several statements. -/
def Stmt.visitAll : List Stmt → Forest → Forest
  | [], f => f
  | s :: r, f => Stmt.visitAll r (s.visit f)

/-- Visits the blocks of several arms. -/
def Case.visitAll : List Case → Forest → Forest
  | [], f => f
  | c :: r, f => Case.visitAll r (c.visit f)

end

/-! ## 2. Declarations -/

/-- Visits a body that may be missing. -/
def Block.visitOpt : Option Block → Forest → Forest
  | none, f => f
  | some b, f => b.visit f

/-- Visits a function and its body. -/
def FnDecl.visit (g : FnDecl) (f : Forest) : Forest := (Block.visitOpt g.body (f.enterFn g)).exit

/-- Visits several functions. -/
def FnDecl.visitAll (gs : List FnDecl) (f : Forest) : Forest := gs.foldl (fun f g => g.visit f) f

/-- Visits a class alone. -/
def ClassDecl.visitScope (c : ClassDecl) (f : Forest) : Forest := (f.enterClass c).exit

/-- Visits a class and its methods; what is declared in it otherwise is left out. -/
def ClassDecl.visit (c : ClassDecl) (f : Forest) : Forest :=
  (FnDecl.visitAll c.methods (f.enterClass c)).exit

/-- Visits an interface and its prototypes. -/
def IfaceDecl.visit (i : IfaceDecl) (f : Forest) : Forest :=
  (FnDecl.visitAll i.members (f.enterIface i)).exit

/-! ## 3. Programs -/

namespace Program

/-- Visits the classes, interfaces and functions with all that is in them. -/
def visit (p : Program) (f : Forest) : Forest :=
  p.decls.foldl (fun f d =>
    match d with
    | .cls c => c.visit f
    | .iface i => i.visit f
    | .fn g => g.visit f
    | .var _ => f) f.reset

/-- Visits the classes and the functions, with all bodies. -/
def visitBodies (p : Program) (f : Forest) : Forest :=
  p.decls.foldl (fun f d =>
    match d with
    | .cls c => c.visit f
    | .fn g => g.visit f
    | _ => f) f.reset

/-- Visits the classes alone. -/
def visitClasses (p : Program) (f : Forest) : Forest :=
  p.decls.foldl (fun f d =>
    match d with
    | .cls c => c.visitScope f
    | _ => f) f.reset

end Program

end DecafLang
