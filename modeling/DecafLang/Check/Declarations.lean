import DecafLang.Scope.Visit

/-!
# Declarations and their scopes

Every declaration of a program goes into the scope of the construct that it stands in, in the
order of the text.

* A class, an interface, a function and a block have a scope each; formals go into the scope of
  their function, locals into that of their block.
* **A name that the scope has already is a conflict:** it is reported, and the first declaration
  stays. The scopes of what is declared under such a name are made all the same.
-/

namespace DecafLang

/-- What the declarations so far have led to. -/
structure Declared where
  forest : Forest
  /-- The number of declarations that went into a scope. -/
  count : Nat
  /-- One report for each declaration that did not. -/
  conflicts : List Diagnostic
deriving Inhabited

namespace Declared

/-- Puts a declaration into the innermost open scope. -/
def put (s : Declared) (d : Decl) : Declared :=
  match s.forest.insert d with
  | .ok f => { s with forest := f, count := s.count + 1 }
  | .error e => { s with conflicts := s.conflicts ++ [e] }

/-- Puts variables into the innermost open scope. -/
def putVars (s : Declared) (vs : List VarDecl) : Declared :=
  vs.foldl (fun s v => s.put (.var v)) s

/-- Changes the forest. -/
def withForest (s : Declared) (change : Forest → Forest) : Declared :=
  { s with forest := change s.forest }

/-- Closes the innermost open scope. -/
def exit (s : Declared) : Declared := s.withForest Forest.exit

end Declared

/-! ## 1. Bodies -/

mutual

/-- The declarations of a statement. -/
def Stmt.declare : Stmt → Declared → Declared
  | .block b, d => b.declare d
  | .ifThen _ _ s, d => s.declare d
  | .ifElse _ _ s o, d => o.declare (s.declare d)
  | .while _ _ s, d => s.declare d
  | .for _ _ _ _ s, d => s.declare d
  | .switch _ _ cs, d => Case.declareAll cs d
  | .break _, d => d
  | .ret _ _, d => d
  | .print _ _, d => d
  | .expr _, d => d

/-- The declarations of a block, in the scope of the block. -/
def Block.declare : Block → Declared → Declared
  | ⟨n, ls, ss⟩, d =>
    (Stmt.declareAll ss ((d.withForest fun f => f.enter n.id).putVars ls)).exit

/-- The declarations of an arm. -/
def Case.declare : Case → Declared → Declared
  | ⟨_, ss⟩, d => Stmt.declareAll ss d

/-- The declarations of several statements. -/
def Stmt.declareAll : List Stmt → Declared → Declared
  | [], d => d
  | s :: r, d => Stmt.declareAll r (s.declare d)

/-- The declarations of several arms. -/
def Case.declareAll : List Case → Declared → Declared
  | [], d => d
  | c :: r, d => Case.declareAll r (c.declare d)

end

/-! ## 2. Declarations -/

/-- The declarations of a body that may be missing. -/
def Block.declareOpt : Option Block → Declared → Declared
  | none, d => d
  | some b, d => b.declare d

/-- The declarations in a function, in the scope of the function. -/
def FnDecl.declareInside (g : FnDecl) (d : Declared) : Declared :=
  (Block.declareOpt g.body ((d.withForest fun f => f.enterFn g).putVars g.formals)).exit

/-- A function and the declarations in it. -/
def FnDecl.declare (g : FnDecl) (d : Declared) : Declared := g.declareInside (d.put (.fn g))

/-- The declarations in an interface, in the scope of the interface. -/
def IfaceDecl.declareInside (i : IfaceDecl) (d : Declared) : Declared :=
  (i.members.foldl (fun d g => g.declare d) (d.withForest fun f => f.enterIface i)).exit

/-- The forest with the scope of a class opened, which remembers what the class inherits from. -/
def Forest.enterHeader (f : Forest) (c : ClassDecl) : Forest :=
  let f := f.enterClass c
  let f := match c.base with
    | some b => f.setBase b.name
    | none => f
  c.interfaces.foldl (fun f i => f.addListed i.name) f

mutual

/-- A declaration and the declarations in it. -/
def Decl.declare : Decl → Declared → Declared
  | .var v, d => d.put (.var v)
  | .fn g, d => g.declare d
  | .iface i, d => i.declareInside (d.put (.iface i))
  | .cls c, d => c.declareInside (d.put (.cls c))

/-- The declarations in a class, in the scope of the class. -/
def ClassDecl.declareInside : ClassDecl → Declared → Declared
  | ⟨n, i, b, is, ms⟩, d =>
    (Decl.declareAll ms (d.withForest fun f => f.enterHeader ⟨n, i, b, is, ms⟩)).exit

/-- Several declarations and the declarations in them. -/
def Decl.declareAll : List Decl → Declared → Declared
  | [], d => d
  | x :: r, d => Decl.declareAll r (x.declare d)

end

/-- All declarations of a program. -/
def Program.declare (p : Program) (f : Forest) : Declared :=
  Decl.declareAll p.decls ⟨f.reset, 0, []⟩

end DecafLang
