import DecafLang.Chain
import DecafLang.Table
import DecafLang.Diagnostic
import DecafLang.Scope.Basic

/-!
# The forest of scopes

A `Forest` holds all scopes of a program and says which of them are open.

* Scope 0 is the global one. **It is open at all times,** below all others.
* A scope belongs to the node that opened it: the first visit to the node makes the scope, and
  every later visit finds it again.
* The scopes of classes and interfaces are registered under the names of their owners; the first
  to take a name keeps it. Inherited members are reached through these names.
-/

namespace DecafLang

/-- All scopes of a program, and those that are open. -/
structure Forest where
  /-- The scope with number `i` stands at position `i`. -/
  scopes : List Scope
  /-- The open scopes above the global one, innermost first. -/
  inner : List ScopeId
  /-- The scope that a node opens. -/
  ofNode : Table NodeId ScopeId
  /-- The scope registered for the name of a class or an interface. -/
  owners : Table String ScopeId
  /-- The scope that a declaration went into. -/
  declaredIn : Table NodeId ScopeId

namespace Forest

/-- The number of the global scope. -/
def globalId : ScopeId := 0

/-- Only the global scope, with nothing in it. -/
def empty : Forest := ⟨[.inside none], [], .empty, .empty, .empty⟩

instance : Inhabited Forest := ⟨empty⟩

/-! ## 1. Opening and closing -/

/-- The number of scopes. -/
def size (f : Forest) : Nat := f.scopes.length

/-- The open scopes, innermost first. -/
def active (f : Forest) : List ScopeId := f.inner ++ [globalId]

/-- The innermost open scope. -/
def current (f : Forest) : ScopeId := f.inner.headD globalId

/-- The scope with a number. -/
def scope (f : Forest) (id : ScopeId) : Scope := f.scopes.getD id default

/-- The forest with all scopes closed but the global one. -/
def reset (f : Forest) : Forest := { f with inner := [] }

/-- The forest with the innermost scope closed; the global scope stays open. -/
def exit (f : Forest) : Forest := { f with inner := f.inner.tail }

/-- The number of the scope that a node opens: its own one, or else the next free one. -/
def slotOf (f : Forest) (node : NodeId) : ScopeId := (f.ofNode.get? node).getD f.size

/-- The forest with a scope for the node, inside the innermost open one. -/
def grow (f : Forest) (node : NodeId) : Forest :=
  match f.ofNode.get? node with
  | some _ => f
  | none =>
    { f with
      scopes := f.scopes ++ [.inside (some f.current)]
      ofNode := f.ofNode.insert node f.size }

/-- The forest with the scope of a node opened. -/
def enter (f : Forest) (node : NodeId) : Forest :=
  { f.grow node with inner := f.slotOf node :: f.inner }

/-- The forest with an owner for a scope that has none; the scope of a class or an interface is
registered under the owner's name, unless the name is taken. -/
def claim (f : Forest) (id : ScopeId) (o : Owner) : Forest :=
  match (f.scope id).owner with
  | some _ => f
  | none =>
    { f with
      scopes := f.scopes.modify id (·.claim o)
      -- functions are found by their declarations, never by a scope
      owners := if o.kind = .fn then f.owners else f.owners.insertNew o.name id }

/-- The forest with the scope of a named construct opened. -/
def enterOwned (f : Forest) (node : NodeId) (o : Owner) : Forest :=
  { (f.grow node).claim (f.slotOf node) o with inner := f.slotOf node :: f.inner }

/-! ## 2. Filling -/

/-- The forest with a declaration put into the innermost open scope. -/
def add (f : Forest) (d : Decl) : Forest :=
  { f with
    scopes := f.scopes.modify f.current (·.add d)
    declaredIn := f.declaredIn.insert d.id f.current }

/-- Puts a declaration into the innermost open scope. **A name that is taken there is a
conflict,** and changes nothing. -/
def insert (f : Forest) (d : Decl) : Except Diagnostic Forest :=
  match (f.scope f.current).get? d.name with
  | some previous =>
    .error (.located d.ident.span (.declConflict d.name previous.ident.span.line))
  | none => .ok (f.add d)

/-- The forest in which the owner of the innermost open scope extends the class of that name. -/
def setBase (f : Forest) (name : String) : Forest :=
  { f with scopes := f.scopes.modify f.current fun s => { s with parent := some name } }

/-- The forest in which the owner of the innermost open scope lists the interface of that name. -/
def addListed (f : Forest) (name : String) : Forest :=
  { f with
    scopes := f.scopes.modify f.current fun s => { s with interfaces := s.interfaces ++ [name] } }

/-! ## 3. Finding -/

/-- The scope registered for a class or an interface. -/
def ownerScope? (f : Forest) (name : String) : Option ScopeId := f.owners.get? name

/-- The scope that a node opened. -/
def scopeOf? (f : Forest) (node : NodeId) : Option ScopeId := f.ofNode.get? node

/-- The scope that a declaration went into. -/
def declaredIn? (f : Forest) (decl : NodeId) : Option ScopeId := f.declaredIn.get? decl

/-- The scope of the class that the owner of a scope extends. -/
def parent? (f : Forest) (id : ScopeId) : Option ScopeId :=
  (f.scope id).parent.bind f.ownerScope?

/-- The scopes of the classes above the owner of a scope, nearest first. -/
def parents (f : Forest) (id : ScopeId) : List ScopeId := Chain.follow f.parent? f.size [id] id

/-- The declaration of a name that a scope inherits. -/
def above? (f : Forest) (id : ScopeId) (name : String) : Option Decl :=
  (f.parents id).findSome? fun p => (f.scope p).get? name

/-- The declaration of a name that a scope has, or else inherits. -/
def within? (f : Forest) (id : ScopeId) (name : String) : Option Decl :=
  ((f.scope id).get? name).or (f.above? id name)

/-- The declaration of a name in the innermost open scope alone. -/
def localDecl? (f : Forest) (name : String) : Option Decl := (f.scope f.current).get? name

/-- The declaration that a name stands for: **the open scopes are searched from the innermost
outwards,** each followed by what it inherits. -/
def lookup? (f : Forest) (name : String) : Option Decl :=
  f.active.findSome? fun id => f.within? id name

/-- The declaration of a name that the innermost open scope inherits. -/
def inherited? (f : Forest) (name : String) : Option Decl := f.above? f.current name

/-- The declaration of a name in the first of the listed interfaces that has it. -/
def required? (f : Forest) (name : String) : Option Decl :=
  (f.scope f.current).interfaces.findSome? fun i =>
    (f.ownerScope? i).bind fun id => (f.scope id).get? name

/-- The member of a class or an interface, its own or inherited. -/
def member? (f : Forest) (owner name : String) : Option Decl :=
  (f.ownerScope? owner).bind fun id => f.within? id name

/-- The class that a scope belongs to, as the global scope knows it. -/
def classOf? (f : Forest) (id : ScopeId) : Option ClassDecl :=
  match (f.scope id).owner with
  | some ⟨name, .cls⟩ => ((f.scope globalId).get? name).bind Decl.cls?
  | _ => none

/-- The class whose body is open, the innermost one first. -/
def enclosingClass? (f : Forest) : Option ClassDecl := f.active.findSome? f.classOf?

end Forest

end DecafLang
