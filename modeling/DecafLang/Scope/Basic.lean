import DecafLang.Syntax.Basic

/-!
# Scopes

A `Scope` holds the declarations that one construct brings into sight.

* A declaration is found by its name; **of two with one name the first is found.**
* The scope of a class remembers the names of the class it extends and of the interfaces it
  lists, so that inherited members can be reached.
-/

namespace DecafLang

/-- The number of a scope. -/
abbrev ScopeId := Nat

/-- What a named scope was opened for. -/
inductive OwnerKind where
  | cls
  | iface
  | fn
deriving DecidableEq, Repr, Inhabited

/-- The construct that a named scope belongs to. -/
structure Owner where
  name : String
  kind : OwnerKind
deriving DecidableEq, Repr, Inhabited

/-- The declarations of one construct. -/
structure Scope where
  /-- In the order in which they came. -/
  decls : List Decl
  /-- The scope around this one. -/
  enclosing : Option ScopeId
  owner : Option Owner
  /-- The name of the class that the owner extends. -/
  parent : Option String
  /-- The names of the interfaces that the owner lists. -/
  interfaces : List String

namespace Scope

/-- A scope with nothing in it, inside another. -/
def inside (enclosing : Option ScopeId) : Scope := ⟨[], enclosing, none, none, []⟩

instance : Inhabited Scope := ⟨inside none⟩

/-- The declaration of a name. -/
def get? (s : Scope) (name : String) : Option Decl := s.decls.find? (·.name == name)

/-- Whether there is nothing to tell about the scope. -/
def isBlank (s : Scope) : Bool :=
  s.decls.isEmpty && s.owner.isNone && s.parent.isNone && s.interfaces.isEmpty

/-- The scope with one more declaration. -/
def add (s : Scope) (d : Decl) : Scope := { s with decls := s.decls ++ [d] }

/-- The scope given an owner, unless it has one. -/
def claim (s : Scope) (o : Owner) : Scope := { s with owner := some (s.owner.getD o) }

@[simp] theorem get?_inside (e : Option ScopeId) (n : String) : (inside e).get? n = none := rfl

end Scope

end DecafLang
