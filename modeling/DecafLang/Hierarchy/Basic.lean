import DecafLang.Chain
import DecafLang.Precedence
import DecafLang.Diagnostic
import DecafLang.Syntax.Basic

/-!
# The class hierarchy

The classes and interfaces that a program declares at the top level, and how they are related.

* **A name that is declared twice keeps its first declaration.**
* A name after `extends` counts only if it is that of a class, and a listed name only if it is
  that of an interface.
* The classes above a class are found by following `extends`; the way ends where it comes back
  to a class.
-/

namespace DecafLang

/-- A class or an interface. -/
inductive TypeDecl where
  | cls (c : ClassDecl)
  | iface (i : IfaceDecl)
deriving Inhabited

namespace TypeDecl

/-- The class or interface, if a declaration is one. -/
def ofDecl? : Decl → Option TypeDecl
  | .cls c => some (cls c)
  | .iface i => some (iface i)
  | _ => none

/-- The declaration of the type. -/
def decl : TypeDecl → Decl
  | cls c => .cls c
  | iface i => .iface i

/-- The declared name. -/
def name (t : TypeDecl) : String := t.decl.name

/-- The class, if the type is one. -/
def cls? : TypeDecl → Option ClassDecl
  | cls c => some c
  | iface _ => none

/-- The interface, if the type is one. -/
def iface? : TypeDecl → Option IfaceDecl
  | cls _ => none
  | iface i => some i

end TypeDecl

/-- The types of a program, in the order of the text, each name once. -/
structure Hierarchy where
  types : List TypeDecl

namespace Hierarchy

/-- The types of a list whose name is not among those seen, each name once. -/
def firsts : List String → List TypeDecl → List TypeDecl
  | _, [] => []
  | seen, t :: r =>
    if t.name ∈ seen then firsts seen r else t :: firsts (t.name :: seen) r

/-- The hierarchy of the top-level declarations of a program. -/
def ofProgram (p : Program) : Hierarchy := ⟨firsts [] (p.decls.filterMap TypeDecl.ofDecl?)⟩

/-! ## 1. Relations -/

/-- The type of a name. -/
def get? (h : Hierarchy) (name : String) : Option TypeDecl := h.types.find? (·.name == name)

/-- The class of a name. -/
def class? (h : Hierarchy) (name : String) : Option ClassDecl := (h.get? name).bind TypeDecl.cls?

/-- The interface of a name. -/
def iface? (h : Hierarchy) (name : String) : Option IfaceDecl :=
  (h.get? name).bind TypeDecl.iface?

/-- The names of all types. -/
def names (h : Hierarchy) : List String := h.types.map TypeDecl.name

/-- The class that a class extends. -/
def base? (h : Hierarchy) (name : String) : Option String :=
  match h.class? name with
  | none => none
  | some c =>
    match c.base with
    | none => none
    | some b => if (h.class? b.name).isSome then some b.name else none

/-- The interfaces that a class lists itself, in the order of the text. -/
def listed (h : Hierarchy) (name : String) : List String :=
  match h.class? name with
  | none => []
  | some c => (c.interfaces.map Ident.name).filter fun i => (h.iface? i).isSome

/-- A class with the classes above it, nearest first. -/
def ancestors (h : Hierarchy) (name : String) : List String :=
  Chain.fromStart h.base? h.types.length name

/-- Whether a class is another one or derives from it. -/
def isSubclass (h : Hierarchy) (derived ancestor : String) : Bool :=
  ancestor ∈ h.ancestors derived

/-- Whether a class or one above it lists an interface. -/
def implements (h : Hierarchy) (cls iface : String) : Bool :=
  (h.ancestors cls).any fun c => iface ∈ h.listed c

/-! ## 2. Bases before derived classes -/

/-- The types that a class is based on, the one that is written last first. -/
def bases (h : Hierarchy) (name : String) : List String :=
  ((h.base? name).toList ++ h.listed name).reverse

/-- The classes that are based on a type, once for every time they name it, the one that is
written last first. -/
def derived (h : Hierarchy) (name : String) : List String :=
  (h.names.flatMap fun c =>
    (((h.base? c).toList ++ h.listed c).filter (· = name)).map fun _ => c).reverse

/-- The refusal of a cycle that a type lies on. -/
def cycleAt (h : Hierarchy) (name : String) : Refusal :=
  .cyclicInheritance name (((h.get? name).map fun t => t.decl.node.span).getD .nowhere)

/-- All classes, each after the class that it extends. -/
def sorted (h : Hierarchy) : Except Refusal (List ClassDecl) :=
  match Precedence.sort h.derived h.bases h.names with
  | .error n => .error (h.cycleAt n)
  | .ok order => .ok (order.filterMap h.class?)

end Hierarchy

end DecafLang
