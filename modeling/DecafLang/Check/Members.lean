import DecafLang.Notes
import DecafLang.Scope.Visit

/-!
# Members and what they inherit

Every member of a class is compared with what the class inherits under the same name, and with
what the listed interfaces ask for.

* A field may share its name with nothing that is inherited.
* A method may replace an inherited method of the same signature, and nothing else.
* **A class provides every prototype of the interfaces it lists,** itself or by inheritance. The
  first interface that is not provided is reported; the others are not looked at.
* A signature with a type that stands for nothing agrees with every other.
-/

namespace DecafLang

namespace Notes

/-- The signature of a function, if all types in it are known. -/
def signature? (a : Notes) (g : FnDecl) : Option Ty.Signature :=
  let s := a.signature g
  if s.ret.isError || s.formals.any Ty.isError then none else some s

/-- Whether two functions may stand for each other. -/
def sameSignature (a : Notes) (g h : FnDecl) : Bool :=
  match a.signature? g, a.signature? h with
  | some s, some t => s.agrees t
  | _, _ => true

end Notes

/-! ## 1. One member -/

/-- The report of a member whose name an inherited declaration has. -/
def Ident.conflictWith (i : Ident) (previous : Decl) : Diagnostic :=
  .located i.span (.declConflict i.name previous.ident.span.line)

/-- The report of a method with another signature than the inherited one. -/
def FnDecl.mismatch (g : FnDecl) : Diagnostic := .located g.ident.span (.overrideMismatch g.name)

/-- What is wrong with a field of the class whose scope is open. -/
def VarDecl.fieldFaults (f : Forest) (v : VarDecl) : List Diagnostic :=
  match (f.inherited? v.name).or (f.required? v.name) with
  | some d => [v.ident.conflictWith d]
  | none => []

/-- What is wrong with a method, compared with what the class inherits. -/
def FnDecl.overrideFaults (f : Forest) (a : Notes) (g : FnDecl) : List Diagnostic :=
  match f.inherited? g.name with
  | some (.fn h) => if a.sameSignature g h then [] else [g.mismatch]
  | some d => [g.ident.conflictWith d]
  | none => []

/-- What is wrong with a method, compared with what the listed interfaces ask for. -/
def FnDecl.requiredFaults (f : Forest) (a : Notes) (g : FnDecl) : List Diagnostic :=
  match f.required? g.name with
  | some (.fn h) => if a.sameSignature g h then [] else [g.mismatch]
  | _ => []

/-- Whether a method replaces an inherited one as it should. -/
def FnDecl.isOverride (f : Forest) (a : Notes) (g : FnDecl) : Bool :=
  match f.inherited? g.name with
  | some (.fn h) => a.sameSignature g h
  | _ => false

/-- What is wrong with a member; the classes and interfaces among them are left out. -/
def Decl.memberFaults (f : Forest) (a : Notes) : Decl → List Diagnostic
  | .var v => v.fieldFaults f
  -- each comparison reports on its own
  | .fn g => g.overrideFaults f a ++ g.requiredFaults f a
  | .iface _ => []
  | .cls _ => []

/-! ## 2. One class -/

/-- Whether a class has a prototype's method, its own or an inherited one. -/
def ClassDecl.hasMethod (f : Forest) (a : Notes) (c : ClassDecl) (proto : FnDecl) : Bool :=
  match f.member? c.name proto.name with
  | some (.fn g) => a.sameSignature g proto
  | _ => false

/-- The report of a listed name, if it stands for an interface that the class does not provide. -/
def ClassDecl.missing? (f : Forest) (a : Notes) (c : ClassDecl) (i : Ident) :
    Option Diagnostic :=
  match a.decl? i with
  | some (.iface d) =>
    if d.members.all (c.hasMethod f a) then none
    else some (.located i.span (.interfaceNotImplemented c.name d.name))
  | _ => none

/-- What is wrong with a class whose scope is open. -/
def ClassDecl.faults (f : Forest) (a : Notes) (c : ClassDecl) : List Diagnostic :=
  c.members.flatMap (Decl.memberFaults f a) ++ (c.interfaces.findSome? (c.missing? f a)).toList

/-! ## 3. Programs -/

/-- How the members of the classes agree with what they inherit. -/
structure Conformance where
  forest : Forest
  /-- The number of classes. -/
  classes : Nat
  /-- The number of methods that replace an inherited one as they should. -/
  overrides : Nat
  diagnostics : List Diagnostic

/-- Compares all classes at the top level with what they inherit. They are visited first; where they
were visited before, a walk that enters them while it compares gives the same
(`Program.walks_conform`). -/
def Program.conform (p : Program) (f : Forest) (a : Notes) : Conformance :=
  let f := p.visitClasses f
  let cs := p.decls.filterMap Decl.cls?
  { forest := f
    classes := cs.length
    overrides := cs.foldl (fun n c => n + c.methods.countP (FnDecl.isOverride (f.enterClass c) a)) 0
    diagnostics := cs.flatMap fun c => c.faults (f.enterClass c) a }

end DecafLang
