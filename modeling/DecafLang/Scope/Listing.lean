import DecafLang.Scope.Forest

/-!
# The listing of the scopes

`Forest.listing` shows every scope that has something to tell: a heading with its owner and the
names it inherits from, and one line for each declaration.
-/

namespace DecafLang

/-- A declaration in one line; the line number is that of the whole declaration. -/
def Decl.summary : Decl → String
  | .var v => v.ident.name ++ ": " ++ v.type.ty.text ++ s!" (line {v.node.span.line})"
  | .cls c => s!"class {c.ident.name} (line {c.node.span.line})"
  | .iface i => s!"interface {i.ident.name} (line {i.node.span.line})"
  | .fn f =>
    f.ident.name ++ "(" ++ ", ".intercalate (f.formals.map fun v => v.type.ty.text) ++ ") -> "
      ++ f.result.ty.text ++ s!" (line {f.node.span.line})"

/-- The heading of a scope. -/
def Scope.heading (s : Scope) (id : ScopeId) : String :=
  s!"|- Scope {id}:"
    ++ (match s.owner with | some o => s!" (owner: {o.name})" | none => "")
    ++ (match s.parent with | some p => s!" (parent: {p})" | none => "")
    ++ (if s.interfaces.isEmpty then "" else " (interface: " ++ " ".intercalate s.interfaces ++ ")")

/-- The lines of a scope; a blank scope has none. -/
def Scope.lines (s : Scope) (id : ScopeId) : List String :=
  if s.isBlank then [] else s.heading id :: s.decls.map fun d => "|  + " ++ d.summary

/-- The lines of scopes that are numbered from `id` on. -/
def Scope.linesFrom : ScopeId → List Scope → List String
  | _, [] => []
  | id, s :: r => s.lines id ++ linesFrom (id + 1) r

/-- The line above and below the listing. -/
def Forest.ruler : String := "======== Symbol Table ========"

/-- All scopes, one below the other. -/
def Forest.listing (f : Forest) : String :=
  "\n".intercalate (Forest.ruler :: Scope.linesFrom 0 f.scopes ++ [Forest.ruler])

end DecafLang
