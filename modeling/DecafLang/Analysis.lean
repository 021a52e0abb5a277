import DecafLang.Check.Declarations
import DecafLang.Check.Uses
import DecafLang.Check.Members
import DecafLang.Check.Types
import DecafLang.Scope.Listing

/-!
# The analysis of a program

The checks of a program, one after the other: its declarations, the uses of names, the members of
its classes, and the types of its expressions.

**Every check runs, whatever the earlier ones have reported.** The reports stand in the order of
the checks.
-/

namespace DecafLang

/-- What the checks have found out about a program. -/
structure Analysis where
  hierarchy : Hierarchy
  declared : Declared
  resolved : Resolved
  conformance : Conformance
  typed : TypeChecked

namespace Analysis

/-- All scopes of the program. -/
def forest (a : Analysis) : Forest := a.typed.forest

/-- What the names stand for, and the types of the expressions. -/
def notes (a : Analysis) : Notes := a.typed.notes

/-- All reports, in the order in which they came. -/
def diagnostics (a : Analysis) : List Diagnostic :=
  a.declared.conflicts ++ a.resolved.diagnostics ++ a.conformance.diagnostics ++ a.typed.diagnostics

/-- Whether nothing was reported. -/
def isClean (a : Analysis) : Bool := a.diagnostics.isEmpty

end Analysis

/-- Runs all checks of a program. -/
def Program.analyze (p : Program) : Analysis :=
  let hierarchy := Hierarchy.ofProgram p
  let declared := p.declare .empty
  let resolved := p.resolve declared.forest .empty
  let conformance := p.conform resolved.forest resolved.notes
  let typed := p.checkTypes hierarchy conformance.forest resolved.notes
  ⟨hierarchy, declared, resolved, conformance, typed⟩

end DecafLang
