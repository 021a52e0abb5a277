import DecafLang.Hierarchy.Basic

/-!
# Which value may stand where

`Hierarchy.accepts` says whether a value of one type may be put where another is required.

* A named type takes `null`, itself, the classes that derive from it and the classes that
  implement it.
* An array type takes `null` and arrays of the same elements.
* Every other type takes itself alone.
* **`Ty.error` goes with everything,** on either side.
-/

namespace DecafLang

namespace Hierarchy

/-- Whether a value of the given type may stand where the expected type is required. -/
def accepts (h : Hierarchy) (expected given : Ty) : Bool :=
  match expected, given with
  | .error, _ => true
  | _, .error => true
  | .named _, .null => true
  | .array _, .null => true
  | .named target, .named source =>
    target == source || h.isSubclass source target || h.implements source target
  | .array a, .array b => a.equiv b
  | e, g => e == g

end Hierarchy

end DecafLang
