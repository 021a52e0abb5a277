/-!
# Static types

A `Ty` is what the checker knows about the value of an expression.

* Classes and interfaces are named by their name alone.
* `Ty.error` stands for a type that could not be determined. **A rule that meets it stays
  silent,** so one mistake is reported once.
* Two types are the same exactly when they are written the same, up to the depth of arrays.
-/

namespace DecafLang

/-- Bytes of a word; every value the back end handles takes one. -/
def wordSize : Nat := 4

/-- A static type. -/
inductive Ty where
  | int
  | double
  | bool
  | string
  | void
  /-- The type of the literal `null`. -/
  | null
  /-- A class or an interface. -/
  | named (name : String)
  | array (elem : Ty)
  /-- The type of an expression that has none. -/
  | error
deriving DecidableEq, Repr, Inhabited

namespace Ty

/-- The type as it is written in messages. -/
def text : Ty → String
  | int => "int"
  | double => "double"
  | bool => "bool"
  | string => "string"
  | void => "void"
  | null => "null"
  | named n => n
  | array t => t.text ++ "[]"
  | error => "error"

/-- Whether the type could not be determined. -/
def isError : Ty → Bool
  | error => true
  | _ => false

/-- Whether the type is an array type. -/
def isArray : Ty → Bool
  | array _ => true
  | _ => false

/-- The class or interface that a named type names. -/
def name? : Ty → Option String
  | named n => some n
  | _ => none

theorem isError_iff {t : Ty} : t.isError = true ↔ t = error := by
  cases t <;> simp [isError]

/-! ## 1. Equivalence -/

/-- Whether two types are the same: the same primitive, the same name, or arrays of
equivalent elements. -/
def equiv : Ty → Ty → Bool
  | array a, array b => a.equiv b
  | a, b => a == b

theorem equiv_iff_eq {a b : Ty} : a.equiv b = true ↔ a = b := by
  induction a generalizing b with
  | array a ih => cases b <;> simp [equiv, ih]
  | _ => cases b <;> simp [equiv]

/-! ## 2. Signatures -/

/-- What callers see of a function: the return type and the types of the formals. -/
structure Signature where
  ret : Ty
  formals : List Ty
deriving DecidableEq, Repr

/-- Whether two lists hold equivalent types, position by position. -/
def equivAll : List Ty → List Ty → Bool
  | [], [] => true
  | a :: as, b :: bs => a.equiv b && equivAll as bs
  | _, _ => false

theorem equivAll_iff_eq {as bs : List Ty} : equivAll as bs = true ↔ as = bs := by
  induction as generalizing bs with
  | nil => cases bs <;> simp [equivAll]
  | cons a as ih => cases bs <;> simp [equivAll, ih, equiv_iff_eq]

/-- Whether a function of one signature may take the place of one of the other. -/
def Signature.agrees (a b : Signature) : Bool := a.ret.equiv b.ret && equivAll a.formals b.formals

theorem Signature.agrees_iff_eq {a b : Signature} : a.agrees b = true ↔ a = b := by
  cases a; cases b; simp [agrees, equiv_iff_eq, equivAll_iff_eq]

end Ty

end DecafLang
