import DecafLang.Span
import DecafLang.Ty

/-!
# What goes wrong

* A `Diagnostic` is one rule of the language that a program breaks. The checker reports it and
  goes on.
* A `Refusal` is a construct that the back end cannot lower, or a defect it found in what it was
  given. It ends the compilation.
* A `Failure` is either of them.

**Each says what went wrong as a value;** its wording is in `text` alone.
-/

namespace DecafLang

/-! ## 1. Diagnostics -/

/-- What an identifier was expected to name. -/
inductive Sought where
  | type
  | cls
  | iface
  | var
  | fn
deriving DecidableEq, Repr, Inhabited

/-- The kind of declaration in words. -/
def Sought.text : Sought → String
  | type => "type"
  | cls => "class"
  | iface => "interface"
  | var => "variable"
  | fn => "function"

/-- A rule that is broken at one place of the program. -/
inductive Fault where
  /-- A name that is taken, in one scope or by an inherited member of another kind. -/
  | declConflict (name : String) (previousLine : Nat)
  /-- A method whose signature is not the one it inherits or has to provide. -/
  | overrideMismatch (name : String)
  | interfaceNotImplemented (cls interface : String)
  | notDeclared (name : String) (sought : Sought)
  | badOperand (op : String) (operand : Ty)
  | badOperands (op : String) (left right : Ty)
  | thisOutsideClass
  | indexOfNonArray
  | subscriptNotInt
  | arraySizeNotInt
  | wrongArgCount (name : String) (expected given : Nat)
  /-- Arguments count from 1. -/
  | badArg (index : Nat) (given expected : Ty)
  | badPrintArg (index : Nat) (given : Ty)
  | noSuchField (field : String) (base : Ty)
  | hiddenField (field : String) (base : Ty)
  | testNotBool
  | badReturn (given expected : Ty)
  | breakOutsideLoop
  | mainNotVoid
deriving DecidableEq, Repr

/-- The rule that is broken, in words. -/
def Fault.text : Fault → String
  | declConflict n l => s!"Declaration of '{n}' here conflicts with declaration on line {l}"
  | overrideMismatch n => s!"Method '{n}' must match inherited type signature"
  | interfaceNotImplemented c i => s!"Class '{c}' does not implement entire interface '{i}'"
  | notDeclared n k => "No declaration found for " ++ k.text ++ s!" '{n}'"
  | badOperand op t => s!"Incompatible operand: {op} " ++ t.text
  | badOperands op l r => "Incompatible operands: " ++ l.text ++ s!" {op} " ++ r.text
  | thisOutsideClass => "'this' is only valid within class scope"
  | indexOfNonArray => "[] can only be applied to arrays"
  | subscriptNotInt => "Array subscript must be an integer"
  | arraySizeNotInt => "Size for NewArray must be an integer"
  | wrongArgCount n e g =>
    s!"Function '{n}' expects {e} argument" ++ (if e = 1 then "" else "s") ++ s!" but {g} given"
  | badArg i g e => s!"Incompatible argument {i}: " ++ g.text ++ " given, " ++ e.text ++ " expected"
  | badPrintArg i g =>
    s!"Incompatible argument {i}: " ++ g.text ++ " given, int/bool/string expected"
  | noSuchField f b => b.text ++ s!" has no such field '{f}'"
  | hiddenField f b => b.text ++ s!" field '{f}' only accessible within class scope"
  | testNotBool => "Test expression must have boolean type"
  | badReturn g e => "Incompatible return: " ++ g.text ++ " given, " ++ e.text ++ " expected"
  | breakOutsideLoop => "break is only allowed inside a loop"
  | mainNotVoid => "Return value of 'main' function is expected to be void"

/-- A report of the checker. -/
inductive Diagnostic where
  /-- A rule that is broken at a place of the text. -/
  | located (span : Span) (fault : Fault)
  /-- The program as a whole has no function to start with. -/
  | noMain
deriving DecidableEq, Repr

namespace Diagnostic

/-- Where the diagnostic points; one about the whole program points nowhere. -/
def span : Diagnostic → Span
  | located s _ => s
  | noMain => .nowhere

/-- The diagnostic as it is printed. -/
def text : Diagnostic → String
  | located s f => "at " ++ s.text ++ ": *** " ++ f.text
  | noMain => "*** Linker: function 'main' not defined"

/-- Reports one below the other, in report order. -/
def listing (ds : List Diagnostic) : String := String.join (ds.map fun d => d.text ++ "\n")

end Diagnostic

/-! ## 2. Refusals -/

/-- A defect in what the back end was given. -/
inductive Defect where
  | noGlobalSlot (name : String)
  | noLayout (cls : String)
  | noValue (span : Span)
  | thisOutsideMethod
  | noBuiltinResult (label : String)
  | notAssignable (span : Span)
  | notVariable (name : String) (span : Span)
  | notField (name : String) (span : Span)
  | unresolvedCall (name : String) (span : Span)
  | noMethodSlot (name : String) (span : Span)
  | unprintable (type : Ty)
  | breakOutside
  | builtinArgs (label : String) (expected given : Nat)
  /-- A defect that is known by its wording only. -/
  | other (message : String)
deriving DecidableEq, Repr

/-- The defect in words. -/
def Defect.text : Defect → String
  | noGlobalSlot n => s!"no global slot for '{n}'"
  | noLayout c => s!"no layout for class '{c}'"
  | noValue s => "expression at " ++ s.text ++ " has no value"
  | thisOutsideMethod => "'this' outside a method"
  | noBuiltinResult l => l ++ " returns no value"
  | notAssignable s => "expression at " ++ s.text ++ " is not assignable"
  | notVariable n s => s!"'{n}' at " ++ s.text ++ " is not bound to a variable"
  | notField n s => s!"'{n}' at " ++ s.text ++ " is not a field"
  | unresolvedCall n s => s!"call to '{n}' at " ++ s.text ++ " is unresolved"
  | noMethodSlot n s => s!"'{n}' at " ++ s.text ++ " has no vtable slot"
  | unprintable t => "cannot print a value of type " ++ t.text
  | breakOutside => "break outside loop or switch"
  | builtinArgs l e g => l ++ s!" takes {e} arguments, {g} given"
  | other m => m

/-- Why the back end gives up. -/
inductive Refusal where
  | double (span : Span)
  | interfaceCall (interface method : String) (span : Span)
  | cyclicInheritance (cls : String) (span : Span)
  | internal (defect : Defect)
deriving DecidableEq, Repr

namespace Refusal

/-- Where the refused construct stands, if it stands anywhere. -/
def span? : Refusal → Option Span
  | double s => some s
  | interfaceCall _ _ s => some s
  | cyclicInheritance _ s => some s
  | internal _ => none

/-- The refusal as it is printed. -/
def text : Refusal → String
  | double s => "at " ++ s.text ++ ": double is not supported by the compiler back end"
  | interfaceCall i m s =>
    "at " ++ s.text ++ s!": calling '{m}' through interface '{i}' is not supported by the "
      ++ "compiler back end"
  | cyclicInheritance c s => "at " ++ s.text ++ s!": inheritance cycle involving class '{c}'"
  | internal d => "internal compiler error: " ++ d.text

end Refusal

/-! ## 3. Both together -/

/-- Why there is no code. -/
inductive Failure where
  | diagnostic (d : Diagnostic)
  | refusal (r : Refusal)
deriving DecidableEq, Repr

namespace Failure

/-- Where the failure points, if anywhere. -/
def span? : Failure → Option Span
  | diagnostic d => some d.span
  | refusal r => r.span?

/-- The failure as it is printed. -/
def text : Failure → String
  | diagnostic d => d.text
  | refusal r => r.text

end Failure

end DecafLang
