import DecafLang.Lowering.Basic

/-!
# Code for values that are at hand

The code of operators, arrays, objects and calls, once their operands have been computed.

* Every value goes to a new temporary.
* **An index is checked against the length,** which stands in the first word of the array; the
  elements follow it. The size of a new array is checked to be positive.
* An object starts with the address of the table of its class. A method is called through that
  table, a function by its label.
* Strings are compared by the runtime.
-/

namespace DecafLang

open Code (Emit Location Op Builtin Label)

/-! ## 1. Arrays -/

/-- What a program prints that leaves an array. -/
def subscriptMessage : String := "Decaf runtime error: Array subscript out of bounds\\n"

/-- What a program prints that makes an array without elements. -/
def arraySizeMessage : String := "Decaf runtime error: Array size is <= 0\\n"

namespace Lowering

/-- A function of the runtime that gives a value. -/
def builtinValue (b : Builtin) (args : List Location) : Emit Location := do
  Emit.required (.noBuiltinResult b.label) (← Emit.builtin b args)

/-- Ends the program with a message unless the word is zero. -/
def haltUnlessZero (test : Location) (message : String) : Emit Unit := do
  let ok ← Emit.newLabel
  Emit.instr (.jumpIfZero test ok)
  Emit.abort message
  Emit.instr (.label ok)

/-- Ends the program unless the index is one of the array. -/
def checkIndex (array index : Location) : Emit Unit := do
  let zero ← Emit.constant 0
  let negative ← Emit.op .lt index zero
  let length ← Emit.load array 0
  let below ← Emit.op .lt index length
  let pastEnd ← Emit.op .eq below zero
  let invalid ← Emit.op .or negative pastEnd
  haltUnlessZero invalid subscriptMessage

/-- The place of an element: the elements follow the word with the length. -/
def elementTarget (array index : Location) : Emit Target := do
  checkIndex array index
  let word ← Emit.constant (.ofNat wordSize)
  let scaled ← Emit.op .mul index word
  let offset ← Emit.op .add scaled word
  let pointer ← Emit.op .add array offset
  return .behind pointer 0

/-- A new array: one word for the length and one for each element. -/
def allocArray (length : Location) : Emit Location := do
  let one ← Emit.constant 1
  let tooSmall ← Emit.op .lt length one
  haltUnlessZero tooSmall arraySizeMessage
  let words ← Emit.op .add length one
  let word ← Emit.constant (.ofNat wordSize)
  -- the product is one of machine words and wraps around
  let bytes ← Emit.op .mul words word
  let array ← builtinValue .alloc [bytes]
  Emit.instr (.store array length 0)
  return array

/-! ## 2. Objects and calls -/

/-- A new object of a class, with the address of the class's table in its first word. -/
def allocObject (r : Surroundings) (i : Ident) : Emit Location := do
  let l ← Emit.required (.noLayout i.name) (r.layout.class? i.name)
  let size ← Emit.constant (.ofNat l.size)
  let object ← builtinValue .alloc [size]
  let table ← Emit.address i.name
  Emit.instr (.store object table 0)
  return object

/-- The label of a function that is no method. -/
def plainLabel (name : String) : Label := if name = "main" then name else "_" ++ name

/-- Calls the method in a slot of the table of the receiver. The arguments are pushed from the last
to the first, and then the receiver. -/
def callMethod (receiver : Location) (slot : Nat) (args : List Location) (hasResult : Bool) :
    Emit (Option Location) := do
  let table ← Emit.load receiver 0
  let addr ← Emit.load table (wordSize * slot : Nat)
  Emit.pushAll args.reverse
  Emit.instr (.push receiver)
  let result ← Emit.callVia addr hasResult
  Emit.pop (wordSize * (args.length + 1) : Nat)
  return result

/-- Calls a function by its label. The arguments are pushed from the last to the first. -/
def callFunction (name : String) (args : List Location) (hasResult : Bool) :
    Emit (Option Location) := do
  Emit.pushAll args.reverse
  let result ← Emit.call (plainLabel name) hasResult
  Emit.pop (wordSize * args.length : Nat)
  return result

/-- Refuses a call behind a base whose type is no class that is laid out. -/
def noInterfaceCall (r : Surroundings) (n : Node) (base : Ty) (i : Ident) : Emit Unit :=
  match base with
  | .named c =>
    match r.layout.class? c with
    | some _ => pure ()
    | none => Emit.refuse (.interfaceCall c i.name n.span)
  | _ => pure ()

/-! ## 3. Operators -/

/-- The code of an operator between two operands that are at hand. Strings are compared by the
runtime. -/
def binaryOp (op : BinaryOp) (strings : Bool) (l r : Location) : Emit Location :=
  match op, strings with
  | .equal, true => builtinValue .stringEqual [l, r]
  | .notEqual, true => do
    let equal ← builtinValue .stringEqual [l, r]
    let zero ← Emit.constant 0
    Emit.op .eq zero equal
  | op, _ => Emit.op (.ofBinary op) l r

/-- The code of an operator in front of an operand that is at hand. -/
def unaryOp (op : UnaryOp) (value : Location) : Emit Location := do
  let zero ← Emit.constant 0
  match op with
  | .neg => Emit.op .sub zero value
  | .not => Emit.op .eq zero value

/-- The operation of an operator behind a variable. -/
def stepOp : StepOp → Op
  | .increment => .add
  | .decrement => .sub

/-- Changes what lies at a place by one. **The value is the one that was there before.** -/
def stepTarget (op : StepOp) (p : Target) : Emit Location := do
  let current ← p.load
  -- a variable is loaded as its own word, so the value is put aside before it changes
  let before ← Emit.temp
  Emit.instr (.copy before current)
  let one ← Emit.constant 1
  let updated ← Emit.op (stepOp op) current one
  p.store updated
  return before

end Lowering

end DecafLang
