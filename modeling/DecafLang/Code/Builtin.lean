import DecafLang.Code.Instr

/-!
# The runtime

The functions that generated code may call without defining them.
-/

namespace DecafLang.Code

/-- A function of the runtime. -/
inductive Builtin where
  /-- Reserves so many bytes. -/
  | alloc
  | readLine
  | readInteger
  /-- Gives 1 for equal strings and 0 for others. -/
  | stringEqual
  | printInt
  | printString
  | printBool
  /-- Ends the program. -/
  | halt
deriving DecidableEq, Repr, Inhabited

namespace Builtin

/-- Every function of the runtime. -/
def all : List Builtin :=
  [alloc, readLine, readInteger, stringEqual, printInt, printString, printBool, halt]

/-- The label to call. -/
def label : Builtin → Label
  | alloc => "_Alloc"
  | readLine => "_ReadLine"
  | readInteger => "_ReadInteger"
  | stringEqual => "_StringEqual"
  | printInt => "_PrintInt"
  | printString => "_PrintString"
  | printBool => "_PrintBool"
  | halt => "_Halt"

/-- The number of arguments. -/
def argCount : Builtin → Nat
  | readLine | readInteger | halt => 0
  | alloc | printInt | printString | printBool => 1
  | stringEqual => 2

/-- Whether the function gives a value. -/
def hasResult : Builtin → Bool
  | alloc | readLine | readInteger | stringEqual => true
  | _ => false

/-- The function that a label calls. -/
def ofLabel? (l : Label) : Option Builtin := all.find? (·.label == l)

end Builtin

end DecafLang.Code
