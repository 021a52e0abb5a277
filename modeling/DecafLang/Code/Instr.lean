import DecafLang.Syntax.Operator
import DecafLang.Code.Location

/-!
# Three-address code

The instructions between a checked program and its assembly text. Every operand is a `Location`;
every value is a word of 32 bits.

* **Code is a list of instructions.** Functions stand one after the other, each between
  `enter` and `leave` behind the label of its name.
* Jumps and calls go to labels, which stand in the code as instructions of their own.
* `Code.text` prints labels and tables at the margin and all else one step in.
-/

namespace DecafLang.Code

/-- The place in the code that a jump, a call or a word of a table names. -/
abbrev Label := String

/-- An operation on two words. -/
inductive Op where
  | add | sub | mul | div | mod
  | eq | ne | lt | le | gt | ge
  | and | or
deriving DecidableEq, Repr, Inhabited

namespace Op

/-- The operation that an operator of the language stands for. -/
def ofBinary : BinaryOp → Op
  | .add => add
  | .sub => sub
  | .mul => mul
  | .div => div
  | .mod => mod
  | .less => lt
  | .lessEqual => le
  | .greater => gt
  | .greaterEqual => ge
  | .equal => eq
  | .notEqual => ne
  | .and => and
  | .or => or

/-- The operation as it is printed. -/
def symbol : Op → String
  | add => "+"
  | sub => "-"
  | mul => "*"
  | div => "/"
  | mod => "%"
  | eq => "=="
  | ne => "!="
  | lt => "<"
  | le => "<="
  | gt => ">"
  | ge => ">="
  | and => "&&"
  | or => "||"

end Op

/-- An instruction. -/
inductive Instr where
  | const (dst : Location) (value : Int32)
  | str (dst : Location) (value : String)
  /-- Takes the address of a label. -/
  | addr (dst : Location) (l : Label)
  | copy (dst src : Location)
  /-- Takes the word at an offset from the address that `src` holds. -/
  | load (dst src : Location) (offset : Int)
  /-- Puts a word at an offset from the address that `dst` holds. -/
  | store (dst src : Location) (offset : Int)
  | op (o : Op) (dst left right : Location)
  | label (l : Label)
  | jump (l : Label)
  | jumpIfZero (test : Location) (l : Label)
  /-- Opens a frame with so many bytes for locals and temporaries. -/
  | enter (frameSize : Int)
  /-- Closes the frame at the end of a function. -/
  | leave
  | ret (value : Option Location)
  | push (param : Location)
  /-- Takes so many bytes of parameters off the stack. -/
  | pop (bytes : Int)
  | call (l : Label) (dst : Option Location)
  /-- Calls the function whose address the location holds. -/
  | callVia (addr : Location) (dst : Option Location)
  /-- The table of a class: the labels of its methods. -/
  | table (cls : String) (methods : List Label)
deriving DecidableEq, Repr, Inhabited

namespace Instr

/-- Whether the instruction is printed at the margin. -/
def atMargin : Instr → Bool
  | label _ => true
  | table _ _ => true
  | _ => false

/-- The target of an assignment that may be missing. -/
def targetText : Option Location → String
  | none => ""
  | some d => d.name ++ " = "

/-- An address and an offset from it; the offset 0 is left out. -/
def addressText (l : Location) (offset : Int) : String :=
  if offset = 0 then s!"*({l.name})" else s!"*({l.name} + {offset})"

/-- The instruction as it is printed. -/
def text : Instr → String
  | const d v => s!"{d.name} = {v.toInt}"
  | str d v => d.name ++ " = \"" ++ v ++ "\""
  | addr d l => s!"{d.name} = {l}"
  | copy d s => s!"{d.name} = {s.name}"
  | load d s n => s!"{d.name} = " ++ addressText s n
  | store d s n => addressText d n ++ s!" = {s.name}"
  | op o d l r => s!"{d.name} = {l.name} " ++ o.symbol ++ s!" {r.name}"
  | label l => l ++ ":"
  | jump l => "Goto " ++ l
  | jumpIfZero t l => s!"IfZ {t.name} Goto {l}"
  | enter n => s!"BeginFunc {n}"
  | leave => "EndFunc"
  | ret none => "Return"
  | ret (some v) => "Return " ++ v.name
  | push p => "PushParam " ++ p.name
  | pop n => s!"PopParams {n}"
  | call l d => targetText d ++ "LCall " ++ l
  | callVia a d => targetText d ++ "ACall " ++ a.name
  | table c ms => s!"VTable {c} =\n" ++ String.join (ms.map fun m => s!"\t{m},\n") ++ "; "

/-- The instruction on a line of its own. -/
def line (i : Instr) : String := (if i.atMargin then "" else "\t") ++ i.text ++ "\n"

/-- The instruction with another frame size, if it opens a frame. -/
def resize (size : Int) : Instr → Instr
  | enter _ => enter size
  | i => i

end Instr

/-- The code as it is printed. -/
def text (code : List Instr) : String := String.join (code.map Instr.line)

/-- The code with a frame size for the function that opens at an index; at any other index
nothing changes. -/
def resizeAt (code : List Instr) (index : Nat) (size : Int) : List Instr :=
  code.modify index (Instr.resize size)

end DecafLang.Code
