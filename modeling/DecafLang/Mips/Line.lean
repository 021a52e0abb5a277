import DecafLang.Code.Instr

/-!
# Lines of assembly

A `Line` is one line of MIPS assembly: a machine instruction with a remark behind it, a label,
or a line for the assembler.

* A machine instruction is a value, so what it does can be said without its spelling.
* **Where a line starts depends on its whole text:** one tab in, unless the text ends with a
  colon, and two blanks more, unless it starts with a `#`.
-/

namespace DecafLang.Mips

open DecafLang.Code (Label Op)

/-! ## 1. Machine instructions -/

/-- The registers in use. -/
inductive Reg where
  /-- The first operand. -/
  | t0
  /-- The second operand. -/
  | t1
  /-- The result. -/
  | t2
  /-- The address on the way to a location with a base. -/
  | t3
  | sp
  | fp
  | gp
  | ra
  | v0
deriving DecidableEq, Repr, Inhabited

/-- A register as it is written. -/
def Reg.name : Reg → String
  | t0 => "$t0"
  | t1 => "$t1"
  | t2 => "$t2"
  | t3 => "$t3"
  | sp => "$sp"
  | fp => "$fp"
  | gp => "$gp"
  | ra => "$ra"
  | v0 => "$v0"

/-- The mnemonic that computes an operation. -/
def opName : Op → String
  | .add => "add"
  | .sub => "sub"
  | .mul => "mul"
  | .div => "div"
  | .mod => "rem"
  | .eq => "seq"
  | .ne => "sne"
  | .lt => "slt"
  | .le => "sle"
  | .gt => "sgt"
  | .ge => "sge"
  | .and => "and"
  | .or => "or"

/-- A machine instruction. -/
inductive Instr where
  | li (rd : Reg) (value : Int32)
  | la (rd : Reg) (label : Label)
  /-- Takes the word at an offset from the address in `base`. -/
  | lw (rd : Reg) (offset : Int) (base : Reg)
  /-- Puts the word of `rs` at an offset from the address in `base`. -/
  | sw (rs : Reg) (offset : Int) (base : Reg)
  | alu (op : Op) (rd rs rt : Reg)
  | move (rd rs : Reg)
  | subu (rd rs : Reg) (value : Int)
  | addiu (rd rs : Reg) (value : Int)
  | addi (rd rs : Reg) (value : Int)
  | b (label : Label)
  | beqz (rs : Reg) (label : Label)
  | jal (label : Label)
  | jalr (rs : Reg)
  | jr (rs : Reg)
deriving DecidableEq, Repr

namespace Instr

/-- A target register, a source register and a number. -/
def immediate (op : String) (rd rs : Reg) (value : Int) : String :=
  op ++ " " ++ rd.name ++ ", " ++ rs.name ++ s!", {value}"

/-- A register and the place of a word. -/
def access (op : String) (r : Reg) (offset : Int) (base : Reg) : String :=
  op ++ " " ++ r.name ++ s!", {offset}(" ++ base.name ++ ")"

/-- The machine instruction as it is written. -/
def text : Instr → String
  | li rd v => "li " ++ rd.name ++ s!", {v.toInt}"
  | la rd l => "la " ++ rd.name ++ ", " ++ l
  | lw rd o base => access "lw" rd o base
  | sw rs o base => access "sw" rs o base
  | alu op rd rs rt => opName op ++ " " ++ rd.name ++ ", " ++ rs.name ++ ", " ++ rt.name
  | move rd rs => "move " ++ rd.name ++ ", " ++ rs.name
  | subu rd rs v => immediate "subu" rd rs v
  | addiu rd rs v => immediate "addiu" rd rs v
  | addi rd rs v => immediate "add" rd rs v
  | b l => "b " ++ l
  | beqz rs l => "beqz " ++ rs.name ++ ", " ++ l
  | jal l => "jal " ++ l
  | jalr rs => "jalr " ++ rs.name
  | jr rs => "jr " ++ rs.name

end Instr

/-! ## 2. Lines -/

/-- A line of assembly. -/
inductive Line where
  /-- A machine instruction, and what is written behind it. -/
  | instr (i : Instr) (tail : String)
  | label (l : Label)
  /-- The start of a part of memory, or of words on full addresses. -/
  | directive (text : String)
  /-- A text under a label. -/
  | asciiz (l : Label) (value : String)
  /-- The label of the table of a class. -/
  | tableLabel (cls : String)
  /-- The address of a label. -/
  | word (l : Label)
  | remark (text : String)
deriving DecidableEq, Repr

namespace Line

/-- The line without its indentation. -/
def text : Line → String
  | instr i tail => i.text ++ tail
  | label l => l ++ ":"
  | directive t => t
  | asciiz l v => l ++ ": .asciiz \"" ++ v ++ "\""
  | tableLabel c => s!"{c}:\t\t# label for class {c} vtable"
  | word l => ".word " ++ l
  | remark t => "#" ++ t

/-- A line with its indentation, which depends on the text. -/
def indented (text : String) : String :=
  (if text.endsWith ":" then "" else "\t") ++ (if text.startsWith "#" then "" else "  ") ++ text

/-- The line as it is printed. -/
def render (l : Line) : String := indented l.text ++ "\n"

end Line

end DecafLang.Mips
