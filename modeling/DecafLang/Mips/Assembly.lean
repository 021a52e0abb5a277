import DecafLang.Mips.Line

/-!
# Assembly for three-address code

Each instruction is turned into lines on its own. **Every operand is taken from memory right
before its use and every result is put back right after,** so no register keeps a value from one
instruction to the next.

The stack grows downwards. Counted from the frame pointer, a function has

* its parameters at 4, 8, …;
* the frame pointer of its caller at 0 and the return address at -4;
* its locals and temporaries at -8, -12, ….
-/

namespace DecafLang.Mips

open DecafLang.Code (Label Location Segment)

/-! ## 1. Operands and results -/

/-- An offset with its sign, also if it is 0. -/
def signed (offset : Int) : String := if offset < 0 then s!"{offset}" else s!"+{offset}"

/-- The register that the offsets of a segment count from. -/
def Reg.ofSegment : Segment → Reg
  | .frame => fp
  | .globals => gp

/-- Takes the word of a location into a register. A base is taken first, into a register of its
own. -/
def fill : Location → Reg → List Line
  | .direct s o n, r => [line o n r (.ofSegment s)]
  | .based b o n, r => fill b .t3 ++ [line o n r .t3]
where
  /-- One word taken from an offset. -/
  line (o : Int) (n : String) (r base : Reg) : Line :=
    .instr (.lw r o base)
      (s!"\t# fill {n} to " ++ r.name ++ " from " ++ base.name ++ signed o)

/-- Puts a register into the word of a location. -/
def spill : Location → Reg → List Line
  | .direct s o n, r => [line o n r (.ofSegment s)]
  | .based b o n, r => fill b .t3 ++ [line o n r .t3]
where
  /-- One word put at an offset. -/
  line (o : Int) (n : String) (r base : Reg) : Line :=
    .instr (.sw r o base)
      (s!"\t# spill {n} from " ++ r.name ++ " to " ++ base.name ++ signed o)

/-- The address of a label, put into a location. -/
def loadLabel (dst : Location) (l : Label) : List Line :=
  .instr (.la .t2 l) "\t# load label" :: spill dst .t2

/-! ## 2. Functions -/

/-- The callee opens its frame. -/
def prologue (frameSize : Int) : List Line :=
  [.instr (.subu .sp .sp 8) "\t# decrement sp to make space to save ra, fp",
   .instr (.sw .fp 8 .sp) "\t# save fp",
   .instr (.sw .ra 4 .sp) "\t# save ra",
   .instr (.addiu .fp .sp 8) "\t# set up new fp"]
  ++ if frameSize = 0 then [] else
    [.instr (.subu .sp .sp frameSize) "\t# decrement sp to make space for locals/temps"]

/-- The callee closes its frame and goes back. -/
def epilogue : List Line :=
  [.instr (.move .sp .fp) "\t\t# pop callee frame off stack",
   -- the return address first: after the frame pointer is back it could not be found
   .instr (.lw .ra (-4) .fp) "\t# restore saved ra",
   .instr (.lw .fp 0 .fp) "\t# restore saved fp",
   .instr (.jr .ra) "\t\t# return from function"]

/-- The callee hands over a value, if it has one, and goes back. -/
def ret : Option Location → List Line
  | none => epilogue
  | some v => fill v .t2 ++ .instr (.move .v0 .t2) "\t\t# assign return value into $v0" :: epilogue

/-- The blanks that fill up a text to 15 characters. -/
def padding (s : String) : String := String.ofList (List.replicate (15 - s.length) ' ')

/-- What is written behind a call of a function that is written like this. -/
def callTail (callee : String) : String := padding callee ++ "\t# jump to function"

/-- The caller takes over the value of a call. -/
def takeResult : Option Location → List Line
  | none => []
  | some d =>
    .instr (.move .t2 .v0) "\t\t# copy function return value from $v0" :: spill d .t2

/-! ## 3. Instructions -/

/-- The label of a text by its number. -/
def stringLabel (n : Nat) : Label := s!"_string{n}"

/-- The lines of an instruction. A text in it gets the label with the given number. -/
def ofInstr (strings : Nat) : Code.Instr → List Line
  | .const d v =>
    .instr (.li .t2 v) (s!"\t\t# load constant value {v.toInt} into " ++ Reg.t2.name) :: spill d .t2
  | .str d v =>
    [.directive ".data\t\t\t# create string constant marked with label",
     .asciiz (stringLabel strings) v, .directive ".text"] ++ loadLabel d (stringLabel strings)
  | .addr d l => loadLabel d l
  | .copy d s => fill s .t2 ++ spill d .t2
  | .load d s o => fill s .t0 ++ .instr (.lw .t2 o .t0) " \t# load with offset" :: spill d .t2
  | .store d s o => fill s .t0 ++ fill d .t2 ++ [.instr (.sw .t0 o .t2) " \t# store with offset"]
  | .op o d l r => fill l .t0 ++ fill r .t1 ++ .instr (.alu o .t2 .t0 .t1) "\t" :: spill d .t2
  | .label l => [.label l]
  | .jump l => [.instr (.b l) "\t\t# unconditional branch"]
  | .jumpIfZero t l =>
    fill t .t0 ++ [.instr (.beqz .t0 l) ("\t# branch if " ++ t.name ++ " is zero")]
  | .enter n => prologue n
  | .leave =>
    .remark " (below handles reaching end of fn body with no explicit return)" :: ret none
  | .ret v => ret v
  | .push p =>
    .instr (.subu .sp .sp 4) "\t# decrement sp to make space for param"
      :: fill p .t0 ++ [.instr (.sw .t0 4 .sp) "\t# copy param value to stack"]
  | .pop n => if n = 0 then [] else [.instr (.addi .sp .sp n) "\t# pop params off stack"]
  | .call l d => .instr (.jal l) (callTail l) :: takeResult d
  | .callVia a d =>
    fill a .t0 ++ .instr (.jalr .t0) (callTail Reg.t0.name) :: takeResult d
  | .table c ms =>
    [.directive ".data", .directive ".align 2", .tableLabel c] ++ ms.map .word
      ++ [.directive ".text"]

/-- How many texts an instruction holds. -/
def textsIn : Code.Instr → Nat
  | .str _ _ => 1
  | _ => 0

/-- The lines of code behind which so many texts have been numbered; **texts are numbered from 1
in the order in which they come.** -/
def ofCodeFrom (strings : Nat) : List Code.Instr → List Line
  | [] => []
  | i :: r => ofInstr (strings + textsIn i) i ++ ofCodeFrom (strings + textsIn i) r

/-- What stands in front of every program. -/
def preamble : List Line :=
  [.remark " standard Decaf preamble ", .directive ".text", .directive ".align 2",
   .directive ".globl main"]

/-- The lines of a program. -/
def ofCode (code : List Code.Instr) : List Line := preamble ++ ofCodeFrom 0 code

/-- The assembly of a program. -/
def assembly (code : List Code.Instr) : String := String.join ((ofCode code).map Line.render)

end DecafLang.Mips
