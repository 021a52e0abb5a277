import DecafLang.Lowering.Expr

/-!
# Code for statements

Statements become code that runs from its first instruction to its end, except where it jumps.

* A test that is false jumps over what it guards, to a label behind it.
* A loop comes back to a label in front of its test; a `break` goes to the label behind the
  innermost loop or `switch`.
* A `switch` compares its value with the labels of the arms in the order of the text, then goes
  to the default or behind the end. **The arms follow one another,** so control falls from one
  into the next.
* Locals get their slots where their block begins.
-/

namespace DecafLang

open Code (Emit Location Builtin Label)
open Lowering

namespace Surroundings

/-- The surroundings inside something that a `break` leaves towards a label. -/
def leavingTo (r : Surroundings) (l : Label) : Surroundings := { r with breakTo := some l }

end Surroundings

namespace Lowering

/-! ## 1. Parts of statements -/

/-- Gives locals their slots. -/
def withLocals (r : Surroundings) : List VarDecl → Emit Surroundings
  | [] => pure r
  | v :: vs => do
    let l ← Emit.newLocal v.name
    withLocals (r.withSlot v.id l) vs

/-- The function that prints a value of a type. -/
def printer (s : Span) : Ty → Emit Builtin
  | .int => pure .printInt
  | .bool => pure .printBool
  | .string => pure .printString
  | .double => Emit.refuse (.double s)
  | t => Emit.defect (.unprintable t)

/-- Prints values, one after the other. -/
def print (r : Surroundings) : List Expr → Emit Unit
  | [] => pure ()
  | e :: es => do
    let b ← printer e.span (r.typeAt e.node)
    let x ← e.value r
    let _ ← Emit.builtin b [x]
    print r es

/-- Gives a value back, if there is one. -/
def giveBack (r : Surroundings) : Option Expr → Emit Unit
  | none => Emit.instr (.ret none)
  | some e => do
    let x ← e.value r
    Emit.instr (.ret (some x))

/-- The code of an expression that may be missing; its value is not needed. -/
def evalOpt (r : Surroundings) : Option Expr → Emit Unit
  | none => pure ()
  | some e => do let _ ← e.eval r

/-- Jumps to the arm with the label that is equal to a value, where `arms` pairs the label of each
arm with that of its code. -/
def dispatch (value : Location) : List (Option Int32 × Label) → Emit Unit
  | [] => pure ()
  | (none, _) :: r => dispatch value r
  | (some v, l) :: r => do
    let constant ← Emit.constant v
    let differs ← Emit.op .ne value constant
    Emit.instr (.jumpIfZero differs l)
    dispatch value r

/-- The label of the last default among the arms. -/
def defaultLabel? (arms : List (Option Int32 × Label)) : Option Label :=
  (arms.filter fun a => a.1.isNone).getLast?.map Prod.snd

end Lowering

/-! ## 2. Statements -/

mutual

/-- The code of a statement. -/
def Stmt.lower : Stmt → Surroundings → Emit Unit
  | .block b, r => b.lower r
  | .ifThen _ t s, r => do
    let test ← t.value r
    let behind ← Emit.newLabel
    Emit.instr (.jumpIfZero test behind)
    s.lower r
    Emit.instr (.label behind)
  | .ifElse _ t s o, r => do
    let test ← t.value r
    let other ← Emit.newLabel
    Emit.instr (.jumpIfZero test other)
    s.lower r
    let behind ← Emit.newLabel
    Emit.instr (.jump behind)
    Emit.instr (.label other)
    o.lower r
    Emit.instr (.label behind)
  | .while _ t s, r => do
    let top ← Emit.newLabel
    let behind ← Emit.newLabel
    Emit.instr (.label top)
    let test ← t.value r
    Emit.instr (.jumpIfZero test behind)
    s.lower (r.leavingTo behind)
    Emit.instr (.jump top)
    Emit.instr (.label behind)
  | .for _ i t u s, r => do
    -- before the loop, and once
    evalOpt r i
    let top ← Emit.newLabel
    let behind ← Emit.newLabel
    Emit.instr (.label top)
    let test ← t.value r
    Emit.instr (.jumpIfZero test behind)
    s.lower (r.leavingTo behind)
    evalOpt r u
    Emit.instr (.jump top)
    Emit.instr (.label behind)
  | .switch _ e cs, r => do
    let value ← e.value r
    let behind ← Emit.newLabel
    let labels ← Emit.newLabels cs.length
    let arms := (cs.map Case.label).zip labels
    dispatch value arms
    -- the default comes last, wherever it stands among the arms
    Emit.instr (.jump ((defaultLabel? arms).getD behind))
    Case.lowerAll cs labels (r.leavingTo behind)
    Emit.instr (.label behind)
  | .break _, r => do
    let l ← Emit.required .breakOutside r.breakTo
    Emit.instr (.jump l)
  | .ret _ e, r => giveBack r e
  | .print _ es, r => print r es
  | .expr e, r => do let _ ← e.eval r

/-- The code of a block, with slots for its locals. -/
def Block.lower : Block → Surroundings → Emit Unit
  | ⟨_, ls, ss⟩, r => do
    let r ← withLocals r ls
    Stmt.lowerAll ss r

/-- The code of an arm. -/
def Case.lower : Case → Surroundings → Emit Unit
  | ⟨_, ss⟩, r => Stmt.lowerAll ss r

/-- The code of several statements. -/
def Stmt.lowerAll : List Stmt → Surroundings → Emit Unit
  | [], _ => pure ()
  | s :: ss, r => do
    s.lower r
    Stmt.lowerAll ss r

/-- The code of several arms, each behind its label. -/
def Case.lowerAll : List Case → List Label → Surroundings → Emit Unit
  | c :: cs, l :: ls, r => do
    Emit.instr (.label l)
    c.lower r
    Case.lowerAll cs ls r
  | _, _, _ => pure ()

end

end DecafLang
