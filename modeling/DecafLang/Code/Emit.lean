import DecafLang.Diagnostic
import DecafLang.Code.Builtin

/-!
# Writing code

`Emit α` writes a piece of code and gives a value, such as the location that holds a result.

* **The code of two steps in a row is the code of the first followed by that of the second.**
  So what a piece of code does can be said without what stands before it.
* A `Supply` counts the slots, temporaries and labels that are handed out. Temporaries and labels
  are numbered through the whole program, slots through one function.
* Locals and temporaries lie below the two words where a function saves the frame and the return
  address of its caller; parameters lie above.
* **Counts and offsets have no bound here.** Offsets fit into 32 bits with a sign as long as a
  function has fewer than `2 ^ 29 - 1` locals and temporaries, and fewer formals than that. The
  numbers of temporaries and labels fit into 32 bits as long as a program has fewer than `2 ^ 32` of
  each.
-/

namespace DecafLang.Code

/-! ## 1. The supply -/

/-- What has been handed out so far, counted without a bound. -/
structure Supply where
  /-- Locals and temporaries of the function. -/
  locals : Nat
  /-- Parameters of the function. -/
  params : Nat
  /-- Temporaries of the program. -/
  temps : Nat
  /-- Labels of the program. -/
  labels : Nat
deriving DecidableEq, Repr, Inhabited

namespace Supply

/-- Nothing is handed out. -/
def empty : Supply := ⟨0, 0, 0, 0⟩

/-- The offset of a local by its position. -/
def localOffset (i : Nat) : Int := -8 - (wordSize * i : Nat)

/-- The offset of a parameter by its position. -/
def paramOffset (i : Nat) : Int := 4 + (wordSize * i : Nat)

/-- The name of a temporary by its number. -/
def tempName (n : Nat) : String := s!"_tmp{n}"

/-- A label by its number. -/
def labelName (n : Nat) : Label := s!"_L{n}"

/-- Bytes of the locals and temporaries of the function. -/
def frameSize (s : Supply) : Int := (wordSize * s.locals : Nat)

/-- The supply of a new function: no slot is in use. -/
def newFrame (s : Supply) : Supply := { s with locals := 0, params := 0 }

end Supply

/-! ## 2. Steps that write code -/

/-- A value, the code that was written for it, and what is handed out afterwards. -/
structure Emitted (α : Type) where
  value : α
  code : List Instr
  supply : Supply

/-- Steps that write code, or find a construct that has none. -/
def Emit (α : Type) : Type := Supply → Except Refusal (Emitted α)

namespace Emit

variable {α β : Type}

/-- A value without code. -/
def done (a : α) : Emit α := fun s => .ok ⟨a, [], s⟩

/-- One step after the other. -/
def andThen (m : Emit α) (k : α → Emit β) : Emit β := fun s =>
  match m s with
  | .error r => .error r
  | .ok a =>
    match k a.value a.supply with
    | .error r => .error r
    | .ok b => .ok ⟨b.value, a.code ++ b.code, b.supply⟩

instance : Monad Emit where
  pure := done
  bind := andThen

theorem pure_run (a : α) (s : Supply) : (pure a : Emit α) s = .ok ⟨a, [], s⟩ := rfl

theorem bind_run_ok {m : Emit α} {k : α → Emit β} {s : Supply} {r : Emitted β} :
    (m >>= k) s = .ok r ↔
      ∃ a, m s = .ok a ∧ ∃ b, k a.value a.supply = .ok b ∧
        r = ⟨b.value, a.code ++ b.code, b.supply⟩ := by
  show andThen m k s = .ok r ↔ _
  unfold andThen
  cases h : m s with
  | error e => simp
  | ok a =>
    cases h' : k a.value a.supply with
    | error e => simp [h']
    | ok b => simp [h', eq_comm]

/-- The construct has no code. -/
def refuse (r : Refusal) : Emit α := fun _ => .error r

/-- The back end was given something that is not right. -/
def defect (d : Defect) : Emit α := refuse (.internal d)

/-- A value that has to be there. -/
def required (d : Defect) : Option α → Emit α
  | some a => pure a
  | none => defect d

/-- The value of steps that may end without one. -/
def needed (d : Defect) (m : Emit (Option α)) : Emit α := do required d (← m)

/-- Writes one instruction. -/
def instr (i : Instr) : Emit Unit := fun s => .ok ⟨(), [i], s⟩

/-! ## 3. Slots, names and labels -/

/-- The slot of a new local. -/
def newLocal (name : String) : Emit Location := fun s =>
  .ok ⟨.frame (Supply.localOffset s.locals) name, [], { s with locals := s.locals + 1 }⟩

/-- The slot of the next parameter. -/
def newParam (name : String) : Emit Location := fun s =>
  .ok ⟨.frame (Supply.paramOffset s.params) name, [], { s with params := s.params + 1 }⟩

/-- A new temporary. **No temporary is handed out twice.** -/
def temp : Emit Location := fun s =>
  newLocal (Supply.tempName s.temps) { s with temps := s.temps + 1 }

/-- A new label. -/
def newLabel : Emit Label := fun s =>
  .ok ⟨Supply.labelName s.labels, [], { s with labels := s.labels + 1 }⟩

/-- Several new labels. -/
def newLabels : Nat → Emit (List Label)
  | 0 => pure []
  | n + 1 => do
    let l ← newLabel
    return l :: (← newLabels n)

/-! ## 4. Values -/

/-- An instruction whose result goes to a new temporary. -/
def toTemp (i : Location → Instr) : Emit Location := do
  let dst ← temp
  instr (i dst)
  return dst

/-- A constant in a new temporary. -/
def constant (v : Int32) : Emit Location := toTemp fun d => .const d v

/-- The address of a text in a new temporary. -/
def string (v : String) : Emit Location := toTemp fun d => .str d v

/-- The address of a label in a new temporary. -/
def address (l : Label) : Emit Location := toTemp fun d => .addr d l

/-- The word at an offset from an address, in a new temporary. -/
def load (src : Location) (offset : Int) : Emit Location := toTemp fun d => .load d src offset

/-- The result of an operation in a new temporary. -/
def op (op : Op) (l r : Location) : Emit Location := toTemp fun d => .op op d l r

/-! ## 5. Calls -/

/-- A new temporary for the result of a call, if it has one. -/
def resultSlot (hasResult : Bool) : Emit (Option Location) :=
  if hasResult then some <$> temp else pure none

/-- Calls the function at a label. -/
def call (l : Label) (hasResult : Bool) : Emit (Option Location) := do
  let dst ← resultSlot hasResult
  instr (.call l dst)
  return dst

/-- Calls the function whose address a location holds. -/
def callVia (addr : Location) (hasResult : Bool) : Emit (Option Location) := do
  let dst ← resultSlot hasResult
  instr (.callVia addr dst)
  return dst

/-- Pushes parameters, the first one of the list first. -/
def pushAll : List Location → Emit Unit
  | [] => pure ()
  | p :: r => do
    instr (.push p)
    pushAll r

/-- Takes parameters off the stack; where there are none, nothing is written. -/
def pop (bytes : Int) : Emit Unit := if bytes > 0 then instr (.pop bytes) else pure ()

/-- Calls a function of the runtime. The arguments are pushed from the last to the first. -/
def builtin (b : Builtin) (args : List Location) : Emit (Option Location) := do
  if args.length ≠ b.argCount then
    defect (.builtinArgs b.label b.argCount args.length)
  else
    let dst ← resultSlot b.hasResult
    pushAll args.reverse
    instr (.call b.label dst)
    pop (wordSize * args.length : Nat)
    return dst

/-- Prints a message and ends the program. -/
def abort (message : String) : Emit Unit := do
  let text ← string message
  let _ ← builtin .printString [text]
  let _ ← builtin .halt []

/-! ## 6. Functions -/

/-- A function around its body, with the frame that the body needs. -/
def function (l : Label) (body : Emit Unit) : Emit Unit := fun s =>
  match body s.newFrame with
  | .error r => .error r
  | .ok b => .ok ⟨(), .label l :: .enter b.supply.frameSize :: b.code ++ [.leave], b.supply⟩

end Emit

end DecafLang.Code
