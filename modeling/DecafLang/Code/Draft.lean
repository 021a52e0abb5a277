import DecafLang.Code.Emit

/-!
# Writing a program step by step

A `Draft` holds the code of a program while it is written one instruction after the other.

* A function is started with a frame of unknown size. **Its size is filled in when the function
  is finished;** finishing where nothing was started fills in nothing.
* The labels that a `break` may go to are stacked, and it goes to the topmost.
* Starting, writing and finishing give the same code as `Emit.function`.
-/

namespace DecafLang.Code

/-- A program while it is written. -/
structure Draft where
  code : List Instr
  supply : Supply
  /-- The index of the instruction that opens the frame of the current function. -/
  opened : Option Nat
  /-- Where a `break` goes to, innermost first. -/
  exits : List Label

namespace Draft

variable {α : Type}

/-- Nothing is written. -/
def empty : Draft := ⟨[], .empty, none, []⟩

instance : Inhabited Draft := ⟨empty⟩

/-- Bytes of the locals and temporaries of the current function. -/
def frameSize (d : Draft) : Int := d.supply.frameSize

/-- Performs steps that write code at the end. -/
def perform (d : Draft) (m : Emit α) : Except Refusal (α × Draft) :=
  match m d.supply with
  | .error r => .error r
  | .ok a => .ok (a.value, { d with code := d.code ++ a.code, supply := a.supply })

/-- Starts a function with an empty frame. -/
def startFunction (d : Draft) (l : Label) : Draft :=
  { d with
    code := d.code ++ [.label l, .enter 0]
    supply := d.supply.newFrame
    opened := some (d.code.length + 1) }

/-- Finishes the current function and fills in the size of its frame. -/
def finishFunction (d : Draft) : Draft :=
  let code := d.code ++ [.leave]
  { d with
    code := match d.opened with
      | some i => resizeAt code i d.frameSize
      | none => code
    opened := none }

/-- Opens a construct that a `break` leaves towards a label. -/
def pushExit (d : Draft) (l : Label) : Draft := { d with exits := l :: d.exits }

/-- Closes the innermost construct that a `break` leaves. -/
def popExit (d : Draft) : Draft := { d with exits := d.exits.tail }

/-- Leaves the innermost construct that can be left. -/
def jumpToExit (d : Draft) : Except Refusal Draft :=
  match d.exits with
  | l :: _ => .ok { d with code := d.code ++ [.jump l] }
  | [] => .error (.internal .breakOutside)

theorem resizeAt_opened (before after : List Instr) (l : Label) (size : Int) :
    resizeAt (before ++ .label l :: .enter 0 :: after) (before.length + 1) size
      = before ++ .label l :: .enter size :: after := by
  induction before with
  | nil => rfl
  | cons i r ih => simpa [resizeAt] using ih

theorem perform_function_eq {d d' : Draft} {l : Label} {m : Emit Unit} {u : Unit}
    (h : (d.startFunction l).perform m = .ok (u, d')) :
    ∃ r, d.perform (Emit.function l m) = .ok r ∧ r.2.code = d'.finishFunction.code
      ∧ r.2.supply = d'.finishFunction.supply := by
  simp only [perform, startFunction] at h
  cases hm : m d.supply.newFrame with
  | error r => simp [hm] at h
  | ok b =>
    simp only [hm, Except.ok.injEq, Prod.mk.injEq, true_and] at h
    subst h
    refine ⟨_, by simp only [perform, Emit.function, hm]; rfl, ?_, rfl⟩
    simp only [finishFunction, frameSize]
    have := resizeAt_opened d.code (b.code ++ [.leave]) l b.supply.frameSize
    simp only [List.append_assoc, List.cons_append, List.nil_append] at this ⊢
    exact this.symm

end Draft

end DecafLang.Code
