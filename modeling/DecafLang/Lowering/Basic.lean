import DecafLang.Notes
import DecafLang.Layout
import DecafLang.Code.Emit

/-!
# Surroundings and targets

What the code of an expression or a statement depends on, besides its form.

* `Surroundings` say what the names stand for, where the variables lie, and where a `break` goes.
* A `Target` is where something lies that can be assigned to: **in a word of its own, or at an
  offset from an address that was computed.** The fields of the object at hand count as words of
  their own.
-/

namespace DecafLang

open Code (Emit Location Label)

/-! ## 1. Surroundings -/

/-- What the code of an expression depends on. -/
structure Surroundings where
  notes : Notes
  layout : Layout
  /-- Where the variables lie that are in sight, the innermost first. -/
  slots : List (NodeId × Location)
  /-- Where the object lies whose method this is. -/
  this : Option Location
  /-- Where a `break` goes to. -/
  breakTo : Option Label

namespace Surroundings

/-- Where a variable lies, if it has a slot of its own. -/
def slot? (r : Surroundings) (v : NodeId) : Option Location := Table.find v r.slots

/-- The surroundings with one more variable in sight. -/
def withSlot (r : Surroundings) (v : NodeId) (l : Location) : Surroundings :=
  { r with slots := (v, l) :: r.slots }

/-- The location of the object whose method this is. -/
def thisLocation (r : Surroundings) : Emit Location := Emit.required .thisOutsideMethod r.this

/-- The static type under a number. -/
def typeAt (r : Surroundings) (n : Node) : Ty := (r.notes.types.get? n.id).getD .error

/-- Refuses an expression that is a floating point number. -/
def noDouble {α : Type} (r : Surroundings) (n : Node) (m : Emit α) : Emit α :=
  if r.typeAt n = .double then Emit.refuse (.double n.span) else m

/-- The variable that a name stands for. -/
def varOf (r : Surroundings) (i : Ident) : Emit VarDecl :=
  Emit.required (.notVariable i.name i.span) (r.notes.var? i)

/-- The offset of the field that a name stands for. -/
def fieldOffset (r : Surroundings) (i : Ident) : Emit Nat := do
  let v ← r.varOf i
  Emit.required (.notField i.name i.span) (r.layout.fieldOffset? v.id)

/-- The function that a call goes to. -/
def callee (r : Surroundings) (n : Node) (i : Ident) : Emit FnDecl :=
  Emit.required (.unresolvedCall i.name n.span) (r.notes.fn? i)

/-- Whether a function gives a value. -/
def hasResult (r : Surroundings) (g : FnDecl) : Bool := r.notes.denote g.result != .void

end Surroundings

/-! ## 2. Targets -/

/-- Where something lies that can be assigned to. -/
inductive Target where
  /-- In a slot, or in a field of the object at hand. -/
  | word (l : Location)
  /-- At an offset from an address that was computed. -/
  | behind (pointer : Location) (offset : Nat)

namespace Target

/-- The value at a place; that of a slot is read where it lies. -/
def load : Target → Emit Location
  | word l => pure l
  | behind p o => Emit.load p o

/-- Puts a value into a place. -/
def store : Target → Location → Emit Unit
  | word l, v => Emit.instr (.copy l v)
  | behind p o, v => Emit.instr (.store p v o)

/-- The place of a bare name: a slot, or else a field of the object at hand. -/
def ofName (r : Surroundings) (i : Ident) : Emit Target := do
  let v ← r.varOf i
  match r.slot? v.id with
  | some l => return .word l
  | none =>
    let offset ← r.fieldOffset i
    let this ← r.thisLocation
    return .word (.based this offset i.name)

/-- The place of a field of the object at an address. -/
def ofField (r : Surroundings) (i : Ident) (pointer : Location) : Emit Target :=
  return .behind pointer (← r.fieldOffset i)

end Target

end DecafLang
