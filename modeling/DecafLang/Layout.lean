import DecafLang.Table
import DecafLang.Hierarchy.Basic

/-!
# Layout

Where the parts of objects and the global variables lie.

* An object starts with the address of the table of its class, followed by one word per field:
  **the inherited fields first,** then those of the class itself.
* The table of a class has one slot per method. A method that replaces an inherited one takes
  over its slot, whatever its signature, so a call through the base class reaches it.
* A name that comes again replaces the earlier entry in its place, for fields as well.
* Every global variable takes one word of the global segment, in the order of the text.
* **Offsets have no bound here.** They fit into 32 bits with a sign as long as there are fewer than
  `2 ^ 29 - 1` fields and methods in a class, inherited ones counted, and globals in a program.
-/

namespace DecafLang

/-! ## 1. One class -/

/-- A slot of the table of a class. -/
structure TableEntry where
  /-- The class whose method stands in the slot. -/
  cls : String
  method : FnDecl
deriving Inhabited

/-- The label of the code of a method. -/
def qualifiedLabel (cls method : String) : String := s!"_{cls}.{method}"

/-- The name of the method in the slot. -/
def TableEntry.name (m : TableEntry) : String := m.method.name

/-- The label of the code of the method in the slot. -/
def TableEntry.label (m : TableEntry) : String := qualifiedLabel m.cls m.name

/-- A list with an entry in the place of the first one of its name, or else at the end. -/
def place {α : Type} (name : α → String) (x : α) : List α → List α
  | [] => [x]
  | y :: r => if name y = name x then x :: r else y :: place name x r

/-- The position of the first entry of a name. -/
def position? {α : Type} (name : α → String) (n : String) (l : List α) : Option Nat :=
  l.findIdx? fun y => name y == n

/-- The parts of the objects of a class. -/
structure ObjectLayout where
  name : String
  /-- In the order of their offsets. -/
  fields : List VarDecl
  /-- In the order of their slots. -/
  methods : List TableEntry
deriving Inhabited

namespace ObjectLayout

/-- The offset of the field at a position; the first word is the address of the table. It grows
without a bound. -/
def offsetAt (i : Nat) : Nat := wordSize + wordSize * i

/-- Bytes of an object. -/
def size (l : ObjectLayout) : Nat := offsetAt l.fields.length

/-- Bytes of the table. -/
def tableSize (l : ObjectLayout) : Nat := wordSize * l.methods.length

/-- The offset of the field of a name. -/
def fieldOffset? (l : ObjectLayout) (name : String) : Option Nat :=
  (position? VarDecl.name name l.fields).map offsetAt

/-- The slot of the method of a name. -/
def slotOf? (l : ObjectLayout) (name : String) : Option Nat :=
  position? TableEntry.name name l.methods

/-- The labels in the table, in the order of the slots. -/
def labels (l : ObjectLayout) : List String := l.methods.map TableEntry.label

/-- The layout of a class whose base is laid out like this. -/
def extend (fields : List VarDecl) (methods : List TableEntry) (c : ClassDecl) : ObjectLayout where
  name := c.name
  fields := c.fields.foldl (fun l v => place VarDecl.name v l) fields
  methods := c.methods.foldl (fun l m => place TableEntry.name ⟨c.name, m⟩ l) methods

/-- The declarations of the fields with their offsets. -/
def fieldEntries (l : ObjectLayout) : List (NodeId × Nat) :=
  l.fields.zipIdx.map fun e => (e.1.id, offsetAt e.2)

/-- The methods that a class declares with the slots of their names. -/
def methodEntries (l : ObjectLayout) (c : ClassDecl) : List (NodeId × Nat) :=
  c.methods.filterMap fun m => (l.slotOf? m.name).map fun s => (m.id, s)

end ObjectLayout

/-! ## 2. A whole program -/

/-- Where the parts of all objects and the global variables lie. -/
structure Layout where
  /-- Every class after the one that it extends. -/
  classes : List ObjectLayout
  fieldOffsets : Table NodeId Nat
  methodSlots : Table NodeId Nat
  globals : Table NodeId Nat
  /-- Bytes of the global segment. -/
  globalSize : Nat

namespace Layout

/-- Nothing is laid out. -/
def empty : Layout := ⟨[], .empty, .empty, .empty, 0⟩

instance : Inhabited Layout := ⟨empty⟩

/-- The layout of the class of a name. -/
def class? (l : Layout) (name : String) : Option ObjectLayout := l.classes.find? (·.name == name)

/-- The offset of a field in every object that has it. -/
def fieldOffset? (l : Layout) (field : NodeId) : Option Nat := l.fieldOffsets.get? field

/-- The slot of a method. -/
def methodSlot? (l : Layout) (method : NodeId) : Option Nat := l.methodSlots.get? method

/-- The offset of a global variable. -/
def globalOffset? (l : Layout) (var : NodeId) : Option Nat := l.globals.get? var

/-- The layout with one more class, whose base is laid out already. -/
def addClass (h : Hierarchy) (l : Layout) (c : ClassDecl) : Layout :=
  let own :=
    match (h.base? c.name).bind l.class? with
    | some b => ObjectLayout.extend b.fields b.methods c
    | none => ObjectLayout.extend [] [] c
  { l with
    classes := l.classes ++ [own]
    methodSlots := l.methodSlots.insertAll (own.methodEntries c)
    fieldOffsets := l.fieldOffsets.insertAll own.fieldEntries }

/-- The layout with one more word for a global variable, however many there are. -/
def addGlobal (l : Layout) (v : VarDecl) : Layout :=
  { l with globals := l.globals.insert v.id l.globalSize, globalSize := l.globalSize + wordSize }

/-- The layout of a program; **a cycle of classes is refused.** -/
def ofProgram (h : Hierarchy) (p : Program) : Except Refusal Layout :=
  match h.sorted with
  | .error r => .error r
  | .ok cs => .ok ((p.decls.filterMap Decl.var?).foldl addGlobal (cs.foldl (addClass h) empty))

end Layout

end DecafLang
