import DecafLang.Lowering.Stmt

/-!
# Code for programs

The functions and methods of a program become code in the order of the text, each class followed
by its table.

* **A program without a function `main` has no code.**
* The first parameter of a method is the object it is called for.
* Globals lie where the layout puts them, in every function alike.
-/

namespace DecafLang

open Code (Emit Location Label)
open Lowering

/-! ## 1. Slots -/

namespace Lowering

/-- Gives the object whose method this is its slot; a function that is no method has none. -/
def withThis (r : Surroundings) : Bool → Emit Surroundings
  | false => pure { r with this := none }
  | true => do
    let l ← Emit.newParam "this"
    return { r with this := some l }

/-- Gives formals their slots. -/
def withFormals (r : Surroundings) : List VarDecl → Emit Surroundings
  | [] => pure r
  | v :: vs => do
    let l ← Emit.newParam v.name
    withFormals (r.withSlot v.id l) vs

/-- The slots of the globals, one after the other. -/
def withGlobals (r : Surroundings) : List VarDecl → Except Refusal Surroundings
  | [] => .ok r
  | v :: vs =>
    match r.layout.globalOffset? v.id with
    | some o => withGlobals (r.withSlot v.id (.global o v.name)) vs
    | none => .error (.internal (.noGlobalSlot v.name))

end Lowering

/-! ## 2. Functions and classes -/

/-- The code of a body that may be missing. -/
def Block.lowerOpt : Option Block → Surroundings → Emit Unit
  | none, _ => pure ()
  | some b, r => b.lower r

/-- The code of the body of a function, with slots for its parameters. -/
def FnDecl.lowerBody (g : FnDecl) (r : Surroundings) (isMethod : Bool) : Emit Unit := do
  let r ← withThis r isMethod
  let r ← withFormals r g.formals
  Block.lowerOpt g.body r

/-- The code of a function that is no method. -/
def FnDecl.lower (g : FnDecl) (r : Surroundings) : Emit Unit :=
  Emit.function (plainLabel g.name) (g.lowerBody r false)

/-- The code of the methods of a class. -/
def FnDecl.lowerMethods (cls : String) (r : Surroundings) : List FnDecl → Emit Unit
  | [] => pure ()
  | g :: gs => do
    Emit.function (qualifiedLabel cls g.name) (g.lowerBody r true)
    FnDecl.lowerMethods cls r gs

/-- The code of the methods of a class, and its table. -/
def ClassDecl.lower (c : ClassDecl) (r : Surroundings) : Emit Unit := do
  FnDecl.lowerMethods c.name r c.methods
  let l ← Emit.required (.noLayout c.name) (r.layout.class? c.name)
  Emit.instr (.table c.name l.labels)

/-- The code of declarations at the top level. -/
def Decl.lowerAll (r : Surroundings) : List Decl → Emit Unit
  | [] => pure ()
  | .fn g :: ds => do
    g.lower r
    Decl.lowerAll r ds
  | .cls c :: ds => do
    c.lower r
    Decl.lowerAll r ds
  | _ :: ds => Decl.lowerAll r ds

/-! ## 3. Programs -/

/-- Whether a program has a function to start with. -/
def Program.hasMain (p : Program) : Bool :=
  (p.decls.filterMap Decl.fn?).any fun g => g.name == "main"

/-- The code of a program. -/
def Program.lower (p : Program) (a : Notes) (l : Layout) : Except Failure (List Code.Instr) :=
  if p.hasMain then
    match withGlobals ⟨a, l, [], none, none⟩ (p.decls.filterMap Decl.var?) with
    | .error e => .error (.refusal e)
    | .ok r =>
      match Decl.lowerAll r p.decls .empty with
      | .error e => .error (.refusal e)
      | .ok emitted => .ok emitted.code
  else .error (.diagnostic .noMain)

end DecafLang
