import DecafLang.Lowering.Values

/-!
# Code for expressions

An expression becomes code that leaves its value in a location.

* A variable is read where it lies; every other value goes to a new temporary.
* **Operands are evaluated from left to right,** and the target of an assignment before its value.
* A call without a result has no value, and nothing but a statement may hold it.
* A floating point number has no code.
-/

namespace DecafLang

open Code (Emit Location)
open Lowering

mutual

/-- The code of an expression, and where its value lies, if it has one. -/
def Expr.eval (r : Surroundings) : Expr → Emit (Option Location)
  | .int n v => r.noDouble n do return some (← Emit.constant v)
  | .bool n v => r.noDouble n do return some (← Emit.constant (if v then 1 else 0))
  | .null n => r.noDouble n do return some (← Emit.constant 0)
  | .string n v => r.noDouble n do return some (← Emit.string v)
  | .double n => Emit.refuse (.double n.span)
  | .readInteger n => r.noDouble n do return some (← builtinValue .readInteger [])
  | .readLine n => r.noDouble n do return some (← builtinValue .readLine [])
  | .this n => r.noDouble n do return some (← r.thisLocation)
  | .binary n op a b => r.noDouble n do
    let strings := r.typeAt a.node == .string && r.typeAt b.node == .string
    let x ← Emit.needed (.noValue a.span) (a.eval r)
    let y ← Emit.needed (.noValue b.span) (b.eval r)
    return some (← binaryOp op strings x y)
  | .unary n op a => r.noDouble n do
    let x ← Emit.needed (.noValue a.span) (a.eval r)
    return some (← unaryOp op x)
  | .step n op t => r.noDouble n do
    let p ← t.target r
    return some (← stepTarget op p)
  | .assign n t v => r.noDouble n do
    let p ← t.target r
    let x ← Emit.needed (.noValue v.span) (v.eval r)
    p.store x
    return some x
  | .index n a i => r.noDouble n do
    let x ← Emit.needed (.noValue a.span) (a.eval r)
    let k ← Emit.needed (.noValue i.span) (i.eval r)
    let p ← elementTarget x k
    return some (← p.load)
  | .name n i => r.noDouble n do
    let p ← Target.ofName r i
    return some (← p.load)
  | .field n b i => r.noDouble n do
    let x ← Emit.needed (.noValue b.span) (b.eval r)
    let p ← Target.ofField r i x
    return some (← p.load)
  | .new n i => r.noDouble n do return some (← allocObject r i)
  | .newArray n s _ => r.noDouble n do
    let x ← Emit.needed (.noValue s.span) (s.eval r)
    return some (← allocArray x)
  | .call n i args => r.noDouble n do
    let g ← r.callee n i
    -- a function with a slot is a method, and a bare name calls it on `this`
    match r.layout.methodSlot? g.id with
    | some slot =>
      let this ← r.thisLocation
      let xs ← Expr.evalAll r args
      callMethod this slot xs (r.hasResult g)
    | none =>
      let xs ← Expr.evalAll r args
      callFunction i.name xs (r.hasResult g)
  | .send n b i args => r.noDouble n do
    if (r.typeAt b.node).isArray && i.name == "length" then
      let x ← Emit.needed (.noValue b.span) (b.eval r)
      -- the length stands in the first word
      return some (← Emit.load x 0)
    else
      let g ← r.callee n i
      noInterfaceCall r n (r.typeAt b.node) i
      let x ← Emit.needed (.noValue b.span) (b.eval r)
      let xs ← Expr.evalAll r args
      let slot ← Emit.required (.noMethodSlot i.name n.span) (r.layout.methodSlot? g.id)
      callMethod x slot xs (r.hasResult g)

/-- The code of what is assigned to, and where it lies. -/
def Expr.target (r : Surroundings) : Expr → Emit Target
  | .name _ i => Target.ofName r i
  | .field _ b i => do
    let x ← Emit.needed (.noValue b.span) (b.eval r)
    Target.ofField r i x
  | .index _ a i => do
    let x ← Emit.needed (.noValue a.span) (a.eval r)
    let k ← Emit.needed (.noValue i.span) (i.eval r)
    elementTarget x k
  | e => Emit.defect (.notAssignable e.span)

/-- The code of several expressions, and where their values lie. -/
def Expr.evalAll (r : Surroundings) : List Expr → Emit (List Location)
  | [] => pure []
  | e :: es => do
    let x ← Emit.needed (.noValue e.span) (e.eval r)
    return x :: (← Expr.evalAll r es)

end

/-- The code of an expression whose value is needed. -/
def Expr.value (r : Surroundings) (e : Expr) : Emit Location :=
  Emit.needed (.noValue e.span) (e.eval r)

end DecafLang
