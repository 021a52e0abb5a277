import Mathlib.Algebra.Order.Group.Multiset
import DecafLang.Proofs.Typing
import DecafLang.Proofs.Bodies

/-!
# Accounts of steps

What holds of the steps for an expression or a statement as soon as it holds of each of them.

* An `Account` tells of steps which labels are due to be placed before them, and which are left
  afterwards. It is `Lawful` if it holds of every step that has nothing to do with calls and of
  every call of the runtime, and of steps in a row if it holds of each of them. **A new label is
  left to be placed, and where one is placed it was due.**
* **A lawful account holds of the steps for an expression as soon as it holds of the calls in it**
  (`Expr.eval_keeps`), and likewise for a statement (`Stmt.lower_keeps`): they leave what was due.
-/

namespace DecafLang

open Code (Builtin Emit Emitted Instr Label Location Op Supply)

namespace Code

/-- The instruction places no label and has nothing to do with calls. -/
def Instr.plain : Instr → Bool
  | .label _ => false
  | .table _ _ => false
  | .push _ => false
  | .pop _ => false
  | .call _ _ => false
  | .callVia _ _ => false
  | _ => true

/-! ## 1. Laws -/

/-- What is said of steps, of the labels that are due before them, and of those that are left to be
placed behind them. -/
abbrev Emit.Account := ∀ α : Type, Emit α → Multiset Label → (α → Multiset Label) → Prop

namespace Emit.Account

variable {α β : Type}

/-- The steps leave what was due. -/
def Keeps (P : Account) (m : Emit α) : Prop := ∀ x, P α m x fun _ => x

/-- The account holds of the steps there are, but for calls of functions and methods. -/
structure Lawful (P : Account) : Prop where
  done : ∀ {α : Type} (left : α → Multiset Label) (a : α), P α (pure a) (left a) left
  refuse : ∀ {α : Type} {due : Multiset Label} {left : α → Multiset Label} (r : Refusal),
    P α (Emit.refuse r) due left
  /-- What one step leaves is due to the next, which knows that it came of the first. -/
  bind_of : ∀ {α β : Type} {m : Emit α} {k : α → Emit β} {due : Multiset Label}
    {mid : α → Multiset Label} {after : β → Multiset Label}, P α m due mid →
      (∀ s o, m s = .ok o → P β (k o.value) (mid o.value) after) → P β (m >>= k) due after
  newLocal : ∀ n, P.Keeps (Emit.newLocal n)
  temp : P.Keeps Emit.temp
  newLabel : ∀ x, P Label Emit.newLabel x fun l => l ::ₘ x
  label : ∀ l x, P Unit (Emit.instr (.label l)) (l ::ₘ x) fun _ => x
  instr : ∀ i : Instr, i.plain = true → P.Keeps (Emit.instr i)
  builtin : ∀ b args, P.Keeps (Emit.builtin b args)

end Emit.Account

/-- The lists of new labels have the lengths that were asked for. -/
theorem Emit.newLabels_length {n : Nat} {s : Supply} {x : Emitted (List Label)}
    (h : Emit.newLabels n s = .ok x) : x.value.length = n := by
  induction n generalizing s x with
  | zero =>
    cases h
    rfl
  | succ n ih =>
    -- one label in front, and then the labels of the remaining count
    obtain ⟨a, ha, b, hb, rfl⟩ := bind_run_ok.mp h
    obtain ⟨c, hc, d, hd, rfl⟩ := bind_run_ok.mp hb
    cases hd
    exact congrArg (· + 1) (ih hc)

end Code

open Code.Emit (Account)
open Lowering

namespace Code.Emit.Account.Lawful

variable {α β : Type} {P : Account} {m : Emit α} {k : α → Emit β} {x due : Multiset Label}
  {mid : α → Multiset Label} {after : β → Multiset Label} {r : Surroundings}

section

variable (hP : P.Lawful)

include hP

/-- Steps in a row, where what is left does not depend on how the first of them came about. -/
theorem bind (h : P α m due mid) (hk : ∀ a, P β (k a) (mid a) after) : P β (m >>= k) due after := by
  refine hP.bind_of h fun _ o _ => ?_
  exact hk o.value

/-- Steps that leave what was due come first. -/
theorem before (h : P.Keeps m) (hk : ∀ a, P β (k a) x after) : P β (m >>= k) x after :=
  hP.bind (h x) hk

/-- Steps in a row leave what was due if each of them does. -/
theorem row (h : P.Keeps m) (hk : ∀ a, P.Keeps (k a)) : P.Keeps (m >>= k) := by
  intro x
  refine hP.before h fun a => ?_
  exact hk a x

theorem pure (a : α) : P.Keeps (pure a) := fun x => hP.done (fun _ => x) a

/-- A refusal ends the steps, so anything holds of what it leaves. -/
theorem refused (r : Refusal) : P.Keeps (Emit.refuse r : Emit α) := fun _ => hP.refuse r

/-- A value that is there is handed on, and one that is missing is a refusal. -/
theorem required (d : Defect) (o : Option α) : P.Keeps (Emit.required d o) := by
  cases o with
  | none => exact hP.refused _
  | some a => exact hP.pure a

/-- Steps whose value is needed leave what was due if they do so on their own. -/
theorem needed {d : Defect} {m : Emit (Option α)} (h : P.Keeps m) : P.Keeps (Emit.needed d m) := by
  refine hP.row h fun _ => ?_
  exact hP.required _ _

/-- Steps that end with a value. -/
theorem valued (h : P.Keeps m) (f : α → β) : P.Keeps (do return f (← m)) := by
  refine hP.row h fun _ => ?_
  exact hP.pure _

/-- New labels are left to be placed. -/
theorem newLabels (n : Nat) :
    P (List Label) (Emit.newLabels n) x fun ls => (ls : Multiset Label) + x := by
  induction n generalizing x with
  | zero =>
    -- No label was asked for, so only what was due before is left.
    have h := hP.done (fun ls : List Label => (ls : Multiset Label) + x) []
    rwa [Multiset.coe_nil, zero_add] at h
  | succ n ih =>
    -- The first label is left above `x`, and the others above both; their order is of no account.
    refine hP.bind (hP.newLabel x) fun l => ?_
    refine hP.bind ih fun ls => ?_
    have h := hP.done (fun ls : List Label => (ls : Multiset Label) + x) (l :: ls)
    rwa [← Multiset.cons_coe, Multiset.cons_add, ← Multiset.add_cons] at h

/-! ## 2. Values -/

/-- An instruction into a fresh temporary leaves what was due. -/
theorem toTemp {i : Location → Instr} (h : ∀ d, (i d).plain = true) : P.Keeps (Emit.toTemp i) := by
  refine hP.row hP.temp fun _ => ?_
  refine hP.row (hP.instr _ (h _)) fun _ => ?_
  exact hP.pure _

theorem constant (v : Int32) : P.Keeps (Emit.constant v) := hP.toTemp fun _ => rfl

theorem string (v : String) : P.Keeps (Emit.string v) := hP.toTemp fun _ => rfl

theorem load (p : Location) (o : Int) : P.Keeps (Emit.load p o) := hP.toTemp fun _ => rfl

theorem op (o : Op) (a b : Location) : P.Keeps (Emit.op o a b) := hP.toTemp fun _ => rfl

/-- A message on the error stream and the end of the program leave what was due. -/
theorem abort (t : String) : P.Keeps (Emit.abort t) := by
  refine hP.row (hP.string t) fun _ => ?_
  refine hP.row (hP.builtin _ _) fun _ => ?_
  refine hP.row (hP.builtin _ _) fun _ => ?_
  exact hP.pure _

/-- A target is either a word, which is read where it lies, or a field, which is loaded. -/
theorem loadTarget (t : Target) : P.Keeps t.load := by
  cases t with
  | word l => exact hP.pure l
  | behind p o => exact hP.load p o

/-- A value goes to a target by one instruction of its own. -/
theorem storeTarget (t : Target) (v : Location) : P.Keeps (t.store v) := by
  cases t with
  | word l => exact hP.instr _ rfl
  | behind p o => exact hP.instr _ rfl

/-- A call of the runtime leaves what was due, and so does its value. -/
theorem builtinValue (b : Builtin) (args : List Location) : P.Keeps (builtinValue b args) := by
  refine hP.row (hP.builtin b args) fun _ => ?_
  exact hP.required _ _

/-- The label behind the message is placed. -/
theorem haltUnlessZero (t : Location) (s : String) : P.Keeps (haltUnlessZero t s) := by
  intro x
  -- The label handed out here is the one that is placed in the last step.
  refine hP.bind (hP.newLabel x) fun l => ?_
  refine hP.before (hP.instr _ rfl) fun _ => ?_
  refine hP.before (hP.abort s) fun _ => ?_
  exact hP.label l x

/-- The test of an index calls nothing but the runtime. -/
theorem checkIndex (a i : Location) : P.Keeps (checkIndex a i) := by
  refine hP.row (hP.constant _) fun _ => ?_
  refine hP.row (hP.op _ _ _) fun _ => ?_
  refine hP.row (hP.load _ _) fun _ => ?_
  refine hP.row (hP.op _ _ _) fun _ => ?_
  refine hP.row (hP.op _ _ _) fun _ => ?_
  refine hP.row (hP.op _ _ _) fun _ => ?_
  exact hP.haltUnlessZero _ _

/-- The place of an element is computed by plain instructions behind the test. -/
theorem elementTarget (a i : Location) : P.Keeps (elementTarget a i) := by
  refine hP.row (hP.checkIndex a i) fun _ => ?_
  refine hP.row (hP.constant _) fun _ => ?_
  refine hP.row (hP.op _ _ _) fun _ => ?_
  refine hP.row (hP.op _ _ _) fun _ => ?_
  refine hP.row (hP.op _ _ _) fun _ => ?_
  exact hP.pure _

/-- An array is made by the runtime, after the test of its size. -/
theorem allocArray (n : Location) : P.Keeps (allocArray n) := by
  refine hP.row (hP.constant _) fun _ => ?_
  refine hP.row (hP.op _ _ _) fun _ => ?_
  refine hP.row (hP.haltUnlessZero _ _) fun _ => ?_
  refine hP.row (hP.op _ _ _) fun _ => ?_
  refine hP.row (hP.constant _) fun _ => ?_
  refine hP.row (hP.op _ _ _) fun _ => ?_
  refine hP.row (hP.builtinValue _ _) fun _ => ?_
  refine hP.row (hP.instr _ rfl) fun _ => ?_
  exact hP.pure _

/-- An object is made by the runtime, and the address of its table is stored in front. -/
theorem allocObject (i : Ident) : P.Keeps (allocObject r i) := by
  refine hP.row (hP.required _ _) fun _ => ?_
  refine hP.row (hP.constant _) fun _ => ?_
  refine hP.row (hP.builtinValue _ _) fun _ => ?_
  refine hP.row (hP.toTemp fun _ => rfl) fun _ => ?_
  refine hP.row (hP.instr _ rfl) fun _ => ?_
  exact hP.pure _

/-- Operators on strings are calls of the runtime, and all others are one instruction. -/
theorem binaryOp (op : BinaryOp) (strings : Bool) (a b : Location) :
    P.Keeps (binaryOp op strings a b) := by
  unfold Lowering.binaryOp
  split
  · exact hP.builtinValue _ _
  · refine hP.row (hP.builtinValue _ _) fun _ => ?_
    refine hP.row (hP.constant _) fun _ => ?_
    exact hP.op _ _ _
  · exact hP.op _ _ _

theorem unaryOp (op : UnaryOp) (v : Location) : P.Keeps (unaryOp op v) := by
  refine hP.row (hP.constant _) fun _ => ?_
  cases op with
  | neg => exact hP.op _ _ _
  | not => exact hP.op _ _ _

/-- A step reads a target, keeps its value and stores the next one. -/
theorem stepTarget (op : StepOp) (t : Target) : P.Keeps (stepTarget op t) := by
  refine hP.row (hP.loadTarget t) fun _ => ?_
  refine hP.row hP.temp fun _ => ?_
  refine hP.row (hP.instr _ rfl) fun _ => ?_
  refine hP.row (hP.constant _) fun _ => ?_
  refine hP.row (hP.op _ _ _) fun _ => ?_
  refine hP.row (hP.storeTarget t _) fun _ => ?_
  exact hP.pure _

/-- A call on an interface is refused, and on all else nothing happens. -/
theorem noInterfaceCall (n : Node) (t : Ty) (i : Ident) : P.Keeps (noInterfaceCall r n t i) := by
  unfold Lowering.noInterfaceCall
  split
  · split
    · exact hP.pure _
    · exact hP.refused _
  · exact hP.pure _

/-! ## 3. Expressions -/

/-- An expression of doubles is refused, and any other is lowered as it stands. -/
theorem noDouble (n : Node) (h : P.Keeps m) : P.Keeps (r.noDouble n m) := by
  unfold Surroundings.noDouble
  split
  · exact hP.refused _
  · exact h

/-- The place of a field is looked up, and nothing is emitted for it. -/
theorem fieldOffset (i : Ident) : P.Keeps (r.fieldOffset i) := by
  refine hP.row (hP.required _ (r.notes.var? i)) fun _ => ?_
  exact hP.required _ _

/-- A name is a word of the frame, or else a field of the object at hand. -/
theorem ofName (i : Ident) : P.Keeps (Target.ofName r i) := by
  refine hP.row (hP.required _ (r.notes.var? i)) fun v => ?_
  -- A variable with a slot is in the frame; one without is a field, or nothing at all.
  cases r.slot? v.id with
  | some l => exact hP.pure _
  | none => exact hP.row (hP.fieldOffset i) fun _ => hP.valued (hP.required _ _) _

/-- A field of an object lies at its offset behind the object. -/
theorem ofField (i : Ident) (p : Location) : P.Keeps (Target.ofField r i p) :=
  hP.valued (hP.fieldOffset i) _

/-- The steps of an expression, with the value that they leave. -/
theorem value (n : Node) {m : Emit Location} (h : P.Keeps m) :
    P.Keeps (r.noDouble n do return some (← m)) := hP.noDouble n (hP.valued h _)

end

end Code.Emit.Account.Lawful

/-- The steps of the call, if the expression is one, leave what was due if those of its operands
do. -/
def Expr.CallKept (P : Account) (r : Surroundings) : Expr → Prop
  | .call n i args => P.Keeps (Expr.evalAll r args) → P.Keeps ((Expr.call n i args).eval r)
  | .send n b i args => P.Keeps (b.eval r) → P.Keeps (Expr.evalAll r args) →
      P.Keeps ((Expr.send n b i args).eval r)
  | _ => True

section

variable {P : Account} {r : Surroundings}

mutual

/-- **The steps for an expression leave what was due if those for its calls do.** -/
theorem Expr.eval_keeps (hP : P.Lawful) : ∀ e : Expr, Part.All (CallKept P r) e.parts →
    P.Keeps (e.eval r)
  | .int n v, _ => by
    unfold Expr.eval
    exact hP.value n (hP.constant v)
  | .bool n v, _ => by
    unfold Expr.eval
    exact hP.value n (hP.constant _)
  | .null n, _ => by
    unfold Expr.eval
    exact hP.value n (hP.constant 0)
  | .string n v, _ => by
    unfold Expr.eval
    exact hP.value n (hP.string v)
  | .double n, _ => by
    unfold Expr.eval
    exact hP.refused _
  | .readInteger n, _ => by
    unfold Expr.eval
    exact hP.value n (hP.builtinValue _ _)
  | .readLine n, _ => by
    unfold Expr.eval
    exact hP.value n (hP.builtinValue _ _)
  | .this n, _ => by
    unfold Expr.eval
    exact hP.value n (hP.required _ _)
  | .binary n op x y, h => by
    unfold Expr.eval
    refine hP.noDouble n ?_
    refine hP.row (hP.needed (x.eval_keeps hP h.left.left)) fun _ => ?_
    refine hP.row (hP.needed (y.eval_keeps hP h.left.right)) fun _ => ?_
    exact hP.valued (hP.binaryOp _ _ _ _) _
  | .unary n op x, h => by
    unfold Expr.eval
    refine hP.noDouble n ?_
    refine hP.row (hP.needed (x.eval_keeps hP h.left)) fun _ => ?_
    exact hP.valued (hP.unaryOp _ _) _
  | .step n op x, h => by
    unfold Expr.eval
    refine hP.noDouble n ?_
    refine hP.row (x.target_keeps hP h.left) fun _ => ?_
    exact hP.valued (hP.stepTarget _ _) _
  | .assign n x y, h => by
    unfold Expr.eval
    refine hP.noDouble n ?_
    refine hP.row (x.target_keeps hP h.left.left) fun t => ?_
    refine hP.row (hP.needed (y.eval_keeps hP h.left.right)) fun _ => ?_
    refine hP.row (hP.storeTarget t _) fun _ => ?_
    exact hP.pure _
  | .index n x y, h => by
    unfold Expr.eval
    refine hP.noDouble n ?_
    refine hP.row (hP.needed (x.eval_keeps hP h.left.left)) fun _ => ?_
    refine hP.row (hP.needed (y.eval_keeps hP h.left.right)) fun _ => ?_
    refine hP.row (hP.elementTarget _ _) fun t => ?_
    exact hP.valued (hP.loadTarget t) _
  | .name n i, _ => by
    unfold Expr.eval
    refine hP.noDouble n ?_
    refine hP.row (hP.ofName i) fun t => ?_
    exact hP.valued (hP.loadTarget t) _
  | .field n x i, h => by
    unfold Expr.eval
    refine hP.noDouble n ?_
    refine hP.row (hP.needed (x.eval_keeps hP h.left)) fun p => ?_
    refine hP.row (hP.ofField i p) fun t => ?_
    exact hP.valued (hP.loadTarget t) _
  | .new n i, _ => by
    unfold Expr.eval
    exact hP.value n (hP.allocObject i)
  | .newArray n x t, h => by
    unfold Expr.eval
    refine hP.noDouble n ?_
    refine hP.row (hP.needed (x.eval_keeps hP h.left.left)) fun _ => ?_
    exact hP.valued (hP.allocArray _) _
  | .call n i args, h =>
    -- Calls are what the account says nothing about, so the assumption on them is used here.
    have hcall : (Expr.call n i args).CallKept P r := h.last
    hcall (Expr.eval_all_keeps hP args h.left)
  | .send n x i args, h =>
    have hcall : (Expr.send n x i args).CallKept P r := h.last
    hcall (x.eval_keeps hP h.left.left) (Expr.eval_all_keeps hP args h.left.right)

/-- **The steps to the target of an assignment leave what was due.** What is no target is refused.
-/
theorem Expr.target_keeps (hP : P.Lawful) : ∀ e : Expr, Part.All (CallKept P r) e.parts →
    P.Keeps (e.target r)
  | .name _ i, _ => by
    unfold Expr.target
    exact hP.ofName i
  | .field _ x i, h => by
    unfold Expr.target
    exact hP.row (hP.needed (x.eval_keeps hP h.left)) fun p => hP.ofField i p
  | .index _ x y, h => by
    unfold Expr.target
    refine hP.row (hP.needed (x.eval_keeps hP h.left.left)) fun _ => ?_
    refine hP.row (hP.needed (y.eval_keeps hP h.left.right)) fun _ => ?_
    exact hP.elementTarget _ _
  | .int _ _, _ | .bool _ _, _ | .null _, _ | .string _ _, _ | .double _, _ | .readInteger _, _
  | .readLine _, _ | .this _, _ | .binary _ _ _ _, _ | .unary _ _ _, _ | .step _ _ _, _
  | .assign _ _ _, _ | .new _ _, _ | .newArray _ _ _, _ | .call _ _ _, _
  | .send _ _ _ _, _ => by
    unfold Expr.target
    exact hP.refused _

/-- **The steps for expressions in a row leave what was due.** -/
theorem Expr.eval_all_keeps (hP : P.Lawful) : ∀ es : List Expr,
    Part.All (CallKept P r) (Expr.partsAll es) → P.Keeps (Expr.evalAll r es)
  | [], _ => by
    unfold Expr.evalAll
    exact hP.pure _
  | e :: es, h => by
    unfold Expr.evalAll
    refine hP.row (hP.needed (e.eval_keeps hP h.left)) fun _ => ?_
    exact hP.valued (Expr.eval_all_keeps hP es h.right) _

end

end

/-! ## 4. Statements -/

/-- The names stand for the same, and the same object is at hand. -/
structure Surroundings.Within (r' r : Surroundings) : Prop where
  notes_eq : r'.notes = r.notes
  layout_eq : r'.layout = r.layout
  this_eq : r'.this = r.this

theorem Surroundings.Within.refl (r : Surroundings) : r.Within r := ⟨rfl, rfl, rfl⟩

theorem Surroundings.Within.trans {r'' r' r : Surroundings} (h : r''.Within r')
    (h' : r'.Within r) : r''.Within r :=
  ⟨h.notes_eq.trans h'.notes_eq, h.layout_eq.trans h'.layout_eq, h.this_eq.trans h'.this_eq⟩

/-- New variables in the frame change nothing else. -/
theorem Surroundings.Gains.within {r r' : Surroundings} {vs : List VarDecl} {f : Nat → Int}
    {k : Nat} (h : r.Gains r' vs f k) : r'.Within r := ⟨h.notes_eq, h.layout_eq, h.this_eq⟩

/-- Wherever the variables lie, the steps of the call, if the expression is one, leave what was due
if those of its operands do. -/
def Expr.CallKeeps (P : Account) (r : Surroundings) (e : Expr) : Prop :=
  ∀ r', r'.Within r → e.CallKept P r'

section

variable {P : Account} {r r' : Surroundings} {ps : List Part}

/-- What is said wherever the variables lie is said of the surroundings themselves. -/
theorem Part.All.kept (h : Part.All (Expr.CallKeeps P r) ps) : Part.All (Expr.CallKept P r) ps :=
  fun e he => h e he r (.refl r)

/-- What is said wherever the variables lie is said again of surroundings within. -/
theorem Part.All.within (h : Part.All (Expr.CallKeeps P r) ps) (hw : r'.Within r) :
    Part.All (Expr.CallKeeps P r') ps := fun e he x hx => h e he x (hx.trans hw)

/-- Where a break leads to is of no account for the calls. -/
theorem Part.All.leavingTo (h : Part.All (Expr.CallKeeps P r) ps) (l : Label) :
    Part.All (Expr.CallKeeps P (r.leavingTo l)) ps :=
  have hw : (r.leavingTo l).Within r := ⟨rfl, rfl, rfl⟩
  h.within hw

namespace Code.Emit.Account.Lawful

variable (hP : P.Lawful)

include hP

/-- An expression that may be missing. -/
theorem evalOpt {e : Option Expr} (h : Part.All (Expr.CallKeeps P r) (Expr.partsOpt e)) :
    P.Keeps (evalOpt r e) := by
  cases e with
  | none => exact hP.pure _
  | some e => exact hP.row (e.eval_keeps hP h.kept) fun _ => hP.pure _

/-- What prints a value is chosen by its type, and nothing is emitted for it. -/
theorem printer (s : Span) (t : Ty) : P.Keeps (printer s t) := by
  unfold Lowering.printer
  split
  · exact hP.pure _
  · exact hP.pure _
  · exact hP.pure _
  · exact hP.refused _
  · exact hP.refused _

/-- Each value is printed by the runtime as soon as it is there. -/
theorem print {es : List Expr} (h : Part.All (Expr.CallKeeps P r) (Expr.partsAll es)) :
    P.Keeps (print r es) := by
  induction es with
  | nil => exact hP.pure _
  | cons e es ih =>
    refine hP.row (hP.printer _ _) fun _ => ?_
    refine hP.row (hP.needed (e.eval_keeps hP h.left.kept)) fun _ => ?_
    refine hP.row (hP.builtin _ _) fun _ => ?_
    exact ih h.right

/-- A value goes back by one instruction. -/
theorem giveBack {e : Option Expr} (h : Part.All (Expr.CallKeeps P r) (Expr.partsOpt e)) :
    P.Keeps (giveBack r e) := by
  cases e with
  | none => exact hP.instr _ rfl
  | some e =>
    exact hP.row (hP.needed (e.eval_keeps hP h.kept)) fun _ => hP.instr _ rfl

/-- The tests of a switch jump to labels that others place. -/
theorem dispatch (v : Location) (arms : List (Option Int32 × Label)) :
    P.Keeps (dispatch v arms) := by
  induction arms with
  | nil => exact hP.pure _
  | cons a arms ih =>
    obtain ⟨_ | n, l⟩ := a
    · exact ih
    · refine hP.row (hP.constant _) fun _ => ?_
      refine hP.row (hP.op _ _ _) fun _ => ?_
      refine hP.row (hP.instr _ rfl) fun _ => ?_
      exact ih

/-- Room for local variables is made without any instruction that counts. -/
theorem withLocals (r : Surroundings) (ls : List VarDecl) : P.Keeps (withLocals r ls) := by
  induction ls generalizing r with
  | nil => exact hP.pure r
  | cons v ls ih => exact hP.row (hP.newLocal _) fun _ => ih _

end Code.Emit.Account.Lawful

mutual

/-- **The steps for a statement leave what was due if those for its calls do:** the labels that are
handed out on the way are placed. -/
theorem Stmt.lower_keeps (hP : P.Lawful) : ∀ (t : Stmt) (r : Surroundings),
    Part.All (Expr.CallKeeps P r) t.parts → P.Keeps (t.lower r)
  | .block b, r, h => by
    unfold Stmt.lower
    exact b.lower_keeps hP r h
  | .ifThen _ t s, r, h => by
    unfold Stmt.lower
    refine hP.row (hP.needed (t.eval_keeps hP h.left.kept)) fun _ x => ?_
    refine hP.bind (hP.newLabel x) fun _ => ?_
    refine hP.before (hP.instr _ rfl) fun _ => ?_
    refine hP.before (s.lower_keeps hP r h.right) fun _ => ?_
    exact hP.label _ x
  | .ifElse _ t s o, r, h => by
    unfold Stmt.lower
    refine hP.row (hP.needed (t.eval_keeps hP h.left.left.kept)) fun _ x => ?_
    refine hP.bind (hP.newLabel x) fun other => ?_
    refine hP.before (hP.instr _ rfl) fun _ => ?_
    refine hP.before (s.lower_keeps hP r h.left.right) fun _ => ?_
    refine hP.bind (hP.newLabel _) fun behind => ?_
    refine hP.before (hP.instr _ rfl) fun _ => ?_
    -- Two labels are due now, and the one placed first was handed out first.
    rw [Multiset.cons_swap]
    refine hP.bind (hP.label _ _) fun _ => ?_
    refine hP.before (o.lower_keeps hP r h.right) fun _ => ?_
    exact hP.label _ x
  | .while _ t s, r, h => by
    unfold Stmt.lower
    intro x
    refine hP.bind (hP.newLabel x) fun top => ?_
    refine hP.bind (hP.newLabel _) fun behind => ?_
    rw [Multiset.cons_swap]
    refine hP.bind (hP.label _ _) fun _ => ?_
    refine hP.before (hP.needed (t.eval_keeps hP h.left.kept)) fun _ => ?_
    refine hP.before (hP.instr _ rfl) fun _ => ?_
    refine hP.before (s.lower_keeps hP _ (h.right.leavingTo behind)) fun _ => ?_
    refine hP.before (hP.instr _ rfl) fun _ => ?_
    exact hP.label _ x
  | .for _ i t u s, r, h => by
    unfold Stmt.lower
    refine hP.row (hP.evalOpt h.left.left.left) fun _ x => ?_
    refine hP.bind (hP.newLabel x) fun top => ?_
    refine hP.bind (hP.newLabel _) fun behind => ?_
    rw [Multiset.cons_swap]
    refine hP.bind (hP.label _ _) fun _ => ?_
    refine hP.before (hP.needed (t.eval_keeps hP h.left.left.right.kept)) fun _ => ?_
    refine hP.before (hP.instr _ rfl) fun _ => ?_
    refine hP.before (s.lower_keeps hP _ (h.right.leavingTo behind)) fun _ => ?_
    refine hP.before (hP.evalOpt h.left.right) fun _ => ?_
    refine hP.before (hP.instr _ rfl) fun _ => ?_
    exact hP.label _ x
  | .switch _ e cs, r, h => by
    unfold Stmt.lower
    refine hP.row (hP.needed (e.eval_keeps hP h.left.kept)) fun _ x => ?_
    refine hP.bind (hP.newLabel x) fun behind => ?_
    refine hP.bind_of (hP.newLabels _) fun s o ho => ?_
    refine hP.before (hP.dispatch _ _) fun _ => ?_
    refine hP.before (hP.instr _ rfl) fun _ => ?_
    refine hP.bind (Case.lower_all_keeps hP cs o.value _ (Code.Emit.newLabels_length ho)
      (h.right.leavingTo behind) _) fun _ => ?_
    exact hP.label _ x
  | .break _, r, _ => by
    unfold Stmt.lower
    exact hP.row (hP.required _ _) fun _ => hP.instr _ rfl
  | .ret _ e, r, h => by
    unfold Stmt.lower
    exact hP.giveBack h
  | .print _ es, r, h => by
    unfold Stmt.lower
    exact hP.print h
  | .expr e, r, h => by
    unfold Stmt.lower
    exact hP.row (e.eval_keeps hP h.kept) fun _ => hP.pure _

/-- **The steps for a block leave what was due,** whatever variables it declares. -/
theorem Block.lower_keeps (hP : P.Lawful) : ∀ (b : Block) (r : Surroundings),
    Part.All (Expr.CallKeeps P r) b.parts → P.Keeps (b.lower r)
  | ⟨_, ls, ss⟩, r, h => fun x => by
    unfold Block.lower
    refine hP.bind_of (hP.withLocals r ls x) fun s o ho => ?_
    -- The body stands in the surroundings with the local variables in it, which only gain slots.
    obtain ⟨r', e, hg⟩ := withLocals_run ls r s
    cases e.symm.trans ho
    exact Stmt.lower_all_keeps hP ss r' (h.left.right.within hg.within) x

/-- **The steps for an arm of a switch leave what was due.** -/
theorem Case.lower_keeps (hP : P.Lawful) : ∀ (c : Case) (r : Surroundings),
    Part.All (Expr.CallKeeps P r) c.parts → P.Keeps (c.lower r)
  | ⟨_, ss⟩, r, h => by
    unfold Case.lower
    exact Stmt.lower_all_keeps hP ss r h

/-- **The steps for statements in a row leave what was due.** -/
theorem Stmt.lower_all_keeps (hP : P.Lawful) : ∀ (ss : List Stmt) (r : Surroundings),
    Part.All (Expr.CallKeeps P r) (Stmt.partsAll ss) → P.Keeps (Stmt.lowerAll ss r)
  | [], _, _ => by
    unfold Stmt.lowerAll
    exact hP.pure _
  | s :: ss, r, h => by
    unfold Stmt.lowerAll
    exact hP.row (s.lower_keeps hP r h.left) fun _ => Stmt.lower_all_keeps hP ss r h.right

/-- The labels of the arms are placed in front of them. -/
theorem Case.lower_all_keeps (hP : P.Lawful) : ∀ (cs : List Case) (ls : List Label)
    (r : Surroundings), ls.length = cs.length → Part.All (Expr.CallKeeps P r) (Case.partsAll cs) →
      ∀ x, P Unit (Case.lowerAll cs ls r) ((ls : Multiset Label) + x) fun _ => x
  | [], [], _, _, _, x => by
    unfold Case.lowerAll
    rw [Multiset.coe_nil, zero_add]
    exact hP.pure () x
  | c :: cs, l :: ls, r, hn, h, x => by
    unfold Case.lowerAll
    -- The label of the first arm is placed before it, and the others remain due.
    rw [← Multiset.cons_coe, Multiset.cons_add]
    refine hP.bind (hP.label l _) fun _ => ?_
    refine hP.before (c.lower_keeps hP r h.left) fun _ => ?_
    exact Case.lower_all_keeps hP cs ls r (Nat.succ.inj hn) h.right x

end

end

end DecafLang
