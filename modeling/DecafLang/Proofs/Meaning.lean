import DecafLang.Proofs.Values

/-!
# What statements do

The meaning of statements over variables of the frame, rule by rule.

* A statement takes the words of the variables to those after it, and ends normally, at a `break`,
  or by giving control back (`Outcome`).
* **`loop` is the one inductive rule;** all others put together what the parts do.
* The arms of a `switch` follow one another from the one that is entered: the first whose label
  is equal to the value, or else the default, or else the end.
* A block brings its variables into sight as they are. Printing has no rule here.
-/

namespace DecafLang

/-- The variables that `T` tells, the bools, are 0 or 1. -/
def Truthful (T : NodeId → Prop) (σ : Valuation) : Prop := ∀ v, T v → σ v = 0 ∨ σ v = 1

/-- How a statement ends. -/
inductive Outcome where
  | normal
  /-- At a `break`. -/
  | broke
  /-- Control is given back, perhaps with a word. -/
  | returned (value : Option Int32)

/-- What may happen to the variables, and how it ends. -/
def Behaviour := Valuation → Outcome → Valuation → Prop

namespace Behaviour

/-- An expression with its value and the variables after it. -/
abbrev Step := Valuation → Int32 × Valuation

/-- Nothing happens. -/
def skip : Behaviour := fun σ o σ' => o = .normal ∧ σ' = σ

/-- An expression is evaluated. -/
def eval (f : Step) : Behaviour := fun σ o σ' => o = .normal ∧ σ' = (f σ).2

/-- Control leaves. -/
def leave (out : Outcome) : Behaviour := fun σ o σ' => o = out ∧ σ' = σ

/-- Control is given back with the value of an expression. -/
def giveBack (f : Step) : Behaviour := fun σ o σ' =>
  o = .returned (some (f σ).1) ∧ σ' = (f σ).2

/-- One after the other; the second only if the first ends normally. -/
def seq (X Y : Behaviour) : Behaviour := fun σ o σ' =>
  (∃ σ₁, X σ .normal σ₁ ∧ Y σ₁ o σ') ∨ (o ≠ .normal ∧ X σ o σ')

/-- One or the other, by a test. -/
def branch (f : Step) (X Y : Behaviour) : Behaviour := fun σ o σ' =>
  if (f σ).1 = 0 then Y (f σ).2 o σ' else X (f σ).2 o σ'

/-- What depends on a value. -/
def select (f : Step) (X : Int32 → Behaviour) : Behaviour := fun σ => X (f σ).1 (f σ).2

/-- What a `break` leaves. -/
def caught (X : Behaviour) : Behaviour := fun σ o σ' =>
  (o = .normal ∧ (X σ .normal σ' ∨ X σ .broke σ')) ∨ ∃ v, o = .returned v ∧ X σ o σ'

/-- A loop: a test, a body, and what follows the body before the next test. -/
inductive loop (f : Step) (X U : Behaviour) : Behaviour
  | stop {σ : Valuation} : (f σ).1 = 0 → loop f X U σ .normal (f σ).2
  | again {σ σ₁ σ₂ σ' : Valuation} {o : Outcome} : (f σ).1 ≠ 0 → X (f σ).2 .normal σ₁ →
      U σ₁ .normal σ₂ → loop f X U σ₂ o σ' → loop f X U σ o σ'
  | broke {σ σ' : Valuation} : (f σ).1 ≠ 0 → X (f σ).2 .broke σ' → loop f X U σ .normal σ'
  | returned {σ σ' : Valuation} {v : Option Int32} : (f σ).1 ≠ 0 →
      X (f σ).2 (.returned v) σ' → loop f X U σ (.returned v) σ'

end Behaviour

/-- The position of the arm that a value leads to; the end is behind the last one. -/
def Case.entry (x : Int32) (cs : List Case) : Nat :=
  ((cs.findIdx? fun c => c.label == some x).or (cs.findIdx? fun c => c.label.isNone)).getD cs.length

/-- What an expression does that may be missing. -/
def Expr.execOpt (a : Notes) : Option Expr → Behaviour
  | none => .skip
  | some e => .eval (e.inOrder a)

mutual

/-- What a statement does. -/
def Stmt.exec (a : Notes) : Stmt → Behaviour
  | .block b => b.exec a
  | .ifThen _ t s => .branch (t.inOrder a) (s.exec a) .skip
  | .ifElse _ t s o => .branch (t.inOrder a) (s.exec a) (o.exec a)
  | .while _ t s => .loop (t.inOrder a) (s.exec a) .skip
  | .for _ i t u s =>
    .seq (Expr.execOpt a i) (.loop (t.inOrder a) (s.exec a) (Expr.execOpt a u))
  | .switch _ e cs =>
    .caught (.select (e.inOrder a) fun x => Case.execFrom a cs (Case.entry x cs))
  | .break _ => .leave .broke
  | .ret _ none => .leave (.returned none)
  | .ret _ (some e) => .giveBack (e.inOrder a)
  | .print _ _ => fun _ _ _ => False
  | .expr e => .eval (e.inOrder a)

/-- What a block does. -/
def Block.exec (a : Notes) : Block → Behaviour
  | ⟨_, _, ss⟩ => Stmt.execAll a ss

/-- What an arm does. -/
def Case.exec (a : Notes) : Case → Behaviour
  | ⟨_, ss⟩ => Stmt.execAll a ss

/-- What several statements do. -/
def Stmt.execAll (a : Notes) : List Stmt → Behaviour
  | [] => .skip
  | s :: r => .seq (s.exec a) (Stmt.execAll a r)

/-- What the arms from a position on do. -/
def Case.execFrom (a : Notes) : List Case → Nat → Behaviour
  | [], _ => .skip
  | c :: r, 0 => .seq (c.exec a) (Case.execFrom a r 0)
  | _ :: r, k + 1 => Case.execFrom a r k

end

end DecafLang
