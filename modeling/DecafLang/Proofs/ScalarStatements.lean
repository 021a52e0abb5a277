import DecafLang.Proofs.Meaning

/-!
# Statements on scalar variables

Statements that are assignments and control flow over int and bool variables of the frame.

* `Stmt.Tame` describes them by what the notes say: the types of the expressions, and the
  variables in sight that the names stand for.
* Inside them a bool is 0 or 1 (`Truthful`), so that the operators of the machine, which go bit by
  bit, agree with those of the language.
* **`Expr.Tame.inPlace_eq`: a tame expression changes nothing, and its code gives the word that it
  is worth from left to right.**
-/

namespace DecafLang

open Code (Op truth)
open Lowering

/-! ## 1. Tame statements -/

/-- What an operator takes on both sides, and what it gives. -/
def BinaryOp.Takes (op : BinaryOp) (u t : Ty) : Prop :=
  match op.opClass with
  | .arithmetic => (Op.ofBinary op).divides = false ∧ u = .int ∧ t = .int
  | .relational => u = .int ∧ t = .bool
  | .equality => (u = .int ∨ u = .bool) ∧ t = .bool
  | .logical => u = .bool ∧ t = .bool

/-- A name stands for an int or bool variable in sight. -/
def Notes.Knows (a : Notes) (vis : List VarDecl) (t : Ty) (i : Ident) : Prop :=
  (t = .int ∨ t = .bool) ∧ ∃ v ∈ vis, a.var? i = some v ∧ v.type.ty = t

/-- An expression of a type over constants and the variables in sight. -/
def Expr.Tame (a : Notes) (vis : List VarDecl) : Ty → Expr → Prop
  | t, .int n _ => a.types.get? n.id = some t ∧ t = .int
  | t, .bool n _ => a.types.get? n.id = some t ∧ t = .bool
  | t, .name n i => a.types.get? n.id = some t ∧ a.Knows vis t i
  | t, .unary n .neg x => a.types.get? n.id = some t ∧ t = .int ∧ x.Tame a vis .int
  | t, .unary n .not x => a.types.get? n.id = some t ∧ t = .bool ∧ x.Tame a vis .bool
  | t, .binary n op x y => a.types.get? n.id = some t ∧
      ∃ u, op.Takes u t ∧ x.Tame a vis u ∧ y.Tame a vis u
  | _, _ => False

/-- An assignment to a variable in sight. -/
def Expr.TameSet (a : Notes) (vis : List VarDecl) : Expr → Prop
  | .assign n (.name _ i) e => ∃ t, a.types.get? n.id = some t ∧ a.Knows vis t i ∧ e.Tame a vis t
  | _ => False

mutual

/-- A statement with these variables in sight, and with something to leave by a `break` or not.
`T` tells which variables are bools. -/
def Stmt.Tame (a : Notes) (T : NodeId → Prop) : Stmt → List VarDecl → Bool → Prop
  | .block b, vis, br => b.Tame a T vis br
  | .ifThen _ t s, vis, br => t.Tame a vis .bool ∧ s.Tame a T vis br
  | .ifElse _ t s o, vis, br => t.Tame a vis .bool ∧ s.Tame a T vis br ∧ o.Tame a T vis br
  | .while _ t s, vis, _ => t.Tame a vis .bool ∧ s.Tame a T vis true
  | .for _ i t u s, vis, _ => (∀ e ∈ i, e.TameSet a vis) ∧ t.Tame a vis .bool ∧
      (∀ e ∈ u, e.TameSet a vis) ∧ s.Tame a T vis true
  | .switch _ e cs, vis, _ => (∃ t, e.Tame a vis t) ∧ cs.countP (fun c => c.label.isNone) ≤ 1 ∧
      Case.TameAll a T cs vis
  | .break _, _, br => br = true
  | .ret _ e, vis, _ => ∀ x ∈ e, ∃ t, x.Tame a vis t
  | .print _ _, _, _ => False
  | .expr e, vis, _ => e.TameSet a vis

/-- A block whose variables come into sight in it. -/
def Block.Tame (a : Notes) (T : NodeId → Prop) : Block → List VarDecl → Bool → Prop
  | ⟨_, ls, ss⟩, vis, br => (∀ v ∈ ls, T v.id ↔ v.type.ty = .bool) ∧
      Stmt.TameAll a T ss (ls ++ vis) br

/-- An arm. -/
def Case.Tame (a : Notes) (T : NodeId → Prop) : Case → List VarDecl → Prop
  | ⟨_, ss⟩, vis => Stmt.TameAll a T ss vis true

/-- Several statements. -/
def Stmt.TameAll (a : Notes) (T : NodeId → Prop) : List Stmt → List VarDecl → Bool → Prop
  | [], _, _ => True
  | s :: r, vis, br => s.Tame a T vis br ∧ Stmt.TameAll a T r vis br

/-- Several arms. -/
def Case.TameAll (a : Notes) (T : NodeId → Prop) : List Case → List VarDecl → Prop
  | [], _ => True
  | c :: r, vis => c.Tame a T vis ∧ Case.TameAll a T r vis

end

/-! ## 2. Tame expressions -/

/-- The variables in sight have slots in the frame. -/
def Surroundings.Shows (r : Surroundings) (vis : List VarDecl) : Prop :=
  ∀ v ∈ vis, ∃ o n, r.slot? v.id = some (.frame o n)

section

variable {r : Surroundings} {a : Notes} {vis : List VarDecl} {t : Ty} {e : Expr}
  {T : NodeId → Prop} {σ : Valuation}

/-- A tame expression is noted to be an int or a bool. -/
theorem Expr.Tame.type_cases : ∀ {e : Expr} {t : Ty}, e.Tame a vis t →
    a.types.get? e.node.id = some t ∧ (t = .int ∨ t = .bool)
  | .int _ _, _, ⟨h, e⟩ => ⟨h, .inl e⟩
  | .bool _ _, _, ⟨h, e⟩ => ⟨h, .inr e⟩
  | .name _ _, _, ⟨h, e, _⟩ => ⟨h, e⟩
  | .unary _ .neg _, _, ⟨h, e, _⟩ => ⟨h, .inl e⟩
  | .unary _ .not _, _, ⟨h, e, _⟩ => ⟨h, .inr e⟩
  | .binary _ op _ _, _, ⟨h, u, ho, _⟩ => by
    refine ⟨h, ?_⟩
    -- the operators sort by what they give: a number or a truth value
    unfold BinaryOp.Takes at ho
    split at ho
    · exact .inl ho.2.2
    · exact .inr ho.2
    · exact .inr ho.2
    · exact .inr ho.2

/-- A node has the type that is noted for it. -/
theorem Surroundings.typeAt_of_get? {n : Node} (hr : r.notes = a)
    (h : a.types.get? n.id = some t) : r.typeAt n = t := by
  unfold typeAt
  rw [hr, h]
  rfl

/-- No tame expression is a double or a string, which have code of their own. -/
theorem Expr.Tame.typeAt (hr : r.notes = a) (h : e.Tame a vis t) :
    r.typeAt e.node = t ∧ r.typeAt e.node ≠ .double ∧ r.typeAt e.node ≠ .string := by
  obtain ⟨hg, ht⟩ := h.type_cases
  have e := Surroundings.typeAt_of_get? hr hg
  rw [e]
  refine ⟨rfl, ?_⟩
  rcases ht with rfl | rfl
  · exact ⟨nofun, nofun⟩
  · exact ⟨nofun, nofun⟩

/-- A name that is known stands for a variable in the frame. -/
theorem Notes.Knows.sees {i : Ident} (hr : r.notes = a) (hs : r.Shows vis)
    (h : a.Knows vis t i) : r.Sees i := by
  obtain ⟨-, v, hv, hi, -⟩ := h
  obtain ⟨o, n, hl⟩ := hs v hv
  exact ⟨v, o, n, hr ▸ hi, hl⟩

/-- The operators on scalars that are left do not divide, so they test nothing before. -/
theorem BinaryOp.Takes.divides {op : BinaryOp} {u : Ty} (h : op.Takes u t) :
    (Op.ofBinary op).divides = false := by
  cases op with
  | div => exact h.1
  | mod => exact h.1
  | _ => rfl

/-- **The code of a tame expression never leaves the program.** -/
theorem Expr.Tame.plain (hr : r.notes = a) (hs : r.Shows vis) : ∀ {e : Expr} {t : Ty},
    e.Tame a vis t → e.Plain r
  | .int n v, t, h => (Tame.typeAt (e := .int n v) hr h).2.1
  | .bool n v, t, h => (Tame.typeAt (e := .bool n v) hr h).2.1
  | .name n i, t, h => ⟨(Tame.typeAt (e := .name n i) hr h).2.1, h.2.sees hr hs⟩
  | .unary n .neg x, t, h =>
    ⟨(Tame.typeAt (e := .unary n .neg x) hr h).2.1, plain hr hs h.2.2⟩
  | .unary n .not x, t, h =>
    ⟨(Tame.typeAt (e := .unary n .not x) hr h).2.1, plain hr hs h.2.2⟩
  | .binary n op x y, t, h => by
    have hd := (Tame.typeAt (e := .binary n op x y) hr h).2.1
    obtain ⟨-, u, ho, hx, hy⟩ := h
    exact ⟨hd, ho.divides, fun e => (hx.typeAt hr).2.2 e.1, plain hr hs hx, plain hr hs hy⟩

/-- A name that is noted has the number of its variable. -/
theorem Notes.varId_eq {i : Ident} {v : VarDecl} (h : a.var? i = some v) : a.varId i = v.id := by
  unfold varId
  rw [h]
  rfl

theorem truth_cases (b : Bool) : truth b = 0 ∨ truth b = 1 := by
  cases b
  · exact .inl rfl
  · exact .inr rfl

/-- On truth values, going bit by bit is right. -/
theorem and_truth {x y : Int32} (hx : x = 0 ∨ x = 1) (hy : y = 0 ∨ y = 1) :
    x &&& y = truth (x != 0 && y != 0) := by
  rcases hx with rfl | rfl <;> rcases hy with rfl | rfl <;> rfl

/-- The same for the disjunction. -/
theorem or_truth {x y : Int32} (hx : x = 0 ∨ x = 1) (hy : y = 0 ∨ y = 1) :
    x ||| y = truth (x != 0 || y != 0) := by
  rcases hx with rfl | rfl <;> rcases hy with rfl | rfl <;> rfl

/-- **The operators of the machine give what those of the language do,** as long as a bool is 0 or
1. -/
theorem BinaryOp.Takes.word_eq {op : BinaryOp} {u : Ty} {x y : Int32} (h : op.Takes u t)
    (hx : u = .bool → x = 0 ∨ x = 1) (hy : u = .bool → y = 0 ∨ y = 1) :
    (Op.ofBinary op).word x y = op.word x y ∧ (t = .bool → op.word x y = 0 ∨ op.word x y = 1) := by
  cases op with
  -- only here do the operators differ: the machine's goes bit by bit
  | and => exact ⟨and_truth (hx h.1) (hy h.1), fun _ => truth_cases _⟩
  | or => exact ⟨or_truth (hx h.1) (hy h.1), fun _ => truth_cases _⟩
  | less => exact ⟨rfl, fun _ => truth_cases _⟩
  | lessEqual => exact ⟨rfl, fun _ => truth_cases _⟩
  | greater => exact ⟨rfl, fun _ => truth_cases _⟩
  | greaterEqual => exact ⟨rfl, fun _ => truth_cases _⟩
  | equal => exact ⟨rfl, fun _ => truth_cases _⟩
  | notEqual => exact ⟨rfl, fun _ => truth_cases _⟩
  | _ => exact ⟨rfl, fun ht => nomatch h.2.2.symm.trans ht⟩

/-- **A tame expression changes nothing, and its code gives the word that it is worth.** -/
theorem Expr.Tame.inPlace_eq (hT : ∀ v ∈ vis, T v.id ↔ v.type.ty = .bool) (hσ : Truthful T σ) :
    ∀ {e : Expr} {t : Ty}, e.Tame a vis t →
      (e.inPlace a σ).2 = σ ∧ e.inOrder a σ = ((e.inPlace a σ).1.value σ, σ) ∧
        (t = .bool → (e.inOrder a σ).1 = 0 ∨ (e.inOrder a σ).1 = 1)
  | .int _ _, t, ⟨_, e⟩ => ⟨rfl, rfl, fun ht => nomatch e.symm.trans ht⟩
  | .bool _ v, t, _ => ⟨rfl, rfl, fun _ => truth_cases v⟩
  | .name _ i, t, ⟨_, _, v, hv, hi, ht⟩ => by
    refine ⟨rfl, rfl, fun e => ?_⟩
    show σ (a.varId i) = 0 ∨ σ (a.varId i) = 1
    -- a variable of type bool is 0 or 1 in a truthful store
    rw [Notes.varId_eq hi]
    exact hσ v.id ((hT v hv).mpr (ht.trans e))
  -- the machine has no negation of its own and takes the number from 0
  | .unary _ .neg x, t, ⟨_, ht, hx⟩ => by
    obtain ⟨h₁, h₂, -⟩ := inPlace_eq hT hσ hx
    refine ⟨h₁, ?_, fun e => nomatch ht.symm.trans e⟩
    simp only [inOrder, inPlace, h₁, h₂, UnaryOp.word, UnaryOp.op, Op.word, Held.value_word,
      Int32.zero_sub]
  | .unary _ .not x, t, ⟨_, _, hx⟩ => by
    obtain ⟨h₁, h₂, -⟩ := inPlace_eq hT hσ hx
    refine ⟨h₁, ?_, fun _ => truth_cases _⟩
    simp only [inOrder, inPlace, h₁, h₂, UnaryOp.word, UnaryOp.op, Op.word, Held.value_word]
    -- the machine compares with 0 from the other side
    rw [BEq.comm]
  | .binary n op x y, t, ⟨_, u, ho, hx, hy⟩ => by
    obtain ⟨hx₁, hx₂, hx₃⟩ := inPlace_eq hT hσ hx
    obtain ⟨hy₁, hy₂, hy₃⟩ := inPlace_eq hT hσ hy
    -- neither operand changes anything, so both orders read the same store
    obtain ⟨hw, hb⟩ := ho.word_eq hx₃ hy₃
    simp only [hx₂, hy₂] at hw hb
    refine ⟨?_, ?_, ?_⟩
    · simp only [inPlace, hx₁, hy₁]
    · simp only [inOrder, inPlace, hx₁, hy₁, hx₂, hy₂, Held.value_word, hw]
    · simp only [inOrder, hx₂, hy₂]
      exact hb

end

end DecafLang
