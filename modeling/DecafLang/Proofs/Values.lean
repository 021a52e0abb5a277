import DecafLang.Proofs.Frames

/-!
# Expressions over variables of the frame

What the code of an expression does that is built from constants, variables of the frame and
operators other than division, with assignments to variables and steps of variables inside.

* `Expr.inOrder` is the meaning of such an expression: operands are evaluated from left to right,
  and each is worth what it was worth then.
* `Expr.inPlace` is what its code does: **a variable is read where it lies, when the operator
  needs it,** and the logical operators go bit by bit.
* `Expr.eval_realizes`: the code of the expression exists and does what `inPlace` says.
-/

namespace DecafLang

open Code (Emit Emitted Instr Location Op Store Supply World effectAll labelsOf truth)
open Lowering

/-! ## 1. Meanings -/

/-- The variable that a name stands for, by its number; a name of no variable stands for itself. -/
def Notes.varId (a : Notes) (i : Ident) : NodeId := ((a.var? i).map VarDecl.id).getD i.id

/-- The word that an operator gives. -/
def BinaryOp.word : BinaryOp → Int32 → Int32 → Int32
  | add, x, y => x + y
  | sub, x, y => x - y
  | mul, x, y => x * y
  | div, x, y => x / y
  | mod, x, y => x % y
  | less, x, y => truth (x < y)
  | lessEqual, x, y => truth (x ≤ y)
  | greater, x, y => truth (y < x)
  | greaterEqual, x, y => truth (y ≤ x)
  | equal, x, y => truth (x == y)
  | notEqual, x, y => truth (x != y)
  | and, x, y => truth (x != 0 && y != 0)
  | or, x, y => truth (x != 0 || y != 0)

/-- The word that an operator in front of its operand gives. -/
def UnaryOp.word : UnaryOp → Int32 → Int32
  | neg, x => -x
  | not, x => truth (x == 0)

/-- The word after a step. -/
def StepOp.word : StepOp → Int32 → Int32
  | increment, x => x + 1
  | decrement, x => x - 1

/-- The value of an expression and the variables after it, from left to right. -/
def Expr.inOrder (a : Notes) : Expr → Valuation → Int32 × Valuation
  | .int _ v, σ => (v, σ)
  | .bool _ v, σ => (truth v, σ)
  | .name _ i, σ => (σ (a.varId i), σ)
  | .unary _ op x, σ =>
    let x := x.inOrder a σ
    (op.word x.1, x.2)
  | .binary _ op l r, σ =>
    let x := l.inOrder a σ
    let y := r.inOrder a x.2
    (op.word x.1 y.1, y.2)
  | .assign _ (.name _ i) v, σ =>
    let x := v.inOrder a σ
    (x.1, Function.update x.2 (a.varId i) x.1)
  | .step _ op (.name _ i), σ =>
    (σ (a.varId i), Function.update σ (a.varId i) (op.word (σ (a.varId i))))
  | _, σ => (0, σ)

/-- The operation that stands for an operator in front of its operand, with 0 as first operand. -/
def UnaryOp.op : UnaryOp → Op
  | neg => .sub
  | not => .eq

/-- Where the code of an expression leaves its value, and the variables after it. -/
def Expr.inPlace (a : Notes) : Expr → Valuation → Held × Valuation
  | .int _ v, σ => (.word v, σ)
  | .bool _ v, σ => (.word (if v then 1 else 0), σ)
  | .name _ i, σ => (.slot (a.varId i), σ)
  | .unary _ op x, σ =>
    let x := x.inPlace a σ
    (.word (op.op.word 0 (x.1.value x.2)), x.2)
  | .binary _ op l r, σ =>
    let x := l.inPlace a σ
    let y := r.inPlace a x.2
    (.word ((Op.ofBinary op).word (x.1.value y.2) (y.1.value y.2)), y.2)
  | .assign _ (.name _ i) v, σ =>
    let x := v.inPlace a σ
    (x.1, Function.update x.2 (a.varId i) (x.1.value x.2))
  | .step _ op (.name _ i), σ =>
    (.word (σ (a.varId i)),
      Function.update σ (a.varId i) ((stepOp op).word (σ (a.varId i)) 1))
  | _, σ => (.word 0, σ)

/-! ## 2. The expressions -/

/-- A name stands for a variable that lies in the frame. -/
def Surroundings.Sees (r : Surroundings) (i : Ident) : Prop :=
  ∃ v o n, r.notes.var? i = some v ∧ r.slot? v.id = some (.frame o n)

/-- The placing has the variables in sight where they lie in the frame. -/
def Placing.Covers (p : Placing) (r : Surroundings) : Prop :=
  ∀ v o n, r.slot? v = some (.frame o n) → p v = some o

theorem Surroundings.placing_covers (r : Surroundings) : r.placing.Covers r := by
  intro v o n h
  unfold placing
  rw [h]
  rfl

/-- An expression over variables of the frame that has code without jumps and calls. -/
def Expr.Plain (r : Surroundings) : Expr → Prop
  | .int n _ => r.typeAt n ≠ .double
  | .bool n _ => r.typeAt n ≠ .double
  | .name n i => r.typeAt n ≠ .double ∧ r.Sees i
  | .unary n _ x => r.typeAt n ≠ .double ∧ x.Plain r
  | .binary n op x y => r.typeAt n ≠ .double ∧ (Op.ofBinary op).divides = false ∧
      ¬ (r.typeAt x.node = .string ∧ r.typeAt y.node = .string) ∧ x.Plain r ∧ y.Plain r
  | .assign n (.name _ i) v => r.typeAt n ≠ .double ∧ r.Sees i ∧ v.Plain r
  | .step n _ (.name _ i) => r.typeAt n ≠ .double ∧ r.Sees i
  | _ => False

variable {r : Surroundings} {P : Placing → Prop} {s s' s'' : Supply}

theorem Surroundings.noDouble_of_ne {α : Type} {n : Node} {m : Emit α}
    (h : r.typeAt n ≠ .double) : r.noDouble n m = m := if_neg h

/-- What a name stands for that is seen: a slot, where the placing has its variable. -/
theorem Surroundings.Sees.target {i : Ident} (h : r.Sees i) :
    ∃ o n, (∀ p : Placing, p.Covers r → p (r.notes.varId i) = some o) ∧
      ∀ s, Target.ofName r i s = .ok ⟨.word (.frame o n), [], s⟩ := by
  obtain ⟨v, o, n, hv, hl⟩ := h
  refine ⟨o, n, fun p hp => ?_, fun s => ?_⟩
  · unfold Notes.varId
    rw [hv]
    exact hp v.id o n hl
  · unfold Target.ofName Surroundings.varOf
    rw [hv]
    show Emit.andThen (pure v) _ s = _
    simp only [Emit.andThen, Emit.pure_run, hl, List.nil_append]

/-! ## 3. Their code -/

theorem binaryOp_false (op : BinaryOp) (x y : Location) :
    binaryOp op false x y = Emit.op (.ofBinary op) x y := by
  cases op <;> rfl

theorem Op.effect_op {o : Op} (ho : o.divides = false) (w : World) (m : Store)
    (d x y : Location) :
    (Instr.op o d x y).effect w m = some (m.write d (o.word (m.read x) (m.read y))) := by
  simp [Instr.effect, Op.traps, ho]

theorem UnaryOp.op_divides (op : UnaryOp) : op.op.divides = false := by cases op <;> rfl

theorem stepOp_divides (op : StepOp) : (stepOp op).divides = false := by cases op <;> rfl

/-- A constant in the next temporary. -/
theorem constant_realizes (x : Int32) :
    Realizes P (fun σ => (.word x, σ)) s s.tempSlot [.const s.tempSlot x] s.afterTemp :=
  .temp (i := fun d => .const d x) (x := fun _ => x) (fun _ => rfl) fun _ _ _ _ _ _ => rfl

/-- The code of an operator in front of an operand that is at hand. -/
theorem unaryOp_run (op : UnaryOp) (x : Location) (s : Supply) :
    unaryOp op x s = .ok ⟨s.afterTemp.tempSlot,
      [.const s.tempSlot 0, .op op.op s.afterTemp.tempSlot s.tempSlot x],
      s.afterTemp.afterTemp⟩ := by
  cases op <;> rfl

/-- A step of a variable leaves the word from before in a temporary. -/
theorem stepTarget_run (op : StepOp) (x : Location) (s : Supply) :
    stepTarget op (.word x) s = .ok ⟨s.tempSlot,
      [.copy s.tempSlot x, .const s.afterTemp.tempSlot 1,
        .op (stepOp op) s.afterTemp.afterTemp.tempSlot x s.afterTemp.tempSlot,
        .copy x s.afterTemp.afterTemp.tempSlot],
      s.afterTemp.afterTemp.afterTemp⟩ := rfl

theorem step_realizes (op : StepOp) {v : NodeId} {o : Int} {n : String}
    (ha : ∀ p, P p → p.Apart) (hv : ∀ p, P p → p v = some o) :
    Realizes P
      (fun σ => (.word (σ v), Function.update σ v ((stepOp op).word (σ v) 1))) s s.tempSlot
      ([.copy s.tempSlot (.frame o n)] ++ ([.const s.afterTemp.tempSlot 1,
        .op (stepOp op) s.afterTemp.afterTemp.tempSlot (.frame o n) s.afterTemp.tempSlot] ++
        [.copy (.frame o n) s.afterTemp.afterTemp.tempSlot])) s.afterTemp.afterTemp.afterTemp := by
  have first : Realizes P (fun σ => (.word (σ v), σ)) s s.tempSlot
      [.copy s.tempSlot (.frame o n)] s.afterTemp :=
    .temp (i := fun d => .copy d (.frame o n)) (x := fun σ => σ v) (fun _ => rfl)
      fun p hP w σ m hm => by rw [← hm v o (hv p hP)]; rfl
  have second : Realizes P (fun σ => (.word ((stepOp op).word (σ v) 1), σ)) s.afterTemp
      s.afterTemp.afterTemp.tempSlot [.const s.afterTemp.tempSlot 1,
        .op (stepOp op) s.afterTemp.afterTemp.tempSlot (.frame o n) s.afterTemp.tempSlot]
      s.afterTemp.afterTemp.afterTemp :=
    (Realizes.slot hv).combine (constant_realizes 1)
      (i := fun d => .op (stepOp op) d (.frame o n) s.afterTemp.tempSlot)
      (fun _ => rfl) fun w m d => Op.effect_op (stepOp_divides op) w m d ..
  have hle : s.afterTemp.locals ≤ s.afterTemp.afterTemp.afterTemp.locals := second.locals_le
  refine first.andThen rfl hle rfl fun p hP w σ m hm hp hx => ?_
  obtain ⟨m₁, e₁, hm₁, hf₁, hy⟩ :=
    second.runs p hP w σ m hm (hp.mono first.locals_le (Nat.le_refl _))
  -- The copy taken first lies below what the sum uses, so it still holds the old value.
  have hx₁ := hx.keep hf₁ (hp.mono (Nat.le_refl _) hle) hle
  have hf₂ := hf₁.mono (a := s.locals) first.locals_le (Nat.le_refl _)
  refine ⟨m₁.write (.frame o n) (m₁.read s.afterTemp.afterTemp.tempSlot), ?_, ?_,
    hf₂.trans (.write_slot (hv p hP)), ?_⟩
  · rw [Code.effectAll_append, e₁]
    rfl
  · rw [hy.read hm₁]
    exact hm₁.write_slot (ha p hP) (hv p hP)
  · exact hx₁.keep (b := s.afterTemp.afterTemp.afterTemp.locals) (.write_slot (hv p hP)) hp
      (Nat.le_refl _)

/-- **The code of a plain expression exists and does what `inPlace` says,** wherever the variables
lie. -/
theorem Expr.eval_realizes : ∀ (e : Expr) (s : Supply), e.Plain r →
    ∃ l code s', e.eval r s = .ok ⟨some l, code, s'⟩ ∧
      Realizes (fun p => p.Apart ∧ p.Covers r) (e.inPlace r.notes) s l code s'
  | .int n v, s, h => by
    refine ⟨_, _, _, ?_, constant_realizes v⟩
    unfold Expr.eval
    rw [Surroundings.noDouble_of_ne h]
    rfl
  | .bool n v, s, h => by
    refine ⟨_, _, _, ?_, constant_realizes (if v then 1 else 0)⟩
    unfold Expr.eval
    rw [Surroundings.noDouble_of_ne h]
    rfl
  | .name n i, s, h => by
    obtain ⟨hd, hi⟩ := h
    -- no instruction is written: the operand is the variable's own slot
    obtain ⟨o, m, ho, ht⟩ := hi.target
    refine ⟨_, _, _, ?_, .slot (n := m) fun p hp => ho p hp.2⟩
    unfold Expr.eval
    rw [Surroundings.noDouble_of_ne hd]
    exact bind_run (ht s) rfl
  | .unary n op x, s, h => by
    obtain ⟨hd, hx⟩ := h
    obtain ⟨l, code, s', e, hr⟩ := eval_realizes x s hx
    refine ⟨_, _, _, ?_, hr.combine (constant_realizes 0)
      (i := fun d => .op op.op d s'.tempSlot l) (F := fun a b => op.op.word b a)
      (fun _ => rfl) fun w m d => Op.effect_op op.op_divides w m d ..⟩
    unfold Expr.eval
    rw [Surroundings.noDouble_of_ne hd]
    exact bind_run (needed_run e) (some_run (unaryOp_run op l s'))
  | .binary n op x y, s, h => by
    obtain ⟨hd, hop, hs, hx, hy⟩ := h
    obtain ⟨l, code, s', e, hr⟩ := eval_realizes x s hx
    obtain ⟨l', code', s'', e', hr'⟩ := eval_realizes y s' hy
    refine ⟨_, _, _, ?_, hr.combine hr'
      (i := fun d => .op (.ofBinary op) d l l') (F := (Op.ofBinary op).word)
      (fun _ => rfl) fun w m d => Op.effect_op hop w m d ..⟩
    have hstr : (r.typeAt x.node == .string && r.typeAt y.node == .string) = false := by
      simpa using hs
    unfold Expr.eval
    rw [Surroundings.noDouble_of_ne hd, hstr]
    refine bind_run (needed_run e) (bind_run (needed_run e') ?_)
    rw [binaryOp_false]
    rfl
  | .assign n (.name k i) v, s, h => by
    obtain ⟨hd, hi, hv⟩ := h
    obtain ⟨o, m, ho, ht⟩ := hi.target
    obtain ⟨l, code, s', e, hr⟩ := eval_realizes v s hv
    refine ⟨_, _, _, ?_, hr.assign (n := m) (fun _ hp => hp.1) fun p hp => ho p hp.2⟩
    unfold Expr.eval
    rw [Surroundings.noDouble_of_ne hd]
    refine bind_run (c := []) (x := Target.word (.frame o m)) (t := s) ?_
      (bind_run (needed_run e) rfl)
    unfold Expr.target
    exact ht s
  | .step n op (.name k i), s, h => by
    obtain ⟨hd, hi⟩ := h
    obtain ⟨o, m, ho, ht⟩ := hi.target
    refine ⟨_, _, _, ?_, step_realizes (n := m) op (fun _ hp => hp.1) fun p hp => ho p hp.2⟩
    unfold Expr.eval
    rw [Surroundings.noDouble_of_ne hd]
    refine bind_run (c := []) (x := Target.word (.frame o m)) (t := s) ?_
      (some_run (stepTarget_run op (.frame o m) s))
    unfold Expr.target
    exact ht s

end DecafLang
