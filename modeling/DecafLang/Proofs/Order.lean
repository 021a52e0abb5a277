import DecafLang.Proofs.Values

/-!
# The order of evaluation

How the code of an arithmetic expression with assignments and steps inside compares with
evaluation from left to right.

An operand that is a bare variable is not copied: the operator reads its slot after the code of
the other operand has run. So `x + (x = 5)` adds 5 to 5.

* `Expr.Delivers`: the code of an expression leaves a value and the variables like this.
* `Expr.delivers_outcome`: what it leaves in every case is what `Expr.outcome` says.
* **`Expr.delivers_inOrder_iff`: everything that is evaluated is worth what evaluation from left
  to right gives exactly if it is `Undisturbed`:** no operator finds another word in the variable
  to its left than was there, and gives another result for it.
-/

namespace DecafLang

open Code (Config Location Op Steps Store Supply World)
open Lowering

namespace Expr

/-! ## 1. Arithmetic expressions -/

/-- A name of an int variable that lies in the frame. -/
def IntName (r : Surroundings) (n : Node) (i : Ident) : Prop :=
  r.typeAt n = .int ∧ r.Sees i

/-- An int expression over int constants and int variables of the frame. -/
def Arithmetic (r : Surroundings) : Expr → Prop
  | .int n _ => r.typeAt n = .int
  | .name n i => IntName r n i
  | .unary n .neg x => r.typeAt n = .int ∧ x.Arithmetic r
  | .binary n op x y => r.typeAt n = .int ∧ op ∈ [BinaryOp.add, .sub, .mul] ∧ x.Arithmetic r ∧
      y.Arithmetic r
  | .assign n (.name k i) v => r.typeAt n = .int ∧ IntName r k i ∧ v.Arithmetic r
  | .step n _ (.name k i) => r.typeAt n = .int ∧ IntName r k i
  | _ => False

theorem Arithmetic.type {r : Surroundings} {e : Expr} (h : e.Arithmetic r) :
    r.typeAt e.node = .int := by
  unfold Arithmetic at h
  split at h
  · exact h
  · exact h.1
  · exact h.1
  · exact h.1
  · exact h.1
  · exact h.1
  · exact h.elim

theorem Arithmetic.plain {r : Surroundings} : ∀ {e : Expr}, e.Arithmetic r → e.Plain r
  | .int n _, h => ne_of_eq_of_ne h nofun
  | .name n i, ⟨ht, hi⟩ => ⟨ne_of_eq_of_ne ht nofun, hi⟩
  | .unary n .neg x, ⟨ht, hx⟩ => ⟨ne_of_eq_of_ne ht nofun, hx.plain⟩
  | .binary n op x y, ⟨ht, ho, hx, hy⟩ => by
    refine ⟨ne_of_eq_of_ne ht nofun, ?_, ?_, hx.plain, hy.plain⟩
    · simp only [List.mem_cons, List.not_mem_nil, or_false] at ho
      rcases ho with rfl | rfl | rfl <;> rfl
    · rw [hx.type]
      exact fun e => nomatch e.1
  | .assign n (.name k i) v, ⟨ht, hi, hv⟩ => ⟨ne_of_eq_of_ne ht nofun, hi.2, hv.plain⟩
  | .step n _ (.name k i), ⟨ht, hi⟩ => ⟨ne_of_eq_of_ne ht nofun, hi.2⟩

/-! ## 2. Disturbance -/

/-- The variable in whose slot the value of an expression is left. -/
def heldIn? (a : Notes) : Expr → Option NodeId
  | .name _ i => some (a.varId i)
  | .assign _ (.name _ _) v => v.heldIn? a
  | _ => none

/-- What is evaluated on the way, each with the variables as they are then. -/
def evaluations (a : Notes) : Expr → Valuation → List (Expr × Valuation)
  | .unary n op x, σ => (.unary n op x, σ) :: x.evaluations a σ
  | .binary n op x y, σ =>
    (.binary n op x y, σ) :: (x.evaluations a σ ++ y.evaluations a (x.inOrder a σ).2)
  | .assign n t v, σ => (.assign n t v, σ) :: v.evaluations a σ
  | e, σ => [(e, σ)]

/-- No operator gives another word because the variable to its left has changed meanwhile. -/
def Undisturbed (a : Notes) : Expr → Valuation → Prop
  | .unary _ _ x, σ => x.Undisturbed a σ
  | .binary _ op x y, σ =>
    let u := x.inOrder a σ
    let v := y.inOrder a u.2
    x.Undisturbed a σ ∧ y.Undisturbed a u.2 ∧
      ∀ k, x.heldIn? a = some k → op.word (v.2 k) v.1 = op.word u.1 v.1
  | .assign _ _ v, σ => v.Undisturbed a σ
  | _, _ => True

variable {r : Surroundings} {a : Notes}

theorem mem_evaluations (e : Expr) (σ : Valuation) : (e, σ) ∈ e.evaluations a σ := by
  cases e <;> simp [evaluations]

/-- A value is left in the slot of a variable, or else in a word of its own. -/
theorem heldIn?_cases (e : Expr) (σ : Valuation) :
    (∃ k, e.heldIn? a = some k ∧ (e.inPlace a σ).1 = .slot k) ∨
      (e.heldIn? a = none ∧ ∃ w, (e.inPlace a σ).1 = .word w) := by
  fun_induction Expr.inPlace a e σ with
  | case3 n i σ => exact .inl ⟨_, rfl, rfl⟩
  | case6 n m i v σ x ih => exact ih
  | case8 e σ h₁ h₂ h₃ h₄ h₅ h₆ h₇ =>
    refine .inr ⟨?_, _, rfl⟩
    unfold heldIn?
    split
    · exact absurd rfl (h₃ _ _)
    · exact absurd rfl (h₆ _ _ _ _)
    · rfl
  | _ => exact .inr ⟨rfl, _, rfl⟩

/-- The value of an assignment is the word that was assigned, wherever it is left. -/
theorem value_update (h : Held) (k : NodeId) (σ : Valuation) :
    h.value (Function.update σ k (h.value σ)) = h.value σ := by
  cases h with
  | word w => rfl
  | slot v =>
    show Function.update σ k (σ v) v = σ v
    by_cases e : v = k
    · subst e
      rw [Function.update_self]
    · rw [Function.update_of_ne e]

theorem word_ofBinary {op : BinaryOp} (h : op ∈ [BinaryOp.add, .sub, .mul]) :
    (Op.ofBinary op).word = op.word := by
  simp only [List.mem_cons, List.not_mem_nil, or_false] at h
  rcases h with rfl | rfl | rfl <;> rfl

/-- The value and the variables that the code of an expression leaves, when nothing runs after
it. -/
def outcome (a : Notes) (e : Expr) (σ : Valuation) : Int32 × Valuation :=
  ((e.inPlace a σ).1.value (e.inPlace a σ).2, (e.inPlace a σ).2)

/-- An operator works on the word that it finds for its left operand after the right one. -/
theorem outcome_binary {n : Node} {op : BinaryOp} {x y : Expr} {σ : Valuation}
    (ho : op ∈ [BinaryOp.add, .sub, .mul]) (hx : x.outcome a σ = x.inOrder a σ)
    (hy : y.outcome a (x.inOrder a σ).2 = y.inOrder a (x.inOrder a σ).2) :
    (Expr.binary n op x y).outcome a σ =
      (op.word (((x.heldIn? a).map (y.inOrder a (x.inOrder a σ).2).2).getD (x.inOrder a σ).1)
        (y.inOrder a (x.inOrder a σ).2).1, (y.inOrder a (x.inOrder a σ).2).2) := by
  obtain ⟨hx₁, hx₂⟩ := Prod.ext_iff.mp hx
  obtain ⟨hy₁, hy₂⟩ := Prod.ext_iff.mp hy
  simp only [outcome] at hx₁ hx₂ hy₁ hy₂
  rw [hx₂] at hx₁
  rw [hy₂] at hy₁
  simp only [outcome, inPlace, Held.value_word, word_ofBinary ho, hx₂, hy₂, hy₁]
  rcases x.heldIn?_cases (a := a) σ with ⟨k, hk, e⟩ | ⟨hk, w, e⟩
  · rw [hk, e]
    rfl
  · rw [e] at hx₁
    rw [hk, e, ← hx₁]
    rfl

/-- **Where nothing is disturbed, the code computes what evaluation from left to right gives.** -/
theorem outcome_eq_inOrder : ∀ {e : Expr} {σ : Valuation}, e.Arithmetic r → e.Undisturbed a σ →
    e.outcome a σ = e.inOrder a σ
  | .int _ _, _, _, _ => rfl
  | .name _ _, _, _, _ => rfl
  | .unary _ .neg x, σ, ⟨_, hx⟩, hu => by
    have ih := outcome_eq_inOrder hx hu
    obtain ⟨h₁, h₂⟩ := Prod.ext_iff.mp ih
    simp only [outcome] at h₁ h₂
    rw [h₂] at h₁
    simp only [outcome, inPlace, inOrder, Held.value_word, h₁, h₂, UnaryOp.word, UnaryOp.op,
      Op.word, Int32.zero_sub]
  | .binary _ op x y, σ, ⟨_, ho, hx, hy⟩, ⟨hux, huy, hk⟩ => by
    rw [outcome_binary ho (outcome_eq_inOrder hx hux) (outcome_eq_inOrder hy huy)]
    show _ = (op.word _ _, _)
    cases h : x.heldIn? a with
    | none => rfl
    | some k => exact Prod.ext (hk k h) rfl
  | .assign _ (.name _ i) v, σ, ⟨_, _, hv⟩, hu => by
    have ih := outcome_eq_inOrder hv hu
    obtain ⟨h₁, h₂⟩ := Prod.ext_iff.mp ih
    simp only [outcome] at h₁ h₂
    rw [h₂] at h₁
    have hv := value_update (v.inPlace a σ).1 (a.varId i) (v.inOrder a σ).2
    rw [h₁] at hv
    simp only [outcome, inPlace, inOrder, h₁, h₂, hv]
  | .step _ op (.name _ i), σ, _, _ => by
    cases op <;> rfl

/-- What is evaluated on the way to an arithmetic expression is arithmetic, and undisturbed if that
is. -/
theorem Arithmetic.of_mem : ∀ {e : Expr} {σ : Valuation} {x : Expr × Valuation}, e.Arithmetic r →
    x ∈ e.evaluations a σ → x.1.Arithmetic r ∧ (e.Undisturbed a σ → x.1.Undisturbed a x.2)
  | .int _ _, _, _, h, hm => by
    obtain rfl := List.mem_singleton.mp hm
    exact ⟨h, fun hu => hu⟩
  | .name _ _, _, _, h, hm => by
    obtain rfl := List.mem_singleton.mp hm
    exact ⟨h, fun hu => hu⟩
  | .step _ _ (.name _ _), _, _, h, hm => by
    obtain rfl := List.mem_singleton.mp hm
    exact ⟨h, fun hu => hu⟩
  | .unary _ .neg x, σ, _, h, hm => by
    rcases List.mem_cons.mp hm with rfl | hm
    · exact ⟨h, fun hu => hu⟩
    · exact h.2.of_mem hm
  | .assign _ (.name _ _) v, σ, _, h, hm => by
    rcases List.mem_cons.mp hm with rfl | hm
    · exact ⟨h, fun hu => hu⟩
    · exact h.2.2.of_mem hm
  | .binary _ _ x y, σ, _, h, hm => by
    rcases List.mem_cons.mp hm with rfl | hm
    · exact ⟨h, fun hu => hu⟩
    · rcases List.mem_append.mp hm with hm | hm
      · exact (h.2.2.1.of_mem hm).imp_right fun hi hu => hi hu.1
      · exact (h.2.2.2.of_mem hm).imp_right fun hi hu => hi hu.2.1

/-- **If all that is evaluated comes out as from left to right, nothing is disturbed.** -/
theorem undisturbed_of_outcomes : ∀ {e : Expr} {σ : Valuation}, e.Arithmetic r →
    (∀ x ∈ e.evaluations a σ, (x.1.outcome a x.2).1 = (x.1.inOrder a x.2).1) → e.Undisturbed a σ
  | .int _ _, _, _, _ => trivial
  | .name _ _, _, _, _ => trivial
  | .step _ _ (.name _ _), _, _, _ => trivial
  | .unary _ .neg x, σ, h, hm =>
    undisturbed_of_outcomes (e := x) h.2 fun y hy => hm y (List.mem_cons_of_mem _ hy)
  | .assign _ (.name _ _) v, σ, h, hm =>
    undisturbed_of_outcomes (e := v) h.2.2 fun y hy => hm y (List.mem_cons_of_mem _ hy)
  | .binary n op x y, σ, h, hm => by
    have hux : x.Undisturbed a σ := undisturbed_of_outcomes h.2.2.1 fun z hz =>
      hm z (List.mem_cons_of_mem _ (List.mem_append_left _ hz))
    have huy : y.Undisturbed a (x.inOrder a σ).2 := undisturbed_of_outcomes h.2.2.2 fun z hz =>
      hm z (List.mem_cons_of_mem _ (List.mem_append_right _ hz))
    have he := hm _ (mem_evaluations (.binary n op x y) σ)
    rw [outcome_binary h.2.1 (outcome_eq_inOrder h.2.2.1 hux)
      (outcome_eq_inOrder h.2.2.2 huy)] at he
    refine ⟨hux, huy, fun k hk => ?_⟩
    rw [hk] at he
    exact he

/-! ## 3. What the code delivers -/

/-- From any supply that goes with the slots, the code of an expression exists and runs from a
store with the variables like `σ` to one with the variables like `σ'`, where its location holds the
word. -/
def Delivers (r : Surroundings) (e : Expr) (σ : Valuation) (x : Int32) (σ' : Valuation) : Prop :=
  ∀ s, r.Fits s → ∃ l code s', e.value r s = .ok ⟨l, code, s'⟩ ∧
    ∀ w m, r.placing.Holds σ m →
      ∃ n m', Steps w code n ⟨0, m⟩ ⟨code.length, m'⟩ ∧ m'.read l = x ∧ r.placing.Holds σ' m'

variable {e : Expr} {σ : Valuation} {s : Supply}

theorem delivers_outcome (h : e.Arithmetic r) (σ : Valuation) :
    e.Delivers r σ (e.outcome r.notes σ).1 (e.outcome r.notes σ).2 := by
  intro s hs
  obtain ⟨l, code, s', he, hr⟩ := eval_realizes e s h.plain
  refine ⟨l, code, s', needed_run he, fun w m hm => ?_⟩
  obtain ⟨m', hrun, hm', -, hl⟩ := hr.runs r.placing ⟨hs.apart, r.placing_covers⟩ w σ m hm
    fun v k hk _ => hs.locals v k hk
  have ho : Code.Occurs code 0 code := fun i _ => by rw [Nat.zero_add]
  have hsteps := Steps.of_effectAll ho hrun
  rw [Nat.zero_add] at hsteps
  exact ⟨_, m', hsteps, hl.read hm', hm'⟩

/-- Some store holds the variables, as no two of them lie at one place. -/
theorem exists_holds {p : Placing} (ha : p.Apart) (σ : Valuation) : ∃ m, p.Holds σ m := by
  classical
  let word (o : Int) : Int32 := if h : ∃ v, p v = some o then σ h.choose else 0
  refine ⟨⟨word, fun _ => 0, fun _ => 0, []⟩, fun v o hv => ?_⟩
  have h : ∃ u, p u = some o := ⟨v, hv⟩
  have e : word o = σ h.choose := dif_pos h
  rw [ha v h.choose o hv h.choose_spec]
  exact e

/-- What the code delivers is determined, so it is what `outcome` says. -/
theorem Delivers.value_eq {x : Int32} {σ' : Valuation} (hs : r.Fits s) (h : e.Arithmetic r)
    (hd : e.Delivers r σ x σ') : x = (e.outcome r.notes σ).1 := by
  obtain ⟨m, hm⟩ := exists_holds hs.apart σ
  let w : World := ⟨fun _ => 0, fun _ => 0, fun _ _ => none, fun _ _ => none⟩
  obtain ⟨l, code, s', he, hrun⟩ := hd s hs
  obtain ⟨l', code', s'', he', hrun'⟩ := delivers_outcome h σ s hs
  rw [he] at he'
  cases he'
  obtain ⟨n, m₁, hn, hx, -⟩ := hrun w m hm
  obtain ⟨n', m₂, hn', hx', -⟩ := hrun' w m hm
  have e := hn.eq_of_stuck hn' (Code.step_end m₁) (Code.step_end m₂)
  cases e
  rw [← hx, hx']

/-- **The code of an expression delivers what `outcome` says. It and all that is evaluated on the
way to it deliver what evaluation from left to right gives exactly if nothing is disturbed.** -/
theorem delivers_inOrder_iff (hs : r.Fits s) (h : e.Arithmetic r) (σ : Valuation) :
    e.Delivers r σ (e.outcome r.notes σ).1 (e.outcome r.notes σ).2 ∧
      ((∀ x ∈ e.evaluations r.notes σ,
          x.1.Delivers r x.2 (x.1.inOrder r.notes x.2).1 (x.1.inOrder r.notes x.2).2) ↔
        e.Undisturbed r.notes σ) := by
  refine ⟨delivers_outcome h σ, fun hd => ?_, fun hu x hx => ?_⟩
  · refine undisturbed_of_outcomes h fun x hx => ?_
    exact ((hd x hx).value_eq hs (h.of_mem hx).1).symm
  · obtain ⟨hx', hu'⟩ := h.of_mem hx
    rw [← outcome_eq_inOrder hx' (hu' hu)]
    exact delivers_outcome hx' x.2

/-! ## 4. A variable that is counted up meanwhile -/

/-- The surroundings of a body with one int variable `x`, and the uses 2 and 3 of its name. -/
def oneVariable : Surroundings where
  notes :=
    { bindings := (Table.empty.insert 2 (.var theVariable)).insert 3 (.var theVariable)
      types := (((Table.empty.insert 4 .int).insert 5 .int).insert 6 .int).insert 7 .int }
  layout := .empty
  slots := [(1, .frame (Supply.localOffset 0) "x")]
  this := none
  breakTo := none
where
  theVariable : VarDecl := ⟨⟨1, .nowhere⟩, ⟨"x", ⟨0, .nowhere⟩⟩, .prim 0 .int⟩

/-- `x + x++` -/
def countedUp : Expr :=
  .binary ⟨7, .nowhere⟩ .add (.name ⟨4, .nowhere⟩ ⟨"x", ⟨2, .nowhere⟩⟩)
    (.step ⟨6, .nowhere⟩ .increment (.name ⟨5, .nowhere⟩ ⟨"x", ⟨3, .nowhere⟩⟩))

theorem oneVariable_fits : oneVariable.Fits ⟨1, 0, 0, 0⟩ :=
  (Surroundings.fits_of_none (r := { oneVariable with slots := [] }) (fun _ => rfl)
    ⟨0, 0, 0, 0⟩).withLocal 1 "x"

theorem countedUp_arithmetic : countedUp.Arithmetic oneVariable := by
  have hx : oneVariable.Sees ⟨"x", ⟨2, .nowhere⟩⟩ := ⟨_, _, _, rfl, rfl⟩
  have hy : oneVariable.Sees ⟨"x", ⟨3, .nowhere⟩⟩ := ⟨_, _, _, rfl, rfl⟩
  exact ⟨rfl, by decide, ⟨rfl, hx⟩, rfl, rfl, hy⟩

/-- The operator finds 2 in `x`, where it was 1 when it was evaluated. -/
theorem delivers_inOrder_iff_countedUp :
    oneVariable.Fits ⟨1, 0, 0, 0⟩ ∧ countedUp.Arithmetic oneVariable ∧
      countedUp.Delivers oneVariable (fun _ => 1) 3 (Function.update (fun _ => 1) 1 2) ∧
      ¬ ∀ x ∈ countedUp.evaluations oneVariable.notes fun _ => 1,
          x.1.Delivers oneVariable x.2 (x.1.inOrder oneVariable.notes x.2).1
            (x.1.inOrder oneVariable.notes x.2).2 := by
  obtain ⟨hd, hi⟩ := delivers_inOrder_iff oneVariable_fits countedUp_arithmetic fun _ => 1
  refine ⟨oneVariable_fits, countedUp_arithmetic, hd, fun h => ?_⟩
  exact absurd ((hi.mp h).2.2 1 rfl) (by decide)

/-- From left to right, `x + x++` is 2 where `x` is 1; the code does not deliver that. -/
theorem not_delivers_countedUp :
    (countedUp.inOrder oneVariable.notes fun _ => 1).1 = 2 ∧
      ¬ ∃ σ', countedUp.Delivers oneVariable (fun _ => 1) 2 σ' := by
  refine ⟨by decide, fun ⟨σ', h⟩ => ?_⟩
  have e := h.value_eq oneVariable_fits countedUp_arithmetic
  exact absurd e (by decide)

end Expr

end DecafLang
