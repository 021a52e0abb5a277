import DecafLang.Syntax.Handwritten
import DecafLang.Proofs.TypeReports
import DecafLang.Proofs.Typing

/-!
# One mistake, one report

A part of an expression in which there is a mistake has the type `Ty.error`, and no rule complains
about it a second time.

* A type that is found is in error as a whole or nowhere (`Ty.Shallow`, `Expr.type_shallow`): the
  elements of an array have a type whenever the array has one.
* Each rule says on whose account it reports a fault (`Subject.accused`). The lemmas of section 3
  go through the rules one by one, whatever lets each of them pass over an error: a test of its
  own, the order of its cases, or that an error is accepted everywhere.
* **No report on types speaks of `Ty.error`, and none is made on account of an operand whose
  recorded type is `Ty.error`** (`Program.Numbered.no_cascades`), in whatever state of the scopes
  and the notes the types are looked at.
-/

namespace DecafLang

/-! ## 1. Faults and what they are about -/

namespace Fault

/-- The types that a fault speaks of. -/
def types : Fault → List Ty
  | badOperand _ t => [t]
  | badOperands _ l r => [l, r]
  | badArg _ g e => [g, e]
  | badPrintArg _ g => [g]
  | noSuchField _ b => [b]
  | hiddenField _ b => [b]
  | badReturn g e => [g, e]
  | _ => []

/-- Whether a fault is found with the type of an operand, an argument, a value, a test, a subscript,
a size or a base. -/
def accuses : Fault → Bool
  | badOperand _ _ | badOperands _ _ _ | badArg _ _ _ | badPrintArg _ _ | badReturn _ _ => true
  | testNotBool | subscriptNotInt | arraySizeNotInt | indexOfNonArray => true
  | noSuchField _ _ | hiddenField _ _ => true
  | _ => false

end Fault

/-- The expressions on whose account an expression is at fault: the argument that a fault counts,
the subscript or the base that it names, or else all operands. -/
def Expr.accused (f : Fault) : Expr → List Expr
  | .index _ b s =>
    match f with
    | .subscriptNotInt => [s]
    | _ => [b]
  | .call _ _ args =>
    match f with
    | .badArg k _ _ => args[k - 1]?.toList
    | _ => []
  | .send _ b _ args =>
    match f with
    | .badArg k _ _ => args[k - 1]?.toList
    | .wrongArgCount _ _ _ => []
    | _ => [b]
  | e => e.operands

/-- The expressions on whose account a fault is reported. -/
def Subject.accused (f : Fault) : Subject → List Expr
  | expr e => e.accused f
  | s => s.operands

theorem Subject.accused_expr (f : Fault) (e : Expr) : (expr e).accused f = e.accused f := rfl

/-- Only operands are accused. -/
theorem Subject.accused_subset (f : Fault) (s : Subject) : s.accused f ⊆ s.operands := by
  cases s with
  | expr e =>
    intro x hx
    -- the argument that a fault counts to is one of them
    have hnth : ∀ (args : List Expr) (k : Nat), x ∈ args[k]?.toList → x ∈ args := fun args k h =>
      List.mem_of_getElem? (Option.mem_toList.mp h)
    cases e with
    | index n b s => cases f <;> simp_all [accused, Expr.accused, operands, Expr.operands]
    | call n i args =>
      cases f with
      | badArg k g u => exact hnth args _ hx
      | _ => cases hx
    | send n b i args =>
      cases f with
      | badArg k g u => exact List.mem_cons_of_mem _ (hnth args _ hx)
      | wrongArgCount _ _ _ => cases hx
      | _ =>
        obtain rfl := List.mem_singleton.mp hx
        exact List.mem_cons_self
    | _ => exact hx
  | _ => exact fun _ hx => hx

/-! ## 2. Types that are found -/

/-- A type is in error as a whole or nowhere. -/
def Ty.Shallow (t : Ty) : Prop := t = .error ∨ t.Proper

namespace Ty.Shallow

variable {t : Ty}

/-- A type that is found and known is known to its elements. -/
theorem proper (h : t.Shallow) (hn : t ≠ .error) : t.Proper := h.resolve_left hn

theorem error : Ty.error.Shallow := .inl rfl

/-- The elements of an array have a type, since the array has one. -/
theorem elem (h : (Ty.array t).Shallow) : t.Shallow := .inr (h.proper nofun)

end Ty.Shallow

/-- A written type denotes an error as a whole or a type without one. -/
theorem Notes.denote_shallow (a : Notes) : ∀ t : TypeExpr, (a.denote t).Shallow
  | .prim _ p => .inr (by cases p <;> trivial)
  | .named _ i => by
    unfold denote
    split
    · split
      · exact .inr trivial
      · exact .error
    · exact .error
  | .array _ t => by
    have ih := a.denote_shallow t
    unfold denote
    split
    · exact .error
    · rename_i hn
      exact .inr (ih.proper hn)

namespace Context

variable {c : Context} {s : Span} {i : Ident} {t u : Ty} {as : List (Span × Ty)}

/-- An operator gives a type of its own, or that of an operand. -/
theorem binary_shallow (ht : t.Shallow) (op : BinaryOp) : (c.binaryRule s op t u).type.Shallow := by
  unfold binaryRule
  cases op.opClass with
  | arithmetic =>
    show (if t.numeric u then t else .error).Shallow
    split
    · exact ht
    · exact .error
  | _ => exact .inr trivial

/-- So does one with one operand. -/
theorem unary_shallow (ht : t.Shallow) (op : UnaryOp) : (unaryRule s op t).type.Shallow := by
  cases op with
  | neg =>
    show (if t == .int || t == .double then t else .error).Shallow
    split
    · exact ht
    · exact .error
  | not => exact .inr trivial

/-- A step gives a number or nothing. -/
theorem step_shallow (op : StepOp) : (stepRule s op t).type.Shallow := by
  cases t with
  | int => exact .inr trivial
  | _ => exact .error

/-- An element has the type that the array says. -/
theorem index_shallow (ht : t.Shallow) (s' : Span) : (indexRule s s' t u).type.Shallow := by
  cases t with
  | array t => exact ht.elem
  | _ => exact .error

/-- There is no array of unknown elements. -/
theorem newArray_shallow (e : TypeExpr) : (c.newArrayRule s t e).type.Shallow := by
  have he := c.notes.denote_shallow e
  unfold newArrayRule
  dsimp only
  split
  · exact .error
  · rename_i hn
    exact .inr (he.proper hn)

theorem this_shallow : (c.thisRule s).type.Shallow := by
  unfold thisRule
  split
  · exact .inr trivial
  · exact .error

theorem new_shallow : (c.newRule i).type.Shallow := by
  unfold newRule
  split
  · exact .inr trivial
  · exact .error

/-- A name has the type that it is declared with, or none. -/
theorem name_shallow : (c.nameRule i).type.Shallow := by
  unfold nameRule
  split
  · exact c.notes.denote_shallow _
  · exact .error
  · exact .error

/-- A field has the type that it is declared with, or none. -/
theorem field_shallow : (c.fieldRule t i).type.Shallow := by
  -- every way through the rule ends in the declared type or in none
  unfold fieldRule
  split
  · exact .error
  · split
    · split
      · exact .error
      · dsimp only
        split
        · split
          · exact c.notes.denote_shallow _
          · exact .error
        · exact .error
    · exact .error
  · exact .error

/-- A call has the result type of the function, or none. -/
theorem call_shallow : (c.callRule i as).type.Shallow := by
  unfold callRule
  split
  · exact c.notes.denote_shallow _
  · exact .error

theorem method_shallow : (c.methodRule t i as).type.Shallow := by
  unfold methodRule
  split
  · exact c.notes.denote_shallow _
  · exact .error

/-- A call of a method has its result type, or none; a length is a number. -/
theorem send_shallow : (c.sendRule t i as).type.Shallow := by
  unfold sendRule
  split
  · exact .error
  · split
    · exact .inr trivial
    · exact method_shallow
  · exact method_shallow

end Context

/-- **A type that is found is in error as a whole or nowhere.** -/
theorem Expr.type_shallow (c : Context) (e : Expr) : (e.check c).type.Shallow := by
  refine Expr.by_operands (P := fun e => (e.check c).type.Shallow) (fun e ih => ?_) e
  rw [e.type_eq]
  cases e with
  | int _ _ | double _ | bool _ _ | string _ _ | null _ | readInteger _ | readLine _ =>
    exact .inr trivial
  | this _ => exact Context.this_shallow
  | binary _ op l r => exact Context.binary_shallow (ih l List.mem_cons_self) op
  | unary _ op x => exact Context.unary_shallow (ih x List.mem_cons_self) op
  | step _ op x => exact Context.step_shallow op
  | assign _ t v => exact ih t List.mem_cons_self
  | index _ b s => exact Context.index_shallow (ih b List.mem_cons_self) _
  | name _ i => exact Context.name_shallow
  | field _ b i => exact Context.field_shallow
  | call _ i args => exact Context.call_shallow
  | send _ b i args => exact Context.send_shallow
  | new _ i => exact Context.new_shallow
  | newArray _ s t => exact Context.newArray_shallow t

/-! ## 3. Rules that are broken -/

/-- What is unknown takes anything. -/
theorem Hierarchy.error_accepts (h : Hierarchy) (t : Ty) : h.accepts .error t = true := by
  cases t <;> rfl

/-- Anything takes what is unknown. -/
theorem Hierarchy.accepts_error (h : Hierarchy) (t : Ty) : h.accepts t .error = true := by
  cases t <;> rfl

/-- What is accepted nowhere is no error. -/
theorem Hierarchy.ne_error_of_not_accepts {h : Hierarchy} {t u : Ty} (hn : h.accepts t u = false) :
    t ≠ .error ∧ u ≠ .error :=
  ⟨fun e => Bool.noConfusion (hn.symm.trans (e ▸ h.error_accepts u)),
    fun e => Bool.noConfusion (hn.symm.trans (e ▸ h.accepts_error t))⟩

theorem Ty.ne_error_of_isError {t : Ty} (h : t.isError = false) : t ≠ .error := by
  intro e
  rw [e] at h
  cases h

/-- A verdict that depends on a condition has one fault, where the condition fails. -/
theorem Verdict.mem_given {t : Ty} {b : Bool} {s : Span} {f : Fault} {d : Diagnostic}
    (h : d ∈ (Verdict.given t b s f).faults) : b = false ∧ d = .located s f := by
  cases b with
  | true => cases h
  | false => exact ⟨rfl, List.mem_singleton.mp h⟩

namespace Context

variable {c : Context} {s : Span} {i : Ident} {t u : Ty} {as : List (Span × Ty)} {d : Diagnostic}

/-- **An operator complains only about operands whose types are known,** and names both. -/
theorem binary_breaks {op : BinaryOp} (hd : d ∈ (c.binaryRule s op t u).faults) :
    (t ≠ .error ∧ u ≠ .error) ∧ d = .located s (.badOperands op.symbol t u) := by
  -- each class of operators passes over an operand that is in error
  have hknown : ∀ {b : Bool}, (b || (t.isError || u.isError)) = false → t ≠ .error ∧ u ≠ .error :=
    fun h => by
      simp only [Bool.or_eq_false_iff] at h
      exact ⟨Ty.ne_error_of_isError h.2.1, Ty.ne_error_of_isError h.2.2⟩
  unfold binaryRule at hd
  cases ho : op.opClass with
  | equality =>
    rw [ho] at hd
    obtain ⟨hb, hd⟩ := Verdict.mem_given hd
    exact ⟨Hierarchy.ne_error_of_not_accepts (Bool.or_eq_false_iff.mp hb).1, hd⟩
  | _ =>
    rw [ho] at hd
    obtain ⟨hb, hd⟩ := Verdict.mem_given hd
    exact ⟨hknown hb, hd⟩

/-- The same for one operand. -/
theorem unary_breaks {op : UnaryOp} (hd : d ∈ (unaryRule s op t).faults) :
    t ≠ .error ∧ d = .located s (.badOperand op.symbol t) := by
  cases op with
  | neg | not =>
    obtain ⟨hb, hd⟩ := Verdict.mem_given hd
    exact ⟨Ty.ne_error_of_isError (Bool.or_eq_false_iff.mp hb).2, hd⟩

/-- The same for a step. -/
theorem step_breaks {op : StepOp} (hd : d ∈ (stepRule s op t).faults) :
    t ≠ .error ∧ d = .located s (.badOperand op.symbol t) := by
  cases t with
  | int | error => cases hd
  | _ => exact ⟨nofun, List.mem_singleton.mp hd⟩

/-- **An assignment complains only if both sides are known.** -/
theorem assign_breaks (hd : d ∈ (c.assignRule s t u).faults) :
    (t ≠ .error ∧ u ≠ .error) ∧ d = .located s (.badOperands "=" t u) := by
  obtain ⟨hb, hd⟩ := Verdict.mem_given hd
  exact ⟨Hierarchy.ne_error_of_not_accepts hb, hd⟩

/-- A number is asked for only where the type is known. -/
theorem int_breaks {f : Fault} (hd : d ∈ intFaults s f t) : t ≠ .error ∧ d = .located s f := by
  unfold intFaults at hd
  split at hd
  · cases hd
  · rename_i hb
    rw [Bool.not_eq_true, Bool.or_eq_false_iff] at hb
    exact ⟨Ty.ne_error_of_isError hb.2, List.mem_singleton.mp hd⟩

/-- **A look into an array complains about the index or about the array,** whichever is known. -/
theorem index_breaks {s' : Span} (hd : d ∈ (indexRule s s' t u).faults) :
    (u ≠ .error ∧ d = .located s' .subscriptNotInt) ∨
      (t ≠ .error ∧ d = .located s .indexOfNonArray) := by
  have hother : d ∈ intFaults s' .subscriptNotInt u ++ [.located s .indexOfNonArray] →
      t ≠ .error → (u ≠ .error ∧ d = .located s' .subscriptNotInt) ∨
        (t ≠ .error ∧ d = .located s .indexOfNonArray) := fun h ht =>
    (List.mem_append.mp h).imp int_breaks fun h => ⟨ht, List.mem_singleton.mp h⟩
  cases t with
  | array _ | error => exact .inl (int_breaks hd)
  | _ => exact hother hd nofun

/-- **What is wrong with a field is said of the base or of the class around,** and the base has
a type. -/
theorem field_breaks (hd : d ∈ (c.fieldRule t i).faults) : t ≠ .error ∧
    ∃ u, (u = t ∨ ∃ n, u = .named n) ∧ (d = .located i.span (.noSuchField i.name u) ∨
      d = .located i.span (.hiddenField i.name u)) := by
  unfold fieldRule at hd
  -- a base of an unknown type is passed over; every other case names the base or the class around
  split at hd
  · cases hd
  · refine ⟨nofun, ?_⟩
    split at hd
    · split at hd
      · exact ⟨_, .inl rfl, .inr (List.mem_singleton.mp hd)⟩
      · dsimp only at hd
        split at hd
        · split at hd
          · cases hd
          · exact ⟨_, .inl rfl, .inr (List.mem_singleton.mp hd)⟩
        · exact ⟨_, .inr ⟨_, rfl⟩, .inl (List.mem_singleton.mp hd)⟩
    · exact ⟨_, .inl rfl, .inl (List.mem_singleton.mp hd)⟩
  · rename_i hn _
    exact ⟨hn, _, .inl rfl, .inl (List.mem_singleton.mp hd)⟩

/-- A fault with an argument has its number, and names its type and that of a formal. -/
theorem arg_breaks {vs : List VarDecl} {k : Nat} (hd : d ∈ c.argFaults k vs as) :
    ∃ j v s' g, as[j]? = some (s', g) ∧ (c.notes.denote v ≠ .error ∧ g ≠ .error) ∧
      d = .located s' (.badArg (k + j) g (c.notes.denote v)) := by
  induction vs generalizing k as with
  | nil => cases hd
  | cons v vs ih =>
    cases as with
    | nil => cases hd
    | cons a as =>
      obtain ⟨s', g⟩ := a
      rw [argFaults] at hd
      rcases List.mem_append.mp hd with hd | hd
      · split at hd
        · cases hd
        · rename_i hn
          exact ⟨0, v.type, s', g, rfl, Hierarchy.ne_error_of_not_accepts (Bool.not_eq_true _ ▸ hn),
            List.mem_singleton.mp hd⟩
      · obtain ⟨j, v, s', g, ha, ht, hd⟩ := ih hd
        -- the argument is counted from the next parameter on
        exact ⟨j + 1, v, s', g, ha, ht, by rw [hd, Nat.add_right_comm, Nat.add_assoc]⟩

/-- What is wrong with a call: the number of the arguments, or one of them. -/
theorem call_breaks {g : FnDecl} (hd : d ∈ c.callFaults g i as) :
    (∃ n m, d = .located i.span (.wrongArgCount i.name n m)) ∨
      ∃ j v s' u, as[j]? = some (s', u) ∧ (c.notes.denote v ≠ .error ∧ u ≠ .error) ∧
        d = .located s' (.badArg (1 + j) u (c.notes.denote v)) := by
  unfold callFaults at hd
  split at hd
  · exact .inr (arg_breaks hd)
  · exact .inl ⟨_, _, List.mem_singleton.mp hd⟩

/-- A method that is missing is named, and a call of one that is there may break its rules. -/
theorem method_breaks (hd : d ∈ (c.methodRule t i as).faults) :
    d = .located i.span (.noSuchField i.name t) ∨ ∃ g, d ∈ c.callFaults g i as := by
  unfold methodRule at hd
  split at hd
  · exact .inr ⟨_, hd⟩
  · exact .inl (List.mem_singleton.mp hd)

/-- **A call of a method complains only if the receiver is known.** -/
theorem send_breaks (hd : d ∈ (c.sendRule t i as).faults) : t ≠ .error ∧
    (d = .located i.span (.noSuchField i.name t) ∨ (∃ g, d ∈ c.callFaults g i as) ∨
      d = .located i.span (.wrongArgCount i.name 0 as.length)) := by
  unfold sendRule at hd
  split at hd
  · cases hd
  · refine ⟨nofun, ?_⟩
    split at hd
    · exact .inr (.inr (Verdict.mem_given hd).2)
    · exact (method_breaks hd).imp_right .inl
  · rename_i hn _
    exact ⟨hn, (method_breaks hd).imp_right .inl⟩

/-- A call complains about the function that it finds, and else nothing. -/
theorem call_rule_breaks (hd : d ∈ (c.callRule i as).faults) : ∃ g, d ∈ c.callFaults g i as := by
  unfold callRule at hd
  split at hd
  · exact ⟨_, hd⟩
  · cases hd

/-- A test complains only about a known type. -/
theorem test_breaks (hd : d ∈ testFaults s t) : t ≠ .error ∧ d = .located s .testNotBool := by
  unfold testFaults at hd
  split at hd
  · cases hd
  · rename_i hb
    rw [Bool.not_eq_true, Bool.or_eq_false_iff] at hb
    exact ⟨Ty.ne_error_of_isError hb.2, List.mem_singleton.mp hd⟩

/-- So does what prints. -/
theorem print_breaks {k : Nat} (hd : d ∈ printFaults k s t) :
    t ≠ .error ∧ d = .located s (.badPrintArg k t) := by
  unfold printFaults at hd
  split at hd
  · cases hd
  · rename_i hb
    exact ⟨fun e => hb (e ▸ rfl), List.mem_singleton.mp hd⟩

/-- **A return complains only if the value and the result type are known.** -/
theorem return_breaks (hd : d ∈ c.returnFaults s t) :
    (c.result ≠ .error ∧ t ≠ .error) ∧ d = .located s (.badReturn t c.result) := by
  unfold returnFaults at hd
  split at hd
  · cases hd
  · rename_i hb
    exact ⟨Hierarchy.ne_error_of_not_accepts (Bool.not_eq_true _ ▸ hb), List.mem_singleton.mp hd⟩

end Context

/-! ## 4. Fair faults -/

/-- A fault is fair: no type that it speaks of has an error in it, those on whose account it is
reported have types, and there are such, unless a value is missing altogether. -/
structure Subject.Fair (c : Context) (s : Subject) (f : Fault) : Prop where
  types : ∀ u ∈ f.types, u.Proper
  typed : ∀ e ∈ s.accused f, (e.check c).type ≠ .error
  someone : f.accuses = true → s.accused f ≠ [] ∨ ∃ k, s = .returned k none

section

variable {c : Context} {d : Diagnostic}

/-- A fault that is no operand's, and speaks of no type. -/
theorem Subject.Fair.nobody {s : Subject} {f : Fault} (ha : s.accused f = [])
    (hf : f.accuses = false) (ht : f.types = []) : s.Fair c f where
  types := by
    rw [ht]
    exact List.forall_mem_nil _
  typed := by
    rw [ha]
    exact List.forall_mem_nil _
  someone := fun h => absurd (hf.symm.trans h) Bool.false_ne_true

/-- A fault that is found with one operand, and speaks of types without errors. -/
theorem Subject.Fair.one {s : Subject} {f : Fault} {e : Expr} (ha : s.accused f = [e])
    (he : (e.check c).type ≠ .error) (ht : ∀ u ∈ f.types, u.Proper) : s.Fair c f where
  types := ht
  typed := by
    rw [ha]
    exact List.forall_mem_singleton.mpr he
  someone := fun _ => .inl (ha ▸ List.cons_ne_nil _ _)

/-- The type of an expression is known all through, or not at all. -/
theorem Expr.proper_type {e : Expr} (he : (e.check c).type ≠ .error) : (e.check c).type.Proper :=
  (e.type_shallow c).proper he

/-- A fault that is found with two operands together, and speaks of their types. -/
theorem Subject.Fair.two {s : Subject} {f : Fault} {l r : Expr} (ha : s.accused f = [l, r])
    (hl : (l.check c).type ≠ .error) (hr : (r.check c).type ≠ .error)
    (ht : f.types = [(l.check c).type, (r.check c).type]) : s.Fair c f where
  types := by
    rw [ht]
    exact List.forall_mem_cons.mpr
      ⟨Expr.proper_type hl, List.forall_mem_singleton.mpr (Expr.proper_type hr)⟩
  typed := by
    rw [ha]
    exact List.forall_mem_cons.mpr ⟨hl, List.forall_mem_singleton.mpr hr⟩
  someone := fun _ => .inl (ha ▸ List.cons_ne_nil _ _)

/-- An argument that is at fault is fairly so. -/
theorem Subject.Fair.arg {e : Expr} {i : Ident} {g : FnDecl} {args : List Expr}
    (hk : ∀ k u v, e.accused (.badArg k u v) = args[k - 1]?.toList)
    (hn : ∀ n m, e.accused (.wrongArgCount i.name n m) = [])
    (hd : d ∈ c.callFaults g i (args.map fun x => (x.span, (x.check c).type))) :
    ∃ s f, d = .located s f ∧ (Subject.expr e).Fair c f := by
  rcases Context.call_breaks hd with ⟨n, m, rfl⟩ | ⟨j, v, s', u, ha, ⟨hv, hu⟩, rfl⟩
  · exact ⟨_, _, rfl, .nobody (hn n m) rfl rfl⟩
  · rw [List.getElem?_map] at ha
    obtain ⟨x, hx, ha⟩ := Option.map_eq_some_iff.mp ha
    obtain ⟨rfl, rfl⟩ := Prod.mk.inj ha
    refine ⟨_, _, rfl, .one (e := x) ?_ hu ?_⟩
    · rw [accused_expr, hk, Nat.add_sub_cancel_left, hx]
      rfl
    · exact List.forall_mem_cons.mpr ⟨Expr.proper_type hu,
        List.forall_mem_singleton.mpr ((c.notes.denote_shallow v).proper hv)⟩

/-- **Whatever a rule says about an expression is fair.** -/
theorem Expr.faults_fair (e : Expr) (hd : d ∈ (e.verdict c).faults) :
    ∃ s f, d = .located s f ∧ (Subject.expr e).Fair c f := by
  cases e with
  | int | double | bool | string | null | readInteger | readLine => cases hd
  | this n =>
    simp only [verdict, Context.thisRule] at hd
    split at hd
    · cases hd
    · exact ⟨_, _, List.mem_singleton.mp hd, .nobody rfl rfl rfl⟩
  | new _ i =>
    simp only [verdict, Context.newRule] at hd
    split at hd <;> cases hd
  | name _ i =>
    simp only [verdict, Context.nameRule] at hd
    split at hd
    · cases hd
    · exact ⟨_, _, List.mem_singleton.mp hd, .nobody rfl rfl rfl⟩
    · cases hd
  | binary _ op l r =>
    obtain ⟨⟨hl, hr⟩, rfl⟩ := Context.binary_breaks hd
    exact ⟨_, _, rfl, .two rfl hl hr rfl⟩
  | assign _ l r =>
    obtain ⟨⟨hl, hr⟩, rfl⟩ := Context.assign_breaks hd
    exact ⟨_, _, rfl, .two rfl hl hr rfl⟩
  | unary _ op x =>
    obtain ⟨hx, rfl⟩ := Context.unary_breaks hd
    exact ⟨_, _, rfl, .one rfl hx (List.forall_mem_singleton.mpr (proper_type hx))⟩
  | step _ op x =>
    obtain ⟨hx, rfl⟩ := Context.step_breaks hd
    exact ⟨_, _, rfl, .one rfl hx (List.forall_mem_singleton.mpr (proper_type hx))⟩
  | index _ b s =>
    -- the fault is about one operand, and only that one is accused
    rcases Context.index_breaks hd with ⟨hs, rfl⟩ | ⟨hb, rfl⟩
    · exact ⟨_, _, rfl, .one rfl hs (List.forall_mem_nil _)⟩
    · exact ⟨_, _, rfl, .one rfl hb (List.forall_mem_nil _)⟩
  | field _ b i =>
    obtain ⟨hb, u, hu, hd⟩ := Context.field_breaks hd
    have hp : u.Proper := by
      rcases hu with rfl | ⟨n, rfl⟩
      · exact proper_type hb
      · trivial
    rcases hd with rfl | rfl
    · exact ⟨_, _, rfl, .one rfl hb (List.forall_mem_singleton.mpr hp)⟩
    · exact ⟨_, _, rfl, .one rfl hb (List.forall_mem_singleton.mpr hp)⟩
  | call _ i args =>
    obtain ⟨g, hd⟩ := Context.call_rule_breaks hd
    exact Subject.Fair.arg (fun _ _ _ => rfl) (fun _ _ => rfl) hd
  | send _ b i args =>
    obtain ⟨hb, hd⟩ := Context.send_breaks hd
    rcases hd with rfl | ⟨g, hd⟩ | rfl
    · exact ⟨_, _, rfl, .one rfl hb (List.forall_mem_singleton.mpr (proper_type hb))⟩
    · exact Subject.Fair.arg (fun _ _ _ => rfl) (fun _ _ => rfl) hd
    · exact ⟨_, _, rfl, .nobody rfl rfl rfl⟩
  | newArray _ s t =>
    obtain ⟨hs, rfl⟩ := Context.int_breaks hd
    exact ⟨_, _, rfl, .one rfl hs (List.forall_mem_nil _)⟩

/-- **Whatever is said at a spot is fair,** where the function around has to give a type without
an error in it, or one that is not known. -/
theorem Spot.faults_fair (s : Spot) (hr : s.context.result.Shallow) (hd : d ∈ s.faults) :
    ∃ k f, d = .located k f ∧ s.subject.Fair s.context f := by
  obtain ⟨c, s⟩ := s
  cases s with
  | expr e => exact e.faults_fair hd
  | test e =>
    obtain ⟨he, rfl⟩ := Context.test_breaks hd
    exact ⟨_, _, rfl, .one rfl he (List.forall_mem_nil _)⟩
  | printed k e =>
    obtain ⟨he, rfl⟩ := Context.print_breaks hd
    exact ⟨_, _, rfl, .one rfl he (List.forall_mem_singleton.mpr (Expr.proper_type he))⟩
  | leave k =>
    change d ∈ c.breakFaults k at hd
    unfold Context.breakFaults at hd
    split at hd
    · cases hd
    · exact ⟨_, _, List.mem_singleton.mp hd, .nobody rfl rfl rfl⟩
  | returned k v =>
    cases v with
    | none =>
      obtain ⟨⟨hc, -⟩, rfl⟩ := Context.return_breaks hd
      -- a return without a value accuses no operand
      refine ⟨_, _, rfl, List.forall_mem_cons.mpr ⟨trivial, ?_⟩, List.forall_mem_nil _,
        fun _ => .inr ⟨k, rfl⟩⟩
      exact List.forall_mem_singleton.mpr (hr.proper hc)
    | some e =>
      obtain ⟨⟨hc, he⟩, rfl⟩ := Context.return_breaks hd
      refine ⟨_, _, rfl, .one rfl he (List.forall_mem_cons.mpr ⟨Expr.proper_type he, ?_⟩)⟩
      exact List.forall_mem_singleton.mpr (hr.proper hc)

end

/-! ## 5. Programs -/

/-- **Errors do not spread through the types.** Whatever the scopes and the notes are, the reports
on types are those of the spots of the program. None of them speaks of a type with an error in it,
and whoever a report is made on account of has a recorded type that is no error. A report about
an operand is always made on account of one, but for a `return` that has no value. -/
theorem Program.Numbered.no_cascades {p : Program} (h : p.Numbered) (t : Hierarchy) (f : Forest)
    (a : Notes) :
    (p.checkTypes t f a).diagnostics = (p.spots t f a).flatMap Spot.faults ∧
      ∀ s ∈ p.spots t f a, ∀ d ∈ s.faults, ∃ k x, d = .located k x ∧
        (∀ u ∈ x.types, u.Proper) ∧
        (∀ e ∈ s.subject.accused x, (p.checkTypes t f a).notes.typeOf e ≠ .error) ∧
        (x.accuses = true → s.subject.accused x ≠ [] ∨ ∃ k, s.subject = .returned k none) := by
  refine ⟨p.diagnostics_eq t f a, fun s hs d hd => ?_⟩
  have hr : s.context.result.Shallow :=
    (p.told t f (R := Ty.Shallow) fun u => a.denote_shallow u).result s hs
  obtain ⟨k, x, rfl, hx⟩ := s.faults_fair hr hd
  refine ⟨k, x, rfl, hx.types, fun e he => ?_, hx.someone⟩
  rw [h.typeOf_at (p.spots_closed t f a s hs e (s.subject.accused_subset x he))]
  exact hx.typed e he

/-- A function with mistakes inside mistakes: an operator, a name, a field and a base. -/
def garble : Program := .number [
  .fn ⟨.nowhere, .called "main", .prim 0 .void, [], some ⟨.nowhere,
    [.called "a" (.array 0 (.prim 0 .int))],
    [.set (.index .nowhere (.use "a")
        (.binary .nowhere .add (.bool .nowhere true) (.int .nowhere 1)))
      (.use "ghost"),
    .ret .nowhere (some (.field .nowhere (.field .nowhere (.use "a") (.called "b"))
      (.called "c")))]⟩⟩]

/-- Of the mistakes of the garble, each is reported once. -/
theorem no_cascades_garble : garble.Numbered ∧ garble.analyze.diagnostics =
    [.located .nowhere (.notDeclared "ghost" .var),
      .located .nowhere (.badOperands "+" .bool .int),
      .located .nowhere (.noSuchField "b" (.array .int))] ∧
    ∀ s ∈ garble.spots garble.analyze.hierarchy garble.scopes garble.analyze.resolved.notes,
      ∀ d ∈ s.faults, ∃ k x, d = .located k x ∧ (∀ u ∈ x.types, u.Proper) ∧
        (∀ e ∈ s.subject.accused x, (garble.checkTypes garble.analyze.hierarchy garble.scopes
          garble.analyze.resolved.notes).notes.typeOf e ≠ .error) ∧
        (x.accuses = true → s.subject.accused x ≠ [] ∨ ∃ k, s.subject = .returned k none) :=
  ⟨Program.number_numbered _, by decide +kernel,
    ((Program.number_numbered _).no_cascades _ _ _).2⟩

end DecafLang
