import DecafLang.Proofs.Sound
import DecafLang.Proofs.Bodies
import DecafLang.Proofs.Typing

/-!
# The code of checked expressions

**The code of a checked expression is written without a defect** (`Expr.eval_sound`), and leaves a
value unless the expression has the type `void`.

* The surroundings have a place for everything that a name can stand for where the expression
  stands (`Surroundings.Serves`).
* What the expression assigns to can be assigned to, and no value is used that is not there
  (`Expr.Valued`), or the defects that come of it are allowed. The checker asks for neither.
-/

namespace DecafLang

open Code (Emit Location)
open Code.Emit Lowering

/-! ## 1. Values that are used -/

/-- Something that can be assigned to. -/
def Expr.IsTarget : Expr → Prop
  | .name _ _ => True
  | .field _ _ _ => True
  | .index _ _ _ => True
  | _ => False

mutual

/-- What the expression assigns to are targets, and the values that it uses have another type than
`void`. -/
def Expr.Valued (a : Notes) : Expr → Prop
  | .binary _ _ x y => (a.typeOf x ≠ .void ∧ x.Valued a) ∧ a.typeOf y ≠ .void ∧ y.Valued a
  | .unary _ _ x => a.typeOf x ≠ .void ∧ x.Valued a
  | .step _ _ x => x.IsTarget ∧ x.Valued a
  | .assign _ x y => (x.IsTarget ∧ x.Valued a) ∧ a.typeOf y ≠ .void ∧ y.Valued a
  | .index _ x y => x.Valued a ∧ a.typeOf y ≠ .void ∧ y.Valued a
  | .field _ x _ => a.typeOf x ≠ .void ∧ x.Valued a
  | .call _ _ args => Expr.ValuedAll a args
  | .send _ x _ args => (a.typeOf x ≠ .void ∧ x.Valued a) ∧ Expr.ValuedAll a args
  | .newArray _ x _ => a.typeOf x ≠ .void ∧ x.Valued a
  | _ => True

/-- The values of several expressions are used. -/
def Expr.ValuedAll (a : Notes) : List Expr → Prop
  | [] => True
  | e :: es => (a.typeOf e ≠ .void ∧ e.Valued a) ∧ Expr.ValuedAll a es

end

/-- The value of the expression is used. -/
def Expr.Used (a : Notes) (e : Expr) : Prop := a.typeOf e ≠ .void ∧ e.Valued a

/-! ## 2. Surroundings that serve -/

namespace Surroundings

/-- Everything that a name or a member can stand for has its place, and there is something to leave
by a `break` if that is asked for. -/
structure Serves (s : Surroundings) (f : Forest) (br : Bool) : Prop where
  written : f.Written s.notes
  vars : ∀ name v, f.lookup? name = some (.var v) → (s.slot? v.id).isSome = true ∨
    (s.layout.fieldOffset? v.id).isSome = true ∧ s.this.isSome = true
  fns : ∀ name g, f.lookup? name = some (.fn g) → (s.layout.methodSlot? g.id).isSome = true →
    s.this.isSome = true
  classes : ∀ name c, f.lookup? name = some (.cls c) → (s.layout.class? name).isSome = true
  fields : ∀ owner name v, f.member? owner name = some (.var v) →
    (s.layout.fieldOffset? v.id).isSome = true
  methods : ∀ owner name g, (s.layout.class? owner).isSome = true →
    f.member? owner name = some (.fn g) → (s.layout.methodSlot? g.id).isSome = true
  this : f.enclosingClass?.isSome = true → s.this.isSome = true
  breaks : br = true → s.breakTo.isSome = true

variable {s : Surroundings} {i : Ident} {v : VarDecl} {A : Defect → Prop}

theorem noDouble_sound {α : Type} {m : Emit α} {Q : α → Prop} (n : Node) (h : m.Sound A Q) :
    (s.noDouble n m).Sound A Q := by
  unfold noDouble
  split
  · exact refuse_sound trivial
  · exact h

theorem varOf_sound (hv : s.notes.var? i = some v) : (s.varOf i).Sound A fun u => u = v := by
  unfold varOf
  exact (required_sound (Option.isSome_of_mem hv)).mono fun u hu =>
    Option.some.inj (hu.symm.trans hv)

theorem fieldOffset_runs (hv : s.notes.var? i = some v)
    (ho : (s.layout.fieldOffset? v.id).isSome = true) : (s.fieldOffset i).Runs A := by
  unfold fieldOffset
  refine (varOf_sound hv).bind fun u hu => ?_
  rw [hu]
  exact (required_sound ho).runs

theorem callee_sound {n : Node} {g : FnDecl} (hg : s.notes.fn? i = some g) :
    (s.callee n i).Sound A fun g' => g' = g := by
  unfold callee
  exact (required_sound (Option.isSome_of_mem hg)).mono fun u hu =>
    Option.some.inj (hu.symm.trans hg)

/-- What is called behind a base of a named type is called behind a class. -/
theorem noInterfaceCall_sound {n : Node} {t : Ty} {o : String} (ht : t = .named o) :
    (noInterfaceCall s n t i).Sound A fun _ => (s.layout.class? o).isSome = true := by
  subst ht
  unfold noInterfaceCall
  dsimp only
  cases h : s.layout.class? o with
  | some _ => exact .done rfl
  | none => exact refuse_sound trivial

theorem ofName_runs (hv : s.notes.var? i = some v) (hp : (s.slot? v.id).isSome = true ∨
    (s.layout.fieldOffset? v.id).isSome = true ∧ s.this.isSome = true) :
    (Target.ofName s i).Runs A := by
  unfold Target.ofName
  refine (varOf_sound hv).bind fun u hu => ?_
  rw [hu]
  cases hs : s.slot? v.id with
  | some l => exact runs_done _
  | none =>
    rw [hs] at hp
    obtain ⟨ho, ht⟩ := hp.resolve_left nofun
    refine (fieldOffset_runs hv ho).bind fun _ => ?_
    refine (required_sound ht).runs.bind fun _ => ?_
    exact runs_done _

theorem ofField_runs (hv : s.notes.var? i = some v)
    (ho : (s.layout.fieldOffset? v.id).isSome = true) (p : Location) :
    (Target.ofField s i p).Runs A := by
  unfold Target.ofField
  exact (fieldOffset_runs hv ho).bind fun _ => runs_done _

end Surroundings

/-! ## 3. What the rules bind -/

namespace Context

variable {c : Context} {i : Ident} {u : Ty} {as : List (Span × Ty)}

/-- A field in sight is bound to a member of the class around. -/
theorem field_binds (hu : u.Proper) (hf : (c.fieldRule u i).faults = []) :
    ∃ owner v, c.forest.member? owner i.name = some (.var v) ∧
      (i, Decl.var v) ∈ (c.fieldRule u i).binding := by
  unfold fieldRule at hf ⊢
  cases u with
  | error => exact hu.elim
  | named o =>
    dsimp only at hf ⊢
    split at hf
    · split at hf
      · cases hf
      · rename_i d _
        split at hf
        · rename_i v hv
          split at hf
          · rename_i ha
            rw [if_pos ha]
            exact ⟨d.name, v, hv, rfl⟩
          · cases hf
        · cases hf
    · cases hf
  | _ => cases hf

/-- What is called behind a base is the length of an array, or a member of the named type; behind a
base without a type it is nothing. -/
theorem send_binds (hf : (c.sendRule u i as).faults = []) : u = .error ∨
    (u.isArray = true ∧ i.name = "length" ∧ as = [] ∧ (c.sendRule u i as).type = .int) ∨
      ∃ o g, u = .named o ∧ c.forest.member? o i.name = some (.fn g) ∧
        (i, Decl.fn g) ∈ (c.sendRule u i as).binding ∧
        (c.sendRule u i as).type = c.notes.denote g.result ∧ c.callFaults g i as = [] := by
  have method : ∀ u : Ty, (c.methodRule u i as).faults = [] → ∃ o g, u = .named o ∧
      c.forest.member? o i.name = some (.fn g) ∧ (i, Decl.fn g) ∈ (c.methodRule u i as).binding ∧
      (c.methodRule u i as).type = c.notes.denote g.result ∧ c.callFaults g i as = [] := by
    intro u hf
    unfold methodRule at hf ⊢
    split at hf
    · rename_i g hg
      obtain ⟨o, ho, hm⟩ := Option.bind_eq_some_iff.mp hg
      obtain rfl : u = .named o := by
        cases u <;> cases ho
        rfl
      exact ⟨o, g, rfl, hm, rfl, rfl, hf⟩
    · cases hf
  unfold sendRule at hf ⊢
  cases u with
  | error => exact .inl rfl
  | array t =>
    dsimp only at hf ⊢
    split at hf
    · rename_i hi
      rw [if_pos hi]
      cases as with
      | nil => exact .inr (.inl ⟨rfl, hi, rfl, rfl⟩)
      | cons _ _ => cases hf
    · rename_i hi
      rw [if_neg hi]
      exact .inr (.inr (method _ hf))
  | _ => exact .inr (.inr (method _ hf))

end Context

/-! ## 4. Expressions -/

section

variable {c : Context} {r : Rules} {s : Surroundings} {A : Defect → Prop}

/-- A part of an expression, as it was checked: its type is one, and is noted. -/
theorem Expr.checked_part (hc : c.Follows r) {e : Expr}
    (hu : ∀ x ∈ e.uses c.forest, x.Known c.notes s.notes) (h : (e.check c).report.Clean s.notes) :
    (e.check c).type.Proper ∧ s.notes.typeOf e = (e.check c).type :=
  ⟨((Expr.check_iff hc e (fun x hx => (hu x hx).1) _).mp ⟨h.1, rfl⟩).proper, Expr.type_kept h⟩

theorem Surroundings.hasResult_of_ne {g : FnDecl} (hw : (Decl.fn g).Written s.notes)
    (h : g.result.ty ≠ .void) : s.hasResult g = true := by
  unfold hasResult
  rw [hw.1]
  exact bne_iff_ne.mpr h

/-- The value of an array is used. -/
theorem Expr.array_used (hc : c.Follows r) {sp sp' : Span} {x y : Expr}
    (hux : ∀ z ∈ x.uses c.forest, z.Known c.notes s.notes)
    (huy : ∀ z ∈ y.uses c.forest, z.Known c.notes s.notes)
    (h : ((x.check c).report ++ (y.check c).report).Clean s.notes)
    (hf : (Context.indexRule sp sp' (x.check c).type (y.check c).type).faults = []) :
    s.notes.typeOf x ≠ .void := by
  obtain ⟨hx, hy⟩ := Report.clean_append.mp h
  obtain ⟨hpx, e⟩ := Expr.checked_part hc hux hx
  obtain ⟨hpy, -⟩ := Expr.checked_part hc huy hy
  have := ((Context.index_gives hpx hpy).mp ⟨hf, rfl⟩).1
  rw [e, this]
  exact nofun

/-- A field behind a base stands for a variable with an offset. -/
theorem Expr.field_placed (hc : c.Follows r) {br : Bool} (hs : s.Serves c.forest br) {x : Expr}
    {i : Ident} (hu : ∀ z ∈ x.uses c.forest, z.Known c.notes s.notes)
    (h : (x.check c).report.Clean s.notes) (hf : (c.fieldRule (x.check c).type i).faults = [])
    (hb : ∀ b ∈ (c.fieldRule (x.check c).type i).binding,
      s.notes.bindings.get? b.1.id = some b.2) :
    ∃ v, s.notes.var? i = some v ∧ (s.layout.fieldOffset? v.id).isSome = true := by
  obtain ⟨hp, -⟩ := Expr.checked_part hc hu h
  obtain ⟨owner, v, hm, hbv⟩ := Context.field_binds hp hf
  have hd : s.notes.decl? i = some (.var v) := hb _ hbv
  refine ⟨v, ?_, hs.fields owner _ v hm⟩
  unfold Notes.var?
  rw [hd]
  rfl

/-- A bare name stands for a variable in sight. -/
theorem Expr.name_placed (hc : c.Follows r) {a : Notes} {n : Node} {i : Ident}
    (hu : (c.forest.use i .var).Known c.notes a)
    (h : ((Expr.name n i).check c).report.Clean a) :
    ∃ v, a.var? i = some v ∧ c.forest.lookup? i.name = some (.var v) := by
  obtain ⟨d, hl, -, hd⟩ := Forest.use_settled.mp hu.2
  obtain ⟨d', hl', -, hd'⟩ := Forest.use_settled.mp hu.1
  obtain ⟨v, hv, -⟩ := (Context.name_gives hc hu.1).mp ⟨(Verdict.clean_at.mp h).2.1, rfl⟩
  obtain rfl : d = d' := Option.some.inj (hl.symm.trans hl')
  obtain rfl : d = .var v := by
    rw [hc.notes_eq, hv] at hd'
    exact (Option.some.inj hd').symm
  refine ⟨v, ?_, hl⟩
  unfold Notes.var?
  rw [hd]
  rfl

/-- A call by a bare name goes to a function in sight, which gives a value if the call has one. -/
theorem Expr.call_placed (hc : c.Follows r) {br : Bool} (hs : s.Serves c.forest br) {n : Node}
    {i : Ident} {args : List Expr} (hu : (c.forest.use i .fn).Known c.notes s.notes)
    (h : ((Expr.call n i args).check c).report.Clean s.notes) :
    ∃ g, s.notes.fn? i = some g ∧ c.forest.lookup? i.name = some (.fn g) ∧
      (s.notes.typeOf (.call n i args) ≠ .void → s.hasResult g = true) := by
  obtain ⟨d, hl, ha, hd⟩ := Forest.use_settled.mp hu.2
  obtain ⟨d', hl', -, hd'⟩ := Forest.use_settled.mp hu.1
  obtain rfl : d = d' := Option.some.inj (hl.symm.trans hl')
  obtain ⟨g, hg, hw, -, e⟩ := (Context.call_gives hc hu.1).mp ⟨(Verdict.clean_at.mp h).2.1, rfl⟩
  obtain rfl : d = .fn g := by
    rw [hc.notes_eq, hg] at hd'
    exact (Option.some.inj hd').symm
  refine ⟨g, ?_, hl, fun hne => Surroundings.hasResult_of_ne (hs.written.lookup? hl) ?_⟩
  · unfold Notes.fn?
    rw [hd]
    rfl
  · rw [Expr.type_kept h] at hne
    exact e ▸ hne

/-- A call behind a base that is not the length of an array goes to a member of the type of the
base, which gives a value if the call has one. -/
theorem Expr.send_placed (hc : c.Follows r) {br : Bool} (hs : s.Serves c.forest br) {n : Node}
    {x : Expr} {i : Ident} {args : List Expr} (hux : ∀ z ∈ x.uses c.forest, z.Known c.notes s.notes)
    (h : ((Expr.send n x i args).check c).report.Clean s.notes)
    (hl : ¬ ((s.typeAt x.node).isArray && i.name == "length") = true) :
    ∃ o g, s.typeAt x.node = .named o ∧ c.forest.member? o i.name = some (.fn g) ∧
      s.notes.fn? i = some g ∧
        (s.notes.typeOf (.send n x i args) ≠ .void → s.hasResult g = true) := by
  obtain ⟨hxa, hf, -, hb⟩ := Verdict.clean_at.mp h
  obtain ⟨hp, e⟩ := Expr.checked_part hc hux (Report.clean_append.mp hxa).1
  have e : s.typeAt x.node = (x.check c).type := e
  rw [Bool.and_eq_true, beq_iff_eq, e] at hl
  obtain ⟨o, g, ho, hm, hg, ht, -⟩ := ((Context.send_binds hf).resolve_left
    hp.ne_error).resolve_left fun h => hl ⟨h.1, h.2.1⟩
  refine ⟨o, g, e.trans ho, hm, ?_, fun hne => ?_⟩
  · have hd : s.notes.decl? i = some (.fn g) := hb _ hg
    unfold Notes.fn?
    rw [hd]
    rfl
  · refine Surroundings.hasResult_of_ne (hs.written.member? hm) ?_
    rw [Expr.type_kept h] at hne
    have hw : c.notes.denote g.result = g.result.ty := (hc.written.member? hm).1
    exact hw ▸ ht ▸ hne

/-- Steps that leave a value whenever the expression has one. -/
def Expr.Leaves (A : Defect → Prop) (a : Notes) (e : Expr) (m : Emit (Option Location)) : Prop :=
  m.Sound A fun o => a.typeOf e ≠ .void → o.isSome = true

/-- The value of an expression that is used is there, or it may be missing. -/
theorem Expr.used_runs {a : Notes} {e : Expr}
    (h : Lenient A ∨ e.Valued a → e.Leaves A a (e.eval s)) (hv : Lenient A ∨ e.Used a) :
    (Emit.needed (.noValue e.span) (e.eval s)).Runs A :=
  needed_runs (h (hv.imp_right (·.2))) (hv.imp_right (·.1))

/-- Steps that always leave a value. -/
theorem Expr.leaves_some {a : Notes} {e : Expr} {m : Emit Location} (n : Node) (h : m.Runs A) :
    e.Leaves A a (s.noDouble n do return some (← m)) :=
  Surroundings.noDouble_sound n (h.bind fun _ => .done fun _ => rfl)

mutual

/-- **The code of a checked expression is written without a defect.** -/
theorem Expr.eval_sound (hc : c.Follows r) {br : Bool} (hs : s.Serves c.forest br) :
    ∀ e : Expr, (∀ x ∈ e.uses c.forest, x.Known c.notes s.notes) →
      (e.check c).report.Clean s.notes → Lenient A ∨ e.Valued s.notes →
        e.Leaves A s.notes (e.eval s)
  | .int n v, _, _, _ => by
    unfold Expr.eval
    exact leaves_some n (constant_runs v)
  | .bool n v, _, _, _ => by
    unfold Expr.eval
    exact leaves_some n (constant_runs _)
  | .null n, _, _, _ => by
    unfold Expr.eval
    exact leaves_some n (constant_runs 0)
  | .string n v, _, _, _ => by
    unfold Expr.eval
    exact leaves_some n (string_runs v)
  | .double n, _, _, _ => by
    unfold Expr.eval
    exact refuse_sound trivial
  | .readInteger n, _, _, _ => by
    unfold Expr.eval
    exact leaves_some n (builtinValue_runs rfl rfl)
  | .readLine n, _, _, _ => by
    unfold Expr.eval
    exact leaves_some n (builtinValue_runs rfl rfl)
  | .this n, _, h, _ => by
    obtain ⟨-, hf, -, -⟩ := Verdict.clean_at.mp h
    have ht : c.forest.enclosingClass?.isSome = true := by
      unfold Context.thisRule at hf
      cases he : c.forest.enclosingClass? with
      | none =>
        rw [he] at hf
        cases hf
      | some d => rfl
    unfold Expr.eval
    exact leaves_some n (required_sound (hs.this ht)).runs
  | .binary n op x y, hu, h, hv => by
    obtain ⟨hux, huy⟩ := List.forall_mem_append.mp hu
    obtain ⟨hx, hy⟩ := Report.clean_append.mp (Verdict.clean_at.mp h).1
    have hleft := Expr.used_runs (x.eval_sound hc hs hux hx) (hv.imp_right (·.1))
    have hright := Expr.used_runs (y.eval_sound hc hs huy hy) (hv.imp_right (·.2))
    unfold Expr.eval
    refine Surroundings.noDouble_sound n ?_
    refine hleft.bind fun _ => ?_
    refine hright.bind fun _ => ?_
    refine (binaryOp_runs _ _ _ _).bind fun _ => ?_
    exact .done fun _ => rfl
  | .unary n op x, hu, h, hv => by
    have hx := (Verdict.clean_at.mp h).1
    unfold Expr.eval
    refine Surroundings.noDouble_sound n ?_
    refine (Expr.used_runs (x.eval_sound hc hs hu hx) hv).bind fun _ => ?_
    refine (unaryOp_runs _ _).bind fun _ => ?_
    exact .done fun _ => rfl
  | .step n op x, hu, h, hv => by
    have hx := (Verdict.clean_at.mp h).1
    have htarget := x.target_runs hc hs (hv.imp_right (·.1)) hu hx (hv.imp_right (·.2))
    unfold Expr.eval
    refine Surroundings.noDouble_sound n ?_
    refine htarget.bind fun _ => ?_
    refine (stepTarget_runs _ _).bind fun _ => ?_
    exact .done fun _ => rfl
  | .assign n x y, hu, h, hv => by
    obtain ⟨hux, huy⟩ := List.forall_mem_append.mp hu
    obtain ⟨hx, hy⟩ := Report.clean_append.mp (Verdict.clean_at.mp h).1
    have htarget := x.target_runs hc hs (hv.imp_right (·.1.1)) hux hx (hv.imp_right (·.1.2))
    have hvalue := Expr.used_runs (y.eval_sound hc hs huy hy) (hv.imp_right (·.2))
    unfold Expr.eval
    refine Surroundings.noDouble_sound n ?_
    refine htarget.bind fun t => ?_
    refine hvalue.bind fun _ => ?_
    refine (t.store_runs _).bind fun _ => ?_
    exact .done fun _ => rfl
  | .index n x y, hu, h, hv => by
    obtain ⟨hux, huy⟩ := List.forall_mem_append.mp hu
    obtain ⟨hxy, hf, -, -⟩ := Verdict.clean_at.mp h
    obtain ⟨hx, hy⟩ := Report.clean_append.mp hxy
    -- the array has a value, since a call without a result would have been reported
    have hvx := Expr.array_used hc hux huy hxy hf
    have harray := Expr.used_runs (x.eval_sound hc hs hux hx) (hv.imp_right fun h => ⟨hvx, h.1⟩)
    have hindex := Expr.used_runs (y.eval_sound hc hs huy hy) (hv.imp_right (·.2))
    unfold Expr.eval
    refine Surroundings.noDouble_sound n ?_
    refine harray.bind fun _ => ?_
    refine hindex.bind fun _ => ?_
    refine (elementTarget_runs _ _).bind fun t => ?_
    refine t.load_runs.bind fun _ => ?_
    exact .done fun _ => rfl
  | .name n i, hu, h, hv => by
    have ht := Expr.target_runs hc hs (.name n i) (.inr trivial) hu h hv
    unfold Expr.target at ht
    unfold Expr.eval
    refine Surroundings.noDouble_sound n ?_
    refine ht.bind fun t => ?_
    refine t.load_runs.bind fun _ => ?_
    exact .done fun _ => rfl
  | .field n x i, hu, h, hv => by
    obtain ⟨hx, hf, -, hb⟩ := Verdict.clean_at.mp h
    obtain ⟨v, hi, ho⟩ := Expr.field_placed hc hs (x := x) hu hx hf hb
    unfold Expr.eval
    refine Surroundings.noDouble_sound n ?_
    refine (Expr.used_runs (x.eval_sound hc hs hu hx) hv).bind fun p => ?_
    refine (Surroundings.ofField_runs hi ho p).bind fun t => ?_
    refine t.load_runs.bind fun _ => ?_
    exact .done fun _ => rfl
  | .new n i, hu, _, _ => by
    obtain ⟨d, hl, ha, -⟩ := Forest.use_settled.mp (hu _ List.mem_cons_self).2
    obtain ⟨d, rfl⟩ : ∃ c, d = .cls c := by
      cases d with
      | cls d => exact ⟨d, rfl⟩
      | _ => cases ha
    unfold Expr.eval
    exact leaves_some n (allocObject_runs (hs.classes _ d hl))
  | .newArray n x t, hu, h, hv => by
    obtain ⟨hux, -⟩ := List.forall_mem_append.mp hu
    have hx := (Verdict.clean_at.mp h).1
    unfold Expr.eval
    refine Surroundings.noDouble_sound n ?_
    refine (Expr.used_runs (x.eval_sound hc hs hux hx) hv).bind fun _ => ?_
    refine (allocArray_runs _).bind fun _ => ?_
    exact .done fun _ => rfl
  | .call n i args, hu, h, hv => by
    obtain ⟨hui, hua⟩ := List.forall_mem_cons.mp hu
    have ha := (Verdict.clean_at.mp h).1
    obtain ⟨g, hg, hl, hr⟩ := Expr.call_placed hc hs hui h
    have hargs := Expr.eval_all_runs hc hs args hua ha hv
    unfold Expr.eval
    refine Surroundings.noDouble_sound n ?_
    refine (Surroundings.callee_sound hg).bind fun g' e => ?_
    subst e
    -- a method is called on the object at hand, and a function by its label
    cases hm : s.layout.methodSlot? g'.id with
    | some slot =>
      have ht := hs.fns _ g' hl (Option.isSome_of_mem hm)
      refine (required_sound ht).runs.bind fun _ => ?_
      refine hargs.bind fun _ => ?_
      exact (callMethod_sound _ _ _ _).mono fun _ ho hne => ho (hr hne)
    | none =>
      refine hargs.bind fun _ => ?_
      exact (callFunction_sound _ _ _).mono fun _ ho hne => ho (hr hne)
  | .send n x i args, hu, h, hv => by
    obtain ⟨hux, hua⟩ := List.forall_mem_append.mp hu
    obtain ⟨hxa, hf, -, hb⟩ := Verdict.clean_at.mp h
    obtain ⟨hx, ha⟩ := Report.clean_append.mp hxa
    have hargs := Expr.eval_all_runs hc hs args hua ha (hv.imp_right (·.2))
    have hbase := Expr.used_runs (x.eval_sound hc hs hux hx) (hv.imp_right (·.1))
    unfold Expr.eval
    refine Surroundings.noDouble_sound n ?_
    split
    · refine hbase.bind fun _ => ?_
      refine (load_runs _ _).bind fun _ => ?_
      exact .done fun _ => rfl
    · rename_i hlen
      obtain ⟨o, g, et, hm, hg, hr⟩ := Expr.send_placed hc hs hux h hlen
      refine (Surroundings.callee_sound hg).bind fun g' e => ?_
      subst e
      refine (Surroundings.noInterfaceCall_sound et).bind fun _ hl => ?_
      refine hbase.bind fun _ => ?_
      refine hargs.bind fun _ => ?_
      refine (required_sound (hs.methods o _ g' hl hm)).runs.bind fun _ => ?_
      exact (callMethod_sound _ _ _ _).mono fun _ ho hne => ho (hr hne)

/-- Targets are found. -/
theorem Expr.target_runs (hc : c.Follows r) {br : Bool} (hs : s.Serves c.forest br) :
    ∀ e : Expr, Lenient A ∨ e.IsTarget → (∀ x ∈ e.uses c.forest, x.Known c.notes s.notes) →
      (e.check c).report.Clean s.notes → Lenient A ∨ e.Valued s.notes → (e.target s).Runs A
  | .name n i, _, hu, h, _ => by
    obtain ⟨v, hv, hl⟩ := Expr.name_placed hc (hu _ List.mem_cons_self) h
    unfold Expr.target
    exact Surroundings.ofName_runs hv (hs.vars _ v hl)
  | .field n x i, _, hu, h, hv => by
    obtain ⟨hx, hf, -, hb⟩ := Verdict.clean_at.mp h
    obtain ⟨v, hi, ho⟩ := Expr.field_placed hc hs (x := x) hu hx hf hb
    unfold Expr.target
    exact (Expr.used_runs (x.eval_sound hc hs hu hx) hv).bind fun p =>
      Surroundings.ofField_runs hi ho p
  | .index n x y, _, hu, h, hv => by
    obtain ⟨hux, huy⟩ := List.forall_mem_append.mp hu
    obtain ⟨hxy, hf, -, -⟩ := Verdict.clean_at.mp h
    obtain ⟨hx, hy⟩ := Report.clean_append.mp hxy
    have hvx := Expr.array_used hc hux huy hxy hf
    unfold Expr.target
    exact (Expr.used_runs (x.eval_sound hc hs hux hx) (hv.imp_right fun h => ⟨hvx, h.1⟩)).bind
      fun _ => (Expr.used_runs (y.eval_sound hc hs huy hy) (hv.imp_right (·.2))).bind
        fun _ => elementTarget_runs _ _
  | .int _ _, ht, _, _, _ | .bool _ _, ht, _, _, _ | .null _, ht, _, _, _
  | .string _ _, ht, _, _, _ | .double _, ht, _, _, _ | .readInteger _, ht, _, _, _
  | .readLine _, ht, _, _, _ | .this _, ht, _, _, _ | .binary _ _ _ _, ht, _, _, _
  | .unary _ _ _, ht, _, _, _ | .step _ _ _, ht, _, _, _ | .assign _ _ _, ht, _, _, _
  | .new _ _, ht, _, _, _ | .newArray _ _ _, ht, _, _, _ | .call _ _ _, ht, _, _, _
  | .send _ _ _ _, ht, _, _, _ => by
    unfold Expr.target
    exact refuse_sound (ht.resolve_right not_false _ rfl)

theorem Expr.eval_all_runs (hc : c.Follows r) {br : Bool} (hs : s.Serves c.forest br) :
    ∀ es : List Expr, (∀ x ∈ Expr.usesAll c.forest es, x.Known c.notes s.notes) →
      (Expr.checkAll c es).2.Clean s.notes → Lenient A ∨ Expr.ValuedAll s.notes es →
        (Expr.evalAll s es).Runs A
  | [], _, _, _ => by
    unfold Expr.evalAll
    exact runs_done _
  | e :: es, hu, h, hv => by
    obtain ⟨hue, hus⟩ := List.forall_mem_append.mp hu
    obtain ⟨he, hr⟩ := Report.clean_append.mp h
    unfold Expr.evalAll
    exact (Expr.used_runs (e.eval_sound hc hs hue he) (hv.imp_right (·.1))).bind fun _ =>
      (Expr.eval_all_runs hc hs es hus hr (hv.imp_right (·.2))).bind fun _ => runs_done _

end

end

end DecafLang
