import DecafLang.Syntax.Handwritten
import DecafLang.Compilation
import DecafLang.Proofs.RequiredValues
import DecafLang.Proofs.Coded
import DecafLang.Proofs.Progress

/-!
# Missing values

What the back end does about everything that is needed in a program.

* **Code is written only if all needs are met,** and the back end says that an expression has no
  value, or cannot be assigned to, only about a need that is not (`Emit.Meets`). Which need that is
  depends on the code before it.
* An expression leaves no value exactly if it is a call of a function without a result
  (`Expr.eval_value`), whatever stands around it.
-/

namespace DecafLang

open Code (Emit Emitted Supply Location Label)
open Lowering

/-! ## 1. Needs that are met -/

/-- Something is needed to be assigned to. -/
def Purpose.stores : Purpose → Bool
  | .stepped _ => true
  | .assignee _ => true
  | _ => false

/-- The need is not met: there is no value, or nothing that can be assigned to. -/
def Need.Unmet (a : Notes) (x : Need) : Prop :=
  if x.purpose.stores then ¬ x.expr.IsTarget else x.expr.Valueless a

/-- What the back end says about a need that is not met. -/
def Need.defect (x : Need) : Defect :=
  if x.purpose.stores then .notAssignable x.expr.span else .noValue x.expr.span

namespace Need

variable {a : Notes} {x : Need}

/-- A place is not met by what cannot be assigned to. -/
theorem unmet_place (h : x.purpose.stores = true) : x.Unmet a ↔ ¬ x.expr.IsTarget := by
  unfold Unmet
  rw [if_pos h]

/-- A value is not met by what has none. -/
theorem unmet_value (h : x.purpose.stores = false) : x.Unmet a ↔ x.expr.Valueless a := by
  unfold Unmet
  rw [h, if_neg Bool.false_ne_true]

/-- The defect speaks of what cannot be assigned to. -/
theorem defect_place (h : x.purpose.stores = true) : x.defect = .notAssignable x.expr.span := by
  unfold defect
  rw [if_pos h]

/-- The defect speaks of the missing value. -/
theorem defect_value (h : x.purpose.stores = false) : x.defect = .noValue x.expr.span := by
  unfold defect
  rw [h, if_neg Bool.false_ne_true]

end Need

/-- Something is said about a need. -/
def Refusal.aboutNeed : Refusal → Bool
  | .internal d => d.aboutNeed
  | _ => false

namespace Code.Emit

variable {α β : Type} {m : Emit α} {k : α → Emit β} {Q : α → Prop} {P : β → Prop} {a : Notes}
  {ns ns' : List Need}

/-- What the steps end with has this property. -/
def Ends (m : Emit α) (Q : α → Prop) : Prop := ∀ s o, m s = .ok o → Q o.value

namespace Ends

/-- Steps that do nothing end with their value. -/
theorem done {v : α} (h : Q v) : (pure v : Emit α).Ends Q := by
  intro _ _ ho
  cases ho
  exact h

/-- What one step ends with is known to the next. -/
theorem bind_of (h : m.Ends Q) (hk : ∀ v, Q v → (k v).Ends P) : (m >>= k).Ends P := by
  intro s o ho
  obtain ⟨x, hx, y, hy, rfl⟩ := bind_run_ok.mp ho
  exact hk _ (h s x hx) _ y hy

theorem bind (hk : ∀ v, (k v).Ends P) : (m >>= k).Ends P :=
  bind_of (Q := fun _ => True) (fun _ _ _ => trivial) fun v _ => hk v

/-- Doubles are refused, and anything else ends like itself. -/
theorem noDouble {r : Surroundings} {n : Node} (h : m.Ends Q) : (r.noDouble n m).Ends Q :=
  fun s o ho => h s o (Surroundings.noDouble_ok ho)

theorem required {d : Defect} (o : Option α) : (required d o).Ends fun v => o = some v := by
  cases o with
  | none => exact fun _ _ ho => nomatch ho
  | some v => exact .done rfl

end Ends

theorem Sound.ends_in (h : m.Sound (fun _ => False) Q) : m.Ends Q := by
  intro s o ho
  have := h.ends s
  rwa [ho] at this

/-- **Steps in a row are refused in the first or in the second.** -/
theorem bind_run_error {s : Supply} {e : Refusal} (h : (m >>= k) s = .error e) :
    m s = .error e ∨ ∃ x, m s = .ok x ∧ k x.value x.supply = .error e := by
  have h : andThen m k s = .error e := h
  unfold andThen at h
  -- the first step either fails itself or hands over to the second
  cases hm : m s with
  | error r =>
    rw [hm] at h
    cases h
    exact .inl rfl
  | ok x =>
    rw [hm] at h
    dsimp only at h
    cases hk : k x.value x.supply with
    | error r =>
      rw [hk] at h
      cases h
      exact .inr ⟨x, rfl, hk⟩
    | ok y =>
      rw [hk] at h
      cases h

/-- The steps that write code end in it only if these needs are met, and say something about a need
only if one of these is not met. -/
structure Meets (m : Emit α) (a : Notes) (ns : List Need) : Prop where
  met : ∀ s o, m s = .ok o → ∀ x ∈ ns, ¬ x.Unmet a
  unmet : ∀ s d, m s = .error (.internal d) → d.aboutNeed = true →
    ∃ x ∈ ns, x.Unmet a ∧ d = x.defect

namespace Meets

/-- What comes next may use what came of the steps before. -/
theorem bind_of (h : m.Meets a ns) (hq : m.Ends Q) (hk : ∀ v, Q v → (k v).Meets a ns') :
    (m >>= k).Meets a (ns ++ ns') where
  met s o ho := by
    obtain ⟨x, hx, y, hy, -⟩ := bind_run_ok.mp ho
    exact List.forall_mem_append.mpr ⟨h.met s x hx, (hk _ (hq s x hx)).met _ y hy⟩
  unmet s d hd hn := by
    rcases bind_run_error hd with hd | ⟨x, hx, hd⟩
    · obtain ⟨x, hx, hu⟩ := h.unmet s d hd hn
      exact ⟨x, List.mem_append_left _ hx, hu⟩
    · obtain ⟨x, hx, hu⟩ := (hk _ (hq s x hx)).unmet _ d hd hn
      exact ⟨x, List.mem_append_right _ hx, hu⟩

theorem bind (h : m.Meets a ns) (hk : ∀ v, (k v).Meets a ns') : (m >>= k).Meets a (ns ++ ns') :=
  h.bind_of (Q := fun _ => True) (fun _ _ _ => trivial) fun v _ => hk v

/-- Steps before which nothing is needed. -/
theorem snd (h : m.Meets a []) (hk : ∀ v, (k v).Meets a ns) : (m >>= k).Meets a ns := h.bind hk

/-- Steps after which nothing is needed. -/
theorem fst (h : m.Meets a ns) (hk : ∀ v, (k v).Meets a []) : (m >>= k).Meets a ns := by
  have := h.bind hk
  rwa [List.append_nil] at this

/-- A refusal that is about no need meets nothing and misses nothing. -/
theorem refuse {e : Refusal} (h : e.aboutNeed = false) : (Emit.refuse e : Emit α).Meets a ns where
  met _ _ ho := nomatch ho
  unmet s d hd hn := by
    cases (hd : Except.error e = .error (.internal d))
    exact nomatch hn.symm.trans h

theorem noDouble {r : Surroundings} {n : Node} (h : m.Meets a ns) :
    (r.noDouble n m).Meets a ns := by
  unfold Surroundings.noDouble
  split
  · exact refuse rfl
  · exact h

end Meets

/-- Steps without a defect need nothing. -/
theorem Sound.meets (h : m.Sound (fun _ => False) Q) : m.Meets a [] where
  met _ _ _ := nofun
  unmet s d hd _ := by
    have := h.ends s
    rw [hd] at this
    exact this.elim

theorem done_meets (v : α) : (pure v : Emit α).Meets a [] := (runs_done v).meets

/-- What is required of the notes is no need of the program. -/
theorem required_meets {d : Defect} (hd : d.aboutNeed = false) (o : Option α) :
    (required d o).Meets a [] := by
  cases o with
  | none => exact .refuse hd
  | some v => exact done_meets v

/-- A function meets the needs of its body. -/
theorem function_meets {l : Label} {body : Emit Unit} (h : body.Meets a ns) :
    (function l body).Meets a ns where
  met s o ho := by
    unfold function at ho
    cases hb : body s.newFrame with
    | error r =>
      rw [hb] at ho
      cases ho
    | ok x => exact h.met _ x hb
  unmet s d hd hn := by
    unfold function at hd
    cases hb : body s.newFrame with
    | error r =>
      rw [hb] at hd
      cases hd
      exact h.unmet _ d hb hn
    | ok x =>
      rw [hb] at hd
      cases hd

end Code.Emit

open Code.Emit

/-! ## 2. Values -/

namespace Code.Emit

/-- There is a value exactly if there is a result. -/
def Filled (b : Bool) (o : Option Location) : Prop := o = none ↔ b = false

/-- A result has a slot if one is asked for. -/
theorem resultSlot_ends (b : Bool) : (resultSlot b).Ends (Filled b) := by
  cases b with
  | false => exact .done (iff_of_true rfl rfl)
  | true =>
    intro s o ho
    cases ho
    exact iff_of_false nofun nofun

/-- A call leaves a value just if one is asked for. -/
theorem call_ends (l : Label) (b : Bool) : (call l b).Ends (Filled b) := by
  refine (resultSlot_ends b).bind_of fun _ ho => ?_
  exact .bind fun _ => .done ho

/-- So does a call by an address. -/
theorem callVia_ends (x : Location) (b : Bool) : (callVia x b).Ends (Filled b) := by
  refine (resultSlot_ends b).bind_of fun _ ho => ?_
  exact .bind fun _ => .done ho

end Code.Emit

namespace Lowering

/-- So does a call of a function, whatever its arguments. -/
theorem callFunction_ends (n : String) (args : List Location) (b : Bool) :
    (callFunction n args b).Ends (Filled b) := by
  unfold callFunction
  refine .bind fun _ => ?_
  refine (call_ends _ b).bind_of fun _ ho => ?_
  exact .bind fun _ => .done ho

/-- So does a call of a method. -/
theorem callMethod_ends (x : Location) (slot : Nat) (args : List Location) (b : Bool) :
    (callMethod x slot args b).Ends (Filled b) := by
  unfold callMethod
  refine .bind fun _ => ?_
  refine .bind fun _ => ?_
  refine .bind fun _ => ?_
  refine .bind fun _ => ?_
  refine (callVia_ends _ b).bind_of fun _ ho => ?_
  exact .bind fun _ => .done ho

end Lowering

/-- A function has no result if it is noted to be silent. -/
theorem Surroundings.hasResult_eq_false {r : Surroundings} {i : Ident} {g : FnDecl}
    (hg : r.notes.fn? i = some g) : r.hasResult g = false ↔ r.notes.Silent i := by
  unfold hasResult
  rw [bne_eq_false_iff_eq]
  refine ⟨fun h => ⟨g, hg, h⟩, fun ⟨g', hg', h⟩ => ?_⟩
  obtain rfl := Option.some.inj (hg.symm.trans hg')
  exact h

/-- **An expression leaves no value exactly if it is a call of a function without a result.** -/
theorem Expr.eval_value (r : Surroundings) : ∀ e : Expr,
    (e.eval r).Ends fun o => o = none ↔ e.Valueless r.notes
  | .int _ _ | .bool _ _ | .null _ | .string _ _ | .readInteger _ | .readLine _ | .this _
  | .new _ _ => by
    -- all steps but the last are passed over, and the last one leaves a value
    unfold Expr.eval
    exact .noDouble (.bind fun _ => .done ⟨nofun, nofun⟩)
  | .double _ => by
    unfold Expr.eval
    exact fun _ _ ho => nomatch ho
  | .binary _ _ _ _ | .assign _ _ _ => by
    unfold Expr.eval
    exact .noDouble (.bind fun _ => .bind fun _ => .bind fun _ => .done ⟨nofun, nofun⟩)
  | .unary _ _ _ | .step _ _ _ | .name _ _ | .newArray _ _ _ => by
    unfold Expr.eval
    exact .noDouble (.bind fun _ => .bind fun _ => .done ⟨nofun, nofun⟩)
  | .field _ _ _ => by
    unfold Expr.eval
    exact .noDouble (.bind fun _ => .bind fun _ => .bind fun _ => .done ⟨nofun, nofun⟩)
  | .index _ _ _ => by
    unfold Expr.eval
    exact .noDouble (.bind fun _ => .bind fun _ => .bind fun _ => .bind fun _ =>
      .done ⟨nofun, nofun⟩)
  | .call n i args => by
    unfold Expr.eval
    refine .noDouble ?_
    refine (Ends.required _).bind_of fun g hg => ?_
    have hv : ∀ o, Filled (r.hasResult g) o → (o = none ↔ r.notes.Silent i) := fun o ho =>
      ho.trans (r.hasResult_eq_false hg)
    cases r.layout.methodSlot? g.id with
    | some slot =>
      refine .bind fun _ => ?_
      refine .bind fun _ => ?_
      exact fun s o ho => hv _ (callMethod_ends _ _ _ _ s o ho)
    | none => exact .bind fun _ => fun s o ho => hv _ (callFunction_ends _ _ _ s o ho)
  | .send n b i args => by
    unfold Expr.eval
    refine .noDouble ?_
    split
    next hl =>
      refine .bind fun _ => ?_
      refine .bind fun _ => ?_
      refine .done ⟨nofun, fun hv => ?_⟩
      exact nomatch (show b.isLength r.notes i = true from hl).symm.trans hv.1
    next hl =>
      have hl : b.isLength r.notes i = false := Bool.eq_false_iff.mpr hl
      refine (Ends.required _).bind_of fun g hg => ?_
      refine .bind fun _ => ?_
      refine .bind fun _ => ?_
      refine .bind fun _ => ?_
      refine .bind fun _ s o ho => ?_
      refine ((callMethod_ends _ _ _ _ s o ho).trans (r.hasResult_eq_false hg)).trans ?_
      exact ⟨fun h => ⟨hl, h⟩, fun h => h.2⟩

/-- Only a call can be without a value. -/
theorem Expr.Valueless.is_call {a : Notes} {e : Expr} (h : e.Valueless a) : e.IsCall := by
  cases e <;> trivial

/-- A call cannot be assigned to. -/
theorem Expr.IsCall.not_target {e : Expr} (h : e.IsCall) : ¬ e.IsTarget := by
  cases e <;> first | exact not_false | exact h.elim

/-! ## 3. Expressions -/

section

variable {r : Surroundings} {q : Purpose}

/-- A value that is needed. -/
theorem Expr.needed_meets {e : Expr} (hq : q.stores = false)
    (h : (∀ x ∈ e.needs, x.Plain r.notes) → (e.eval r).Meets r.notes e.needs)
    (hp : ∀ x ∈ (⟨q, e⟩ :: e.needs : List Need), x.Plain r.notes) :
    (Emit.needed (.noValue e.span) (e.eval r)).Meets r.notes (⟨q, e⟩ :: e.needs) := by
  have h := h (List.forall_mem_cons.mp hp).2
  have hun : (⟨q, e⟩ : Need).Unmet r.notes ↔ e.Valueless r.notes := Need.unmet_value hq
  have hd : (⟨q, e⟩ : Need).defect = .noValue e.span := Need.defect_value hq
  refine ⟨fun s o ho => ?_, fun s d he hn => ?_⟩
  -- the code is there, so the expression left a value and the need is met
  · obtain ⟨x, hx, hv, -, -⟩ := needed_from ho
    refine List.forall_mem_cons.mpr ⟨fun hu => ?_, h.met s x hx⟩
    have hnone := (e.eval_value r s x hx).mpr (hun.mp hu)
    exact nomatch hnone.symm.trans hv
  -- the refusal is one from inside the expression, or it is about the expression itself
  · rcases bind_run_error he with he | ⟨x, hx, he⟩
    · obtain ⟨y, hy, hu⟩ := h.unmet s d he hn
      exact ⟨y, List.mem_cons_of_mem _ hy, hu⟩
    · refine ⟨_, List.mem_cons_self, ?_⟩
      cases hv : x.value with
      | some v =>
        rw [hv] at he
        cases he
      | none =>
        rw [hv] at he
        cases he
        exact ⟨hun.mpr ((e.eval_value r s x hx).mp hv), hd.symm⟩

/-- **What is no target is refused, and that is the need that is not met.** -/
theorem Expr.target_unmet {e : Expr} (hq : q.stores = true) (he : ¬ e.IsTarget) :
    (Emit.defect (.notAssignable e.span) : Emit Target).Meets r.notes (⟨q, e⟩ :: e.needs) where
  met _ _ ho := nomatch ho
  unmet s d hd _ := by
    cases hd
    have hd : (⟨q, e⟩ : Need).defect = .notAssignable e.span := Need.defect_place hq
    exact ⟨⟨q, e⟩, List.mem_cons_self, (Need.unmet_place hq).mpr he, hd.symm⟩

/-- A target meets the need for a place. -/
theorem Expr.target_met {e : Expr} {m : Emit Target} (hq : q.stores = true) (he : e.IsTarget)
    (h : m.Meets r.notes e.needs) : m.Meets r.notes (⟨q, e⟩ :: e.needs) where
  met s o ho := by
    exact List.forall_mem_cons.mpr ⟨fun hu => (Need.unmet_place hq).mp hu he, h.met s o ho⟩
  unmet s d hd hn := by
    obtain ⟨x, hx, hu⟩ := h.unmet s d hd hn
    exact ⟨x, List.mem_cons_of_mem _ hx, hu⟩

theorem Surroundings.fieldOffset_meets (i : Ident) : (r.fieldOffset i).Meets r.notes [] := by
  unfold fieldOffset
  exact (required_meets rfl _).snd fun _ => required_meets rfl _

theorem Surroundings.thisLocation_meets : r.thisLocation.Meets r.notes [] :=
  required_meets rfl _

theorem Surroundings.callee_meets (n : Node) (i : Ident) : (r.callee n i).Meets r.notes [] :=
  required_meets rfl _

theorem Surroundings.noInterfaceCall_meets (n : Node) (t : Ty) (i : Ident) :
    (noInterfaceCall r n t i).Meets r.notes [] := by
  unfold noInterfaceCall
  split
  · split
    · exact done_meets _
    · exact .refuse rfl
  · exact done_meets _

/-- A name needs nothing but what the notes say. -/
theorem Surroundings.ofName_meets (i : Ident) : (Target.ofName r i).Meets r.notes [] := by
  unfold Target.ofName
  refine (required_meets rfl _).snd fun v => ?_
  cases r.slot? v.id with
  | some _ => exact done_meets _
  | none =>
    refine (fieldOffset_meets i).snd fun _ => ?_
    refine thisLocation_meets.snd fun _ => ?_
    exact done_meets _

theorem Surroundings.ofField_meets (i : Ident) (x : Location) :
    (Target.ofField r i x).Meets r.notes [] := by
  unfold Target.ofField
  exact (fieldOffset_meets i).snd fun _ => done_meets _

/-- A new object needs the layout of its class only. -/
theorem Surroundings.allocObject_meets (i : Ident) : (allocObject r i).Meets r.notes [] := by
  unfold allocObject
  refine (required_meets rfl _).snd fun _ => ?_
  refine (constant_runs _).meets.snd fun _ => ?_
  refine (builtinValue_runs rfl rfl).meets.snd fun _ => ?_
  refine (address_runs _).meets.snd fun _ => ?_
  refine (instr_runs _).meets.snd fun _ => ?_
  exact done_meets _

mutual

/-- **An expression is evaluated only if everything is met that is needed in it.** -/
theorem Expr.eval_meets : ∀ e : Expr, (∀ x ∈ e.needs, x.Plain r.notes) →
    (e.eval r).Meets r.notes e.needs
  | .int n v, _ => by
    unfold Expr.eval
    exact .noDouble ((constant_runs v).meets.snd fun _ => done_meets _)
  | .bool n v, _ => by
    unfold Expr.eval
    exact .noDouble ((constant_runs _).meets.snd fun _ => done_meets _)
  | .null n, _ => by
    unfold Expr.eval
    exact .noDouble ((constant_runs 0).meets.snd fun _ => done_meets _)
  | .string n v, _ => by
    unfold Expr.eval
    exact .noDouble ((string_runs v).meets.snd fun _ => done_meets _)
  | .double n, _ => by
    unfold Expr.eval
    exact .refuse rfl
  | .readInteger n, _ => by
    unfold Expr.eval
    exact .noDouble ((builtinValue_runs rfl rfl).meets.snd fun _ => done_meets _)
  | .readLine n, _ => by
    unfold Expr.eval
    exact .noDouble ((builtinValue_runs rfl rfl).meets.snd fun _ => done_meets _)
  | .this n, _ => by
    unfold Expr.eval
    exact .noDouble (Surroundings.thisLocation_meets.snd fun _ => done_meets _)
  | .name n i, _ => by
    unfold Expr.eval
    exact .noDouble ((Surroundings.ofName_meets i).snd fun t =>
      t.load_runs.meets.snd fun _ => done_meets _)
  | .new n i, _ => by
    unfold Expr.eval
    exact .noDouble ((Surroundings.allocObject_meets i).snd fun _ => done_meets _)
  | .binary n op x y, h => by
    obtain ⟨hx, hy⟩ := List.forall_mem_append.mp h
    unfold Expr.eval
    exact .noDouble ((needed_meets rfl x.eval_meets hx).bind fun _ =>
      (needed_meets rfl y.eval_meets hy).fst fun _ =>
        (binaryOp_runs _ _ _ _).meets.snd fun _ => done_meets _)
  | .unary n op x, h => by
    unfold Expr.eval
    exact .noDouble ((needed_meets rfl x.eval_meets h).fst fun _ =>
      (unaryOp_runs _ _).meets.snd fun _ => done_meets _)
  | .step n op x, h => by
    unfold Expr.eval
    exact .noDouble ((x.target_meets rfl h).fst fun _ =>
      (stepTarget_runs _ _).meets.snd fun _ => done_meets _)
  | .assign n x y, h => by
    obtain ⟨hx, hy⟩ := List.forall_mem_append.mp h
    unfold Expr.eval
    exact .noDouble ((x.target_meets rfl hx).bind fun t =>
      (needed_meets rfl y.eval_meets hy).fst fun _ =>
        (t.store_runs _).meets.snd fun _ => done_meets _)
  | .index n x y, h => by
    obtain ⟨hx, hy⟩ := List.forall_mem_append.mp h
    unfold Expr.eval
    exact .noDouble ((needed_meets rfl x.eval_meets hx).bind fun _ =>
      (needed_meets rfl y.eval_meets hy).fst fun _ =>
        (elementTarget_runs _ _).meets.snd fun t => t.load_runs.meets.snd fun _ => done_meets _)
  | .field n x i, h => by
    unfold Expr.eval
    exact .noDouble ((needed_meets rfl x.eval_meets h).fst fun _ =>
      (Surroundings.ofField_meets i _).snd fun t => t.load_runs.meets.snd fun _ => done_meets _)
  | .newArray n x _, h => by
    unfold Expr.eval
    exact .noDouble ((needed_meets rfl x.eval_meets h).fst fun _ =>
      (allocArray_runs _).meets.snd fun _ => done_meets _)
  | .call n i args, h => by
    unfold Expr.eval
    refine .noDouble ((Surroundings.callee_meets n i).snd fun g => ?_)
    cases r.layout.methodSlot? g.id with
    | some slot =>
      refine Surroundings.thisLocation_meets.snd fun _ => ?_
      refine (Expr.eval_all_meets args h).fst fun _ => ?_
      exact (callMethod_sound _ _ _ _).meets
    | none => exact (Expr.eval_all_meets args h).fst fun _ => (callFunction_sound _ _ _).meets
  | .send n x i args, h => by
    obtain ⟨hx, ha⟩ := List.forall_mem_append.mp h
    unfold Expr.eval
    refine .noDouble ?_
    split
    next hl =>
      -- there are no arguments that could be left out
      obtain rfl : args = [] := (List.forall_mem_cons.mp hx).1 hl
      refine (needed_meets rfl x.eval_meets hx).bind fun _ => ?_
      refine (load_runs _ _).meets.snd fun _ => ?_
      exact done_meets _
    · refine (Surroundings.callee_meets n i).snd fun g => ?_
      refine (Surroundings.noInterfaceCall_meets n _ i).snd fun _ => ?_
      refine (needed_meets rfl x.eval_meets hx).bind fun _ => ?_
      refine (Expr.eval_all_meets args ha).fst fun _ => ?_
      refine (required_meets rfl _).snd fun _ => ?_
      exact (callMethod_sound _ _ _ _).meets

/-- A place is found only if it is one, and everything is met that is needed to find it. -/
theorem Expr.target_meets : ∀ (e : Expr) {q : Purpose}, q.stores = true →
    (∀ x ∈ (⟨q, e⟩ :: e.needs : List Need), x.Plain r.notes) →
      (e.target r).Meets r.notes (⟨q, e⟩ :: e.needs)
  | .name _ i, _, hq, _ => by
    unfold Expr.target
    exact Expr.target_met hq trivial (Surroundings.ofName_meets i)
  | .field _ x i, _, hq, h => by
    have h := (List.forall_mem_cons.mp h).2
    unfold Expr.target
    exact Expr.target_met hq trivial ((needed_meets rfl x.eval_meets h).fst fun _ =>
      Surroundings.ofField_meets i _)
  -- the array and the index are values that are needed in turn
  | .index _ x y, _, hq, h => by
    obtain ⟨hx, hy⟩ := List.forall_mem_append.mp (List.forall_mem_cons.mp h).2
    unfold Expr.target
    exact Expr.target_met hq trivial ((needed_meets rfl x.eval_meets hx).bind fun _ =>
      (needed_meets rfl y.eval_meets hy).fst fun _ => (elementTarget_runs _ _).meets)
  | .int _ _, _, hq, _ | .bool _ _, _, hq, _ | .null _, _, hq, _ | .string _ _, _, hq, _
  | .double _, _, hq, _ | .readInteger _, _, hq, _ | .readLine _, _, hq, _ | .this _, _, hq, _
  | .binary _ _ _ _, _, hq, _ | .unary _ _ _, _, hq, _ | .step _ _ _, _, hq, _
  | .assign _ _ _, _, hq, _ | .new _ _, _, hq, _ | .newArray _ _ _, _, hq, _
  | .call _ _ _, _, hq, _ | .send _ _ _ _, _, hq, _ => by
    unfold Expr.target
    exact Expr.target_unmet hq not_false

/-- Arguments are evaluated only if everything is met that is needed for them. -/
theorem Expr.eval_all_meets {call : Expr} {i : Ident} {k : Nat} : ∀ es : List Expr,
    (∀ x ∈ Expr.argNeeds call i k es, x.Plain r.notes) →
      (Expr.evalAll r es).Meets r.notes (Expr.argNeeds call i k es)
  | [], _ => by
    unfold Expr.evalAll
    exact done_meets _
  | e :: es, h => by
    obtain ⟨he, hs⟩ := List.forall_mem_append.mp h
    unfold Expr.evalAll
    refine (needed_meets rfl e.eval_meets he).bind fun _ => ?_
    refine (Expr.eval_all_meets es hs).fst fun _ => ?_
    exact done_meets _

end

/-- A value is there only if everything is met that is needed for it. -/
theorem Expr.value_meets (e : Expr) (hq : q.stores = false)
    (h : ∀ x ∈ (⟨q, e⟩ :: e.needs : List Need), x.Plain r.notes) :
    (e.value r).Meets r.notes (⟨q, e⟩ :: e.needs) := Expr.needed_meets hq e.eval_meets h

end

/-! ## 4. Statements -/

section

variable {r : Surroundings} {t : TypeExpr}

theorem printer_meets (s : Span) (u : Ty) : (printer s u).Meets r.notes [] := by
  cases u <;> first | exact done_meets _ | exact .refuse rfl

theorem builtin_meets (b : Code.Builtin) (args : List Location) :
    (Emit.builtin b args).Meets r.notes [] := by
  by_cases h : args.length = b.argCount
  · exact (builtin_sound h).meets
  · unfold Emit.builtin
    rw [if_pos h]
    exact .refuse rfl

/-- Each value that is printed is needed. -/
theorem Expr.print_meets : ∀ es : List Expr, (∀ x ∈ Expr.printNeeds es, x.Plain r.notes) →
    (print r es).Meets r.notes (Expr.printNeeds es)
  | [], _ => done_meets _
  | e :: es, h => by
    obtain ⟨he, hs⟩ := List.forall_mem_append.mp h
    unfold print
    refine (printer_meets _ _).snd fun _ => ?_
    refine (e.value_meets rfl he).bind fun _ => ?_
    refine (builtin_meets _ _).snd fun _ => ?_
    exact Expr.print_meets es hs

/-- A value that may be missing is not needed. -/
theorem Expr.eval_opt_meets {e : Option Expr} (h : ∀ x ∈ Expr.needsOpt e, x.Plain r.notes) :
    (evalOpt r e).Meets r.notes (Expr.needsOpt e) := by
  cases e with
  | none => exact done_meets _
  | some e => exact (e.eval_meets h).fst fun _ => done_meets _

/-- A value that is given back is needed. -/
theorem Expr.give_back_meets {e : Option Expr}
    (h : ∀ x ∈ Expr.returnNeeds t e, x.Plain r.notes) :
    (giveBack r e).Meets r.notes (Expr.returnNeeds t e) := by
  cases e with
  | none => exact (instr_runs _).meets
  | some e => exact (e.value_meets rfl h).fst fun _ => (instr_runs _).meets

mutual

/-- **A statement gets code only if everything is met that is needed in it.** -/
theorem Stmt.lower_meets : ∀ (s : Stmt) (r : Surroundings),
    (∀ x ∈ s.needs t, x.Plain r.notes) → (s.lower r).Meets r.notes (s.needs t)
  | .block b, r, h => by
    unfold Stmt.lower
    exact b.lower_meets r h
  | .ifThen _ e s, r, h => by
    obtain ⟨he, hs⟩ := List.forall_mem_append.mp h
    unfold Stmt.lower
    refine (e.value_meets rfl he).bind fun _ => ?_
    refine newLabel_runs.meets.snd fun _ => ?_
    refine (instr_runs _).meets.snd fun _ => ?_
    refine (s.lower_meets r hs).fst fun _ => ?_
    exact (instr_runs _).meets
  | .ifElse _ e s o, r, h => by
    obtain ⟨h, ho⟩ := List.forall_mem_append.mp h
    obtain ⟨he, hs⟩ := List.forall_mem_append.mp h
    unfold Stmt.lower Stmt.needs
    -- the needs stand in the order of the syntax, grouped like the steps
    rw [List.append_assoc]
    refine (e.value_meets rfl he).bind fun _ => ?_
    refine newLabel_runs.meets.snd fun _ => ?_
    refine (instr_runs _).meets.snd fun _ => ?_
    refine (s.lower_meets r hs).bind fun _ => ?_
    refine newLabel_runs.meets.snd fun _ => ?_
    refine (instr_runs _).meets.snd fun _ => ?_
    refine (instr_runs _).meets.snd fun _ => ?_
    refine (o.lower_meets r ho).fst fun _ => ?_
    exact (instr_runs _).meets
  | .while _ e s, r, h => by
    obtain ⟨he, hs⟩ := List.forall_mem_append.mp h
    unfold Stmt.lower
    refine newLabel_runs.meets.snd fun _ => ?_
    refine newLabel_runs.meets.snd fun l => ?_
    refine (instr_runs _).meets.snd fun _ => ?_
    refine (e.value_meets rfl he).bind fun _ => ?_
    refine (instr_runs _).meets.snd fun _ => ?_
    refine (s.lower_meets (r.leavingTo l) hs).fst fun _ => ?_
    refine (instr_runs _).meets.snd fun _ => ?_
    exact (instr_runs _).meets
  | .for _ i e u s, r, h => by
    obtain ⟨h, hu⟩ := List.forall_mem_append.mp h
    obtain ⟨h, hs⟩ := List.forall_mem_append.mp h
    obtain ⟨hi, he⟩ := List.forall_mem_append.mp h
    unfold Stmt.lower Stmt.needs
    rw [List.append_assoc, List.append_assoc]
    refine (Expr.eval_opt_meets hi).bind fun _ => ?_
    refine newLabel_runs.meets.snd fun _ => ?_
    refine newLabel_runs.meets.snd fun l => ?_
    refine (instr_runs _).meets.snd fun _ => ?_
    refine (e.value_meets rfl he).bind fun _ => ?_
    refine (instr_runs _).meets.snd fun _ => ?_
    refine (s.lower_meets (r.leavingTo l) hs).bind fun _ => ?_
    refine (Expr.eval_opt_meets hu).fst fun _ => ?_
    refine (instr_runs _).meets.snd fun _ => ?_
    exact (instr_runs _).meets
  | .switch _ e cs, r, h => by
    obtain ⟨he, hs⟩ := List.forall_mem_append.mp h
    unfold Stmt.lower
    refine (e.value_meets rfl he).bind fun _ => ?_
    refine newLabel_runs.meets.snd fun l => ?_
    -- there is a label for every arm
    have hlen : (Emit.newLabels cs.length).Ends fun ls => ls.length = cs.length := fun _ _ =>
      newLabels_length
    refine (newLabels_runs cs.length).meets.bind_of hlen fun ls hn => ?_
    refine (dispatch_runs _ _).meets.snd fun _ => ?_
    refine (instr_runs _).meets.snd fun _ => ?_
    refine (Case.lower_all_meets cs ls (r.leavingTo l) hn hs).fst fun _ => ?_
    exact (instr_runs _).meets
  | .break _, r, _ => by
    unfold Stmt.lower
    exact (required_meets rfl _).snd fun _ => (instr_runs _).meets
  | .ret _ _, r, h => by
    unfold Stmt.lower
    exact Expr.give_back_meets h
  | .print _ es, r, h => by
    unfold Stmt.lower
    exact Expr.print_meets es h
  | .expr e, r, h => by
    unfold Stmt.lower
    exact (e.eval_meets h).fst fun _ => done_meets _

/-- **The code of a block is written only if its needs are met.** -/
theorem Block.lower_meets : ∀ (b : Block) (r : Surroundings),
    (∀ x ∈ b.needs t, x.Plain r.notes) → (b.lower r).Meets r.notes (b.needs t)
  | ⟨_, ls, ss⟩, r, h => by
    unfold Block.lower
    refine (withLocals_sound r ls).meets.bind_of (withLocals_sound r ls).ends_in
      fun r' ⟨_, hg⟩ => ?_
    -- the variables of the block change nothing in the notes
    rw [← hg.notes_eq] at h ⊢
    exact Stmt.lower_all_meets ss r' h

/-- The same for statements in a row. -/
theorem Stmt.lower_all_meets : ∀ (ss : List Stmt) (r : Surroundings),
    (∀ x ∈ Stmt.needsAll t ss, x.Plain r.notes) →
      (Stmt.lowerAll ss r).Meets r.notes (Stmt.needsAll t ss)
  | [], _, _ => by
    unfold Stmt.lowerAll
    exact done_meets _
  | s :: ss, r, h => by
    obtain ⟨hs, hr'⟩ := List.forall_mem_append.mp h
    unfold Stmt.lowerAll
    exact (s.lower_meets r hs).bind fun _ => Stmt.lower_all_meets ss r hr'

/-- The same for the arms of a switch. -/
theorem Case.lower_all_meets : ∀ (cs : List Case) (ls : List Label) (r : Surroundings),
    ls.length = cs.length → (∀ x ∈ Case.needsAll t cs, x.Plain r.notes) →
      (Case.lowerAll cs ls r).Meets r.notes (Case.needsAll t cs)
  | [], _, _, _, _ => by
    unfold Case.lowerAll
    exact done_meets _
  | _ :: _, [], _, hn, _ => nomatch hn
  | ⟨_, ss⟩ :: cs, _ :: ls, r, hn, h => by
    obtain ⟨hs, hr'⟩ := List.forall_mem_append.mp h
    unfold Case.lowerAll Case.lower
    refine (instr_runs _).meets.snd fun _ => ?_
    refine (Stmt.lower_all_meets ss r hs).bind fun _ => ?_
    exact Case.lower_all_meets cs ls r (Nat.succ.inj hn) hr'

end

/-! ## 5. Programs -/

/-- The same for a body that may be missing. -/
theorem Block.lower_opt_meets {b : Option Block}
    (h : ∀ x ∈ Block.needsOpt t b, x.Plain r.notes) :
    (Block.lowerOpt b r).Meets r.notes (Block.needsOpt t b) := by
  cases b with
  | none => exact done_meets _
  | some b => exact b.lower_meets r h

/-- The code of a function is written only if everything is met that is needed in it. -/
theorem FnDecl.lower_body_meets (g : FnDecl) (h : ∀ x ∈ g.needs, x.Plain r.notes) (m : Bool) :
    (g.lowerBody r m).Meets r.notes g.needs := by
  have hbody : ∀ r' : Surroundings, r'.notes = r.notes →
      (Block.lowerOpt g.body r').Meets r.notes g.needs := fun r' e => by
    rw [← e] at h ⊢
    exact Block.lower_opt_meets h
  unfold FnDecl.lowerBody
  exact (Program.withThis_sound r m).meets.bind_of (Program.withThis_sound r m).ends_in
    fun r₁ ⟨h₁, _⟩ => (withFormals_sound r₁ g.formals).meets.bind_of
      (withFormals_sound r₁ g.formals).ends_in fun r₂ ⟨_, h₂⟩ => hbody r₂ (h₂.notes_eq.trans h₁)

/-- **The code of methods is written only if all their needs are met.** -/
theorem FnDecl.lower_methods_meets {name : String} : ∀ gs : List FnDecl,
    (∀ x ∈ gs.flatMap FnDecl.needs, x.Plain r.notes) →
      (FnDecl.lowerMethods name r gs).Meets r.notes (gs.flatMap FnDecl.needs)
  | [], _ => done_meets _
  | g :: gs, h => by
    obtain ⟨hg, hgs⟩ := List.forall_mem_append.mp h
    exact (function_meets (g.lower_body_meets hg true)).bind fun _ =>
      FnDecl.lower_methods_meets gs hgs

/-- **Declarations get code only if everything is met that is needed in them.** -/
theorem Decl.lower_all_meets : ∀ ds : List Decl,
    (∀ x ∈ ds.flatMap Decl.needs, x.Plain r.notes) →
      (Decl.lowerAll r ds).Meets r.notes (ds.flatMap Decl.needs)
  | [], _ => done_meets _
  | .fn g :: ds, h => by
    obtain ⟨hg, hds⟩ := List.forall_mem_append.mp h
    exact (function_meets (g.lower_body_meets hg false)).bind fun _ =>
      Decl.lower_all_meets ds hds
  | .cls c :: ds, h => by
    obtain ⟨hc, hds⟩ := List.forall_mem_append.mp h
    have hcls : (c.lower r).Meets r.notes (c.methods.flatMap FnDecl.needs) :=
      (FnDecl.lower_methods_meets c.methods hc).fst fun _ => (required_meets rfl _).snd
        fun _ => (instr_runs _).meets
    exact hcls.bind fun _ => Decl.lower_all_meets ds hds
  | .var _ :: ds, h => Decl.lower_all_meets ds h
  | .iface _ :: ds, h => Decl.lower_all_meets ds h

/-- Where a global has no slot, nothing is said about a need. -/
theorem withGlobals_aside {vs : List VarDecl} {e : Refusal} (h : withGlobals r vs = .error e) :
    e.aboutNeed = false := by
  induction vs generalizing r with
  | nil => cases h
  | cons v vs ih =>
    unfold withGlobals at h
    split at h
    · exact ih h
    · cases h
      rfl

end

namespace Program

variable {p : Program} {l : Layout}

/-- **A program gets code only if everything is met that is needed in it,** and something is said
about a need only if one is not met. -/
theorem lower_meets (h : ∀ x ∈ p.needs, x.Plain p.analyze.notes) :
    (∀ code, p.lower p.analyze.notes l = .ok code → ∀ x ∈ p.needs, ¬ x.Unmet p.analyze.notes) ∧
      ∀ d, p.lower p.analyze.notes l = .error (.refusal (.internal d)) → d.aboutNeed = true →
        ∃ x ∈ p.needs, x.Unmet p.analyze.notes ∧ d = x.defect := by
  unfold lower
  split
  · cases hg : withGlobals ⟨p.analyze.notes, l, [], none, none⟩ (p.decls.filterMap Decl.var?) with
    | error e =>
      refine ⟨nofun, fun d hd hn => ?_⟩
      cases hd
      -- room for global variables is never about a need
      exact nomatch hn.symm.trans (withGlobals_aside hg)
    | ok r =>
      have hr : r.notes = p.analyze.notes := (withGlobals_within hg).notes_eq
      have hm : (Decl.lowerAll r p.decls).Meets p.analyze.notes p.needs := by
        rw [← hr] at h ⊢
        exact Decl.lower_all_meets p.decls h
      dsimp only
      cases hl : Decl.lowerAll r p.decls .empty with
      | error e =>
        refine ⟨nofun, fun d hd hn => ?_⟩
        cases hd
        exact hm.unmet _ d hl hn
      | ok o => exact ⟨fun _ _ => hm.met _ o hl, nofun⟩
  · exact ⟨nofun, nofun⟩

/-! ## 6. Values that are missing -/

/-- A call of the type `void`. -/
def VoidCall (p : Program) (e : Expr) : Prop := e.IsCall ∧ p.analyze.notes.typeOf e = .void

instance : DecidablePred p.VoidCall := fun _ => inferInstanceAs (Decidable (_ ∧ _))

/-- What has no value is of the type `void`, if its type is known. -/
theorem Clean.void_call (h : p.Clean) {x : Need} (hx : x ∈ p.needs)
    (hv : x.expr.Valueless p.analyze.notes) :
    p.VoidCall x.expr ∨ ¬ p.Flat ∧ p.analyze.notes.typeOf x.expr = .error :=
  ((h.needs_fair hx).telling.void hv).imp_left fun e => ⟨hv.is_call, e⟩

/-- **Where something of the type `void` stands for a value.** The checker accepts it for a place
that is lax, and elsewhere only where classes are nested and what it meets has no known type. It
has a value unless it is a call; a program where one is needed that has none gets no code, and the
back end says that a value is missing only where one is. -/
theorem Clean.voids_accepted (h : p.Clean) :
    (∀ x ∈ p.needs, p.analyze.notes.typeOf x.expr = .void → x.purpose.Lax p.analyze.notes ∨
      ¬ p.Flat ∧ x.purpose.Vague p.analyze.resolved.notes p.analyze.notes) ∧
    (∀ r, r.notes = p.analyze.notes → ∀ x ∈ p.needs, ∀ s o, x.expr.eval r s = .ok o →
      (p.VoidCall x.expr → o.value = none) ∧ (o.value = none → p.VoidCall x.expr ∨
        ¬ p.Flat ∧ p.analyze.notes.typeOf x.expr = .error)) ∧
    ∀ l, (∀ code, p.lower p.analyze.notes l = .ok code → ∀ x ∈ p.needs, ¬ p.VoidCall x.expr) ∧
      ∀ sp, p.lower p.analyze.notes l = .error (.refusal (.internal (.noValue sp))) →
        ∃ x ∈ p.needs, x.purpose.stores = false ∧ x.expr.span = sp ∧ (p.VoidCall x.expr ∨
          ¬ p.Flat ∧ p.analyze.notes.typeOf x.expr = .error) := by
  refine ⟨fun x hx => (h.needs_fair hx).lax, fun r hr x hx s o ho => ?_, fun l => ?_⟩
  · have hv := x.expr.eval_value r s o ho
    have ht := (h.needs_fair hx).telling
    rw [hr] at hv
    exact ⟨fun ⟨hc, he⟩ => hv.mpr (ht.valueless hc he), fun hn => h.void_call hx (hv.mp hn)⟩
  · obtain ⟨hmet, hunmet⟩ := lower_meets (l := l) fun x hx => (h.needs_fair hx).plain
    refine ⟨fun code hok x hx hvoid => hmet code hok x hx ?_, fun sp he => ?_⟩
    · unfold Need.Unmet
      split
      · exact hvoid.1.not_target
      · exact (h.needs_fair hx).telling.valueless hvoid.1 hvoid.2
    -- the refusal speaks of a missing value, so it is about a need for one
    · obtain ⟨x, hx, hu, hd⟩ := hunmet _ he rfl
      cases hq : x.purpose.stores with
      | true => exact nomatch hd.trans (Need.defect_place hq)
      | false =>
        cases hd.trans (Need.defect_value hq)
        exact ⟨x, hx, hq, rfl, h.void_call hx ((Need.unmet_value hq).mp hu)⟩

end Program

/-- What a program is refused for. -/
def Program.refusal? (p : Program) (o : Options) : Option Refusal :=
  match (p.compile o).result with
  | .error e => some e
  | .ok _ => none

/-- What refuses a program is what compiling it ends with. -/
theorem Program.of_refusal? {p : Program} {o : Options} {e : Refusal} (h : p.refusal? o = some e) :
    (p.compile o).result = .error e := by
  unfold refusal? at h
  split at h
  next he =>
    cases h
    exact he
  · cases h

/-- Calls of functions without a result in all places where the checker accepts them. -/
def lounge : Program := .number [
  .fn ⟨.nowhere, .called "rest", .prim 0 .void, [], some .empty⟩,
  .fn ⟨.nowhere, .called "wait", .prim 0 .void, [void "x"], some .empty⟩,
  .fn ⟨.nowhere, .called "main", .prim 0 .void, [], some ⟨.nowhere, [void "v"], [
    .expr (.binary .nowhere .equal rest rest),
    .set (.use "v") rest,
    .expr (.call .nowhere (.called "wait") [rest]),
    .switch .nowhere rest [],
    .ret .nowhere (some rest)]⟩⟩]
where
  void (s : String) : VarDecl := .called s (.prim 0 .void)
  rest : Expr := .call .nowhere (.called "rest") []

/-- Everything that stands for a value here is of the type `void` and accepted. There is no code. -/
theorem voids_accepted_lounge : lounge.Clean ∧ lounge.Flat ∧ lounge.needs.length = 7 ∧
    (∀ x ∈ lounge.needs, lounge.analyze.notes.typeOf x.expr = .void ∧
      x.purpose.Lax lounge.analyze.notes) ∧
    ∀ l code, lounge.lower lounge.analyze.notes l ≠ .ok code := by
  have hclean : lounge.Clean :=
    ⟨Program.number_numbered _, List.isEmpty_iff.mp (by decide +kernel)⟩
  have hflat : lounge.Flat := of_decide_eq_true rfl
  have hvoid : ∀ x ∈ lounge.needs, lounge.analyze.notes.typeOf x.expr = .void := by
    decide +kernel
  obtain ⟨x, hx, hcall⟩ : ∃ x ∈ lounge.needs, lounge.VoidCall x.expr := by decide +kernel
  obtain ⟨hlax, -, hcode⟩ := hclean.voids_accepted
  refine ⟨hclean, hflat, by decide +kernel, fun x hx => ⟨hvoid x hx, ?_⟩, fun l code h => ?_⟩
  · exact (hlax x hx (hvoid x hx)).resolve_right fun h => h.1 hflat
  · exact (hcode l).1 code h x hx hcall

/-- In a clean program a call of a function without a result may stand for a value. The back end
finds none. -/
theorem not_voids_refused_lounge : lounge.Clean ∧
    (∃ x ∈ lounge.needs, x.purpose.stores = false ∧ lounge.VoidCall x.expr) ∧
    (lounge.compile ⟨.threeAddress, false⟩).result = .error (.internal (.noValue .nowhere)) :=
  ⟨⟨Program.number_numbered _, List.isEmpty_iff.mp (by decide +kernel)⟩, by decide +kernel,
    Program.of_refusal? (by decide +kernel)⟩

end DecafLang
