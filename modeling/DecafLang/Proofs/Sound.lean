import DecafLang.Lowering.Values

/-!
# Steps without defects

`Emit.Sound A m Q` says that the steps `m` **never find a defect** but those that `A` allows: they
end with a value that has the property `Q`, or they refuse a construct that has no code.

* A defect that may be allowed is that a value is missing where one is needed, or that something is
  assigned to that cannot be (`Lenient`).
* Steps in a row are sound if each is sound, given what the ones before it have ended with.
* The pieces of code for values that are at hand are sound without conditions, apart from those
  that need the layout.
-/

namespace DecafLang

/-- The refusal of a construct that has no code, or for a defect that is allowed. -/
def Refusal.Within (A : Defect → Prop) : Refusal → Prop
  | .double _ => True
  | .interfaceCall _ _ _ => True
  | .cyclicInheritance _ _ => False
  | .internal d => A d

/-- Something is said about what an expression is needed for: it has no value, or nothing can be
assigned to it. -/
def Defect.aboutNeed : Defect → Bool
  | .noValue _ => true
  | .notAssignable _ => true
  | _ => false

/-- Whatever is said about a need is allowed. -/
def Lenient (A : Defect → Prop) : Prop := ∀ d, d.aboutNeed = true → A d

namespace Code.Emit

variable {α β : Type} {m : Emit α} {k : α → Emit β} {Q R : α → Prop} {P : β → Prop}
  {A : Defect → Prop}

/-! ## 1. Sound steps -/

/-- What the steps end with: a value of this property, or a refusal that is allowed. -/
def EndsIn (A : Defect → Prop) (Q : α → Prop) : Except Refusal (Emitted α) → Prop
  | .ok x => Q x.value
  | .error e => e.Within A

/-- The steps end with a value of this property, refuse a construct that has no code, or find a
defect that is allowed. -/
structure Sound (A : Defect → Prop) (m : Emit α) (Q : α → Prop) : Prop where
  ends : ∀ s, EndsIn A Q (m s)

/-- The steps find no defect but those that are allowed. -/
def Runs (A : Defect → Prop) (m : Emit α) : Prop := m.Sound A fun _ => True

namespace Sound

/-- To give a value that has the property is sound. -/
theorem done {a : α} (h : Q a) : (pure a : Emit α).Sound A Q := ⟨fun _ => h⟩

/-- A weaker property will do. -/
theorem mono (h : m.Sound A Q) (hq : ∀ a, Q a → R a) : m.Sound A R := ⟨fun s => by
  have hs := h.ends s
  cases e : m s with
  | error r =>
    rw [e] at hs
    exact hs
  | ok x =>
    rw [e] at hs
    exact hq _ hs⟩

/-- Who does not ask for the value asks for no property. -/
theorem runs (h : m.Sound A Q) : m.Runs A := h.mono fun _ _ => trivial

/-- What comes next may use what came of the steps before. -/
theorem bind (h : m.Sound A Q) (hk : ∀ a, Q a → (k a).Sound A P) : (m >>= k).Sound A P := by
  refine ⟨fun s => ?_⟩
  have hs := h.ends s
  show EndsIn A P (andThen m k s)
  unfold andThen
  cases e : m s with
  | error r =>
    rw [e] at hs
    exact hs
  | ok x =>
    rw [e] at hs
    -- only where the first step gives a value does the second one matter
    have hx := (hk x.value hs).ends x.supply
    dsimp only
    cases e' : k x.value x.supply with
    | error r =>
      rw [e'] at hx
      exact hx
    | ok y =>
      rw [e'] at hx
      exact hx

end Sound

/-- What comes next need not know what came before. -/
theorem Runs.bind (h : m.Runs A) (hk : ∀ a, (k a).Sound A P) : (m >>= k).Sound A P :=
  Sound.bind h fun a _ => hk a

/-- To give a value is no defect. -/
theorem runs_done (a : α) : (pure a : Emit α).Runs A := Sound.done trivial

/-- A refusal is sound if it is allowed. -/
theorem refuse_sound {r : Refusal} (h : r.Within A) : (refuse r : Emit α).Sound A Q :=
  ⟨fun _ => h⟩

/-- What has to be there is there. -/
theorem required_sound {d : Defect} {o : Option α} (h : o.isSome = true) :
    (required d o).Sound A fun a => o = some a := by
  obtain ⟨a, rfl⟩ := Option.isSome_iff_exists.mp h
  exact .done rfl

/-- A value that is needed is there, or it may be missing. -/
theorem needed_runs {sp : Span} {m : Emit (Option α)} {q : Prop}
    (h : m.Sound A fun o => q → o.isSome = true) (hq : Lenient A ∨ q) :
    (needed (.noValue sp) m).Runs A := h.bind fun o ho => by
  cases o with
  | some v => exact runs_done v
  | none => exact refuse_sound (hq.elim (fun hA => hA _ rfl) fun hq => nomatch ho hq)

/-! ## 2. Slots, names and values -/

/-- To write an instruction is no defect. -/
theorem instr_runs (i : Instr) : (instr i).Runs A := ⟨fun _ => trivial⟩

/-- Nor is it to hand out the word of a formal, … -/
theorem newParam_runs (n : String) : (newParam n).Runs A := ⟨fun _ => trivial⟩

/-- … a temporary, … -/
theorem temp_runs : temp.Runs A := ⟨fun _ => trivial⟩

/-- … a label, … -/
theorem newLabel_runs : newLabel.Runs A := ⟨fun _ => trivial⟩

/-- … or several labels. -/
theorem newLabels_runs (n : Nat) : (newLabels n).Runs A := by
  induction n with
  | zero => exact runs_done _
  | succ n ih =>
    refine newLabel_runs.bind fun _ => ?_
    refine ih.bind fun _ => ?_
    exact runs_done _

/-- A value that goes to a temporary of its own is written without a defect. -/
theorem toTemp_runs (i : Location → Instr) : (toTemp i).Runs A := by
  refine temp_runs.bind fun word => ?_
  refine (instr_runs _).bind fun _ => ?_
  exact runs_done _

theorem constant_runs (v : Int32) : (constant v).Runs A := toTemp_runs _

theorem string_runs (v : String) : (string v).Runs A := toTemp_runs _

theorem address_runs (l : Label) : (address l).Runs A := toTemp_runs _

theorem load_runs (src : Location) (o : Int) : (load src o).Runs A := toTemp_runs _

theorem op_runs (o : Op) (l r : Location) : (op o l r).Runs A := toTemp_runs _

/-! ## 3. Calls -/

/-- There is a word for the result if there is a result. -/
theorem resultSlot_sound (b : Bool) :
    (resultSlot b).Sound A fun o => b = true → o.isSome = true := by
  cases b with
  | false => exact .done nofun
  | true => exact ⟨fun _ _ => rfl⟩

/-- A call leaves a value if the function has a result. -/
theorem call_sound (l : Label) (b : Bool) :
    (call l b).Sound A fun o => b = true → o.isSome = true := by
  refine (resultSlot_sound b).bind fun result ho => ?_
  refine (instr_runs _).bind fun _ => ?_
  exact .done ho

/-- So does a call through an address. -/
theorem callVia_sound (a : Location) (b : Bool) :
    (callVia a b).Sound A fun o => b = true → o.isSome = true := by
  refine (resultSlot_sound b).bind fun result ho => ?_
  refine (instr_runs _).bind fun _ => ?_
  exact .done ho

/-- To push arguments is no defect. -/
theorem pushAll_runs (ps : List Location) : (pushAll ps).Runs A := by
  induction ps with
  | nil => exact runs_done _
  | cons p ps ih => exact (instr_runs _).bind fun _ => ih

/-- To take them back is none. -/
theorem pop_runs (n : Int) : (pop n).Runs A := by
  unfold pop
  split
  · exact instr_runs _
  · exact runs_done _

/-- **The runtime may be called with as many arguments as it asks for.** -/
theorem builtin_sound {b : Builtin} {args : List Location} (h : args.length = b.argCount) :
    (builtin b args).Sound A fun o => b.hasResult = true → o.isSome = true := by
  unfold builtin
  rw [if_neg (not_not_intro h)]
  refine (resultSlot_sound _).bind fun result ho => ?_
  refine (pushAll_runs _).bind fun _ => ?_
  refine (instr_runs _).bind fun _ => ?_
  refine (pop_runs _).bind fun _ => ?_
  exact .done ho

/-- To end the program with a message is no defect. -/
theorem abort_runs (t : String) : (abort t).Runs A := by
  refine (string_runs t).bind fun text => ?_
  refine (builtin_sound rfl).runs.bind fun _ => ?_
  refine (builtin_sound rfl).runs.bind fun _ => ?_
  exact runs_done _

/-- A function is written without a defect if its body is, in a frame of its own. -/
theorem function_runs {l : Label} {body : Emit Unit} (h : body.Runs A) : (function l body).Runs A :=
  ⟨fun s => by
    -- the body starts with a new frame, whatever was handed out before
    have hs := h.ends s.newFrame
    unfold function
    cases e : body s.newFrame with
    | error r =>
      rw [e] at hs
      exact hs
    | ok x => trivial⟩

end Code.Emit

/-! ## 4. Pieces of code -/

open Code (Emit Location Builtin)
open Code.Emit

variable {A : Defect → Prop}

/-- What lies at a place can be read, … -/
theorem Target.load_runs (t : Target) : t.load.Runs A := by
  cases t with
  | word l => exact runs_done l
  | behind p o => exact Emit.load_runs p o

/-- … and something else be put there. -/
theorem Target.store_runs (t : Target) (v : Location) : (t.store v).Runs A := by
  cases t with
  | word l => exact instr_runs _
  | behind p o => exact instr_runs _

-- The steps are gone through in the order in which they are written.
namespace Lowering

/-- A function of the runtime that has a result gives it. -/
theorem builtinValue_runs {b : Builtin} {args : List Location} (h : args.length = b.argCount)
    (hb : b.hasResult = true) : (builtinValue b args).Runs A := by
  unfold builtinValue
  exact (builtin_sound h).bind fun _ ho => (required_sound (ho hb)).runs

/-- A test that may end the program is written without a defect. -/
theorem haltUnlessZero_runs (t : Location) (m : String) : (haltUnlessZero t m).Runs A := by
  unfold haltUnlessZero
  refine newLabel_runs.bind fun ok => ?_
  refine (instr_runs _).bind fun _ => ?_
  refine (abort_runs m).bind fun _ => ?_
  exact instr_runs _

/-- So is the check of an index, … -/
theorem checkIndex_runs (a i : Location) : (checkIndex a i).Runs A := by
  unfold checkIndex
  refine (constant_runs _).bind fun zero => ?_
  refine (op_runs _ _ _).bind fun negative => ?_
  refine (load_runs _ _).bind fun length => ?_
  refine (op_runs _ _ _).bind fun below => ?_
  refine (op_runs _ _ _).bind fun pastEnd => ?_
  refine (op_runs _ _ _).bind fun invalid => ?_
  exact haltUnlessZero_runs _ _

/-- … the place of an element, … -/
theorem elementTarget_runs (a i : Location) : (elementTarget a i).Runs A := by
  unfold elementTarget
  refine (checkIndex_runs a i).bind fun _ => ?_
  refine (constant_runs _).bind fun word => ?_
  refine (op_runs _ _ _).bind fun scaled => ?_
  refine (op_runs _ _ _).bind fun offset => ?_
  refine (op_runs _ _ _).bind fun pointer => ?_
  exact runs_done _

/-- … and a new array. -/
theorem allocArray_runs (n : Location) : (allocArray n).Runs A := by
  unfold allocArray
  refine (constant_runs _).bind fun one => ?_
  refine (op_runs _ _ _).bind fun tooSmall => ?_
  refine (haltUnlessZero_runs _ _).bind fun _ => ?_
  refine (op_runs _ _ _).bind fun words => ?_
  refine (constant_runs _).bind fun word => ?_
  refine (op_runs _ _ _).bind fun bytes => ?_
  refine (builtinValue_runs rfl rfl).bind fun array => ?_
  refine (instr_runs _).bind fun _ => ?_
  exact runs_done _

/-- A class that is laid out has objects. -/
theorem allocObject_runs {r : Surroundings} {i : Ident}
    (h : (r.layout.class? i.name).isSome = true) : (allocObject r i).Runs A := by
  unfold allocObject
  refine (required_sound h).runs.bind fun laidOut => ?_
  refine (constant_runs _).bind fun size => ?_
  refine (builtinValue_runs rfl rfl).bind fun object => ?_
  refine (address_runs _).bind fun table => ?_
  refine (instr_runs _).bind fun _ => ?_
  exact runs_done _

/-- A call through a slot leaves a value if the method has a result. -/
theorem callMethod_sound (x : Location) (slot : Nat) (args : List Location) (b : Bool) :
    (callMethod x slot args b).Sound A fun o => b = true → o.isSome = true := by
  unfold callMethod
  refine (load_runs _ _).bind fun table => ?_
  refine (load_runs _ _).bind fun addr => ?_
  refine (pushAll_runs _).bind fun _ => ?_
  refine (instr_runs _).bind fun _ => ?_
  refine (callVia_sound _ b).bind fun result ho => ?_
  refine (pop_runs _).bind fun _ => ?_
  exact .done ho

/-- A call by a label leaves one if the function has a result. -/
theorem callFunction_sound (n : String) (args : List Location) (b : Bool) :
    (callFunction n args b).Sound A fun o => b = true → o.isSome = true := by
  unfold callFunction
  refine (pushAll_runs _).bind fun _ => ?_
  refine (call_sound _ b).bind fun result ho => ?_
  refine (pop_runs _).bind fun _ => ?_
  exact .done ho

/-- Operators between two values that are at hand are written without a defect, … -/
theorem binaryOp_runs (op : BinaryOp) (strings : Bool) (l r : Location) :
    (binaryOp op strings l r).Runs A := by
  unfold binaryOp
  split
  · exact builtinValue_runs rfl rfl
  · refine (builtinValue_runs rfl rfl).bind fun equal => ?_
    refine (constant_runs _).bind fun zero => ?_
    exact op_runs _ _ _
  · exact op_runs _ _ _

/-- … so are operators in front of one, … -/
theorem unaryOp_runs (op : UnaryOp) (v : Location) : (unaryOp op v).Runs A := by
  refine (constant_runs _).bind fun _ => ?_
  cases op with
  | neg => exact op_runs _ _ _
  | not => exact op_runs _ _ _

/-- … and steps. -/
theorem stepTarget_runs (op : StepOp) (t : Target) : (stepTarget op t).Runs A := by
  unfold stepTarget
  refine t.load_runs.bind fun current => ?_
  refine temp_runs.bind fun before => ?_
  refine (instr_runs _).bind fun _ => ?_
  refine (constant_runs _).bind fun one => ?_
  refine (op_runs _ _ _).bind fun updated => ?_
  refine (t.store_runs _).bind fun _ => ?_
  exact runs_done _

end Lowering

end DecafLang
