import DecafLang.Code.Instr

/-!
# Running three-address code

The machine that the code of one function runs on.

* A `Store` holds the words: those of the frame and of the globals by their offsets, all others
  by their addresses. Every word has 32 bits, and arithmetic wraps.
* `step` performs the instruction at the program counter. **A jump goes to the first label of its
  name in the code of the function;** `leave` and `ret` end the run.
* What lies outside the code (where texts and labels are, what a call does) is a `World`, which
  the machine is given.
* `Steps` counts the instructions of a run. Two runs from one configuration agree as far as both
  go (`Steps.halts_of_halts`).
-/

namespace DecafLang.Code

/-! ## 1. Storage -/

/-- The words a function can reach. -/
structure Store where
  frame : Int → Int32
  globals : Int → Int32
  /-- The words behind addresses. -/
  heap : Int32 → Int32
  /-- The words pushed for a call, the last one first. -/
  pushed : List Int32

namespace Store

/-- The word at a location. -/
def read (m : Store) : Location → Int32
  | .direct .frame o _ => m.frame o
  | .direct .globals o _ => m.globals o
  | .based b o _ => m.heap (m.read b + .ofInt o)

/-- The store with a word at a location. -/
def write (m : Store) (l : Location) (w : Int32) : Store :=
  match l with
  | .direct .frame o _ => { m with frame := fun p => if p = o then w else m.frame p }
  | .direct .globals o _ => { m with globals := fun p => if p = o then w else m.globals p }
  | .based b o _ =>
    { m with heap := fun a => if a = m.read b + .ofInt o then w else m.heap a }

/-- A word of the frame is read at its offset. -/
@[simp] theorem read_frame (m : Store) (o : Int) (n : String) :
    m.read (.frame o n) = m.frame o := by
  simp only [Location.frame, read]

/-- What is written is there afterwards. -/
@[simp] theorem frame_write_self (m : Store) (o : Int) (n : String) (w : Int32) :
    (m.write (.frame o n) w).frame o = w := if_pos rfl

/-- The words at other offsets stay. -/
theorem frame_write_of_ne {m : Store} {o p : Int} {n : String} {w : Int32} (h : p ≠ o) :
    (m.write (.frame o n) w).frame p = m.frame p := if_neg h

end Store

/-! ## 2. Operations -/

/-- The word of a truth value. -/
def truth (b : Bool) : Int32 := if b then 1 else 0

namespace Op

/-- The word that an operation gives. Comparisons give 0 or 1, and the logical operations go bit
by bit. -/
def word : Op → Int32 → Int32 → Int32
  | add, a, b => a + b
  | sub, a, b => a - b
  | mul, a, b => a * b
  | div, a, b => a / b
  | mod, a, b => a % b
  | eq, a, b => truth (a == b)
  | ne, a, b => truth (a != b)
  | lt, a, b => truth (a < b)
  | le, a, b => truth (a ≤ b)
  | gt, a, b => truth (b < a)
  | ge, a, b => truth (b ≤ a)
  | and, a, b => a &&& b
  | or, a, b => a ||| b

/-- Whether the operation divides. -/
def divides : Op → Bool
  | div => true
  | mod => true
  | _ => false

/-- Whether the operation has no result with this second operand. -/
def traps (o : Op) (b : Int32) : Bool := o.divides && b == 0

end Op

/-! ## 3. Instructions -/

/-- What a call leaves behind: its value, and the words that are not its caller's own. -/
structure Answer where
  value : Int32
  globals : Int → Int32
  heap : Int32 → Int32

/-- What lies outside the code of a function. -/
structure World where
  text : String → Int32
  address : Label → Int32
  /-- What the code at a label does in a store; it may never come back. -/
  atLabel : Label → Store → Option Answer
  /-- What the code at an address does in a store. -/
  atAddress : Int32 → Store → Option Answer

/-- The store after a call has come back. -/
def Answer.arrive (a : Answer) (m : Store) (dst : Option Location) : Store :=
  let m := { m with globals := a.globals, heap := a.heap }
  match dst with
  | some d => m.write d a.value
  | none => m

/-- The store after an instruction that is followed by the next one; the others have none. -/
def Instr.effect (w : World) (m : Store) : Instr → Option Store
  | const d v => some (m.write d v)
  | str d s => some (m.write d (w.text s))
  | addr d l => some (m.write d (w.address l))
  | copy d s => some (m.write d (m.read s))
  | load d s o => some (m.write d (m.heap (m.read s + .ofInt o)))
  | store d s o =>
    some { m with heap := fun a => if a = m.read d + .ofInt o then m.read s else m.heap a }
  | op o d l r =>
    if o.traps (m.read r) then none else some (m.write d (o.word (m.read l) (m.read r)))
  | label _ => some m
  | enter _ => some m
  | push p => some { m with pushed := m.read p :: m.pushed }
  | pop n => some { m with pushed := m.pushed.drop (n.toNat / 4) }
  | call l d => (w.atLabel l m).map fun a => a.arrive m d
  | callVia p d => (w.atAddress (m.read p) m).map fun a => a.arrive m d
  | jump _ => none
  | jumpIfZero _ _ => none
  | leave => none
  | ret _ => none
  | table _ _ => none

/-- The store after instructions that follow one another. -/
def effectAll (w : World) : List Instr → Store → Option Store
  | [], m => some m
  | i :: r, m => (i.effect w m).bind (effectAll w r)

/-- The effects of code behind code come one after the other. -/
theorem effectAll_append (w : World) (a b : List Instr) (m : Store) :
    effectAll w (a ++ b) m = (effectAll w a m).bind (effectAll w b) := by
  induction a generalizing m with
  | nil => rfl
  | cons i r ih =>
    show (i.effect w m).bind (effectAll w (r ++ b)) = _
    rw [funext fun m => ih m, ← Option.bind_assoc]
    rfl

/-! ## 4. Steps -/

/-- Where a run stands. -/
structure Config where
  pc : Nat
  store : Store

/-- How a run ends. -/
inductive Halt where
  /-- At the end of the function. -/
  | ended (m : Store)
  /-- At an instruction that gives control back, perhaps with a word. -/
  | returned (value : Option Int32) (m : Store)

/-- What one instruction comes to. -/
inductive Next where
  | goes (c : Config)
  | halts (h : Halt)
  | stuck

/-- The position of a label. -/
def position? (code : List Instr) (l : Label) : Option Nat := code.findIdx? (· == .label l)

/-- A jump to a label. -/
def jumpTo (code : List Instr) (l : Label) (m : Store) : Next :=
  match position? code l with
  | some pc => .goes ⟨pc, m⟩
  | none => .stuck

/-- Performs an instruction. -/
def Instr.perform (w : World) (code : List Instr) (c : Config) : Instr → Next
  | leave => .halts (.ended c.store)
  | ret v => .halts (.returned (v.map c.store.read) c.store)
  | jump l => jumpTo code l c.store
  | jumpIfZero t l =>
    if c.store.read t = 0 then jumpTo code l c.store else .goes ⟨c.pc + 1, c.store⟩
  | i =>
    match i.effect w c.store with
    | some m => .goes ⟨c.pc + 1, m⟩
    | none => .stuck

/-- Performs the instruction at the program counter. -/
def step (w : World) (code : List Instr) (c : Config) : Next :=
  match code[c.pc]? with
  | some i => i.perform w code c
  | none => .stuck

/-- So many instructions lead from one configuration to another. -/
inductive Steps (w : World) (code : List Instr) : Nat → Config → Config → Prop where
  | refl (c : Config) : Steps w code 0 c c
  | step {n : Nat} {c c' c'' : Config} :
    step w code c = .goes c' → Steps w code n c' c'' → Steps w code (n + 1) c c''

/-- The run from a configuration ends after so many instructions. -/
def HaltsIn (w : World) (code : List Instr) (n : Nat) (c : Config) (h : Halt) : Prop :=
  ∃ c', Steps w code n c c' ∧ step w code c' = .halts h

/-- **The run from the first instruction ends like this.** -/
def Runs (w : World) (code : List Instr) (m : Store) (h : Halt) : Prop :=
  ∃ n, HaltsIn w code n ⟨0, m⟩ h

section

variable {w : World} {code : List Instr} {n k : Nat} {c c' c'' : Config} {h h' : Halt}

theorem Steps.one (hs : Code.step w code c = .goes c') : Steps w code 1 c c' := .step hs (.refl _)

/-- A run goes on where another one ends. -/
theorem Steps.trans (h₁ : Steps w code n c c') (h₂ : Steps w code k c' c'') :
    Steps w code (n + k) c c'' := by
  induction h₁ with
  | refl => rwa [Nat.zero_add]
  | step hs _ ih =>
    -- the first step counts for the whole run
    rw [Nat.add_right_comm]
    exact .step hs (ih h₂)

/-- A run that leads to one that halts halts itself. -/
theorem HaltsIn.of_steps (hs : Steps w code n c c') (hh : HaltsIn w code k c' h) :
    HaltsIn w code (n + k) c h := by
  obtain ⟨d, hd, he⟩ := hh
  exact ⟨d, hs.trans hd, he⟩

/-- **A run that ends passes through every configuration that is reached on the way.** -/
theorem Steps.halts_of_halts (hs : Steps w code n c c') (hh : HaltsIn w code k c h) :
    n ≤ k ∧ HaltsIn w code (k - n) c' h := by
  induction hs generalizing k with
  | refl => exact ⟨Nat.zero_le _, hh⟩
  | step hstep _ ih =>
    obtain ⟨d, hd, he⟩ := hh
    cases hd with
    | refl => rw [hstep] at he; cases he
    | step hstep' hd =>
      rw [hstep] at hstep'
      cases hstep'
      obtain ⟨hle, hrest⟩ := ih ⟨d, hd, he⟩
      exact ⟨Nat.succ_le_succ hle, by rwa [Nat.succ_sub_succ]⟩

/-- A run ends in one way only. -/
theorem HaltsIn.unique (h₁ : HaltsIn w code n c h) (h₂ : HaltsIn w code k c h') : h = h' := by
  obtain ⟨d, hd, he⟩ := h₁
  obtain ⟨-, d', hd', he'⟩ := hd.halts_of_halts h₂
  generalize k - n = j at hd'
  cases hd' with
  | refl => rw [he] at he'; cases he'; rfl
  | step hs _ => rw [he] at hs; cases hs

/-- Two runs that cannot go on from where they have come to have come to the same place. -/
theorem Steps.eq_of_stuck {d d' : Config} (hd : Steps w code n c d) (hd' : Steps w code k c d')
    (hs : Code.step w code d = .stuck) (hs' : Code.step w code d' = .stuck) : d = d' := by
  induction hd generalizing k with
  | refl =>
    cases hd' with
    | refl => rfl
    | step h _ => rw [hs] at h; cases h
  | step h _ ih =>
    cases hd' with
    | refl => rw [hs'] at h; cases h
    | step h' hd' =>
      rw [h] at h'
      cases h'
      exact ih hd' hs

/-- Behind the last instruction the machine is stuck. -/
theorem step_end (m : Store) : Code.step w code ⟨code.length, m⟩ = .stuck := by
  simp [Code.step]

end

/-! ## 5. Pieces of code -/

/-- A piece of code stands in the code at a position. -/
def Occurs (code : List Instr) (k : Nat) (part : List Instr) : Prop :=
  ∀ i, i < part.length → code[k + i]? = part[i]?

namespace Occurs

variable {code a b : List Instr} {i : Instr} {k : Nat}

/-- What stands in the piece stands in the code. -/
theorem get (h : Occurs code k a) {j : Nat} (hj : a[j]? = some i) : code[k + j]? = some i := by
  rw [h j (List.getElem?_eq_some_iff.mp hj).1, hj]

/-- Code occurs where it stands between other code. -/
theorem of_append (before part after : List Instr) :
    Occurs (before ++ part ++ after) before.length part := by
  intro i hi
  rw [List.append_assoc, List.getElem?_append_right (by omega), Nat.add_sub_cancel_left,
    List.getElem?_append_left hi]

/-- **Code behind code occurs just when both parts occur behind each other.** -/
theorem append_iff : Occurs code k (a ++ b) ↔ Occurs code k a ∧ Occurs code (k + a.length) b := by
  constructor
  · intro h
    refine ⟨fun i hi => ?_, fun i hi => ?_⟩
    · rw [h i (by rw [List.length_append]; omega), List.getElem?_append_left hi]
    · rw [Nat.add_assoc, h (a.length + i) (by rw [List.length_append]; omega),
        List.getElem?_append_right (by omega), Nat.add_sub_cancel_left]
  · rintro ⟨ha, hb⟩ i hi
    -- an instruction of the whole stands in the first part or in the second
    by_cases h : i < a.length
    · rw [ha i h, List.getElem?_append_left h]
    · have e : k + i = k + a.length + (i - a.length) := by omega
      rw [List.length_append] at hi
      rw [e, hb _ (by omega), List.getElem?_append_right (by omega)]

/-- The first instruction is where the code begins. -/
theorem cons_iff : Occurs code k (i :: b) ↔ code[k]? = some i ∧ Occurs code (k + 1) b := by
  have h : Occurs code k [i] ↔ code[k]? = some i := by
    refine ⟨fun h => h 0 Nat.zero_lt_one, fun h j hj => ?_⟩
    obtain rfl : j = 0 := by simpa using hj
    exact h
  rw [← h]
  exact append_iff (a := [i])

end Occurs

section

variable {w : World} {code part : List Instr} {k : Nat} {m m' : Store}

/-- **An instruction with an effect goes on to the next one.** -/
theorem step_of_effect {i : Instr} (hi : code[k]? = some i) (he : i.effect w m = some m') :
    step w code ⟨k, m⟩ = .goes ⟨k + 1, m'⟩ := by
  simp only [step, hi]
  cases i with
  | leave => cases he
  | ret v => cases he
  | jump l => cases he
  | jumpIfZero t l => cases he
  | _ => simp only [Instr.perform, he]

/-- Instructions that follow one another run from the first to the one behind the last. -/
theorem Steps.of_effectAll (ho : Occurs code k part) (he : effectAll w part m = some m') :
    Steps w code part.length ⟨k, m⟩ ⟨k + part.length, m'⟩ := by
  induction part generalizing k m with
  | nil => cases he; exact .refl _
  | cons i r ih =>
    obtain ⟨hi, hr⟩ := Occurs.cons_iff.mp ho
    obtain ⟨m₁, h₁, h₂⟩ := Option.bind_eq_some_iff.mp he
    have e : k + (i :: r).length = k + 1 + r.length := by rw [List.length_cons]; omega
    rw [e]
    exact .step (step_of_effect hi h₁) (ih hr h₂)

/-- A jump goes to its label. -/
theorem step_jump {l : Label} {pc : Nat} (hi : code[k]? = some (.jump l))
    (hp : position? code l = some pc) : step w code ⟨k, m⟩ = .goes ⟨pc, m⟩ := by
  simp only [step, hi, Instr.perform, jumpTo, hp]

/-- On zero it goes to its label. -/
theorem step_jumpIfZero_of_eq {t : Location} {l : Label} {pc : Nat}
    (hi : code[k]? = some (.jumpIfZero t l)) (hp : position? code l = some pc)
    (ht : m.read t = 0) : step w code ⟨k, m⟩ = .goes ⟨pc, m⟩ := by
  simp only [step, hi, Instr.perform, jumpTo, hp, ht, if_true]

/-- On any other word it goes on. -/
theorem step_jumpIfZero_of_ne {t : Location} {l : Label}
    (hi : code[k]? = some (.jumpIfZero t l)) (ht : m.read t ≠ 0) :
    step w code ⟨k, m⟩ = .goes ⟨k + 1, m⟩ := by
  simp only [step, hi, Instr.perform, ht, if_false]

end

/-! ## 6. Labels -/

/-- The labels that stand in a piece of code. -/
def labelsOf (code : List Instr) : List Label :=
  code.filterMap fun
    | .label l => some l
    | _ => none

/-- The labels of code behind code. -/
theorem labelsOf_append (a b : List Instr) : labelsOf (a ++ b) = labelsOf a ++ labelsOf b :=
  List.filterMap_append

/-- A label that stands in the code once is where a jump to it goes. -/
theorem position?_eq {code : List Instr} {k : Nat} {l : Label} (hn : (labelsOf code).Nodup)
    (hk : code[k]? = some (.label l)) : position? code l = some k := by
  induction code generalizing k with
  | nil => cases hk
  | cons i r ih =>
    -- no label of the rest comes twice either
    have hr : (labelsOf r).Nodup := by
      refine hn.sublist ?_
      exact (List.sublist_cons_self i r).filterMap _
    cases k with
    | zero =>
      obtain rfl : i = .label l := by simpa using hk
      simp [position?, List.findIdx?_cons]
    | succ k =>
      have hk' : r[k]? = some (.label l) := by simpa using hk
      -- the label stands in the rest, so the first instruction is not it
      have hne : i ≠ .label l := by
        intro e
        subst e
        have hm : l ∈ labelsOf r :=
          List.mem_filterMap.mpr ⟨_, List.mem_of_getElem? hk', rfl⟩
        exact (List.nodup_cons.mp hn).1 hm
      have := ih hr hk'
      unfold position? at this ⊢
      simp [List.findIdx?_cons, hne, this]

end DecafLang.Code
