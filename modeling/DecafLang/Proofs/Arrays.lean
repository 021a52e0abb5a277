import DecafLang.Syntax.Handwritten
import DecafLang.Proofs.DefiniteAssignment

/-!
# Arrays in memory

What the code does that makes an array, and the code that goes to one of its elements, where words
have 32 bits and nothing is known of the runtime but that `_Halt` does not come back.

* An array without elements is refused, and so is an index that is not one of the array
  (`Aborts`): the message is printed, and nothing has been written.
* Otherwise `blockSize` bytes are asked for, the length is put into the first word, and an element
  lies at `elementOffset` behind it.
* **Both are computed in 32 bits, so the elements lie inside the block exactly where its size is
  below 2³²** (`Code.elements_inside_iff`). The length is checked to be positive only.
-/

namespace DecafLang

open Code (Answer Builtin Config Emit Emitted Instr Label Location Occurs Op Steps Store Supply
  World effectAll labelsOf truth)
open Code.Supply (localOffset tempName)
open Lowering

/-! ## 1. Sizes and offsets -/

namespace Code

/-- A word, taken without a sign. -/
def unsigned (x : Int32) : Nat := x.toUInt32.toNat

/-- The bytes that are asked for where an array of this length is made. -/
def blockSize (n : Int32) : Int32 := (n + 1) * 4

/-- Where an element lies behind the start of an array. -/
def elementOffset (k : Int32) : Int32 := k * 4 + 4

section

variable {n k x y : Int32}

theorem unsigned_add (x y : Int32) : unsigned (x + y) = (unsigned x + unsigned y) % 2 ^ 32 := by
  unfold unsigned
  rw [Int32.toUInt32_add, UInt32.toNat_add]

theorem unsigned_mul (x y : Int32) : unsigned (x * y) = unsigned x * unsigned y % 2 ^ 32 := by
  unfold unsigned
  rw [Int32.toUInt32_mul, UInt32.toNat_mul]

/-- A word that is not negative is the same number with a sign and without. -/
theorem unsigned_eq (h : 0 ≤ x) : (unsigned x : Int) = x.toInt ∧ unsigned x < 2 ^ 31 := by
  have h : 0 ≤ x.toInt := Int32.le_iff_toInt_le.mp h
  have hi : x.toInt = x.toBitVec.toInt := rfl
  have hu : unsigned x = x.toBitVec.toNat := rfl
  have hlt := x.toBitVec.isLt
  rw [hi, BitVec.toInt_eq_toNat_cond] at h ⊢
  rw [hu]
  split at h <;> split <;> omega

/-- Every smaller number is that of a word which is not negative. -/
theorem exists_below {j : Nat} (hn : 0 ≤ n) (hj : j < unsigned n) :
    ∃ k : Int32, 0 ≤ k ∧ k < n ∧ unsigned k = j := by
  obtain ⟨en, hlt⟩ := unsigned_eq hn
  have e : (Int32.ofNat j).toInt = j := Int32.toInt_ofNat_of_lt (Nat.lt_trans hj hlt)
  have h0 : 0 ≤ Int32.ofNat j := Int32.le_iff_toInt_le.mpr (by rw [e]; exact Int.natCast_nonneg j)
  refine ⟨Int32.ofNat j, h0, Int32.lt_iff_toInt_lt.mpr (by rw [e]; omega), ?_⟩
  have := (unsigned_eq h0).1
  omega

theorem unsigned_blockSize (n : Int32) :
    unsigned (blockSize n) = 4 * (unsigned n + 1) % 2 ^ 32 := by
  have h1 : unsigned 1 = 1 := rfl
  have h4 : unsigned 4 = 4 := rfl
  unfold blockSize
  rw [unsigned_mul, unsigned_add, h1, h4]
  omega

theorem unsigned_elementOffset (k : Int32) :
    unsigned (elementOffset k) = (4 + 4 * unsigned k) % 2 ^ 32 := by
  have h4 : unsigned 4 = 4 := rfl
  unfold elementOffset
  rw [unsigned_add, unsigned_mul, h4]
  omega

/-- The block has room for the length and the elements exactly where its size is below 2³². -/
theorem room_iff (hn : 0 < n) :
    4 * (n.toInt + 1) ≤ unsigned (blockSize n) ↔ n.toInt + 1 < 2 ^ 30 := by
  obtain ⟨e, -⟩ := unsigned_eq (Int32.le_of_lt hn)
  rw [unsigned_blockSize, ← e]
  omega

/-- Where the block has room, nothing wraps around. -/
theorem elementOffset_exact (hroom : n.toInt + 1 < 2 ^ 30) (h0 : 0 ≤ k) (hk : k < n) :
    (unsigned (elementOffset k) : Int) = 4 + 4 * k.toInt ∧
      unsigned (elementOffset k) + 4 ≤ unsigned (blockSize n) := by
  obtain ⟨ek, -⟩ := unsigned_eq h0
  obtain ⟨en, -⟩ := unsigned_eq (Int32.le_of_lt (Int32.lt_of_le_of_lt h0 hk))
  have hlt := Int32.lt_iff_toInt_lt.mp hk
  rw [unsigned_elementOffset, unsigned_blockSize]
  omega

/-- **All elements lie inside the block exactly where its size is below 2³².** -/
theorem elements_inside_iff (hn : 0 < n) :
    (∀ k, 0 ≤ k → k < n → unsigned (elementOffset k) + 4 ≤ unsigned (blockSize n)) ↔
      n.toInt + 1 < 2 ^ 30 := by
  obtain ⟨en, hlt⟩ := unsigned_eq (Int32.le_of_lt hn)
  refine ⟨fun h => ?_, fun hroom k h0 hk => (elementOffset_exact hroom h0 hk).2⟩
  -- otherwise there is an element right behind the block
  by_contra hlarge
  obtain ⟨k, h0, hk, e⟩ := exists_below (Int32.le_of_lt hn)
    (show (unsigned n + 1) % 2 ^ 30 - 1 < unsigned n by omega)
  have hin := h k h0 hk
  rw [unsigned_elementOffset, unsigned_blockSize, e] at hin
  omega

end

/-! ## 2. Locations that code leaves alone -/

/-- The location does not count from a word below the frame pointer from this position on. -/
def Location.Clear (x : Location) (k : Nat) : Prop :=
  ∀ j n, k ≤ j → x.root ≠ .frame (localOffset j) n

/-- The words of the temporaries that are handed out next. -/
def Supply.slotAt (s : Supply) (i : Nat) : Location :=
  .frame (localOffset (s.locals + i)) (tempName (s.temps + i))

/-- The supply without its next temporaries. -/
def Supply.afterTemps (s : Supply) (n : Nat) : Supply :=
  { s with locals := s.locals + n, temps := s.temps + n }

theorem toTemp_run (i : Location → Instr) (s : Supply) (n : Nat) :
    Emit.toTemp i (s.afterTemps n) = .ok ⟨s.slotAt n, [i (s.slotAt n)], s.afterTemps (n + 1)⟩ := rfl

section

variable {x : Location} {j k : Nat} {m m' : Store} {s : Supply} {w : Int32} {n : String}

theorem Location.Clear.mono (h : x.Clear k) (hk : k ≤ j) : x.Clear j :=
  fun i n hi => h i n (Nat.le_trans hk hi)

theorem Location.Clear.congr {y : Location} (h : x.Clear k) (e : y.root = x.root) : y.Clear k :=
  fun i n hi => e ▸ h i n hi

/-- A word of the frame in front of the position is not counted from behind it. -/
theorem Location.clear_local (h : j < k) : (Location.frame (localOffset j) n).Clear k :=
  fun i n' hi e => by
    have := Placing.localOffset_inj (Location.direct.inj e).2.1
    omega

theorem Store.read_write_clear (h : x.Clear k) (hj : k ≤ j) :
    (m.write (.frame (localOffset j) n) w).read x = m.read x := by
  induction x with
  | direct g o n' =>
    cases g with
    | globals => rfl
    | frame => exact frame_write_of_ne fun e => h j n' hj (congrArg (Location.frame · n') e)
  | based b o n' ih =>
    show (m.write _ w).heap ((m.write _ w).read b + .ofInt o) = _
    rw [ih h]
    rfl

theorem Store.read_slotAt_clear {i : Nat} (h : x.Clear s.locals) :
    (m.write (s.slotAt i) w).read x = m.read x := read_write_clear h (Nat.le_add_right ..)

/-- Nothing has changed but temporaries of the supply. -/
structure Supply.Beyond (s : Supply) (m m' : Store) : Prop where
  heap : m'.heap = m.heap
  globals : m'.globals = m.globals
  pushed : m'.pushed = m.pushed
  clear : ∀ y : Location, y.Clear s.locals → m'.read y = m.read y

theorem Supply.Beyond.refl (s : Supply) (m : Store) : s.Beyond m m :=
  ⟨rfl, rfl, rfl, fun _ _ => rfl⟩

theorem Supply.Beyond.write (h : s.Beyond m m') (i : Nat) (w : Int32) :
    s.Beyond m (m'.write (s.slotAt i) w) :=
  ⟨h.heap, h.globals, h.pushed, fun y hy =>
    (Store.read_slotAt_clear hy).trans (h.clear y hy)⟩

theorem Store.read_slotAt (m : Store) (s : Supply) (i j : Nat) (w : Int32) :
    (m.write (s.slotAt i) w).read (s.slotAt j) = if j = i then w else m.read (s.slotAt j) := by
  unfold Supply.slotAt
  rw [read_frame, read_frame]
  by_cases h : j = i
  · rw [if_pos h, h, frame_write_self]
  · rw [if_neg h, frame_write_of_ne fun e => h (by have := Placing.localOffset_inj e; omega)]

end

/-! ## 3. Runs that are broken off -/

/-- The runtime does not come back from the end of the program. -/
def World.Halts (w : World) : Prop := ∀ m, w.atLabel Builtin.halt.label m = none

/-- The run prints the message and stops: it comes to a call that prints it, having written to no
word but those of temporaries, and if that call comes back, to the end of the program. -/
def Aborts (w : World) (code : List Instr) (c : Config) (message : String) : Prop :=
  ∃ n d, Steps w code n c d ∧ code[d.pc]? = some (.call Builtin.printString.label none) ∧
    d.store.pushed = w.text message :: c.store.pushed ∧
    d.store.heap = c.store.heap ∧ d.store.globals = c.store.globals ∧
    (step w code d = .stuck ∨ ∃ j e, Steps w code j d e ∧
      code[e.pc]? = some (.call Builtin.halt.label none) ∧ step w code e = .stuck)

section

variable {w : World} {code : List Instr} {c d : Config} {n k : Nat} {message : String}
  {s : Supply} {m : Store} {x : Location}

/-- What comes after steps that write to temporaries only. -/
theorem Aborts.of_steps (hs : Steps w code n c d) (hb : s.Beyond c.store d.store)
    (h : Aborts w code d message) : Aborts w code c message := by
  obtain ⟨j, e, he, hcall, hp, hh, hg, hend⟩ := h
  exact ⟨n + j, e, hs.trans he, hcall, hp.trans (by rw [hb.pushed]), hh.trans hb.heap,
    hg.trans hb.globals, hend⟩

/-- A call that does not come back. -/
theorem step_call_stuck {l : Label} {o : Option Location}
    (hi : code[k]? = some (.call l o)) (h : w.atLabel l m = none) :
    step w code ⟨k, m⟩ = .stuck := by
  simp only [step, hi, Instr.perform, Instr.effect, h, Option.map_none]

/-- The code that breaks off the run unless the word is zero. -/
def haltCode (test text : Location) (ok : Label) (message : String) : List Instr :=
  [.jumpIfZero test ok, .str text message, .push text, .call Builtin.printString.label none,
    .pop 4, .call Builtin.halt.label none, .label ok]

theorem print_run (x : Location) (s : Supply) : Emit.builtin .printString [x] s =
    .ok ⟨none, [.push x, .call Builtin.printString.label none, .pop 4], s⟩ := rfl

theorem halt_run (s : Supply) :
    Emit.builtin .halt [] s = .ok ⟨none, [.call Builtin.halt.label none], s⟩ := rfl

theorem abort_run (message : String) (s : Supply) (n : Nat) :
    Emit.abort message (s.afterTemps n) =
      .ok ⟨(), [.str (s.slotAt n) message, .push (s.slotAt n),
        .call Builtin.printString.label none, .pop 4, .call Builtin.halt.label none],
        s.afterTemps (n + 1)⟩ :=
  bind_run (toTemp_run _ s n) (bind_run (print_run _ _) (bind_run (halt_run _) (Emit.pure_run _ _)))

/-- What is left of steps in a row once the first is known. -/
theorem Emit.of_bind {α β : Type} {e : Emit α} {f : α → Emit β} {s t : Supply} {a : α}
    {c : List Instr} {r : Emitted β} (he : e s = .ok ⟨a, c, t⟩) (h : (e >>= f) s = .ok r) :
    ∃ b, f a t = .ok b ∧ r = ⟨b.value, c ++ b.code, b.supply⟩ := by
  obtain ⟨o, ho, b, hb, e⟩ := Emit.bind_run_ok.mp h
  cases he.symm.trans ho
  exact ⟨b, hb, e⟩

theorem instr_run (i : Instr) (s : Supply) : Emit.instr i s = .ok ⟨(), [i], s⟩ := rfl

theorem haltUnlessZero_eq {test : Location} {r : Emitted Unit} {n : Nat}
    (h : haltUnlessZero test message (s.afterTemps n) = .ok r) :
    r = ⟨(), haltCode test (s.slotAt n) s.nextLabel message,
      (s.afterLabels 1).afterTemps (n + 1)⟩ := by
  obtain ⟨a, ha, rfl⟩ := Emit.of_bind (newLabel_run (s.afterTemps n)) h
  obtain ⟨b, hb, rfl⟩ := Emit.of_bind (instr_run _ _) ha
  obtain ⟨c, hc, rfl⟩ := Emit.of_bind (abort_run message (s.afterLabels 1) n) hb
  cases hc
  rfl

theorem haltCode_passes {test text : Location} {ok : Label} (hn : (labelsOf code).Nodup)
    (ho : Occurs code k (haltCode test text ok message)) (h : m.read test = 0) :
    Steps w code 2 ⟨k, m⟩ ⟨k + 7, m⟩ := by
  have hjump : code[k]? = some (.jumpIfZero test ok) := ho.get (j := 0) rfl
  have hlabel : code[k + 6]? = some (.label ok) := ho.get (j := 6) rfl
  have h₁ := Steps.one (step_jumpIfZero_of_eq (w := w) hjump (position?_eq hn hlabel) h)
  have h₂ := Steps.one (step_of_effect (w := w) (m := m) hlabel rfl)
  exact h₁.trans h₂

theorem haltCode_aborts {test : Location} {ok : Label} {o : Int} {t : String} (hw : w.Halts)
    (ho : Occurs code k (haltCode test (.frame o t) ok message)) (h : m.read test ≠ 0) :
    Aborts w code ⟨k, m⟩ message := by
  have hjump : code[k]? = some (.jumpIfZero test ok) := ho.get (j := 0) rfl
  have hstr : code[k + 1]? = some (.str (.frame o t) message) := ho.get (j := 1) rfl
  have hpush : code[k + 2]? = some (.push (.frame o t)) := ho.get (j := 2) rfl
  have hprint : code[k + 3]? = some (.call Builtin.printString.label none) := ho.get (j := 3) rfl
  have hpop : code[k + 4]? = some (.pop 4) := ho.get (j := 4) rfl
  have hhalt : code[k + 5]? = some (.call Builtin.halt.label none) := ho.get (j := 5) rfl
  -- the test fails, so the run falls through to the message
  let m₁ := m.write (.frame o t) (w.text message)
  let m₂ : Store := { m₁ with pushed := m₁.read (.frame o t) :: m₁.pushed }
  have hs : Steps w code 3 ⟨k, m⟩ ⟨k + 3, m₂⟩ :=
    .step (step_jumpIfZero_of_ne hjump h)
      (.step (step_of_effect hstr rfl) (.one (step_of_effect hpush rfl)))
  refine ⟨3, ⟨k + 3, m₂⟩, hs, hprint, ?_, rfl, rfl, ?_⟩
  · show m₁.read (.frame o t) :: m.pushed = _
    rw [Store.read_frame, Store.frame_write_self]
  -- printing may not come back; if it does, the program is halted
  · cases ha : w.atLabel Builtin.printString.label m₂ with
    | none => exact .inl (step_call_stuck hprint ha)
    | some a =>
      have hcall : step w code ⟨k + 3, m₂⟩ = .goes ⟨k + 4, a.arrive m₂ none⟩ :=
        step_of_effect hprint (by simp only [Instr.effect, ha, Option.map_some])
      exact .inr ⟨2, ⟨k + 5, _⟩, .step hcall (.one (step_of_effect hpop rfl)), hhalt,
        step_call_stuck hhalt (hw _)⟩

end

/-! ## 4. New arrays -/

section

variable {w : World} {code : List Instr} {k : Nat} {s : Supply} {m : Store}
  {array index len : Location}

/-- Whether there would be no element. -/
def tooSmallCode (s : Supply) (len : Location) : List Instr :=
  [.const (s.slotAt 0) 1, .op .lt (s.slotAt 1) len (s.slotAt 0)]

/-- The number of bytes, on the stack. -/
def sizeCode (s : Supply) (len : Location) : List Instr :=
  [.op .add (s.slotAt 3) len (s.slotAt 0), .const (s.slotAt 4) 4,
    .op .mul (s.slotAt 5) (s.slotAt 3) (s.slotAt 4), .push (s.slotAt 5)]

/-- Asks for the bytes, and puts the length into the first word. -/
def blockCode (s : Supply) (len : Location) : List Instr :=
  [.call Builtin.alloc.label (some (s.slotAt 6)), .pop 4, .store (s.slotAt 6) len 0]

theorem alloc_run (x : Location) (s : Supply) (n : Nat) :
    builtinValue .alloc [x] (s.afterTemps n) =
      .ok ⟨s.slotAt n, [.push x, .call Builtin.alloc.label (some (s.slotAt n)), .pop 4],
        s.afterTemps (n + 1)⟩ := rfl

theorem allocArray_eq {r : Emitted Location} (h : allocArray len s = .ok r) :
    r = ⟨s.slotAt 6, tooSmallCode s len ++
      (haltCode (s.slotAt 1) (s.slotAt 2) s.nextLabel arraySizeMessage ++
        (sizeCode s len ++ blockCode s len)), (s.afterLabels 1).afterTemps 7⟩ := by
  -- one step after the other is replaced by the code that it writes
  obtain ⟨a, h₀, rfl⟩ := Emit.of_bind (toTemp_run _ s 0) h
  obtain ⟨b, h₁, rfl⟩ := Emit.of_bind (toTemp_run _ s 1) h₀
  obtain ⟨c, h₂, d, h₃, rfl⟩ := Emit.bind_run_ok.mp h₁
  cases haltUnlessZero_eq h₂
  obtain ⟨e, h₄, rfl⟩ := Emit.of_bind (toTemp_run _ (s.afterLabels 1) 3) h₃
  obtain ⟨f, h₅, rfl⟩ := Emit.of_bind (toTemp_run _ (s.afterLabels 1) 4) h₄
  obtain ⟨g, h₆, rfl⟩ := Emit.of_bind (toTemp_run _ (s.afterLabels 1) 5) h₅
  obtain ⟨i, h₇, rfl⟩ := Emit.of_bind (alloc_run _ (s.afterLabels 1) 6) h₆
  obtain ⟨j, h₈, rfl⟩ := Emit.of_bind (instr_run _ _) h₇
  cases h₈
  rfl

theorem truth_eq_zero (b : Bool) : truth b = 0 ↔ b = false := by cases b <;> decide

theorem tooSmall_effect (w : World) (m : Store) (hl : len.Clear s.locals) :
    ∃ m', effectAll w (tooSmallCode s len) m = some m' ∧ s.Beyond m m' ∧
      m'.read (s.slotAt 0) = 1 ∧ (m'.read (s.slotAt 1) = 0 ↔ 0 < m.read len) := by
  let m₁ := m.write (s.slotAt 0) 1
  have h₁ : s.Beyond m m₁ := (Supply.Beyond.refl s m).write 0 1
  refine ⟨m₁.write (s.slotAt 1) (Op.lt.word (m₁.read len) (m₁.read (s.slotAt 0))), rfl,
    h₁.write 1 _, ?_, ?_⟩
  · rw [Store.read_slotAt, if_neg (by decide), Store.read_slotAt, if_pos rfl]
  · rw [Store.read_slotAt, if_pos rfl, h₁.clear len hl, Store.read_slotAt, if_pos rfl]
    show truth (decide (m.read len < 1)) = 0 ↔ _
    -- the test is 0 just if the size is at least 1
    rw [truth_eq_zero, decide_eq_false_iff_not, Int32.not_lt, Int32.le_iff_toInt_le,
      Int32.lt_iff_toInt_lt]
    exact Iff.rfl

/-- The number of bytes comes on the stack. -/
theorem size_effect (w : World) {m : Store} (h1 : m.read (s.slotAt 0) = 1) :
    ∃ m', effectAll w (sizeCode s len) m = some m' ∧
      s.Beyond m { m' with pushed := m.pushed } ∧
        m'.pushed = blockSize (m.read len) :: m.pushed := by
  let m₁ := m.write (s.slotAt 3) (Op.add.word (m.read len) (m.read (s.slotAt 0)))
  let m₂ := m₁.write (s.slotAt 4) 4
  let m₃ := m₂.write (s.slotAt 5) (Op.mul.word (m₂.read (s.slotAt 3)) (m₂.read (s.slotAt 4)))
  have h : s.Beyond m m₃ := (((Supply.Beyond.refl s m).write 3 _).write 4 _).write 5 _
  refine ⟨{ m₃ with pushed := m₃.read (s.slotAt 5) :: m₃.pushed }, rfl, h, ?_⟩
  -- one word more than there are elements, and four bytes for each
  have h3 : m₂.read (s.slotAt 3) = m.read len + 1 := by
    rw [Store.read_slotAt, if_neg (by decide), Store.read_slotAt, if_pos rfl, h1]
    rfl
  have h4 : m₂.read (s.slotAt 4) = 4 := by rw [Store.read_slotAt, if_pos rfl]
  show m₃.read (s.slotAt 5) :: m.pushed = _
  rw [Store.read_slotAt, if_pos rfl, h3, h4]
  rfl

/-- The call leaves the word alone. -/
def Answer.Keeps (a : Answer) (m : Store) (x : Location) : Prop :=
  (a.arrive m none).read x = m.read x

/-- Once the call has given the start of a block, its first word holds the length. -/
theorem block_effect {a : Answer} {b : Int32} {ws : List Int32}
    (ha : w.atLabel Builtin.alloc.label m = some a) (hp : m.pushed = b :: ws)
    (hl : len.Clear s.locals) (hkeep : a.Keeps m len) :
    ∃ m', effectAll w (blockCode s len) m = some m' ∧ m'.read (s.slotAt 6) = a.value ∧
      m'.heap = Function.update a.heap a.value (m.read len) ∧ m'.globals = a.globals ∧
      m'.pushed = ws := by
  let m₁ := (a.arrive m none).write (s.slotAt 6) a.value
  let m₂ : Store := { m₁ with pushed := ws }
  let m₃ : Store := { m₂ with heap := Function.update a.heap a.value (m.read len) }
  have h6 : m₂.read (s.slotAt 6) = a.value := by
    rw [Store.read_pushed, Store.read_slotAt, if_pos rfl]
  have hlen : m₂.read len = m.read len := by
    rw [Store.read_pushed, Store.read_slotAt_clear hl]
    exact hkeep
  -- the runtime gives the block, whose address goes to a temporary
  have hcall : (Instr.call Builtin.alloc.label (some (s.slotAt 6))).effect w m = some m₁ := by
    simp only [Instr.effect, ha, Option.map_some]
    rfl
  have hpop : (Instr.pop 4).effect w m₁ = some m₂ := by
    show some { m₁ with pushed := m.pushed.drop 1 } = some m₂
    rw [hp]
    rfl
  -- the size is stored in front of the elements
  have hstore : (Instr.store (s.slotAt 6) len 0).effect w m₂ = some m₃ := by
    have hz : m₂.read (s.slotAt 6) + Int32.ofInt 0 = a.value := by
      rw [h6]
      exact Int32.add_zero _
    show some { m₂ with
      heap := fun p => if p = m₂.read (s.slotAt 6) + Int32.ofInt 0 then m₂.read len
        else a.heap p } = _
    rw [hz, hlen]
    exact congrArg (fun f => some { m₂ with heap := f })
      (funext fun p => (Function.update_apply a.heap a.value (m.read len) p).symm)
  refine ⟨m₃, ?_, h6, rfl, rfl, rfl⟩
  unfold blockCode
  simp only [effectAll, hcall, hpop, hstore, Option.bind_some]

/-- What code does that makes an array, wherever it stands. An array without elements is refused.
Otherwise the code asks for the bytes of a block, and where it is given one, it comes to its end
with the length in the first word of the block. -/
structure Allocates (w : World) (code : List Instr) (k size : Nat) (m : Store)
    (len array : Location) : Prop where
  refuses : ¬ 0 < m.read len → Aborts w code ⟨k, m⟩ arraySizeMessage
  asks : 0 < m.read len → ∃ n c, Steps w code n ⟨k, m⟩ c ∧
    code[c.pc]? = some (.call Builtin.alloc.label (some array)) ∧
    c.store.pushed = blockSize (m.read len) :: m.pushed ∧
    c.store.heap = m.heap ∧ c.store.globals = m.globals ∧
    ∀ a, w.atLabel Builtin.alloc.label c.store = some a → a.Keeps c.store len →
      ∃ j m', Steps w code j c ⟨k + size, m'⟩ ∧ m'.read array = a.value ∧
        m'.heap = Function.update a.heap a.value (m.read len) ∧ m'.globals = a.globals ∧
        m'.pushed = m.pushed

/-- **The code of a new array makes one,** where no other label of the code has the same name. -/
theorem allocates {r : Emitted Location} (h : allocArray len s = .ok r) (hl : len.Clear s.locals)
    (hw : w.Halts) (hn : (labelsOf code).Nodup) (ho : Occurs code k r.code) (m : Store) :
    Allocates w code k r.code.length m len r.value := by
  obtain rfl := allocArray_eq h
  obtain ⟨ho₁, ho⟩ := Occurs.append_iff.mp ho
  obtain ⟨ho₂, ho⟩ := Occurs.append_iff.mp ho
  obtain ⟨ho₃, ho₄⟩ := Occurs.append_iff.mp ho
  obtain ⟨m₁, he₁, hb₁, hone, hsmall⟩ := tooSmall_effect w m hl
  have hs₁ := Steps.of_effectAll ho₁ he₁
  refine ⟨fun hneg => ?_, fun hpos => ?_⟩
  -- a size that is too small ends the program
  · exact .of_steps hs₁ hb₁ (haltCode_aborts hw ho₂ fun hz => hneg (hsmall.mp hz))
  · have hs₂ := hs₁.trans (haltCode_passes hn ho₂ (hsmall.mpr hpos))
    obtain ⟨m₂, he₂, hb₂, hp⟩ : ∃ m₂, effectAll w (sizeCode s len) m₁ = some m₂ ∧ _ :=
      size_effect w hone
    -- otherwise the run comes to the call, with the size in bytes pushed
    have hs₃ := hs₂.trans (Steps.of_effectAll ho₃ he₂)
    rw [hb₁.clear len hl, hb₁.pushed] at hp
    refine ⟨_, _, hs₃, ho₄.get (j := 0) rfl, hp, hb₂.heap.trans hb₁.heap,
      hb₂.globals.trans hb₁.globals, fun a ha hkeep => ?_⟩
    obtain ⟨m₃, he₃, h6, hheap, hglobals, hpushed⟩ := block_effect ha hp hl hkeep
    have hlen : m₂.read len = m.read len :=
      ((m₂.read_pushed len m₁.pushed).symm.trans (hb₂.clear len hl)).trans (hb₁.clear len hl)
    rw [hlen] at hheap
    exact ⟨_, m₃, Steps.of_effectAll ho₄ he₃, h6, hheap, hglobals, hpushed⟩

end

/-! ## 5. Elements -/

section

variable {w : World} {code : List Instr} {k : Nat} {s : Supply} {m : Store}
  {array index : Location}

/-- Whether the index is none of the array. -/
def invalidCode (s : Supply) (array index : Location) : List Instr :=
  [.const (s.slotAt 0) 0, .op .lt (s.slotAt 1) index (s.slotAt 0), .load (s.slotAt 2) array 0,
    .op .lt (s.slotAt 3) index (s.slotAt 2), .op .eq (s.slotAt 4) (s.slotAt 3) (s.slotAt 0),
    .op .or (s.slotAt 5) (s.slotAt 1) (s.slotAt 4)]

/-- Where the element lies. -/
def pointerCode (s : Supply) (array index : Location) : List Instr :=
  [.const (s.slotAt 7) 4, .op .mul (s.slotAt 8) index (s.slotAt 7),
    .op .add (s.slotAt 9) (s.slotAt 8) (s.slotAt 7), .op .add (s.slotAt 10) array (s.slotAt 9)]

theorem checkIndex_eq {r : Emitted Unit} (h : checkIndex array index s = .ok r) :
    r = ⟨(), invalidCode s array index ++
      haltCode (s.slotAt 5) (s.slotAt 6) s.nextLabel subscriptMessage,
      (s.afterLabels 1).afterTemps 7⟩ := by
  obtain ⟨a, h₀, rfl⟩ := Emit.of_bind (toTemp_run _ s 0) h
  obtain ⟨b, h₁, rfl⟩ := Emit.of_bind (toTemp_run _ s 1) h₀
  obtain ⟨c, h₂, rfl⟩ := Emit.of_bind (toTemp_run _ s 2) h₁
  obtain ⟨d, h₃, rfl⟩ := Emit.of_bind (toTemp_run _ s 3) h₂
  obtain ⟨e, h₄, rfl⟩ := Emit.of_bind (toTemp_run _ s 4) h₃
  obtain ⟨f, h₅, rfl⟩ := Emit.of_bind (toTemp_run _ s 5) h₄
  cases haltUnlessZero_eq h₅
  rfl

theorem elementTarget_eq {r : Emitted Target} (h : elementTarget array index s = .ok r) :
    r = ⟨.behind (s.slotAt 10) 0, invalidCode s array index ++
      (haltCode (s.slotAt 5) (s.slotAt 6) s.nextLabel subscriptMessage ++
        pointerCode s array index), (s.afterLabels 1).afterTemps 11⟩ := by
  obtain ⟨a, h₀, b, h₁, rfl⟩ := Emit.bind_run_ok.mp h
  cases checkIndex_eq h₀
  obtain ⟨c, h₂, rfl⟩ := Emit.of_bind (toTemp_run _ (s.afterLabels 1) 7) h₁
  obtain ⟨d, h₃, rfl⟩ := Emit.of_bind (toTemp_run _ (s.afterLabels 1) 8) h₂
  obtain ⟨e, h₄, rfl⟩ := Emit.of_bind (toTemp_run _ (s.afterLabels 1) 9) h₃
  obtain ⟨f, h₅, rfl⟩ := Emit.of_bind (toTemp_run _ (s.afterLabels 1) 10) h₄
  cases h₅
  rfl

theorem invalid_effect (w : World) (m : Store) (ha : array.Clear s.locals)
    (hi : index.Clear s.locals) :
    ∃ m', effectAll w (invalidCode s array index) m = some m' ∧ s.Beyond m m' ∧
      (m'.read (s.slotAt 5) = 0 ↔ 0 ≤ m.read index ∧ m.read index < m.heap (m.read array)) := by
  -- the six temporaries, one after the other
  let m₁ := m.write (s.slotAt 0) 0
  let m₂ := m₁.write (s.slotAt 1) (Op.lt.word (m₁.read index) (m₁.read (s.slotAt 0)))
  let m₃ := m₂.write (s.slotAt 2) (m₂.heap (m₂.read array + .ofInt 0))
  let m₄ := m₃.write (s.slotAt 3) (Op.lt.word (m₃.read index) (m₃.read (s.slotAt 2)))
  let m₅ := m₄.write (s.slotAt 4) (Op.eq.word (m₄.read (s.slotAt 3)) (m₄.read (s.slotAt 0)))
  let m₆ := m₅.write (s.slotAt 5) (Op.or.word (m₅.read (s.slotAt 1)) (m₅.read (s.slotAt 4)))
  have h₁ : s.Beyond m m₁ := (Supply.Beyond.refl s m).write 0 _
  have h₂ : s.Beyond m m₂ := h₁.write 1 _
  have h₃ : s.Beyond m m₃ := h₂.write 2 _
  have h₅ : s.Beyond m m₅ := (h₃.write 3 _).write 4 _
  refine ⟨m₆, rfl, h₅.write 5 _, ?_⟩
  have hneg : m₅.read (s.slotAt 1) = truth (decide (m.read index < 0)) := by
    simp only [m₅, m₄, m₃, m₂, m₁, Store.read_slotAt, Store.read_slotAt_clear hi]
    rfl
  have hzero : m₄.read (s.slotAt 0) = 0 := by
    simp only [m₄, m₃, m₂, m₁, Store.read_slotAt]
    rfl
  have hlen : m₃.read (s.slotAt 2) = m.heap (m.read array) := by
    show (m₂.write _ _).read _ = _
    rw [Store.read_slotAt, if_pos rfl, h₂.clear array ha, h₂.heap]
    exact congrArg m.heap (Int32.add_zero _)
  have hpast : m₅.read (s.slotAt 4) =
      truth (truth (decide (m.read index < m.heap (m.read array))) == 0) := by
    show (m₄.write _ _).read _ = _
    rw [Store.read_slotAt, if_pos rfl, hzero]
    show Op.eq.word ((m₃.write _ _).read _) 0 = _
    rw [Store.read_slotAt, if_pos rfl, h₃.clear index hi, hlen]
    rfl
  show m₆.read (s.slotAt 5) = 0 ↔ _
  rw [Store.read_slotAt, if_pos rfl, hneg, hpast]
  by_cases hn : m.read index < 0
  · have : ¬ 0 ≤ m.read index := Int32.not_le.mpr hn
    by_cases hl : m.read index < m.heap (m.read array) <;> simp [hn, hl, this, Op.word, truth]
  · have : 0 ≤ m.read index := Int32.not_lt.mp hn
    by_cases hl : m.read index < m.heap (m.read array) <;> simp [hn, hl, this, Op.word, truth]

theorem pointer_effect (w : World) (m : Store) (ha : array.Clear s.locals)
    (hi : index.Clear s.locals) :
    ∃ m', effectAll w (pointerCode s array index) m = some m' ∧ s.Beyond m m' ∧
      m'.read (s.slotAt 10) = m.read array + elementOffset (m.read index) := by
  let m₁ := m.write (s.slotAt 7) 4
  let m₂ := m₁.write (s.slotAt 8) (Op.mul.word (m₁.read index) (m₁.read (s.slotAt 7)))
  let m₃ := m₂.write (s.slotAt 9) (Op.add.word (m₂.read (s.slotAt 8)) (m₂.read (s.slotAt 7)))
  let m₄ := m₃.write (s.slotAt 10) (Op.add.word (m₃.read array) (m₃.read (s.slotAt 9)))
  have h₁ : s.Beyond m m₁ := (Supply.Beyond.refl s m).write 7 _
  have h₃ : s.Beyond m m₃ := (h₁.write 8 _).write 9 _
  refine ⟨m₄, rfl, h₃.write 10 _, ?_⟩
  -- The product and the sum wrap as `elementOffset` does, so no bound on the index is needed.
  have hoff : m₃.read (s.slotAt 9) = elementOffset (m.read index) := by
    simp only [m₃, m₂, m₁, Store.read_slotAt, Store.read_slotAt_clear hi]
    rfl
  show m₄.read (s.slotAt 10) = _
  rw [Store.read_slotAt, if_pos rfl, h₃.clear array ha, hoff]
  rfl

/-- What code does that goes to an element, wherever it stands. An index is refused that is not one
of the array; for any other, the code comes to its end with the address of the element, having
written to temporaries only. -/
structure Indexes (w : World) (code : List Instr) (k size : Nat) (m : Store)
    (array index pointer : Location) : Prop where
  refuses : ¬ (0 ≤ m.read index ∧ m.read index < m.heap (m.read array)) →
    Aborts w code ⟨k, m⟩ subscriptMessage
  addresses : 0 ≤ m.read index → m.read index < m.heap (m.read array) →
    ∃ j m', Steps w code j ⟨k, m⟩ ⟨k + size, m'⟩ ∧
      m'.read pointer = m.read array + elementOffset (m.read index) ∧
      m'.heap = m.heap ∧ m'.globals = m.globals ∧ m'.pushed = m.pushed

/-- **The code of an element goes there,** where no other label of the code has the same name. -/
theorem indexes {r : Emitted Target} (h : elementTarget array index s = .ok r)
    (ha : array.Clear s.locals) (hi : index.Clear s.locals) (hw : w.Halts)
    (hn : (labelsOf code).Nodup) (ho : Occurs code k r.code) (m : Store) :
    ∃ pointer, r.value = .behind pointer 0 ∧
      Indexes w code k r.code.length m array index pointer := by
  obtain rfl := elementTarget_eq h
  obtain ⟨ho₁, ho⟩ := Occurs.append_iff.mp ho
  obtain ⟨ho₂, ho₃⟩ := Occurs.append_iff.mp ho
  obtain ⟨m₁, he₁, hb₁, hvalid⟩ := invalid_effect w m ha hi
  have hs₁ := Steps.of_effectAll ho₁ he₁
  refine ⟨_, rfl, fun hbad => ?_, fun h0 hlt => ?_⟩
  -- an index outside: the check leaves 0 and the halting code is entered
  · exact .of_steps hs₁ hb₁ (haltCode_aborts hw ho₂ fun hz => hbad (hvalid.mp hz))
  -- an index inside: the jump goes over the halting code to the pointer
  · have hs₂ := hs₁.trans (haltCode_passes hn ho₂ (hvalid.mpr ⟨h0, hlt⟩))
    obtain ⟨m₂, he₂, hb₂, hp⟩ := pointer_effect w m₁ ha hi
    rw [hb₁.clear array ha, hb₁.clear index hi] at hp
    exact ⟨_, m₂, hs₂.trans (Steps.of_effectAll ho₃ he₂), hp, hb₂.heap.trans hb₁.heap,
      hb₂.globals.trans hb₁.globals, hb₂.pushed.trans hb₁.pushed⟩

end

end Code

/-! ## 6. Expressions -/

open Code

/-- The locations at hand are left alone by what is handed out next. -/
def Surroundings.Clear (r : Surroundings) (s : Supply) : Prop := ∀ x ∈ r.words, x.Clear s.locals

section

variable {r : Surroundings} {s : Supply} {e : Expr} {x : Location} {v : Emitted (Option Location)}

/-- The value of an expression is left alone by what is handed out behind it. -/
theorem Expr.eval_clear (hr : r.Clear s) (h : e.eval r s = .ok v) (hx : v.value = some x) :
    r.Clear v.supply ∧ x.Clear v.supply.locals ∧ s.locals ≤ v.supply.locals := by
  obtain ⟨ts, ht⟩ := e.eval_uses (List.Subset.refl r.words) s _ h
  have hle : s.locals ≤ v.supply.locals := ht.locals ▸ Nat.le_add_right ..
  refine ⟨fun y hy => (hr y hy).mono hle, ?_, hle⟩
  have hheld : x ∈ v.value.toList := by rw [hx]; exact List.mem_cons_self
  -- What holds the value was there before or was handed out on the way.
  rcases List.mem_append.mp (ht.reach x (List.mem_append_right _ hheld)) with hx | hx
  · obtain ⟨y, hy, e⟩ := List.mem_map.mp hx
    exact ((hr y hy).mono hle).congr e.symm
  · -- a temporary that was handed out for the expression
    obtain ⟨i, u, hi, e⟩ := Tenant.mem_words.mp hx
    have hlt := (List.getElem?_eq_some_iff.mp hi).1
    have hk : s.locals + i < v.supply.locals := by
      rw [ht.locals]
      omega
    exact (Location.clear_local (n := u.name) hk).congr e

/-- The code of a new array is that of its length, and then code that makes the array. -/
theorem Expr.eval_newArray {n : Node} {t : TypeExpr} {o : Emitted (Option Location)}
    (h : (Expr.newArray n e t).eval r s = .ok o) : ∃ v len b, e.eval r s = .ok v ∧
      v.value = some len ∧ allocArray len v.supply = .ok b ∧ o.value = some b.value ∧
      o.code = v.code ++ b.code := by
  unfold Expr.eval at h
  obtain ⟨a, ha, b, hb, rfl⟩ := Emit.bind_run_ok.mp (Surroundings.noDouble_ok h)
  obtain ⟨v, hv, hlen, hc, hs⟩ := Code.Emit.needed_from ha
  obtain ⟨d, hd, f, hf, rfl⟩ := Emit.bind_run_ok.mp hb
  cases hf
  exact ⟨v, _, d, hv, hlen, hs ▸ hd, rfl, by rw [hc, List.append_nil]⟩

/-- The code that goes to an element is that of the array, that of the index, and then code that
checks the index. -/
theorem Expr.target_index {n : Node} {i : Expr} {o : Emitted Target}
    (h : (Expr.index n e i).target r s = .ok o) : ∃ v array u index b, e.eval r s = .ok v ∧
      v.value = some array ∧ i.eval r v.supply = .ok u ∧ u.value = some index ∧
      elementTarget array index u.supply = .ok b ∧ o.value = b.value ∧
      o.code = v.code ++ (u.code ++ b.code) := by
  unfold Expr.target at h
  obtain ⟨a, ha, b, hb, rfl⟩ := Emit.bind_run_ok.mp h
  obtain ⟨v, hv, harray, hc, hs⟩ := Code.Emit.needed_from ha
  obtain ⟨d, hd, f, hf, rfl⟩ := Emit.bind_run_ok.mp hb
  obtain ⟨u, hu, hindex, hc', hs'⟩ := Code.Emit.needed_from hd
  rw [hs] at hu
  rw [hs'] at hf
  exact ⟨v, _, u, _, f, hv, harray, hu, hindex, hf, rfl, by rw [hc, hc']⟩

end

/-- **Arrays are safe up to a length, and beyond it they are not.** Wherever it stands, the code of
a new array refuses a length that is not positive, and otherwise asks for `blockSize` bytes and puts
the length into the first word; the code that goes to an element refuses an index that is not one of
the array, and otherwise goes to the word `elementOffset` bytes behind the start. The length and all
elements lie inside the block exactly where its size is below 2³² bytes, and then no offset wraps
around. -/
theorem Expr.arrays_inside_iff {r : Surroundings} {s : Supply} (hr : r.Clear s) :
    (∀ n e t o, (Expr.newArray n e t).eval r s = .ok o → ∃ v c len array,
      e.eval r s = .ok v ∧ v.value = some len ∧ o.value = some array ∧ o.code = v.code ++ c ∧
        ∀ w code k m, World.Halts w → (labelsOf code).Nodup → Occurs code k c →
          Allocates w code k c.length m len array) ∧
    (∀ n e i o, (Expr.index n e i).target r s = .ok o → ∃ v u c array index pointer,
      e.eval r s = .ok v ∧ v.value = some array ∧ i.eval r v.supply = .ok u ∧
        u.value = some index ∧ o.value = .behind pointer 0 ∧ o.code = v.code ++ (u.code ++ c) ∧
        ∀ w code k m, World.Halts w → (labelsOf code).Nodup → Occurs code k c →
          Indexes w code k c.length m array index pointer) ∧
    ∀ n : Int32, 0 < n →
      (4 * (n.toInt + 1) ≤ unsigned (blockSize n) ↔ n.toInt + 1 < 2 ^ 30) ∧
      ((∀ k, 0 ≤ k → k < n → unsigned (elementOffset k) + 4 ≤ unsigned (blockSize n)) ↔
        n.toInt + 1 < 2 ^ 30) ∧
      (n.toInt + 1 < 2 ^ 30 → ∀ k : Int32, 0 ≤ k → k < n →
        (unsigned (elementOffset k) : Int) = 4 + 4 * k.toInt) := by
  refine ⟨fun n e t o h => ?_, fun n e i o h => ?_, fun n hn => ⟨room_iff hn,
    elements_inside_iff hn, fun hroom k h0 hk => (elementOffset_exact hroom h0 hk).1⟩⟩
  · obtain ⟨v, len, b, hv, hlen, hb, ho, hc⟩ := Expr.eval_newArray h
    have hclear := (Expr.eval_clear hr hv hlen).2.1
    exact ⟨v, b.code, len, b.value, hv, hlen, ho, hc, fun w code k m hw hn hat =>
      allocates hb hclear hw hn hat m⟩
  · obtain ⟨v, array, u, index, b, hv, harray, hu, hindex, hb, ho, hc⟩ := Expr.target_index h
    obtain ⟨hr', ha, -⟩ := Expr.eval_clear hr hv harray
    obtain ⟨-, hi, hle⟩ := Expr.eval_clear hr' hu hindex
    refine ⟨v, u, b.code, array, index, (b.value.location), hv, harray, hu, hindex, ?_, hc,
      fun w code k m hw hn hat => ?_⟩
    · rw [ho, elementTarget_eq hb]
      rfl
    · obtain ⟨pointer, e, hindexes⟩ := indexes hb (ha.mono hle) hi hw hn hat m
      rw [e]
      exact hindexes

/-- A method with one local. -/
def oneLocal : Surroundings where
  notes := .empty
  layout := .empty
  slots := [(0, .frame (localOffset 0) "n")]
  this := some thisParam
  breakTo := none

/-- What is handed out where the local is. -/
def oneLocalSupply : Supply := ⟨1, 1, 0, 0⟩

theorem oneLocal_clear : oneLocal.Clear oneLocalSupply := by
  intro x hx
  rcases List.mem_cons.mp hx with rfl | hx
  · exact Location.clear_local Nat.zero_lt_one
  · obtain rfl := List.mem_singleton.mp hx
    intro j n hj e
    exact Surroundings.localOffset_ne_paramOffset j 0 (Location.direct.inj e).2.1.symm

/-- A new array of so many whole numbers. -/
def wholeNumbers (n : Int32) : Expr := .newArray .nowhere (.int .nowhere n) (.prim 0 .int)

/-- Three numbers lie in a block of sixteen bytes. -/
theorem arrays_inside_iff_oneLocal : oneLocal.Clear oneLocalSupply ∧
    (∃ o c len array, (wholeNumbers 3).eval oneLocal oneLocalSupply = .ok o ∧
      o.value = some array ∧ ∀ w code k m, World.Halts w → (labelsOf code).Nodup →
        Occurs code k c → Allocates w code k c.length m len array) ∧
    unsigned (blockSize 3) = 16 ∧
    ∀ k, 0 ≤ k → k < 3 → unsigned (elementOffset k) + 4 ≤ unsigned (blockSize 3) := by
  obtain ⟨hnew, -, hin⟩ := Expr.arrays_inside_iff oneLocal_clear
  have hok : ((wholeNumbers 3).eval oneLocal oneLocalSupply).isOk = true := by decide +kernel
  refine ⟨oneLocal_clear, ?_, by decide +kernel, (hin 3 (by decide)).2.1.mpr (by decide)⟩
  cases h : (wholeNumbers 3).eval oneLocal oneLocalSupply with
  | error r =>
    rw [h] at hok
    cases hok
  | ok o =>
    obtain ⟨v, c, len, array, -, -, harray, -, hall⟩ := hnew _ _ _ o h
    exact ⟨o, c, len, array, rfl, harray, hall⟩

/-- Where an array of 2³⁰ - 1 numbers is made, no bytes are asked for. -/
theorem not_arrays_inside_oneLocal : ∃ o w m n c b d, World.Halts w ∧
    (wholeNumbers 1073741823).eval oneLocal oneLocalSupply = .ok o ∧
    Steps w o.code n ⟨0, m⟩ c ∧ o.code[c.pc]? = some (.call Builtin.alloc.label d) ∧
    c.store.pushed = [b] ∧ ¬ 4 * ((1073741823 : Int32).toInt + 1) ≤ unsigned b := by
  have hok : ((wholeNumbers 1073741823).eval oneLocal oneLocalSupply).isOk = true := by
    decide +kernel
  cases h : (wholeNumbers 1073741823).eval oneLocal oneLocalSupply with
  | error r =>
    rw [h] at hok
    cases hok
  | ok o =>
    obtain ⟨v, len, b, hv, hlen, hb, ho, hc⟩ := Expr.eval_newArray h
    have hclear := (Expr.eval_clear oneLocal_clear hv hlen).2.1
    unfold Expr.eval at hv
    have hconst := some_run (m := Emit.constant 1073741823) (toTemp_run _ oneLocalSupply 0)
    cases hconst.symm.trans (Surroundings.noDouble_ok hv)
    cases hlen
    let w : World := ⟨fun _ => 0, fun _ => 0, fun _ _ => none, fun _ _ => none⟩
    let m : Store := ⟨fun _ => 0, fun _ => 0, fun _ => 0, []⟩
    have hw : w.Halts := fun _ => rfl
    have hn : (labelsOf o.code).Nodup := by
      rw [hc, allocArray_eq hb]
      exact List.nodup_singleton _
    have hat : Occurs o.code 1 b.code := by
      have := Occurs.of_append [.const (oneLocalSupply.slotAt 0) 1073741823] b.code []
      rwa [List.append_nil, ← hc] at this
    have hfirst : o.code[0]? = some (.const (oneLocalSupply.slotAt 0) 1073741823) := by
      rw [hc]
      rfl
    let m₁ := m.write (oneLocalSupply.slotAt 0) 1073741823
    have hs₁ : Steps w o.code 1 ⟨0, m⟩ ⟨1, m₁⟩ := .one (step_of_effect hfirst rfl)
    have hx : m₁.read (oneLocalSupply.slotAt 0) = 1073741823 := by
      rw [Store.read_slotAt, if_pos rfl]
    obtain ⟨n, c, hs₂, hcall, hp, -⟩ := (allocates hb hclear hw hn hat m₁).asks
      (by rw [hx]; decide)
    rw [hx] at hp
    exact ⟨o, w, m, 1 + n, c, _, _, hw, rfl, hs₁.trans hs₂, hcall, hp, by decide⟩

end DecafLang
