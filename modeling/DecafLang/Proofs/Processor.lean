import DecafLang.Proofs.Machine
import DecafLang.Proofs.Spelling

/-!
# What the assembly does

A processor with the registers in use and a flat memory, on which the lines of an instruction run.

* Memory has a word at every address, and no two words overlap. Words have 32 bits, and arithmetic
  on them and on addresses wraps. A division by 0 traps.
* Taking an operand changes its own register and the register for addresses alone
  (`execAll_fill`), so **no operand is lost on the way to another one.**
* **The lines of an instruction put one word into memory, the word that the operands had given
  before, and leave the rest as it was; the lines around a function give its caller back what they
  took** (`lines_implement`).
-/

namespace DecafLang.Mips

open DecafLang.Code (Label Location)

/-! ## 1. Running machine instructions -/

/-- The registers and the memory. -/
structure State where
  reg : Reg → Int32
  mem : Int32 → Int32

namespace State

variable (s : State) (r q : Reg) (a w : Int32)

/-- The state with a word in a register. -/
def setReg : State := { s with reg := Function.update s.reg r w }

/-- The state with a word at an address. -/
def setMem : State := { s with mem := Function.update s.mem a w }

@[simp] theorem setReg_reg : (s.setReg r w).reg = Function.update s.reg r w := rfl

@[simp] theorem setReg_mem : (s.setReg r w).mem = s.mem := rfl

@[simp] theorem setMem_reg : (s.setMem a w).reg = s.reg := rfl

@[simp] theorem setMem_mem : (s.setMem a w).mem = Function.update s.mem a w := rfl

/-- Of two words put into a register the second one stays. -/
theorem setReg_setReg (v : Int32) : (s.setReg r v).setReg r w = s.setReg r w := by
  simp [setReg]

end State

/-- How a machine instruction ends. -/
inductive Outcome where
  /-- The next one follows. -/
  | next (s : State)
  /-- The processor goes on at an address. -/
  | jump (s : State) (target : Int32)
  /-- The processor goes on at an address, from where it comes back. -/
  | call (s : State) (target : Int32)
  | trap

/-- What follows a machine instruction. -/
def Outcome.andThen : Outcome → (State → Outcome) → Outcome
  | next s, f => f s
  | o, _ => o

@[simp] theorem Outcome.next_andThen (s : State) (f : State → Outcome) :
    (next s).andThen f = f s := rfl

variable (address : Label → Int32)

/-- What a machine instruction does, where labels have these addresses. -/
def Instr.exec (s : State) : Instr → Outcome
  | li rd v => .next (s.setReg rd v)
  | la rd l => .next (s.setReg rd (address l))
  | lw rd o base => .next (s.setReg rd (s.mem (s.reg base + .ofInt o)))
  | sw rs o base => .next (s.setMem (s.reg base + .ofInt o) (s.reg rs))
  | alu op rd rs rt =>
    if op.traps (s.reg rt) then .trap
    else .next (s.setReg rd (op.word (s.reg rs) (s.reg rt)))
  | move rd rs => .next (s.setReg rd (s.reg rs))
  | subu rd rs v => .next (s.setReg rd (s.reg rs - .ofInt v))
  | addiu rd rs v => .next (s.setReg rd (s.reg rs + .ofInt v))
  | addi rd rs v => .next (s.setReg rd (s.reg rs + .ofInt v))
  | b l => .jump s (address l)
  | beqz rs l => if s.reg rs = 0 then .jump s (address l) else .next s
  | jal l => .call s (address l)
  | jalr rs => .call s (s.reg rs)
  | jr rs => .jump s (s.reg rs)

/-- What machine instructions do one after the other. -/
def execAll : List Instr → State → Outcome
  | [], s => .next s
  | i :: r, s => (i.exec address s).andThen (execAll r)

theorem execAll_cons (i : Instr) (r : List Instr) (s : State) :
    execAll address (i :: r) s = (i.exec address s).andThen (execAll address r) := rfl

/-- Lines behind lines run one part after the other. -/
theorem execAll_append (a b : List Instr) (s : State) :
    execAll address (a ++ b) s = (execAll address a s).andThen (execAll address b) := by
  induction a generalizing s with
  | nil => rfl
  | cons i r ih =>
    rw [List.cons_append, execAll_cons, execAll_cons]
    -- a trap or a jump in the first part ends both runs
    cases i.exec address s with
    | next t => exact ih t
    | _ => rfl

/-! ## 2. Locations in memory -/

namespace State

/-- The address of the word of a location. -/
def place (s : State) : Location → Int32
  | .direct g o _ => s.reg (.ofSegment g) + .ofInt o
  | .based b o _ => s.mem (s.place b) + .ofInt o

/-- The word of a location. -/
def word (s : State) (l : Location) : Int32 := s.mem (s.place l)

/-- The state on the way to the word of a location. -/
def reach (s : State) : Location → State
  | .direct _ _ _ => s
  | .based b _ _ => s.setReg .t3 (s.word b)

/-- Where locations lie depends on the memory and two registers. -/
theorem place_congr {s t : State} (hm : t.mem = s.mem) (hf : t.reg .fp = s.reg .fp)
    (hg : t.reg .gp = s.reg .gp) (l : Location) : t.place l = s.place l := by
  induction l with
  | direct g o n => cases g <;> simp [place, Reg.ofSegment, hf, hg]
  | based b o n ih => rw [place, place, ih, hm]

variable (s : State) (l k : Location)

@[simp] theorem reach_mem : (s.reach l).mem = s.mem := by
  cases l <;> rfl

/-- On the way to a word only the register for addresses changes. -/
theorem reach_reg {r : Reg} (h : r ≠ .t3) : (s.reach l).reg r = s.reg r := by
  cases l with
  | direct g o n => rfl
  | based b o n => exact Function.update_of_ne h _ _

@[simp] theorem reach_place : (s.reach l).place k = s.place k :=
  place_congr (s.reach_mem l) (s.reach_reg l (by decide)) (s.reach_reg l (by decide)) k

/-- All words are what they were. -/
@[simp] theorem reach_word : (s.reach l).word k = s.word k := by
  rw [word, word, reach_place, reach_mem]

/-- Registers that locations do not count from. -/
theorem setReg_place {r : Reg} (hf : r ≠ .fp) (hg : r ≠ .gp) (w : Int32) :
    (s.setReg r w).place k = s.place k :=
  place_congr (s.setReg_mem r w) (Function.update_of_ne hf.symm _ _)
    (Function.update_of_ne hg.symm _ _) k

theorem setReg_word {r : Reg} (hf : r ≠ .fp) (hg : r ≠ .gp) (w : Int32) :
    (s.setReg r w).word k = s.word k := by
  rw [word, word, s.setReg_place k hf hg, setReg_mem]

end State

/-- The machine instructions of lines. -/
def machineCode (ls : List Line) : List Instr := ls.flatMap Line.instrs

@[simp] theorem machineCode_nil : machineCode [] = [] := rfl

@[simp] theorem machineCode_instr (i : Instr) (t : String) (r : List Line) :
    machineCode (.instr i t :: r) = i :: machineCode r := rfl

@[simp] theorem machineCode_append (a b : List Line) :
    machineCode (a ++ b) = machineCode a ++ machineCode b := List.flatMap_append

/-- On the way to a base, the register for addresses is used again. -/
theorem State.reach_setReg (s : State) (b : Location) (w : Int32) :
    (s.reach b).setReg .t3 w = s.setReg .t3 w := by
  cases b with
  | direct g o n => rfl
  | based b o n => exact s.setReg_setReg .t3 _ _

/-- **Taking a word touches its register and the one for addresses.** -/
theorem execAll_fill (l : Location) (r : Reg) (s : State) :
    execAll address (machineCode (fill l r)) s = .next ((s.reach l).setReg r (s.word l)) := by
  induction l generalizing r with
  | direct g o n => rfl
  | based b o n ih =>
    rw [fill, machineCode_append, execAll_append, ih, s.reach_setReg]
    simp [fill.line, execAll, Instr.exec, State.reach, State.word, State.place]

/-- **Putting a word back touches its place and the register for addresses.** -/
theorem execAll_spill (l : Location) {r : Reg} (hr : r ≠ .t3) (s : State) :
    execAll address (machineCode (spill l r)) s =
      .next ((s.reach l).setMem (s.place l) (s.reg r)) := by
  cases l with
  | direct g o n => rfl
  | based b o n =>
    rw [spill, machineCode_append, execAll_append, execAll_fill, s.reach_setReg]
    simp [spill.line, execAll, Instr.exec, State.reach, State.word, State.place,
      Function.update_of_ne hr]

/-! ## 3. Registers in which nothing is kept -/

/-- The registers for operands, results and addresses. -/
def Reg.scratch : Reg → Bool
  | t0 | t1 | t2 | t3 => true
  | _ => false

namespace State

/-- The states differ at most in registers in which nothing is kept. -/
structure Near (s t : State) : Prop where
  mem : t.mem = s.mem
  reg : ∀ r : Reg, r.scratch = false → t.reg r = s.reg r

/-- The state is the other one with a word put at an address, except for registers in which
nothing is kept. -/
structure Wrote (s t : State) (a w : Int32) : Prop where
  mem : t.mem = Function.update s.mem a w
  reg : ∀ r : Reg, r.scratch = false → t.reg r = s.reg r

variable {s t : State}

/-- Nothing has changed. -/
theorem Near.refl (s : State) : s.Near s := ⟨rfl, fun _ _ => rfl⟩

namespace Near

theorem place (h : s.Near t) (l : Location) : t.place l = s.place l :=
  place_congr h.mem (h.reg .fp rfl) (h.reg .gp rfl) l

/-- Where only scratch registers have changed, every word is what it was. -/
theorem word (h : s.Near t) (l : Location) : t.word l = s.word l := by
  rw [State.word, State.word, h.place, h.mem]

/-- A scratch register may be changed. -/
theorem setReg (h : s.Near t) {r : Reg} (hr : r.scratch = true) (w : Int32) :
    s.Near (t.setReg r w) := by
  refine ⟨h.mem, fun q hq => ?_⟩
  have hne : q ≠ r := by
    rintro rfl
    rw [hr] at hq
    cases hq
  exact (Function.update_of_ne hne _ _).trans (h.reg q hq)

theorem reach (h : s.Near t) (l : Location) : s.Near (t.reach l) := by
  cases l with
  | direct g o n => exact h
  | based b o n => exact h.setReg rfl _

/-- **An operand that is taken costs no other one.** -/
theorem fill (h : s.Near t) (l : Location) {r : Reg} (hr : r.scratch = true) :
    ∃ u, execAll address (machineCode (fill l r)) t = .next u ∧ s.Near u ∧ u.reg r = s.word l ∧
      ∀ q, q ≠ r → q ≠ .t3 → u.reg q = t.reg q := by
  refine ⟨_, execAll_fill address l r t, (h.reach l).setReg hr _, ?_, fun q hq h3 => ?_⟩
  · rw [setReg_reg, Function.update_self, h.word]
  · rw [setReg_reg, Function.update_of_ne hq, t.reach_reg l h3]

/-- What is put away goes to the place it is meant for. -/
theorem spill (h : s.Near t) (l : Location) {r : Reg} (hr : r ≠ .t3) :
    ∃ u, execAll address (machineCode (spill l r)) t = .next u ∧
      s.Wrote u (s.place l) (t.reg r) := by
  refine ⟨_, execAll_spill address l hr t, ?_, fun q hq => (h.reach l).reg q hq⟩
  rw [setMem_mem, (h.reach l).mem, h.place]

end Near

end State

/-! ## 4. Instructions that compute a word -/

namespace State

/-- The place of the word that an instruction computes, and the word; there is none if it divides
by 0, or computes no word. -/
def effect (s : State) : Code.Instr → Option (Int32 × Int32)
  | .const d v => some (s.place d, v)
  | .copy d x => some (s.place d, s.word x)
  | .load d x o => some (s.place d, s.mem (s.word x + .ofInt o))
  | .store d x o => some (s.word d + .ofInt o, s.word x)
  | .op o d l r =>
    if o.traps (s.word r) then none else some (s.place d, o.word (s.word l) (s.word r))
  | .push p => some (s.reg .sp - 4 + 4, s.word p)
  | _ => none

/-- The state in which an instruction begins to compute: a word of the stack is taken first. -/
def opened (s : State) : Code.Instr → State
  | .push _ => s.setReg .sp (s.reg .sp - 4)
  | _ => s

end State

/-- **The lines of an instruction compute its word and put it into its place,** or trap where it
does. -/
theorem execAll_ofInstr (k : Nat) {i : Code.Instr} (h : i.Computes) (s : State) :
    match s.effect i with
    | some (a, w) =>
      ∃ t, execAll address (machineCode (ofInstr k i)) s = .next t ∧ (s.opened i).Wrote t a w
    | none => execAll address (machineCode (ofInstr k i)) s = .trap := by
  -- one case for each instruction: its operands are filled in turn, and the result is put away
  cases i with
  | const d v =>
    obtain ⟨t, ht, hw⟩ := ((State.Near.refl s).setReg (r := .t2) rfl v).spill address d
      (r := .t2) (by decide)
    exact ⟨t, by simpa [ofInstr, execAll_cons, Instr.exec] using ht,
      by simpa [State.opened] using hw⟩
  | copy d x =>
    obtain ⟨t, ht, hn, h2, -⟩ := (State.Near.refl s).fill address x (r := .t2) rfl
    obtain ⟨u, hu, hw⟩ := hn.spill address d (r := .t2) (by decide)
    rw [h2] at hw
    exact ⟨u, by simp [ofInstr, execAll_append, ht, hu], hw⟩
  | load d x o =>
    obtain ⟨t, ht, hn, h0, -⟩ := (State.Near.refl s).fill address x (r := .t0) rfl
    obtain ⟨u, hu, hw⟩ :=
      (hn.setReg (r := .t2) rfl (s.mem (s.word x + .ofInt o))).spill address d (r := .t2)
        (by decide)
    refine ⟨u, ?_, by simpa [State.opened] using hw⟩
    simp [ofInstr, execAll_append, ht, execAll_cons, Instr.exec, h0, hn.mem, hu]
  | store d x o =>
    obtain ⟨t, ht, hn, h0, -⟩ := (State.Near.refl s).fill address x (r := .t0) rfl
    obtain ⟨u, hu, hm, h2, hq⟩ := hn.fill address d (r := .t2) rfl
    refine ⟨u.setMem (s.word d + .ofInt o) (s.word x), ?_, ?_, fun r hr => hm.reg r hr⟩
    · simp [ofInstr, execAll_append, ht, hu, execAll, Instr.exec, h2,
        hq .t0 (by decide) (by decide), h0]
    · rw [State.setMem_mem, hm.mem]
      rfl
  | op o d l r =>
    obtain ⟨t, ht, hn, h0, -⟩ := (State.Near.refl s).fill address l (r := .t0) rfl
    obtain ⟨u, hu, hm, h1, hq⟩ := hn.fill address r (r := .t1) rfl
    have hl : u.reg .t0 = s.word l := (hq .t0 (by decide) (by decide)).trans h0
    by_cases htr : o.traps (s.word r) = true
    · simp [State.effect, htr, ofInstr, execAll_append, ht, hu, execAll_cons, Instr.exec, h1,
        Outcome.andThen]
    · obtain ⟨v, hv, hw⟩ :=
        (hm.setReg (r := .t2) rfl (o.word (s.word l) (s.word r))).spill address d (r := .t2)
          (by decide)
      simp only [State.effect, if_neg htr]
      refine ⟨v, ?_, by simpa [State.opened] using hw⟩
      simp [ofInstr, execAll_append, ht, hu, execAll_cons, Instr.exec, h1, hl, htr, hv]
  | push p =>
    obtain ⟨t, ht, hn, h0, -⟩ :=
      (State.Near.refl (s.setReg .sp (s.reg .sp - 4))).fill address p (r := .t0) rfl
    rw [s.setReg_word p (by decide) (by decide)] at h0
    have hs : t.reg .sp = s.reg .sp - 4 :=
      (hn.reg .sp rfl).trans (by simp)
    refine ⟨t.setMem (s.reg .sp - 4 + 4) (s.word p), ?_, ?_, fun r hr => hn.reg r hr⟩
    · simp [ofInstr, execAll_append, execAll_cons, execAll, Instr.exec, ht, h0, hs]
    · rw [State.setMem_mem, hn.mem]
      rfl
  | _ => cases h

/-! ## 5. The frame of a function -/

theorem sub_eight_add_four (a : Int32) : a - 8 + 4 = a - 4 := by grind

/-- **Opening a frame keeps what belongs to the caller in two words below its stack.** -/
theorem execAll_prologue (n : Int) (s : State) :
    ∃ t, execAll address (machineCode (prologue n)) s = .next t ∧
      t.reg .fp = s.reg .sp ∧ t.reg .sp = s.reg .sp - 8 - .ofInt n ∧
      t.mem = Function.update (Function.update s.mem (s.reg .sp) (s.reg .fp))
        (s.reg .sp - 4) (s.reg .ra) := by
  -- the caller's frame and the way back are stored before the frame pointer moves
  have opened : execAll address (machineCode (prologue 0)) s = .next
      ((((s.setReg .sp (s.reg .sp - 8)).setMem (s.reg .sp) (s.reg .fp)).setMem (s.reg .sp - 4)
        (s.reg .ra)).setReg .fp (s.reg .sp)) := by
    simp [prologue, execAll, Instr.exec, sub_eight_add_four]
  -- a frame of no words is not made room for
  by_cases hn : n = 0
  · subst hn
    exact ⟨_, opened, by simp⟩
  · have e : machineCode (prologue n) =
        machineCode (prologue 0) ++ [.subu .sp .sp n] := by
      simp [prologue, hn]
    rw [e, execAll_append, opened]
    exact ⟨_, rfl, by simp⟩

/-- **Closing a frame gives the two words back.** -/
theorem execAll_epilogue (s : State) :
    ∃ t, execAll address (machineCode epilogue) s = .jump t (s.mem (s.reg .fp - 4)) ∧
      t.mem = s.mem ∧ t.reg .sp = s.reg .fp ∧ t.reg .fp = s.mem (s.reg .fp) ∧
      t.reg .ra = s.mem (s.reg .fp - 4) ∧ t.reg .v0 = s.reg .v0 := by
  refine ⟨((s.setReg .sp (s.reg .fp)).setReg .ra (s.mem (s.reg .fp - 4))).setReg .fp
    (s.mem (s.reg .fp)), ?_⟩
  simp [epilogue, execAll, Instr.exec, Outcome.andThen, Int32.sub_eq_add_neg]

/-- The lines that leave a function; a value is handed over as it was. -/
theorem execAll_ret (v : Option Location) (s : State) :
    ∃ t, execAll address (machineCode (ret v)) s = .jump t (s.mem (s.reg .fp - 4)) ∧
      t.mem = s.mem ∧ t.reg .sp = s.reg .fp ∧ t.reg .fp = s.mem (s.reg .fp) ∧
      t.reg .ra = s.mem (s.reg .fp - 4) ∧ ∀ l ∈ v, t.reg .v0 = s.word l := by
  cases v with
  | none =>
    -- the value is in its register before the frame is given up
    obtain ⟨t, ht, hm, hsp, hfp, hra, -⟩ := execAll_epilogue address s
    exact ⟨t, ht, hm, hsp, hfp, hra, nofun⟩
  | some l =>
    obtain ⟨u, hu, hn, h2, -⟩ := (State.Near.refl s).fill address l (r := .t2) rfl
    obtain ⟨t, ht, hm, hsp, hfp, hra, hv⟩ :=
      execAll_epilogue address (u.setReg .v0 (s.word l))
    have hf : u.reg .fp = s.reg .fp := hn.reg .fp rfl
    simp only [State.setReg_mem, State.setReg_reg, ne_eq, reduceCtorEq, not_false_eq_true,
      Function.update_of_ne, Function.update_self, hn.mem, hf] at ht hm hsp hfp hra hv
    refine ⟨t, ?_, hm, hsp, hfp, hra, fun k hk => ?_⟩
    · simpa [ret, execAll_append, execAll_cons, Instr.exec, hu, h2] using ht
    · cases hk
      exact hv

/-! ## 6. The printed lines -/

/-- The lines of an instruction as they are printed. -/
def printed (strings : Nat) (i : Code.Instr) : String :=
  String.join ((ofInstr strings i).map Line.render)

/-- **The code does what the instruction says:** one word is put into memory, and the registers
that locations and returns rest on stay as they were. -/
def Implements (code : List Instr) (i : Code.Instr) : Prop :=
  ∀ s : State,
    match s.effect i with
    | some (a, w) =>
      ∃ t, execAll address code s = .next t ∧ t.mem = Function.update s.mem a w ∧
        t.reg .fp = s.reg .fp ∧ t.reg .gp = s.reg .gp ∧ t.reg .ra = s.reg .ra ∧
        t.reg .sp = (s.opened i).reg .sp
    | none => execAll address code s = .trap

/-- **What a function does between these two pieces of code is of no concern to its caller,** if
it keeps the frame pointer and the two words that were saved. -/
def Encloses (frameSize : Int) (first last : List Instr) (v : Option Location) : Prop :=
  ∀ s : State, ∃ t, execAll address first s = .next t ∧
    t.reg .fp = s.reg .sp ∧ t.reg .sp = s.reg .sp - 8 - .ofInt frameSize ∧
    ∀ u : State, u.reg .fp = t.reg .fp → u.mem (t.reg .fp) = t.mem (t.reg .fp) →
      u.mem (t.reg .fp - 4) = t.mem (t.reg .fp - 4) →
      ∃ x, execAll address last u = .jump x (s.reg .ra) ∧ x.mem = u.mem ∧
        x.reg .sp = s.reg .sp ∧ x.reg .fp = s.reg .fp ∧ x.reg .ra = s.reg .ra ∧
        ∀ l ∈ v, x.reg .v0 = u.word l

/-- **The lines of an instruction do what it does.** -/
theorem implements_ofInstr (k : Nat) {i : Code.Instr} (h : i.Computes) :
    Implements address (machineCode (ofInstr k i)) i := by
  intro s
  have h := execAll_ofInstr address k h s
  split
  next a w e =>
    rw [e] at h
    obtain ⟨t, ht, hw⟩ := h
    have kept : ∀ r : Reg, r ≠ .sp → (s.opened i).reg r = s.reg r := by
      intro r hr
      cases i <;> first | rfl | exact Function.update_of_ne hr _ _
    have mem : (s.opened i).mem = s.mem := by cases i <;> rfl
    exact ⟨t, ht, mem ▸ hw.mem, (hw.reg .fp rfl).trans (kept .fp (by decide)),
      (hw.reg .gp rfl).trans (kept .gp (by decide)),
      (hw.reg .ra rfl).trans (kept .ra (by decide)), hw.reg .sp rfl⟩
  next e =>
    rw [e] at h
    exact h

/-- **The lines around a function give its caller back what they took.** -/
theorem encloses_prologue (n : Int) (v : Option Location) :
    Encloses address n (machineCode (prologue n)) (machineCode (ret v)) v := by
  intro s
  obtain ⟨t, ht, hfp, hsp, hm⟩ := execAll_prologue address n s
  refine ⟨t, ht, hfp, hsp, fun u uf u0 u4 => ?_⟩
  obtain ⟨x, hx, xm, xsp, xfp, xra, xv⟩ := execAll_ret address v u
  -- the two words that are kept lie at different addresses
  have apart : s.reg .sp ≠ s.reg .sp - 4 := by grind
  have saved : u.mem (u.reg .fp) = s.reg .fp := by
    rw [uf, u0, hm, hfp, Function.update_of_ne apart, Function.update_self]
  have back : u.mem (u.reg .fp - 4) = s.reg .ra := by
    rw [uf, u4, hm, hfp, Function.update_self]
  rw [back] at hx xra
  exact ⟨x, hx, xm, xsp.trans (uf.trans hfp), xfp.trans saved, xra, xv⟩

/-- **The lines of an instruction do what the instruction says, however deep its operands lie.
The lines that open and close a function give its caller back the stack, the frame and the way
back.** -/
theorem lines_implement (k : Nat) :
    (∀ i : Code.Instr, i.Computes → (∀ l ∈ i.operands, l.Plain) →
      ∃ code, readText (printed k i) = some code ∧ Implements address code i) ∧
    ∀ n : Int, 0 ≤ n → ∃ first, readText (printed k (.enter n)) = some first ∧
      ∀ (i : Code.Instr) (v : Option Location), i = .ret v ∨ i = .leave ∧ v = none →
        (∀ l ∈ i.operands, l.Plain) →
        ∃ last, readText (printed k i) = some last ∧ Encloses address n first last v := by
  constructor
  · intro i hi hp
    exact ⟨_, readText_render (ofInstr_readable k hi hp), implements_ofInstr address k hi⟩
  -- the lines in front do not depend on how the function ends
  · intro n _
    refine ⟨_, readText_render (prologue_readable n), ?_⟩
    rintro i v (rfl | ⟨rfl, rfl⟩) hp
    · refine ⟨_, readText_render (ret_readable fun l hl => hp l ?_), encloses_prologue address n v⟩
      simpa [Code.Instr.operands] using hl
    · have hr : ∀ x ∈ ofInstr k .leave, x.Readable := by
        refine List.forall_mem_cons.mpr ⟨Line.readable_remark ?_, epilogue_readable⟩
        simp
      exact ⟨_, readText_render hr, encloses_prologue address n none⟩

/-- Every operand of a division lies behind two bases, and the function returns one of them. -/
theorem lines_implement_nested :
    let x : Location := .based (.based (.frame (-8) "p") 4 "q") 0 "x"
    let i : Code.Instr := .op .div x (.based (.based (.global 4 "g") 8 "h") (-4) "y") x
    i.Computes ∧ (∀ l ∈ i.operands, l.Plain) ∧ (0 : Int) ≤ 8 ∧
      (∃ code, readText (printed 0 i) = some code ∧ Implements (fun _ => 0) code i) ∧
      ∃ first, readText (printed 0 (.enter 8)) = some first ∧
        ∃ last, readText (printed 0 (.ret (some x))) = some last ∧
          Encloses (fun _ => 0) 8 first last (some x) := by
  intro x i
  have hx : x.Plain := by simp [x, Location.frame, Code.Location.Plain]
  have hi : ∀ l ∈ i.operands, l.Plain := by
    simp [i, x, Code.Instr.operands, Location.frame, Location.global, Code.Location.Plain]
  have h := lines_implement (fun _ => 0) 0
  obtain ⟨first, hf, hl⟩ := h.2 8 (by decide)
  exact ⟨trivial, hi, by decide, h.1 i trivial hi, first, hf,
    hl (.ret (some x)) (some x) (.inl rfl) (by simpa [Code.Instr.operands] using hx)⟩

end DecafLang.Mips
