import Mathlib.Logic.Function.Basic
import DecafLang.Proofs.Machine
import DecafLang.Lowering.Program

/-!
# Variables in the frame

How the variables of a function and the temporaries of its code share the frame.

* A `Valuation` gives every variable its word; a `Placing` says at which offset of the frame a
  variable lies, if it lies there. **No two variables share an offset.**
* The words at the positions from `a` to `b` are free of variables where the placing
  `Avoids a b`; there the temporaries lie that were handed out between two supplies.
* `Held` tells where the value of an expression is kept: in a word of its own, or in the slot of a
  variable, where a later assignment still changes it.
-/

namespace DecafLang

open Code (Emit Emitted Instr Location Op Store Supply World effectAll labelsOf)

/-! ## 1. Valuations and placings -/

/-- The words of the variables. -/
abbrev Valuation := NodeId → Int32

/-- The offset in the frame at which a variable lies. -/
abbrev Placing := NodeId → Option Int

namespace Placing

variable {p : Placing} {σ : Valuation} {m m' : Store} {a b c d : Nat}

/-- No two variables lie at one offset. -/
def Apart (p : Placing) : Prop := ∀ u v o, p u = some o → p v = some o → u = v

/-- The frame holds the words of the variables. -/
def Holds (p : Placing) (σ : Valuation) (m : Store) : Prop := ∀ v o, p v = some o → m.frame o = σ v

/-- No variable lies among the locals from one position up to another. -/
def Avoids (p : Placing) (a b : Nat) : Prop :=
  ∀ v k, a ≤ k → k < b → p v ≠ some (Supply.localOffset k)

/-- The frames differ at the offsets of variables, and among the locals from one position up to
another. -/
def Framed (p : Placing) (a b : Nat) (m m' : Store) : Prop :=
  ∀ o, (∀ v, p v ≠ some o) → (∀ k, a ≤ k → k < b → o ≠ Supply.localOffset k) →
    m'.frame o = m.frame o

theorem Avoids.mono (h : p.Avoids a b) (ha : a ≤ c) (hb : d ≤ b) : p.Avoids c d :=
  fun v k hc hd => h v k (Nat.le_trans ha hc) (Nat.lt_of_lt_of_le hd hb)

theorem Framed.refl (p : Placing) (a b : Nat) (m : Store) : p.Framed a b m m := fun _ _ _ => rfl

theorem Framed.trans {m'' : Store} (h : p.Framed a b m m') (h' : p.Framed a b m' m'') :
    p.Framed a b m m'' := fun o hv hk => (h' o hv hk).trans (h o hv hk)

theorem Framed.mono (h : p.Framed c d m m') (ha : a ≤ c) (hb : d ≤ b) : p.Framed a b m m' :=
  fun o hv hk => h o hv fun k hc hd => hk k (Nat.le_trans ha hc) (Nat.lt_of_lt_of_le hd hb)

theorem localOffset_inj {i j : Nat} (h : Supply.localOffset i = Supply.localOffset j) : i = j := by
  unfold Supply.localOffset wordSize at h
  omega

/-- A word outside the range is not touched by what happens in it. -/
theorem Framed.frame_eq {k : Nat} (h : p.Framed a b m m')
    (hp : ∀ v, p v ≠ some (Supply.localOffset k)) (hk : k < a ∨ b ≤ k) :
    m'.frame (Supply.localOffset k) = m.frame (Supply.localOffset k) :=
  h _ hp fun j ha hb e => by
    have := localOffset_inj e
    omega

/-- A word for a temporary changes no variable. -/
theorem Holds.write_temp {k : Nat} {n : String} {x : Int32} (h : p.Holds σ m)
    (hp : ∀ v, p v ≠ some (Supply.localOffset k)) :
    p.Holds σ (m.write (.frame (Supply.localOffset k) n) x) := by
  intro v o hv
  have hne : o ≠ Supply.localOffset k := fun e => hp v (e ▸ hv)
  rw [Store.frame_write_of_ne hne]
  exact h v o hv

theorem Framed.write_temp {k : Nat} {n : String} {x : Int32} (ha : a ≤ k) (hb : k < b) :
    p.Framed a b m (m.write (.frame (Supply.localOffset k) n) x) := fun _ _ hk =>
  Store.frame_write_of_ne (hk k ha hb)

/-- A word for a variable changes that variable alone. -/
theorem Holds.write_slot {v : NodeId} {o : Int} {n : String} {x : Int32} (ha : p.Apart)
    (h : p.Holds σ m) (hv : p v = some o) :
    p.Holds (Function.update σ v x) (m.write (.frame o n) x) := by
  intro u q hu
  -- another variable has another slot, so its word stays
  by_cases e : u = v
  · subst e
    obtain rfl : o = q := by rw [hv] at hu; exact Option.some.inj hu
    rw [Store.frame_write_self, Function.update_self]
  · rw [Function.update_of_ne e, Store.frame_write_of_ne]
    · exact h u q hu
    · intro e
      subst e
      exact e (ha u v q hu hv)

theorem Framed.write_slot {v : NodeId} {o : Int} {n : String} {x : Int32} (hv : p v = some o) :
    p.Framed a b m (m.write (.frame o n) x) := fun _ hq _ =>
  Store.frame_write_of_ne fun e => hq v (e ▸ hv)

end Placing

/-! ## 2. Where a value is held -/

/-- Where the value of an expression is kept until it is used. -/
inductive Held where
  /-- In a word of its own. -/
  | word (w : Int32)
  /-- In the slot of a variable. -/
  | slot (v : NodeId)

namespace Held

/-- The word that is found there. -/
def value (σ : Valuation) : Held → Int32
  | word w => w
  | slot v => σ v

@[simp] theorem value_word (σ : Valuation) (w : Int32) : (word w).value σ = w := rfl

@[simp] theorem value_slot (σ : Valuation) (v : NodeId) : (slot v).value σ = σ v := rfl

/-- The location keeps the value; a word of its own is a temporary of the range. -/
def At (p : Placing) (a b : Nat) (m : Store) (l : Location) : Held → Prop
  | word w => ∃ k n, l = .frame (Supply.localOffset k) n ∧ a ≤ k ∧ k < b ∧
      m.frame (Supply.localOffset k) = w
  | slot v => ∃ o n, l = .frame o n ∧ p v = some o

variable {p : Placing} {σ : Valuation} {m m' : Store} {l : Location} {a b c d : Nat} {h : Held}

theorem At.read (hl : h.At p a b m l) (hm : p.Holds σ m) : m.read l = h.value σ := by
  cases h with
  | word w =>
    obtain ⟨k, n, rfl, -, -, e⟩ := hl
    rw [Store.read_frame, e]
    rfl
  | slot v =>
    obtain ⟨o, n, rfl, e⟩ := hl
    rw [Store.read_frame, hm v o e]
    rfl

/-- The value stays where it is while other temporaries are written. -/
theorem At.keep (hl : h.At p a b m l) (hf : p.Framed b d m m') (hp : p.Avoids a b) (hd : b ≤ d) :
    h.At p a d m' l := by
  cases h with
  | word w =>
    obtain ⟨k, n, rfl, ha, hb, e⟩ := hl
    refine ⟨k, n, rfl, ha, Nat.lt_of_lt_of_le hb hd, ?_⟩
    rw [hf.frame_eq (fun v => hp v k ha hb) (.inl hb), e]
  | slot v => exact hl

end Held

/-! ## 3. Slots -/

namespace Surroundings

/-- Where the variables in sight lie that have a slot in the frame. -/
def placing (r : Surroundings) : Placing := fun v =>
  match r.slot? v with
  | some (.direct .frame o _) => some o
  | _ => none

/-- The slots in sight are apart from each other and from those that are handed out next. -/
structure Fits (r : Surroundings) (s : Supply) : Prop where
  apart : r.placing.Apart
  locals : ∀ v k, s.locals ≤ k → r.placing v ≠ some (Supply.localOffset k)
  params : ∀ v k, s.params ≤ k → r.placing v ≠ some (Supply.paramOffset k)

variable {r r' : Surroundings} {s s' : Supply}

theorem placing_withSlot (r : Surroundings) (v u : NodeId) (o : Int) (n : String) :
    (r.withSlot v (.frame o n)).placing u = if v = u then some o else r.placing u := by
  by_cases h : v = u <;> simp [placing, slot?, withSlot, Table.find, h, Location.frame]

theorem localOffset_ne_paramOffset (i j : Nat) : Supply.localOffset i ≠ Supply.paramOffset j := by
  unfold Supply.localOffset Supply.paramOffset
  omega

theorem paramOffset_inj {i j : Nat} (h : Supply.paramOffset i = Supply.paramOffset j) : i = j := by
  unfold Supply.paramOffset wordSize at h
  omega

/-- A new slot is apart from all others, so nothing else changes. -/
theorem apart_withSlot (ha : r.placing.Apart) {v : NodeId} {o : Int} {n : String}
    (ho : ∀ u, r.placing u ≠ some o) : (r.withSlot v (.frame o n)).placing.Apart := by
  intro u u' q hu hu'
  rw [placing_withSlot] at hu hu'
  split at hu <;> split at hu'
  · rename_i h h'
    exact h.symm.trans h'
  · exact absurd (hu.trans rfl ▸ hu') (ho u')
  · exact absurd (hu'.trans rfl ▸ hu) (ho u)
  · exact ha u u' q hu hu'

/-- Where no variable has a slot in the frame yet, everything fits. -/
theorem fits_of_none (h : ∀ v, r.placing v = none) (s : Supply) : r.Fits s where
  apart u v o hu := by rw [h] at hu; cases hu
  locals v k _ := by rw [h]; exact nofun
  params v k _ := by rw [h]; exact nofun

theorem Fits.withLocal (h : r.Fits s) (v : NodeId) (n : String) :
    (r.withSlot v (.frame (Supply.localOffset s.locals) n)).Fits
      { s with locals := s.locals + 1 } where
  apart := apart_withSlot h.apart fun u => h.locals u _ (Nat.le_refl _)
  locals u k hk := by
    rw [placing_withSlot]
    split
    · intro e
      -- the local is taken now, and the next ones lie behind it
      have := Placing.localOffset_inj (Option.some.inj e)
      have : s.locals + 1 ≤ k := hk
      omega
    · exact h.locals u k (Nat.le_of_succ_le hk)
  params u k hk := by
    rw [placing_withSlot]
    split
    · exact fun e => localOffset_ne_paramOffset _ _ (Option.some.inj e)
    · exact h.params u k hk

end Surroundings

/-! ## 4. Code that computes a value -/

namespace Code.Supply

/-- The next temporary. -/
def tempSlot (s : Supply) : Location := .frame (localOffset s.locals) (tempName s.temps)

/-- The supply without its next temporary. -/
def afterTemp (s : Supply) : Supply := { s with locals := s.locals + 1, temps := s.temps + 1 }

@[simp] theorem afterTemp_locals (s : Supply) : s.afterTemp.locals = s.locals + 1 := rfl

end Code.Supply

theorem bind_run {α β : Type} {m : Emit α} {k : α → Emit β} {s t u : Supply} {x : α} {y : β}
    {c d : List Instr} (h : m s = .ok ⟨x, c, t⟩) (h' : k x t = .ok ⟨y, d, u⟩) :
    (m >>= k) s = .ok ⟨y, c ++ d, u⟩ :=
  Emit.bind_run_ok.mpr ⟨_, h, _, h', rfl⟩

/-- A location that was computed is a value that is there. -/
theorem some_run {m : Emit Location} {s s' : Supply} {l : Location} {code : List Instr}
    (h : m s = .ok ⟨l, code, s'⟩) : (do return some (← m) : Emit (Option Location)) s
      = .ok ⟨some l, code, s'⟩ := by
  have := bind_run (k := fun l => (pure (some l) : Emit (Option Location))) h (Emit.pure_run _ s')
  rwa [List.append_nil] at this

/-- A value that is there is passed on. -/
theorem needed_run {d : Defect} {m : Emit (Option Location)} {s s' : Supply} {l : Location}
    {code : List Instr} (h : m s = .ok ⟨some l, code, s'⟩) :
    Emit.needed d m s = .ok ⟨l, code, s'⟩ := by
  have := bind_run (k := Emit.required d) h (Emit.pure_run l s')
  rwa [List.append_nil] at this

/-- What a piece of code without jumps does to the variables, and where it leaves its value, if
they are placed in one of these ways. -/
structure Realizes (P : Placing → Prop) (f : Valuation → Held × Valuation) (s : Supply)
    (l : Location) (code : List Instr) (s' : Supply) : Prop where
  locals_le : s.locals ≤ s'.locals
  labels_eq : s'.labels = s.labels
  no_labels : labelsOf code = []
  runs : ∀ p, P p → ∀ w σ m, p.Holds σ m → p.Avoids s.locals s'.locals →
    ∃ m', effectAll w code m = some m' ∧ p.Holds (f σ).2 m' ∧ p.Framed s.locals s'.locals m m' ∧
      (f σ).1.At p s.locals s'.locals m' l

namespace Realizes

variable {P : Placing → Prop} {f g : Valuation → Held × Valuation} {s s' s'' : Supply}
  {l l' : Location}
  {code code' : List Instr}

/-- One instruction that fills the next temporary with a word found in the store. -/
theorem temp {i : Location → Instr} {x : Valuation → Int32}
    (hl : ∀ d, labelsOf [i d] = [])
    (he : ∀ p, P p → ∀ w σ m, p.Holds σ m →
      (i s.tempSlot).effect w m = some (m.write s.tempSlot (x σ))) :
    Realizes P (fun σ => (.word (x σ), σ)) s s.tempSlot [i s.tempSlot] s.afterTemp where
  locals_le := Nat.le_succ _
  labels_eq := rfl
  no_labels := hl _
  runs p hP w σ m hm hp := by
    -- no variable lies at the temporary
    have hk := fun v => hp v s.locals (Nat.le_refl _) (Nat.lt_succ_self _)
    refine ⟨m.write s.tempSlot (x σ), ?_, hm.write_temp hk,
      Placing.Framed.write_temp (Nat.le_refl _) (Nat.lt_succ_self _),
      s.locals, _, rfl, Nat.le_refl _, Nat.lt_succ_self _, Store.frame_write_self ..⟩
    unfold effectAll
    rw [he p hP w σ m hm]
    rfl

/-- The value of a variable stays in its slot. -/
theorem slot {v : NodeId} {o : Int} {n : String} (hv : ∀ p, P p → p v = some o) :
    Realizes P (fun σ => (.slot v, σ)) s (.frame o n) [] s where
  locals_le := Nat.le_refl _
  labels_eq := rfl
  no_labels := rfl
  runs p hP _ _ m hm _ := ⟨m, rfl, hm, fun _ _ _ => rfl, o, n, rfl, hv p hP⟩

/-- Code whose value depends on the value of the code in front of it. -/
theorem andThen (h : Realizes P f s l code s')
    (hl : labelsOf code' = []) (hle : s'.locals ≤ s''.locals) (hlab : s''.labels = s'.labels)
    (hr : ∀ p, P p → ∀ w σ m, p.Holds (f σ).2 m → p.Avoids s.locals s''.locals →
      (f σ).1.At p s.locals s'.locals m l →
      ∃ m', effectAll w code' m = some m' ∧ p.Holds (g σ).2 m' ∧
        p.Framed s.locals s''.locals m m' ∧ (g σ).1.At p s.locals s''.locals m' l') :
    Realizes P g s l' (code ++ code') s'' where
  locals_le := Nat.le_trans h.locals_le hle
  labels_eq := hlab.trans h.labels_eq
  no_labels := by rw [Code.labelsOf_append, h.no_labels, hl]; rfl
  runs p hP w σ m hm hp := by
    -- first the one piece of code runs, then the other in the store that it leaves
    obtain ⟨m₁, e₁, hm₁, hf₁, ha₁⟩ := h.runs p hP w σ m hm (hp.mono (Nat.le_refl _) hle)
    obtain ⟨m₂, e₂, hm₂, hf₂, ha₂⟩ := hr p hP w σ m₁ hm₁ hp ha₁
    refine ⟨m₂, ?_, hm₂, (hf₁.mono (Nat.le_refl _) hle).trans hf₂, ha₂⟩
    rw [Code.effectAll_append, e₁]
    exact e₂

/-- Code for a value, which is then copied to the slot of a variable. -/
theorem assign (h : Realizes P f s l code s') {v : NodeId} {o : Int} {n : String}
    (ha : ∀ p, P p → p.Apart) (hv : ∀ p, P p → p v = some o) :
    Realizes P
      (fun σ => ((f σ).1, Function.update (f σ).2 v ((f σ).1.value (f σ).2))) s l
      (code ++ [.copy (.frame o n) l]) s' :=
  h.andThen rfl (Nat.le_refl _) rfl fun p hP w σ m hm hp hx => by
    refine ⟨m.write (.frame o n) (m.read l), rfl, ?_, .write_slot (hv p hP),
      hx.keep (.write_slot (hv p hP)) hp (Nat.le_refl _)⟩
    rw [hx.read hm]
    exact hm.write_slot (ha p hP) (hv p hP)

/-- The code of two values, and an instruction that makes one word of them. **Both values are read
by that instruction,** so the first as it is after the code of the second. -/
theorem combine {F : Int32 → Int32 → Int32} {i : Location → Instr} (h : Realizes P f s l code s')
    (h' : Realizes P g s' l' code' s'') (hl : ∀ d, labelsOf [i d] = [])
    (hi : ∀ w m d, (i d).effect w m = some (m.write d (F (m.read l) (m.read l')))) :
    Realizes P
      (fun σ => (.word (F ((f σ).1.value (g (f σ).2).2) ((g (f σ).2).1.value (g (f σ).2).2)),
        (g (f σ).2).2))
      s s''.tempSlot (code ++ (code' ++ [i s''.tempSlot])) s''.afterTemp := by
  have hle := h.locals_le
  have hle' := h'.locals_le
  refine h.andThen ?_ (Nat.le_succ_of_le hle') h'.labels_eq
    fun p hP w σ m hm hp hx => ?_
  · rw [Code.labelsOf_append, h'.no_labels, hl]
    rfl
  · have hp' : p.Avoids s.locals s''.locals := hp.mono (Nat.le_refl _) (Nat.le_succ _)
    obtain ⟨m₁, e₁, hm₁, hf₁, hy⟩ := h'.runs p hP w _ m hm (hp'.mono hle (Nat.le_refl _))
    -- the second operand does not touch the temporary of the first
    have hx₁ := hx.keep hf₁ (hp'.mono (Nat.le_refl _) hle') hle'
    have hk := fun v => hp v s''.locals (Nat.le_trans hle hle') (Nat.lt_succ_self _)
    refine ⟨m₁.write s''.tempSlot _, ?_, hm₁.write_temp hk,
      (hf₁.mono hle (Nat.le_succ _)).trans
        (.write_temp (Nat.le_trans hle hle') (Nat.lt_succ_self _)),
      s''.locals, _, rfl, Nat.le_trans hle hle', Nat.lt_succ_self _, Store.frame_write_self ..⟩
    rw [Code.effectAll_append, e₁]
    show ((i s''.tempSlot).effect w m₁).bind (effectAll w []) = _
    rw [hi, hx₁.read hm₁, hy.read hm₁]
    rfl

end Realizes

end DecafLang
