import DecafLang.Proofs.Meaning

/-!
# Control flow

How pieces of code with jumps between them do what a `Behaviour` says.

* `Reaches` says where a run has to come for an outcome: behind the piece, to the target of a
  `break`, or to the end of the function by giving control back.
* **`Implements` has two directions:** whatever the behaviour allows, the run does; and from where
  a run ends at all, the behaviour allows something.
* For every form of control flow there is one lemma about the jumps and labels it is made of.
-/

namespace DecafLang.Code

section

variable {w : World} {code : List Instr} {R : Valuation → Store → Prop}
  {k k' k₁ k₂ k₃ kb n : Nat} {b b' : Option Nat} {X Y U : Behaviour}
  {f : Behaviour.Step} {l : Location} {m m' : Store} {c : Config}

/-! ## 1. Runs and outcomes -/

/-- So many instructions lead to where an outcome leads: behind the piece, to where a `break` goes,
or out of the function. -/
def Reaches (w : World) (code : List Instr) (k' : Nat) (b : Option Nat) (n : Nat) (c : Config)
    (m' : Store) : Outcome → Prop
  | .normal => Steps w code n c ⟨k', m'⟩
  | .broke => ∃ kb, b = some kb ∧ Steps w code n c ⟨kb, m'⟩
  | .returned v => HaltsIn w code n c (.returned v m')

/-- What is reached from where a run comes to is reached from where it starts. -/
theorem Reaches.of_steps {j : Nat} {c' : Config} {o : Outcome} (hs : Steps w code n c c')
    (h : Reaches w code k' b j c' m' o) : Reaches w code k' b (n + j) c m' o := by
  cases o with
  | normal => exact hs.trans h
  | broke =>
    -- the target of the break is the same from here
    obtain ⟨kb, hb, h⟩ := h
    exact ⟨kb, hb, hs.trans h⟩
  | returned v => exact HaltsIn.of_steps hs h

/-- An outcome that is not normal does not depend on what lies behind the piece. -/
theorem Reaches.of_ne_normal {o : Outcome} (ho : o ≠ .normal) (h : Reaches w code k' b n c m' o)
    (k₁ : Nat) : Reaches w code k₁ b n c m' o := by
  cases o with
  | normal => exact absurd rfl ho
  | broke => exact h
  | returned v => exact h

/-- The code from `k` on does what the behaviour says and goes on at `k'`; a `break` goes to `b`.
The relation `R` says which stores hold which variables. -/
structure Implements (w : World) (code : List Instr) (R : Valuation → Store → Prop) (k k' : Nat)
    (b : Option Nat) (X : Behaviour) : Prop where
  sound : ∀ σ o σ' m, X σ o σ' → R σ m → ∃ n m', Reaches w code k' b n ⟨k, m⟩ m' o ∧ R σ' m'
  complete : ∀ σ m n h, R σ m → HaltsIn w code n ⟨k, m⟩ h → ∃ o σ', X σ o σ'

/-- The code from `k` to `k'` leaves the value of an expression at a location. -/
def Computes (w : World) (code : List Instr) (R : Valuation → Store → Prop) (k k' : Nat)
    (l : Location) (f : Behaviour.Step) : Prop :=
  ∀ σ m, R σ m → ∃ n m', Steps w code n ⟨k, m⟩ ⟨k', m'⟩ ∧ R (f σ).2 m' ∧ m'.read l = (f σ).1

/-- Where a test leads to, from the code that computes it. -/
theorem Computes.test {t : Label} (hf : Computes w code R k k₁ l f)
    (hj : code[k₁]? = some (.jumpIfZero l t)) (ht : position? code t = some k₂) {σ : Valuation}
    (hm : R σ m) : ∃ n m', Steps w code (n + 1) ⟨k, m⟩ ⟨if (f σ).1 = 0 then k₂ else k₁ + 1, m'⟩ ∧
      R (f σ).2 m' := by
  obtain ⟨n, m', hs, hm', hv⟩ := hf σ m hm
  refine ⟨n, m', hs.trans (.one ?_), hm'⟩
  split
  · rename_i h0
    exact step_jumpIfZero_of_eq hj ht (hv.trans h0)
  · rename_i h0
    exact step_jumpIfZero_of_ne hj (hv ▸ h0)

/-- Nothing but the place changes in front of the code of a value. -/
theorem Computes.of_steps (hs : ∀ m, Steps w code n ⟨k, m⟩ ⟨k', m⟩)
    (hf : Computes w code R k' k₁ l f) : Computes w code R k k₁ l f := by
  intro σ m hm
  obtain ⟨j, m', hs', h⟩ := hf σ m hm
  exact ⟨n + j, m', (hs m).trans hs', h⟩

/-! ## 2. Pieces without jumps -/

namespace Implements

/-- No code does nothing. -/
theorem skip : Implements w code R k k b .skip where
  sound := by
    intro σ o σ' m hx hm
    obtain ⟨rfl, rfl⟩ := hx
    exact ⟨0, m, .refl _, hm⟩
  complete σ m n h hm hh := ⟨.normal, σ, rfl, rfl⟩

/-- Code that goes on behind itself, whatever the store. -/
theorem of_steps (hs : ∀ m, Steps w code n ⟨k, m⟩ ⟨k', m⟩) : Implements w code R k k' b .skip where
  sound := by
    intro σ o σ' m hx hm
    obtain ⟨rfl, rfl⟩ := hx
    exact ⟨n, m, hs m, hm⟩
  complete σ m n h hm hh := ⟨.normal, σ, rfl, rfl⟩

/-- A label does nothing. -/
theorem label {t : Label} (h : code[k]? = some (.label t)) :
    Implements w code R k (k + 1) b .skip :=
  of_steps fun _ => .one (step_of_effect h rfl)

/-- A jump does nothing but go elsewhere. -/
theorem jump {t : Label} (h : code[k]? = some (.jump t)) (ht : position? code t = some k') :
    Implements w code R k k' b .skip :=
  of_steps fun _ => .one (step_jump h ht)

/-- Code that goes on and changes the store does what it computes. -/
theorem eval (h : ∀ σ m, R σ m → ∃ n m', Steps w code n ⟨k, m⟩ ⟨k', m'⟩ ∧ R (f σ).2 m') :
    Implements w code R k k' b (.eval f) where
  sound := by
    intro σ o σ' m hx hm
    obtain ⟨rfl, rfl⟩ := hx
    exact h σ m hm
  complete σ m n h hm hh := ⟨.normal, _, rfl, rfl⟩

/-- **A jump to the end of the loop breaks it.** -/
theorem broke {t : Label} (h : code[k]? = some (.jump t)) (ht : position? code t = some kb) :
    Implements w code R k k' (some kb) (.leave .broke) where
  sound := by
    intro σ o σ' m hx hm
    obtain ⟨rfl, rfl⟩ := hx
    exact ⟨1, m, ⟨kb, rfl, .one (step_jump h ht)⟩, hm⟩
  complete σ m n h hm hh := ⟨.broke, σ, rfl, rfl⟩

/-- **A `ret` gives control back.** -/
theorem ret (h : code[k]? = some (.ret none)) :
    Implements w code R k k' b (.leave (.returned none)) where
  sound := by
    intro σ o σ' m hx hm
    obtain ⟨rfl, rfl⟩ := hx
    refine ⟨0, m, ⟨_, .refl _, ?_⟩, hm⟩
    simp only [step, h, Instr.perform, Option.map_none]
  complete σ m n h hm hh := ⟨_, σ, rfl, rfl⟩

/-- A `ret` with a value gives it back. -/
theorem giveBack (hf : Computes w code R k k₁ l f) (h : code[k₁]? = some (.ret (some l))) :
    Implements w code R k k' b (.giveBack f) where
  sound := by
    intro σ o σ' m hx hm
    obtain ⟨rfl, rfl⟩ := hx
    -- the value is computed first, and the word that holds it is what is given back
    obtain ⟨n, m', hs, hm', hv⟩ := hf σ m hm
    refine ⟨n, m', ⟨_, hs, ?_⟩, hm'⟩
    simp only [step, h, Instr.perform, Option.map_some, hv]
  complete σ m n h hm hh := ⟨_, _, rfl, rfl⟩

/-! ## 3. Pieces in a row -/

/-- **Code behind code does one thing after the other.** -/
theorem seq (hX : Implements w code R k k₁ b X) (hY : Implements w code R k₁ k' b Y) :
    Implements w code R k k' b (.seq X Y) where
  sound := by
    intro σ o σ' m hx hm
    -- the first part comes through to the second, or it ends otherwise
    rcases hx with ⟨σ₁, hx, hy⟩ | ⟨ho, hx⟩
    · obtain ⟨n, m₁, hs, hm₁⟩ := hX.sound σ _ σ₁ m hx hm
      obtain ⟨j, m', hr, hm'⟩ := hY.sound σ₁ o σ' m₁ hy hm₁
      exact ⟨n + j, m', hr.of_steps hs, hm'⟩
    · obtain ⟨n, m', hr, hm'⟩ := hX.sound σ o σ' m hx hm
      exact ⟨n, m', hr.of_ne_normal ho k', hm'⟩
  complete σ m n h hm hh := by
    obtain ⟨o, σ₁, hx⟩ := hX.complete σ m n h hm hh
    cases o with
    | normal =>
      obtain ⟨j, m₁, hs, hm₁⟩ := hX.sound σ _ σ₁ m hx hm
      obtain ⟨-, hh'⟩ := Steps.halts_of_halts hs hh
      obtain ⟨o, σ', hy⟩ := hY.complete σ₁ m₁ _ h hm₁ hh'
      exact ⟨o, σ', .inl ⟨σ₁, hx, hy⟩⟩
    | broke => exact ⟨.broke, σ₁, .inr ⟨nofun, hx⟩⟩
    | returned v => exact ⟨.returned v, σ₁, .inr ⟨nofun, hx⟩⟩

/-- What a piece does may be told in other words. -/
theorem congr (h : Implements w code R k k' b X) (e : ∀ σ o σ', X σ o σ' ↔ Y σ o σ') :
    Implements w code R k k' b Y where
  sound σ o σ' m hy hm := h.sound σ o σ' m ((e σ o σ').mpr hy) hm
  complete σ m n h' hm hh := by
    obtain ⟨o, σ', hx⟩ := h.complete σ m n h' hm hh
    exact ⟨o, σ', (e σ o σ').mp hx⟩

/-- What always ends normally does not need to know where a `break` goes. -/
theorem of_normal (h : Implements w code R k k' b X) (hn : ∀ σ o σ', X σ o σ' → o = .normal) :
    Implements w code R k k' b' X where
  sound σ o σ' m hx hm := by
    obtain rfl := hn σ o σ' hx
    exact h.sound σ _ σ' m hx hm
  complete := h.complete

/-- Nothing afterwards. -/
theorem seq_skip (h : Implements w code R k k₁ b X) (h' : Implements w code R k₁ k' b .skip) :
    Implements w code R k k' b X :=
  (h.seq h').congr fun σ o σ' => by
    constructor
    · intro h
      rcases h with ⟨σ₁, hx, rfl, rfl⟩ | ⟨-, hx⟩
      · exact hx
      · exact hx
    · intro hx
      cases o with
      | normal => exact .inl ⟨σ', hx, rfl, rfl⟩
      | broke => exact .inr ⟨nofun, hx⟩
      | returned v => exact .inr ⟨nofun, hx⟩

/-- Nothing before. -/
theorem skip_seq (h : Implements w code R k k₁ b .skip) (h' : Implements w code R k₁ k' b X) :
    Implements w code R k k' b X :=
  (h.seq h').congr fun σ o σ' => by
    constructor
    · intro h
      rcases h with ⟨σ₁, ⟨-, rfl⟩, hx⟩ | ⟨ho, rfl, -⟩
      · exact hx
      · exact absurd rfl ho
    · intro hx
      exact .inl ⟨σ, ⟨rfl, rfl⟩, hx⟩

/-! ## 4. Choices and loops -/

/-- **A test chooses between two pieces.** -/
theorem branch {t : Label} (hf : Computes w code R k k₁ l f)
    (hj : code[k₁]? = some (.jumpIfZero l t)) (ht : position? code t = some k₂)
    (hX : Implements w code R (k₁ + 1) k' b X) (hY : Implements w code R k₂ k' b Y) :
    Implements w code R k k' b (.branch f X Y) where
  sound σ o σ' m hx hm := by
    -- the test is computed first, and then its outcome decides where the run goes on
    obtain ⟨n, m₁, hs, hm₁⟩ := hf.test hj ht hm
    unfold Behaviour.branch at hx
    split at hx
    · rename_i h0
      rw [if_pos h0] at hs
      obtain ⟨j, m', hr, hm'⟩ := hY.sound _ o σ' m₁ hx hm₁
      exact ⟨_, m', hr.of_steps hs, hm'⟩
    · rename_i h0
      rw [if_neg h0] at hs
      obtain ⟨j, m', hr, hm'⟩ := hX.sound _ o σ' m₁ hx hm₁
      exact ⟨_, m', hr.of_steps hs, hm'⟩
  complete σ m n h hm hh := by
    obtain ⟨j, m₁, hs, hm₁⟩ := hf.test hj ht hm
    obtain ⟨-, hh'⟩ := Steps.halts_of_halts hs hh
    unfold Behaviour.branch
    by_cases h0 : (f σ).1 = 0
    · rw [if_pos h0] at hh'
      simp only [if_pos h0]
      exact hY.complete _ m₁ _ h hm₁ hh'
    · rw [if_neg h0] at hh'
      simp only [if_neg h0]
      exact hX.complete _ m₁ _ h hm₁ hh'

/-- A value that decides where the run goes on. -/
theorem select {X : Int32 → Behaviour} {pos : Int32 → Nat}
    (hs : ∀ σ m, R σ m →
      ∃ n m', Steps w code n ⟨k, m⟩ ⟨pos (f σ).1, m'⟩ ∧ R (f σ).2 m')
    (hX : ∀ x, Implements w code R (pos x) k' b (X x)) :
    Implements w code R k k' b (.select f X) where
  sound σ o σ' m hx hm := by
    obtain ⟨n, m₁, hs, hm₁⟩ := hs σ m hm
    obtain ⟨j, m', hr, hm'⟩ := (hX _).sound _ o σ' m₁ hx hm₁
    exact ⟨_, m', hr.of_steps hs, hm'⟩
  complete σ m n h hm hh := by
    obtain ⟨j, m₁, hs, hm₁⟩ := hs σ m hm
    obtain ⟨-, hh'⟩ := Steps.halts_of_halts hs hh
    exact (hX _).complete _ m₁ _ h hm₁ hh'

/-- A `break` goes to where the piece ends anyway. -/
theorem caught (h : Implements w code R k k' (some k') X) :
    Implements w code R k k' b (.caught X) where
  sound := by
    intro σ o σ' m hx hm
    rcases hx with ⟨rfl, hx | hx⟩ | ⟨v, rfl, hx⟩
    · exact h.sound σ _ σ' m hx hm
    · obtain ⟨n, m', ⟨kb, hb, hs⟩, hm'⟩ := h.sound σ _ σ' m hx hm
      cases hb
      exact ⟨n, m', hs, hm'⟩
    · exact h.sound σ _ σ' m hx hm
  complete σ m n h' hm hh := by
    obtain ⟨o, σ', hx⟩ := h.complete σ m n h' hm hh
    cases o with
    | normal => exact ⟨.normal, σ', .inl ⟨rfl, .inl hx⟩⟩
    | broke => exact ⟨.normal, σ', .inl ⟨rfl, .inr hx⟩⟩
    | returned v => exact ⟨.returned v, σ', .inr ⟨v, rfl, hx⟩⟩

/-- **A loop:** at `k` a test that leaves to `k'`, then the body, whose `break` goes to `k'` as
well, then what follows the body, which goes back to `k`. -/
theorem loop {t : Label} (hf : Computes w code R k k₁ l f)
    (hj : code[k₁]? = some (.jumpIfZero l t)) (ht : position? code t = some k')
    (hX : Implements w code R (k₁ + 1) k₂ (some k') X) (hU : Implements w code R k₂ k none U)
    (hn : ∀ σ o σ', U σ o σ' → o = .normal) :
    Implements w code R k k' b (.loop f X U) where
  sound σ o σ' m hx hm := by
    induction hx generalizing m with
    | stop h0 =>
      obtain ⟨n, m₁, hs, hm₁⟩ := hf.test hj ht hm
      rw [if_pos h0] at hs
      exact ⟨_, m₁, hs, hm₁⟩
    | again h0 hx hu _ ih =>
      obtain ⟨n, m₁, hs, hm₁⟩ := hf.test hj ht hm
      rw [if_neg h0] at hs
      obtain ⟨j, m₂, hs₂, hm₂⟩ := hX.sound _ _ _ m₁ hx hm₁
      obtain ⟨i, m₃, hs₃, hm₃⟩ := hU.sound _ _ _ m₂ hu hm₂
      obtain ⟨q, m', hr, hm'⟩ := ih m₃ hm₃
      exact ⟨_, m', hr.of_steps ((hs.trans hs₂).trans hs₃), hm'⟩
    | broke h0 hx =>
      obtain ⟨n, m₁, hs, hm₁⟩ := hf.test hj ht hm
      rw [if_neg h0] at hs
      obtain ⟨j, m', ⟨kb, hb, hs'⟩, hm'⟩ := hX.sound _ _ _ m₁ hx hm₁
      cases hb
      exact ⟨_, m', hs.trans hs', hm'⟩
    | returned h0 hx =>
      obtain ⟨n, m₁, hs, hm₁⟩ := hf.test hj ht hm
      rw [if_neg h0] at hs
      obtain ⟨j, m', hr, hm'⟩ := hX.sound _ _ _ m₁ hx hm₁
      exact ⟨_, m', HaltsIn.of_steps hs hr, hm'⟩
  complete σ m n h hm hh := by
    -- every round takes a step, so the run that is left gets shorter
    induction n using Nat.strongRecOn generalizing σ m with
    | _ n ih =>
      obtain ⟨j, m₁, hs, hm₁⟩ := hf.test hj ht hm
      by_cases h0 : (f σ).1 = 0
      · exact ⟨.normal, _, .stop h0⟩
      · rw [if_neg h0] at hs
        obtain ⟨hle, hh₁⟩ := Steps.halts_of_halts hs hh
        obtain ⟨o, σ₁, hx⟩ := hX.complete _ m₁ _ h hm₁ hh₁
        cases o with
        | broke => exact ⟨.normal, σ₁, .broke h0 hx⟩
        | returned v => exact ⟨.returned v, σ₁, .returned h0 hx⟩
        | normal =>
          obtain ⟨i, m₂, hs₂, hm₂⟩ := hX.sound _ _ _ m₁ hx hm₁
          obtain ⟨-, hh₂⟩ := Steps.halts_of_halts hs₂ hh₁
          obtain ⟨o, σ₂, hu⟩ := hU.complete _ m₂ _ h hm₂ hh₂
          obtain rfl := hn _ _ _ hu
          obtain ⟨q, m₃, hs₃, hm₃⟩ := hU.sound _ _ _ m₂ hu hm₂
          obtain ⟨-, hh₃⟩ := Steps.halts_of_halts hs₃ hh₂
          obtain ⟨o, σ', hl⟩ := ih _ (by omega) σ₂ m₃ hm₃ hh₃
          exact ⟨o, σ', .again h0 hx hu hl⟩

end Implements

end

end DecafLang.Code
