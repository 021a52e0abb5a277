import DecafLang.Proofs.ScalarStatements
import DecafLang.Proofs.Pieces
import DecafLang.Proofs.Scopes

/-!
# The code of a switch

* `Dispatched` is the code of comparisons, which come one by one and lead to the first arm whose
  label is equal to the value, or behind themselves.
* `LoweredArms` is the code of arms, which runs from each of its labels to its end.
* `Lowers.switch` puts them together. A jump behind the comparisons goes to the default, or behind
  the end.
-/

namespace DecafLang

open Code (Computes Emit Emitted Implements Instr Label Location Occurs Op Steps Store Supply World
  effectAll labelsOf truth)
open Lowering Code.Supply

/-! ## 1. Finding the arm -/

/-- The labels of arms that got their numbers from `b` on. -/
def armLabels (b n : Nat) : List Label := (List.range' b n).map labelName

theorem armLabels_succ (b n : Nat) : armLabels b (n + 1) = labelName b :: armLabels (b + 1) n := by
  unfold armLabels
  rw [List.range'_succ, List.map_cons]

theorem newLabels_run (n : Nat) (s : Supply) :
    Emit.newLabels n s = .ok ⟨armLabels s.labels n, [], s.afterLabels n⟩ := by
  induction n generalizing s with
  | zero => rfl
  | succ n ih =>
    have e : (s.afterLabels 1).afterLabels n = s.afterLabels (n + 1) := by
      unfold afterLabels
      simp only [Nat.add_assoc, Nat.add_comm 1 n]
    have ih := ih (s.afterLabels 1)
    rw [e] at ih
    rw [armLabels_succ]
    unfold Emit.newLabels
    exact bind_run (Code.newLabel_run s) (bind_run (d := []) ih rfl)

/-- The arms with their labels. -/
def arms (b : Nat) (cs : List Case) : List (Option Int32 × Label) :=
  (cs.map Case.label).zip (armLabels b cs.length)

theorem arms_cons (b : Nat) (c : Case) (cs : List Case) :
    arms b (c :: cs) = (c.label, labelName b) :: arms (b + 1) cs := by
  unfold arms
  rw [List.length_cons, armLabels_succ]
  rfl

theorem defaultLabel?_eq {b : Nat} {cs : List Case}
    (h : cs.countP (fun c => c.label.isNone) ≤ 1) :
    defaultLabel? (arms b cs) =
      (cs.findIdx? fun c => c.label.isNone).map fun i => labelName (b + i) := by
  induction cs generalizing b with
  | nil => rfl
  | cons c cs ih =>
    rw [arms_cons, List.findIdx?_cons]
    unfold defaultLabel? at ih ⊢
    rw [List.filter_cons]
    cases hc : c.label with
    | some v =>
      rw [List.countP_cons, hc] at h
      simp only [Option.isNone_some, Bool.false_eq_true, if_false]
      rw [ih (b := b + 1) h, Option.map_map]
      refine congrArg (fun g => Option.map g _) (funext fun i => ?_)
      show labelName (b + 1 + i) = labelName (b + (i + 1))
      rw [Nat.add_assoc, Nat.add_comm 1 i]
    | none =>
      have hz : cs.countP (fun c => c.label.isNone) = 0 := by
        rw [List.countP_cons, hc] at h
        simp only [Option.isNone_none, if_true] at h
        omega
      have hf : (arms (b + 1) cs).filter (fun a => a.1.isNone) = [] := by
        refine List.filter_eq_nil_iff.mpr fun a ha hn => ?_
        obtain ⟨d, hd, e⟩ := List.mem_map.mp (List.of_mem_zip ha).1
        rw [← e] at hn
        exact List.countP_eq_zero.mp hz d hd hn
      simp only [Option.isNone_none, if_true, hf]
      rfl

/-- The code of the comparisons with the labels of arms, which got their numbers from `b` on. **It
leads to the first arm whose label is equal to the value,** or behind itself. -/
structure Dispatched (l : Location) (cs : List Case) (b : Nat) (s : Supply) (code : List Instr)
    (s' : Supply) : Prop where
  locals_le : s.locals ≤ s'.locals
  labels_eq : s'.labels = s.labels
  no_labels : labelsOf code = []
  runs : ∀ {p : Placing} {w : World} {whole : List Instr} {k : Nat} {q : Nat → Nat} {x : Int32},
    p.Avoids s.locals s'.locals → Occurs whole k code →
    (∀ i < cs.length, Code.position? whole (labelName (b + i)) = some (q i)) →
    ∀ σ m, p.Holds σ m →
      (∀ m', p.Framed s.locals s'.locals m m' → p.Holds σ m' → m'.read l = x) →
      ∃ n m', p.Holds σ m' ∧ Steps w whole n ⟨k, m⟩
        ⟨((cs.findIdx? fun c => c.label == some x).map q).getD (k + code.length), m'⟩

section

variable {l : Location} {c : Case} {cs : List Case} {b : Nat} {s s' : Supply} {code : List Instr}
  {v : Int32}

/-- The default is not compared with. -/
theorem Dispatched.skip (hc : c.label = none) (h : Dispatched l cs (b + 1) s code s') :
    Dispatched l (c :: cs) b s code s' where
  locals_le := h.locals_le
  labels_eq := h.labels_eq
  no_labels := h.no_labels
  runs {p w whole k q x} hp ho hpos σ m hm hx := by
    obtain ⟨n, m', hm', hs⟩ := h.runs (w := w) (q := fun i => q (i + 1)) hp ho
      (fun i hi => by
        rw [Nat.add_assoc, Nat.add_comm 1 i]
        exact hpos (i + 1) (Nat.succ_lt_succ hi)) σ m hm hx
    refine ⟨n, m', hm', ?_⟩
    rw [List.findIdx?_cons, hc]
    have hne : ((none : Option Int32) == some x) = false := rfl
    simp only [hne, Bool.false_eq_true, if_false, Option.map_map]
    exact hs

/-- A comparison leaves behind whether the value differs from the label of the arm. -/
theorem compare_steps {p : Placing} {w : World} {whole : List Instr} {k : Nat} {σ : Valuation}
    {m : Store} {x : Int32} (hp : p.Avoids s.locals (s.locals + 2))
    (h₀ : whole[k]? = some (.const s.tempSlot v))
    (h₁ : whole[k + 1]? = some (.op .ne s.afterTemp.tempSlot l s.tempSlot)) (hm : p.Holds σ m)
    (hx : ∀ m', p.Framed s.locals (s.locals + 2) m m' → p.Holds σ m' → m'.read l = x) :
    ∃ m', Steps w whole 2 ⟨k, m⟩ ⟨k + 1 + 1, m'⟩ ∧ p.Holds σ m' ∧
      p.Framed s.locals (s.locals + 2) m m' ∧ m'.read s.afterTemp.tempSlot = truth (x != v) := by
  have hk : ∀ u, p u ≠ some (localOffset s.locals) := fun u => hp u _ (Nat.le_refl _) (by omega)
  have hk' : ∀ u, p u ≠ some (localOffset (s.locals + 1)) := fun u =>
    hp u _ (Nat.le_succ _) (by omega)
  let m₁ := m.write s.tempSlot v
  have hm₁ : p.Holds σ m₁ := hm.write_temp hk
  have hf₁ : p.Framed s.locals (s.locals + 2) m m₁ := .write_temp (Nat.le_refl _) (by omega)
  have hl₁ : m₁.read l = x := hx m₁ hf₁ hm₁
  have hv₁ : m₁.read s.tempSlot = v := Store.frame_write_self ..
  have hop : (Instr.op .ne s.afterTemp.tempSlot l s.tempSlot).effect w m₁ =
      some (m₁.write s.afterTemp.tempSlot (truth (x != v))) := by
    rw [Op.effect_op rfl, hl₁, hv₁]
    rfl
  have hf₂ : p.Framed s.locals (s.locals + 2) m₁
      (m₁.write s.afterTemp.tempSlot (truth (x != v))) :=
    .write_temp (Nat.le_succ _) (Nat.lt_succ_self _)
  exact ⟨_, .step (Code.step_of_effect h₀ rfl) (.one (Code.step_of_effect h₁ hop)),
    hm₁.write_temp hk', hf₁.trans hf₂, Store.frame_write_self ..⟩

/-- An arm with a label is jumped to if the label is equal to the value. -/
theorem Dispatched.compare (hc : c.label = some v)
    (h : Dispatched l cs (b + 1) s.afterTemp.afterTemp code s') :
    Dispatched l (c :: cs) b s (Instr.const s.tempSlot v ::
      Instr.op .ne s.afterTemp.tempSlot l s.tempSlot ::
        Instr.jumpIfZero s.afterTemp.tempSlot (labelName b) :: code) s' := by
  have hle : s.locals + 2 ≤ s'.locals := h.locals_le
  refine ⟨by omega, h.labels_eq, h.no_labels, fun {p w whole k q x} hp ho hpos σ m hm hx => ?_⟩
  obtain ⟨h₀, ho₁⟩ := Occurs.cons_iff.mp ho
  obtain ⟨h₁, ho₂⟩ := Occurs.cons_iff.mp ho₁
  obtain ⟨h₂, ho₃⟩ := Occurs.cons_iff.mp ho₂
  obtain ⟨m₂, hs, hm₂, hf₂, ht⟩ := compare_steps (w := w) (hp.mono (Nat.le_refl _) hle) h₀ h₁ hm
    fun m' hf => hx m' (hf.mono (Nat.le_refl _) hle)
  rw [List.findIdx?_cons, hc]
  by_cases hxv : x = v
  · subst hxv
    have hz : m₂.read s.afterTemp.tempSlot = 0 := by
      rw [ht, bne_self_eq_false]
      rfl
    refine ⟨_, m₂, hm₂, hs.trans (.one ?_)⟩
    simp only [beq_self_eq_true, if_true]
    exact Code.step_jumpIfZero_of_eq h₂ (hpos 0 (Nat.succ_pos _)) hz
  · have hnz : m₂.read s.afterTemp.tempSlot ≠ 0 := by
      rw [ht, bne_iff_ne.mpr hxv]
      decide
    obtain ⟨n, m', hm', hs'⟩ := h.runs (w := w) (q := fun i => q (i + 1)) (x := x)
      (hp.mono (Nat.le_add_right _ 2) (Nat.le_refl _)) ho₃
      (fun i hi => by
        rw [Nat.add_assoc, Nat.add_comm 1 i]
        exact hpos (i + 1) (Nat.succ_lt_succ hi)) σ m₂ hm₂ fun m' hf hm' =>
      hx m' ((hf₂.mono (Nat.le_refl _) hle).trans
        (hf.mono (Nat.le_add_right _ 2) (Nat.le_refl _))) hm'
    refine ⟨2 + 1 + n, m', hm', (hs.trans (.one (Code.step_jumpIfZero_of_ne h₂ hnz))).trans ?_⟩
    have hne : (some v == some x) = false := by
      simpa using Ne.symm hxv
    have hend : k + (Instr.const s.tempSlot v :: Instr.op .ne s.afterTemp.tempSlot l s.tempSlot ::
        Instr.jumpIfZero s.afterTemp.tempSlot (labelName b) :: code).length =
          k + 1 + 1 + 1 + code.length := by
      simp only [List.length_cons]
      omega
    rw [hend]
    simp only [hne, Bool.false_eq_true, if_false, Option.map_map]
    exact hs'

/-- **The comparisons can be written, and lead to the arm that the value selects.** -/
theorem dispatch_run (cs : List Case) (b : Nat) (s : Supply) :
    ∃ code s', dispatch l (arms b cs) s = .ok ⟨(), code, s'⟩ ∧ Dispatched l cs b s code s' := by
  induction cs generalizing b s with
  | nil =>
    exact ⟨[], s, rfl, Nat.le_refl _, rfl, rfl, fun _ _ _ σ m hm _ => ⟨0, m, hm, .refl _⟩⟩
  | cons c cs ih =>
    rw [arms_cons]
    cases hc : c.label with
    | none =>
      obtain ⟨code, s', e, h⟩ := ih (b + 1) s
      exact ⟨code, s', e, h.skip hc⟩
    | some v =>
      obtain ⟨code, s', e, h⟩ := ih (b + 1) s.afterTemp.afterTemp
      exact ⟨_, s', bind_run (c := [_]) rfl (bind_run (c := [_]) rfl (bind_run (c := [_]) rfl e)),
        h.compare hc⟩

end

/-! ## 2. The arms -/

/-- The code of arms whose labels have their numbers from `b` on, and where in it the code of each
arm begins. -/
structure LoweredArms (r : Surroundings) (T : NodeId → Prop) (a : Notes) (cs : List Case) (b : Nat)
    (s : Supply) (code : List Instr) (s' : Supply) (pl : List (NodeId × Nat)) (pos : Nat → Nat) :
    Prop where
  locals_le : s.locals ≤ s'.locals
  labels_le : s.labels ≤ s'.labels
  placed : Fills (pl.map Prod.snd) s.locals s'.locals
  labelled : ∃ ns, Code.Labelled code ns ∧ ∀ i, ns.count i ≤
    (if b ≤ i ∧ i < b + cs.length then 1 else 0)
      + if s.labels ≤ i ∧ i < s'.labels then 1 else 0
  begins : ∀ i < cs.length, code[pos i]? = some (.label (labelName (b + i)))
  starts : pos 0 = 0
  ends : pos cs.length = code.length
  implements : ∀ {p : Placing} {w : World} {whole : List Instr} {k : Nat}, p.Apart → p.Covers r →
    Slots p s.locals s'.locals pl → Occurs whole k code → (labelsOf whole).Nodup →
    (∀ l, r.breakTo = some l → (Code.position? whole l).isSome) → ∀ i ≤ cs.length,
    Implements w whole (State p T) (k + pos i) (k + code.length)
      (r.breakTo.bind (Code.position? whole)) (Case.execFrom a cs i)

section

variable {r : Surroundings} {T : NodeId → Prop} {a : Notes} {c : Case} {cs : List Case} {b : Nat}
  {s s₁ s₂ : Supply} {code code' : List Instr} {pl pl' : List (NodeId × Nat)} {pos : Nat → Nat}

theorem LoweredArms.nil : LoweredArms r T a [] b s [] s [] fun _ => 0 := by
  refine ⟨Nat.le_refl _, Nat.le_refl _, .nil, ⟨[], rfl, fun _ => Nat.zero_le _⟩,
    fun i hi => absurd hi (Nat.not_lt_zero i), rfl, rfl, ?_⟩
  intro p w whole k _ _ _ _ _ _ i hi
  exact .skip

/-- The code of an arm stands behind the label of the arm, and falls through to the next one. -/
theorem LoweredArms.cons (hx : Lowered r T (c.exec a) s code s₁ pl)
    (hy : LoweredArms r T a cs (b + 1) s₁ code' s₂ pl' pos) :
    LoweredArms r T a (c :: cs) b s (.label (labelName b) :: (code ++ code')) s₂ (pl ++ pl')
      (fun | 0 => 0 | i + 1 => 1 + code.length + pos i) where
  locals_le := Nat.le_trans hx.locals_le hy.locals_le
  labels_le := Nat.le_trans hx.labels_le hy.labels_le
  placed := by
    rw [List.map_append]
    exact hx.placed.append hy.placed hx.locals_le hy.locals_le
  labelled := by
    obtain ⟨ns, hl, hf⟩ := hx.labelled
    obtain ⟨ns', hl', hf'⟩ := hy.labelled
    have hlab := hx.labels_le
    have hlab' := hy.labels_le
    refine ⟨b :: (ns ++ ns'), .cons_label (hl.append hl') b, fun i => ?_⟩
    have hi := hf i
    have hi' := hf' i
    rw [List.count_cons, List.count_append, List.length_cons]
    simp only [beq_iff_eq]
    split_ifs at * <;> omega
  begins i hi := by
    cases i with
    | zero => rfl
    | succ i =>
      have := hy.begins i (Nat.lt_of_succ_lt_succ hi)
      show (Instr.label (labelName b) :: (code ++ code'))[1 + code.length + pos i]? = _
      rw [Nat.add_assoc, Nat.add_comm 1, List.getElem?_cons_succ,
        List.getElem?_append_right (Nat.le_add_right _ _), Nat.add_sub_cancel_left, this,
        Nat.add_assoc, Nat.add_comm 1 i]
  starts := rfl
  ends := by
    show 1 + code.length + pos cs.length = _
    rw [hy.ends, List.length_cons, List.length_append]
    omega
  implements {p w whole k} ha hc hs ho hn hb i hi := by
    obtain ⟨hlabel, ho₁⟩ := Occurs.cons_iff.mp ho
    obtain ⟨hoX, hoY⟩ := Occurs.append_iff.mp ho₁
    have iY := hy.implements (w := w) ha hc (hs.right hx.placed hx.locals_le) hoY hn hb
    have hend : k + (Instr.label (labelName b) :: (code ++ code')).length =
        k + 1 + code.length + code'.length := by
      rw [List.length_cons, List.length_append]
      omega
    rw [hend]
    cases i with
    | zero =>
      have iX := hx.implements (w := w) ha hc (hs.left hy.placed hy.locals_le) hoX hn hb
      have h₀ := iY 0 (Nat.zero_le _)
      rw [hy.starts] at h₀
      exact .skip_seq (.label hlabel) (iX.seq h₀)
    | succ i =>
      have := iY i (Nat.le_of_succ_le_succ hi)
      have e : k + (1 + code.length + pos i) = k + 1 + code.length + pos i := by omega
      show Implements w whole (State p T) (k + (1 + code.length + pos i)) _ _ _
      rw [e]
      exact this

/-- Arms are written one after the other, if each of them can be. -/
theorem Case.lower_all
    (h : ∀ c ∈ cs, Lowers r T (c.lower r) (c.exec a) (Opening.declared c.openings)) (b : Nat)
    (s : Supply) :
    ∃ code s' pl pos, Case.lowerAll cs (armLabels b cs.length) r s = .ok ⟨(), code, s'⟩ ∧
      pl.map Prod.fst = Opening.declared (Case.openingsAll cs) ∧
      LoweredArms r T a cs b s code s' pl pos := by
  induction cs generalizing b s with
  | nil => exact ⟨[], s, [], _, rfl, rfl, .nil⟩
  | cons c cs ih =>
    obtain ⟨code, s₁, pl, e, hk, hx⟩ := h c List.mem_cons_self s
    obtain ⟨code', s₂, pl', pos, e', hk', hy⟩ := ih (fun d hd => h d (List.mem_cons_of_mem _ hd))
      (b + 1) s₁
    refine ⟨_, s₂, pl ++ pl', _, ?_, ?_, .cons hx hy⟩
    · rw [List.length_cons, armLabels_succ]
      exact bind_run (c := [_]) rfl (bind_run e e')
    · rw [List.map_append, hk, hk', ← Opening.declared_append]
      rfl

end

theorem Case.entry_le (x : Int32) (cs : List Case) : Case.entry x cs ≤ cs.length := by
  unfold Case.entry
  cases h : cs.findIdx? fun c => c.label == some x with
  | some i => exact Nat.le_of_lt (List.findIdx?_eq_some_iff_getElem.mp h).1
  | none =>
    cases h' : cs.findIdx? fun c => c.label.isNone with
    | some i => exact Nat.le_of_lt (List.findIdx?_eq_some_iff_getElem.mp h').1
    | none => exact Nat.le_refl _

/-- **The comparisons and the jump behind them lead to the arm with which the `switch` begins,** or
behind the arms. -/
theorem Dispatched.entry {l : Location} {cs : List Case} {b : Nat} {s s' : Supply}
    {code whole : List Instr} {p : Placing} {w : World} {k : Nat} {q : Nat → Nat} {x : Int32}
    {σ : Valuation} {m : Store} {behind : Label} (h : Dispatched l cs b s code s')
    (hd : cs.countP (fun c => c.label.isNone) ≤ 1) (hp : p.Avoids s.locals s'.locals)
    (ho : Occurs whole k code)
    (hj : whole[k + code.length]? = some (.jump ((defaultLabel? (arms b cs)).getD behind)))
    (harm : ∀ i < cs.length, Code.position? whole (labelName (b + i)) = some (q i))
    (hbehind : Code.position? whole behind = some (q cs.length)) (hm : p.Holds σ m)
    (hx : ∀ m', p.Framed s.locals s'.locals m m' → p.Holds σ m' → m'.read l = x) :
    ∃ n m', p.Holds σ m' ∧ Steps w whole n ⟨k, m⟩ ⟨q (Case.entry x cs), m'⟩ := by
  obtain ⟨n, m', hm', hs⟩ := h.runs (w := w) hp ho harm σ m hm hx
  unfold Case.entry
  cases hi : cs.findIdx? fun c => c.label == some x with
  | some i =>
    rw [hi] at hs
    exact ⟨n, m', hm', hs⟩
  | none =>
    rw [hi] at hs
    have hpos : Code.position? whole ((defaultLabel? (arms b cs)).getD behind) =
        some (q ((cs.findIdx? fun c => c.label.isNone).getD cs.length)) := by
      rw [defaultLabel?_eq hd]
      cases hi : cs.findIdx? fun c => c.label.isNone with
      | some i => exact harm i (List.findIdx?_eq_some_iff_getElem.mp hi).1
      | none => exact hbehind
    exact ⟨_, m', hm', hs.trans (.one (Code.step_jump hj hpos))⟩

/-- The value is computed, and leads to the arm with which the `switch` begins. -/
theorem Dispatched.select {r : Surroundings} {T : NodeId → Prop} {f : Behaviour.Step}
    {cs : List Case} {b : Nat} {s s₁ s₁' s₂ : Supply} {l : Location} {code c whole : List Instr}
    {p : Placing} {w : World} {k : Nat} {q : Nat → Nat} {behind : Label}
    (h : Dispatched l cs b s₁' code s₂) (hv : Valued r T f s l c s₁)
    (hs : s₁'.locals = s₁.locals) (hd : cs.countP (fun c => c.label.isNone) ≤ 1) (ha : p.Apart)
    (hc : p.Covers r) (hp : p.Avoids s.locals s₂.locals) (ho : Occurs whole k c)
    (ho' : Occurs whole (k + c.length) code)
    (hj : whole[k + c.length + code.length]? =
      some (.jump ((defaultLabel? (arms b cs)).getD behind)))
    (harm : ∀ i < cs.length, Code.position? whole (labelName (b + i)) = some (q i))
    (hbehind : Code.position? whole behind = some (q cs.length)) (σ : Valuation) (m : Store)
    (hm : State p T σ m) :
    ∃ n m', Steps w whole n ⟨k, m⟩ ⟨q (Case.entry (f σ).1 cs), m'⟩ ∧ State p T (f σ).2 m' := by
  have hle := hv.locals_le
  have hle' : s₁.locals ≤ s₂.locals := hs ▸ h.locals_le
  obtain ⟨n, m₁, hs₁, hm₁, hkeep⟩ :=
    hv.keeps (w := w) ha hc (hp.mono (Nat.le_refl _) hle') ho σ m hm
  obtain ⟨j, m₂, hm₂, hs₂⟩ := h.entry (w := w) hd (hp.mono (hs ▸ hle) (Nat.le_refl _)) ho' hj harm
    hbehind hm₁.holds fun m' hf hm' => hkeep _ m' hle' (hs ▸ hf) hm'
  exact ⟨_, m₂, hs₁.trans hs₂, hm₂, hm₁.truthful⟩

section

variable {r : Surroundings} {T : NodeId → Prop} {a : Notes} {cs : List Case} {f : Behaviour.Step}

/-- The code of a `switch`: the value, the comparisons, a jump to the default or behind the end,
and the arms. -/
theorem Lowered.switch {s s₁ s₂ s₃ : Supply} {l : Location} {c cd ca : List Instr}
    {pl : List (NodeId × Nat)} {pos : Nat → Nat} (hv : Valued r T f s l c s₁)
    (hcomp : Dispatched l cs (s₁.labels + 1) ((s₁.afterLabels 1).afterLabels cs.length) cd s₂)
    (hx : LoweredArms (r.leavingTo s₁.nextLabel) T a cs (s₁.labels + 1) s₂ ca s₃ pl pos)
    (hd : cs.countP (fun c => c.label.isNone) ≤ 1) :
    Lowered r T (.caught (.select f fun x => Case.execFrom a cs (Case.entry x cs))) s
      (c ++ (cd ++ .jump ((defaultLabel? (arms (s₁.labels + 1) cs)).getD s₁.nextLabel) ::
        (ca ++ [.label s₁.nextLabel]))) s₃ pl := by
  have hle : s.locals ≤ s₁.locals := hv.locals_le
  have hled : s₁.locals ≤ s₂.locals := hcomp.locals_le
  have hlex : s₂.locals ≤ s₃.locals := hx.locals_le
  have hlab : s₁.labels = s.labels := hv.labels_eq
  have hld : s₂.labels = s₁.labels + 1 + cs.length := hcomp.labels_eq
  have hlx : s₂.labels ≤ s₃.labels := hx.labels_le
  refine ⟨by omega, by omega, hx.placed.mono (by omega), ?_, ?_⟩
  · obtain ⟨ns, hl, hf⟩ := hx.labelled
    have hf : Fills ns (s₁.labels + 1) s₃.labels := fun i => by
      have := hf i
      split at this <;> split at this <;> split <;> omega
    refine ⟨ns ++ [s₁.labels], .behind hv.no_labels (.behind hcomp.no_labels
      (.cons rfl (hl.append (.label s₁.labels)))), ?_⟩
    rw [← hlab]
    exact hf.concat (by omega)
  · intro p w whole k ha hc hs ho hn hb
    obtain ⟨hoV, ho₁⟩ := Occurs.append_iff.mp ho
    obtain ⟨hoD, ho₂⟩ := Occurs.append_iff.mp ho₁
    obtain ⟨hj, ho₃⟩ := Occurs.cons_iff.mp ho₂
    obtain ⟨hoX, ho₄⟩ := Occurs.append_iff.mp ho₃
    have hlabel := (Occurs.cons_iff.mp ho₄).1
    have hpos := Code.position?_eq hn hlabel
    have hend : k + (c ++ (cd ++ Instr.jump
        ((defaultLabel? (arms (s₁.labels + 1) cs)).getD s₁.nextLabel) ::
          (ca ++ [Instr.label s₁.nextLabel]))).length =
            k + c.length + cd.length + 1 + ca.length + 1 := by
      simp only [List.length_append, List.length_cons, List.length_nil]
      omega
    rw [hend]
    -- the arms, from each of them on
    have iX : ∀ i ≤ cs.length, Implements w whole (State p T)
        (k + c.length + cd.length + 1 + pos i) (k + c.length + cd.length + 1 + ca.length)
        (some (k + c.length + cd.length + 1 + ca.length)) (Case.execFrom a cs i) := by
      have := hx.implements (w := w) ha hc (hs.behind (Nat.le_trans hle hled)) hoX hn
        fun b hb => by
          cases hb
          rw [hpos]
          rfl
      rwa [show (r.leavingTo s₁.nextLabel).breakTo.bind (Code.position? whole) = _ from hpos]
        at this
    have harm : ∀ i < cs.length, Code.position? whole (labelName (s₁.labels + 1 + i)) =
        some (k + c.length + cd.length + 1 + pos i) := fun i hi =>
      Code.position?_eq hn (hoX.get (hx.begins i hi))
    have hbehind : Code.position? whole s₁.nextLabel =
        some (k + c.length + cd.length + 1 + pos cs.length) := by
      rw [hx.ends]
      exact hpos
    have hgo := hcomp.select (w := w) (q := fun i => k + c.length + cd.length + 1 + pos i) hv rfl hd
      ha hc (hs.before hx.placed hlex) hoV hoD hj harm hbehind
    exact (Implements.caught (.select hgo fun x => iX _ (Case.entry_le x cs))).seq_skip
      (.label hlabel)

/-- **A `switch`:** the comparisons, a jump to the default or behind the end, and the arms, where
a `break` leaves the `switch`. -/
theorem Lowers.switch {t : Emit Location} (ht : Values r T t f)
    (hd : cs.countP (fun c => c.label.isNone) ≤ 1)
    (h : ∀ b, ∀ c ∈ cs, Lowers (r.leavingTo b) T (c.lower (r.leavingTo b)) (c.exec a)
      (Opening.declared c.openings)) :
    Lowers r T (do
      let value ← t
      let behind ← Emit.newLabel
      let labels ← Emit.newLabels cs.length
      let arms := (cs.map Case.label).zip labels
      dispatch value arms
      Emit.instr (.jump ((defaultLabel? arms).getD behind))
      Case.lowerAll cs labels (r.leavingTo behind)
      Emit.instr (.label behind))
      (.caught (.select f fun x => Case.execFrom a cs (Case.entry x cs)))
      (Opening.declared (Case.openingsAll cs)) := fun s => by
  obtain ⟨l, c, s₁, e, hv⟩ := ht s
  obtain ⟨cd, s₂, ed, hcomp⟩ := dispatch_run (l := l) cs (s₁.labels + 1)
    ((s₁.afterLabels 1).afterLabels cs.length)
  obtain ⟨ca, s₃, pl, pos, ea, hk, hx⟩ := Case.lower_all (h s₁.nextLabel) (s₁.labels + 1) s₂
  exact ⟨_, s₃, pl, bind_run e (bind_run (c := []) (Code.newLabel_run s₁) (bind_run (c := [])
    (newLabels_run cs.length (s₁.afterLabels 1)) (bind_run ed (bind_run (c := [_]) rfl
      (bind_run ea rfl))))), hk, .switch hv hcomp hx hd⟩

end

end DecafLang
