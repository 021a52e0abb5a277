import Mathlib.Data.List.Nodup
import DecafLang.Proofs.Flow

/-!
# Pieces of code

Code that was written from a supply, with what it does and what was handed out for it.

* `Fills` and `Labelled` keep track of numbers: **no label stands in the code twice.**
* `Slots` says which of the locals that were handed out belong to variables; the others are
  temporaries.
* `Lowered` and `Valued` are the code of a statement and of a value, `Lowers` and `Values` the
  steps that write it. For every form of control flow there is one lemma that puts them together.
-/

namespace DecafLang

open Code (Computes Emit Emitted Implements Instr Label Location Occurs Op Steps Store Supply World
  effectAll labelsOf truth)
open Lowering Code.Supply

/-! ## 1. Numbers that are handed out -/

/-- Numbers of a range, none of them twice. -/
def Fills (ns : List Nat) (a b : Nat) : Prop := ∀ i, ns.count i ≤ if a ≤ i ∧ i < b then 1 else 0

namespace Fills

variable {ns ms : List Nat} {a b c i : Nat}

theorem nil : Fills [] a b := fun _ => Nat.zero_le _

/-- Numbers from one range behind those from the one before. -/
theorem append (h : Fills ns a b) (h' : Fills ms b c) (ha : a ≤ b) (hb : b ≤ c) :
    Fills (ns ++ ms) a c := by
  intro i
  have := h i
  have := h' i
  rw [List.count_append]
  split at * <;> split at * <;> split <;> omega

/-- A range may begin earlier. -/
theorem mono (h : Fills ns b c) (ha : a ≤ b) : Fills ns a c := by
  intro i
  have := h i
  split at this <;> split <;> omega

/-- The first number of a range in front of numbers from the rest. -/
theorem cons (h : Fills ns (a + 1) b) (hb : a < b) : Fills (a :: ns) a b := by
  intro i
  have := h i
  rw [List.count_cons]
  simp only [beq_iff_eq]
  split at this <;> split <;> split <;> omega

/-- Where the number stands is of no account. -/
theorem concat (h : Fills ns (a + 1) b) (hb : a < b) : Fills (ns ++ [a]) a b := by
  intro i
  have := h.cons hb i
  rw [List.count_cons] at this
  rwa [List.count_append, List.count_singleton]

/-- Numbers from a range lie in it. -/
theorem mem (h : Fills ns a b) (hi : i ∈ ns) : a ≤ i ∧ i < b := by
  have := List.count_pos_iff.mpr hi
  have := h i
  split at this
  · assumption
  · omega

theorem nodup (h : Fills ns a b) : ns.Nodup := List.nodup_iff_count_le_one.mpr fun i => by
  have := h i
  split at this <;> omega

end Fills

namespace Code

/-- The next label. -/
def Supply.nextLabel (s : Supply) : Label := labelName s.labels

/-- The supply without its next labels. -/
def Supply.afterLabels (s : Supply) (n : Nat) : Supply := { s with labels := s.labels + n }

@[simp] theorem Supply.afterLabels_locals (s : Supply) (n : Nat) :
    (s.afterLabels n).locals = s.locals := rfl

@[simp] theorem Supply.afterLabels_labels (s : Supply) (n : Nat) :
    (s.afterLabels n).labels = s.labels + n := rfl

/-- A new label is the next of the supply, and nothing is written for it. -/
theorem newLabel_run (s : Supply) : Emit.newLabel s = .ok ⟨s.nextLabel, [], s.afterLabels 1⟩ := rfl

/-- **Different numbers give different labels.** -/
theorem labelName_inj {m n : Nat} (h : Supply.labelName m = Supply.labelName n) : m = n := by
  have h : "_L" ++ m.repr = "_L" ++ n.repr := h
  -- the names differ in their digits only, and these give the number back
  have h' := congrArg String.toList h
  rw [String.toList_append, String.toList_append, List.append_cancel_left_eq, Nat.toList_repr,
    Nat.toList_repr] at h'
  have := congrArg (fun cs => Nat.ofDigitChars 10 cs 0) h'
  simpa only [Nat.ofDigitChars_ten_toDigits] using this

/-- The labels of the code are those of these numbers. -/
def Labelled (code : List Instr) (ns : List Nat) : Prop :=
  labelsOf code = ns.map Supply.labelName

namespace Labelled

variable {code code' : List Instr} {ns ns' : List Nat}

theorem nil (h : labelsOf code = []) : Labelled code [] := h

/-- Code behind code: the labels stand behind each other. -/
theorem append (h : Labelled code ns) (h' : Labelled code' ns') :
    Labelled (code ++ code') (ns ++ ns') := by
  unfold Labelled at *
  rw [labelsOf_append, h, h', List.map_append]

theorem label (i : Nat) : Labelled [.label (Supply.labelName i)] [i] := rfl

/-- Code without labels in front. -/
theorem behind (h : labelsOf code = []) (h' : Labelled code' ns) : Labelled (code ++ code') ns :=
  (nil h).append h'

/-- An instruction that is no label in front. -/
theorem cons {i : Instr} (h : labelsOf [i] = []) (h' : Labelled code ns) :
    Labelled (i :: code) ns := behind h h'

theorem cons_label (h : Labelled code ns) (i : Nat) :
    Labelled (.label (Supply.labelName i) :: code) (i :: ns) := (label i).append h

/-- **Code whose labels are numbers from a range has no label twice.** -/
theorem nodup {a b : Nat} (h : Labelled code ns) (hf : Fills ns a b) : (labelsOf code).Nodup := by
  rw [h]
  exact hf.nodup.map_on fun _ _ _ _ e => labelName_inj e

end Labelled

end Code

/-! ## 2. Lowered pieces -/

/-- The store holds the variables, and the bools among them are 0 or 1. -/
structure State (p : Placing) (T : NodeId → Prop) (σ : Valuation) (m : Store) : Prop where
  holds : p.Holds σ m
  truthful : Truthful T σ

/-- Among the locals of a range, these variables have these positions and no others have any. -/
def Slots (p : Placing) (a b : Nat) (pl : List (NodeId × Nat)) : Prop :=
  ∀ v i, a ≤ i → i < b → (p v = some (Supply.localOffset i) ↔ (v, i) ∈ pl)

namespace Slots

variable {p : Placing} {a b c : Nat} {pl pl' : List (NodeId × Nat)}

/-- The slots of the first part, where the second has numbers of its own. -/
theorem left (h : Slots p a c (pl ++ pl')) (hf : Fills (pl'.map Prod.snd) b c) (hb : b ≤ c) :
    Slots p a b pl := by
  intro v i hi hi'
  rw [h v i hi (Nat.lt_of_lt_of_le hi' hb), List.mem_append]
  refine ⟨fun hm => hm.elim id fun hm => ?_, .inl⟩
  -- a slot of the second part lies behind, so it is not asked for here
  have := (hf.mem (List.mem_map_of_mem hm)).1
  exact absurd hi' (Nat.not_lt.mpr this)

/-- The slots of the second part, likewise. -/
theorem right (h : Slots p a c (pl ++ pl')) (hf : Fills (pl.map Prod.snd) a b) (ha : a ≤ b) :
    Slots p b c pl' := by
  intro v i hi hi'
  rw [h v i (Nat.le_trans ha hi) hi', List.mem_append]
  refine ⟨fun hm => hm.elim (fun hm => ?_) id, .inr⟩
  have := (hf.mem (List.mem_map_of_mem hm)).2
  exact absurd this (Nat.not_lt.mpr hi)

/-- Where no variable got a slot, all locals are temporaries. -/
theorem avoids (h : Slots p a b []) : p.Avoids a b := by
  intro v i hi hi' e
  cases (h v i hi hi').mp e

/-- In front of the positions that are in use there are temporaries only. -/
theorem before (h : Slots p a c pl) (hf : Fills (pl.map Prod.snd) b c) (hb : b ≤ c) :
    p.Avoids a b := by
  have h : Slots p a c ([] ++ pl) := h
  exact (h.left hf hb).avoids

theorem behind (h : Slots p a c pl) (ha : a ≤ b) : Slots p b c pl := by
  have h : Slots p a c ([] ++ pl) := h
  exact h.right .nil ha

end Slots

/-- Code that leaves the value of an expression at a location. **The value stays there while other
temporaries are written,** as long as the variables stay as they are. -/
structure Valued (r : Surroundings) (T : NodeId → Prop) (f : Behaviour.Step) (s : Supply)
    (l : Location) (code : List Instr) (s' : Supply) : Prop where
  locals_le : s.locals ≤ s'.locals
  labels_eq : s'.labels = s.labels
  no_labels : labelsOf code = []
  keeps : ∀ {p : Placing} {w : World} {whole : List Instr} {k : Nat}, p.Apart → p.Covers r →
    p.Avoids s.locals s'.locals → Occurs whole k code → ∀ σ m, State p T σ m →
    ∃ n m', Steps w whole n ⟨k, m⟩ ⟨k + code.length, m'⟩ ∧ State p T (f σ).2 m' ∧
      ∀ d m'', s'.locals ≤ d → p.Framed s'.locals d m' m'' → p.Holds (f σ).2 m'' →
        m''.read l = (f σ).1

/-- Code that does what a behaviour says, with labels and slots of its own. -/
structure Lowered (r : Surroundings) (T : NodeId → Prop) (X : Behaviour) (s : Supply)
    (code : List Instr) (s' : Supply) (pl : List (NodeId × Nat)) : Prop where
  locals_le : s.locals ≤ s'.locals
  labels_le : s.labels ≤ s'.labels
  placed : Fills (pl.map Prod.snd) s.locals s'.locals
  labelled : ∃ ns, Code.Labelled code ns ∧ Fills ns s.labels s'.labels
  implements : ∀ {p : Placing} {w : World} {whole : List Instr} {k : Nat}, p.Apart → p.Covers r →
    Slots p s.locals s'.locals pl → Occurs whole k code → (labelsOf whole).Nodup →
    (∀ l, r.breakTo = some l → (Code.position? whole l).isSome) →
    Implements w whole (State p T) k (k + code.length) (r.breakTo.bind (Code.position? whole)) X

/-- These steps write such code, for these variables. -/
def Lowers (r : Surroundings) (T : NodeId → Prop) (m : Emit Unit) (X : Behaviour)
    (ids : List NodeId) : Prop :=
  ∀ s, ∃ code s' pl, m s = .ok ⟨(), code, s'⟩ ∧ pl.map Prod.fst = ids ∧
    Lowered r T X s code s' pl

/-- These steps write code for a value. -/
def Values (r : Surroundings) (T : NodeId → Prop) (m : Emit Location) (f : Behaviour.Step) : Prop :=
  ∀ s, ∃ l code s', m s = .ok ⟨l, code, s'⟩ ∧ Valued r T f s l code s'

section

variable {r : Surroundings} {T : NodeId → Prop} {p : Placing} {w : World} {whole : List Instr}
  {k : Nat} {X Y U : Behaviour} {f : Behaviour.Step} {m m' : Emit Unit} {t : Emit Location}
  {ids ids' : List NodeId} {s s' s₁ s₂ s₃ : Supply} {l : Location} {code c c' d : List Instr}
  {pl pl' : List (NodeId × Nat)}

/-- **The code of a value computes it in place,** wherever it occurs in the program. -/
theorem Valued.computes (h : Valued r T f s l code s') (ha : p.Apart) (hc : p.Covers r)
    (hp : p.Avoids s.locals s'.locals) (ho : Occurs whole k code) :
    Computes w whole (State p T) k (k + code.length) l f := by
  intro σ m hm
  -- no step in between touches the temporary that holds the value
  obtain ⟨n, m', hs, hm', hl⟩ := h.keeps ha hc hp ho σ m hm
  exact ⟨n, m', hs, hm', hl _ m' (Nat.le_refl _) (Placing.Framed.refl _ _ _ _) hm'.holds⟩

/-- A value that the code of an expression leaves somewhere, when the expression is worth it. -/
theorem Realizes.keeps {P : Placing → Prop} {g : Valuation → Held × Valuation}
    (h : Realizes P g s l code s') (hP : P p)
    (hg : ∀ σ, Truthful T σ → f σ = ((g σ).1.value (g σ).2, (g σ).2) ∧ Truthful T (g σ).2)
    (hp : p.Avoids s.locals s'.locals) (ho : Occurs whole k code) {σ : Valuation} {m : Store}
    (hm : State p T σ m) :
    ∃ n m', Steps w whole n ⟨k, m⟩ ⟨k + code.length, m'⟩ ∧ State p T (f σ).2 m' ∧
      ∀ d m'', s'.locals ≤ d → p.Framed s'.locals d m' m'' → p.Holds (f σ).2 m'' →
        m''.read l = (f σ).1 := by
  obtain ⟨m', he, hm', -, hl⟩ := h.runs p hP w σ m hm.holds hp
  obtain ⟨hf, ht⟩ := hg σ hm.truthful
  rw [hf]
  refine ⟨_, m', .of_effectAll ho he, ⟨hm', ht⟩, fun d m'' hd hfr hm'' => ?_⟩
  exact (hl.keep hfr hp hd).read hm''

/-- Nothing to write stands for nothing to do. -/
theorem Lowers.pure : Lowers r T (pure ()) .skip [] := by
  intro s
  refine ⟨[], s, [], rfl, rfl, Nat.le_refl _, Nat.le_refl _, .nil, ⟨[], rfl, .nil⟩, ?_⟩
  intro p w whole k _ _ _ _ _ _
  exact .skip

/-- One piece of code after the other. -/
theorem Lowered.seq (hx : Lowered r T X s c s₁ pl) (hy : Lowered r T Y s₁ c' s₂ pl') :
    Lowered r T (.seq X Y) s (c ++ c') s₂ (pl ++ pl') where
  locals_le := Nat.le_trans hx.locals_le hy.locals_le
  labels_le := Nat.le_trans hx.labels_le hy.labels_le
  placed := by
    rw [List.map_append]
    exact hx.placed.append hy.placed hx.locals_le hy.locals_le
  labelled := by
    obtain ⟨ns, hl, hf⟩ := hx.labelled
    obtain ⟨ns', hl', hf'⟩ := hy.labelled
    exact ⟨ns ++ ns', hl.append hl', hf.append hf' hx.labels_le hy.labels_le⟩
  implements ha hc hs ho hn hb := by
    obtain ⟨ho₁, ho₂⟩ := Occurs.append_iff.mp ho
    rw [List.length_append, ← Nat.add_assoc]
    exact (hx.implements ha hc (hs.left hy.placed hy.locals_le) ho₁ hn hb).seq
      (hy.implements ha hc (hs.right hx.placed hx.locals_le) ho₂ hn hb)

/-- Steps in a row write code in a row. -/
theorem Lowers.seq (hX : Lowers r T m X ids) (hY : Lowers r T m' Y ids') :
    Lowers r T (do m; m') (.seq X Y) (ids ++ ids') := by
  intro s
  obtain ⟨c, s₁, pl, e, hk, hx⟩ := hX s
  obtain ⟨c', s₂, pl', e', hk', hy⟩ := hY s₁
  exact ⟨_, s₂, _, bind_run e e', by rw [List.map_append, hk, hk'], hx.seq hy⟩

/-! ## 3. Jumps -/

/-- The code of an `if`: a test that is false jumps behind what it guards. -/
theorem Lowered.ifThen (hv : Valued r T f s l c s₁)
    (hx : Lowered r T X (s₁.afterLabels 1) c' s₂ pl) :
    Lowered r T (.branch f X .skip) s
      (c ++ .jumpIfZero l s₁.nextLabel :: (c' ++ [.label s₁.nextLabel])) s₂ pl := by
  have hle := hv.locals_le
  have hle' : s₁.locals ≤ s₂.locals := hx.locals_le
  have hlab : s₁.labels + 1 ≤ s₂.labels := hx.labels_le
  have hs := hv.labels_eq
  refine ⟨Nat.le_trans hle hle', by omega, hx.placed.mono hle, ?_, ?_⟩
  -- the one new label stands behind those of the body
  · obtain ⟨ns, hl, hf⟩ := hx.labelled
    refine ⟨ns ++ [s₁.labels], .behind hv.no_labels (.cons rfl (hl.append (.label s₁.labels))), ?_⟩
    rw [← hs]
    exact hf.concat hlab
  -- where the code lies, its parts lie behind each other and the label is where it stands
  · intro p w whole k ha hc hs ho hn hb
    obtain ⟨ho₁, ho₂⟩ := Occurs.append_iff.mp ho
    obtain ⟨hj, ho₃⟩ := Occurs.cons_iff.mp ho₂
    obtain ⟨hoX, hoL⟩ := Occurs.append_iff.mp ho₃
    have hlabel := (Occurs.cons_iff.mp hoL).1
    have hpos := Code.position?_eq hn hlabel
    have hend : k + (c ++ Instr.jumpIfZero l s₁.nextLabel ::
        (c' ++ [Instr.label s₁.nextLabel])).length = k + c.length + 1 + c'.length + 1 := by
      simp only [List.length_append, List.length_cons, List.length_nil]
      omega
    rw [hend]
    exact .branch (hv.computes ha hc (hs.before hx.placed hle') ho₁) hj hpos
      ((hx.implements ha hc (hs.behind hle) hoX hn hb).seq_skip (.label hlabel)) (.label hlabel)

/-- The steps write just this code. -/
theorem Lowers.ifThen (ht : Values r T t f) (hX : Lowers r T m X ids) :
    Lowers r T (do
      let test ← t
      let behind ← Emit.newLabel
      Emit.instr (.jumpIfZero test behind)
      m
      Emit.instr (.label behind)) (.branch f X .skip) ids := by
  intro s
  obtain ⟨l, c, s₁, e, hv⟩ := ht s
  obtain ⟨c', s₂, pl, e', hk, hx⟩ := hX (s₁.afterLabels 1)
  exact ⟨_, s₂, pl, bind_run e (bind_run (Code.newLabel_run s₁) (bind_run (c := [_]) rfl
    (bind_run e' rfl))), hk, .ifThen hv hx⟩

/-- The code of an `if` with an `else`: what is behind the test jumps over the other piece. -/
theorem Lowered.ifElse (hv : Valued r T f s l c s₁)
    (hx : Lowered r T X (s₁.afterLabels 1) c' s₂ pl)
    (hy : Lowered r T Y (s₂.afterLabels 1) d s₃ pl') :
    Lowered r T (.branch f X Y) s (c ++ .jumpIfZero l s₁.nextLabel :: (c' ++
      .jump s₂.nextLabel :: .label s₁.nextLabel :: (d ++ [.label s₂.nextLabel]))) s₃
        (pl ++ pl') := by
  have hle := hv.locals_le
  have hleX : s₁.locals ≤ s₂.locals := hx.locals_le
  have hleY : s₂.locals ≤ s₃.locals := hy.locals_le
  have hlabX : s₁.labels + 1 ≤ s₂.labels := hx.labels_le
  have hlabY : s₂.labels + 1 ≤ s₃.labels := hy.labels_le
  have hs := hv.labels_eq
  have hplaced : Fills ((pl ++ pl').map Prod.snd) s₁.locals s₃.locals := by
    rw [List.map_append]
    exact hx.placed.append hy.placed hleX hleY
  refine ⟨by omega, by omega, hplaced.mono hle, ?_, ?_⟩
  -- each branch is followed by a new label of its own
  · obtain ⟨ns, hl, hf⟩ := hx.labelled
    obtain ⟨ns', hl', hf'⟩ := hy.labelled
    refine ⟨(ns ++ [s₁.labels]) ++ (ns' ++ [s₂.labels]), ?_, ?_⟩
    · rw [List.append_assoc]
      exact .behind hv.no_labels (.cons rfl (hl.append (.cons rfl
        (.cons_label (hl'.append (.label s₂.labels)) s₁.labels))))
    · rw [← hs]
      exact (hf.concat hlabX).append (hf'.concat hlabY) (by omega) (by omega)
  · intro p w whole k ha hc hs ho hn hb
    obtain ⟨ho₁, ho₂⟩ := Occurs.append_iff.mp ho
    obtain ⟨hj, ho₃⟩ := Occurs.cons_iff.mp ho₂
    obtain ⟨hoX, ho₄⟩ := Occurs.append_iff.mp ho₃
    obtain ⟨hj', ho₅⟩ := Occurs.cons_iff.mp ho₄
    obtain ⟨hother, ho₆⟩ := Occurs.cons_iff.mp ho₅
    obtain ⟨hoY, ho₇⟩ := Occurs.append_iff.mp ho₆
    have hlabel := (Occurs.cons_iff.mp ho₇).1
    have hposo := Code.position?_eq hn hother
    have hpos := Code.position?_eq hn hlabel
    have hend : k + (c ++ Instr.jumpIfZero l s₁.nextLabel :: (c' ++ Instr.jump s₂.nextLabel ::
        Instr.label s₁.nextLabel :: (d ++ [Instr.label s₂.nextLabel]))).length =
          k + c.length + 1 + c'.length + 1 + 1 + d.length + 1 := by
      simp only [List.length_append, List.length_cons, List.length_nil]
      omega
    rw [hend]
    have hs' : Slots p s₁.locals s₃.locals (pl ++ pl') := hs.behind hle
    have iX := (hx.implements (w := w) ha hc (hs'.left hy.placed hleY) hoX hn hb).seq_skip
      (.jump hj' hpos)
    have iY := (hy.implements (w := w) ha hc (hs'.right hx.placed hleX) hoY hn hb).seq_skip
      (.label hlabel)
    exact .branch (hv.computes ha hc (hs.before hplaced (by omega)) ho₁) hj hposo
      (iX.seq_skip (.label hlabel)) (.skip_seq (.label hother) iY)

/-- The steps write just this code. -/
theorem Lowers.ifElse (ht : Values r T t f) (hX : Lowers r T m X ids) (hY : Lowers r T m' Y ids') :
    Lowers r T (do
      let test ← t
      let other ← Emit.newLabel
      Emit.instr (.jumpIfZero test other)
      m
      let behind ← Emit.newLabel
      Emit.instr (.jump behind)
      Emit.instr (.label other)
      m'
      Emit.instr (.label behind)) (.branch f X Y) (ids ++ ids') := by
  intro s
  obtain ⟨l, c, s₁, e, hv⟩ := ht s
  obtain ⟨cX, s₂, pl, eX, hk, hx⟩ := hX (s₁.afterLabels 1)
  obtain ⟨cY, s₃, pl', eY, hk', hy⟩ := hY (s₂.afterLabels 1)
  exact ⟨_, s₃, pl ++ pl', bind_run e (bind_run (Code.newLabel_run s₁) (bind_run (c := [_]) rfl
    (bind_run eX (bind_run (Code.newLabel_run s₂) (bind_run (c := [_]) rfl (bind_run (c := [_]) rfl
      (bind_run eY rfl))))))), by rw [List.map_append, hk, hk'], .ifElse hv hx hy⟩

/-- The code of a loop: what follows the body jumps back in front of the test. -/
theorem Lowered.loop (hv : Valued r T f (s.afterLabels 2) l c s₁)
    (hx : Lowered (r.leavingTo (s.afterLabels 1).nextLabel) T X s₁ c' s₂ pl)
    (hu : Lowered r T U s₂ d s₃ []) (hn' : ∀ σ o σ', U σ o σ' → o = .normal) :
    Lowered r T (.loop f X U) s (.label s.nextLabel :: (c ++
      .jumpIfZero l (s.afterLabels 1).nextLabel :: (c' ++ (d ++
        [.jump s.nextLabel, .label (s.afterLabels 1).nextLabel])))) s₃ pl := by
  have hle : s.locals ≤ s₁.locals := hv.locals_le
  have hleX : s₁.locals ≤ s₂.locals := hx.locals_le
  have hleU : s₂.locals ≤ s₃.locals := hu.locals_le
  have hlabX : s₁.labels ≤ s₂.labels := hx.labels_le
  have hlabU : s₂.labels ≤ s₃.labels := hu.labels_le
  have hs : s₁.labels = s.labels + 2 := hv.labels_eq
  have hplaced : Fills (pl.map Prod.snd ++ []) s₁.locals s₃.locals :=
    hx.placed.append hu.placed hleX hleU
  rw [List.append_nil] at hplaced
  refine ⟨by omega, by omega, hplaced.mono hle, ?_, ?_⟩
  · obtain ⟨ns, hl, hf⟩ := hx.labelled
    obtain ⟨ns', hl', hf'⟩ := hu.labelled
    refine ⟨s.labels :: (ns ++ ns' ++ [s.labels + 1]), ?_, ?_⟩
    · rw [List.append_assoc]
      -- the label of the top stands in front, and that of the end behind all others
      exact .cons_label (.behind hv.no_labels (.cons rfl (hl.append (hl'.append
        (.cons rfl (.label (s.labels + 1))))))) s.labels
    · have hfs : Fills (ns ++ ns') (s.labels + 1 + 1) s₃.labels := by
        have := hf.append hf' hlabX hlabU
        rwa [hs] at this
      exact (hfs.concat (by omega)).cons (by omega)
  · intro p w whole k ha hc hs ho hn hb
    obtain ⟨htop, ho₁⟩ := Occurs.cons_iff.mp ho
    obtain ⟨hoT, ho₂⟩ := Occurs.append_iff.mp ho₁
    obtain ⟨hj, ho₃⟩ := Occurs.cons_iff.mp ho₂
    obtain ⟨hoX, ho₄⟩ := Occurs.append_iff.mp ho₃
    obtain ⟨hoU, ho₅⟩ := Occurs.append_iff.mp ho₄
    obtain ⟨hj', ho₆⟩ := Occurs.cons_iff.mp ho₅
    have hlabel := (Occurs.cons_iff.mp ho₆).1
    have hpost := Code.position?_eq hn htop
    have hpos := Code.position?_eq hn hlabel
    have hend : k + (Instr.label s.nextLabel :: (c ++
        Instr.jumpIfZero l (s.afterLabels 1).nextLabel :: (c' ++ (d ++
          [Instr.jump s.nextLabel, Instr.label (s.afterLabels 1).nextLabel])))).length =
            k + 1 + c.length + 1 + c'.length + d.length + 1 + 1 := by
      simp only [List.length_append, List.length_cons, List.length_nil]
      omega
    rw [hend]
    have hs' : Slots p s₁.locals s₃.locals (pl ++ []) := by
      rw [List.append_nil]
      exact hs.behind hle
    have iT := (hv.computes (w := w) ha hc (hs.before hplaced (by omega)) hoT).of_steps
      fun m => .one (Code.step_of_effect htop rfl)
    have iX := hx.implements (w := w) ha hc (hs'.left hu.placed hleU) hoX hn fun b hb => by
      cases hb
      rw [hpos]
      rfl
    have iU := (hu.implements (w := w) ha hc (hs'.right hx.placed hleX) hoU hn hb).seq_skip
      (.jump hj' hpost)
    have hbreak : (r.leavingTo (s.afterLabels 1).nextLabel).breakTo.bind (Code.position? whole) =
        some (k + 1 + c.length + 1 + c'.length + d.length + 1) := hpos
    rw [hbreak] at iX
    exact (Implements.loop iT hj hpos iX (iU.of_normal hn') hn').seq_skip (.label hlabel)

/-- **A loop:** `m` is the body, where a `break` leaves the loop, and `m'` what follows the body. -/
theorem Lowers.loop {m : Label → Emit Unit} (ht : Values r T t f)
    (hX : ∀ b, Lowers (r.leavingTo b) T (m b) X ids)
    (hU : Lowers r T m' U []) (hn' : ∀ σ o σ', U σ o σ' → o = .normal) :
    Lowers r T (do
      let top ← Emit.newLabel
      let behind ← Emit.newLabel
      Emit.instr (.label top)
      let test ← t
      Emit.instr (.jumpIfZero test behind)
      m behind
      m'
      Emit.instr (.jump top)
      Emit.instr (.label behind)) (.loop f X U) ids := by
  intro s
  obtain ⟨l, c, s₁, e, hv⟩ := ht (s.afterLabels 2)
  obtain ⟨cX, s₂, pl, eX, hk, hx⟩ := hX (s.afterLabels 1).nextLabel s₁
  obtain ⟨cU, s₃, pl', eU, hk', hu⟩ := hU s₂
  obtain rfl := List.map_eq_nil_iff.mp hk'
  exact ⟨_, s₃, pl, bind_run (Code.newLabel_run s) (bind_run (Code.newLabel_run (s.afterLabels 1))
    (bind_run (c := [_]) rfl (bind_run e (bind_run (c := [_]) rfl (bind_run eX
      (bind_run eU rfl)))))), hk, .loop hv hx hu hn'⟩

end

end DecafLang
