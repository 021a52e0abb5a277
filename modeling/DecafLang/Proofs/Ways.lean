import Mathlib.Data.Set.Basic
import DecafLang.Proofs.Machine
import DecafLang.Proofs.FrameAllocation

/-!
# Ways through code

Where control may go in the code of a function, and which words of the frame are written before.

* `Instr.sets?` is the word of the frame that an instruction writes, `Instr.gets` are those that it
  reads; a run changes no other word of the frame (`Instr.effect_frame`).
* `Way` lists the positions that control passes. There are at least as many ways as runs
  (`Way.of_steps`), since a test may come out either way, and a `ret` is passed.
* `Flows` is a certificate: every label asks for some words, all jumps to it have them, and every
  instruction finds written what it reads. **What an instruction reads was there at the beginning,
  or was written on the way** (`Flows.written_on_way`).
-/

namespace DecafLang.Code

/-! ## 1. Words that are read and written -/

/-- The offset of a word of the frame. -/
def Location.frame? : Location → Option Int
  | .direct .frame o _ => some o
  | _ => none

namespace Instr

/-- The location that gets the result of the instruction. -/
def result? : Instr → Option Location
  | const d _ => some d
  | str d _ => some d
  | addr d _ => some d
  | copy d _ => some d
  | load d _ _ => some d
  | op _ d _ _ => some d
  | call _ d => d
  | callVia _ d => d
  | _ => none

/-- The locations whose words the instruction takes. One that puts a word behind an address takes
the address, too. -/
def sources : Instr → List Location
  | copy _ s => [s]
  | load _ s _ => [s]
  | store d s _ => [d, s]
  | op _ _ l r => [l, r]
  | jumpIfZero t _ => [t]
  | ret v => v.toList
  | push p => [p]
  | callVia a _ => [a]
  | _ => []

/-- The word of the frame that the instruction writes, by its offset. -/
def sets? (i : Instr) : Option Int := i.result?.bind Location.frame?

/-- The words of the frame that the instruction reads, by their offsets: those of its sources, and
what the place of its result counts from. -/
def gets (i : Instr) : List Int :=
  (i.sources ++ (i.result?.bind Location.base?).toList).filterMap fun x => x.root.frame?

/-- The label that the instruction jumps to. -/
def target? : Instr → Option Label
  | jump l => some l
  | jumpIfZero _ l => some l
  | _ => none

/-- What is read is among the operands. -/
theorem sources_subset (i : Instr) : i.sources ⊆ i.operands := by
  cases i <;> simp [sources, operands]

theorem operands_subset (i : Instr) : i.operands ⊆ i.result?.toList ++ i.sources := by
  cases i <;> simp [sources, operands, result?]

end Instr

/-- The words of the frame that the locations are, or count from. -/
def offsets (xs : List Location) : Set Int := {o | ∃ x ∈ xs, x.root.frame? = some o}

section

variable {xs ys : List Location} {x : Location} {o : Int} {i : Instr}

theorem mem_offsets : o ∈ offsets xs ↔ ∃ x ∈ xs, x.root.frame? = some o := Iff.rfl

theorem offsets_mono (h : xs ⊆ ys) : offsets xs ⊆ offsets ys := fun _ ⟨x, hx, e⟩ => ⟨x, h hx, e⟩

/-- The frame words of locations in a row. -/
theorem offsets_append : offsets (xs ++ ys) = offsets xs ∪ offsets ys := by
  ext o
  simp only [mem_offsets, List.mem_append, Set.mem_union, or_and_right, exists_or]

/-- A location behind another one lies behind the same word. -/
theorem Location.root_of_base? {b : Location} (h : x.base? = some b) : x.root = b.root := by
  cases x with
  | direct _ _ _ => cases h
  | based b' _ _ =>
    obtain rfl := Option.some.inj h
    rfl

theorem Location.root_of_frame? (h : x.frame? = some o) : x.root.frame? = some o := by
  cases x with
  | direct _ _ _ => exact h
  | based _ _ _ => cases h

/-- What is read is at hand if the operands are. -/
theorem Instr.gets_of_operands (h : i.operands ⊆ xs) (ho : o ∈ i.gets) : o ∈ offsets xs := by
  obtain ⟨x, hx, e⟩ := List.mem_filterMap.mp ho
  rcases List.mem_append.mp hx with hx | hx
  · exact ⟨x, h (i.sources_subset hx), e⟩
  · obtain ⟨d, hd, hb⟩ := Option.bind_eq_some_iff.mp (Option.mem_toList.mp hx)
    have hd : d ∈ i.operands := by cases i <;> simp_all [result?, operands]
    exact ⟨d, h hd, (Location.root_of_base? hb) ▸ e⟩

/-- What is read is at hand if the sources are, where the result has a word of its own. -/
theorem Instr.gets_of_sources (hd : i.result?.bind Location.base? = none) (h : i.sources ⊆ xs)
    (ho : o ∈ i.gets) : o ∈ offsets xs := by
  obtain ⟨x, hx, e⟩ := List.mem_filterMap.mp ho
  rw [hd] at hx
  rcases List.mem_append.mp hx with hx | hx
  · exact ⟨x, h hx, e⟩
  · cases hx

end

/-- The words of the frame that code writes, once for every time that it does. -/
def written (code : List Instr) : List Int := code.filterMap Instr.sets?

theorem written_append (a b : List Instr) : written (a ++ b) = written a ++ written b :=
  List.filterMap_append

/-! ## 2. Ways -/

/-- Control may go from one position to another: to the next one unless a jump is sure, and to
where the label of a jump stands. -/
inductive Leads (code : List Instr) : Nat → Nat → Prop
  | next {k : Nat} {i : Instr} (h : code[k]? = some i) (hi : ∀ l, i ≠ .jump l) :
    Leads code k (k + 1)
  | jump {k k' : Nat} {i : Instr} {l : Label} (h : code[k]? = some i) (hi : i.target? = some l)
    (h' : code[k']? = some (.label l)) : Leads code k k'

/-- Control may get from the first position to this one and pass these positions, of which the
last one comes first. -/
inductive Way (code : List Instr) : List Nat → Nat → Prop
  | start : Way code [] 0
  | step {ks : List Nat} {k k' : Nat} (way : Way code ks k) (leads : Leads code k k') :
    Way code (k :: ks) k'

section

variable {w : World} {code : List Instr} {c c' : Config} {n : Nat} {ks : List Nat}

/-- Where a label is found, it stands. -/
theorem label_of_position? {l : Label} {k : Nat} (h : position? code l = some k) :
    code[k]? = some (.label l) := by
  have h := List.of_findIdx?_eq_some h
  split at h
  · rename_i i hi
    rw [hi, eq_of_beq h]
  · cases h

/-- **A jump goes to where its label stands.** -/
theorem goes_of_jumpTo {l : Label} {m : Store} (h : jumpTo code l m = .goes c') :
    code[c'.pc]? = some (.label l) := by
  unfold jumpTo at h
  split at h
  · rename_i k hk
    cases h
    exact label_of_position? hk
  · cases h

/-- A run goes where control may go. -/
theorem Leads.of_step (h : Code.step w code c = .goes c') : Leads code c.pc c'.pc := by
  unfold Code.step at h
  split at h
  · rename_i i hi
    unfold Instr.perform at h
    split at h
    -- a `leave` or a `ret` goes nowhere
    · cases h
    · cases h
    -- a jump goes to a label, a test to a label or on, and all else goes on
    · exact .jump hi rfl (goes_of_jumpTo h)
    · split at h
      · exact .jump hi rfl (goes_of_jumpTo h)
      · cases h
        exact .next hi nofun
    · rename_i hjump _
      split at h
      · cases h
        exact .next hi hjump
      · cases h
  · cases h

/-- **Every run takes a way.** -/
theorem Way.of_steps (hs : Steps w code n c c') (hw : Way code ks c.pc) :
    ∃ ks', ks'.length = n ∧ Way code (ks' ++ ks) c'.pc := by
  induction hs generalizing ks with
  | refl => exact ⟨[], rfl, hw⟩
  | @step _ c _ _ hstep _ ih =>
    obtain ⟨ks', hn, hw'⟩ := ih (hw.step (.of_step hstep))
    refine ⟨ks' ++ [c.pc], ?_, ?_⟩
    · rw [List.length_append, hn]
      rfl
    · rwa [List.append_assoc]

/-- A write to another place leaves a word of the frame. -/
theorem Store.frame_write {m : Store} {d : Location} {x : Int32} {o : Int}
    (h : d.frame? ≠ some o) : (m.write d x).frame o = m.frame o := by
  match d with
  | .direct .frame p _ =>
    show (if o = p then x else m.frame o) = m.frame o
    exact if_neg fun e : o = p => h (e ▸ rfl)
  | .direct .globals _ _ => rfl
  | .based _ _ _ => rfl

/-- What a call leaves behind it is its result. -/
theorem Answer.frame_arrive {a : Answer} {m : Store} {d : Option Location} {o : Int}
    (h : d.bind Location.frame? ≠ some o) : (a.arrive m d).frame o = m.frame o := by
  cases d with
  | none => rfl
  | some d => exact Store.frame_write h

/-- **An instruction changes no word of the frame but the one that it writes.** -/
theorem Instr.effect_frame {i : Instr} {m m' : Store} {o : Int} (h : i.effect w m = some m')
    (ho : i.sets? ≠ some o) : m'.frame o = m.frame o := by
  cases i with
  | const _ _ | str _ _ | addr _ _ | copy _ _ | load _ _ _ =>
    cases h
    exact Store.frame_write ho
  | op o _ l r =>
    have h : (if o.traps (m.read r) then none
      else some (m.write _ (o.word (m.read l) (m.read r)))) = some m' := h
    -- an operator that traps has no effect
    split at h
    · cases h
    · cases h
      exact Store.frame_write ho
  | call _ _ | callVia _ _ =>
    obtain ⟨a, -, rfl⟩ := Option.map_eq_some_iff.mp h
    exact Answer.frame_arrive ho
  | store _ _ _ | label _ | enter _ | push _ | pop _ =>
    cases h
    rfl
  | jump _ | jumpIfZero _ _ | leave | ret _ | table _ _ => cases h

end

/-! ## 3. Certificates -/

/-- The label that the instruction jumps to or places. -/
def Instr.aim? : Instr → Option Label
  | .label l => some l
  | i => i.target?

variable {known : Label → Option (Set Int)} {G G' G₁ G₂ : Set Int} {a b code : List Instr}

/-- The instruction finds written what it reads, and what the label asks for that it jumps to or
places. -/
def Instr.Ready (known : Label → Option (Set Int)) (G : Set Int) (i : Instr) : Prop :=
  (∀ o ∈ i.gets, o ∈ G) ∧ ∀ l, i.aim? = some l → ∃ S, known l = some S ∧ S ⊆ G

/-- The words that are written behind an instruction: behind a label no more than it asks for. -/
def Instr.leaves (known : Label → Option (Set Int)) (G : Set Int) : Instr → Set Int
  | .label l => (known l).getD ∅
  | i => G ∪ {o | i.sets? = some o}

/-- Where some words are written, all instructions of the code find what they need, and behind the
code these words are written. -/
def Flows (known : Label → Option (Set Int)) : Set Int → List Instr → Set Int → Prop
  | G, [], G' => G' ⊆ G
  | G, i :: code, G' => i.Ready known G ∧ Flows known (i.leaves known G) code G'

namespace Flows

/-- The more is written before, the more is written after. -/
theorem leaves_mono (h : G₁ ⊆ G₂) (i : Instr) : i.leaves known G₁ ⊆ i.leaves known G₂ := by
  cases i with
  | label l => exact Set.Subset.refl _
  | _ => exact Set.union_subset_union_left _ h

/-- A certificate may begin with more. -/
theorem mono (h : Flows known G₁ code G) (h₁ : G₁ ⊆ G₂) : Flows known G₂ code G := by
  induction code generalizing G₁ G₂ with
  | nil => exact Set.Subset.trans h h₁
  | cons i code ih =>
    obtain ⟨⟨hg, hl⟩, h⟩ := h
    refine ⟨⟨fun o ho => h₁ (hg o ho), fun l e => ?_⟩, ih h (leaves_mono h₁ i)⟩
    -- what a jump needs is there, since more is written than before
    obtain ⟨S, hS, hsub⟩ := hl l e
    exact ⟨S, hS, Set.Subset.trans hsub h₁⟩

/-- **Certificates of code in a row are put together.** -/
theorem append (h : Flows known G a G₁) (h' : Flows known G₁ b G') :
    Flows known G (a ++ b) G' := by
  induction a generalizing G with
  | nil => exact h'.mono h
  | cons i a ih => exact ⟨h.1, ih h.2⟩

/-- It may promise less. -/
theorem weaken (h : Flows known G code G₁) (h' : G' ⊆ G₁) : Flows known G code G' :=
  List.append_nil code ▸ h.append h'

end Flows

/-- The words that are written in front of a position if control comes from the one before. -/
def writtenAt (known : Label → Option (Set Int)) (G : Set Int) (code : List Instr) (k : Nat) :
    Set Int :=
  (code.take k).foldl (fun G i => i.leaves known G) G

/-- The words that are written in front of an instruction wherever control comes from. -/
def Instr.finds (known : Label → Option (Set Int)) (G : Set Int) : Instr → Set Int
  | .label l => (known l).getD ∅
  | _ => G

variable {k : Nat} {ks : List Nat} {i : Instr} {o : Int}

/-- What is written before the next instruction. -/
theorem writtenAt_succ (h : code[k]? = some i) :
    writtenAt known G code (k + 1) = i.leaves known (writtenAt known G code k) := by
  unfold writtenAt
  rw [List.take_add_one, h, List.foldl_append]
  rfl

namespace Flows

/-- **Every instruction finds written what it reads.** -/
theorem ready (h : Flows known G code G') (hi : code[k]? = some i) :
    i.Ready known (writtenAt known G code k) := by
  induction code generalizing G k with
  | nil => cases hi
  | cons j code ih =>
    cases k with
    | zero =>
      obtain rfl := Option.some.inj hi
      exact h.1
    | succ k => exact ih h.2 hi

/-- What an instruction finds is among what is written before it. -/
theorem finds_subset (h : i.Ready known G) : i.finds known G ⊆ G := by
  cases i with
  | label l =>
    obtain ⟨S, hS, hsub⟩ := h.2 l rfl
    show (known l).getD ∅ ⊆ G
    rwa [hS]
  | _ => exact Set.Subset.refl _

/-- What it leaves is what it found, and what it writes. -/
theorem leaves_subset (i : Instr) :
    i.leaves known G ⊆ i.finds known G ∪ {o | i.sets? = some o} := by
  cases i with
  | label l => exact Set.subset_union_left
  | _ => exact Set.Subset.refl _

/-- **What an instruction finds was there at the beginning, or was written on the way**: what comes
from the position before is what this one finds, and what it writes; what comes from a jump is what
the label asks for, which the jump finds. -/
theorem finds_on_way (h : Flows known G code G') (hw : Way code ks k) (hi : code[k]? = some i) :
    ∀ o ∈ i.finds known (writtenAt known G code k),
      o ∈ G ∨ ∃ j ∈ ks, ∃ i', code[j]? = some i' ∧ i'.sets? = some o := by
  induction hw generalizing i with
  | start => exact fun o ho => .inl (finds_subset (h.ready hi) ho)
  | @step ks k k' _ hleads ih =>
    -- what was written on a part of the way was written on the way
    have earlier : ∀ {o}, (o ∈ G ∨ ∃ j ∈ ks, ∃ i', code[j]? = some i' ∧ i'.sets? = some o) →
        o ∈ G ∨ ∃ j ∈ k :: ks, ∃ i', code[j]? = some i' ∧ i'.sets? = some o := fun h =>
      h.imp_right fun ⟨j, hj, hi⟩ => ⟨j, List.mem_cons_of_mem _ hj, hi⟩
    intro o ho
    cases hleads with
    | @next i' hk _ =>
      have ho := finds_subset (h.ready hi) ho
      rw [writtenAt_succ hk] at ho
      rcases leaves_subset i' ho with ho | ho
      · exact earlier (ih hk o ho)
      · exact .inr ⟨k, List.mem_cons_self, i', hk, ho⟩
    | @jump _ i' l hk ht hl =>
      obtain rfl := Option.some.inj (hi.symm.trans hl)
      have haim : i'.aim? = some l := by cases i' <;> first | exact ht | cases ht
      -- all that the label asks for was written where the jump stands
      obtain ⟨S, hS, hsub⟩ := (h.ready hk).2 l haim
      have ho : o ∈ (known l).getD ∅ := ho
      rw [hS] at ho
      have hj : i'.finds known (writtenAt known G code k) = writtenAt known G code k := by
        cases i' <;> first | rfl | cases ht
      exact earlier (ih hk o (by rw [hj]; exact hsub ho))

/-- **What an instruction reads was there at the beginning, or was written on the way.** -/
theorem written_on_way (h : Flows known G code G') (hw : Way code ks k) (hi : code[k]? = some i)
    (ho : o ∈ i.gets) : o ∈ G ∨ ∃ j ∈ ks, ∃ i', code[j]? = some i' ∧ i'.sets? = some o := by
  refine h.finds_on_way hw hi o ?_
  have ho' := (h.ready hi).1 o ho
  cases i with
  | label l => cases ho
  | _ => exact ho'

end Flows

/-! ## 4. Words that are written once -/

/-- One instruction of the code writes the word, and control passes it before it comes to any that
reads the word. -/
def WrittenFirst (code : List Instr) (o : Int) : Prop :=
  ∃ k, (∀ j, (∃ i, code[j]? = some i ∧ i.sets? = some o) ↔ j = k) ∧
    ∀ ks j i, Way code ks j → code[j]? = some i → o ∈ i.gets → k ∈ ks

/-- What is written once is written at one position. -/
theorem exists_position (h : (written code).count o = 1) :
    ∃ k, ∀ j : Nat, (∃ i, code[j]? = some i ∧ i.sets? = some o) ↔ j = k := by
  induction code with
  | nil => cases h
  | cons i code ih =>
    by_cases hi : i.sets? = some o
    -- the first instruction is the only one, so no other writes the word
    · have hrest : (written code).count o = 0 := by
        unfold written at h
        rw [List.filterMap_cons_some hi, List.count_cons_self] at h
        exact Nat.succ.inj h
      refine ⟨0, fun j => ⟨fun ⟨i', hj, hs⟩ => ?_, fun e => ⟨i, e ▸ rfl, hi⟩⟩⟩
      cases j with
      | zero => rfl
      | succ j =>
        have hm : o ∈ written code :=
          List.mem_filterMap.mpr ⟨i', List.mem_of_getElem? hj, hs⟩
        exact absurd hm (List.count_eq_zero.mp hrest)
    -- the first instruction writes another word or none, so the rest writes it once
    · have hrest : (written code).count o = 1 := by
        unfold written at h
        cases hs : i.sets? with
        | none => rwa [List.filterMap_cons_none hs] at h
        | some p =>
          rw [List.filterMap_cons_some hs, List.count_cons_of_ne fun e : p = o => hi (e ▸ hs)] at h
          exact h
      obtain ⟨k, hk⟩ := ih hrest
      refine ⟨k + 1, fun j => ?_⟩
      cases j with
      | zero => exact ⟨fun ⟨i', hj, hs⟩ => absurd (Option.some.inj hj ▸ hs) hi, nofun⟩
      | succ j => exact (hk j).trans Nat.succ_inj.symm

/-- **A word that code writes once, and that nothing but its certificate vouches for, is written
first.** -/
theorem Flows.writtenFirst (h : Flows known G code G') (ho : o ∉ G)
    (hc : (written code).count o = 1) : WrittenFirst code o := by
  obtain ⟨k, hk⟩ := exists_position hc
  refine ⟨k, hk, fun ks j i hw hj hg => ?_⟩
  obtain hG | ⟨j', hj', i', hi', hs⟩ := h.written_on_way hw hj hg
  · exact absurd hG ho
  · exact (hk j').mp ⟨i', hi', hs⟩ ▸ hj'

end DecafLang.Code
