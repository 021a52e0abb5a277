import Mathlib.Logic.Relation
import DecafLang.Proofs.References
import DecafLang.Proofs.Temporaries

/-!
# Jumps

Where the jumps in the code of a program go.

* Code that has a certificate has the labels of all its jumps known (`Flows.known_of_mem`). The body
  of a function has one where nothing is known but the labels that were handed out for it, and these
  are placed in the body. So **whatever a body jumps to stands in it** (`FnDecl.label_of_jump`).
* A label that is handed out is placed once, as long as no function has a name that makes its label
  one of these (`Program.count_label`).
* **No jump leaves its function** (`Program.jumps_confined`), and so control, once inside a
  function, stays there until it comes to the end (`Chunk.Confined.stays`).
-/

namespace DecafLang

open Code (Chunk Emitted Instr Label Leads Supply)
open Lowering

/-! ## 1. Jumps of a body -/

namespace Code

theorem Instr.aim_of_target {i : Instr} {t : Label} (h : i.target? = some t) :
    i.aim? = some t := by
  cases i <;> first | exact h | cases h

/-- The labels of jumps are known. -/
theorem Flows.known_of_mem {known : Label → Option (Set Int)} {G G' : Set Int} {code : List Instr}
    {i : Instr} {t : Label} (h : Flows known G code G') (hi : i ∈ code)
    (ht : i.target? = some t) : ∃ S, known t = some S := by
  induction code generalizing G with
  | nil => cases hi
  | cons j code ih =>
    rcases List.mem_cons.mp hi with rfl | hi
    · obtain ⟨S, hS, -⟩ := h.1.2 t (Instr.aim_of_target ht)
      exact ⟨S, hS⟩
    · exact ih h.2 hi

theorem mem_handedOut {a b : Nat} {l : Label} :
    l ∈ handedOut a b ↔ ∃ n, (a ≤ n ∧ n < b) ∧ Supply.labelName n = l := by
  unfold handedOut
  rw [Multiset.mem_map]
  exact exists_congr fun n => and_congr_left' Multiset.mem_Ico

/-- The instruction may stand in the body of a function: it opens no frame and closes none, and is
no table. -/
def Instr.Bodily : Instr → Prop
  | .enter _ => False
  | .leave => False
  | .table _ _ => False
  | _ => True

theorem Instr.Inner.bodily {l : Layout} {i : Instr} (h : i.Inner l) : i.Bodily := by
  cases i <;> first | exact h | trivial

/-- Where no table stands, what is defined is placed. -/
theorem label_mem_of_defined {code : List Instr} {t : Label} (hc : ∀ i ∈ code, i.Bodily)
    (h : t ∈ defined code) : .label t ∈ code := by
  obtain ⟨i, hi, e⟩ := List.mem_filterMap.mp h
  cases i with
  | label l => exact Option.some.inj e ▸ hi
  | table c ms => cases hc _ hi
  | _ => cases e

end Code

/-- **Whatever the body of a function jumps to stands in it**, and is a label that was handed
out. -/
theorem FnDecl.label_of_jump {g : FnDecl} {r : Surroundings} {m : Bool} {s : Supply}
    {x : Emitted Unit} {i : Instr} {t : Label} (hr : r.AtTop)
    (h : g.lowerBody r m s.newFrame = .ok x) (hi : i ∈ x.code) (ht : i.target? = some t) :
    .label t ∈ x.code ∧ ∃ n, t = Supply.labelName n := by
  obtain ⟨own, start, ts, hc, -, -, hlabels, -⟩ := FnDecl.lowerBody_course hr h
  obtain ⟨place, hflows⟩ :=
    (hc.orderly Set.univ (Set.subset_univ _) (Set.subset_univ _)).flows
  -- nothing is known but the labels of the body
  obtain ⟨known, hknown, honly⟩ :=
    Code.exists_known place fun n => start.labels ≤ n ∧ n < x.supply.labels
  obtain ⟨S, hS⟩ :=
    (hflows known (fun n h₁ h₂ => hknown n ⟨h₁, h₂⟩) nofun).known_of_mem hi ht
  obtain ⟨n, hn, rfl⟩ := honly t S hS
  refine ⟨Code.label_mem_of_defined (fun j hj => (hc.inner j hj).bodily) ?_, n, rfl⟩
  obtain ⟨-, e⟩ := g.balanced_lowerBody r m _ x h
  rw [add_zero, zero_add] at e
  refine Multiset.mem_coe.mp (e ▸ Code.mem_handedOut.mpr ⟨n, ?_, rfl⟩)
  exact ⟨hlabels ▸ hn.1, hn.2⟩

/-! ## 2. Labels that are placed once -/

namespace Code

variable {code : List Instr} {t cls : Label} {l : Layout}

/-- A label is defined where it is placed, and by tables of this name. -/
theorem count_defined : (defined code).count t =
    code.count (.label t) + (code.filterMap (Instr.tableOf? t)).length := by
  induction code with
  | nil => rfl
  | cons i code ih =>
    rw [defined_cons, List.count_append, ih, List.count_cons, List.filterMap_cons]
    cases i with
    | label l =>
      by_cases e : l = t
      · subst e
        simp [Instr.defined?, Instr.tableOf?]
        omega
      · simp [Instr.defined?, Instr.tableOf?, e]
    | table c ms =>
      by_cases e : c = t
      · subst e
        simp [Instr.defined?, Instr.tableOf?]
        omega
      · simp [Instr.defined?, Instr.tableOf?, e]
    | _ => simp [Instr.defined?, Instr.tableOf?]

end Code

/-- As many tables have a name as classes. -/
theorem Source.length_tables {r : Surroundings} {l : Layout} {cls : String} {ss : List Source}
    {cs : List Chunk} (h : List.Forall₂ (Source.Makes r) ss cs) (hc : ∀ c ∈ cs, c.Closed l) :
    ((cs.flatMap Chunk.code).filterMap (Instr.tableOf? cls)).length =
      ((ss.filterMap Source.class?).map ClassDecl.name).count cls := by
  induction h with
  | nil => rfl
  | cons hmakes _ ih =>
    obtain ⟨hone, hall⟩ := List.forall_mem_cons.mp hc
    rw [List.flatMap_cons, List.filterMap_append, List.length_append, ih hall]
    cases hmakes with
    | function _ =>
      rw [Chunk.tables_function hone]
      exact Nat.zero_add _
    | @table c _ _ =>
      by_cases e : c.name = cls
      · simp [Chunk.code, Instr.tableOf?, Source.class?, e, Nat.add_comm]
      · simp [Chunk.code, Instr.tableOf?, Source.class?, e]

/-- No function at the top level is called `L` with a number behind it: its label would be one that
may be handed out. -/
def Program.Unnumbered (p : Program) : Prop :=
  ∀ g, Decl.fn g ∈ p.decls → ∀ n : Nat, g.name ≠ "L" ++ toString n

theorem Code.labelName_ne_qualifiedLabel (n : Nat) (cls method : String) :
    qualifiedLabel cls method ≠ Supply.labelName n := by
  intro e
  refine no_dot_labelName n ?_
  rw [← e, qualifiedLabel_toList]
  simp

theorem Code.plainLabel_eq_labelName {n : Nat} {name : String}
    (h : plainLabel name = Supply.labelName n) : name = "L" ++ toString n := by
  unfold plainLabel at h
  split at h
  · rename_i e
    have h := congrArg String.toList (e.symm.trans h)
    -- the main function keeps its name, which does not start like a label
    rw [labelName_toList] at h
    exact absurd (List.cons.inj h).1 (by decide)
  · have h := congrArg String.toList h
    rw [labelName_toList, String.toList_append] at h
    have hname : name.toList = 'L' :: Nat.toDigits 10 n := (List.cons.inj h).2
    have hnumber : ("L" ++ toString n).toList = 'L' :: Nat.toDigits 10 n := by
      rw [String.toList_append]
      exact congrArg ('L' :: ·) Nat.toList_repr
    exact String.toList_inj.mp (hname.trans hnumber.symm)

/-- A label that may be handed out is none of declarations, unless a class has this name. -/
theorem Decl.count_labels {ds : List Decl} {n : Nat}
    (h : ∀ g, Decl.fn g ∈ ds → ∀ n : Nat, g.name ≠ "L" ++ toString n) :
    (ds.flatMap Decl.labels).count (Supply.labelName n) =
      ((ds.filterMap Decl.cls?).map ClassDecl.name).count (Supply.labelName n) := by
  induction ds with
  | nil => rfl
  | cons d ds ih =>
    rw [List.flatMap_cons, List.count_append, ih fun g hg => h g (List.mem_cons_of_mem _ hg)]
    cases d with
    | var _ => exact Nat.zero_add _
    | iface _ => exact Nat.zero_add _
    | fn g =>
      have hg : [plainLabel g.name].count (Supply.labelName n) = 0 :=
        List.count_eq_zero.mpr fun hm => h g List.mem_cons_self n
          (Code.plainLabel_eq_labelName (List.mem_singleton.mp hm).symm)
      exact (congrArg (· + _) hg).trans (Nat.zero_add _)
    | cls c =>
      -- A qualified name never has the shape of a numbered label.
      have hmethods : (c.methods.map fun g => qualifiedLabel c.name g.name).count
          (Supply.labelName n) = 0 := List.count_eq_zero.mpr fun hm => by
        obtain ⟨g, -, e⟩ := List.mem_map.mp hm
        exact Code.labelName_ne_qualifiedLabel n _ _ e
      show (c.methods.map _ ++ [c.name]).count _ + _ = ([c.name] ++ _).count _
      rw [List.count_append, hmethods, Nat.zero_add, ← List.count_append]

namespace Program

variable {p : Program} {a : Notes} {l : Layout} {r : Surroundings} {code : List Instr}
  {cs : List Chunk} {n : Nat}

/-- **A label that is handed out is placed once at most.** -/
theorem count_label (hn : p.Unnumbered) (h : p.lower a l = .ok (cs.flatMap Chunk.code))
    (hcs : List.Forall₂ (Source.Makes r) p.sources cs) (hc : ∀ c ∈ cs, c.Closed r.layout) :
    (cs.flatMap Chunk.code).count (.label (Supply.labelName n)) ≤ 1 := by
  obtain ⟨k, hperm⟩ := lower_defined h
  have hhanded : ((List.range k).map Supply.labelName).count (Supply.labelName n) ≤ 1 :=
    List.nodup_iff_count_le_one.mp (List.nodup_range.map fun _ _ => Code.labelName_inj) _
  have htables : ((cs.flatMap Chunk.code).filterMap
      (Instr.tableOf? (Supply.labelName n))).length = p.labels.count (Supply.labelName n) := by
    unfold sources at hcs
    rw [Source.length_tables hcs hc, Decl.sources_class]
    exact (Decl.count_labels hn).symm
  -- Labels in the code and names of tables together are those handed out and those declared.
  have hcount := hperm.count_eq (Supply.labelName n)
  rw [Code.count_defined, htables, List.count_append] at hcount
  omega

end Program

/-! ## 3. Functions that control does not leave -/

namespace Code.Chunk

variable {cs : List Chunk} {before after : List Instr} {i : Instr} {t : Label}

/-- A jump in the code of a chunk stands in the body of a function. -/
theorem of_jump {c : Chunk} {front back : List Instr} (e : c.code = front ++ i :: back)
    (ht : i.target? = some t) : ∃ lab n body body', c = .function lab n (body ++ i :: body') ∧
      front = .label lab :: .enter n :: body ∧ back = body' ++ [.leave] := by
  cases c with
  | table c ms =>
    have hm : i ∈ (table c ms).code := e ▸ List.mem_append_right _ List.mem_cons_self
    cases List.mem_singleton.mp hm
    cases ht
  | function lab n body =>
    -- The jump is neither the label nor the opening of the frame, and the end is no jump.
    match front, e with
    | [], e =>
      cases (List.cons.inj e).1
      cases ht
    | [j], e =>
      cases (List.cons.inj (List.cons.inj e).2).1
      cases ht
    | j :: k :: front, e =>
      have hj : Instr.label lab = j := (List.cons.inj e).1
      have hk : Instr.enter n = k := (List.cons.inj (List.cons.inj e).2).1
      have hbody : body ++ [.leave] = front ++ i :: back := (List.cons.inj (List.cons.inj e).2).2
      subst hj hk
      rcases List.append_eq_append_iff.mp hbody with ⟨z, rfl, hz⟩ | ⟨z, rfl, hz⟩
      · -- the last instruction is no jump
        have hm : i ∈ [Instr.leave] := hz ▸ List.mem_append_right _ List.mem_cons_self
        cases List.mem_singleton.mp hm
        cases ht
      · cases z with
        | nil =>
          cases (List.cons.inj hz).1
          cases ht
        | cons i' z =>
          obtain ⟨rfl, rfl⟩ := List.cons.inj hz
          exact ⟨lab, n, front, z, rfl, rfl, rfl⟩

/-- Jumps in the code of these chunks stay inside their function. -/
structure Confined (cs : List Chunk) : Prop where
  /-- Inside a function no other begins or ends, and no table stands. -/
  bodies : ∀ lab n body, .function lab n body ∈ cs → ∀ i ∈ body, i.Bodily
  /-- Where the body of a function jumps to, there is one label in all the code, and it stands in
  this body. -/
  placed : ∀ lab n body, .function lab n body ∈ cs → ∀ i ∈ body, ∀ t, i.target? = some t →
    .label t ∈ body ∧ (cs.flatMap Chunk.code).count (.label t) = 1
  /-- All jumps of the code stand in the bodies of functions. -/
  jumps : ∀ before i after t, cs.flatMap Chunk.code = before ++ i :: after → i.target? = some t →
    ∃ first lab n body body' rest, cs = first ++ .function lab n (body ++ i :: body') :: rest ∧
      before = first.flatMap Chunk.code ++ .label lab :: .enter n :: body ∧
      after = body' ++ .leave :: rest.flatMap Chunk.code

end Code.Chunk

namespace Code

variable {front body back : List Instr} {k k' : Nat}

/-- From a part of the code where all jumps stay control comes to no other, but behind its end. -/
theorem Leads.stays (hb : ∀ i ∈ body, ∀ t, i.target? = some t → .label t ∈ body ∧
      (front ++ (body ++ back)).count (.label t) = 1)
    (hl : Leads (front ++ (body ++ back)) k k') (h₁ : front.length ≤ k)
    (h₂ : k < front.length + body.length) :
    front.length ≤ k' ∧ k' ≤ front.length + body.length := by
  cases hl with
  | next _ _ => omega
  | @jump _ i t hi ht ht' =>
    rw [List.getElem?_append_right h₁, List.getElem?_append_left (by omega)] at hi
    obtain ⟨hmem, hcount⟩ := hb i (List.mem_of_getElem? hi) t ht
    have hone : 1 ≤ body.count (.label t) := List.count_pos_iff.mpr hmem
    rw [List.count_append, List.count_append] at hcount
    -- the label stands neither in front nor behind
    refine ⟨Nat.le_of_not_lt fun hlt => ?_, Nat.le_of_not_lt fun hlt => ?_⟩
    · rw [List.getElem?_append_left hlt] at ht'
      have : 1 ≤ front.count (.label t) := List.count_pos_iff.mpr (List.mem_of_getElem? ht')
      omega
    · rw [List.getElem?_append_right (by omega), List.getElem?_append_right (by omega)] at ht'
      have : 1 ≤ back.count (.label t) := List.count_pos_iff.mpr (List.mem_of_getElem? ht')
      omega

/-- **Control that has entered a function stays in its body until it comes to the end.** -/
theorem Chunk.Confined.stays {first rest : List Chunk} {lab : Label} {n : Int} {start stop : Nat}
    (h : Chunk.Confined (first ++ .function lab n body :: rest))
    (hstart : start = (first.flatMap Chunk.code).length + 2)
    (hstop : stop = start + body.length)
    (hway : Relation.ReflTransGen (fun j j' => j ≠ stop ∧
      Leads ((first ++ .function lab n body :: rest).flatMap Chunk.code) j j') start k) :
    start ≤ k ∧ k ≤ stop := by
  have hcode : (first ++ .function lab n body :: rest).flatMap Chunk.code =
      first.flatMap Chunk.code ++ [Instr.label lab, Instr.enter n] ++
        (body ++ Instr.leave :: rest.flatMap Chunk.code) := by
    simp [Chunk.code]
  have hlength :
      start = (first.flatMap Chunk.code ++ [Instr.label lab, Instr.enter n]).length := by
    rw [hstart, List.length_append]
    rfl
  have hb := h.placed lab n body (List.mem_append_right _ List.mem_cons_self)
  rw [hcode] at hway hb
  induction hway with
  | refl => exact ⟨Nat.le_refl _, hstop ▸ Nat.le_add_right _ _⟩
  | tail _ hstep ih =>
    -- One step from inside stays inside or reaches the end, where the way stops.
    obtain ⟨hne, hl⟩ := hstep
    obtain ⟨h₁, h₂⟩ := hl.stays hb (hlength ▸ ih.1) (hlength ▸ hstop ▸ Nat.lt_of_le_of_ne ih.2 hne)
    exact ⟨hlength ▸ h₁, hstop ▸ hlength ▸ h₂⟩

end Code

/-- **No jump leaves its function.** The code of a program is a row of functions and tables. Unless
a function has a name that makes its label one of those that are handed out, each jump stands in the
body of a function, and the one label in all the code that it goes to stands there, too. -/
theorem Program.jumps_confined {p : Program} {a : Notes} {l : Layout} {code : List Instr}
    (hn : p.Unnumbered) (h : p.lower a l = .ok code) :
    ∃ cs : List Chunk, code = cs.flatMap Chunk.code ∧ Chunk.Confined cs := by
  obtain ⟨r, cs, hr, rfl, hcs⟩ := lower_chunks h
  have hr := withGlobals_atTop hr
  have hclosed : ∀ c ∈ cs, c.Closed r.layout := fun _ => chunk_closed hr hcs
  refine ⟨cs, rfl, ⟨fun lab n body hm i hi => (hclosed _ hm i hi).bodily,
    fun lab n body hm i hi t ht => ?_, fun before i after t e ht => ?_⟩⟩
  · obtain ⟨src, -, hmakes⟩ := forall₂_right hcs hm
    cases hmakes with
    | function hx =>
      -- defined by the body that jumps, and at most once in the whole code
      obtain ⟨hlabel, m, rfl⟩ := FnDecl.label_of_jump hr hx hi ht
      refine ⟨hlabel, Nat.le_antisymm (count_label hn h hcs hclosed) ?_⟩
      exact List.count_pos_iff.mpr ((Chunk.body_infix hm).subset hlabel)
  · obtain ⟨first, c, rest, front, back, rfl, hc, rfl, rfl⟩ := Chunk.of_split e
    obtain ⟨lab, n, body, body', rfl, rfl, rfl⟩ := Chunk.of_jump hc ht
    exact ⟨first, lab, n, body, body', rest, rfl, rfl, List.append_assoc ..⟩

/-- The jumps of the loop, of the choice and of the checks of bounds stay in their function. -/
theorem jumps_confined_rummage : rummage.Unnumbered ∧ ∃ l code,
    rummage.lower rummage.analyze.notes l = .ok code ∧
      (code.countP fun i => i.target?.isSome) = 11 ∧
        ∃ cs : List Chunk, code = cs.flatMap Chunk.code ∧ Chunk.Confined cs := by
  have hnames : rummage.decls.map Decl.name = ["main"] := by decide +kernel
  have hn : rummage.Unnumbered := fun g hg n e => by
    have hname : g.name ∈ ["main"] := hnames ▸ List.mem_map_of_mem hg
    have h := congrArg String.toList ((List.mem_singleton.mp hname).symm.trans e)
    rw [String.toList_append] at h
    exact absurd (List.cons.inj h).1 (by decide)
  have hjumps : (rummage.code?.map (List.countP fun i => i.target?.isSome)) = some 11 := by
    decide +kernel
  obtain ⟨code, hcode, hjumps⟩ := Option.map_eq_some_iff.mp hjumps
  obtain ⟨l, -, hc⟩ := Program.of_code? hcode
  exact ⟨hn, l, code, hc, hjumps, Program.jumps_confined hn hc⟩

end DecafLang
