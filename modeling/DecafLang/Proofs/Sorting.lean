import Mathlib.Data.List.Basic
import Mathlib.Logic.Relation
import DecafLang.Precedence

/-!
# Sorted graphs and cycles

**A graph is sorted exactly if no node is derived from itself** (`Precedence.sort_ok`,
`Precedence.acyclic_of_sort`), and a node that the sort names derives from itself, be it through
others (`Precedence.cycle_of_sort`).

* The nodes that are met but not finished lie on the way to the node that is visited
  (`Walk.Open`). One of them that comes up again closes a cycle.
* A finished node stands behind all that derive from it, those apart that were open then: the
  node derives from these (`Walk.Good`). So a base that the check finds too late is on a cycle.
* The room of a visit is no less than the number of nodes that are not met, so it never ends a
  visit too early.
-/

namespace DecafLang.Precedence

open Relation

variable {α : Type} {derived bases : α → List α} {nodes ms order : List α}

/-! ## 1. Walks -/

/-- One node derives from another. -/
def Derives (derived : α → List α) (a b : α) : Prop := b ∈ derived a

/-- No node derives from itself, be it through others. -/
def Acyclic (derived : α → List α) : Prop := ∀ a, ¬ TransGen (Derives derived) a a

namespace Walk

variable {w w' w'' : Walk α} {n m : α}

/-- A node that is met and not finished. -/
def Open (w : Walk α) (n : α) : Prop := n ∈ w.seen ∧ n ∉ w.done

/-- The finished nodes are met, finished once, and derive not directly from themselves. Each is
behind all that derive from it, unless it derives from these, too. -/
structure Good (derived : α → List α) (w : Walk α) : Prop where
  met : w.done ⊆ w.seen
  nodup : w.done.Nodup
  apart : ∀ n ∈ w.done, n ∉ derived n
  behind : ∀ front n back, w.done = front ++ n :: back → ∀ m ∈ derived n,
    m ∈ back ∨ TransGen (Derives derived) m n

/-- A walk that has met nothing. -/
theorem Good.start : (Walk.mk [] []).Good derived :=
  ⟨nofun, List.nodup_nil, nofun, fun f _ _ e => by cases f <;> cases e⟩

theorem not_open_start (n : α) : ¬ (Walk.mk [] []).Open n := fun h => nomatch h.1

/-- A walk comes farther; the nodes that were open stay open, and no other is left open. -/
structure Extends (w w' : Walk α) : Prop where
  seen : w.seen ⊆ w'.seen
  done : w.done ⊆ w'.done
  old : ∀ n ∈ w.seen, n ∈ w'.done → n ∈ w.done
  new : ∀ n ∈ w'.seen, n ∈ w.seen ∨ n ∈ w'.done

theorem Extends.refl (w : Walk α) : w.Extends w :=
  ⟨List.Subset.refl _, List.Subset.refl _, fun _ _ h => h, fun _ h => .inl h⟩

theorem Extends.trans (h : w.Extends w') (h' : w'.Extends w'') : w.Extends w'' where
  seen := List.Subset.trans h.seen h'.seen
  done := List.Subset.trans h.done h'.done
  old n hn hd := h.old n hn (h'.old n (h.seen hn) hd)
  new n hn := by
    rcases h'.new n hn with hn | hn
    · exact (h.new n hn).imp_right fun hd => h'.done hd
    · exact .inr hn

theorem Extends.open_of (h : w.Extends w') (ho : w'.Open n) : w.Open n := by
  obtain ⟨hs, hd⟩ := ho
  rcases h.new n hs with hs | hs
  · exact ⟨hs, fun hn => hd (h.done hn)⟩
  · exact absurd hs hd

/-- A node that was new is finished last, after the walk has come farther from it. -/
theorem Extends.finish (h : (Walk.mk (n :: w.seen) w.done).Extends w') (hs : n ∉ w.seen) :
    w.Extends ⟨w'.seen, n :: w'.done⟩ where
  seen _ hx := h.seen (List.mem_cons_of_mem _ hx)
  done _ hx := List.mem_cons_of_mem _ (h.done hx)
  old x hx hd := by
    rcases List.mem_cons.mp hd with rfl | hd
    · exact absurd hx hs
    · exact h.old x (List.mem_cons_of_mem _ hx) hd
  new x hx := by
    rcases h.new x hx with hx | hx
    · exact (List.mem_cons.mp hx).elim (fun e => .inr (e ▸ List.mem_cons_self)) .inl
    · exact .inr (List.mem_cons_of_mem _ hx)

/-- The open nodes lead to what derives from a node, if they lead to the node when it is met. -/
theorem open_reaches (ho : ∀ m, w.Open m → TransGen (Derives derived) m n) :
    ∀ k ∈ derived n, ∀ m, (Walk.mk (n :: w.seen) w.done).Open m →
      TransGen (Derives derived) m k := by
  intro k hk m ⟨hs, hd⟩
  rcases List.mem_cons.mp hs with rfl | hs
  · exact .single hk
  · exact (ho m ⟨hs, hd⟩).tail hk

/-- Meeting a node finishes none. -/
theorem Good.meet (h : w.Good derived) : (Walk.mk (n :: w.seen) w.done).Good derived :=
  ⟨List.Subset.trans h.met (List.subset_cons_self _ _), h.nodup, h.apart, h.behind⟩

/-- Finishing a node, if all that derive from it have been met, and those that are open lead
to it. -/
theorem Good.finish (h : w.Good derived) (hs : n ∈ w.seen) (hn : n ∉ w.done)
    (hself : n ∉ derived n) (hd : derived n ⊆ w.seen)
    (ho : ∀ m ∈ derived n, w.Open m → TransGen (Derives derived) m n) :
    (Walk.mk w.seen (n :: w.done)).Good derived where
  met := List.cons_subset.mpr ⟨hs, h.met⟩
  nodup := List.nodup_cons.mpr ⟨hn, h.nodup⟩
  apart := List.forall_mem_cons.mpr ⟨hself, h.apart⟩
  behind front m back e d hm := by
    -- Only the node finished now is new at the front; the others were in order before.
    cases front with
    | nil =>
      obtain ⟨rfl, rfl⟩ := List.cons.inj e
      exact or_iff_not_imp_left.mpr fun hb => ho d hm ⟨hd hm, hb⟩
    | cons a front =>
      obtain ⟨-, e⟩ := List.cons.inj e
      exact h.behind front m back e d hm

variable [DecidableEq α]

/-- The number of nodes that are not met. -/
def unmet (nodes : List α) (w : Walk α) : Nat := nodes.countP fun n => n ∉ w.seen

theorem Extends.unmet_le (h : w.Extends w') : w'.unmet nodes ≤ w.unmet nodes := by
  refine List.countP_mono_left fun n _ hn => ?_
  simp only [decide_eq_true_eq] at hn ⊢
  exact fun hs => hn (h.seen hs)

/-- Meeting a node leaves fewer of them. -/
theorem unmet_lt (hm : n ∈ nodes) (hn : n ∉ w.seen) :
    (Walk.mk (n :: w.seen) w.done).unmet nodes < w.unmet nodes := by
  obtain ⟨l, r, rfl⟩ := List.append_of_mem hm
  have hl : ∀ l : List α, (Walk.mk (n :: w.seen) w.done).unmet l ≤ w.unmet l := fun l => by
    refine List.countP_mono_left fun x _ hx => ?_
    simp only [decide_eq_true_eq] at hx ⊢
    exact fun hs => hx (List.mem_cons_of_mem _ hs)
  have h₁ := hl l
  have h₂ := hl r
  unfold unmet at *
  simp only [List.countP_append, List.countP_cons, List.mem_cons, true_or, not_true_eq_false,
    decide_false, Bool.false_eq_true, if_false, hn, not_false_eq_true, decide_true, if_true]
  simp only [List.mem_cons] at h₁ h₂
  omega

theorem mem_seen_of_unmet (h : w.unmet nodes ≤ 0) (hn : n ∈ nodes) : n ∈ w.seen := by
  have := List.countP_eq_zero.mp (Nat.le_zero.mp h) n hn
  simpa using this

end Walk

/-! ## 2. Visits -/

variable [DecidableEq α]

/-- How a visit of some nodes ends: it has met them all, or it has come to a node that derives
directly from itself. -/
def Walk.Ends (derived : α → List α) (w : Walk α) (ms : List α) : Except α (Walk α) → Prop
  | .ok w' => w'.Good derived ∧ w.Extends w' ∧ ms ⊆ w'.seen
  | .error n => n ∈ derived n

/-- Visits with so much room end so, where the open nodes lead to the one that is visited. -/
def Visits (derived : α → List α) (nodes : List α) (room : Nat) : Prop :=
  ∀ (w : Walk α) (n : α), n ∈ nodes → w.Good derived → w.unmet nodes ≤ room →
    (∀ m, w.Open m → TransGen (Derives derived) m n) →
      w.Ends derived [n] (visit derived room w n)

/-- Visits of several nodes, one after the other. -/
theorem Visits.all {room : Nat} (hv : Visits derived nodes room) {w : Walk α}
    (hm : ms ⊆ nodes) (hg : w.Good derived) (hr : w.unmet nodes ≤ room)
    (ho : ∀ n ∈ ms, ∀ m, w.Open m → TransGen (Derives derived) m n) :
    w.Ends derived ms (ms.foldlM (fun w m => visit derived room w m) w) := by
  induction ms generalizing w with
  | nil => exact ⟨hg, .refl w, nofun⟩
  | cons n ms ih =>
    obtain ⟨hn, hm⟩ := List.cons_subset.mp hm
    obtain ⟨hon, hom⟩ := List.forall_mem_cons.mp ho
    have hfirst := hv w n hn hg hr hon
    rw [List.foldlM_cons]
    cases hw : visit derived room w n with
    | error m =>
      rw [hw] at hfirst
      exact hfirst
    | ok w₁ =>
      rw [hw] at hfirst
      obtain ⟨hg₁, hx₁, hd₁⟩ := hfirst
      have hrest := ih hm hg₁ (Nat.le_trans hx₁.unmet_le hr)
        fun k hk m hm => hom k hk m (hx₁.open_of hm)
      show w.Ends derived (n :: ms) (ms.foldlM (fun w m => visit derived room w m) w₁)
      cases hw' : ms.foldlM (fun w m => visit derived room w m) w₁ with
      | error m =>
        rw [hw'] at hrest
        exact hrest
      | ok w₂ =>
        rw [hw'] at hrest
        obtain ⟨hg₂, hx₂, hd₂⟩ := hrest
        exact ⟨hg₂, hx₁.trans hx₂,
          List.cons_subset.mpr ⟨hx₂.seen (hd₁ List.mem_cons_self), hd₂⟩⟩

/-- **Every visit ends so,** if what derives from the nodes is among them. -/
theorem visits (hn : ∀ n ∈ nodes, derived n ⊆ nodes) (room : Nat) :
    Visits derived nodes room := by
  induction room with
  | zero =>
    intro w n hm hg hr ho
    exact ⟨hg, .refl w, List.cons_subset.mpr ⟨Walk.mem_seen_of_unmet hr hm, nofun⟩⟩
  | succ room ih =>
    intro w n hm hg hr ho
    unfold visit
    by_cases hs : n ∈ w.seen
    · rw [if_pos hs]
      exact ⟨hg, .refl w, List.cons_subset.mpr ⟨hs, nofun⟩⟩
    rw [if_neg hs]
    by_cases hself : n ∈ derived n
    · rw [if_pos hself]
      exact hself
    rw [if_neg hself]
    have hsub : (derived n).reverse ⊆ nodes := fun m h => hn n hm (List.mem_reverse.mp h)
    have hr₁ := Nat.le_of_lt_succ (Nat.lt_of_lt_of_le (Walk.unmet_lt hm hs) hr)
    have ho₁ := Walk.open_reaches ho
    have hends := ih.all hsub hg.meet hr₁ fun k hk => ho₁ k (List.mem_reverse.mp hk)
    cases hw : (derived n).reverse.foldlM (fun w m => visit derived room w m)
        (Walk.mk (n :: w.seen) w.done) with
    | error m =>
      rw [hw] at hends
      exact hends
    | ok w' =>
      rw [hw] at hends
      obtain ⟨hg', hx, hd⟩ := hends
      have hns := hx.seen (List.mem_cons_self (a := n))
      have hnd : n ∉ w'.done := fun h => hs (hg.met (hx.old n List.mem_cons_self h))
      refine ⟨hg'.finish hns hnd hself (fun m h => hd (List.mem_reverse.mpr h)) fun m hm hmo => ?_,
        hx.finish hs, List.cons_subset.mpr ⟨hns, nofun⟩⟩
      obtain ⟨hs', hd'⟩ := hx.open_of hmo
      exact ho m ⟨List.mem_of_ne_of_mem (fun e : m = n => hself (e ▸ hm)) hs', hd'⟩

/-- The visits of all nodes, from the start. -/
theorem visits_all (hn : ∀ n ∈ nodes, derived n ⊆ nodes) :
    Walk.Ends derived ⟨[], []⟩ nodes
      (nodes.foldlM (fun w n => visit derived nodes.length w n) ⟨[], []⟩) :=
  (visits hn nodes.length).all (List.Subset.refl nodes) .start List.countP_le_length
    fun _ _ m h => absurd h (Walk.not_open_start m)

/-- **What is finished in the end:** every node, once, in a good order; or there is a node that
derives directly from itself. -/
theorem finishOrder_cases (hn : ∀ n ∈ nodes, derived n ⊆ nodes) :
    (∃ w : Walk α, finishOrder derived nodes = .ok w.done ∧ w.Good derived ∧ nodes ⊆ w.done) ∨
      ∃ n, finishOrder derived nodes = .error n ∧ n ∈ derived n := by
  have hends := visits_all hn
  unfold finishOrder
  cases hw : nodes.foldlM (fun w n => visit derived nodes.length w n) (Walk.mk [] []) with
  | error n =>
    rw [hw] at hends
    exact .inr ⟨n, rfl, hends⟩
  | ok w =>
    rw [hw] at hends
    obtain ⟨hg, hx, hd⟩ := hends
    exact .inl ⟨w, rfl, hg, fun n h => (hx.new n (hd h)).resolve_left List.not_mem_nil⟩

/-! ## 3. The check -/

/-- A base that the check names is not in front of a node that is based on it. -/
theorem of_check_error {before : List α} {late : α} (h : check bases before order = .error late) :
    ∃ front n back, order = front ++ n :: back ∧ late ∈ bases n ∧
      late ∉ n :: (front ++ before) := by
  induction order generalizing before with
  | nil => cases h
  | cons n order ih =>
    unfold check at h
    split at h
    · rename_i b hb
      cases h
      obtain ⟨hm, hf⟩ := List.mem_filter.mp (List.mem_of_getLast? hb)
      exact ⟨[], n, order, rfl, hm, of_decide_eq_true hf⟩
    · obtain ⟨front, m, back, rfl, hm, hf⟩ := ih h
      refine ⟨n :: front, m, back, rfl, hm, fun hl => hf ?_⟩
      simp only [List.mem_cons, List.mem_append, List.cons_append] at hl ⊢
      -- the node passed in between belongs to the front now
      rcases hl with hl | hl | hl | hl
      · exact .inl hl
      · exact .inr (.inr (.inl hl))
      · exact .inr (.inl hl)
      · exact .inr (.inr (.inr hl))

/-! ## 4. The sort -/

/-- What the sort gives has been finished, and the check has passed it. -/
theorem of_sort {order : List α} (h : sort derived bases nodes = .ok order) :
    finishOrder derived nodes = .ok order ∧ check bases [] order = .ok () := by
  unfold sort at h
  cases hf : finishOrder derived nodes with
  | error e =>
    rw [hf] at h
    cases h
  | ok w =>
    rw [hf] at h
    have h : (check bases [] w >>= fun _ => pure w) = Except.ok order := h
    cases hc : check bases [] w with
    | error e =>
      rw [hc] at h
      cases h
    | ok u =>
      rw [hc] at h
      cases h
      exact ⟨rfl, hc⟩

/-- **In the result every base stands in front,** except that a node may be based on itself. -/
theorem bases_front {order front back : List α} {n b : α}
    (h : sort derived bases nodes = .ok order) (e : order = front ++ n :: back) (hb : b ∈ bases n) :
    b = n ∨ b ∈ front := by
  have := check_ok (of_sort h).2 front n back e b hb
  rwa [List.append_nil, List.mem_cons] at this

/-- A base that comes too late is on a cycle. -/
theorem Walk.Good.cycle {w : Walk α} (hg : w.Good derived) (hd : nodes ⊆ w.done)
    (hb : ∀ n, ∀ b ∈ bases n, b ∈ nodes ∧ n ∈ derived b) {late : α}
    (hc : check bases [] w.done = .error late) : TransGen (Derives derived) late late := by
  obtain ⟨front, n, back, e, hl, hf⟩ := of_check_error hc
  obtain ⟨hm, hn⟩ := hb n late hl
  rw [List.append_nil, List.mem_cons, not_or] at hf
  have hback : late ∈ back := by
    have hm := hd hm
    rw [e, List.mem_append, List.mem_cons] at hm
    exact (hm.resolve_left hf.2).resolve_left hf.1
  -- The base was finished before `n` though `n` derives from it: only a cycle allows that.
  obtain ⟨l, r, rfl⟩ := List.append_of_mem hback
  have e' : w.done = (front ++ n :: l) ++ late :: r := by
    rw [e, List.append_assoc]
    rfl
  rcases hg.behind (front ++ n :: l) late r e' n hn with hr | hr
  · -- the node would be finished twice
    have hnd := hg.nodup
    rw [e] at hnd
    have := (List.nodup_cons.mp (List.nodup_append.mp hnd).2.1).1
    exact absurd (List.mem_append_right _ (List.mem_cons_of_mem _ hr)) this
  · exact .trans (.single hn) hr

/-- **A graph is sorted, every node being in the result once, or a node is named that derives
from itself.** -/
theorem sort_cases (hn : ∀ n ∈ nodes, derived n ⊆ nodes)
    (hb : ∀ n, ∀ b ∈ bases n, b ∈ nodes ∧ n ∈ derived b) :
    (∃ order, sort derived bases nodes = .ok order ∧ nodes ⊆ order ∧ order.Nodup) ∨
      ∃ n, sort derived bases nodes = .error n ∧ TransGen (Derives derived) n n := by
  unfold sort
  rcases finishOrder_cases hn with ⟨w, e, hg, hd⟩ | ⟨n, e, hself⟩
  · rw [e]
    cases hc : check bases [] w.done with
    | error late =>
      -- the second sweep finds a base that comes too late
      refine .inr ⟨late, ?_, hg.cycle hd hb hc⟩
      show (check bases [] w.done >>= fun _ => pure w.done) = _
      rw [hc]
      rfl
    | ok u =>
      refine .inl ⟨w.done, ?_, hd, hg.nodup⟩
      show (check bases [] w.done >>= fun _ => pure w.done) = _
      rw [hc]
      rfl
  · rw [e]
    exact .inr ⟨n, rfl, .single hself⟩

/-- **A node that the sort names derives from itself.** -/
theorem cycle_of_sort (hn : ∀ n ∈ nodes, derived n ⊆ nodes)
    (hb : ∀ n, ∀ b ∈ bases n, b ∈ nodes ∧ n ∈ derived b) {n : α}
    (h : sort derived bases nodes = .error n) : TransGen (Derives derived) n n := by
  rcases sort_cases hn hb with ⟨order, e, -⟩ | ⟨m, e, hm⟩
  · cases h.symm.trans e
  · cases h.symm.trans e
    exact hm

/-- **An acyclic graph is sorted,** and every node is in the result, once. -/
theorem sort_ok (ha : Acyclic derived) (hn : ∀ n ∈ nodes, derived n ⊆ nodes)
    (hb : ∀ n, ∀ b ∈ bases n, b ∈ nodes ∧ n ∈ derived b) :
    ∃ order, sort derived bases nodes = .ok order ∧ nodes ⊆ order ∧ order.Nodup :=
  (sort_cases hn hb).resolve_right fun ⟨n, _, hc⟩ => ha n hc

/-- **A graph that is sorted has no cycle.** -/
theorem acyclic_of_sort (h : sort derived bases nodes = .ok order)
    (hb : ∀ a b, b ∈ derived a → b ∈ nodes ∧ a ∈ bases b) : Acyclic derived := by
  -- Positions strictly grow along the links, so no walk comes back to its start.
  have earlier : ∀ a b, Derives derived a b → order.idxOf a < order.idxOf b := by
    intro a b hd
    obtain ⟨hn, ha⟩ := hb a b hd
    have hsub : ∀ n ∈ nodes, derived n ⊆ nodes := fun n _ m hm => (hb n m hm).1
    obtain ⟨ho, hself⟩ : b ∈ order ∧ b ∉ derived b := by
      rcases finishOrder_cases hsub with ⟨w, e, hg, hd⟩ | ⟨n, e, -⟩
      · cases (of_sort h).1.symm.trans e
        exact ⟨hd hn, hg.apart b (hd hn)⟩
      · cases (of_sort h).1.symm.trans e
    obtain ⟨front, back, e, hf⟩ := List.eq_append_cons_of_mem ho
    have hm : a ∈ front := by
      rcases bases_front h e ha with rfl | hm
      · exact absurd hd hself
      · exact hm
    rw [e, List.idxOf_append_of_mem hm, List.idxOf_append_of_notMem hf, List.idxOf_cons_self]
    exact List.idxOf_lt_length_of_mem hm
  intro a ha
  have all : ∀ b, TransGen (Derives derived) a b → order.idxOf a < order.idxOf b := by
    intro b hb
    induction hb with
    | single hb => exact earlier a _ hb
    | tail _ hb ih => exact Nat.lt_trans ih (earlier _ _ hb)
  exact Nat.lt_irrefl _ (all a ha)

end DecafLang.Precedence
