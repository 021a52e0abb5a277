import DecafLang.Proofs.Sorting

/-!
# Sorting with a stack

A graph can be sorted without recursion, in two sweeps that each keep a stack of nodes.
**This gives what the sort gives, the same node on a failure included** (`Graph.sweeps_iff`).

* The first sweep puts all neighbours of a node on the stack that have not been met, so a node
  can be on it several times. It is met when it comes up for the first time, and finished when
  that entry comes up again. **All between is what the visit of the node does** (`visit_leads`):
  an entry that lies deeper comes up only after the node is finished.
* The second sweep goes back along the links, and no further than to the second node of a round.
-/

namespace DecafLang.Precedence

open Relation

/-! ## 1. Runs -/

section

variable {α σ : Type} {step : σ → Except α (Option σ)} {s s' : σ} {n : α} {r r' : Except α σ}

/-- Steps are made until none is left, or one fails. -/
inductive Runs (step : σ → Except α (Option σ)) : σ → Except α σ → Prop where
  | stop {s : σ} : step s = .ok none → Runs step s (.ok s)
  | next {s s' : σ} {r : Except α σ} : step s = .ok (some s') → Runs step s' r → Runs step s r
  | fail {s : σ} {n : α} : step s = .error n → Runs step s (.error n)

/-- **A run has one result.** -/
theorem Runs.unique (h : Runs step s r) (h' : Runs step s r') : r = r' := by
  induction h with
  | stop e =>
    cases h' with
    | stop => rfl
    | next e' => cases e.symm.trans e'
    | fail e' => cases e.symm.trans e'
  | next e _ ih =>
    cases h' with
    | stop e' => cases e.symm.trans e'
    | next e' h' =>
      cases e.symm.trans e'
      exact ih h'
    | fail e' => cases e.symm.trans e'
  | fail e =>
    cases h' with
    | stop e' => cases e.symm.trans e'
    | next e' => cases e.symm.trans e'
    | fail e' =>
      cases e.symm.trans e'
      rfl

/-- A run comes from one state to another, or fails on the way. -/
def Leads (step : σ → Except α (Option σ)) (s : σ) : Except α σ → Prop
  | .ok s' => ∀ r, Runs step s' r → Runs step s r
  | .error n => Runs step s (.error n)

theorem Leads.refl : Leads step s (.ok s) := fun _ h => h

theorem Leads.next (e : step s = .ok (some s')) (h : Leads step s' r) : Leads step s r := by
  cases r with
  | ok s'' => exact fun r hr => .next e (h r hr)
  | error n => exact .next e h

theorem Leads.trans (h : Leads step s (.ok s')) (h' : Leads step s' r) : Leads step s r := by
  cases r with
  | ok s'' => exact fun r hr => h r (h' r hr)
  | error n => exact h _ h'

end

/-! ## 2. The two sweeps -/

variable {α : Type} [DecidableEq α]

/-- The nodes of a graph and its links, in the order in which they have been added. -/
structure Graph (α : Type) where
  nodes : List α
  links : List (α × α)

namespace Graph

/-- Where the links of a node lead, the link that was added last first. -/
def outgoing (g : Graph α) (n : α) : List α := ((g.links.filter (·.1 = n)).map Prod.snd).reverse

/-- Where the links to a node come from, the link that was added last first. -/
def incoming (g : Graph α) (n : α) : List α := ((g.links.filter (·.2 = n)).map Prod.fst).reverse

end Graph

/-- The first sweep: the nodes to start from, the stack and how far the walk has come. -/
structure Descent (α : Type) where
  starts : List α
  stack : List α
  walk : Walk α

/-- Puts the neighbours of a node on the stack that have not been met; one that is the node itself
ends the sweep. -/
def push (seen : List α) (n : α) (stack : List α) : List α → Except α (List α)
  | [] => .ok stack
  | m :: ms =>
    if m = n then .error n else push seen n (if m ∈ seen then stack else m :: stack) ms

/-- A step of the first sweep. A new node on top is met, and stays on the stack below its
neighbours; a node that was met before leaves the stack, and is finished if it is not yet. -/
def Descent.step (derived : α → List α) : Descent α → Except α (Option (Descent α))
  | ⟨[], [], _⟩ => .ok none
  | ⟨i :: starts, [], w⟩ => .ok (some ⟨starts, if i ∈ w.seen then [] else [i], w⟩)
  | ⟨starts, n :: stack, w⟩ =>
    if n ∈ w.seen then
      .ok (some ⟨starts, stack, if n ∈ w.done then w else { w with done := n :: w.done }⟩)
    else do
      let stack ← push (n :: w.seen) n (n :: stack) (derived n)
      return some ⟨starts, stack, { w with seen := n :: w.seen }⟩

/-- The second sweep: the nodes to start from, the stack, the number of nodes that were met in
this round, and all that were met. -/
structure Ascent (α : Type) where
  starts : List α
  stack : List α
  count : Nat
  seen : List α

/-- A step of the second sweep. It ends at the second new node of a round. -/
def Ascent.step (bases : α → List α) : Ascent α → Except α (Option (Ascent α))
  | ⟨[], [], _, _⟩ => .ok none
  | ⟨i :: starts, [], _, seen⟩ => .ok (some ⟨starts, [i], 0, seen⟩)
  | ⟨starts, n :: stack, count, seen⟩ =>
    if n ∈ seen then .ok (some ⟨starts, stack, count, seen⟩)
    else if count + 1 = 2 then .error n
    else .ok (some ⟨starts, ((bases n).filter (· ∉ n :: seen)).reverse ++ stack, count + 1,
      n :: seen⟩)

/-- The sort by two sweeps, the second one over what the first has finished, the last one first. -/
inductive Graph.Sweeps (g : Graph α) : Except α (List α) → Prop where
  | loop {n : α} : Runs (Descent.step g.outgoing) ⟨g.nodes, [], ⟨[], []⟩⟩ (.error n) →
      g.Sweeps (.error n)
  | late {d : Descent α} {n : α} :
      Runs (Descent.step g.outgoing) ⟨g.nodes, [], ⟨[], []⟩⟩ (.ok d) →
      Runs (Ascent.step g.incoming) ⟨d.walk.done, [], 0, []⟩ (.error n) → g.Sweeps (.error n)
  | sorted {d : Descent α} {a : Ascent α} :
      Runs (Descent.step g.outgoing) ⟨g.nodes, [], ⟨[], []⟩⟩ (.ok d) →
      Runs (Ascent.step g.incoming) ⟨d.walk.done, [], 0, []⟩ (.ok a) →
      g.Sweeps (.ok d.walk.done)

/-- **The sweeps have one result.** -/
theorem Graph.Sweeps.unique {g : Graph α} {r r' : Except α (List α)} (h : g.Sweeps r)
    (h' : g.Sweeps r') : r = r' := by
  cases h with
  | loop h =>
    cases h' with
    | loop h' =>
      cases h.unique h'
      rfl
    | late h' => cases h.unique h'
    | sorted h' => cases h.unique h'
  | late h hl =>
    cases h' with
    | loop h' => cases h.unique h'
    | late h' hl' =>
      cases h.unique h'
      cases hl.unique hl'
      rfl
    | sorted h' hs' =>
      cases h.unique h'
      cases hl.unique hs'
  | sorted h hs =>
    cases h' with
    | loop h' => cases h.unique h'
    | late h' hl' =>
      cases h.unique h'
      cases hs.unique hl'
    | sorted h' =>
      cases h.unique h'
      rfl

/-! ## 3. The first sweep visits the nodes -/

variable {derived bases : α → List α} {nodes ms starts stack : List α} {w : Walk α} {n : α}

theorem push_eq (seen : List α) (n : α) (stack ms : List α) :
    push seen n stack ms =
      if n ∈ ms then .error n else .ok (ms.reverse.filter (· ∉ seen) ++ stack) := by
  induction ms generalizing stack with
  | nil => rfl
  | cons m ms ih =>
    unfold push
    -- The loop ends at the first base that is the node itself, and otherwise stacks what is not
    -- seen yet.
    by_cases hm : m = n
    · rw [if_pos hm, if_pos (hm ▸ List.mem_cons_self)]
    · rw [if_neg hm, ih]
      by_cases hn : n ∈ ms
      · rw [if_pos hn, if_pos (List.mem_cons_of_mem _ hn)]
      · rw [if_neg hn, if_neg (List.not_mem_cons_of_ne_of_not_mem (Ne.symm hm) hn),
          List.reverse_cons, List.filter_append, List.append_assoc]
        by_cases hs : m ∈ seen <;> simp [hs]

theorem visit_seen (room : Nat) (hs : n ∈ w.seen) : visit derived room w n = .ok w := by
  cases room with
  | zero => rfl
  | succ room =>
    unfold visit
    rw [if_pos hs]

/-- A finished node leaves the stack. -/
theorem step_done (hs : n ∈ w.seen) (hd : n ∈ w.done) :
    Descent.step derived ⟨starts, n :: stack, w⟩ = .ok (some ⟨starts, stack, w⟩) := by
  cases starts <;> simp only [Descent.step, if_pos hs, if_pos hd]

/-- An open node leaves the stack and is finished. -/
theorem step_open (ho : w.Open n) : Descent.step derived ⟨starts, n :: stack, w⟩ =
    .ok (some ⟨starts, stack, { w with done := n :: w.done }⟩) := by
  cases starts <;> simp only [Descent.step, if_pos ho.1, if_neg ho.2]

/-- A new node is met, if it does not derive from itself. -/
theorem step_new (hs : n ∉ w.seen) : Descent.step derived ⟨starts, n :: stack, w⟩ =
    if n ∈ derived n then .error n
    else .ok (some ⟨starts, (derived n).reverse.filter (· ∉ n :: w.seen) ++ n :: stack,
      { w with seen := n :: w.seen }⟩) := by
  have e : Descent.step derived ⟨starts, n :: stack, w⟩ =
      (push (n :: w.seen) n (n :: stack) (derived n)).bind fun stack =>
        .ok (some ⟨starts, stack, { w with seen := n :: w.seen }⟩) := by
    cases starts <;> simp only [Descent.step, if_neg hs] <;> rfl
  rw [e, push_eq]
  split <;> rfl

/-- The first sweep does what the visits do with so much room, if the node on top is not open. -/
def Follows (derived : α → List α) (nodes : List α) (room : Nat) : Prop :=
  ∀ (starts stack : List α) (w : Walk α) (n : α), n ∈ nodes → w.Good derived →
    w.unmet nodes ≤ room → (∀ m, w.Open m → TransGen (Derives derived) m n) → ¬ w.Open n →
      Leads (Descent.step derived) ⟨starts, n :: stack, w⟩
        ((visit derived room w n).map (Descent.mk starts stack))

/-- Visits of several nodes: those that have been met are not on the stack. -/
theorem Follows.all (starts stack : List α) {room : Nat} (hf : Follows derived nodes room)
    (hn : ∀ n ∈ nodes, derived n ⊆ nodes) {seen : List α} (hs : seen ⊆ w.seen)
    (hm : ms ⊆ nodes) (hg : w.Good derived) (hr : w.unmet nodes ≤ room)
    (ho : ∀ n ∈ ms, ∀ m, w.Open m → TransGen (Derives derived) m n)
    (hnew : ∀ n ∈ ms, n ∉ seen → ¬ w.Open n) :
    Leads (Descent.step derived) ⟨starts, ms.filter (· ∉ seen) ++ stack, w⟩
      ((ms.foldlM (fun w m => visit derived room w m) w).map (Descent.mk starts stack)) := by
  induction ms generalizing w with
  | nil => exact .refl
  | cons n ms ih =>
    obtain ⟨hnn, hm⟩ := List.cons_subset.mp hm
    obtain ⟨hon, hom⟩ := List.forall_mem_cons.mp ho
    obtain ⟨hnewn, hnewm⟩ := List.forall_mem_cons.mp hnew
    rw [List.foldlM_cons]
    -- What was seen when the list was pushed is not on the stack, and a visit of it does nothing.
    by_cases hsn : n ∈ seen
    · rw [List.filter_cons_of_neg (by simp [hsn]), visit_seen room (hs hsn)]
      exact ih hs hm hg hr hom hnewm
    · rw [List.filter_cons_of_pos (by simp [hsn])]
      have hends := visits hn room w n hnn hg hr hon
      have hlead := hf starts (ms.filter (· ∉ seen) ++ stack) w n hnn hg hr hon (hnewn hsn)
      cases hv : visit derived room w n with
      | error m =>
        rw [hv] at hlead
        exact hlead
      | ok w' =>
        rw [hv] at hlead hends
        obtain ⟨hg', hx, -⟩ := hends
        exact hlead.trans (ih (fun m h => hx.seen (hs h)) hm hg'
          (Nat.le_trans hx.unmet_le hr) (fun k hk m hmo => hom k hk m (hx.open_of hmo))
          fun k hk hks hko => hnewm k hk hks (hx.open_of hko))

/-- **The first sweep follows the visits.** -/
theorem visit_leads (hn : ∀ n ∈ nodes, derived n ⊆ nodes) (room : Nat) :
    Follows derived nodes room := by
  induction room with
  | zero =>
    intro starts stack w n hm hg hr ho hno
    -- no node is left unmet: this one is finished, and taking it off the stack does nothing
    have hs := Walk.mem_seen_of_unmet hr hm
    exact .next (step_done hs (by_contra fun hd => hno ⟨hs, hd⟩)) .refl
  | succ room ih =>
    intro starts stack w n hm hg hr ho hno
    by_cases hs : n ∈ w.seen
    · rw [visit_seen _ hs]
      exact .next (step_done hs (by_contra fun hd => hno ⟨hs, hd⟩)) .refl
    unfold visit
    rw [if_neg hs]
    by_cases hself : n ∈ derived n
    · rw [if_pos hself]
      exact Runs.fail ((step_new hs).trans (if_pos hself))
    rw [if_neg hself]
    refine .next ((step_new hs).trans (if_neg hself)) ?_
    have hsub : (derived n).reverse ⊆ nodes := fun m h => hn n hm (List.mem_reverse.mp h)
    have hr₁ := Nat.le_of_lt_succ (Nat.lt_of_lt_of_le (Walk.unmet_lt hm hs) hr)
    have ho₁ := Walk.open_reaches ho
    have hlead := ih.all starts (n :: stack) hn (List.Subset.refl _) hsub
      hg.meet hr₁ (fun k hk => ho₁ k (List.mem_reverse.mp hk)) fun k _ hks hko => hks hko.1
    have hends := (visits hn room).all hsub hg.meet hr₁ fun k hk => ho₁ k (List.mem_reverse.mp hk)
    cases hw : (derived n).reverse.foldlM (fun w m => visit derived room w m)
        (Walk.mk (n :: w.seen) w.done) with
    | error m =>
      rw [hw] at hlead
      exact hlead
    | ok w' =>
      rw [hw] at hlead hends
      obtain ⟨-, hx, -⟩ := hends
      have hopen : w'.Open n := ⟨hx.seen List.mem_cons_self, fun h =>
        hs (hg.met (hx.old n List.mem_cons_self h))⟩
      exact hlead.trans (.next (step_open hopen) .refl)

/-- The first sweep over several nodes, with an empty stack between them. -/
theorem descent_runs (hn : ∀ n ∈ nodes, derived n ⊆ nodes) (hm : ms ⊆ nodes)
    (hg : w.Good derived) (ho : ∀ n, ¬ w.Open n) :
    Runs (Descent.step derived) ⟨ms, [], w⟩
      ((ms.foldlM (fun w m => visit derived nodes.length w m) w).map (Descent.mk [] [])) := by
  induction ms generalizing w with
  | nil => exact .stop rfl
  | cons n ms ih =>
    obtain ⟨hnn, hm⟩ := List.cons_subset.mp hm
    rw [List.foldlM_cons]
    by_cases hs : n ∈ w.seen
    · rw [visit_seen _ hs]
      exact .next (congrArg (fun l => Except.ok (some (Descent.mk ms l w))) (if_pos hs))
        (ih hm hg ho)
    · have hr : w.unmet nodes ≤ nodes.length := List.countP_le_length
      have hon : ∀ m, w.Open m → TransGen (Derives derived) m n := fun m h => absurd h (ho m)
      have hends := visits hn nodes.length w n hnn hg hr hon
      have hlead := visit_leads hn nodes.length ms [] w n hnn hg hr hon (ho n)
      refine .next (congrArg (fun l => Except.ok (some (Descent.mk ms l w))) (if_neg hs)) ?_
      cases hv : visit derived nodes.length w n with
      | error m =>
        rw [hv] at hlead
        exact hlead
      | ok w' =>
        rw [hv] at hlead hends
        obtain ⟨hg', hx, -⟩ := hends
        exact hlead _ (ih hm hg' fun m h => ho m (hx.open_of h))

/-! ## 4. The second sweep checks the order -/

/-- **A round of the second sweep ends at its second node exactly if the check fails.** -/
theorem ascent_runs {order seen : List α} {count : Nat} (hd : (seen ++ order).Nodup) :
    ∃ a, Runs (Ascent.step bases) ⟨order, [], count, seen⟩
      ((check bases seen order).map fun _ => a) := by
  induction order generalizing seen count with
  | nil => exact ⟨⟨[], [], count, seen⟩, .stop rfl⟩
  | cons n order ih =>
    have hd : (n :: (seen ++ order)).Nodup := List.perm_middle.nodup_iff.mp hd
    have hs : n ∉ seen := fun h => (List.nodup_cons.mp hd).1 (List.mem_append_left _ h)
    obtain ⟨a, ha⟩ := @ih (n :: seen) 1 hd
    have hstart : Ascent.step bases ⟨n :: order, [], count, seen⟩ =
      .ok (some ⟨order, [n], 0, seen⟩) := rfl
    have hfirst : Ascent.step bases ⟨order, [n], 0, seen⟩ =
        .ok (some ⟨order, ((bases n).filter (· ∉ n :: seen)).reverse, 1, n :: seen⟩) := by
      cases order <;> simp only [Ascent.step, if_neg hs, List.append_nil] <;> rfl
    refine ⟨a, .next hstart (.next hfirst ?_)⟩
    unfold check
    -- the last of the bases is on top of the stack
    cases hl : ((bases n).filter (· ∉ n :: seen)).getLast? with
    | none =>
      rw [List.getLast?_eq_none_iff.mp hl]
      exact ha
    | some late =>
      have hnew := of_decide_eq_true (List.mem_filter.mp (List.mem_of_getLast? hl)).2
      obtain ⟨l, e⟩ := List.getLast?_eq_some_iff.mp hl
      rw [e, List.reverse_append]
      refine Runs.fail (n := late) ?_
      show Ascent.step bases ⟨order, late :: l.reverse, 1, n :: seen⟩ = .error late
      cases order <;> simp only [Ascent.step, if_neg hnew] <;> rfl

/-! ## 5. Both sweeps -/

/-- The sweeps give what the sort gives. -/
theorem Graph.sweeps_sort (g : Graph α) (hl : ∀ l ∈ g.links, l.2 ∈ g.nodes) :
    g.Sweeps (sort g.outgoing g.incoming g.nodes) := by
  have hn : ∀ n ∈ g.nodes, g.outgoing n ⊆ g.nodes := fun n _ m hm => by
    obtain ⟨l, hf, rfl⟩ := List.mem_map.mp (List.mem_reverse.mp hm)
    exact hl l (List.mem_of_mem_filter hf)
  -- The first sweep runs as the recursive visits do, the second one as `check` does.
  have hruns := descent_runs hn (List.Subset.refl _) .start Walk.not_open_start
  have hends := visits_all hn
  unfold sort finishOrder
  cases hw : g.nodes.foldlM (fun w n => visit g.outgoing g.nodes.length w n) ⟨[], []⟩ with
  | error n =>
    rw [hw] at hruns
    exact .loop hruns
  | ok w =>
    rw [hw] at hruns hends
    obtain ⟨a, ha⟩ : ∃ a, Runs (Ascent.step g.incoming) ⟨w.done, [], 0, []⟩
        ((check g.incoming [] w.done).map fun _ => a) := ascent_runs hends.1.nodup
    show g.Sweeps (check g.incoming [] w.done >>= fun _ => pure w.done)
    cases hc : check g.incoming [] w.done with
    | error late =>
      rw [hc] at ha
      exact .late hruns ha
    | ok u =>
      rw [hc] at ha
      exact .sorted hruns ha

/-- **The sweeps give this and nothing else.** -/
theorem Graph.sweeps_iff (g : Graph α) (hl : ∀ l ∈ g.links, l.2 ∈ g.nodes)
    {r : Except α (List α)} : g.Sweeps r ↔ sort g.outgoing g.incoming g.nodes = r :=
  ⟨(g.sweeps_sort hl).unique, fun e => e ▸ g.sweeps_sort hl⟩

end DecafLang.Precedence
