/-!
# Putting bases first

`Precedence.sort` orders the nodes of a finite graph so that every node comes after those it is
based on, or names a node that lies on a cycle.

* A depth-first walk along the links to the derived nodes finishes a node after all that derive
  from it. **The nodes in the opposite order of finishing are the answer,** and are then checked.
* The links of a node are walked from the last to the first. A node that derives from itself is
  refused as soon as it is met.
-/

namespace DecafLang

namespace Precedence

variable {α : Type} [DecidableEq α]

/-! ## 1. The walk -/

/-- How far the walk has come. -/
structure Walk (α : Type) where
  /-- The nodes met so far. -/
  seen : List α
  /-- The nodes that are finished, the last one first. -/
  done : List α

/-- Visits a node with all that derive from it; the room bounds the depth of the walk. -/
def visit (derived : α → List α) : Nat → Walk α → α → Except α (Walk α)
  | 0, w, _ => .ok w
  | room + 1, w, n =>
    if n ∈ w.seen then .ok w
    else if n ∈ derived n then .error n
    else do
      -- a stack gives back last what was pushed first
      let w ← (derived n).reverse.foldlM (fun w m => visit derived room w m)
        { w with seen := n :: w.seen }
      return { w with done := n :: w.done }

/-- Visits every node; the node that is finished last comes first. -/
def finishOrder (derived : α → List α) (nodes : List α) : Except α (List α) := do
  let w ← nodes.foldlM (fun w n => visit derived nodes.length w n) ⟨[], []⟩
  return w.done

/-! ## 2. The check -/

/-- Goes through the nodes in order and names the last base of a node that does not come before
it. -/
def check (bases : α → List α) : List α → List α → Except α Unit
  | _, [] => .ok ()
  | before, n :: r =>
    match ((bases n).filter (· ∉ n :: before)).getLast? with
    | some late => .error late
    | none => check bases (n :: before) r

/-- The nodes with every base before the nodes derived from it, or a node on a cycle. -/
def sort (derived bases : α → List α) (nodes : List α) : Except α (List α) := do
  let order ← finishOrder derived nodes
  check bases [] order
  return order

/-! ## 3. What the check says -/

theorem check_ok {bases : α → List α} {before order : List α}
    (h : check bases before order = .ok ()) :
    ∀ front n back, order = front ++ n :: back → ∀ b ∈ bases n, b ∈ n :: (front ++ before) := by
  induction order generalizing before with
  | nil => simp
  | cons m r ih =>
    simp only [check] at h
    split at h
    · simp at h
    · rename_i hl
      intro front n back he b hb
      cases front with
      | nil =>
        obtain ⟨rfl, rfl⟩ := List.cons.inj he
        rw [List.getLast?_eq_none_iff, List.filter_eq_nil_iff] at hl
        by_cases hm : b = m <;> simp_all
      | cons a front =>
        obtain ⟨rfl, rfl⟩ := List.cons.inj he
        have := ih h front n back rfl b hb
        simp only [List.mem_cons, List.mem_append, List.cons_append] at this ⊢
        grind

end Precedence

end DecafLang
