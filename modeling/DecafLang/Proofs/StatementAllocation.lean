import DecafLang.Proofs.DefiniteAssignment

/-!
# Allocation along statements

What the code of a statement does with the words of the frame, and what it has for the parts of the
statement.

* Surroundings further in differ by the slots of tenants who moved in on the way
  (`Surroundings.Inside`).
* `Part.Housed` says of an expression that its code is part of the code, and of a block besides that
  its locals are among the tenants.
* **The code of a statement has a course, and leaves control with what it was given**: where two
  ways meet, and where a loop begins, control has at hand what it had in front of the statement. The
  variables among the tenants are those that the blocks of the statement declare; and all parts of
  the statement are housed (`Stmt.lower_houses`).
-/

namespace DecafLang

open Code (Emit Emitted Instr Label Location Supply)
open Code.Supply (localOffset paramOffset)
open Code.Emit
open Lowering

/-! ## 1. Surroundings further in -/

namespace Surroundings

/-- The slots are those of the surroundings further out, and those of variables among tenants who
moved in from a position on. -/
structure Inside (r' r : Surroundings) (a : Nat) (ts : List Tenant) : Prop where
  within : r'.Within r
  kept : r.slots ⊆ r'.slots
  slots : ∀ e ∈ r'.slots, e ∈ r.slots ∨
    ∃ i v, ts[i]? = some (.var v) ∧ e = (v.id, (Tenant.var v).belowAt (a + i))

namespace Inside

variable {r r₁ r' : Surroundings} {a : Nat} {ts ts' : List Tenant}

theorem refl (r : Surroundings) : r.Inside r a ts := ⟨.refl r, List.Subset.refl _, fun _ => .inl⟩

/-- Tenants who move in later change nothing. -/
theorem left (h : r'.Inside r a ts) (ts' : List Tenant) : r'.Inside r a (ts ++ ts') where
  within := h.within
  kept := h.kept
  slots e he := (h.slots e he).imp_right fun ⟨i, v, hi, e⟩ =>
    ⟨i, v, by rw [List.getElem?_append_left (List.getElem?_eq_some_iff.mp hi).1, hi], e⟩

theorem trans (h : r₁.Inside r a ts) (h' : r'.Inside r₁ (a + ts.length) ts') :
    r'.Inside r a (ts ++ ts') where
  within := ⟨h'.within.notes_eq.trans h.within.notes_eq,
    h'.within.layout_eq.trans h.within.layout_eq, h'.within.this_eq.trans h.within.this_eq⟩
  kept := List.Subset.trans h.kept h'.kept
  slots e he := by
    rcases h'.slots e he with he | ⟨i, v, hi, rfl⟩
    · exact (h.left ts').slots e he
    · refine .inr ⟨ts.length + i, v, ?_, by rw [Nat.add_assoc]⟩
      rw [List.getElem?_append_right (Nat.le_add_right ..), Nat.add_sub_cancel_left]
      exact hi

theorem words_subset (h : r'.Inside r a ts) : r'.words ⊆ Tenant.words a ts ++ r.words :=
  fun x hx => by
    rcases List.mem_append.mp hx with hx | hx
    · obtain ⟨e, he, rfl⟩ := List.mem_map.mp hx
      rcases h.slots e he with he | ⟨i, v, hi, rfl⟩
      · exact List.mem_append_right _ (List.mem_append_left _ (List.mem_map_of_mem he))
      · exact List.mem_append_left _ (Tenant.mem_words.mpr ⟨i, _, hi, rfl⟩)
    · rw [h.within.this_eq] at hx
      exact List.mem_append_right _ (List.mem_append_right _ hx)

theorem leavingTo {l : Label} (h : r'.Inside (r.leavingTo l) a ts) : r'.Inside r a ts :=
  ⟨⟨h.within.notes_eq, h.within.layout_eq, h.within.this_eq⟩, h.kept, h.slots⟩

end Inside

end Surroundings

/-- These surroundings have slots for variables as well, whose words lie at the offsets of
positions from one on. -/
structure Surroundings.Adds (r r' : Surroundings) (vs : List VarDecl) (offset : Nat → Int)
    (k : Nat) : Prop where
  within : r'.Within r
  kept : r.slots ⊆ r'.slots
  added : ∀ i v, vs[i]? = some v → (v.id, .frame (offset (k + i)) v.name) ∈ r'.slots
  slots : ∀ e ∈ r'.slots, e ∈ r.slots ∨
    ∃ i v, vs[i]? = some v ∧ e = (v.id, .frame (offset (k + i)) v.name)

namespace Surroundings.Adds

variable {r r' : Surroundings} {v : VarDecl} {vs : List VarDecl} {offset : Nat → Int} {k : Nat}

theorem nil : r.Adds r [] offset k := ⟨.refl r, List.Subset.refl _, nofun, fun _ => .inl⟩

theorem cons (h : (r.withSlot v.id (.frame (offset k) v.name)).Adds r' vs offset (k + 1)) :
    r.Adds r' (v :: vs) offset k where
  within := ⟨h.within.notes_eq, h.within.layout_eq, h.within.this_eq⟩
  kept := fun _ he => h.kept (List.mem_cons_of_mem _ he)
  added i u hu := by
    cases i with
    | zero =>
      -- the first variable has the first word, and the others those behind
      obtain rfl := Option.some.inj hu
      exact h.kept List.mem_cons_self
    | succ i => exact Nat.succ_add_eq_add_succ k i ▸ h.added i u hu
  slots e he := by
    rcases h.slots e he with he | ⟨i, u, hu, e⟩
    · rcases List.mem_cons.mp he with rfl | he
      · exact .inr ⟨0, v, rfl, rfl⟩
      · exact .inl he
    · exact .inr ⟨i + 1, u, hu, Nat.succ_add_eq_add_succ k i ▸ e⟩

/-- Variables below the frame pointer are tenants. -/
theorem inside (h : r.Adds r' vs localOffset k) : r'.Inside r k (vs.map .var) where
  within := h.within
  kept := h.kept
  slots e he := (h.slots e he).imp_right fun ⟨i, v, hv, e⟩ =>
    ⟨i, v, by rw [List.getElem?_map, hv]; rfl, e⟩

end Surroundings.Adds

/-- Locals move in one behind the other. -/
theorem withLocals_adds (ls : List VarDecl) (r : Surroundings) (s : Supply) : ∃ r',
    withLocals r ls s = .ok ⟨r', [], { s with locals := s.locals + ls.length }⟩ ∧
      r.Adds r' ls localOffset s.locals ∧ r'.breakTo = r.breakTo := by
  induction ls generalizing r s with
  | nil => exact ⟨r, rfl, .nil, rfl⟩
  | cons v ls ih =>
    obtain ⟨r', e, h, hb⟩ := ih (r.withSlot v.id (.frame (localOffset s.locals) v.name))
      { s with locals := s.locals + 1 }
    refine ⟨r', ?_, h.cons, hb⟩
    rw [List.length_cons, ← Nat.succ_add_eq_add_succ]
    exact (bind_silent rfl).trans e

/-- So do formals above the frame pointer. -/
theorem withFormals_adds (vs : List VarDecl) (r : Surroundings) (s : Supply) : ∃ r',
    withFormals r vs s = .ok ⟨r', [], { s with params := s.params + vs.length }⟩ ∧
      r.Adds r' vs paramOffset s.params ∧ r'.breakTo = r.breakTo := by
  induction vs generalizing r s with
  | nil => exact ⟨r, rfl, .nil, rfl⟩
  | cons v vs ih =>
    obtain ⟨r', e, h, hb⟩ := ih (r.withSlot v.id (.frame (paramOffset s.params) v.name))
      { s with params := s.params + 1 }
    refine ⟨r', ?_, h.cons, hb⟩
    rw [List.length_cons, ← Nat.succ_add_eq_add_succ]
    exact (bind_silent rfl).trans e

/-! ## 2. Parts -/

/-- On a condition, no length of an array has arguments. -/
def Part.Plain (H : Prop) (a : Notes) (ps : List Part) : Prop :=
  H → Part.All (Expr.PlainLength a) ps

theorem Part.Plain.left {H : Prop} {a : Notes} {ps qs : List Part} (h : Plain H a (ps ++ qs)) :
    Plain H a ps := fun hH => (h hH).left

theorem Part.Plain.right {H : Prop} {a : Notes} {ps qs : List Part} (h : Plain H a (ps ++ qs)) :
    Plain H a qs := fun hH => (h hH).right

/-- The part has its code within other code, in surroundings where its variables have the words of
these tenants. The locals of a block are among them. For expressions this depends on a condition,
since some that the checker does not accept have no code. -/
def Part.Housed (H : Prop) (r : Surroundings) (a : Nat) (ts : List Tenant) (code : List Instr) :
    Part → Prop
  | .expr e => H → ∃ r' : Surroundings, r'.Inside r a ts ∧ e.Coded r' code
  | .block b => ∃ (r' : Surroundings) (s : Supply) (o : Emitted Unit), r'.Inside r a ts ∧
      Stmt.lowerAll b.stmts r' s = .ok o ∧ o.code <:+: code ∧ ∀ v ∈ b.locals, ∃ i : Nat,
        ts[i]? = some (.var v) ∧ (v.id, (Tenant.var v).belowAt (a + i)) ∈ r'.slots
  | _ => True

namespace Part.Housed

variable {H : Prop} {r r₁ : Surroundings} {a : Nat} {ts ts' : List Tenant}
  {code code' : List Instr} {q : Part}

theorem within (h : q.Housed H r a ts code) (hc : code <:+: code') : q.Housed H r a ts code' := by
  cases q with
  | expr e =>
    intro hH
    obtain ⟨r', hr, he⟩ := h hH
    exact ⟨r', hr, he.within hc⟩
  | block b =>
    obtain ⟨r', s, o, hr, ho, hi, hv⟩ := h
    exact ⟨r', s, o, hr, ho, hi.trans hc, hv⟩
  | _ => trivial

/-- Tenants who move in later change nothing. -/
theorem left (h : q.Housed H r a ts code) (ts' : List Tenant) :
    q.Housed H r a (ts ++ ts') code := by
  cases q with
  | expr e =>
    intro hH
    obtain ⟨r', hr, he⟩ := h hH
    exact ⟨r', hr.left ts', he⟩
  | block b =>
    obtain ⟨r', s, o, hr, ho, hi, hv⟩ := h
    refine ⟨r', s, o, hr.left ts', ho, hi, fun v hvb => ?_⟩
    -- a tenant of the first part keeps its place in the whole
    obtain ⟨i, hi, hm⟩ := hv v hvb
    exact ⟨i, by rw [List.getElem?_append_left (List.getElem?_eq_some_iff.mp hi).1, hi], hm⟩
  | _ => trivial

/-- What is further in has the tenants that moved in further out as well. -/
theorem right (hr : r₁.Inside r a ts) (h : q.Housed H r₁ (a + ts.length) ts' code) :
    q.Housed H r a (ts ++ ts') code := by
  cases q with
  | expr e =>
    intro hH
    obtain ⟨r', hr', he⟩ := h hH
    exact ⟨r', hr.trans hr', he⟩
  | block b =>
    obtain ⟨r', s, o, hr', ho, hi, hv⟩ := h
    refine ⟨r', s, o, hr.trans hr', ho, hi, fun v hvb => ?_⟩
    obtain ⟨i, hi, hm⟩ := hv v hvb
    -- the tenants of the first part stand in front, so all others move up
    refine ⟨ts.length + i, ?_, Nat.add_assoc .. ▸ hm⟩
    rw [List.getElem?_append_right (Nat.le_add_right ..), Nat.add_sub_cancel_left]
    exact hi
  | _ => trivial

theorem leavingTo {l : Label} (h : q.Housed H (r.leavingTo l) a ts code) :
    q.Housed H r a ts code := by
  cases q with
  | expr e =>
    intro hH
    obtain ⟨r', hr, he⟩ := h hH
    exact ⟨r', hr.leavingTo, he⟩
  | block b =>
    obtain ⟨r', s, o, hr, ho, hi, hv⟩ := h
    exact ⟨r', s, o, hr.leavingTo, ho, hi, hv⟩
  | _ => trivial

end Part.Housed

theorem TypeExpr.block_not_mem (b : Block) : ∀ t : TypeExpr, Part.block b ∉ t.parts
  | .prim _ _ => by simp [TypeExpr.parts]
  | .named _ _ => by simp [TypeExpr.parts]
  | .array _ t => by simp [TypeExpr.parts, t.block_not_mem b]

mutual

/-- No block is part of an expression. -/
theorem Expr.block_not_mem (b : Block) : ∀ e : Expr, Part.block b ∉ e.parts
  | .int _ _ | .bool _ _ | .null _ | .string _ _ | .double _ | .readInteger _ | .readLine _
  | .this _ | .name _ _ | .new _ _ => by simp [Expr.parts]
  | .binary _ _ x y | .assign _ x y | .index _ x y => by
    simp [Expr.parts, x.block_not_mem b, y.block_not_mem b]
  | .unary _ _ x | .step _ _ x | .field _ x _ => by simp [Expr.parts, x.block_not_mem b]
  | .newArray _ x t => by simp [Expr.parts, x.block_not_mem b, t.block_not_mem b]
  | .call _ _ args => by simp [Expr.parts, Expr.block_not_mem_all b args]
  | .send _ x _ args => by
    simp [Expr.parts, x.block_not_mem b, Expr.block_not_mem_all b args]

theorem Expr.block_not_mem_all (b : Block) : ∀ es : List Expr, Part.block b ∉ Expr.partsAll es
  | [] => by simp [Expr.partsAll]
  | e :: es => by simp [Expr.partsAll, e.block_not_mem b, Expr.block_not_mem_all b es]

end

/-! ## 3. Steps -/

namespace Code.Emit

variable {α β : Type} {H : Prop} {r : Surroundings} {aims aims' : Aims}
  {given given' : List Location} {m : Emit α} {k : α → Emit β} {mid : α → List Location}
  {held : β → List Location} {vs vs' : List VarDecl} {ps ps' : List Part}

/-- Steps for these parts of a body, which have a course. -/
def Houses (H : Prop) (r : Surroundings) (aims : Aims) (given : List Location) (m : Emit α)
    (held : α → List Location) (vs : List VarDecl) (ps : List Part) : Prop :=
  ∀ s o, m s = .ok o →
    ∃ ts, Course r.layout r.words aims given s o.code o.supply (held o.value) vs ts ∧
      ∀ q ∈ ps, q.Housed H r s.locals ts o.code

/-- Steps that are for no part. -/
theorem Steers.houses (h : m.Steers r aims given mid vs) : m.Houses H r aims given mid vs [] :=
  fun s o ho => by
    obtain ⟨ts, h⟩ := h s o ho
    exact ⟨ts, h, List.forall_mem_nil _⟩

theorem Houses.weaken (h : m.Houses H r aims given mid vs ps) (ha : aims ⊆ aims')
    (hg : given ⊆ given') {mid' : α → List Location} (hh : ∀ a, mid' a ⊆ mid a) :
    m.Houses H r aims' given' mid' vs ps := by
  intro s o ho
  obtain ⟨ts, h, hps⟩ := h s o ho
  exact ⟨ts, h.weaken ha hg fun _ hx => List.mem_map_of_mem (hh _ hx), hps⟩

/-- What comes next is given what comes first holds. -/
theorem Houses.bind (h : m.Houses H r aims given mid vs ps)
    (hk : ∀ a, (k a).Houses H r aims (mid a) held vs' ps') :
    (m >>= k).Houses H r aims given held (vs ++ vs') (ps ++ ps') := by
  intro s o ho
  obtain ⟨a, ha, b, hb, rfl⟩ := bind_run_ok.mp ho
  obtain ⟨ts, h, hps⟩ := h s a ha
  obtain ⟨ts', h', hps'⟩ := hk a.value a.supply b hb
  refine ⟨ts ++ ts', h.append h', fun q hq => ?_⟩
  rcases List.mem_append.mp hq with hq | hq
  · exact ((hps q hq).within (List.prefix_append a.code b.code).isInfix).left ts'
  · have hq := (hps' q hq).within (List.suffix_append a.code b.code).isInfix
    exact .right (.refl r) (h.locals ▸ hq)

/-- Steps that are for no part come first. -/
theorem Steers.first (h : m.Steers r aims given mid [])
    (hk : ∀ a, (k a).Houses H r aims (mid a) held vs ps) :
    (m >>= k).Houses H r aims given held vs ps := h.houses.bind hk

theorem Grows.first (h : m.Grows r aims given mid)
    (hk : ∀ a, (k a).Houses H r aims (mid a ++ given) held vs ps) :
    (m >>= k).Houses H r aims given held vs ps := Steers.first h hk

/-- Steps that are for no part come last. -/
theorem Houses.last (h : m.Houses H r aims given mid vs ps)
    (hk : ∀ a, (k a).Steers r aims (mid a) held []) :
    (m >>= k).Houses H r aims given held vs ps := by
  have h := h.bind fun a => (hk a).houses
  rwa [List.append_nil, List.append_nil] at h

theorem Houses.parts (ps : List Part) (h : m.Houses H r aims given mid vs ps) (hp : ps' ⊆ ps) :
    m.Houses H r aims given mid vs ps' := by
  intro s o ho
  obtain ⟨ts, h, hps⟩ := h s o ho
  exact ⟨ts, h, fun q hq => hps q (hp hq)⟩

/-- Where a `break` goes does not change what is at hand. -/
theorem Houses.leavingTo {l : Label} (h : m.Houses H (r.leavingTo l) aims given mid vs ps) :
    m.Houses H r aims given mid vs ps := by
  intro s o ho
  obtain ⟨ts, h, hps⟩ := h s o ho
  exact ⟨ts, h, fun q hq => (hps q hq).leavingTo⟩

/-- A label is handed out, with what control shall have at hand where it stands. -/
theorem houses_newLabel {k : Label → Emit β} (S : List Location)
    (hk : ∀ l, (k l).Houses H r ((l, S) :: aims) given held vs ps) :
    (newLabel >>= k).Houses H r aims given held vs ps := by
  intro s o ho
  rw [bind_silent (k := k) (m := newLabel) rfl] at ho
  obtain ⟨ts, h, hps⟩ := hk _ _ o ho
  exact ⟨ts, .newLabel S h, hps⟩

theorem houses_newLabels {k : List Label → Emit β} (n : Nat) (S : List Location)
    (hk : ∀ ls, ls.length = n → (k ls).Houses H r (ls.map (·, S) ++ aims) given held vs ps) :
    (newLabels n >>= k).Houses H r aims given held vs ps := by
  induction n generalizing aims k with
  | zero =>
    intro s o ho
    rw [bind_silent (k := k) (m := newLabels 0) rfl] at ho
    exact hk [] rfl s o ho
  | succ n ih =>
    -- one label in front of the others, each a step of its own
    have e : newLabels (n + 1) >>= k =
        newLabel >>= fun l => newLabels n >>= fun ls => k (l :: ls) := by
      show (newLabel >>= fun l => newLabels n >>= fun ls => pure (l :: ls)) >>= k = _
      rw [bind_assoc]
      congr 1
      funext l
      rw [bind_assoc]
      congr 1
      funext ls s
      exact bind_silent rfl
    rw [e]
    refine houses_newLabel S fun l => ih fun ls hn => ?_
    refine (hk (l :: ls) (congrArg (· + 1) hn)).weaken (fun x hx => ?_) (List.Subset.refl _)
      fun _ => List.Subset.refl _
    simp only [List.map_cons, List.cons_append, List.mem_cons, List.mem_append] at hx ⊢
    tauto

end Code.Emit

/-- Where a `break` goes, control needs nothing that is not at hand. -/
def Surroundings.Leaves (r : Surroundings) (aims : Aims) (given : List Location) : Prop :=
  ∀ l, r.breakTo = some l → ∃ S, (l, S) ∈ aims ∧ S ⊆ given

namespace Surroundings

variable {r : Surroundings} {aims aims' : Aims} {given given' S : List Location} {l : Label}

theorem Leaves.mono (h : r.Leaves aims given) (ha : aims ⊆ aims') (hg : given ⊆ given') :
    r.Leaves aims' given' := by
  intro l e
  obtain ⟨S, hm, hS⟩ := h l e
  exact ⟨S, ha hm, List.Subset.trans hS hg⟩

/-- A `break` goes where it goes. -/
theorem leaves_self (r : Surroundings) : r.Leaves (r.breakTo.toList.map (·, [])) [] := fun l e =>
  ⟨[], by rw [e]; exact List.mem_cons_self, List.nil_subset _⟩

theorem leaves_leavingTo (hm : (l, S) ∈ aims) (hS : S ⊆ given) :
    (r.leavingTo l).Leaves aims given := by
  intro _ e
  obtain rfl := Option.some.inj e
  exact ⟨S, hm, hS⟩

end Surroundings

/-! ## 4. Statements -/

/-- The variables that scopes declare. -/
def Opening.vars (os : List Opening) : List VarDecl :=
  os.flatMap fun o => o.scope.decls.filterMap Decl.var?

theorem Opening.vars_append (os os' : List Opening) : vars (os ++ os') = vars os ++ vars os' :=
  List.flatMap_append

theorem Decl.filterMap_var? (vs : List VarDecl) : (vs.map Decl.var).filterMap Decl.var? = vs := by
  induction vs with
  | nil => rfl
  | cons v vs ih => exact congrArg (v :: ·) ih

/-- A block declares its locals. -/
theorem Block.openings_vars (n : Node) (ls : List VarDecl) (ss : List Stmt) :
    Opening.vars (Block.openings ⟨n, ls, ss⟩) = ls ++ Opening.vars (Stmt.openingsAll ss) :=
  congrArg (· ++ _) (Decl.filterMap_var? ls)

section

variable {H : Prop} {r : Surroundings} {aims : Aims} {given : List Location}

/-- No code belongs to the declarations of variables. -/
theorem Part.housed_vars {a : Nat} {ts : List Tenant} {code : List Instr} (ls : List VarDecl)
    {q : Part} (hq : q ∈ ls.flatMap VarDecl.parts) : q.Housed H r a ts code := by
  obtain ⟨v, -, hq⟩ := List.mem_flatMap.mp hq
  rcases List.mem_append.mp hq with hq | hq
  · cases q with
    | expr e => exact absurd hq v.type.expr_not_mem
    | block b => exact absurd hq (v.type.block_not_mem b)
    | _ => trivial
  · rcases List.mem_cons.mp hq with rfl | hq
    · trivial
    · obtain rfl := List.mem_singleton.mp hq
      trivial

/-- Steps that have the code of some expressions in theirs. -/
theorem Code.Emit.Grows.coding {α : Type} {m : Emit α} {held : α → List Location} {ps : List Part}
    (h : m.Grows r aims given held) (hc : H → m.Codes r ps) (hb : ∀ b, Part.block b ∉ ps) :
    m.Houses H r aims given (fun a => held a ++ given) [] ps := by
  intro s o ho
  obtain ⟨ts, h⟩ := h s o ho
  refine ⟨ts, h, fun q hq => ?_⟩
  cases q with
  | expr e => exact fun hH => ⟨r, .refl r, hc hH s o ho e hq⟩
  | block b => exact absurd hq (hb b)
  | _ => trivial

theorem Expr.value_houses (e : Expr) (hr : r.words ⊆ given) (h : Part.Plain H r.notes e.parts) :
    (e.value r).Houses H r aims given (fun x => [x] ++ given) [] e.parts :=
  (e.eval_grows hr).needed.coding (fun hH => (e.eval_codes (h hH)).needed) fun b =>
    e.block_not_mem b

theorem Expr.evalOpt_houses {e : Option Expr} (hr : r.words ⊆ given)
    (h : Part.Plain H r.notes (Expr.partsOpt e)) :
    (evalOpt r e).Houses H r aims given (fun _ => given) [] (Expr.partsOpt e) := by
  cases e with
  | none => exact Steers.houses grows_nothing
  | some e =>
    have hgrows : (e.eval r).Grows r aims given Option.toList := e.eval_grows hr
    exact (hgrows.coding (fun hH => e.eval_codes (h hH)) fun b => e.block_not_mem b).last
      fun _ => grows_nothing.drop fun _ => List.subset_append_right _ _

theorem grows_printer (s : Span) (t : Ty) : (printer s t).Grows r aims given fun _ => [] := by
  unfold printer
  split
  · exact grows_nothing
  · exact grows_nothing
  · exact grows_nothing
  · exact grows_refuse
  · exact grows_refuse

theorem print_houses {es : List Expr} (hr : r.words ⊆ given)
    (h : Part.Plain H r.notes (Expr.partsAll es)) :
    (print r es).Houses H r aims given (fun _ => given) [] (Expr.partsAll es) := by
  induction es generalizing given with
  | nil => exact Steers.houses grows_nothing
  | cons e es ih =>
    refine (grows_printer _ _).first fun _ => ?_
    refine (e.value_houses hr h.left).bind fun _ => ?_
    refine (grows_builtin (by simp)).first fun _ => ?_
    exact (ih (fun x hx => by simp [hr hx]) h.right).weaken (List.Subset.refl _) (List.Subset.refl
      _) fun _ x hx => by simp [hx]

theorem giveBack_houses {e : Option Expr} (hr : r.words ⊆ given)
    (h : Part.Plain H r.notes (Expr.partsOpt e)) :
    (giveBack r e).Houses H r aims given (fun _ => given) [] (Expr.partsOpt e) := by
  cases e with
  | none => exact Steers.houses (grows_quiet (List.nil_subset _) trivial rfl rfl)
  | some e =>
    refine (e.value_houses hr h).last fun x => ?_
    have hret : (Code.Emit.instr (.ret (some x))).Grows r aims ([x] ++ given) fun _ => [] :=
      grows_quiet (by simp [Code.Instr.operands]) trivial rfl rfl
    exact hret.drop fun _ => List.subset_append_right _ _

/-- At the arms control has at hand what it has in front of the comparisons. -/
theorem grows_dispatch {S : List Location} {x : Location} (arms : List (Option Int32 × Label))
    (h : x ∈ given) (hS : S ⊆ given) (ha : ∀ a ∈ arms, (a.2, S) ∈ aims) :
    (dispatch x arms).Grows r aims given fun _ => [] := by
  induction arms generalizing given with
  | nil => exact grows_nothing
  | cons a arms ih =>
    have hrest := (List.forall_mem_cons.mp ha).2
    obtain ⟨_ | n, lab⟩ := a
    · exact ih h hS hrest
    · -- the scrutinee is compared with one label more, and what is at hand stays
      have kept : ∀ given', given ⊆ given' → x ∈ given' ∧ S ⊆ given' := fun given' hg =>
        ⟨hg h, List.Subset.trans hS hg⟩
      refine (grows_constant _).bind fun label => ?_
      refine (grows_op (by simp [h]) (by simp)).bind fun equal => ?_
      have hjump := kept _ (List.subset_append_of_subset_right [equal]
        (List.subset_append_right [label] given))
      refine (grows_jump rfl (by simp [Code.Instr.operands]) (ha _ List.mem_cons_self)
        hjump.2).bind fun _ => ?_
      exact ih hjump.1 hjump.2 hrest

theorem mem_of_defaultLabel? {arms : List (Option Int32 × Label)} {l : Label}
    (h : defaultLabel? arms = some l) : ∃ a ∈ arms, a.2 = l := by
  obtain ⟨a, ha, e⟩ := Option.map_eq_some_iff.mp h
  exact ⟨a, (List.mem_filter.mp (List.mem_of_getLast? ha)).1, e⟩

mutual

/-- **The code of a statement touches what is at hand, and the words of its own tenants. Behind it
control has at hand what it had in front of it**, and on all ways between the temporaries of the
statement are written before they are read. -/
theorem Stmt.lower_houses : ∀ (t : Stmt) (r : Surroundings) {aims : Aims} {given : List Location},
    r.words ⊆ given → r.Leaves aims given → Part.Plain H r.notes t.parts →
      (t.lower r).Houses H r aims given (fun _ => given) (Opening.vars t.openings) t.parts
  | .block b, r, _, _, hr, hb, h => by
    unfold Stmt.lower
    exact b.lower_houses r hr hb h
  | .ifThen _ t s, r, _, given, hr, hb, h => by
    unfold Stmt.lower
    exact (t.value_houses hr h.left).bind fun _ => houses_newLabel given fun _ =>
      (grows_jump rfl (by simp [Code.Instr.operands]) List.mem_cons_self (by simp)).first fun _ =>
        (s.lower_houses r (fun x hx => by simp [hr hx]) (hb.mono (by simp) (by simp)) h.right).last
          fun _ => steers_label List.mem_cons_self (by simp)
  | .ifElse n t s o, r, _, given, hr, hb, h => by
    have e : (Stmt.ifElse n t s o).parts = t.parts ++ (s.parts ++ o.parts) := List.append_assoc ..
    have ev : Opening.vars (Stmt.ifElse n t s o).openings =
        Opening.vars s.openings ++ Opening.vars o.openings := Opening.vars_append _ _
    rw [e, ev]
    unfold Stmt.lower
    exact (t.value_houses hr h.left.left).bind fun _ => houses_newLabel given fun _ =>
      (grows_jump rfl (by simp [Code.Instr.operands]) List.mem_cons_self (by simp)).first fun _ =>
        (s.lower_houses r (fun x hx => by simp [hr hx]) (hb.mono (by simp) (by simp))
          h.left.right).bind fun _ => houses_newLabel given fun _ =>
            (grows_jump rfl (List.nil_subset _) List.mem_cons_self (by simp)).first fun _ =>
              (steers_label (S := given) (by simp) (by simp)).first fun _ =>
                (o.lower_houses r hr (hb.mono (by simp) (by simp)) h.right).last fun _ =>
                  steers_label List.mem_cons_self (by simp)
  | .while _ t s, r, _, given, hr, hb, h => by
    unfold Stmt.lower
    exact houses_newLabel given fun top => houses_newLabel given fun behind =>
      (steers_label (S := given) (by simp) (by simp)).first fun _ =>
        (t.value_houses hr h.left).bind fun _ =>
          (grows_jump rfl (by simp [Code.Instr.operands]) List.mem_cons_self (by simp)).first
            fun _ => (s.lower_houses (r.leavingTo behind) (fun x hx => by simp [hr hx])
              (Surroundings.leaves_leavingTo List.mem_cons_self (by simp)) h.right).leavingTo.last
                fun _ => (grows_jump (l := top) (S := given) rfl (List.nil_subset _) (by simp)
                  (by simp)).before fun _ => steers_label List.mem_cons_self (by simp)
  | .for n i t u s, r, _, given, hr, hb, h => by
    unfold Stmt.lower
    -- what is done behind the body is written in front of it
    refine Houses.parts (Expr.partsOpt i ++ (t.parts ++ (s.parts ++ Expr.partsOpt u))) ?_
      fun q hq => ?_
    · have hs : Opening.vars (Stmt.for n i t u s).openings = Opening.vars s.openings ++ [] :=
        (List.append_nil _).symm
      rw [hs]
      exact (Expr.evalOpt_houses hr h.left.left.left).bind fun _ => houses_newLabel given
        fun top => houses_newLabel given fun behind =>
          (steers_label (S := given) (by simp) (by simp)).first fun _ =>
            (t.value_houses hr h.left.left.right).bind fun _ =>
              (grows_jump rfl (by simp [Code.Instr.operands]) List.mem_cons_self (by simp)).first
                fun _ => (s.lower_houses (r.leavingTo behind) (fun x hx => by simp [hr hx])
                  (Surroundings.leaves_leavingTo List.mem_cons_self (by simp))
                    h.right).leavingTo.bind fun _ =>
                    (Expr.evalOpt_houses (fun x hx => by simp [hr hx]) h.left.right).last fun _ =>
                      (grows_jump (l := top) (S := given) rfl (List.nil_subset _) (by simp)
                        (by simp)).before fun _ => steers_label List.mem_cons_self (by simp)
    · simp only [Stmt.parts, List.mem_append] at hq ⊢
      tauto
  | .switch _ e cs, r, aims, given, hr, hb, h => by
    unfold Stmt.lower
    refine (e.value_houses hr h.left).bind fun value => houses_newLabel given fun behind =>
      houses_newLabels cs.length given fun ls hn => ?_
    have harms : ∀ a ∈ (cs.map Case.label).zip ls, a.2 ∈ ls := fun a ha => (List.of_mem_zip ha).2
    have haims : ∀ l ∈ ls, (l, given) ∈ ls.map (·, given) ++ (behind, given) :: aims :=
      fun l hl => List.mem_append_left _ (List.mem_map_of_mem hl)
    have hbehind : (behind, given) ∈ ls.map (·, given) ++ (behind, given) :: aims :=
      List.mem_append_right _ List.mem_cons_self
    have hdefault : ((defaultLabel? ((cs.map Case.label).zip ls)).getD behind, given) ∈
        ls.map (·, given) ++ (behind, given) :: aims := by
      cases hd : defaultLabel? ((cs.map Case.label).zip ls) with
      | none => exact hbehind
      | some l =>
        obtain ⟨a, ha, rfl⟩ := mem_of_defaultLabel? hd
        exact haims _ (harms a ha)
    refine (grows_dispatch _ (by simp) (by simp) fun a ha => haims _ (harms a ha)).first fun _ => ?_
    refine (grows_jump rfl (List.nil_subset _) hdefault (by simp)).first fun _ => ?_
    refine (Case.lower_all_houses cs ls (r.leavingTo behind) hn hr (Surroundings.leaves_leavingTo
      hbehind (List.Subset.refl _)) haims (by simp) h.right).leavingTo.last fun _ => ?_
    exact steers_label hbehind (List.Subset.refl _)
  | .break _, r, _, _, _, hb, _ => by
    unfold Stmt.lower
    refine Steers.houses (steers_given fun l hl => ?_)
    obtain ⟨S, hm, hS⟩ := hb l hl
    exact grows_jump rfl (List.nil_subset _) hm hS
  | .ret _ e, r, _, _, hr, _, h => by
    unfold Stmt.lower
    exact giveBack_houses hr h
  | .print _ es, r, _, _, hr, _, h => by
    unfold Stmt.lower
    exact print_houses hr h
  | .expr e, r, _, _, hr, _, h => by
    unfold Stmt.lower
    exact Expr.evalOpt_houses (e := some e) hr h

theorem Block.lower_houses : ∀ (b : Block) (r : Surroundings) {aims : Aims}
    {given : List Location}, r.words ⊆ given → r.Leaves aims given → Part.Plain H r.notes b.parts →
      (b.lower r).Houses H r aims given (fun _ => given) (Opening.vars b.openings) b.parts
  | ⟨n, ls, ss⟩, r, aims, given, hr, hb, h => fun s o ho => by
    unfold Block.lower at ho
    obtain ⟨r', e, hadds, hbreak⟩ := withLocals_adds ls r s
    have hin := hadds.inside
    rw [bind_silent e] at ho
    -- what the surroundings hold is written before, and so are the variables of the block
    have hr' : r'.words ⊆ Tenant.words s.locals (ls.map .var) ++ given := fun x hx =>
      (List.mem_append.mp (hin.words_subset hx)).elim (List.mem_append_left _)
        fun hx => List.mem_append_right _ (hr hx)
    have hb' : r'.Leaves aims (Tenant.words s.locals (ls.map .var) ++ given) := fun l hl =>
      hb.mono (List.Subset.refl _) (List.subset_append_right _ _) l (hbreak ▸ hl)
    obtain ⟨ts, ht, hps⟩ := (Stmt.lower_all_houses ss r' hr' hb'
      (hin.within.notes_eq ▸ h.left.right)).weaken (List.Subset.refl _) (List.Subset.refl _)
        (fun _ => List.subset_append_right _ given) _ o ho
    refine ⟨ls.map .var ++ ts, ?_, fun q hq => ?_⟩
    · rw [Block.openings_vars]
      exact .moveIn hin.words_subset (hin.within.layout_eq ▸ ht)
    · rcases List.mem_append.mp hq with hq | hq
      · rcases List.mem_append.mp hq with hq | hq
        -- a piece is a variable of the block, lies in a statement, or is the block itself
        · exact Part.housed_vars ls hq
        · exact .right hin (by rw [List.length_map]; exact hps q hq)
      · obtain rfl := List.mem_singleton.mp hq
        refine ⟨r', _, o, hin.left ts, ho, List.infix_rfl, fun v hv => ?_⟩
        obtain ⟨i, hi⟩ := List.mem_iff_getElem?.mp hv
        have hm : (ls.map Tenant.var)[i]? = some (.var v) := by
          rw [List.getElem?_map, hi]
          rfl
        refine ⟨i, ?_, hadds.added i v hi⟩
        rw [List.getElem?_append_left (List.getElem?_eq_some_iff.mp hm).1, hm]

theorem Case.lower_houses : ∀ (c : Case) (r : Surroundings) {aims : Aims} {given : List Location},
    r.words ⊆ given → r.Leaves aims given → Part.Plain H r.notes c.parts →
      (c.lower r).Houses H r aims given (fun _ => given) (Opening.vars c.openings) c.parts
  | ⟨_, ss⟩, r, _, _, hr, hb, h => by
    unfold Case.lower
    exact Stmt.lower_all_houses ss r hr hb h

theorem Stmt.lower_all_houses : ∀ (ss : List Stmt) (r : Surroundings) {aims : Aims}
    {given : List Location}, r.words ⊆ given → r.Leaves aims given →
      Part.Plain H r.notes (Stmt.partsAll ss) →
        (Stmt.lowerAll ss r).Houses H r aims given (fun _ => given)
          (Opening.vars (Stmt.openingsAll ss)) (Stmt.partsAll ss)
  | [], _, _, _, _, _, _ => by
    unfold Stmt.lowerAll
    exact Steers.houses grows_nothing
  | s :: ss, r, _, _, hr, hb, h => by
    unfold Stmt.lowerAll
    have e : Opening.vars (Stmt.openingsAll (s :: ss)) =
        Opening.vars s.openings ++ Opening.vars (Stmt.openingsAll ss) := Opening.vars_append _ _
    rw [e]
    exact (s.lower_houses r hr hb h.left).bind fun _ => Stmt.lower_all_houses ss r hr hb h.right

/-- At each arm control has at hand what the labels of the arms ask for, wherever it comes from. -/
theorem Case.lower_all_houses : ∀ (cs : List Case) (ls : List Label) (r : Surroundings)
    {aims : Aims} {given S : List Location}, ls.length = cs.length → r.words ⊆ S →
      r.Leaves aims S → (∀ l ∈ ls, (l, S) ∈ aims) → S ⊆ given →
        Part.Plain H r.notes (Case.partsAll cs) →
          (Case.lowerAll cs ls r).Houses H r aims given (fun _ => S)
            (Opening.vars (Case.openingsAll cs)) (Case.partsAll cs)
  | [], [], _, _, _, _, _, _, _, _, hS, _ => by
    unfold Case.lowerAll
    exact Steers.houses (grows_nothing.drop fun _ => hS)
  | c :: cs, l :: ls, r, _, _, S, hn, hr, hb, ha, hS, h => by
    unfold Case.lowerAll
    obtain ⟨hl, ha⟩ := List.forall_mem_cons.mp ha
    have e : Opening.vars (Case.openingsAll (c :: cs)) =
        Opening.vars c.openings ++ Opening.vars (Case.openingsAll cs) := Opening.vars_append _ _
    rw [e]
    -- at the label only what the surroundings hold is sure to be written
    refine (steers_label hl hS).first fun _ => ?_
    refine (c.lower_houses r hr hb h.left).bind fun _ => ?_
    exact Case.lower_all_houses cs ls r (Nat.succ.inj hn) hr hb ha (List.Subset.refl _) h.right

end

end

/-! ## 5. Bodies -/

theorem Block.lowerOpt_houses {H : Prop} {aims : Aims} {given : List Location} (b : Option Block)
    (r : Surroundings) (hr : r.words ⊆ given) (hb : r.Leaves aims given)
    (h : Part.Plain H r.notes (Block.partsOpt b)) :
    (Block.lowerOpt b r).Houses H r aims given (fun _ => given)
      (Opening.vars (Block.openingsOpt b)) (Block.partsOpt b) := by
  cases b with
  | none => exact Steers.houses grows_nothing
  | some b => exact b.lower_houses r hr hb h

/-- The object that a method is called for gets the first word. -/
theorem withThis_eq (r : Surroundings) (m : Bool) (s : Supply) :
    withThis r m s.newFrame = .ok ⟨{ r with this := if m then some thisParam else none }, [],
      { s with locals := 0, params := m.toNat }⟩ := by
  cases m <;> rfl

/-- **The code of the body of a function has its course**, in surroundings with slots for the
formals: it is given their words, and jumps to its own labels and where a `break` goes. -/
theorem FnDecl.lowerBody_houses {H : Prop} {g : FnDecl} {r : Surroundings} {m : Bool} {s : Supply}
    {x : Emitted Unit} {aims : Aims} (hb : r.Leaves aims [])
    (hp : Part.Plain H r.notes (Block.partsOpt g.body)) (h : g.lowerBody r m s.newFrame = .ok x) :
    ∃ r' ts, Surroundings.Adds { r with this := if m then some thisParam else none } r' g.formals
        paramOffset m.toNat ∧
      Course r.layout r'.words aims r'.words
        { s with locals := 0, params := m.toNat + g.formals.length } x.code x.supply r'.words
        (Opening.vars (Block.openingsOpt g.body)) ts ∧
      ∀ q ∈ Block.partsOpt g.body, q.Housed H r' 0 ts x.code := by
  unfold lowerBody at h
  rw [bind_silent (withThis_eq r m s)] at h
  -- the parameters are there from the beginning, and the words of the frame are fresh
  obtain ⟨r', e, hadds, hbreak⟩ := withFormals_adds g.formals
    { r with this := if m then some thisParam else none } { s with locals := 0, params := m.toNat }
  rw [bind_silent e] at h
  have hb' : r'.Leaves aims r'.words := fun l hl =>
    hb.mono (List.Subset.refl _) (List.nil_subset _) l (hbreak ▸ hl)
  have hnotes : r'.notes = r.notes := hadds.within.notes_eq
  have hlayout : r'.layout = r.layout := hadds.within.layout_eq
  obtain ⟨ts, ht, hparts⟩ := Block.lowerOpt_houses g.body r' (List.Subset.refl _) hb'
    (hnotes ▸ hp) _ x h
  exact ⟨r', ts, hadds, hlayout ▸ ht, hparts⟩

end DecafLang
