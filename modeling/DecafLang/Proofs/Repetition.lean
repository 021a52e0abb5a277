import DecafLang.Syntax.Handwritten
import DecafLang.Proofs.Alike
import DecafLang.Proofs.Ownership
import DecafLang.Proofs.Reentry

/-!
# Checks that are run again

**Once the names have been looked up, the checks can be run in any order and as often as one
likes.** Each says the same every time, and what is noted in the end depends only on whether the
types were among them (`Program.Numbered.repeatable`).

* The checks share the notes, and the types bind what the other checks do not: names behind a base.
  Such a name is never looked up, and it stands in no type in the head of a declaration, since it
  belongs to an expression. So nothing that a check reads has changed, however much the types have
  bound by then (`Program.Learned`, `agreeOn_findings`, `agreeIn_scopes`).
* What is noted once more is noted already, with the same value (`Table.insertAll_eq_self`).
-/

namespace DecafLang

/-! ## 1. What names stand for -/

/-- All declarations that names stand for are like this. -/
def Finding.Binds (Q : Decl → Prop) (l : List Finding) : Prop :=
  ∀ b ∈ l.filterMap Finding.binding?, Q b.2

section

variable {Q : Decl → Prop} {f : Forest} {l l' : List Finding}

namespace Forest.Holds

/-- What holds of all that lies in scopes holds of it in any new scope, which is empty. -/
theorem enter (h : f.Holds Q) (n : NodeId) : (f.enter n).Holds Q := fun k d hd =>
  h k d (f.decls_grow n k hd)

theorem enterOwned (h : f.Holds Q) (n : NodeId) (o : Owner) : (f.enterOwned n o).Holds Q :=
  fun k d hd => h k d (f.decls_grow n k ((f.grow n).decls_claim (f.slotOf n) o k ▸ hd))

/-- What is found lies in a scope. -/
theorem uses (h : f.Holds Q) (s : Sought) (is : List Ident) :
    Finding.Binds Q (is.map fun i => f.use i s) := by
  intro b hb
  obtain ⟨x, hx, e⟩ := List.mem_filterMap.mp hb
  obtain ⟨i, -, rfl⟩ := List.mem_map.mp hx
  -- what is bound is what the look-up gave, and that lies in a scope
  unfold Forest.use at e
  cases hl : (f.lookup? i.name).filter s.accepts with
  | none =>
    rw [hl] at e
    cases e
  | some d =>
    rw [hl] at e
    cases e
    exact h.lookup? (Option.filter_eq_some_iff.mp hl).1

end Forest.Holds

namespace Finding.Binds

theorem nil : Binds Q [] := nofun

/-- What findings in a row bind. -/
theorem append (h : Binds Q l) (h' : Binds Q l') : Binds Q (l ++ l') := by
  unfold Binds
  rw [List.filterMap_append]
  exact List.forall_mem_append.mpr ⟨h, h'⟩

theorem flatMap {α : Type} {xs : List α} {g : α → List Finding} (h : ∀ x ∈ xs, Binds Q (g x)) :
    Binds Q (xs.flatMap g) := by
  induction xs with
  | nil => exact nil
  | cons x xs ih =>
    obtain ⟨hx, hxs⟩ := List.forall_mem_cons.mp h
    exact hx.append (ih hxs)

end Finding.Binds

open Finding (Binds)

theorem TypeExpr.binds_uses (h : f.Holds Q) : ∀ t : TypeExpr, Binds Q (t.uses f)
  | .prim _ _ => .nil
  | .named _ i => h.uses .type [i]
  | .array _ t => t.binds_uses h

mutual

/-- **What an expression looks up binds declarations of the scopes.** -/
theorem Expr.binds_uses (h : f.Holds Q) : ∀ e : Expr, Binds Q (e.uses f)
  | .int _ _ | .double _ | .bool _ _ | .string _ _ | .null _ | .this _ | .readInteger _
  | .readLine _ => .nil
  | .binary _ _ l r => (l.binds_uses h).append (r.binds_uses h)
  | .unary _ _ x => x.binds_uses h
  | .step _ _ x => x.binds_uses h
  | .assign _ t v => (t.binds_uses h).append (v.binds_uses h)
  | .index _ b s => (b.binds_uses h).append (s.binds_uses h)
  | .name _ i => h.uses .var [i]
  | .field _ b _ => b.binds_uses h
  | .call _ i args => (h.uses .fn [i]).append (Expr.binds_uses_all h args)
  | .send _ b _ args => (b.binds_uses h).append (Expr.binds_uses_all h args)
  | .new _ i => h.uses .cls [i]
  | .newArray _ s t => (s.binds_uses h).append (t.binds_uses h)

theorem Expr.binds_uses_all (h : f.Holds Q) : ∀ es : List Expr, Binds Q (Expr.usesAll f es)
  | [] => .nil
  | e :: r => (e.binds_uses h).append (Expr.binds_uses_all h r)

end

theorem Expr.binds_uses_opt (h : f.Holds Q) : ∀ e : Option Expr, Binds Q (Expr.usesOpt f e)
  | none => .nil
  | some e => e.binds_uses h

theorem VarDecl.binds_uses_all (h : f.Holds Q) (vs : List VarDecl) :
    Binds Q (VarDecl.usesAll f vs) := .flatMap fun v _ => v.type.binds_uses h

mutual

/-- **So does what a statement looks up,** since entering a scope declares nothing. -/
theorem Stmt.binds_uses : ∀ (s : Stmt) {f : Forest}, f.Holds Q → Binds Q (s.uses f)
  | .block b, _, h => b.binds_uses h
  | .ifThen _ t s, _, h => (t.binds_uses h).append (s.binds_uses h)
  | .ifElse _ t s o, _, h => ((t.binds_uses h).append (s.binds_uses h)).append (o.binds_uses h)
  | .while _ t s, _, h => (t.binds_uses h).append (s.binds_uses h)
  | .for _ i t u s, _, h =>
    (((Expr.binds_uses_opt h i).append (t.binds_uses h)).append (Expr.binds_uses_opt h u)).append
      (s.binds_uses h)
  | .switch _ e cs, _, h => (e.binds_uses h).append (Case.binds_uses_all cs h)
  | .break _, _, _ => .nil
  | .ret _ e, _, h => Expr.binds_uses_opt h e
  | .print _ es, _, h => Expr.binds_uses_all h es
  | .expr e, _, h => e.binds_uses h

/-- A block is looked up in its own scope. -/
theorem Block.binds_uses : ∀ (b : Block) {f : Forest}, f.Holds Q → Binds Q (b.uses f)
  | ⟨n, ls, ss⟩, _, h =>
    (VarDecl.binds_uses_all (h.enter n.id) ls).append (Stmt.binds_uses_all ss (h.enter n.id))

theorem Case.binds_uses : ∀ (c : Case) {f : Forest}, f.Holds Q → Binds Q (c.uses f)
  | ⟨_, ss⟩, _, h => Stmt.binds_uses_all ss h

theorem Stmt.binds_uses_all : ∀ (ss : List Stmt) {f : Forest}, f.Holds Q →
    Binds Q (Stmt.usesAll ss f)
  | [], _, _ => .nil
  | s :: r, _, h => (s.binds_uses h).append (Stmt.binds_uses_all r h)

theorem Case.binds_uses_all : ∀ (cs : List Case) {f : Forest}, f.Holds Q →
    Binds Q (Case.usesAll cs f)
  | [], _, _ => .nil
  | c :: r, _, h => (c.binds_uses h).append (Case.binds_uses_all r h)

end

/-- A function is looked up in its own scope, but for its result. -/
theorem FnDecl.binds_uses (h : f.Holds Q) (g : FnDecl) : Binds Q (g.uses f) := by
  have hin : (f.enterFn g).Holds Q := h.enterOwned g.id g.owner
  refine ((g.result.binds_uses h).append (VarDecl.binds_uses_all hin g.formals)).append ?_
  cases g.body with
  | none => exact .nil
  | some b => exact b.binds_uses hin

/-- What is missing of `main` binds nothing. -/
theorem FnDecl.binds_main_faults (g : FnDecl) : Binds Q g.mainFaults := by
  have e : g.mainFaults.filterMap Finding.binding? = [] := by
    unfold FnDecl.mainFaults
    repeat' split
    all_goals rfl
  unfold Binds
  rw [e]
  exact nofun

/-- The same for a member. -/
theorem Decl.binds_uses_member (h : f.Holds Q) (d : Decl) : Binds Q (d.usesAsMember f) := by
  cases d with
  | var v => exact v.type.binds_uses h
  | fn g => exact g.binds_uses h
  | iface _ => exact .nil
  | cls _ => exact .nil

/-- **So does what a declaration looks up.** -/
theorem Decl.binds_uses (h : f.Holds Q) (d : Decl) : Binds Q (d.uses f) := by
  cases d with
  | var v => exact v.type.binds_uses h
  | fn g => exact (g.binds_uses h).append g.binds_main_faults
  | iface i => exact .flatMap fun g _ => g.binds_uses (h.enterOwned i.node.id i.owner)
  -- the head of a class is looked up outside, and the members inside
  | cls c =>
    exact ((h.uses .cls c.base.toList).append (h.uses .iface c.interfaces)).append
      (.flatMap fun d _ => d.binds_uses_member (h.enterOwned c.node.id c.owner))

/-- **What a name stands for lies in a scope.** -/
theorem Program.binds_findings (h : f.Holds Q) (p : Program) : Binds Q (p.findings f) :=
  .flatMap fun d _ => d.binds_uses h

end

/-! ## 2. What the types leave alone -/

namespace Program

variable {p : Program} {d e : Decl}

/-- The declarations of a program are its pieces. -/
theorem mem_all_decls : d ∈ p.allDecls ↔ Part.decl d ∈ p.parts :=
  mem_filterMap_form fun q d => by cases q <;> simp [Part.decl?]

/-- What stands in a declaration is a declaration of the program. -/
theorem mem_all_decls_inside (hd : d ∈ p.allDecls) (he : e ∈ (Part.decl d).declares) :
    e ∈ p.allDecls :=
  p.all_decls_perm.mem_iff.mpr (List.mem_flatMap.mpr ⟨.decl d, mem_all_decls.mp hd, he⟩)

/-- The name in a type in the head of a declaration belongs to a declaration of the program. -/
theorem owner_of_head (hd : d ∈ p.allDecls) {t : TypeExpr} (ht : t ∈ d.headTypes) :
    ∃ e ∈ p.allDecls, t.ident?.toList ⊆ e.names := by
  -- a type in the head of a function is its result or that of a parameter
  have of_fn : ∀ {g : FnDecl}, Decl.fn g ∈ p.allDecls → t ∈ g.headTypes →
      ∃ e ∈ p.allDecls, t.ident?.toList ⊆ e.names := fun {g} hg ht => by
    rcases List.mem_cons.mp ht with rfl | ht
    · exact ⟨.fn g, hg, List.Subset.refl _⟩
    · obtain ⟨v, hv, rfl⟩ := List.mem_map.mp ht
      exact ⟨.var v, mem_all_decls_inside hg (List.mem_map_of_mem hv), List.Subset.refl _⟩
  cases d with
  | var v =>
    obtain rfl := List.mem_singleton.mp ht
    exact ⟨.var v, hd, List.Subset.refl _⟩
  | fn g => exact of_fn hd ht
  | iface i =>
    obtain ⟨g, hg, ht⟩ := List.mem_flatMap.mp ht
    exact of_fn (mem_all_decls_inside hd (List.mem_map_of_mem hg)) ht
  | cls c => cases ht

/-- What the names stand for is noted, and so is some of what the types bind: nothing before the
types are checked, more and more of it meanwhile, and all of it afterwards. -/
def Learned (p : Program) (b : Notes) : Prop := ∃ l, l ⊆ p.analyze.typed.report.bindings ∧
  b.bindings = p.analyze.resolved.notes.bindings.insertAll l

namespace Numbered

variable {b : Notes}

/-- The scopes of a program hold declarations of the program. -/
theorem scopes_hold (h : p.Numbered) : p.scopes.Holds (· ∈ p.allDecls) := by
  intro k d hd
  by_cases hk : k < p.scopes.size
  · obtain ⟨q, hq, -, hd, -⟩ := h.of_mem_scope hk hd
    exact p.all_decls_perm.mem_iff.mpr (List.mem_flatMap.mpr ⟨q, hq, hd⟩)
  · have e : p.scopes.scope k = default := by
      unfold Forest.scope
      rw [List.getD_eq_getElem?_getD, List.getElem?_eq_none (Nat.le_of_not_lt hk)]
      rfl
    rw [e] at hd
    cases hd

/-- **The types in a declaration denote the same:** what the types bind belongs to expressions. -/
theorem same_types (h : p.Numbered) (hb : p.Learned b) (hd : d ∈ p.allDecls) :
    p.analyze.resolved.notes.SameTypes b d := by
  intro t ht
  obtain ⟨l, hl, e⟩ := hb
  have hown : p.analyze.typed.report.Own (Decl.partsAll p.decls) :=
    Decl.binds_own_all _ _ _ p.decls
  obtain ⟨d', hd', hn⟩ := owner_of_head hd ht
  refine Notes.denote_congr fun i hi => ?_
  have hfree : i.id ∉ l.map Prod.fst := fun hm => by
    obtain ⟨x, hx, hxi⟩ := List.mem_map.mp hm
    obtain ⟨y, hy, j, hj, hji⟩ := hown x (hl hx)
    cases h.eq_owner (mem_all_decls.mp hd') (List.mem_append_left _ hy)
      (hn (Option.mem_toList.mpr hi)) hj (hxi.symm.trans hji.symm)
  unfold Notes.decl?
  rw [e, Table.get?_insertAll_of_not_mem hfree]

/-- **What is looked up stands for the same.** -/
theorem agreeOn_findings (h : p.Numbered) (hb : p.Learned b) :
    p.analyze.resolved.notes.AgreeOn b (p.findings p.scopes) := by
  intro k hk
  obtain ⟨l, hl, e⟩ := hb
  have hn := h.nodup_keys p.scopes p.scopes (.ofProgram p) p.analyze.resolved.notes
  rw [← h.report_eq] at hn
  have hfree : k ∉ l.map Prod.fst := fun hm => (List.nodup_append.mp hn).2.2 k hk k
    (List.mem_append_right _ (List.map_subset Prod.fst hl hm)) rfl
  rw [e, Table.get?_insertAll_of_not_mem hfree]

/-- **What a check comes across denotes the same.** -/
theorem agreeIn_scopes (h : p.Numbered) (hb : p.Learned b) :
    p.analyze.resolved.notes.AgreeIn b p.scopes := by
  refine ⟨fun k d hd => h.same_types hb (h.scopes_hold k d hd), fun i d hi => h.same_types hb ?_⟩
  unfold Notes.decl? at hi
  rw [h.resolved_bindings] at hi
  exact p.binds_findings h.scopes_hold _
    ((Table.of_get?_insertAll hi).resolve_right (Option.not_mem_none _))

/-! ## 3. The same once more -/

/-- The members of a class are found in the same state. -/
theorem members_again (h : p.Numbered) (hb : p.Learned b) {c : ClassDecl}
    (hc : Decl.cls c ∈ p.decls) :
    c.faults (p.scopes.enterClass c) p.analyze.resolved.notes =
        c.faults (p.scopes.enterClass c) b ∧
      c.methods.countP (FnDecl.isOverride (p.scopes.enterClass c) p.analyze.resolved.notes) =
        c.methods.countP (FnDecl.isOverride (p.scopes.enterClass c) b) := by
  refine c.faults_alike ⟨fun _ _ => rfl, fun _ => rfl, fun _ => rfl⟩ ?_
    ((h.agreeOn_findings hb).of_subset fun _ hx => List.mem_flatMap.mpr ⟨.cls c, hc, hx⟩)
  rw [h.enterClass_eq hc]
  exact (h.agreeIn_scopes hb).withOpen _

/-- **The types come to the same.** -/
theorem types_again (h : p.Numbered) (hb : p.Learned b) :
    Decl.checkAll (.ofProgram p) b p.scopes p.decls = p.analyze.typed.report := by
  rw [h.report_eq]
  refine (Decl.check_all_alike p.decls fun d hd => ?_).symm
  cases d with
  | var _ => rfl
  | iface _ => rfl
  | fn g =>
    -- what a function looks up is among all that was looked up
    have hu := (h.agreeOn_findings hb).of_subset (uses_subset (mem_functions.mpr (.inl ⟨rfl, hd⟩)))
    exact g.check_alike (h.agreeIn_scopes hb) hu (fun _ _ => rfl) (fun _ _ => rfl) rfl (h.keeps hd)
      (h.keeps hd)
  | cls c =>
    -- entering the class changes nothing in what its members are declared with
    have hin : p.analyze.resolved.notes.AgreeIn b (p.scopes.enterClass c) := by
      rw [h.enterClass_eq hd]
      exact (h.agreeIn_scopes hb).withOpen _
    refine FnDecl.check_all_alike c.methods fun g hg => ?_
    have hu := (h.agreeOn_findings hb).of_subset
      (uses_subset (mem_functions.mpr (.inr ⟨c, rfl, hd, hg⟩)))
    exact g.check_alike hin hu (fun _ _ => rfl) (fun _ _ => rfl) rfl (h.keeps_method hd hg)
      (h.keeps_method hd hg)

end Numbered

end Program

/-! ## 4. Any order -/

/-- What a check reports, and the two numbers that it gives: of names that stand for something and
of others; of classes and of methods that replace an inherited one; of expressions with a type and
of reports. -/
structure Check.Outcome where
  diagnostics : List Diagnostic
  counts : Nat × Nat
deriving DecidableEq, Repr

namespace Session

/-- What a check of a session comes to. -/
def outcome (s : Session) : Check → Check.Outcome
  | .names =>
    ⟨s.resolve.1.diagnostics, s.resolve.1.boundCount, s.resolve.1.unboundCount⟩
  | .members => ⟨s.conform.1.diagnostics, s.conform.1.classes, s.conform.1.overrides⟩
  | .types =>
    ⟨s.checkTypes.1.diagnostics, s.checkTypes.1.exprCount, s.checkTypes.1.diagnostics.length⟩

/-- The names of the program have been looked up, and perhaps the types were checked. -/
structure Settled (p : Program) (s : Session) : Prop extends s.Scoped p where
  notes : s.notes = p.analyze.resolved.notes ∨ s.notes = p.analyze.notes

/-- In a settled session the notes are those of the names, with or without the types. -/
theorem Settled.learned {p : Program} {s : Session} (hs : s.Settled p) : p.Learned s.notes := by
  rcases hs.notes with e | e
  · exact ⟨[], List.nil_subset _, by rw [e]; rfl⟩
  · exact ⟨_, List.Subset.refl _, by rw [e]; rfl⟩

/-- **After the names, the checks can be run again and in any order.** -/
structure Repeatable (s : Session) : Prop where
  /-- The names come to what they came to for the first time. -/
  names : ∀ cs, (s.resolve.2.afterAll cs).outcome .names = s.outcome .names
  /-- A check comes to the same, whatever checks were run before it. -/
  again : ∀ cs cs' c, (s.resolve.2.afterAll cs).outcome c = (s.resolve.2.afterAll cs').outcome c
  /-- What is noted depends on whether the types were checked. -/
  noted : ∀ cs, (s.resolve.2.afterAll cs).notes =
    if Check.types ∈ cs then s.resolve.2.checkTypes.2.notes else s.resolve.2.notes

end Session

namespace Program.Numbered

variable {p : Program} {s t : Session}

/-- **The names come out the same every time.** -/
theorem outcome_names (h : p.Numbered) (hs : s.Scoped p) (ht : t.Scoped p) :
    s.outcome .names = t.outcome .names := by
  unfold Session.outcome Resolved.diagnostics Resolved.boundCount Resolved.unboundCount
  rw [h.findings_scoped hs, h.findings_scoped ht]

/-- **So do the members,** as they ask for nothing that the types bind. -/
theorem outcome_members (h : p.Numbered) (hs : s.Settled p) :
    s.outcome .members = ⟨(p.decls.filterMap Decl.cls?).flatMap (fun c =>
        c.faults (p.scopes.enterClass c) p.analyze.resolved.notes),
      (p.decls.filterMap Decl.cls?).length,
      (p.decls.filterMap Decl.cls?).foldl (fun n c => n + c.methods.countP
        (FnDecl.isOverride (p.scopes.enterClass c) p.analyze.resolved.notes)) 0⟩ := by
  obtain ⟨hdiags, hclasses, hoverrides⟩ := h.conform_scoped hs.toScoped
  have same := fun (c : ClassDecl) (hc : c ∈ p.decls.filterMap Decl.cls?) =>
    h.members_again hs.learned (Decl.mem_classes.mp hc)
  unfold Session.outcome
  rw [hdiags, hclasses, hoverrides, List.flatMap_congr fun c hc => (same c hc).1,
    List.foldl_ext _ _ 0 fun n c hc => congrArg (n + ·) (same c hc).2]

/-- **So do the types.** -/
theorem report_settled (h : p.Numbered) (hs : s.Settled p) :
    s.checkTypes.1.report = p.analyze.typed.report := by
  rw [h.report_scoped hs.toScoped, h.types_again hs.learned]

/-- **A check of a settled session comes to the same in every such session.** -/
theorem outcome_settled (h : p.Numbered) (hs : s.Settled p) (ht : t.Settled p) (c : Check) :
    s.outcome c = t.outcome c := by
  cases c with
  | names => exact h.outcome_names hs.toScoped ht.toScoped
  | members => rw [h.outcome_members hs, h.outcome_members ht]
  | types =>
    unfold Session.outcome TypeChecked.diagnostics TypeChecked.exprCount
    rw [h.report_settled hs, h.report_settled ht]

/-- What the names stand for is noted. -/
theorem findings_noted (h : p.Numbered) (hs : s.Settled p) :
    ∀ b ∈ (p.findings p.scopes).filterMap Finding.binding?,
      s.notes.bindings.get? b.1 = some b.2 := by
  intro b hb
  obtain ⟨x, hx, e⟩ := List.mem_filterMap.mp hb
  cases x with
  | fault d => cases e
  | use i k d =>
    cases d with
    | none => cases e
    | some d =>
      cases e
      obtain ⟨before, afterwards⟩ := h.decl?_of_mem hx
      -- the types add bindings, but none for a name that was looked up
      rcases hs.notes with e | e
      · rw [e]
        exact before
      · rw [e]
        exact afterwards

/-- **A check leaves the notes as they are, unless it is that of the types.** -/
theorem notes_after (h : p.Numbered) (hs : s.Settled p) (c : Check) :
    (s.after c).notes = if c = .types then p.analyze.notes else s.notes := by
  cases c with
  | names =>
    show Notes.mk (s.notes.bindings.insertAll (s.resolve.1.findings.filterMap Finding.binding?))
      s.notes.types = s.notes
    rw [h.findings_scoped hs.toScoped, Table.insertAll_eq_self (h.findings_noted hs)]
  | members => rfl
  | types =>
    show Notes.mk (s.notes.bindings.insertAll s.checkTypes.1.report.bindings)
      (s.notes.types.insertAll s.checkTypes.1.report.types) = p.analyze.notes
    rw [h.report_settled hs]
    rcases hs.notes with e | e
    · rw [e]
      rfl
    · rw [e, Table.insertAll_eq_self h.kept.bindings, Table.insertAll_eq_self h.kept.types]

/-- A check leaves the session settled. -/
theorem settled_after (h : p.Numbered) (hs : s.Settled p) (c : Check) : (s.after c).Settled p := by
  refine ⟨h.scoped_after hs.toScoped c, ?_⟩
  rw [h.notes_after hs c]
  split
  · exact .inr rfl
  · exact hs.notes

/-- So do checks in any order, by induction over them. -/
theorem settled_after_all (h : p.Numbered) (hs : s.Settled p) (cs : List Check) :
    (s.afterAll cs).Settled p := by
  induction cs generalizing s with
  | nil => exact hs
  | cons c cs ih => exact ih (h.settled_after hs c)

/-- What is noted after several checks. -/
theorem notes_after_all (h : p.Numbered) (hs : s.Settled p) (cs : List Check) :
    (s.afterAll cs).notes = if Check.types ∈ cs then p.analyze.notes else s.notes := by
  induction cs generalizing s with
  | nil => rfl
  | cons c cs ih =>
    show ((s.after c).afterAll cs).notes = _
    rw [ih (h.settled_after hs c), h.notes_after hs c]
    by_cases hcs : Check.types ∈ cs
    · rw [if_pos hcs, if_pos (List.mem_cons_of_mem c hcs)]
    · rw [if_neg hcs]
      by_cases hc : c = .types
      · rw [if_pos hc, if_pos (hc ▸ List.mem_cons_self)]
      · rw [if_neg hc, if_neg fun hm => (List.mem_cons.mp hm).elim (fun e => hc e.symm) hcs]

/-- **The checks can be run again and in any order,** once the names have been looked up. -/
theorem repeatable (h : p.Numbered) : (Session.start p).declare.2.Repeatable := by
  have hd := Session.declare_scoped p
  have hs : (Session.start p).declare.2.resolve.2.Settled p := ⟨h.scoped_after hd .names, .inl rfl⟩
  refine ⟨fun cs => h.outcome_names (h.scoped_after_all hs.toScoped cs) hd, fun cs cs' c => ?_,
    fun cs => ?_⟩
  · exact h.outcome_settled (h.settled_after_all hs cs) (h.settled_after_all hs cs') c
  · rw [h.notes_after_all hs cs]
    have ht := h.notes_after hs .types
    rw [if_pos rfl] at ht
    exact ht ▸ rfl

end Program.Numbered

/-- A booth hides the size of a stall behind a text and opens in another way, and it asks for
something that is gone. In the stall is a shelf. -/
def fair : Program := .number [
  .cls ⟨.onLine 1, .onLine "Stall" 1, none, [], [
    .var ⟨.onLine 2, .onLine "size" 2, .prim 0 .int⟩,
    .fn ⟨.onLine 3, .onLine "open" 3, .prim 0 .void,
      [⟨.onLine 3, .onLine "n" 3, .prim 0 .int⟩], none⟩,
    .cls ⟨.onLine 4, .onLine "Shelf" 4, none, [], [
      .var ⟨.onLine 5, .onLine "on" 5, .named 0 (.onLine "Shelf" 5)⟩]⟩]⟩,
  .cls ⟨.onLine 6, .onLine "Booth" 6, some (.onLine "Stall" 6), [], [
    .var ⟨.onLine 7, .onLine "size" 7, .prim 0 .string⟩,
    .fn ⟨.onLine 8, .onLine "open" 8, .prim 0 .void,
      [⟨.onLine 8, .onLine "s" 8, .prim 0 .string⟩], none⟩,
    .fn ⟨.onLine 9, .onLine "move" 9, .prim 0 .int,
      [⟨.onLine 9, .onLine "t" 9, .named 0 (.onLine "Stall" 9)⟩],
      some ⟨.onLine 10, [], [
        .expr (.assign (.onLine 11)
          (.field (.onLine 11) (.name (.onLine 11) (.onLine "t" 11)) (.onLine "size" 11))
          (.int (.onLine 11) 1)),
        .expr (.send (.onLine 12) (.name (.onLine 12) (.onLine "t" 12)) (.onLine "open" 12)
          [.field (.onLine 12) (.name (.onLine 12) (.onLine "t" 12)) (.onLine "size" 12)]),
        .ret (.point 13 1) (some (.name (.onLine 13) (.onLine "gone" 13)))]⟩⟩]⟩]

/-- At the fair, all three checks find something, and they find it again. The types add three names
behind a base to the five that are known. -/
theorem repeatable_fair :
    fair.Numbered ∧ (Session.start fair).declare.2.Repeatable ∧
    (let s := (Session.start fair).declare.2.resolve.2.afterAll [.types, .members, .types];
      s.outcome .names = ⟨[.located (.point 13 1) (.notDeclared "gone" .var)], 5, 1⟩ ∧
      s.outcome .members = ⟨[.located (.point 7 1) (.declConflict "size" 2),
        .located (.point 8 1) (.overrideMismatch "open")], 2, 0⟩ ∧
      s.outcome .types = ⟨[.located (.point 11 1) (.badOperands "=" .string .int),
        .located (.point 12 1) (.badArg 1 .string .int)], 9, 2⟩ ∧
      s.notes.bindings.size = 8 ∧
      (Session.start fair).declare.2.resolve.2.notes.bindings.size = 5) :=
  have hn : fair.Numbered := Program.number_numbered _
  ⟨hn, hn.repeatable, by decide +kernel⟩

end DecafLang
