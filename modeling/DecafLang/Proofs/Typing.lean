import DecafLang.Syntax.Handwritten
import DecafLang.Proofs.Rules
import DecafLang.Proofs.Lineage
import DecafLang.Proofs.Numbering

/-!
# The checker decides the rules

**The checker has nothing to say about an expression exactly if the rules give it a type, and it
finds that type** (`Expr.check_iff`). So it is with statements (`Stmt.check_iff`) and with
programs (`Program.Named.typed_iff`).

* A part without a type would silence the rule of the whole, so that the rules of the whole are
  compared with those of the checker for parts that have types.
* Where an expression stands, the checker follows the rules (`Context.Follows`): names stand for
  what they stand for everywhere, and the class around is the one that is open.
* Every expression in a program without a report was checked without one where it stands
  (`Program.Named.all_checked`), which is how later stages learn what the checker saw.
-/

namespace DecafLang

/-! ## 1. Where expressions stand -/

/-- In the context the rules are these, and declared types are as written. -/
structure Context.Follows (c : Context) (r : Rules) : Prop where
  notes_eq : c.notes = r.notes
  hierarchy_eq : c.hierarchy = r.hierarchy
  member_eq : ∀ owner name, c.forest.member? owner name = r.member? owner name
  cls_eq : c.forest.enclosingClass?.map ClassDecl.name = r.cls?
  written : c.forest.Written c.notes

/-- Nothing is reported, and this is the type. -/
def Typed.Gives (x : Typed) (t : Ty) : Prop := x.report.diagnostics = [] ∧ x.type = t

/-- Two reports say nothing together if neither does. -/
theorem Report.diagnostics_append (r s : Report) :
    (r ++ s).diagnostics = [] ↔ r.diagnostics = [] ∧ s.diagnostics = [] :=
  List.append_eq_nil_iff

/-- An expression gives what its rule gives, if its parts have nothing wrong with them. -/
theorem Verdict.at_gives {v : Verdict} {n : Node} {parts : Report} {t : Ty} :
    (v.at n parts).Gives t ↔ parts.diagnostics = [] ∧ v.Gives t := by
  have e : (v.at n parts).report.diagnostics = parts.diagnostics ++ v.faults := rfl
  unfold Typed.Gives Verdict.Gives
  rw [e, List.append_eq_nil_iff, and_assoc]
  rfl

namespace Context

variable {c : Context} {r : Rules} {s : Span} {i : Ident} {u t : Ty} {as : List (Span × Ty)}

/-- The object at hand is of the class around. -/
theorem this_gives (hc : c.Follows r) :
    (c.thisRule s).Gives t ↔ ∃ d, r.cls? = some d ∧ t = .named d := by
  unfold thisRule
  rw [← hc.cls_eq]
  cases c.forest.enclosingClass? with
  | none => exact ⟨fun h => (Verdict.broken_gives h).elim, fun ⟨_, h, _⟩ => nomatch h⟩
  | some d =>
    show (Verdict.ok (.named d.name)).Gives t ↔ ∃ e, some d.name = some e ∧ t = .named e
    rw [Verdict.ok_gives]
    exact ⟨fun h => ⟨_, rfl, h⟩, fun ⟨_, e, h⟩ => by cases e; exact h⟩

/-- A name gives the type that its variable is declared with. -/
theorem name_gives (hc : c.Follows r) (hu : (c.forest.use i .var).Settled c.notes) :
    (c.nameRule i).Gives t ↔ ∃ v, r.notes.decl? i = some (.var v) ∧ t = v.type.ty := by
  -- the name was looked up in the open scopes, and the notes have what was found
  obtain ⟨d, hl, -, hd⟩ := Forest.use_settled.mp hu
  have hw := hc.written.lookup? hl
  unfold nameRule
  rw [← hc.notes_eq, hd]
  cases d with
  | var v =>
    have e : c.notes.denote v.type = v.type.ty := hw
    show (Verdict.ok (c.notes.denote v.type)).Gives t ↔ _
    rw [Verdict.ok_gives, e]
    exact ⟨fun h => ⟨v, rfl, h⟩, fun ⟨_, e, h⟩ => by cases e; exact h⟩
  | fn _ => exact ⟨fun h => (Verdict.broken_gives h).elim, fun ⟨_, h, _⟩ => nomatch h⟩
  | iface _ => exact ⟨fun h => (Verdict.broken_gives h).elim, fun ⟨_, h, _⟩ => nomatch h⟩
  | cls _ => exact ⟨fun h => (Verdict.broken_gives h).elim, fun ⟨_, h, _⟩ => nomatch h⟩

/-- A new object is of a class that is found. -/
theorem new_gives (hc : c.Follows r) (hu : (c.forest.use i .cls).Settled c.notes) :
    (c.newRule i).Gives t ↔ (∃ d, r.notes.decl? i = some (.cls d)) ∧ t = .named i.name := by
  obtain ⟨d, -, ha, hd⟩ := Forest.use_settled.mp hu
  unfold newRule
  rw [← hc.notes_eq, hd]
  cases d with
  | var _ => cases ha
  | fn _ => cases ha
  | iface _ => cases ha
  | cls d =>
    show (Verdict.ok (.named i.name)).Gives t ↔ _
    rw [Verdict.ok_gives]
    exact ⟨fun h => ⟨⟨d, rfl⟩, h⟩, fun h => h.2⟩

/-- **A field gives its type where the class around may reach it.** -/
theorem field_gives (hc : c.Follows r) (hu : u.Proper) :
    (c.fieldRule u i).Gives t ↔ ∃ o d w v, u = .named o ∧ r.member? o i.name = some (.var w) ∧
      r.cls? = some d ∧ r.member? d i.name = some (.var v) ∧
      (r.Accepts (.named d) (.named o) ∨ r.Accepts (.named o) (.named d)) ∧ t = v.type.ty := by
  unfold fieldRule
  -- only a class has fields
  cases u with
  | named o =>
    constructor
    · intro h
      dsimp only at h
      split at h
      · rename_i w hw
        split at h
        · exact (Verdict.broken_gives h).elim
        · rename_i d hd
          split at h
          · rename_i v hv
            split at h
            · rename_i ha
              have e : c.notes.denote v.type = v.type.ty := hc.written.member? hv
              rw [hc.member_eq] at hw hv
              refine ⟨o, d.name, w, v, rfl, hw, ?_, hv, ?_, h.2.symm.trans e⟩
              · rw [← hc.cls_eq, hd]
                rfl
              · rw [Bool.or_eq_true] at ha
                unfold Rules.Accepts
                rw [← hc.hierarchy_eq]
                exact ha
            · exact (Verdict.broken_gives h).elim
          · exact (Verdict.broken_gives h).elim
      · exact (Verdict.broken_gives h).elim
    · intro h
      obtain ⟨_, d, w, v, e, hw, hd, hv, ha, rfl⟩ := h
      cases e
      rw [← hc.member_eq] at hw hv
      rw [← hc.cls_eq] at hd
      obtain ⟨d, hcls, rfl⟩ := Option.map_eq_some_iff.mp hd
      have e : c.notes.denote v.type = v.type.ty := hc.written.member? hv
      have ha : (c.accepts (.named d.name) (.named o) || c.accepts (.named o) (.named d.name)) =
          true := by
        rw [Bool.or_eq_true]
        unfold Rules.Accepts at ha
        rw [← hc.hierarchy_eq] at ha
        exact ha
      dsimp only
      rw [hw, hcls]
      dsimp only
      rw [hv]
      dsimp only
      rw [if_pos ha]
      exact ⟨rfl, e⟩
  | error => exact hu.elim
  | _ => exact ⟨fun h => (Verdict.broken_gives h).elim, fun ⟨_, _, _, _, h, _⟩ => nomatch h⟩

/-- A call is right if there are as many arguments as parameters, and all of them fit. -/
theorem call_faults {g : FnDecl} : c.callFaults g i as = [] ↔
    g.formals.length = as.length ∧ c.argFaults 1 g.formals as = [] := by
  unfold callFaults
  split
  · rename_i h
    exact ⟨fun e => ⟨h, e⟩, fun e => e.2⟩
  · rename_i h
    exact ⟨nofun, fun e => absurd e.1 h⟩

/-- A call gives the result type of the function. -/
theorem call_gives (hc : c.Follows r) (hu : (c.forest.use i .fn).Settled c.notes) :
    (c.callRule i as).Gives t ↔ ∃ g, r.notes.decl? i = some (.fn g) ∧ (Decl.fn g).Written c.notes ∧
      c.callFaults g i as = [] ∧ t = g.result.ty := by
  obtain ⟨d, hl, ha, hd⟩ := Forest.use_settled.mp hu
  have hw := hc.written.lookup? hl
  unfold callRule Notes.fn?
  rw [← hc.notes_eq, hd]
  cases d with
  | var _ => cases ha
  | iface _ => cases ha
  | cls _ => cases ha
  | fn g =>
    show c.callFaults g i as = [] ∧ c.notes.denote g.result = t ↔ _
    rw [hw.1]
    constructor
    · intro h
      obtain ⟨hf, rfl⟩ := h
      exact ⟨g, rfl, hw, hf, rfl⟩
    · intro h
      obtain ⟨_, e, -, hf, rfl⟩ := h
      cases e
      exact ⟨hf, rfl⟩

/-- A call of a method gives its result type. -/
theorem method_gives (hc : c.Follows r) : (c.methodRule u i as).Gives t ↔ ∃ o g, u = .named o ∧
    r.member? o i.name = some (.fn g) ∧ (Decl.fn g).Written c.notes ∧ c.callFaults g i as = [] ∧
    t = g.result.ty := by
  unfold methodRule
  constructor
  · intro h
    split at h
    · rename_i g hg
      obtain ⟨o, ho, hm⟩ := Option.bind_eq_some_iff.mp hg
      have hw := hc.written.member? hm
      obtain rfl : u = .named o := by
        cases u <;> cases ho
        rfl
      exact ⟨o, g, rfl, hc.member_eq o _ ▸ hm, hw, h.1, h.2.symm.trans hw.1⟩
    · exact (Verdict.broken_gives h).elim
  · intro h
    obtain ⟨o, g, rfl, hm, hw, hf, rfl⟩ := h
    rw [← hc.member_eq] at hm
    have e : (Ty.named o).name?.bind (fun owner => c.forest.member? owner i.name) =
        some (.fn g) := hm
    rw [e]
    exact ⟨hf, hw.1⟩

/-- **A call behind a dot is that of a method, or asks for the length of an array.** -/
theorem send_gives (hc : c.Follows r) (hu : u.Proper) : (c.sendRule u i as).Gives t ↔
    (u.isArray = true ∧ i.name = "length" ∧ as = [] ∧ t = .int) ∨
      ∃ o g, u = .named o ∧ r.member? o i.name = some (.fn g) ∧ (Decl.fn g).Written c.notes ∧
        c.callFaults g i as = [] ∧ t = g.result.ty := by
  unfold sendRule
  cases u with
  | error => exact hu.elim
  | array v =>
    dsimp only
    split
    · rename_i hi
      rw [Verdict.given_gives, List.isEmpty_iff]
      exact ⟨fun h => .inl ⟨rfl, hi, h⟩,
        fun h => h.elim (fun h => h.2.2) fun ⟨_, _, h, _⟩ => nomatch h⟩
    · rename_i hi
      rw [method_gives hc]
      exact ⟨.inr, fun h => h.elim (fun h => absurd h.2.1 hi) id⟩
  | _ =>
    rw [method_gives hc]
    exact ⟨.inr, fun h => h.elim (fun h => nomatch h.1) id⟩

/-- Arguments of these types break no rule. -/
theorem arg_faults {v : VarDecl} {vs : List VarDecl} {k : Nat} (hc : c.Follows r)
    (hv : c.notes.denote v.type = v.type.ty) : c.argFaults k (v :: vs) ((s, u) :: as) = [] ↔
      r.Accepts v.type.ty u ∧ c.argFaults (k + 1) vs as = [] := by
  show (if c.accepts (c.notes.denote v.type) u then [] else _) ++ c.argFaults (k + 1) vs as = [] ↔ _
  unfold Rules.Accepts
  rw [List.append_eq_nil_iff, hv, ← hc.hierarchy_eq]
  refine and_congr ?_ Iff.rfl
  split
  · rename_i h
    exact ⟨fun _ => h, fun _ => rfl⟩
  · rename_i h
    exact ⟨nofun, fun e => absurd e h⟩

end Context

/-! ## 2. Expressions -/

section

variable {c : Context} {r : Rules}

/-- The report of one part. -/
theorem Typed.gives_one (x : Typed) (P : Ty → Prop) :
    x.report.diagnostics = [] ∧ P x.type ↔ ∃ u, x.Gives u ∧ P u :=
  ⟨fun h => ⟨_, ⟨h.1, rfl⟩, h.2⟩, fun ⟨_, ⟨h, e⟩, hp⟩ => ⟨h, e ▸ hp⟩⟩

/-- The reports of two parts. -/
theorem Typed.gives_two (x y : Typed) (P : Ty → Ty → Prop) :
    (x.report ++ y.report).diagnostics = [] ∧ P x.type y.type ↔
      ∃ u v, x.Gives u ∧ y.Gives v ∧ P u v := by
  rw [Report.diagnostics_append]
  constructor
  · intro ⟨⟨hx, hy⟩, hp⟩
    exact ⟨_, _, ⟨hx, rfl⟩, ⟨hy, rfl⟩, hp⟩
  · intro h
    obtain ⟨u, v, ⟨hx, rfl⟩, ⟨hy, rfl⟩, hp⟩ := h
    exact ⟨⟨hx, hy⟩, hp⟩

mutual

/-- **The checker has nothing to say about an expression exactly if it has a type, and finds that
type.** -/
theorem Expr.check_iff (hc : c.Follows r) : ∀ e : Expr,
    (∀ x ∈ e.uses c.forest, x.Settled c.notes) → ∀ t, (e.check c).Gives t ↔ e.HasType r t
  | .int n _, _, t => Verdict.at_gives.trans ((and_iff_right rfl).trans Verdict.ok_gives)
  | .double n, _, t => Verdict.at_gives.trans ((and_iff_right rfl).trans Verdict.ok_gives)
  | .bool n _, _, t => Verdict.at_gives.trans ((and_iff_right rfl).trans Verdict.ok_gives)
  | .string n _, _, t => Verdict.at_gives.trans ((and_iff_right rfl).trans Verdict.ok_gives)
  | .null n, _, t => Verdict.at_gives.trans ((and_iff_right rfl).trans Verdict.ok_gives)
  | .readInteger n, _, t => Verdict.at_gives.trans ((and_iff_right rfl).trans Verdict.ok_gives)
  | .readLine n, _, t => Verdict.at_gives.trans ((and_iff_right rfl).trans Verdict.ok_gives)
  | .this n, _, t =>
    Verdict.at_gives.trans ((and_iff_right rfl).trans (Context.this_gives hc))
  | .name n i, hu, t => Verdict.at_gives.trans ((and_iff_right rfl).trans
      (Context.name_gives hc (hu _ List.mem_cons_self)))
  | .new n i, hu, t => Verdict.at_gives.trans ((and_iff_right rfl).trans
      (Context.new_gives hc (hu _ List.mem_cons_self)))
  | .binary n op x y, hu, t => by
    obtain ⟨hux, huy⟩ := List.forall_mem_append.mp hu
    have ihx := Expr.check_iff hc x hux
    have ihy := Expr.check_iff hc y huy
    refine Verdict.at_gives.trans ((Typed.gives_two (x.check c) (y.check c)
      fun u v => (c.binaryRule n.span op u v).Gives t).trans ?_)
    refine exists_congr fun u => exists_congr fun v => ?_
    rw [ihx, ihy]
    -- an operand that the rules give a type to has one that is known, so no rule passes over it
    exact and_congr_right fun hx => and_congr_right fun hy =>
      Context.binary_gives hc.hierarchy_eq hx.proper hy.proper
  | .unary n op x, hu, t => by
    have ih := Expr.check_iff hc x hu
    refine Verdict.at_gives.trans ((Typed.gives_one (x.check c)
      fun u => (Context.unaryRule n.span op u).Gives t).trans (exists_congr fun u => ?_))
    rw [ih]
    exact and_congr_right fun hx => Context.unary_gives hx.proper
  | .step n op x, hu, t => by
    have ih := Expr.check_iff hc x hu
    refine Verdict.at_gives.trans ((Typed.gives_one (x.check c)
      fun u => (Context.stepRule n.span op u).Gives t).trans ?_)
    constructor
    · intro ⟨u, hx, hr⟩
      rw [ih] at hx
      obtain ⟨rfl, rfl⟩ := (Context.step_gives hx.proper).mp hr
      exact ⟨hx, rfl⟩
    · intro h
      obtain ⟨hx, rfl⟩ := h
      exact ⟨_, (ih _).mpr hx, (Context.step_gives hx.proper).mpr ⟨rfl, rfl⟩⟩
  | .assign n x y, hu, t => by
    obtain ⟨hux, huy⟩ := List.forall_mem_append.mp hu
    have ihx := Expr.check_iff hc x hux
    have ihy := Expr.check_iff hc y huy
    refine Verdict.at_gives.trans ((Typed.gives_two (x.check c) (y.check c)
      fun u v => (c.assignRule n.span u v).Gives t).trans ?_)
    constructor
    · intro ⟨u, v, hx, hy, hr⟩
      obtain ⟨ha, rfl⟩ := (Context.assign_gives hc.hierarchy_eq).mp hr
      exact ⟨v, (ihx _).mp hx, (ihy _).mp hy, ha⟩
    · intro ⟨v, hx, hy, ha⟩
      exact ⟨t, v, (ihx _).mpr hx, (ihy _).mpr hy,
        (Context.assign_gives hc.hierarchy_eq).mpr ⟨ha, rfl⟩⟩
  | .index n x y, hu, t => by
    obtain ⟨hux, huy⟩ := List.forall_mem_append.mp hu
    have ihx := Expr.check_iff hc x hux
    have ihy := Expr.check_iff hc y huy
    refine Verdict.at_gives.trans ((Typed.gives_two (x.check c) (y.check c)
      fun u v => (Context.indexRule n.span y.span u v).Gives t).trans ?_)
    constructor
    · intro ⟨u, v, hx, hy, hr⟩
      rw [ihx] at hx
      rw [ihy] at hy
      obtain ⟨rfl, rfl⟩ := (Context.index_gives hx.proper hy.proper).mp hr
      exact ⟨hx, hy⟩
    · intro ⟨hx, hy⟩
      exact ⟨_, _, (ihx _).mpr hx, (ihy _).mpr hy,
        (Context.index_gives hx.proper hy.proper).mpr ⟨rfl, rfl⟩⟩
  | .field n x i, hu, t => by
    have ih := Expr.check_iff hc x hu
    refine Verdict.at_gives.trans ((Typed.gives_one (x.check c)
      fun u => (c.fieldRule u i).Gives t).trans ?_)
    constructor
    · intro ⟨u, hx, hr⟩
      rw [ih] at hx
      obtain ⟨o, d, w, v, rfl, h⟩ := (Context.field_gives hc hx.proper).mp hr
      exact ⟨o, d, w, v, hx, h⟩
    · intro ⟨o, d, w, v, hx, h⟩
      exact ⟨_, (ih _).mpr hx, (Context.field_gives hc hx.proper).mpr ⟨o, d, w, v, rfl, h⟩⟩
  | .call n i args, hu, t => by
    obtain ⟨hui, hua⟩ := List.forall_mem_cons.mp hu
    have ih := Expr.check_all_iff hc args hua
    refine Verdict.at_gives.trans ?_
    rw [Context.call_gives hc hui]
    constructor
    · intro h
      obtain ⟨ha, g, hg, hw, hf, rfl⟩ := h
      exact ⟨g, hg, (ih _ 1 hw.2).mp ⟨ha, Context.call_faults.mp hf⟩, rfl⟩
    · intro h
      obtain ⟨g, hg, hf, rfl⟩ := h
      obtain ⟨d, hl, -, hd⟩ := Forest.use_settled.mp hui
      have hw : (Decl.fn g).Written c.notes := by
        rw [hc.notes_eq, hg] at hd
        cases hd
        exact hc.written.lookup? hl
      obtain ⟨ha, hf⟩ := (ih _ 1 hw.2).mpr hf
      exact ⟨ha, g, hg, hw, Context.call_faults.mpr hf, rfl⟩
  | .send n x i args, hu, t => by
    obtain ⟨hux, hua⟩ := List.forall_mem_append.mp hu
    have ihx := Expr.check_iff hc x hux
    have ih := Expr.check_all_iff hc args hua
    refine Verdict.at_gives.trans ?_
    rw [Report.diagnostics_append]
    constructor
    · intro ⟨⟨hx, ha⟩, hr⟩
      have hx := (ihx _).mp ⟨hx, rfl⟩
      refine ⟨_, hx, ?_⟩
      rcases (Context.send_gives hc hx.proper).mp hr with
        ⟨h, hi, he, ht⟩ | ⟨o, g, h, hm, hw, hf, ht⟩
      · refine .inl ⟨h, hi, ?_, ht⟩
        cases args with
        | nil => rfl
        | cons _ _ => cases he
      · exact .inr ⟨o, g, h, hm, (ih _ 1 hw.2).mp ⟨ha, Context.call_faults.mp hf⟩, ht⟩
    · intro ⟨u, hx, h⟩
      obtain ⟨hd, rfl⟩ := (ihx _).mpr hx
      rcases h with ⟨h, hi, rfl, ht⟩ | ⟨o, g, h, hm, hf, ht⟩
      · exact ⟨⟨hd, rfl⟩, (Context.send_gives hc hx.proper).mpr (.inl ⟨h, hi, rfl, ht⟩)⟩
      · have hw : (Decl.fn g).Written c.notes := hc.written.member? ((hc.member_eq _ _).trans hm)
        obtain ⟨ha, hf⟩ := (ih _ 1 hw.2).mpr hf
        exact ⟨⟨hd, ha⟩, (Context.send_gives hc hx.proper).mpr
          (.inr ⟨o, g, h, hm, hw, Context.call_faults.mpr hf, ht⟩)⟩
  | .newArray n x e, hu, t => by
    obtain ⟨hux, hue⟩ := List.forall_mem_append.mp hu
    have ih := Expr.check_iff hc x hux
    have he : c.notes.denote e = e.ty := TypeExpr.denote_eq hue
    refine Verdict.at_gives.trans ((Typed.gives_one (x.check c)
      fun u => (c.newArrayRule x.span u e).Gives t).trans ?_)
    constructor
    · intro ⟨u, hx, hr⟩
      rw [ih] at hx
      obtain ⟨rfl, rfl⟩ := (Context.newArray_gives he hx.proper).mp hr
      exact ⟨hx, rfl⟩
    · intro h
      obtain ⟨hx, rfl⟩ := h
      exact ⟨_, (ih _).mpr hx, (Context.newArray_gives he hx.proper).mpr ⟨rfl, rfl⟩⟩

/-- **Arguments in a row pass if they fit the parameters.** -/
theorem Expr.check_all_iff (hc : c.Follows r) : ∀ es : List Expr,
    (∀ x ∈ Expr.usesAll c.forest es, x.Settled c.notes) → ∀ (vs : List VarDecl) (k : Nat),
      (∀ v ∈ vs, c.notes.denote v.type = v.type.ty) →
        ((Expr.checkAll c es).2.diagnostics = [] ∧ vs.length = (Expr.checkAll c es).1.length ∧
          c.argFaults k vs (Expr.checkAll c es).1 = [] ↔ Expr.Fit r vs es)
  | [], _, [], _, _ => ⟨fun _ => trivial, fun _ => ⟨rfl, rfl, rfl⟩⟩
  | [], _, _ :: _, _, _ => ⟨fun h => absurd h.2.1 nofun, fun h => h.elim⟩
  | _ :: _, _, [], _, _ => ⟨fun h => absurd h.2.1 nofun, fun h => h.elim⟩
  | e :: es, hu, v :: vs, k, hv => by
    obtain ⟨hue, hus⟩ := List.forall_mem_append.mp hu
    obtain ⟨hv, hvs⟩ := List.forall_mem_cons.mp hv
    have ih := Expr.check_iff hc e hue
    have ihs := Expr.check_all_iff hc es hus vs (k + 1) hvs
    have hlen : (v :: vs).length = (Expr.checkAll c (e :: es)).1.length ↔
        vs.length = (Expr.checkAll c es).1.length := Nat.succ_inj
    show ((e.check c).report ++ (Expr.checkAll c es).2).diagnostics = [] ∧ _ ∧
      c.argFaults k (v :: vs) ((e.span, (e.check c).type) :: (Expr.checkAll c es).1) = [] ↔ _
    rw [Report.diagnostics_append, hlen, Context.arg_faults hc hv]
    constructor
    · intro ⟨⟨he, hes⟩, hl, ha, hf⟩
      exact ⟨⟨_, (ih _).mp ⟨he, rfl⟩, ha⟩, ihs.mp ⟨hes, hl, hf⟩⟩
    · intro ⟨⟨u, he, ha⟩, hs⟩
      obtain ⟨hd, rfl⟩ := (ih _).mpr he
      obtain ⟨hes, hl, hf⟩ := ihs.mpr hs
      exact ⟨⟨hd, hes⟩, hl, ha, hf⟩

end

end

/-! ## 3. Statements -/

section

variable {c : Context} {r : Rules}

/-- An expression passes if it has some type. -/
theorem Expr.check_exists_iff (hc : c.Follows r) {e : Expr}
    (hu : ∀ x ∈ e.uses c.forest, x.Settled c.notes) :
    (e.check c).report.diagnostics = [] ↔ ∃ t, e.HasType r t :=
  ⟨fun h => ⟨_, (Expr.check_iff hc e hu _).mp ⟨h, rfl⟩⟩,
    fun ⟨_, h⟩ => ((Expr.check_iff hc e hu _).mpr h).1⟩

/-- The same for one that may be missing. -/
theorem Expr.check_opt_iff (hc : c.Follows r) {e : Option Expr}
    (hu : ∀ x ∈ Expr.usesOpt c.forest e, x.Settled c.notes) :
    (Expr.checkOpt c e).diagnostics = [] ↔ ∀ x ∈ e, ∃ t, x.HasType r t := by
  cases e with
  | none => exact ⟨fun _ => nofun, fun _ => rfl⟩
  | some e =>
    refine (Expr.check_exists_iff hc hu).trans ⟨fun h x hx => ?_, fun h => h e rfl⟩
    cases hx
    exact h

/-- A part whose type has to be of some kind. -/
theorem Expr.check_kind_iff (hc : c.Follows r) {e : Expr} {ds : List Diagnostic} {P : Ty → Prop}
    (hu : ∀ x ∈ e.uses c.forest, x.Settled c.notes)
    (hd : (e.check c).type.Proper → (ds = [] ↔ P (e.check c).type)) :
    ((e.check c).report ++ .ofFaults ds).diagnostics = [] ↔ ∃ t, e.HasType r t ∧ P t := by
  rw [Report.diagnostics_append]
  constructor
  · intro ⟨he, hf⟩
    have ht := (Expr.check_iff hc e hu _).mp ⟨he, rfl⟩
    exact ⟨_, ht, (hd ht.proper).mp hf⟩
  · intro ⟨t, ht, hp⟩
    obtain ⟨he, rfl⟩ := (Expr.check_iff hc e hu _).mpr ht
    exact ⟨he, (hd ht.proper).mpr hp⟩

/-- A test passes if it is a truth value. -/
theorem Expr.check_test_iff (hc : c.Follows r) {e : Expr}
    (hu : ∀ x ∈ e.uses c.forest, x.Settled c.notes) :
    (e.checkTest c).diagnostics = [] ↔ e.HasType r .bool := by
  refine (Expr.check_kind_iff (P := fun t => t = .bool) hc hu fun ht => ?_).trans
    ⟨fun ⟨_, h, e⟩ => e ▸ h, fun h => ⟨_, h, rfl⟩⟩
  unfold Context.testFaults
  rw [ht.isError, Bool.or_false]
  split
  · rename_i h
    exact ⟨fun _ => beq_iff_eq.mp h, fun _ => rfl⟩
  · rename_i h
    exact ⟨nofun, fun e => absurd (beq_iff_eq.mpr e) h⟩

/-- A return passes if the result type takes its value. -/
theorem Context.return_faults (hc : c.Follows r) {s : Span} {t : Ty} :
    c.returnFaults s t = [] ↔ r.Accepts c.result t := by
  unfold returnFaults Rules.Accepts accepts
  rw [hc.hierarchy_eq]
  split
  · rename_i h
    exact ⟨fun _ => h, fun _ => rfl⟩
  · rename_i h
    exact ⟨nofun, fun e => absurd e h⟩

/-- A break passes inside a loop. -/
theorem Context.break_faults {s : Span} : c.breakFaults s = [] ↔ c.breakable = true := by
  unfold breakFaults
  split
  · rename_i h
    exact ⟨fun _ => h, fun _ => rfl⟩
  · rename_i h
    exact ⟨nofun, fun e => absurd e h⟩

/-- Numbers, truth values and texts can be printed. -/
theorem Context.printable_iff {t : Ty} (ht : t.Proper) :
    printable t = true ↔ t = .int ∨ t = .bool ∨ t = .string := by
  cases t with
  | error => exact ht.elim
  | int => exact ⟨fun _ => .inl rfl, fun _ => rfl⟩
  | bool => exact ⟨fun _ => .inr (.inl rfl), fun _ => rfl⟩
  | string => exact ⟨fun _ => .inr (.inr rfl), fun _ => rfl⟩
  | _ =>
    refine ⟨nofun, fun h => ?_⟩
    rcases h with h | h | h <;> cases h

/-- What is printed passes if all of it can be printed. -/
theorem Expr.check_print_iff (hc : c.Follows r) : ∀ (es : List Expr) (k : Nat),
    (∀ x ∈ Expr.usesAll c.forest es, x.Settled c.notes) →
      ((Expr.checkPrint c k es).diagnostics = [] ↔
        ∀ e ∈ es, e.HasType r .int ∨ e.HasType r .bool ∨ e.HasType r .string)
  | [], _, _ => ⟨fun _ => nofun, fun _ => rfl⟩
  | e :: es, k, hu => by
    obtain ⟨hue, hus⟩ := List.forall_mem_append.mp hu
    have ih := Expr.check_print_iff hc es (k + 1) hus
    have hone : ((e.check c).report ++
        .ofFaults (Context.printFaults k e.span (e.check c).type)).diagnostics = [] ↔
          ∃ t, e.HasType r t ∧ (t = .int ∨ t = .bool ∨ t = .string) := by
      refine Expr.check_kind_iff hc hue fun ht => ?_
      rw [← Context.printable_iff ht]
      unfold Context.printFaults
      split
      · rename_i h
        exact ⟨fun _ => h, fun _ => rfl⟩
      · rename_i h
        exact ⟨nofun, fun e => absurd e h⟩
    rw [List.forall_mem_cons, ← ih]
    refine (Report.diagnostics_append _ _).trans (and_congr (hone.trans ?_) Iff.rfl)
    constructor
    · intro h
      rcases h with ⟨t, h, rfl | rfl | rfl⟩
      · exact .inl h
      · exact .inr (.inl h)
      · exact .inr (.inr h)
    · intro h
      rcases h with h | h | h
      · exact ⟨_, h, .inl rfl⟩
      · exact ⟨_, h, .inr (.inl rfl)⟩
      · exact ⟨_, h, .inr (.inr rfl)⟩

/-- A scope that is not that of a class is passed over. -/
theorem Forest.Has.enclosingClass?_eq {f : Forest} {o : Opening} {k : ScopeId} {ks : List ScopeId}
    (h : f.Has o k) (ho : ∀ w ∈ o.scope.owner, w.kind ≠ .cls) :
    (f.withOpen (k :: ks)).enclosingClass? = (f.withOpen ks).enclosingClass? := by
  have e : (f.withOpen (k :: ks)).classOf? k = none := by
    have hw : ((f.withOpen (k :: ks)).scope k).owner = o.scope.owner := h.owner_eq
    unfold classOf?
    rw [hw]
    split
    · rename_i name hw
      exact absurd rfl (ho _ hw)
    · rfl
  show List.findSome? (f.withOpen (k :: ks)).classOf? (k :: (ks ++ [globalId])) = _
  rw [List.findSome?_cons, e]
  rfl

/-- Blocks open scopes in which the rules are the same. -/
theorem Context.Follows.inBlock (hc : c.Follows r) {n : Node} {ls : List VarDecl} {k : ScopeId}
    (h : c.forest.Has ⟨n.id, .holding none (ls.map .var)⟩ k) : (c.inBlock n).Follows r := by
  have e : (c.inBlock n).forest = c.forest.withOpen (k :: c.forest.inner) := h.enter
  refine ⟨hc.notes_eq, hc.hierarchy_eq, fun owner name => ?_, ?_, ?_⟩
  · rw [e]
    exact hc.member_eq owner name
  · rw [e, h.enclosingClass?_eq nofun]
    exact hc.cls_eq
  · rw [e]
    exact hc.written

/-- Inside a loop the rules are the same. -/
theorem Context.Follows.inBreakable (hc : c.Follows r) : c.inBreakable.Follows r :=
  ⟨hc.notes_eq, hc.hierarchy_eq, hc.member_eq, hc.cls_eq, hc.written⟩

mutual

/-- **The checker has nothing to say about a statement exactly if it is well typed.** -/
theorem Stmt.check_iff : ∀ (s : Stmt) {c : Context}, c.Follows r → c.forest.HasAll s.openings →
    (∀ x ∈ s.uses c.forest, x.Settled c.notes) →
      ((s.check c).diagnostics = [] ↔ s.WellTyped r c.result c.breakable)
  | .block b, _, hc, ho, hu => b.check_iff hc ho hu
  | .ifThen _ t s, _, hc, ho, hu => by
    obtain ⟨hut, hus⟩ := List.forall_mem_append.mp hu
    exact (Report.diagnostics_append _ _).trans
      (and_congr (Expr.check_test_iff hc hut) (s.check_iff hc ho hus))
  | .ifElse _ t s o, _, hc, ho, hu => by
    obtain ⟨hu, huo⟩ := List.forall_mem_append.mp hu
    obtain ⟨hut, hus⟩ := List.forall_mem_append.mp hu
    obtain ⟨hos, hoo⟩ := Forest.hasAll_append.mp ho
    refine (Report.diagnostics_append _ _).trans ((and_congr ((Report.diagnostics_append _ _).trans
      (and_congr (Expr.check_test_iff hc hut) (s.check_iff hc hos hus)))
        (o.check_iff hc hoo huo)).trans and_assoc)
  | .while _ t s, c, hc, ho, hu => by
    obtain ⟨hut, hus⟩ := List.forall_mem_append.mp hu
    exact (Report.diagnostics_append _ _).trans (and_congr (Expr.check_test_iff hc hut)
      (s.check_iff (c := c.inBreakable) hc.inBreakable ho hus))
  | .for _ i t u s, c, hc, ho, hu => by
    obtain ⟨hu, hus⟩ := List.forall_mem_append.mp hu
    obtain ⟨hu, huu⟩ := List.forall_mem_append.mp hu
    obtain ⟨hui, hut⟩ := List.forall_mem_append.mp hu
    have hs := s.check_iff (c := c.inBreakable) hc.inBreakable ho hus
    show (Expr.checkOpt c i ++ t.checkTest c ++ Expr.checkOpt c u ++
      s.check c.inBreakable).diagnostics = [] ↔ _
    -- a report in parts says nothing if no part does
    rw [Report.diagnostics_append, Report.diagnostics_append, Report.diagnostics_append, hs,
      Expr.check_opt_iff hc hui, Expr.check_test_iff hc hut, Expr.check_opt_iff hc huu, and_assoc,
      and_assoc]
    rfl
  | .switch _ e cs, c, hc, ho, hu => by
    obtain ⟨hue, hus⟩ := List.forall_mem_append.mp hu
    exact (Report.diagnostics_append _ _).trans (and_congr (Expr.check_exists_iff hc hue)
      (Case.check_all_iff cs (c := c.inBreakable) hc.inBreakable ho hus rfl))
  | .break _, _, _, _, _ => Context.break_faults
  | .ret _ none, _, hc, _, _ => Context.return_faults hc
  | .ret _ (some _), _, hc, _, hu =>
    Expr.check_kind_iff hc hu fun _ => Context.return_faults hc
  | .print _ es, _, hc, _, hu => Expr.check_print_iff hc es 1 hu
  | .expr _, _, hc, _, hu => Expr.check_exists_iff hc hu

/-- **A block passes if the rules let its statements pass,** with its variables in sight. -/
theorem Block.check_iff : ∀ (b : Block) {c : Context}, c.Follows r → c.forest.HasAll b.openings →
    (∀ x ∈ b.uses c.forest, x.Settled c.notes) →
      ((b.check c).diagnostics = [] ↔ b.WellTyped r c.result c.breakable)
  | ⟨n, ls, ss⟩, c, hc, ho, hu => by
    obtain ⟨⟨k, hk⟩, ho⟩ := Forest.hasAll_cons.mp ho
    exact Stmt.check_all_iff ss (c := c.inBlock n) (hc.inBlock hk) (ho.enter hk)
      fun x hx => hu x (List.mem_append_right _ hx)

/-- The same for statements in a row. -/
theorem Stmt.check_all_iff : ∀ (ss : List Stmt) {c : Context}, c.Follows r →
    c.forest.HasAll (Stmt.openingsAll ss) →
      (∀ x ∈ Stmt.usesAll ss c.forest, x.Settled c.notes) →
        ((Stmt.checkAll ss c).diagnostics = [] ↔ Stmt.WellTypedAll r c.result ss c.breakable)
  | [], _, _, _, _ => ⟨fun _ => trivial, fun _ => rfl⟩
  | s :: ss, _, hc, ho, hu => by
    obtain ⟨hos, hor⟩ := Forest.hasAll_append.mp ho
    obtain ⟨hus, hur⟩ := List.forall_mem_append.mp hu
    exact (Report.diagnostics_append _ _).trans
      (and_congr (s.check_iff hc hos hus) (Stmt.check_all_iff ss hc hor hur))

/-- The same for the arms of a switch, where a break may stand. -/
theorem Case.check_all_iff : ∀ (cs : List Case) {c : Context}, c.Follows r →
    c.forest.HasAll (Case.openingsAll cs) → (∀ x ∈ Case.usesAll cs c.forest, x.Settled c.notes) →
      c.breakable = true →
        ((Case.checkAll cs c).diagnostics = [] ↔ Case.WellTypedAll r c.result cs)
  | [], _, _, _, _, _ => ⟨fun _ => trivial, fun _ => rfl⟩
  | ⟨_, ss⟩ :: cs, _, hc, ho, hu, hb => by
    obtain ⟨hos, hor⟩ := Forest.hasAll_append.mp ho
    obtain ⟨hus, hur⟩ := List.forall_mem_append.mp hu
    have hs := Stmt.check_all_iff ss hc hos hus
    rw [hb] at hs
    exact (Report.diagnostics_append _ _).trans
      (and_congr hs (Case.check_all_iff cs hc hor hur hb))

end

end

/-! ## 4. The types in the notes -/

section

variable {c : Context} {r : Rules} {f : Forest} {a : Notes}

/-- Inside of something the rules are followed, and the functions in sight are those in sight
around it. -/
structure Context.Stands (c : Context) (r : Rules) (f : Forest) : Prop where
  follows : c.Follows r
  fns : ∀ name g, c.forest.lookup? name = some (.fn g) → f.lookup? name = some (.fn g)

/-- Variables hide functions, and add none. -/
theorem Forest.Has.lookup?_fn {n : NodeId} {w : Option Owner} {ls : List VarDecl} {k : ScopeId}
    (h : f.Has ⟨n, .holding w (ls.map .var)⟩ k) {name : String} {g : FnDecl}
    (hl : (f.withOpen (k :: f.inner)).lookup? name = some (.fn g)) :
    f.lookup? name = some (.fn g) := by
  rw [h.lookup?_eq] at hl
  rcases Option.or_eq_some_iff.mp hl with hl | ⟨-, hl⟩
  · obtain ⟨v, -, e⟩ := List.mem_map.mp (List.mem_of_find?_eq_some hl)
    cases e
  · exact hl

/-- In a block the functions in sight are still those of the program. -/
theorem Context.Stands.inBlock (hc : c.Stands r f) {n : Node} {ls : List VarDecl} {k : ScopeId}
    (h : c.forest.Has ⟨n.id, .holding none (ls.map .var)⟩ k) : (c.inBlock n).Stands r f := by
  have e : (c.inBlock n).forest = c.forest.withOpen (k :: c.forest.inner) := h.enter
  refine ⟨hc.follows.inBlock h, fun name g hl => hc.fns name g (h.lookup?_fn ?_)⟩
  rwa [e] at hl

theorem Context.Stands.inBreakable (hc : c.Stands r f) : c.inBreakable.Stands r f :=
  ⟨hc.follows.inBreakable, hc.fns⟩

/-- The type in the notes is the one that the rules give. -/
def Expr.Noted (r : Rules) (a : Notes) (e : Expr) : Prop := ∀ t, e.HasType r t ↔ t = a.typeOf e

/-- A clean report has the type of the expression in the notes. -/
theorem Expr.type_kept {e : Expr} (h : (e.check c).report.Clean a) :
    a.typeOf e = (e.check c).type := by
  have : a.types.get? e.id = some (e.check c).type := by
    cases e with
    | _ => exact (Verdict.clean_at.mp h).2.2.1
  unfold Notes.typeOf
  rw [this]
  rfl

/-- **The notes have the type that the rules give.** -/
theorem Expr.noted (hc : c.Follows r) {e : Expr} (hu : ∀ x ∈ e.uses c.forest, x.Settled c.notes)
    (h : (e.check c).report.Clean a) : e.Noted r a := by
  intro t
  rw [Expr.type_kept h, ← Expr.check_iff hc e hu t]
  exact ⟨fun h' => h'.2.symm, fun e' => ⟨h.1, e'.symm⟩⟩

/-- No piece of a type is an expression. -/
theorem TypeExpr.expr_not_mem {e : Expr} : ∀ t : TypeExpr, Part.expr e ∉ t.parts
  | .prim _ _, h => by cases List.mem_singleton.mp h
  | .named _ _, h => by simp [TypeExpr.parts] at h
  | .array _ t, h => (List.mem_append.mp h).elim t.expr_not_mem fun h => by
      cases List.mem_singleton.mp h

/-- The expressions among pieces have the types that are noted. -/
def Part.AllNoted (r : Rules) (a : Notes) (ps : List Part) : Prop :=
  ∀ e, Part.expr e ∈ ps → e.Noted r a

/-- The expression was checked without a report inside of something. -/
def Expr.Checked (r : Rules) (f : Forest) (a : Notes) (e : Expr) : Prop :=
  ∃ c : Context, c.Stands r f ∧ (∀ x ∈ e.uses c.forest, x.Known c.notes a) ∧
    (e.check c).report.Clean a

/-- An expression that was checked is noted. -/
theorem Expr.Checked.noted {e : Expr} (h : e.Checked r f a) : e.Noted r a := by
  obtain ⟨c, hc, hu, hk⟩ := h
  exact Expr.noted hc.follows (fun x hx => (hu x hx).1) hk

/-- The property holds of all expressions among pieces. -/
def Part.All (P : Expr → Prop) (ps : List Part) : Prop := ∀ e, Part.expr e ∈ ps → P e

namespace Part.All

variable {P : Expr → Prop} {ps qs : List Part}

theorem nil : All P [] := nofun

/-- What holds of the expressions of both parts. -/
theorem append (h : All P ps) (h' : All P qs) : All P (ps ++ qs) :=
  fun e he => (List.mem_append.mp he).elim (h e) (h' e)

theorem left (h : All P (ps ++ qs)) : All P ps := fun e he => h e (List.mem_append_left _ he)

theorem right (h : All P (ps ++ qs)) : All P qs := fun e he => h e (List.mem_append_right _ he)

/-- The last piece that is added holds the property. -/
theorem last {q : Part} {e : Expr} (h : All P (ps ++ [q, .expr e])) : P e := h e (by simp)

/-- What holds of one expression. -/
theorem one {e : Expr} (h : P e) : All P [.expr e] := by
  intro e' he
  cases List.mem_singleton.mp he
  exact h

/-- A piece that is no expression in front. -/
theorem cons {q : Part} (hq : ∀ e, q ≠ .expr e) (h : All P ps) : All P (q :: ps) :=
  fun e he => (List.mem_cons.mp he).elim (fun e' => absurd e'.symm (hq e)) (h e)

/-- Types have no expressions. -/
theorem type (t : TypeExpr) : All P t.parts := fun _ he => absurd he t.expr_not_mem

/-- Nor have variables. -/
theorem vars (vs : List VarDecl) : All P (vs.flatMap VarDecl.parts) := by
  intro e he
  obtain ⟨v, -, hv⟩ := List.mem_flatMap.mp he
  -- a variable is a name and a declaration, and neither is an expression
  have hd : All P [.declared v.ident, .decl (.var v)] := cons nofun (cons nofun nil)
  exact append (type v.type) hd e hv

end Part.All

mutual

/-- **Every part of an expression without a report was checked without one.** -/
theorem Expr.all_checked (hc : c.Stands r f) : ∀ e : Expr,
    (∀ x ∈ e.uses c.forest, x.Known c.notes a) → (e.check c).report.Clean a →
      Part.All (Expr.Checked r f a) e.parts
  | .int _ _, hu, h => .one ⟨_, hc, hu, h⟩
  | .double _, hu, h => .one ⟨_, hc, hu, h⟩
  | .bool _ _, hu, h => .one ⟨_, hc, hu, h⟩
  | .string _ _, hu, h => .one ⟨_, hc, hu, h⟩
  | .null _, hu, h => .one ⟨_, hc, hu, h⟩
  | .this _, hu, h => .one ⟨_, hc, hu, h⟩
  | .readInteger _, hu, h => .one ⟨_, hc, hu, h⟩
  | .readLine _, hu, h => .one ⟨_, hc, hu, h⟩
  | .name _ _, hu, h => .cons nofun (.one ⟨_, hc, hu, h⟩)
  | .new _ _, hu, h => .cons nofun (.one ⟨_, hc, hu, h⟩)
  | .binary _ _ x y, hu, h
  | .assign _ x y, hu, h
  | .index _ x y, hu, h => by
    obtain ⟨hux, huy⟩ := List.forall_mem_append.mp hu
    -- the report of the whole has those of the operands in front
    obtain ⟨hx, hy⟩ := Report.clean_append.mp (Verdict.clean_at.mp h).1
    exact .append (.append (x.all_checked hc hux hx) (y.all_checked hc huy hy))
      (.one ⟨_, hc, hu, h⟩)
  | .unary _ _ x, hu, h =>
    .append (x.all_checked hc hu (Verdict.clean_at.mp h).1) (.one ⟨_, hc, hu, h⟩)
  | .step _ _ x, hu, h =>
    .append (x.all_checked hc hu (Verdict.clean_at.mp h).1) (.one ⟨_, hc, hu, h⟩)
  | .field _ x _, hu, h =>
    .append (x.all_checked hc hu (Verdict.clean_at.mp h).1) (.cons nofun (.one ⟨_, hc, hu, h⟩))
  | .call _ _ args, hu, h =>
    .append (Expr.all_checked_all hc args (fun x hx => hu x (List.mem_cons_of_mem _ hx))
      (Verdict.clean_at.mp h).1) (.cons nofun (.one ⟨_, hc, hu, h⟩))
  | .send _ x _ args, hu, h => by
    obtain ⟨hux, hua⟩ := List.forall_mem_append.mp hu
    obtain ⟨hx, ha⟩ := Report.clean_append.mp (Verdict.clean_at.mp h).1
    exact .append (.append (x.all_checked hc hux hx) (Expr.all_checked_all hc args hua ha))
      (.cons nofun (.one ⟨_, hc, hu, h⟩))
  | .newArray _ x t, hu, h => by
    obtain ⟨hux, -⟩ := List.forall_mem_append.mp hu
    exact .append (.append (x.all_checked hc hux (Verdict.clean_at.mp h).1) (.type t))
      (.one ⟨_, hc, hu, h⟩)

/-- The same for expressions in a row. -/
theorem Expr.all_checked_all (hc : c.Stands r f) : ∀ es : List Expr,
    (∀ x ∈ Expr.usesAll c.forest es, x.Known c.notes a) → (Expr.checkAll c es).2.Clean a →
      Part.All (Expr.Checked r f a) (Expr.partsAll es)
  | [], _, _ => .nil
  | e :: es, hu, h => by
    obtain ⟨hue, hus⟩ := List.forall_mem_append.mp hu
    obtain ⟨he, hs⟩ := Report.clean_append.mp h
    exact .append (e.all_checked hc hue he) (Expr.all_checked_all hc es hus hs)

end

theorem Expr.all_checked_opt (hc : c.Stands r f) {e : Option Expr}
    (hu : ∀ x ∈ Expr.usesOpt c.forest e, x.Known c.notes a) (h : (Expr.checkOpt c e).Clean a) :
    Part.All (Expr.Checked r f a) (Expr.partsOpt e) := by
  cases e with
  | none => exact .nil
  | some e => exact e.all_checked hc hu h

/-- The same for what is printed. -/
theorem Expr.all_checked_print (hc : c.Stands r f) : ∀ (es : List Expr) (k : Nat),
    (∀ x ∈ Expr.usesAll c.forest es, x.Known c.notes a) → (Expr.checkPrint c k es).Clean a →
      Part.All (Expr.Checked r f a) (Expr.partsAll es)
  | [], _, _, _ => .nil
  | e :: es, k, hu, h => by
    obtain ⟨hue, hus⟩ := List.forall_mem_append.mp hu
    obtain ⟨he, hs⟩ := Report.clean_append.mp h
    exact .append (e.all_checked hc hue (Report.clean_append.mp he).1)
      (Expr.all_checked_print hc es (k + 1) hus hs)

mutual

/-- **All expressions in a statement were checked where they stand.** -/
theorem Stmt.all_checked : ∀ (s : Stmt) {c : Context}, c.Stands r f → c.forest.HasAll s.openings →
    (∀ x ∈ s.uses c.forest, x.Known c.notes a) → (s.check c).Clean a →
      Part.All (Expr.Checked r f a) s.parts
  | .block b, _, hc, ho, hu, h => b.all_checked hc ho hu h
  | .ifThen _ t s, _, hc, ho, hu, h => by
    obtain ⟨hut, hus⟩ := List.forall_mem_append.mp hu
    obtain ⟨ht, hs⟩ := Report.clean_append.mp h
    exact .append (t.all_checked hc hut (Report.clean_append.mp ht).1) (s.all_checked hc ho hus hs)
  | .ifElse _ t s o, _, hc, ho, hu, h => by
    obtain ⟨hu, huo⟩ := List.forall_mem_append.mp hu
    obtain ⟨hut, hus⟩ := List.forall_mem_append.mp hu
    obtain ⟨h, ho'⟩ := Report.clean_append.mp h
    obtain ⟨ht, hs⟩ := Report.clean_append.mp h
    obtain ⟨hos, hoo⟩ := Forest.hasAll_append.mp ho
    exact .append (.append (t.all_checked hc hut (Report.clean_append.mp ht).1)
      (s.all_checked hc hos hus hs)) (o.all_checked hc hoo huo ho')
  | .while _ t s, c, hc, ho, hu, h => by
    obtain ⟨hut, hus⟩ := List.forall_mem_append.mp hu
    obtain ⟨ht, hs⟩ := Report.clean_append.mp h
    exact .append (t.all_checked hc hut (Report.clean_append.mp ht).1)
      (s.all_checked (c := c.inBreakable) hc.inBreakable ho hus hs)
  | .for _ i t u s, c, hc, ho, hu, h => by
    obtain ⟨hu, hus⟩ := List.forall_mem_append.mp hu
    obtain ⟨hu, huu⟩ := List.forall_mem_append.mp hu
    obtain ⟨hui, hut⟩ := List.forall_mem_append.mp hu
    obtain ⟨h, hs⟩ := Report.clean_append.mp h
    obtain ⟨h, hu'⟩ := Report.clean_append.mp h
    obtain ⟨hi, ht⟩ := Report.clean_append.mp h
    exact .append (.append (.append (Expr.all_checked_opt hc hui hi)
      (t.all_checked hc hut (Report.clean_append.mp ht).1)) (Expr.all_checked_opt hc huu hu'))
      (s.all_checked (c := c.inBreakable) hc.inBreakable ho hus hs)
  | .switch _ e cs, c, hc, ho, hu, h => by
    obtain ⟨hue, hus⟩ := List.forall_mem_append.mp hu
    obtain ⟨he, hs⟩ := Report.clean_append.mp h
    exact .append (e.all_checked hc hue he) (Case.all_checked_all cs
      (c := c.inBreakable) hc.inBreakable ho hus hs)
  | .break _, _, _, _, _, _ => .nil
  | .ret _ none, _, _, _, _, _ => .nil
  | .ret _ (some e), _, hc, _, hu, h => e.all_checked hc hu (Report.clean_append.mp h).1
  | .print _ es, _, hc, _, hu, h => Expr.all_checked_print hc es 1 hu h
  | .expr e, _, hc, _, hu, h => e.all_checked hc hu h

/-- The expressions of a block were checked in its scope. -/
theorem Block.all_checked : ∀ (b : Block) {c : Context}, c.Stands r f → c.forest.HasAll b.openings →
    (∀ x ∈ b.uses c.forest, x.Known c.notes a) → (b.check c).Clean a →
      Part.All (Expr.Checked r f a) b.parts
  | ⟨n, ls, ss⟩, c, hc, ho, hu, h => by
    obtain ⟨⟨k, hk⟩, ho⟩ := Forest.hasAll_cons.mp ho
    exact .append (.append (.vars ls) (Stmt.all_checked_all ss (c := c.inBlock n) (hc.inBlock hk)
      (ho.enter hk) (fun x hx => hu x (List.mem_append_right _ hx)) h)) (.cons nofun .nil)

/-- The same for statements in a row. -/
theorem Stmt.all_checked_all : ∀ (ss : List Stmt) {c : Context}, c.Stands r f →
    c.forest.HasAll (Stmt.openingsAll ss) →
      (∀ x ∈ Stmt.usesAll ss c.forest, x.Known c.notes a) → (Stmt.checkAll ss c).Clean a →
        Part.All (Expr.Checked r f a) (Stmt.partsAll ss)
  | [], _, _, _, _, _ => .nil
  | s :: ss, _, hc, ho, hu, h => by
    obtain ⟨hos, hor⟩ := Forest.hasAll_append.mp ho
    obtain ⟨hus, hur⟩ := List.forall_mem_append.mp hu
    obtain ⟨hs, hr⟩ := Report.clean_append.mp h
    exact .append (s.all_checked hc hos hus hs) (Stmt.all_checked_all ss hc hor hur hr)

/-- The same for the arms of a switch. -/
theorem Case.all_checked_all : ∀ (cs : List Case) {c : Context}, c.Stands r f →
    c.forest.HasAll (Case.openingsAll cs) → (∀ x ∈ Case.usesAll cs c.forest, x.Known c.notes a) →
      (Case.checkAll cs c).Clean a → Part.All (Expr.Checked r f a) (Case.partsAll cs)
  | [], _, _, _, _, _ => .nil
  | ⟨_, ss⟩ :: cs, _, hc, ho, hu, h => by
    obtain ⟨hos, hor⟩ := Forest.hasAll_append.mp ho
    obtain ⟨hus, hur⟩ := List.forall_mem_append.mp hu
    obtain ⟨hs, hr⟩ := Report.clean_append.mp h
    exact .append (Stmt.all_checked_all ss hc hos hus hs) (Case.all_checked_all cs hc hor hur hr)

end

end

/-! ## 5. Programs -/

namespace Program

variable {p : Program} {cls : Option ClassDecl} {g : FnDecl}

/-- The rules that hold in a class of a program, or outside all classes. -/
def rules (p : Program) (cls : Option ClassDecl) : Rules where
  notes := p.analyze.resolved.notes
  hierarchy := p.analyze.hierarchy
  member? := p.scopes.member?
  cls? := cls.map ClassDecl.name

/-- Where the body of a function is checked. -/
def context (p : Program) (cls : Option ClassDecl) (g : FnDecl) : Context where
  forest := (p.around cls).enterFn g
  notes := p.analyze.resolved.notes
  hierarchy := p.analyze.hierarchy
  result := p.analyze.resolved.notes.denote g.result
  breakable := false

/-- **Every body of a function is well typed.** -/
def WellTyped (p : Program) : Prop :=
  ∀ cls g, (cls, g) ∈ p.functions → ∀ b, g.body = some b →
    b.WellTyped (p.rules cls) g.result.ty false

namespace Numbered

/-- No class is around the declarations at the top level. -/
theorem enclosing_top (h : p.Numbered) : p.scopes.enclosingClass? = none := by
  have ho : (p.scopes.scope Forest.globalId).owner = none :=
    (congrArg Scope.owner h.opened_kept.global :)
  have hc : p.scopes.classOf? Forest.globalId = none := by
    unfold Forest.classOf?
    rw [ho]
  unfold Forest.enclosingClass? Forest.active
  rw [h.inner_eq]
  show List.findSome? p.scopes.classOf? [Forest.globalId] = none
  rw [List.findSome?_cons, hc]
  rfl

/-- Around the members of a class is the class that its name stands for at the top level. -/
theorem enclosing_class (h : p.Numbered) {c : ClassDecl} (hc : Decl.cls c ∈ p.decls) :
    (p.scopes.enterClass c).enclosingClass? =
      (p.decls.find? (·.name == c.name)).bind Decl.cls? := by
  have hk : p.scopes.Has (TypeDecl.cls c).opening.kept (p.scopes.slotOf c.node.id) :=
    h.has_type (t := .cls c) (mem_types.mpr hc)
  -- the scope of the class tells which class it belongs to
  have hown : p.scopes.classOf? (p.scopes.slotOf c.node.id) =
      (p.decls.find? (·.name == c.name)).bind Decl.cls? := by
    have ho : (p.scopes.scope (p.scopes.slotOf c.node.id)).owner = some c.owner := hk.owner_eq
    unfold Forest.classOf?
    rw [ho, ← h.global_get?]
    rfl
  have htop : List.findSome? p.scopes.classOf? [Forest.globalId] = none := by
    have := h.enclosing_top
    unfold Forest.enclosingClass? Forest.active at this
    rwa [h.inner_eq] at this
  rw [h.enterClass_eq hc]
  show List.findSome? p.scopes.classOf? [p.scopes.slotOf c.node.id, Forest.globalId] = _
  rw [findSome?_cons_or, htop, hown, Option.or_none]

end Numbered

namespace Named

/-- Inside a class of a program, that class is the one around. -/
theorem enclosing_around (h : p.Named) (hg : (cls, g) ∈ p.functions) :
    (p.around cls).enclosingClass?.map ClassDecl.name = cls.map ClassDecl.name := by
  rcases Program.mem_functions.mp hg with ⟨rfl, -⟩ | ⟨c, rfl, hc, -⟩
  · exact congrArg _ h.numbered.enclosing_top
  · have hd : p.decls.find? (·.name == c.name) = some (.cls c) := find?_key h.nodup_names hc
    show (p.scopes.enterClass c).enclosingClass?.map _ = _
    rw [h.numbered.enclosing_class hc, hd]
    rfl

/-- A function of a program is among the declarations of some scope. -/
theorem declared (h : p.Named) (hg : (cls, g) ∈ p.functions) :
    ∃ k, Decl.fn g ∈ (p.scopes.scope k).decls := by
  rcases mem_functions.mp hg with ⟨rfl, hd⟩ | ⟨c, rfl, hc, hm⟩
  · exact ⟨Forest.globalId, h.global_decls ▸ hd⟩
  · obtain ⟨k, hk, -⟩ := c.enter_eq (openings_of_mem h.hasAll hc)
    exact ⟨k, hk.decls_eq ▸ ClassDecl.mem_methods.mp hm⟩

/-- **Around the body of a function the checker follows the rules of its class.** -/
theorem follows (h : p.Named) (hf : p.Flat) (hg : (cls, g) ∈ p.functions) :
    (p.context cls g).Follows (p.rules cls) ∧ (p.context cls g).result = g.result.ty := by
  obtain ⟨o, ho, ef⟩ := h.scope_of_fn hg
  obtain ⟨ks, e, -⟩ := h.around_eq hg
  have ef : (p.context cls g).forest = p.scopes.withOpen (o :: ks) := by
    show (p.around cls).enterFn g = _
    rw [ef, e]
    rfl
  obtain ⟨k, hk⟩ := h.declared hg
  have hw := (h.written hf).1
  refine ⟨⟨rfl, rfl, fun owner name => ?_, ?_, ?_⟩, (hw k _ hk).1⟩
  · rw [ef]
    rfl
  -- a function hides no class, so the class around is the one that was entered
  · have hn : ∀ w ∈ some g.owner, w.kind ≠ .cls := fun w hw => by
      cases hw
      exact nofun
    have hc := h.enclosing_around hg
    rw [e] at hc ho
    rw [ef, Forest.Has.enclosingClass?_eq (f := p.scopes) ho hn]
    exact hc
  · rw [ef]
    exact hw

/-- Inside a function the functions in sight are those around it. -/
theorem stands_body (h : p.Named) (hf : p.Flat) (hg : (cls, g) ∈ p.functions) :
    (p.context cls g).Stands (p.rules cls) (p.around cls) := by
  obtain ⟨o, ho, ef⟩ := h.scope_of_fn hg
  have ef : (p.context cls g).forest = (p.around cls).withOpen (o :: (p.around cls).inner) := ef
  refine ⟨(h.follows hf hg).1, fun name f hl => ho.lookup?_fn ?_⟩
  rwa [ef] at hl

/-- Inside a function all scopes of its body are there, and all names of its body are bound. -/
theorem body_known (h : p.Named) (hg : (cls, g) ∈ p.functions) {b : Block} (hb : g.body = some b) :
    (p.context cls g).forest.HasAll b.openings ∧
      ∀ x ∈ b.uses (p.context cls g).forest, x.Known (p.context cls g).notes p.analyze.notes := by
  constructor
  · intro o ho
    refine (h.inside hg (c := p.context cls g) rfl).hasAll o (List.mem_cons_of_mem _ ?_)
    rw [hb]
    exact ho
  · intro x hx
    refine h.settled x (uses_subset hg (List.mem_append_right _ ?_))
    rw [hb]
    exact hx

/-- The check of a function is that of its body in the context of the function. -/
theorem check_body_eq {b : Block} (hb : g.body = some b) :
    g.check p.analyze.hierarchy p.analyze.resolved.notes (p.around cls) =
      b.check (p.context cls g) := by
  unfold FnDecl.check
  rw [hb]
  rfl

/-- The checks of a function have nothing to say exactly if its body is well typed. -/
theorem check_iff (h : p.Named) (hf : p.Flat) (hg : (cls, g) ∈ p.functions) :
    (g.check p.analyze.hierarchy p.analyze.resolved.notes (p.around cls)).diagnostics = [] ↔
      ∀ b, g.body = some b → b.WellTyped (p.rules cls) g.result.ty false := by
  obtain ⟨hc, hr⟩ := h.follows hf hg
  cases hb : g.body with
  | none =>
    have e : g.check p.analyze.hierarchy p.analyze.resolved.notes (p.around cls) = .empty := by
      unfold FnDecl.check
      rw [hb]
      rfl
    rw [e]
    exact ⟨fun _ => nofun, fun _ => rfl⟩
  | some b =>
    obtain ⟨ho, hu⟩ := h.body_known hg hb
    rw [check_body_eq hb, b.check_iff hc ho fun x hx => (hu x hx).1, hr]
    exact ⟨fun hw b' e => by cases e; exact hw, fun hw => hw b rfl⟩

/-- Functions in a row pass if each of them does. -/
theorem check_fns_iff {a : Notes} {f : Forest} {t : Hierarchy} {gs : List FnDecl} :
    (FnDecl.checkAll gs t a f).diagnostics = [] ↔ ∀ g ∈ gs, (g.check t a f).diagnostics = [] := by
  induction gs with
  | nil => exact ⟨fun _ => nofun, fun _ => rfl⟩
  | cons g gs ih =>
    rw [List.forall_mem_cons, ← ih]
    exact Report.diagnostics_append _ _

/-- Declarations in a row pass if each of them does. -/
theorem check_decls_iff {a : Notes} {f : Forest} {t : Hierarchy} {ds : List Decl} :
    (Decl.checkAll t a f ds).diagnostics = [] ↔ ∀ d ∈ ds, (d.check t a f).diagnostics = [] := by
  induction ds with
  | nil => exact ⟨fun _ => nofun, fun _ => rfl⟩
  | cons d ds ih =>
    rw [List.forall_mem_cons, ← ih]
    exact Report.diagnostics_append _ _

/-- The checks of types are those of the functions. -/
theorem diagnostics_iff (h : p.Named) : p.analyze.typed.diagnostics = [] ↔
    ∀ cls g, (cls, g) ∈ p.functions →
      (g.check p.analyze.hierarchy p.analyze.resolved.notes (p.around cls)).diagnostics = [] := by
  unfold TypeChecked.diagnostics
  rw [h.numbered.report_eq, check_decls_iff]
  constructor
  · intro hk cls g hg
    -- a function stands alone or in a class
    rcases mem_functions.mp hg with ⟨rfl, hd⟩ | ⟨c, rfl, hc, hm⟩
    · exact hk _ hd
    · exact check_fns_iff.mp (hk _ hc) g hm
  · intro hk d hd
    cases d with
    | var _ => rfl
    | iface _ => rfl
    | fn g => exact hk none g (mem_functions.mpr (.inl ⟨rfl, hd⟩))
    | cls c =>
      exact check_fns_iff.mpr fun g hm =>
        hk (some c) g (mem_functions.mpr (.inr ⟨c, rfl, hd, hm⟩))

/-- **If the checker has nothing to say, every expression was checked without a report.** -/
theorem all_checked (h : p.Named) (hf : p.Flat) (hk : p.analyze.typed.diagnostics = [])
    (hg : (cls, g) ∈ p.functions) {b : Block} (hb : g.body = some b) :
    Part.All (Expr.Checked (p.rules cls) (p.around cls) p.analyze.notes) b.parts := by
  obtain ⟨ho, hu⟩ := h.body_known hg hb
  have hk := h.check_clean hg ⟨hk, h.numbered.kept⟩
  rw [check_body_eq hb] at hk
  exact b.all_checked (h.stands_body hf hg) ho hu hk

/-- **The checker decides the typing rules:** in a program whose names are in order, it has nothing
to say exactly if every body is well typed, and then the notes have the types of all expressions. -/
theorem typed_iff (h : p.Named) (hf : p.Flat) :
    (p.analyze.typed.diagnostics = [] ↔ p.WellTyped) ∧
      (p.analyze.typed.diagnostics = [] → ∀ cls g, (cls, g) ∈ p.functions →
        ∀ b, g.body = some b → Part.AllNoted (p.rules cls) p.analyze.notes b.parts) := by
  refine ⟨h.diagnostics_iff.trans ?_, fun hk cls g hg b hb e he => ?_⟩
  · exact forall_congr' fun cls => forall_congr' fun g => forall_congr' fun hg => h.check_iff hf hg
  · exact (h.all_checked hf hk hg hb e he).noted

end Named

end Program

/-- A class that counts, and a use of it. -/
def tally : Program := .number [
  .cls ⟨.nowhere, .called "Tally", none, [], [.var (.int "n"),
    .fn ⟨.nowhere, .called "next", .prim 0 .int, [], some ⟨.nowhere, [],
      [.ret .nowhere (some (.step .nowhere .increment (.use "n")))]⟩⟩]⟩,
  .fn ⟨.nowhere, .called "main", .prim 0 .void, [], some ⟨.nowhere,
    [.called "t" (.named 0 (.called "Tally"))],
    [.set (.use "t") (.new .nowhere (.called "Tally")),
      .print .nowhere [.send .nowhere (.use "t") (.called "next") []]]⟩⟩]

theorem tally_named : tally.Named := ⟨Program.number_numbered _, rfl, rfl⟩

theorem tally_flat : tally.Flat := of_decide_eq_true rfl

/-- The checker has nothing to say about the tally, so that it is well typed. -/
theorem typed_iff_tally : tally.WellTyped ∧ ∀ cls g, (cls, g) ∈ tally.functions →
    ∀ b, g.body = some b → Part.AllNoted (tally.rules cls) tally.analyze.notes b.parts := by
  obtain ⟨hw, hn⟩ := tally_named.typed_iff tally_flat
  have hk : tally.analyze.typed.diagnostics.isEmpty = true := by decide +kernel
  exact ⟨hw.mp (List.isEmpty_iff.mp hk), hn (List.isEmpty_iff.mp hk)⟩

end DecafLang
