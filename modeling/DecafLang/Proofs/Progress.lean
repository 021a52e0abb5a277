import DecafLang.Proofs.CheckedExpressions
import DecafLang.Proofs.Layouts
import DecafLang.Proofs.Inherited

/-!
# Clean programs meet no defect

**The back end finds no defect in a program that was checked without a report**
(`Program.Clean.lowers_or_refuses`): there is code, or no `main` to start with, or a construct that
has no code, which is a floating point number or a call through an interface.

* The classes must not lie on a cycle, and must hold no classes or interfaces.
* What is assigned to must be a target, and no `void` may be used as a value. Otherwise the back end
  finds the defects that come of it, and no others (`Program.Clean.lower_within`).
-/

namespace DecafLang

open Code (Emit Location Builtin Label)
open Code.Emit Lowering

/-! ## 1. Parts of statements -/

section

variable {c : Context} {r : Rules} {s s' : Surroundings} {f : Forest} {br : Bool}
  {A : Defect → Prop}

namespace Surroundings.Serves

/-- Inside a loop the surroundings serve as well, and a break has somewhere to go. -/
theorem leavingTo (h : s.Serves f br) (l : Label) : (s.leavingTo l).Serves f true where
  written := h.written
  vars := h.vars
  fns := h.fns
  classes := h.classes
  fields := h.fields
  methods := h.methods
  this := h.this
  breaks _ := rfl

/-- Opening a scope whose variables have got slots. -/
theorem enter (h : s.Serves f br) {n : NodeId} {w : Option Owner} {ls : List VarDecl} {k : ScopeId}
    {offset : Nat → Int} {j : Nat} (hk : f.Has ⟨n, .holding w (ls.map .var)⟩ k)
    (hw : ∀ o ∈ w, o.kind ≠ .cls) (hg : s.Gains s' ls offset j) :
    s'.Serves (f.withOpen (k :: f.inner)) br := by
  -- what is found inside is a variable of the new scope, or was found before
  have found : ∀ {name d}, (f.withOpen (k :: f.inner)).lookup? name = some d →
      (∃ v ∈ ls, d = .var v) ∨ f.lookup? name = some d := by
    intro name d hd
    rw [hk.lookup?_eq] at hd
    rcases Option.or_eq_some_iff.mp hd with hd | ⟨-, hd⟩
    · obtain ⟨v, hv, rfl⟩ := List.mem_map.mp (List.mem_of_find?_eq_some hd)
      exact .inl ⟨v, hv, rfl⟩
    · exact .inr hd
  refine ⟨hg.notes_eq ▸ h.written, fun name v hv => ?_, fun name g hv => ?_, fun name d hv => ?_,
    hg.layout_eq ▸ h.fields, hg.layout_eq ▸ h.methods, fun ht => ?_, hg.breakTo_eq ▸ h.breaks⟩
  · rw [hg.layout_eq, hg.this_eq]
    rcases found hv with ⟨u, hu, e⟩ | hv
    · cases e
      -- a variable of the scope has its slot now
      exact .inl (hg.slots _ (.inr (List.mem_map_of_mem hu)))
    · exact (h.vars name v hv).imp_left fun hs => hg.slots _ (.inl hs)
  · rw [hg.layout_eq, hg.this_eq]
    rcases found hv with ⟨_, _, e⟩ | hv
    · cases e
    · exact h.fns name g hv
  · rw [hg.layout_eq]
    rcases found hv with ⟨_, _, e⟩ | hv
    · cases e
    · exact h.classes name d hv
  · rw [hk.enclosingClass?_eq hw] at ht
    rw [hg.this_eq]
    exact h.this ht

end Surroundings.Serves

/-- **The code of a value that is needed is written without a defect.** -/
theorem Expr.value_runs (hc : c.Follows r) (hs : s.Serves c.forest br) {e : Expr}
    (hu : ∀ x ∈ e.uses c.forest, x.Known c.notes s.notes) (h : (e.check c).report.Clean s.notes)
    (hv : Lenient A ∨ e.Used s.notes) : (e.value s).Runs A :=
  Expr.used_runs (e.eval_sound hc hs hu h) hv

/-- So is that of an expression that may be missing. -/
theorem Expr.eval_opt_runs (hc : c.Follows r) (hs : s.Serves c.forest br) {e : Option Expr}
    (hu : ∀ x ∈ Expr.usesOpt c.forest e, x.Known c.notes s.notes)
    (h : (Expr.checkOpt c e).Clean s.notes) (hv : Lenient A ∨ ∀ x ∈ e, x.Valued s.notes) :
    (evalOpt s e).Runs A := by
  cases e with
  | none => exact runs_done _
  | some e =>
    exact (e.eval_sound hc hs hu h (hv.imp_right (· e rfl))).runs.bind fun _ => runs_done _

/-- So is that of a return. -/
theorem Expr.give_back_runs (hc : c.Follows r) (hs : s.Serves c.forest br) {sp : Span}
    {e : Option Expr} (hu : ∀ x ∈ Expr.usesOpt c.forest e, x.Known c.notes s.notes)
    (h : (Expr.checkReturn c sp e).Clean s.notes) (hv : Lenient A ∨ ∀ x ∈ e, x.Used s.notes) :
    (giveBack s e).Runs A := by
  cases e with
  | none => exact instr_runs _
  | some e =>
    exact (Expr.value_runs hc hs hu (Report.clean_append.mp h).1
      (hv.imp_right (· e rfl))).bind
      fun _ => instr_runs _

/-- What can be printed has a function that prints it. -/
theorem printer_sound {sp : Span} {t : Ty} (ht : t = .int ∨ t = .bool ∨ t = .string) :
    (printer sp t).Sound A fun b => b.argCount = 1 := by
  rcases ht with rfl | rfl | rfl
  · exact .done rfl
  · exact .done rfl
  · exact .done rfl

/-- So is that of what is printed. -/
theorem Expr.print_runs (hc : c.Follows r) (hs : s.Serves c.forest br) :
    ∀ (es : List Expr) (k : Nat), (∀ x ∈ Expr.usesAll c.forest es, x.Known c.notes s.notes) →
      (Expr.checkPrint c k es).Clean s.notes → Lenient A ∨ Expr.ValuedAll s.notes es →
        (print s es).Runs A
  | [], _, _, _, _ => runs_done _
  | e :: es, k, hu, h, hv => by
    obtain ⟨hue, hus⟩ := List.forall_mem_append.mp hu
    obtain ⟨h, hr⟩ := Report.clean_append.mp h
    obtain ⟨he, hf⟩ := Report.clean_append.mp h
    obtain ⟨hp, et⟩ := Expr.checked_part hc hue he
    have hf := Report.clean_ofFaults.mp hf
    have ht : Context.printable (e.check c).type = true := by
      unfold Context.printFaults at hf
      split at hf
      · rename_i ht
        exact ht
      · cases hf
    have et : s.typeAt e.node = (e.check c).type := et
    rw [Context.printable_iff hp, ← et] at ht
    unfold print
    refine (printer_sound ht).bind fun b hb => (Expr.value_runs hc hs hue he
      (hv.imp_right (·.1))).bind fun x => ?_
    have hb : [x].length = b.argCount := hb.symm
    exact (builtin_sound hb).runs.bind fun _ => Expr.print_runs hc hs es (k + 1) hus hr
      (hv.imp_right (·.2))

/-- The tests of a switch are plain instructions. -/
theorem dispatch_runs (v : Location) (arms : List (Option Int32 × Label)) :
    (dispatch v arms).Runs A := by
  induction arms with
  | nil => exact runs_done _
  | cons a arms ih =>
    obtain ⟨_ | n, l⟩ := a
    · exact ih
    · refine (constant_runs _).bind fun _ => ?_
      refine (op_runs _ _ _).bind fun _ => ?_
      refine (instr_runs _).bind fun _ => ?_
      exact ih

/-- Room for local variables is always there. -/
theorem withLocals_sound (s : Surroundings) (ls : List VarDecl) :
    (withLocals s ls).Sound A fun s' => ∃ k, s.Gains s' ls Code.Supply.localOffset k :=
  ⟨fun t => by
    obtain ⟨s', e, h⟩ := withLocals_run ls s t
    rw [e]
    exact ⟨_, h⟩⟩

/-- So is room for parameters. -/
theorem withFormals_sound (s : Surroundings) (vs : List VarDecl) :
    (withFormals s vs).Sound A fun s' => ∃ k, s.Gains s' vs Code.Supply.paramOffset k :=
  ⟨fun t => by
    obtain ⟨s', e, h⟩ := withFormals_run vs s t
    rw [e]
    exact ⟨_, h⟩⟩

/-! ## 2. Statements -/

mutual

/-- The values that a statement uses are there, and its targets are targets. -/
def Stmt.Valued (a : Notes) : Stmt → Prop
  | .block b => b.Valued a
  | .ifThen _ t s => t.Used a ∧ s.Valued a
  | .ifElse _ t s o => t.Used a ∧ s.Valued a ∧ o.Valued a
  | .while _ t s => t.Used a ∧ s.Valued a
  | .for _ i t u s => (∀ e ∈ i, e.Valued a) ∧ t.Used a ∧ (∀ e ∈ u, e.Valued a) ∧ s.Valued a
  | .switch _ e cs => e.Used a ∧ Case.ValuedAll a cs
  | .break _ => True
  | .ret _ e => ∀ x ∈ e, x.Used a
  | .print _ es => Expr.ValuedAll a es
  | .expr e => e.Valued a

/-- A block of such statements. -/
def Block.Valued (a : Notes) : Block → Prop
  | ⟨_, _, ss⟩ => Stmt.ValuedAll a ss

/-- An arm of such statements. -/
def Case.Valued (a : Notes) : Case → Prop
  | ⟨_, ss⟩ => Stmt.ValuedAll a ss

/-- Several such statements. -/
def Stmt.ValuedAll (a : Notes) : List Stmt → Prop
  | [] => True
  | s :: ss => s.Valued a ∧ Stmt.ValuedAll a ss

/-- Several such arms. -/
def Case.ValuedAll (a : Notes) : List Case → Prop
  | [] => True
  | c :: cs => c.Valued a ∧ Case.ValuedAll a cs

end

mutual

/-- **The code of a checked statement is written without a defect.** -/
theorem Stmt.lower_runs : ∀ (t : Stmt) {c : Context} {s : Surroundings}, c.Follows r →
    s.Serves c.forest c.breakable → c.forest.HasAll t.openings →
      (∀ x ∈ t.uses c.forest, x.Known c.notes s.notes) → (t.check c).Clean s.notes →
        Lenient A ∨ t.Valued s.notes → (t.lower s).Runs A
  | .block b, _, _, hc, hs, ho, hu, h, hv => by
    unfold Stmt.lower
    exact b.lower_runs hc hs ho hu h hv
  | .ifThen _ t b, _, _, hc, hs, ho, hu, h, hv => by
    obtain ⟨hut, hub⟩ := List.forall_mem_append.mp hu
    obtain ⟨ht, hb⟩ := Report.clean_append.mp h
    -- the test has a value, since the checker asks for a truth value
    have ht := Expr.value_runs hc hs hut (Report.clean_append.mp ht).1 (hv.imp_right (·.1))
    have hb := b.lower_runs hc hs ho hub hb (hv.imp_right (·.2))
    unfold Stmt.lower
    refine ht.bind fun _ => ?_
    refine newLabel_runs.bind fun _ => ?_
    refine (instr_runs _).bind fun _ => ?_
    refine hb.bind fun _ => ?_
    exact instr_runs _
  | .ifElse _ t b o, _, _, hc, hs, ho, hu, h, hv => by
    obtain ⟨hu, huo⟩ := List.forall_mem_append.mp hu
    obtain ⟨hut, hub⟩ := List.forall_mem_append.mp hu
    obtain ⟨h, hco⟩ := Report.clean_append.mp h
    obtain ⟨ht, hb⟩ := Report.clean_append.mp h
    obtain ⟨hob, hoo⟩ := Forest.hasAll_append.mp ho
    have ht := Expr.value_runs hc hs hut (Report.clean_append.mp ht).1 (hv.imp_right (·.1))
    have hb := b.lower_runs hc hs hob hub hb (hv.imp_right (·.2.1))
    have ho := o.lower_runs hc hs hoo huo hco (hv.imp_right (·.2.2))
    unfold Stmt.lower
    refine ht.bind fun _ => ?_
    refine newLabel_runs.bind fun _ => ?_
    refine (instr_runs _).bind fun _ => ?_
    refine hb.bind fun _ => ?_
    refine newLabel_runs.bind fun _ => ?_
    refine (instr_runs _).bind fun _ => ?_
    refine (instr_runs _).bind fun _ => ?_
    refine ho.bind fun _ => ?_
    exact instr_runs _
  | .while _ t b, c, s, hc, hs, ho, hu, h, hv => by
    obtain ⟨hut, hub⟩ := List.forall_mem_append.mp hu
    obtain ⟨ht, hb⟩ := Report.clean_append.mp h
    have ht := Expr.value_runs hc hs hut (Report.clean_append.mp ht).1 (hv.imp_right (·.1))
    have hb := fun l => b.lower_runs (c := c.inBreakable) hc.inBreakable (hs.leavingTo l) ho hub hb
      (hv.imp_right (·.2))
    unfold Stmt.lower
    refine newLabel_runs.bind fun _ => ?_
    refine newLabel_runs.bind fun _ => ?_
    refine (instr_runs _).bind fun _ => ?_
    refine ht.bind fun _ => ?_
    refine (instr_runs _).bind fun _ => ?_
    refine (hb _).bind fun _ => ?_
    refine (instr_runs _).bind fun _ => ?_
    exact instr_runs _
  | .for _ i t u b, c, s, hc, hs, ho, hu, h, hv => by
    obtain ⟨hu, hub⟩ := List.forall_mem_append.mp hu
    obtain ⟨hu, huu⟩ := List.forall_mem_append.mp hu
    obtain ⟨hui, hut⟩ := List.forall_mem_append.mp hu
    obtain ⟨h, hb⟩ := Report.clean_append.mp h
    obtain ⟨h, hu'⟩ := Report.clean_append.mp h
    obtain ⟨hi, ht⟩ := Report.clean_append.mp h
    have hi := Expr.eval_opt_runs hc hs hui hi (hv.imp_right (·.1))
    have ht := Expr.value_runs hc hs hut (Report.clean_append.mp ht).1 (hv.imp_right (·.2.1))
    have hu := Expr.eval_opt_runs hc hs huu hu' (hv.imp_right (·.2.2.1))
    have hb := fun l => b.lower_runs (c := c.inBreakable) hc.inBreakable (hs.leavingTo l) ho hub hb
      (hv.imp_right (·.2.2.2))
    unfold Stmt.lower
    refine hi.bind fun _ => ?_
    refine newLabel_runs.bind fun _ => ?_
    refine newLabel_runs.bind fun _ => ?_
    refine (instr_runs _).bind fun _ => ?_
    refine ht.bind fun _ => ?_
    refine (instr_runs _).bind fun _ => ?_
    refine (hb _).bind fun _ => ?_
    refine hu.bind fun _ => ?_
    refine (instr_runs _).bind fun _ => ?_
    exact instr_runs _
  | .switch _ e cs, c, s, hc, hs, ho, hu, h, hv => by
    obtain ⟨hue, huc⟩ := List.forall_mem_append.mp hu
    obtain ⟨he, hcs⟩ := Report.clean_append.mp h
    have he := Expr.value_runs hc hs hue he (hv.imp_right (·.1))
    have hb := fun ls l => Case.lower_all_runs cs ls (c := c.inBreakable) hc.inBreakable
      (hs.leavingTo l) ho huc hcs (hv.imp_right (·.2))
    unfold Stmt.lower
    refine he.bind fun _ => ?_
    refine newLabel_runs.bind fun _ => ?_
    refine (newLabels_runs _).bind fun _ => ?_
    refine (dispatch_runs _ _).bind fun _ => ?_
    refine (instr_runs _).bind fun _ => ?_
    refine (hb _ _).bind fun _ => ?_
    exact instr_runs _
  | .break sp, _, _, _, hs, _, _, h, _ => by
    have hb := Context.break_faults.mp (Report.clean_ofFaults.mp h)
    unfold Stmt.lower
    exact (required_sound (hs.breaks hb)).runs.bind fun _ => instr_runs _
  | .ret _ e, _, _, hc, hs, _, hu, h, hv => by
    unfold Stmt.lower
    exact Expr.give_back_runs hc hs hu h hv
  | .print _ es, _, _, hc, hs, _, hu, h, hv => by
    unfold Stmt.lower
    exact Expr.print_runs hc hs es 1 hu h hv
  | .expr e, _, _, hc, hs, _, hu, h, hv => by
    unfold Stmt.lower
    exact (e.eval_sound hc hs hu h hv).runs.bind fun _ => runs_done _

/-- **The code of a block is written without a defect,** with its variables in the frame. -/
theorem Block.lower_runs : ∀ (b : Block) {c : Context} {s : Surroundings}, c.Follows r →
    s.Serves c.forest c.breakable → c.forest.HasAll b.openings →
      (∀ x ∈ b.uses c.forest, x.Known c.notes s.notes) → (b.check c).Clean s.notes →
        Lenient A ∨ b.Valued s.notes → (b.lower s).Runs A
  | ⟨n, ls, ss⟩, c, s, hc, hs, ho, hu, h, hv => by
    obtain ⟨⟨k, hk⟩, ho⟩ := Forest.hasAll_cons.mp ho
    have e : (c.inBlock n).forest = c.forest.withOpen (k :: c.forest.inner) := hk.enter
    unfold Block.lower
    refine (withLocals_sound s ls).bind fun s' ⟨j, hg⟩ => ?_
    have hs' := hs.enter hk nofun hg
    rw [← hg.notes_eq] at hu h hv
    exact Stmt.lower_all_runs ss (c := c.inBlock n) (hc.inBlock hk) (e ▸ hs') (ho.enter hk)
      (fun x hx => hu x (List.mem_append_right _ hx)) h hv

/-- The same for statements in a row. -/
theorem Stmt.lower_all_runs : ∀ (ss : List Stmt) {c : Context} {s : Surroundings}, c.Follows r →
    s.Serves c.forest c.breakable → c.forest.HasAll (Stmt.openingsAll ss) →
      (∀ x ∈ Stmt.usesAll ss c.forest, x.Known c.notes s.notes) →
        (Stmt.checkAll ss c).Clean s.notes → Lenient A ∨ Stmt.ValuedAll s.notes ss →
          (Stmt.lowerAll ss s).Runs A
  | [], _, _, _, _, _, _, _, _ => by
    unfold Stmt.lowerAll
    exact runs_done _
  | t :: ss, _, _, hc, hs, ho, hu, h, hv => by
    obtain ⟨hot, hor⟩ := Forest.hasAll_append.mp ho
    obtain ⟨hut, hur⟩ := List.forall_mem_append.mp hu
    obtain ⟨ht, hr⟩ := Report.clean_append.mp h
    unfold Stmt.lowerAll
    exact (t.lower_runs hc hs hot hut ht (hv.imp_right (·.1))).bind fun _ =>
      Stmt.lower_all_runs ss hc hs hor hur hr (hv.imp_right (·.2))

/-- The same for the arms of a switch. -/
theorem Case.lower_all_runs : ∀ (cs : List Case) (ls : List Label) {c : Context}
    {s : Surroundings}, c.Follows r → s.Serves c.forest c.breakable →
      c.forest.HasAll (Case.openingsAll cs) →
        (∀ x ∈ Case.usesAll cs c.forest, x.Known c.notes s.notes) →
          (Case.checkAll cs c).Clean s.notes → Lenient A ∨ Case.ValuedAll s.notes cs →
            (Case.lowerAll cs ls s).Runs A
  | [], _, _, _, _, _, _, _, _, _ => by
    unfold Case.lowerAll
    exact runs_done _
  | _ :: _, [], _, _, _, _, _, _, _, _ => by
    unfold Case.lowerAll
    exact runs_done _
  | ⟨_, ss⟩ :: cs, _ :: ls, _, _, hc, hs, ho, hu, h, hv => by
    obtain ⟨hot, hor⟩ := Forest.hasAll_append.mp ho
    obtain ⟨hut, hur⟩ := List.forall_mem_append.mp hu
    obtain ⟨ht, hr⟩ := Report.clean_append.mp h
    unfold Case.lowerAll Case.lower
    exact (instr_runs _).bind fun _ => (Stmt.lower_all_runs ss hc hs hot hut ht
      (hv.imp_right (·.1))).bind fun _ => Case.lower_all_runs cs ls hc hs hor hur hr
        (hv.imp_right (·.2))

end

end

/-! ## 3. Programs -/

namespace Program

variable {p : Program} {l : Layout} {cs : List ClassDecl} {cls : Option ClassDecl} {g : FnDecl}
  {s : Surroundings} {A : Defect → Prop}

/-- The values that the bodies of a program use are there, and their targets are targets. -/
def Valued (p : Program) : Prop :=
  ∀ cls g, (cls, g) ∈ p.functions → ∀ b, g.body = some b → b.Valued p.analyze.notes

namespace Named

/-- **The layout of a program serves around its functions,** if the globals have slots and a method
has its object. -/
theorem serves (h : p.Named) (hf : p.Flat) (hl : l.Holds cs)
    (hcs : ∀ c, c ∈ cs ↔ ∃ n, p.analyze.hierarchy.class? n = some c) (hg : (cls, g) ∈ p.functions)
    (ha : s.notes = p.analyze.notes) (hlay : s.layout = l)
    (hv : ∀ v, Decl.var v ∈ p.decls → (s.slot? v.id).isSome = true)
    (ht : cls.isSome = true → s.this.isSome = true) : s.Serves (p.around cls) false := by
  -- the classes that are laid out are those of the program
  have mem : ∀ {c}, c ∈ cs ↔ Decl.cls c ∈ p.decls := fun {c} => (hcs c).trans h.class_iff
  have member : ∀ owner name, (p.around cls).member? owner name = p.scopes.member? owner name := by
    obtain ⟨ks, e, -⟩ := h.around_eq hg
    rw [e]
    exact fun _ _ => rfl
  subst hlay
  refine ⟨?_, fun name v hd => ?_, fun name g' hd hs => ?_, fun name c hd => ?_,
    fun owner name v hd => ?_, fun owner name g' ho hd => ?_, fun he => ?_, nofun⟩
  · obtain ⟨ks, e, -⟩ := h.around_eq hg
    rw [e, ha]
    exact (h.written hf).2
  · rcases h.of_lookup hf hg hd with ⟨hd, -⟩ | ⟨hm, c, hc, hd⟩
    · exact .inl (hv v hd)
    · exact .inr ⟨hl.fields c (mem.mpr hc) v (ClassDecl.mem_fields.mpr hd), ht hm⟩
  · rcases h.of_lookup hf hg hd with ⟨hd, -⟩ | ⟨hm, -⟩
    · obtain ⟨c, hc, m, hm, e⟩ := (hl.methods _).mp hs
      -- a function of the program is no method
      exact absurd e (h.not_method hd (mem.mp hc) hm)
    · exact ht hm
  · rcases h.of_lookup hf hg hd with ⟨hd, e⟩ | ⟨-, b, hb, hd⟩
    · exact (hl.classes name).mpr ⟨c, mem.mpr hd, e⟩
    · cases hf b hb _ hd
  · rw [member] at hd
    obtain ⟨c, hc, hv⟩ := h.member_field hf hd
    exact hl.fields c (mem.mpr hc) v hv
  · rw [member] at hd
    obtain ⟨c, hc, rfl⟩ := (hl.classes owner).mp ho
    obtain ⟨b, hb, hm⟩ := h.member_method hf (mem.mp hc) hd
    exact (hl.methods _).mpr ⟨b, mem.mpr hb, g', hm, rfl⟩
  · have e := h.enclosing_around hg
    refine ht ?_
    cases cls with
    | some c => rfl
    | none =>
      rw [Option.map_none, Option.map_eq_none_iff] at e
      rw [e] at he
      cases he

end Named

/-- The globals have slots in all surroundings. -/
theorem withGlobals_ok (s : Surroundings) (vs : List VarDecl)
    (hv : ∀ v ∈ vs, (s.layout.globalOffset? v.id).isSome = true) :
    ∃ s', withGlobals s vs = .ok s' ∧ s'.notes = s.notes ∧ s'.layout = s.layout ∧
      ∀ i, (s.slot? i).isSome = true ∨ i ∈ vs.map VarDecl.id → (s'.slot? i).isSome = true := by
  induction vs generalizing s with
  | nil => exact ⟨s, rfl, rfl, rfl, fun i h => h.resolve_right nofun⟩
  | cons v vs ih =>
    obtain ⟨hv, hvs⟩ := List.forall_mem_cons.mp hv
    obtain ⟨o, ho⟩ := Option.isSome_iff_exists.mp hv
    obtain ⟨s', e, ha, hl, hs⟩ := ih (s.withSlot v.id (.global o v.name)) hvs
    refine ⟨s', ?_, ha, hl, fun i hi => hs i ?_⟩
    · unfold withGlobals
      rw [ho]
      exact e
    · rw [Surroundings.slot?_withSlot]
      -- the slot of the first variable is hidden only by a later one of the same number
      by_cases e : v.id = i
      · rw [if_pos e]
        exact .inl rfl
      · rw [if_neg e]
        exact hi.imp_right fun hm => (List.mem_cons.mp hm).resolve_left fun e' => e e'.symm

/-- A method has the object at hand. -/
theorem withThis_sound (s : Surroundings) (b : Bool) :
    (withThis s b).Sound A fun s' => s'.notes = s.notes ∧ s'.layout = s.layout ∧
      s'.slots = s.slots ∧ (b = true → s'.this.isSome = true) := by
  cases b with
  | false => exact .done ⟨rfl, rfl, rfl, nofun⟩
  | true => exact (newParam_runs _).bind fun _ => .done ⟨rfl, rfl, rfl, fun _ => rfl⟩

/-- **The code of every function of a clean program is written without a defect.** -/
theorem Clean.body_runs (h : p.Clean) (hf : p.Flat) (hv : Lenient A ∨ p.Valued) (hl : l.Holds cs)
    (hcs : ∀ c, c ∈ cs ↔ ∃ n, p.analyze.hierarchy.class? n = some c) (hg : (cls, g) ∈ p.functions)
    (ha : s.notes = p.analyze.notes) (hlay : s.layout = l)
    (hs : ∀ v, Decl.var v ∈ p.decls → (s.slot? v.id).isSome = true) :
    (g.lowerBody s cls.isSome).Runs A := by
  unfold FnDecl.lowerBody
  refine (withThis_sound s cls.isSome).bind fun s₁ ⟨ha₁, hl₁, hs₁, ht₁⟩ => ?_
  refine (withFormals_sound s₁ g.formals).bind fun s₂ ⟨k, hgain⟩ => ?_
  cases hb : g.body with
  | none => exact runs_done _
  | some b =>
    -- before the parameters are there, the surroundings serve outside of the function
    have h₁ : s₁.Serves (p.around cls) false :=
      h.named.serves hf hl hcs hg (ha₁.trans ha) (hl₁.trans hlay) (fun v hv => by
        unfold Surroundings.slot?
        rw [hs₁]
        exact hs v hv) ht₁
    obtain ⟨j, hj, e⟩ := h.named.scope_of_fn hg
    have e : (p.context cls g).forest = (p.around cls).withOpen (j :: (p.around cls).inner) := e
    -- with them they serve inside
    have h₂ : s₂.Serves (p.context cls g).forest false := by
      rw [e]
      refine h₁.enter hj (fun w hw => ?_) hgain
      cases hw
      exact nofun
    have ha₂ : s₂.notes = p.analyze.notes := hgain.notes_eq.trans (ha₁.trans ha)
    obtain ⟨ho, hu⟩ := h.named.body_known hg hb
    have hk := h.named.check_clean hg h.typed
    rw [Named.check_body_eq hb] at hk
    exact b.lower_runs (h.named.follows hf hg).1 h₂ ho (ha₂ ▸ hu) (ha₂ ▸ hk)
      (ha₂ ▸ hv.imp_right fun hv => hv cls g hg b hb)

/-- The same for the methods of a class. -/
theorem lowerMethods_runs {name : String} {gs : List FnDecl}
    (h : ∀ g ∈ gs, (g.lowerBody s true).Runs A) : (FnDecl.lowerMethods name s gs).Runs A := by
  induction gs with
  | nil => exact runs_done _
  | cons g gs ih =>
    obtain ⟨hg, hr⟩ := List.forall_mem_cons.mp h
    exact (function_runs hg).bind fun _ => ih hr

/-- **The code of declarations is written without a defect if that of their functions is.** -/
theorem lowerAll_runs {ds : List Decl} (hg : ∀ g, Decl.fn g ∈ ds → (g.lowerBody s false).Runs A)
    (hm : ∀ c, Decl.cls c ∈ ds → (s.layout.class? c.name).isSome = true ∧
      ∀ g ∈ c.methods, (g.lowerBody s true).Runs A) : (Decl.lowerAll s ds).Runs A := by
  induction ds with
  | nil => exact runs_done _
  | cons d ds ih =>
    have ih := ih (fun g h => hg g (List.mem_cons_of_mem _ h))
      fun c h => hm c (List.mem_cons_of_mem _ h)
    cases d with
    | var _ => exact ih
    | iface _ => exact ih
    | fn g => exact (function_runs (hg g List.mem_cons_self)).bind fun _ => ih
    | cls c =>
      obtain ⟨hl, hg⟩ := hm c List.mem_cons_self
      have hc : (c.lower s).Runs A := (lowerMethods_runs hg).bind fun _ =>
        (required_sound hl).runs.bind fun _ => instr_runs _
      exact hc.bind fun _ => ih

/-- A clean program has a layout. What keeps it from having code is that there is no `main`, or a
refusal that is allowed. -/
theorem Clean.lower_within (h : p.Clean) (hf : p.Flat) (ha : p.analyze.hierarchy.Acyclic)
    (hv : Lenient A ∨ p.Valued) : ∃ l, Layout.ofProgram p.analyze.hierarchy p = .ok l ∧
      ∀ e, p.lower p.analyze.notes l = .error e → e = .diagnostic .noMain ∨
        ∃ r, e = .refusal r ∧ r.Within A := by
  obtain ⟨l, cs, hok, hl, hcs, hglob⟩ := Layout.ofProgram_ok (p := p) ha fun n c hn =>
    h.named.nodup_fields (h.named.class_iff.mp ⟨n, hn⟩)
  refine ⟨l, hok, fun e he => ?_⟩
  obtain ⟨s, hs, hnotes, hlay, hslots⟩ := withGlobals_ok ⟨p.analyze.notes, l, [], none, none⟩
    (p.decls.filterMap Decl.var?) fun v hv => by
      obtain ⟨d, hd, e⟩ := List.mem_filterMap.mp hv
      cases d <;> cases e
      exact hglob v hd
  have hslots : ∀ v, Decl.var v ∈ p.decls → (s.slot? v.id).isSome = true := fun v hv =>
    hslots v.id (.inr (List.mem_map_of_mem (List.mem_filterMap.mpr ⟨_, hv, rfl⟩)))
  -- every function is written without a defect, so all of them are
  have hbody : ∀ cls g, (cls, g) ∈ p.functions → (g.lowerBody s cls.isSome).Runs A := 
    fun cls g hg => h.body_runs hf hv hl hcs hg hnotes hlay hslots
  have hruns : (Decl.lowerAll s p.decls).Runs A := by
    refine lowerAll_runs (fun g hg => hbody none g (mem_functions.mpr (.inl ⟨rfl, hg⟩)))
      fun c hc => ⟨?_, fun g hg => hbody (some c) g (mem_functions.mpr (.inr ⟨c, rfl, hc, hg⟩))⟩
    rw [hlay]
    exact (hl.classes c.name).mpr ⟨c, (hcs c).mpr (h.named.class_iff.mpr hc), rfl⟩
  -- what the whole ends with is code or a refusal of the kind that is allowed
  have hend := hruns.ends .empty
  unfold lower at he
  split at he
  · rw [hs] at he
    dsimp only at he
    cases hr : Decl.lowerAll s p.decls .empty with
    | ok x =>
      rw [hr] at he
      cases he
    | error r =>
      rw [hr] at he hend
      cases he
      exact .inr ⟨r, rfl, hend⟩
  · cases he
    exact .inl rfl

/-- **The back end finds no defect in a clean program:** there is a layout, and then there is code,
unless there is no `main`, a floating point number, or a call through an interface. -/
theorem Clean.lowers_or_refuses (h : p.Clean) (hf : p.Flat) (ha : p.analyze.hierarchy.Acyclic)
    (hv : p.Valued) : ∃ l, Layout.ofProgram p.analyze.hierarchy p = .ok l ∧
      ∀ e, p.lower p.analyze.notes l = .error e → e = .diagnostic .noMain ∨
        (∃ span, e = .refusal (.double span)) ∨
          ∃ iface method span, e = .refusal (.interfaceCall iface method span) := by
  obtain ⟨l, hok, hl⟩ := h.lower_within (A := fun _ => False) hf ha (.inr hv)
  refine ⟨l, hok, fun e he => (hl e he).imp_right fun ⟨r, e, hr⟩ => ?_⟩
  subst e
  cases r with
  | double span => exact .inl ⟨span, rfl⟩
  | interfaceCall iface method span => exact .inr ⟨iface, method, span, rfl⟩
  | cyclicInheritance _ _ => exact hr.elim
  | internal _ => exact hr.elim

end Program

/-- The program has nothing wrong with it. -/
theorem tally_clean : tally.Clean :=
  ⟨Program.number_numbered _, List.isEmpty_iff.mp (by decide +kernel)⟩

/-- No class of it extends itself. -/
theorem tally_acyclic : tally.analyze.hierarchy.Acyclic := by decide +kernel

/-- It uses no `void`. -/
theorem tally_valued : tally.Valued := by
  have hall : ∀ x ∈ tally.functions, ∀ b, x.2.body = some b → b.Valued tally.analyze.notes := by
    refine List.forall_mem_cons.mpr ⟨fun b hb => ?_,
      List.forall_mem_cons.mpr ⟨fun b hb => ?_, nofun⟩⟩
    · cases (hb : some _ = some b)
      refine ⟨fun x hx => ?_, trivial⟩
      cases (hx : some _ = some x)
      exact ⟨by decide +kernel, trivial, trivial⟩
    · cases (hb : some _ = some b)
      exact ⟨⟨⟨trivial, trivial⟩, by decide +kernel, trivial⟩,
        ⟨⟨by decide +kernel, ⟨by decide +kernel, trivial⟩, trivial⟩, trivial⟩, trivial⟩
  exact fun cls g hg => hall (cls, g) hg

/-- The back end finds no defect in the tally. -/
theorem lowers_or_refuses_tally : ∃ l, Layout.ofProgram tally.analyze.hierarchy tally = .ok l ∧
    ∀ e, tally.lower tally.analyze.notes l = .error e → e = .diagnostic .noMain ∨
      (∃ span, e = .refusal (.double span)) ∨
        ∃ iface method span, e = .refusal (.interfaceCall iface method span) :=
  tally_clean.lowers_or_refuses tally_flat tally_acyclic tally_valued

end DecafLang
