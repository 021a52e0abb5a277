import DecafLang.Syntax.Handwritten
import DecafLang.Proofs.Ancestry
import DecafLang.Proofs.Ownership
import DecafLang.Proofs.TypeReports
import DecafLang.Proofs.Subtyping
import DecafLang.Proofs.Typing

/-!
# Fields out of sight

What the checker says about a field behind a base, outside of the classes that are related to the
class of the base.

* **Such an access never succeeds:** one thing is said about it, the name is bound to nothing, and
  the expression has no type (`Program.Named.access_refused`).
* What is said tells three cases apart (`Hierarchy.Refuses`), since the field is looked up in the
  class around the access before the two classes are compared. The access is called hidden only if
  the class around it has a field of that name as well. If it has none, the report is that *this*
  class has no such field, whatever the class of the base has.
* At every spot of a function the checker follows the rules of its class
  (`Program.Named.spot_follows`), and so asks the right class.
-/

namespace DecafLang

/-! ## 1. Contexts of spots -/

section

variable {r : Rules} {c : Context} (hc : c.Follows r)

include hc

theorem Expr.spots_follow (e : Expr) : ∀ x ∈ e.spots c, x.context.Follows r := by
  intro x hx
  obtain ⟨y, -, rfl⟩ := List.mem_map.mp hx
  exact hc

theorem Expr.spots_follow_opt (e : Option Expr) :
    ∀ x ∈ Expr.spotsOpt c e, x.context.Follows r := by
  intro x hx
  obtain ⟨y, -, hx⟩ := List.mem_flatMap.mp hx
  exact y.spots_follow hc x hx

theorem Expr.spots_follow_test (e : Expr) : ∀ x ∈ e.spotsTest c, x.context.Follows r :=
  List.forall_mem_append.mpr ⟨e.spots_follow hc, List.forall_mem_singleton.mpr hc⟩

theorem Expr.spots_follow_print (es : List Expr) (k : Nat) :
    ∀ x ∈ Expr.spotsPrint c k es, x.context.Follows r := by
  induction es generalizing k with
  | nil => exact nofun
  | cons e es ih =>
    refine List.forall_mem_append.mpr ⟨?_, ih (k + 1)⟩
    refine List.forall_mem_append.mpr ⟨e.spots_follow hc, ?_⟩
    exact List.forall_mem_singleton.mpr hc

theorem Expr.spots_follow_return (s : Span) (e : Option Expr) :
    ∀ x ∈ Expr.spotsReturn c s e, x.context.Follows r :=
  List.forall_mem_append.mpr ⟨Expr.spots_follow_opt hc e, List.forall_mem_singleton.mpr hc⟩

end

section

variable {r : Rules}

mutual

/-- **At the spots of a statement the rules are those around it.** -/
theorem Stmt.spots_follow : ∀ (s : Stmt) {c : Context}, c.Follows r →
    c.forest.HasAll s.openings → ∀ x ∈ s.spots c, x.context.Follows r
  | .block b, _, hc, ho => b.spots_follow hc ho
  | .ifThen _ t s, _, hc, ho =>
    List.forall_mem_append.mpr ⟨t.spots_follow_test hc, s.spots_follow hc ho⟩
  | .ifElse _ t s o, _, hc, ho => by
    obtain ⟨hs, ho⟩ := Forest.hasAll_append.mp ho
    refine List.forall_mem_append.mpr ⟨?_, o.spots_follow hc ho⟩
    exact List.forall_mem_append.mpr ⟨t.spots_follow_test hc, s.spots_follow hc hs⟩
  | .while _ t s, _, hc, ho =>
    List.forall_mem_append.mpr ⟨t.spots_follow_test hc, s.spots_follow hc.inBreakable ho⟩
  | .for _ i t u s, _, hc, ho => by
    -- only the body may be left by a `break`
    refine List.forall_mem_append.mpr ⟨?_, s.spots_follow hc.inBreakable ho⟩
    refine List.forall_mem_append.mpr ⟨?_, Expr.spots_follow_opt hc u⟩
    exact List.forall_mem_append.mpr ⟨Expr.spots_follow_opt hc i, t.spots_follow_test hc⟩
  | .switch _ e cs, _, hc, ho =>
    List.forall_mem_append.mpr ⟨e.spots_follow hc, Case.spots_follow_all cs hc.inBreakable ho⟩
  | .break _, _, hc, _ => List.forall_mem_singleton.mpr hc
  | .ret s e, _, hc, _ => Expr.spots_follow_return hc s e
  | .print _ es, _, hc, _ => Expr.spots_follow_print hc es 1
  | .expr e, _, hc, _ => e.spots_follow hc

theorem Block.spots_follow : ∀ (b : Block) {c : Context}, c.Follows r →
    c.forest.HasAll b.openings → ∀ x ∈ b.spots c, x.context.Follows r
  | ⟨_, _, ss⟩, _, hc, ho => by
    obtain ⟨⟨k, hk⟩, ho⟩ := Forest.hasAll_cons.mp ho
    exact Stmt.spots_follow_all ss (hc.inBlock hk) (ho.enter hk)

theorem Stmt.spots_follow_all : ∀ (ss : List Stmt) {c : Context}, c.Follows r →
    c.forest.HasAll (Stmt.openingsAll ss) → ∀ x ∈ Stmt.spotsAll ss c, x.context.Follows r
  | [], _, _, _ => nofun
  | s :: ss, _, hc, ho => by
    obtain ⟨hs, ho⟩ := Forest.hasAll_append.mp ho
    exact List.forall_mem_append.mpr ⟨s.spots_follow hc hs, Stmt.spots_follow_all ss hc ho⟩

theorem Case.spots_follow_all : ∀ (cs : List Case) {c : Context}, c.Follows r →
    c.forest.HasAll (Case.openingsAll cs) → ∀ x ∈ Case.spotsAll cs c, x.context.Follows r
  | [], _, _, _ => nofun
  | ⟨_, ss⟩ :: cs, _, hc, ho => by
    obtain ⟨hs, ho⟩ := Forest.hasAll_append.mp ho
    exact List.forall_mem_append.mpr
      ⟨Stmt.spots_follow_all ss hc hs, Case.spots_follow_all cs hc ho⟩

end

end

/-! ## 2. The rule of a field -/

namespace Hierarchy

/-- A class has or inherits a field: the nearest member of the name is one. -/
def HasField (h : Hierarchy) (cls member : String) : Prop :=
  ∃ v, h.member? cls member = some (.var v)

/-- What is wrong with a field behind a base of a class, seen from a class that is not related to
it or from outside of all classes. -/
structure Refuses (h : Hierarchy) (cls : Option String) (owner : String) (i : Ident) (x : Fault) :
    Prop where
  /-- The field is there, but not for everyone. -/
  hidden : h.HasField owner i.name → (∀ d ∈ cls, h.HasField d i.name) →
    x = .hiddenField i.name (.named owner)
  /-- The field is not there, or a method has its name. -/
  absent : ¬ h.HasField owner i.name → x = .noSuchField i.name (.named owner)
  /-- The field is there, but not in the class from where it is seen. -/
  elsewhere : h.HasField owner i.name → ∀ d ∈ cls, ¬ h.HasField d i.name →
    x = .noSuchField i.name (.named d)

variable {h : Hierarchy} {a b : String}

/-- Classes that are not related do not stand for each other. -/
theorem not_accepts_unrelated (hb : (h.class? b).isSome = true) (hs : h.isSubclass a b = false) :
    h.accepts (.named b) (.named a) = false := by
  have hi : h.implements a b = false := by
    cases hi : h.implements a b with
    | false => rfl
    | true =>
      rw [implemented_no_class hi] at hb
      cases hb
  -- Equal names would make a class a subclass of itself.
  have hne : (b == a) = false := by
    refine beq_eq_false_iff_ne.mpr fun e => ?_
    have hself : h.isSubclass a a = true := decide_eq_true List.mem_cons_self
    rw [e, hself] at hs
    cases hs
  show (b == a || h.isSubclass a b || h.implements a b) = false
  rw [hne, hs, hi]
  rfl

end Hierarchy

/-- **The rule of a field behind a base refuses what is out of sight,** by looking at the class of
the base, at the class around it, and at last at how they are related. -/
theorem Context.field_refused {c : Context} {h : Hierarchy} {owner : String} {i : Ident}
    (hm : ∀ d, d = owner ∨ d ∈ c.forest.enclosingClass?.map ClassDecl.name →
      c.forest.member? d i.name = h.member? d i.name)
    (ha : ∀ d ∈ c.forest.enclosingClass?.map ClassDecl.name,
      c.accepts (.named d) (.named owner) = false ∧ c.accepts (.named owner) (.named d) = false) :
    ∃ x, c.fieldRule (.named owner) i = .broken i.span x ∧
      h.Refuses (c.forest.enclosingClass?.map ClassDecl.name) owner i x := by
  have hown := hm owner (.inl rfl)
  -- a name that no field has, in the class of the base or around the access
  have lacks : ∀ {d : String} {m : Option Decl}, h.member? d i.name = m →
      (∀ v, m ≠ some (.var v)) → ¬ h.HasField d i.name := by
    rintro d m rfl hv ⟨v, hd⟩
    exact hv v hd
  unfold fieldRule
  dsimp only
  split
  · rename_i v hv
    have hf : h.HasField owner i.name := ⟨v, hown.symm.trans hv⟩
    cases hc : c.forest.enclosingClass? with
    | none => exact ⟨_, rfl, ⟨fun _ _ => rfl, fun hn => absurd hf hn, nofun⟩⟩
    | some d =>
      have hd : d.name ∈ c.forest.enclosingClass?.map ClassDecl.name := by
        rw [hc]
        rfl
      have hin := hm d.name (.inr hd)
      dsimp only
      split
      · rename_i w hw
        have hfd : h.HasField d.name i.name := ⟨w, hin.symm.trans hw⟩
        obtain ⟨h₁, h₂⟩ := ha d.name hd
        rw [h₁, h₂]
        refine ⟨_, rfl, ⟨fun _ _ => rfl, fun hn => absurd hf hn, fun _ e he hn => ?_⟩⟩
        obtain rfl := Option.some.inj he
        exact absurd hfd hn
      · rename_i hw
        have hn : ¬ h.HasField d.name i.name := lacks hin.symm hw
        refine ⟨_, rfl, ⟨fun _ hall => absurd (hall d.name rfl) hn, fun hn => absurd hf hn, ?_⟩⟩
        intro _ e he _
        obtain rfl := Option.some.inj he
        rfl
  · rename_i hv
    have hn : ¬ h.HasField owner i.name := lacks hown.symm hv
    exact ⟨_, rfl, ⟨fun hf _ => absurd hf hn, fun _ => rfl, fun hf _ _ _ => absurd hf hn⟩⟩

/-! ## 3. Bindings -/

/-- An expression binds its own name, if it binds anything. -/
theorem Expr.verdict_binds {c : Context} {e : Expr} {b : Ident × Decl}
    (hb : (e.verdict c).binding = some b) : b.1 ∈ e.names := by
  have none : (e.verdict c).Binds none → b.1 ∈ e.names := fun h => nomatch h b hb
  -- Member accesses bind their own name; no other form binds one in its verdict.
  cases e with
  | field n x i =>
    obtain rfl := Option.some.inj (c.binds_field _ i b hb)
    exact List.mem_singleton_self _
  | send n x i args =>
    obtain rfl := Option.some.inj (c.binds_send _ i _ b hb)
    exact List.mem_singleton_self _
  | this n => exact none (c.binds_this n.span)
  | binary n op l r => exact none (c.binds_binary n.span op _ _)
  | unary n op x => exact none (Context.binds_unary n.span op _)
  | step n op x => exact none (Context.binds_step n.span op _)
  | index n x y => exact none (Context.binds_index n.span y.span _ _)
  | name n i => exact none (c.binds_name i)
  | call n i args => exact none (c.binds_call i _)
  | new n i => exact none (c.binds_new i)
  | _ => exact none (.of_none rfl)

/-- What is bound at a spot is bound by its expression. -/
theorem Spot.bound {s : Spot} {x : NodeId × Decl} (hx : x ∈ s.report.bindings) :
    ∃ e b, s.expr? = some e ∧ (e.verdict s.context).binding = some b ∧ b.1.id = x.1 := by
  obtain ⟨c, s⟩ := s
  cases s with
  | expr e =>
    obtain ⟨b, hb, rfl⟩ := Option.map_eq_some_iff.mp (Option.mem_toList.mp hx)
    exact ⟨e, b, rfl, hb, rfl⟩
  | returned _ v => cases v <;> cases hx
  | _ => cases hx

namespace Program

variable {p : Program} {cls : Option ClassDecl} {g : FnDecl} {e : Expr} {i : Ident}

/-- The spots that the checker comes by. -/
def checkedSpots (p : Program) : List Spot :=
  p.spots p.analyze.hierarchy p.analyze.conformance.forest p.analyze.resolved.notes

/-- What the checker says about a program is what it says at these spots. -/
theorem checked_diagnostics (p : Program) :
    p.analyze.typed.diagnostics = p.checkedSpots.flatMap Spot.faults := p.diagnostics_eq _ _ _

/-- The spots of a function are among them. -/
theorem Numbered.mem_checkedSpots (h : p.Numbered) (hg : (cls, g) ∈ p.functions) {s : Spot}
    (hs : s ∈ g.spots p.analyze.hierarchy p.analyze.resolved.notes (p.around cls)) :
    s ∈ p.checkedSpots := by
  have ef : p.visitBodies p.analyze.conformance.forest = p.scopes := h.typed_forest
  unfold checkedSpots spots
  rw [ef]
  exact List.mem_flatMap.mpr ⟨(cls, g), hg, by cases cls <;> exact hs⟩

/-- **At the spots of a function the checker follows the rules of its class.** -/
theorem Named.spot_follows (h : p.Named) (hf : p.Flat) (hg : (cls, g) ∈ p.functions) :
    ∀ s ∈ g.spots p.analyze.hierarchy p.analyze.resolved.notes (p.around cls),
      s.context.Follows (p.rules cls) := by
  unfold FnDecl.spots
  cases hb : g.body with
  | none => exact nofun
  | some b => exact b.spots_follow (h.follows hf hg).1 (h.body_known hg hb).1

/-! ## 4. Refused accesses -/

/-- An access is refused: this is said about it, and it has neither a meaning nor a type. -/
structure Refused (p : Program) (e : Expr) (i : Ident) (d : Diagnostic) : Prop where
  /-- Of all spots one is that of the access, and there this is said and nothing else. -/
  reported : ∃ front s back, p.checkedSpots = front ++ s :: back ∧ s.expr? = some e ∧
    s.faults = [d] ∧ (∀ x ∈ front ++ back, x.expr? ≠ some e) ∧
    p.analyze.typed.diagnostics = front.flatMap Spot.faults ++ d :: back.flatMap Spot.faults
  unbound : i.id ∉ p.analyze.typed.report.bindings.map Prod.fst
  untyped : p.analyze.notes.types.get? e.id = some .error

/-- **Where the rule of an expression is broken, nothing but the report is left of it.** -/
theorem Numbered.refused (h : p.Numbered) {c : Context} (hs : ⟨c, .expr e⟩ ∈ p.checkedSpots)
    (hi : i ∈ e.names) {k : Span} {x : Fault} (hv : e.verdict c = .broken k x) :
    p.Refused e i (.located k x) := by
  obtain ⟨front, back, hl, hone⟩ := h.spot_alone hs rfl
  have hl : p.checkedSpots = front ++ ⟨c, .expr e⟩ :: back := hl
  have hd : Spot.faults ⟨c, .expr e⟩ = [.located k x] := by
    show (e.verdict c).faults = _
    rw [hv]
    rfl
  constructor
  · refine ⟨front, _, back, hl, rfl, hd, hone, ?_⟩
    rw [p.checked_diagnostics, hl, List.flatMap_append, List.flatMap_cons, hd]
    rfl
  · intro hm
    obtain ⟨y, hy, ey⟩ := List.mem_map.mp hm
    have hr : p.analyze.typed.report = Report.join (p.checkedSpots.map Spot.report) :=
      p.report_told _ _ _
    rw [hr, bindings_join, List.flatMap_map] at hy
    obtain ⟨s, hm, hy⟩ := List.mem_flatMap.mp hy
    -- what binds the name is the expression, and its only spot is the one of the broken rule
    obtain ⟨e', b, hse, hb, eb⟩ := Spot.bound hy
    cases h.eq_owner (expr_of_spot p _ _ _ hm hse) (expr_of_spot p _ _ _ hs rfl)
      (Expr.verdict_binds hb) hi (eb.trans ey)
    rw [hl] at hm
    rcases List.mem_append.mp hm with hm | hm
    · exact hone s (List.mem_append_left _ hm) hse
    · rcases List.mem_cons.mp hm with rfl | hm
      · have hb : (e.verdict c).binding = some b := hb
        rw [hv] at hb
        cases hb
      · exact hone s (List.mem_append_right _ hm) hse
  · refine (h.type_at hs).trans ?_
    rw [Expr.type_eq, hv]
    rfl

/-- The class around a function is a class of the hierarchy. -/
theorem Named.class_around (h : p.Named) (hg : (cls, g) ∈ p.functions) :
    ∀ k ∈ cls, (p.analyze.hierarchy.class? k.name).isSome = true := by
  intro k hk
  rcases mem_functions.mp hg with ⟨rfl, -⟩ | ⟨_, rfl, hc, -⟩
  · cases hk
  · cases hk
    rw [h.class?_eq hc]
    rfl

/-- Behind the name of a class are the members that the hierarchy gives. -/
theorem Named.member_of_class (h : p.Named) (hf : p.Flat) {cls : String}
    (hc : (p.analyze.hierarchy.class? cls).isSome = true) (member : String) :
    p.scopes.member? cls member = p.analyze.hierarchy.member? cls member := by
  obtain ⟨k, hk⟩ := Option.isSome_iff_exists.mp hc
  obtain rfl := Hierarchy.class?_name hk
  exact h.member_class hf (h.class_mem hk) member

/-- **A field behind a base is refused outside of the classes that are related to that of the
base.** One thing is said about the access, nothing is bound, and the expression has no type. The
access is said to be hidden only where the class of the base has a field of the name and the class
around the access, if there is one, has too; else the report is that one of these classes has no
such field. -/
theorem Named.access_refused (h : p.Named) (hf : p.Flat) (hg : (cls, g) ∈ p.functions) {n : Node}
    {b : Expr} {owner : String} (he : Part.expr (.field n b i) ∈ Block.partsOpt g.body)
    (hb : p.analyze.notes.types.get? b.id = some (.named owner))
    (ho : (p.analyze.hierarchy.class? owner).isSome = true)
    (hu : ∀ c ∈ cls, p.analyze.hierarchy.isSubclass c.name owner = false ∧
      p.analyze.hierarchy.isSubclass owner c.name = false) :
    ∃ x, p.Refused (.field n b i) i (.located i.span x) ∧
      p.analyze.hierarchy.Refuses (cls.map ClassDecl.name) owner i x := by
  -- where the access and its base stand
  obtain ⟨c, hs⟩ := (g.told (R := fun _ => True) (t := p.analyze.hierarchy)
    (a := p.analyze.resolved.notes) trivial (p.around cls)).spot_of_expr he
  have hc : c.Follows (p.rules cls) := h.spot_follows hf hg _ hs
  have hs := h.numbered.mem_checkedSpots hg hs
  have hbase : (b.check c).type = .named owner := by
    have := h.numbered.type_at (p.spots_closed _ _ _ _ hs b (List.mem_singleton_self b))
    exact Option.some.inj (this.symm.trans hb)
  -- what the rule asks about the class of the base and the one around the access
  have around : c.forest.enclosingClass?.map ClassDecl.name = cls.map ClassDecl.name := hc.cls_eq
  have member : ∀ d, d = owner ∨ d ∈ cls.map ClassDecl.name →
      c.forest.member? d i.name = p.analyze.hierarchy.member? d i.name := by
    intro d hd
    refine (hc.member_eq d i.name).trans (h.member_of_class hf ?_ i.name)
    rcases hd with rfl | hd
    · exact ho
    · obtain ⟨k, hk, rfl⟩ := Option.map_eq_some_iff.mp hd
      exact h.class_around hg k hk
  have apart : ∀ d ∈ cls.map ClassDecl.name, c.accepts (.named d) (.named owner) = false ∧
      c.accepts (.named owner) (.named d) = false := by
    intro d hd
    obtain ⟨k, hk, rfl⟩ := Option.map_eq_some_iff.mp hd
    obtain ⟨below, above⟩ := hu k hk
    unfold Context.accepts
    rw [hc.hierarchy_eq]
    exact ⟨Hierarchy.not_accepts_unrelated (h.class_around hg k hk) above,
      Hierarchy.not_accepts_unrelated ho below⟩
  obtain ⟨x, hx, hr⟩ := Context.field_refused (around ▸ member) (around ▸ apart)
  refine ⟨x, h.numbered.refused hs (List.mem_singleton_self i) ?_, around ▸ hr⟩
  show c.fieldRule (b.check c).type i = _
  rw [hbase]
  exact hx

end Program

/-- A safe holds coins; a thief, a purse with coins of its own and the main function reach for
them. -/
def safes : Program := .number [
  .cls ⟨.nowhere, .onLine "Safe" 1, none, [], [.var ⟨.nowhere, .onLine "coins" 1, .prim 0 .int⟩]⟩,
  .cls ⟨.nowhere, .onLine "Thief" 2, none, [], [
    .fn ⟨.nowhere, .onLine "pry" 3, .prim 0 .void,
      [⟨.nowhere, .onLine "s" 3, .named 0 (.onLine "Safe" 3)⟩], some (reach 4)⟩]⟩,
  .cls ⟨.nowhere, .onLine "Purse" 5, none, [], [.var ⟨.nowhere, .onLine "coins" 5, .prim 0 .int⟩,
    .fn ⟨.nowhere, .onLine "peek" 6, .prim 0 .void,
      [⟨.nowhere, .onLine "s" 6, .named 0 (.onLine "Safe" 6)⟩], some (reach 7)⟩]⟩,
  .fn ⟨.nowhere, .onLine "look" 8, .prim 0 .void,
    [⟨.nowhere, .onLine "s" 8, .named 0 (.onLine "Safe" 8)⟩], some (reach 9)⟩,
  .fn ⟨.nowhere, .onLine "main" 10, .prim 0 .void, [], some .empty⟩]
where
  reach (line : Nat) : Block := ⟨.nowhere, [],
    [.expr (.field .nowhere (.name .nowhere (.onLine "s" line)) (.onLine "coins" line))]⟩

theorem safes_named : safes.Named :=
  ⟨Program.number_numbered _, List.isEmpty_iff.mp (by decide +kernel),
    List.isEmpty_iff.mp (by decide +kernel)⟩

theorem safes_flat : safes.Flat := by decide +kernel

/-- A function that reaches for the coins. -/
def safes.reacher (k : Nat) : Option ClassDecl × FnDecl := safes.functions.getD k default

/-- The safe that is reached into, with the number of its name. -/
def safes.inside (k line : Nat) : Expr := .name ⟨k + 1, .nowhere⟩ ⟨"s", ⟨k, .point line 1⟩⟩

/-- The coins that are reached for, behind the safe. -/
def safes.coins (k line : Nat) : Ident := ⟨"coins", ⟨k + 2, .point line 1⟩⟩

/-- The purse is told that the coins are hidden, and so is a function outside of all classes; the
thief is told to have none. -/
theorem access_refused_safes :
    safes.Refused (.field ⟨30, .nowhere⟩ (safes.inside 27 7) (safes.coins 27 7)) (safes.coins 27 7)
      (.located (.point 7 1) (.hiddenField "coins" (.named "Safe"))) ∧
    safes.Refused (.field ⟨13, .nowhere⟩ (safes.inside 10 4) (safes.coins 10 4)) (safes.coins 10 4)
      (.located (.point 4 1) (.noSuchField "coins" (.named "Thief"))) := by
  have safe : safes.analyze.hierarchy.HasField "Safe" "coins" := ⟨_, rfl⟩
  have purse : safes.analyze.hierarchy.HasField "Purse" "coins" := ⟨_, rfl⟩
  have thief : ¬ safes.analyze.hierarchy.HasField "Thief" "coins" := by
    rintro ⟨v, hv⟩
    have hn : (safes.analyze.hierarchy.member? "Thief" "coins").isNone = true := by decide +kernel
    rw [hv] at hn
    cases hn
  -- `peek` and `pry` are the two methods that reach into a safe.
  have peeks : ((safes.reacher 1).1, (safes.reacher 1).2) ∈ safes.functions :=
    List.mem_of_getElem? (i := 1) rfl
  have pries : ((safes.reacher 0).1, (safes.reacher 0).2) ∈ safes.functions :=
    List.mem_of_getElem? (i := 0) rfl
  have known : (safes.analyze.hierarchy.class? "Safe").isSome = true := by decide +kernel
  obtain ⟨x, hx, hr⟩ := safes_named.access_refused safes_flat peeks (n := ⟨30, .nowhere⟩)
    (b := safes.inside 27 7) (i := safes.coins 27 7) (List.mem_of_getElem? (i := 3) rfl)
    (by decide +kernel) known (by decide +kernel)
  obtain ⟨y, hy, hs⟩ := safes_named.access_refused safes_flat pries (n := ⟨13, .nowhere⟩)
    (b := safes.inside 10 4) (i := safes.coins 10 4) (List.mem_of_getElem? (i := 3) rfl)
    (by decide +kernel) known (by decide +kernel)
  have ex := hr.hidden safe fun d hd => by
    obtain rfl := Option.some.inj hd
    exact purse
  have ey := hs.elsewhere safe "Thief" rfl thief
  subst ex ey
  exact ⟨hx, hy⟩

/-- The thief is not related to the safe, which has coins, and yet is not told that they are
hidden. -/
theorem access_not_hidden_safes : safes.Named ∧ safes.Flat ∧ safes.reacher 0 ∈ safes.functions ∧
    Part.expr (.field ⟨13, .nowhere⟩ (safes.inside 10 4) (safes.coins 10 4)) ∈
      Block.partsOpt (safes.reacher 0).2.body ∧
    safes.analyze.notes.types.get? (safes.inside 10 4).id = some (.named "Safe") ∧
    (safes.analyze.hierarchy.class? "Safe").isSome = true ∧
    safes.analyze.hierarchy.HasField "Safe" (safes.coins 10 4).name ∧
    (∀ c ∈ (safes.reacher 0).1, safes.analyze.hierarchy.isSubclass c.name "Safe" = false ∧
      safes.analyze.hierarchy.isSubclass "Safe" c.name = false) ∧
    ¬ safes.Refused (.field ⟨13, .nowhere⟩ (safes.inside 10 4) (safes.coins 10 4))
      (safes.coins 10 4) (.located (.point 4 1) (.hiddenField "coins" (.named "Safe"))) := by
  refine ⟨safes_named, safes_flat, List.mem_of_getElem? (i := 0) rfl,
    List.mem_of_getElem? (i := 3) rfl, by decide +kernel, by decide +kernel, ⟨_, rfl⟩,
    by decide +kernel, fun hr => ?_⟩
  obtain ⟨front, _, back, -, -, -, -, hd⟩ := hr.reported
  -- The report that would have to be there is none of those made.
  have hm : Diagnostic.located (.point 4 1) (.hiddenField "coins" (.named "Safe")) ∉
      safes.analyze.typed.diagnostics := by decide +kernel
  rw [hd] at hm
  exact hm (List.mem_append_right _ List.mem_cons_self)

end DecafLang
