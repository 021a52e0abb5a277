import DecafLang.Syntax.Handwritten
import DecafLang.Proofs.Storage

/-!
# Fields

A field is written and read where it lies, whatever class the object has.

* A field is declared once in a line of classes: none of them has a field of a name that it
  inherits. **So two classes of one line that have a field of a name have the same one**
  (`Hierarchy.Conforming.field_one`), and it does not matter in which of them it is looked up.
* What an object inherits keeps its place, so the offset of a field is the same in the objects of
  all classes below (`Program.Named.field_stays`), and lies behind the address of the table.
* A bare name that stands for a field stands for a member of the class around: blocks and formals
  only hide what is in sight around the function, and no field has a slot of its own.
* **The code goes to that offset** (`Program.Clean.fields_agree`), behind a base as well as behind
  the object at hand: this holds wherever nothing but the notes, the layout and slots for variables
  is given, and so was every expression of the program coded (`Program.Clean.coded`).
-/

namespace DecafLang

open Code (Chunk Instr Location Supply)
open Code.Emit

/-! ## 1. Bare names -/

namespace Forest

/-- What is found in the first forest is declared in one of the scopes, or is found in the
second. -/
def Inside (f f₀ : Forest) (os : List Opening) : Prop := ∀ name d, f.lookup? name = some d →
  (∃ o ∈ os, d ∈ o.scope.decls) ∨ f₀.lookup? name = some d

variable {f f₀ : Forest} {os : List Opening}

theorem inside_self (f : Forest) (os : List Opening) : f.Inside f os := fun _ _ => .inr

/-- A scope that is opened is one of those that may hold what is found. -/
theorem Inside.open (h : f.Inside f₀ os) {n : NodeId} {w : Option Owner} {ds : List Decl}
    {k : ScopeId} (hk : f.Has ⟨n, .holding w ds⟩ k) (ho : ⟨n, .holding w ds⟩ ∈ os) :
    (f.withOpen (k :: f.inner)).Inside f₀ os := by
  intro name d hl
  rw [hk.lookup?_eq] at hl
  rcases Option.or_eq_some_iff.mp hl with hl | ⟨-, hl⟩
  · exact .inl ⟨_, ho, List.mem_of_find?_eq_some hl⟩
  · exact h name d hl

end Forest

/-- A bare name is among those that are looked up, in a forest that lies inside another. -/
def Expr.SoughtIn (f₀ : Forest) (os : List Opening) (us : List Finding) (e : Expr) : Prop :=
  ∀ n i, e = .name n i → ∃ f : Forest, f.Inside f₀ os ∧ f.use i .var ∈ us

section

variable {f₀ : Forest} {os : List Opening} {us : List Finding}

theorem Expr.sought_other {e : Expr} (h : ∀ n i, e ≠ .name n i) : e.SoughtIn f₀ os us :=
  fun n i he => absurd he (h n i)

mutual

/-- Every bare name of an expression is looked up where the expression stands. -/
theorem Expr.all_sought {f : Forest} (hf : f.Inside f₀ os) : ∀ e : Expr, e.uses f ⊆ us →
    Part.All (Expr.SoughtIn f₀ os us) e.parts
  | .int _ _, _ | .double _, _ | .bool _ _, _ | .string _ _, _ | .null _, _ | .this _, _
  | .readInteger _, _ | .readLine _, _ => .one (sought_other nofun)
  | .name n i, h => by
    have hself : Expr.SoughtIn f₀ os us (.name n i) := by
      intro _ _ e
      cases e
      exact ⟨f, hf, h List.mem_cons_self⟩
    exact .cons nofun (.one hself)
  | .new _ _, _ => .cons nofun (.one (sought_other nofun))
  | .binary _ _ x y, h | .assign _ x y, h | .index _ x y, h => by
    obtain ⟨hx, hy⟩ := List.append_subset.mp h
    have hparts := (x.all_sought hf hx).append (y.all_sought hf hy)
    exact hparts.append (.one (sought_other nofun))
  | .unary _ _ x, h | .step _ _ x, h => (x.all_sought hf h).append (.one (sought_other nofun))
  | .field _ x _, h => by
    refine .append (x.all_sought hf h) ?_
    exact .cons nofun (.one (sought_other nofun))
  | .call _ _ args, h => by
    obtain ⟨-, hargs⟩ := List.cons_subset.mp h
    refine .append (Expr.all_sought_all hf args hargs) ?_
    exact .cons nofun (.one (sought_other nofun))
  | .send _ x _ args, h => by
    obtain ⟨hx, hargs⟩ := List.append_subset.mp h
    have hparts := (x.all_sought hf hx).append (Expr.all_sought_all hf args hargs)
    exact hparts.append (.cons nofun (.one (sought_other nofun)))
  | .newArray _ x t, h => by
    -- the name in the type of the elements is no bare name
    have hx := x.all_sought hf (List.append_subset.mp h).1
    exact (hx.append (.type t)).append (.one (sought_other nofun))

theorem Expr.all_sought_all {f : Forest} (hf : f.Inside f₀ os) : ∀ es : List Expr,
    Expr.usesAll f es ⊆ us → Part.All (Expr.SoughtIn f₀ os us) (Expr.partsAll es)
  | [], _ => .nil
  | e :: es, h => by
    obtain ⟨he, hes⟩ := List.append_subset.mp h
    exact (e.all_sought hf he).append (Expr.all_sought_all hf es hes)

end

theorem Expr.all_sought_opt {f : Forest} (hf : f.Inside f₀ os) {e : Option Expr}
    (h : Expr.usesOpt f e ⊆ us) : Part.All (Expr.SoughtIn f₀ os us) (Expr.partsOpt e) := by
  cases e with
  | none => exact .nil
  | some e => exact e.all_sought hf h

mutual

/-- Every bare name of a statement is looked up inside the scopes that the statement opens. -/
theorem Stmt.all_sought : ∀ (s : Stmt) {f : Forest}, f.Inside f₀ os → f.HasAll s.openings →
    s.openings ⊆ os → s.uses f ⊆ us → Part.All (Expr.SoughtIn f₀ os us) s.parts
  | .block b, _, hf, ha, ho, h => b.all_sought hf ha ho h
  | .ifThen _ t s, _, hf, ha, ho, h => by
    obtain ⟨ht, hs⟩ := List.append_subset.mp h
    exact (t.all_sought hf ht).append (s.all_sought hf ha ho hs)
  | .ifElse _ t s o, _, hf, ha, ho, h => by
    obtain ⟨h, helse⟩ := List.append_subset.mp h
    obtain ⟨ht, hthen⟩ := List.append_subset.mp h
    obtain ⟨ha₁, ha₂⟩ := Forest.hasAll_append.mp ha
    obtain ⟨ho₁, ho₂⟩ := List.append_subset.mp ho
    have hfirst := (t.all_sought hf ht).append (s.all_sought hf ha₁ ho₁ hthen)
    exact hfirst.append (o.all_sought hf ha₂ ho₂ helse)
  | .while _ t s, _, hf, ha, ho, h => by
    obtain ⟨ht, hs⟩ := List.append_subset.mp h
    exact (t.all_sought hf ht).append (s.all_sought hf ha ho hs)
  | .for _ _ t _ s, _, hf, ha, ho, h => by
    obtain ⟨h, hs⟩ := List.append_subset.mp h
    obtain ⟨h, hstep⟩ := List.append_subset.mp h
    obtain ⟨hinit, ht⟩ := List.append_subset.mp h
    have hhead := (Expr.all_sought_opt hf hinit).append (t.all_sought hf ht)
    have hhead := hhead.append (Expr.all_sought_opt hf hstep)
    exact hhead.append (s.all_sought hf ha ho hs)
  | .switch _ e cs, _, hf, ha, ho, h => by
    obtain ⟨he, hcs⟩ := List.append_subset.mp h
    exact (e.all_sought hf he).append (Case.all_sought_all cs hf ha ho hcs)
  | .break _, _, _, _, _, _ => .nil
  | .ret _ _, _, hf, _, _, h => Expr.all_sought_opt hf h
  | .print _ es, _, hf, _, _, h => Expr.all_sought_all hf es h
  | .expr e, _, hf, _, _, h => e.all_sought hf h

theorem Block.all_sought : ∀ (b : Block) {f : Forest}, f.Inside f₀ os → f.HasAll b.openings →
    b.openings ⊆ os → b.uses f ⊆ us → Part.All (Expr.SoughtIn f₀ os us) b.parts
  | ⟨n, ls, ss⟩, f, hf, ha, ho, h => by
    obtain ⟨⟨k, hk⟩, has⟩ := Forest.hasAll_cons.mp ha
    obtain ⟨hb, hos⟩ := List.cons_subset.mp ho
    have he : f.enter n.id = f.withOpen (k :: f.inner) := hk.enter
    have hs : Stmt.usesAll ss (f.withOpen (k :: f.inner)) ⊆ us := by
      rw [← he]
      exact (List.append_subset.mp h).2
    have hstmts := Stmt.all_sought_all ss (f := f.withOpen (k :: f.inner)) (hf.open hk hb) has hos hs
    exact .append (.append (.vars ls) hstmts) (.cons nofun .nil)

theorem Stmt.all_sought_all : ∀ (ss : List Stmt) {f : Forest}, f.Inside f₀ os →
    f.HasAll (Stmt.openingsAll ss) → Stmt.openingsAll ss ⊆ os → Stmt.usesAll ss f ⊆ us →
      Part.All (Expr.SoughtIn f₀ os us) (Stmt.partsAll ss)
  | [], _, _, _, _, _ => .nil
  | s :: ss, _, hf, ha, ho, h => by
    obtain ⟨h₁, h₂⟩ := List.append_subset.mp h
    obtain ⟨ha₁, ha₂⟩ := Forest.hasAll_append.mp ha
    obtain ⟨ho₁, ho₂⟩ := List.append_subset.mp ho
    exact (s.all_sought hf ha₁ ho₁ h₁).append (Stmt.all_sought_all ss hf ha₂ ho₂ h₂)

theorem Case.all_sought_all : ∀ (cs : List Case) {f : Forest}, f.Inside f₀ os →
    f.HasAll (Case.openingsAll cs) → Case.openingsAll cs ⊆ os → Case.usesAll cs f ⊆ us →
      Part.All (Expr.SoughtIn f₀ os us) (Case.partsAll cs)
  | [], _, _, _, _, _ => .nil
  | ⟨_, ss⟩ :: cs, _, hf, ha, ho, h => by
    obtain ⟨h₁, h₂⟩ := List.append_subset.mp h
    obtain ⟨ha₁, ha₂⟩ := Forest.hasAll_append.mp ha
    obtain ⟨ho₁, ho₂⟩ := List.append_subset.mp ho
    exact (Stmt.all_sought_all ss hf ha₁ ho₁ h₁).append (Case.all_sought_all cs hf ha₂ ho₂ h₂)

end

end

/-! ## 2. Fields of related classes -/

namespace Hierarchy

variable {h : Hierarchy} {a b member : String} {v w : VarDecl}

/-- **Two classes of one line that have a field of a name have the same one.** It is declared by an
ancestor of the upper one. -/
theorem Conforming.field_one (hc : h.Conforming) (hb : b ∈ h.ancestors a)
    (hv : h.member? a member = some (.var v)) (hw : h.member? b member = some (.var w)) :
    v = w ∧ ∃ n ∈ h.ancestors b, h.declared? member n = some (.var v) := by
  obtain ⟨front, n, back, e, hd, hfront, -⟩ := member?_split hv
  obtain ⟨m, hm, hdm⟩ := List.exists_of_findSome?_eq_some hw
  have hma : m ∈ front ++ n :: back := e ▸ ancestors_trans hb hm
  -- Nothing below `n` declares the name, and above `n` it cannot be declared again.
  rcases List.mem_append.mp hma with hf | hr
  · rw [hfront m hf] at hdm
    cases hdm
  · rcases List.mem_cons.mp hr with rfl | hback
    · rw [hd] at hdm
      cases hdm
      exact ⟨rfl, m, hm, hd⟩
    · -- the lower declaration would have the name of an inherited field
      obtain ⟨more, hmore⟩ := Chain.fromStart_of_split e
      have ht : m ∈ (h.ancestors n).tail := by
        have e : (h.ancestors n).tail = back ++ more := congrArg List.tail hmore.symm
        rw [e]
        exact List.mem_append_left _ hback
      obtain ⟨c, hcls, hmem, hname⟩ := declared?_eq_some hd
      obtain rfl := class?_name hcls
      have hnone := ((hc.conforms _ c hcls).fields v (ClassDecl.mem_fields.mpr hmem)).1 m ht
      have hname : v.name = member := hname
      rw [hname, hdm] at hnone
      cases hnone

/-- Of two classes of one line that have a field of a name, either has the one that is declared
above the other. -/
theorem Conforming.field_above (hc : h.Conforming) (hr : b ∈ h.ancestors a ∨ a ∈ h.ancestors b)
    (hv : h.member? a member = some (.var v)) (hw : h.member? b member = some (.var w)) :
    ∃ n ∈ h.ancestors b, h.declared? member n = some (.var v) := by
  rcases hr with hr | hr
  · exact (hc.field_one hr hv hw).2
  · obtain ⟨rfl, n, hn, hd⟩ := hc.field_one hr hw hv
    exact ⟨n, ancestors_trans hr hn, hd⟩

/-- A value of a class may stand for one of another class only if it is one of a class below. -/
theorem ancestor_of_accepts (ha : (h.class? a).isSome = true)
    (hacc : h.accepts (.named a) (.named b) = true) : a ∈ h.ancestors b := by
  have hacc : (a == b || h.isSubclass b a || h.implements b a) = true := hacc
  rw [Bool.or_eq_true, Bool.or_eq_true] at hacc
  rcases hacc with (he | hs) | hi
  · rw [beq_iff_eq.mp he]
    exact List.mem_cons_self
  · exact of_decide_eq_true hs
  · -- what is listed is an interface
    obtain ⟨c, -, hl⟩ := List.any_eq_true.mp hi
    have hi := (listed_isSome (of_decide_eq_true hl)).2
    unfold class? at ha
    unfold iface? at hi
    cases hg : h.get? a with
    | none =>
      rw [hg] at ha
      cases ha
    | some t =>
      rw [hg] at ha hi
      cases t with
      | cls _ => cases hi
      | iface _ => cases ha

end Hierarchy

/-! ## 3. Offsets -/

theorem ObjectLayout.fieldOffset?_bounds {o : ObjectLayout} {name : String} {k : Nat}
    (h : o.fieldOffset? name = some k) : 4 ∣ k ∧ 4 ≤ k ∧ k < o.size := by
  obtain ⟨n, hn, rfl⟩ := Option.map_eq_some_iff.mp h
  obtain ⟨hlt, -⟩ := List.findIdx?_eq_some_iff_getElem.mp hn
  unfold size offsetAt wordSize
  omega

namespace Program

variable {p : Program} {l : Layout}

/-- In the objects of a class and of all classes that derive from it, the field of the name is the
word at this offset. -/
def FieldAt (p : Program) (l : Layout) (C name : String) (k : Nat) : Prop :=
  ∀ D, p.analyze.hierarchy.isSubclass D C = true → ∃ o, l.class? D = some o ∧
    o.fieldOffset? name = some k ∧ 4 ∣ k ∧ 4 ≤ k ∧ k < o.size

/-- **A field has the offset of its name in the objects of all classes below.** -/
theorem Named.field_stays (h : p.Named) (ha : p.analyze.hierarchy.Acyclic) {cs : List ClassDecl}
    (hs : p.analyze.hierarchy.Sorts cs) (hl : l.Arranged p.analyze.hierarchy cs) {a b : String}
    {c d : ClassDecl} {v : VarDecl} (hb : b ∈ p.analyze.hierarchy.ancestors a)
    (hc : p.analyze.hierarchy.class? a = some c) (hd : p.analyze.hierarchy.class? b = some d)
    (hv : v ∈ d.fields) : ∃ k, l.fieldOffset? v.id = some k ∧
      (p.analyze.hierarchy.object c).fieldOffset? v.name = some k := by
  have hn : v.name ∈ (p.analyze.hierarchy.object d).fields.map VarDecl.name :=
    ObjectLayout.name_mem_fields hv
  obtain ⟨n, hpos⟩ := Option.isSome_iff_exists.mp (position?_isSome hn)
  have hmem : v ∈ (p.analyze.hierarchy.object d).fields :=
    ObjectLayout.mem_fields (h.nodup_fields (h.class_mem hd)) hv
  have hat : (p.analyze.hierarchy.object d).fields[n]? = some v :=
    (getElem?_position? hpos).trans (find?_key (ObjectLayout.nodup_along d _).1 hmem)
  have hapart := h.numbered.apart hs
  refine ⟨ObjectLayout.offsetAt n, ?_, ?_⟩
  -- the offset that is looked up by the field's own id
  · exact (hl.fieldOffset?_iff ha hs hapart).mpr
      ⟨d, (hs.mem_iff d).mpr ⟨b, hd⟩, n, v, hat, rfl, rfl⟩
  -- the offset by name in the object below, whose inherited fields come first
  · unfold ObjectLayout.fieldOffset?
    rw [position?_stays (ha.object_stays hb hc hd).1 hpos]
    rfl

/-- A field that an ancestor of a class declares lies at its offset in all objects of the class. -/
theorem Named.field_at (h : p.Named) (hl : Layout.ofProgram p.analyze.hierarchy p = .ok l)
    {C n : String} {v : VarDecl} (hC : (p.analyze.hierarchy.class? C).isSome = true)
    (hn : n ∈ p.analyze.hierarchy.ancestors C)
    (hv : p.analyze.hierarchy.declared? v.name n = some (.var v)) :
    ∃ k, l.fieldOffset? v.id = some k ∧ p.FieldAt l C v.name k := by
  obtain ⟨ha, cs, hs, har⟩ := Layout.of_ofProgram hl
  obtain ⟨d, hd, hmem, -⟩ := Hierarchy.declared?_eq_some hv
  have hvd : v ∈ d.fields := ClassDecl.mem_fields.mpr hmem
  obtain ⟨c, hc⟩ := Option.isSome_iff_exists.mp hC
  obtain ⟨k, hk, -⟩ := h.field_stays ha hs har hn hc hd hvd
  refine ⟨k, hk, fun D hD => ?_⟩
  have hD : C ∈ p.analyze.hierarchy.ancestors D := of_decide_eq_true hD
  obtain ⟨e, he⟩ := Option.isSome_iff_exists.mp ((Hierarchy.class_of_ancestor hD).trans hC)
  obtain ⟨k', hk', hoff⟩ :=
    h.field_stays ha hs har (Hierarchy.ancestors_trans hD hn) he hd hvd
  obtain rfl := Option.some.inj (hk.symm.trans hk')
  have ho : l.class? D = some (p.analyze.hierarchy.object e) := by
    rw [Layout.class?_of_ofProgram hl, he]
    rfl
  exact ⟨_, ho, hoff, ObjectLayout.fieldOffset?_bounds hoff⟩

end Program

/-! ## 4. The code of an access -/

namespace Surroundings

/-- Code that reads or writes a field behind a base goes to this offset from the address that the
base leaves. -/
structure Reaches (r : Surroundings) (n : Node) (b : Expr) (i : Ident) (k : Nat) : Prop where
  place : ∀ x s, Target.ofField r i x s = .ok ⟨.behind x k, [], s⟩
  reads : ∀ s o, (Expr.field n b i).eval r s = .ok o → ∃ y x t, b.eval r s = .ok y ∧
    y.value = some x ∧ o.code = y.code ++ [.load t x k] ∧ o.value = some t
  writes : ∀ s o, (Expr.field n b i).target r s = .ok o → ∃ y x, b.eval r s = .ok y ∧
    y.value = some x ∧ o.code = y.code ∧ o.value = .behind x k

/-- Code that reads or writes what a bare name stands for goes to this word. -/
structure Finds (r : Surroundings) (n : Node) (i : Ident) (w : Location) : Prop where
  reads : ∀ s o, (Expr.name n i).eval r s = .ok o → o = ⟨some w, [], s⟩
  writes : ∀ s, (Expr.name n i).target r s = .ok ⟨.word w, [], s⟩

variable {r : Surroundings} {i : Ident} {v : VarDecl} {n : Node} {k : Nat}

theorem fieldOffset_run (hv : r.notes.var? i = some v) (hk : r.layout.fieldOffset? v.id = some k)
    (s : Supply) : r.fieldOffset i s = .ok ⟨k, [], s⟩ := by
  have e : r.varOf i s = .ok ⟨v, [], s⟩ := by
    unfold varOf
    rw [hv]
    rfl
  unfold fieldOffset
  rw [bind_silent e, hk]
  rfl

theorem ofField_run (hv : r.notes.var? i = some v) (hk : r.layout.fieldOffset? v.id = some k)
    (x : Location) (s : Supply) : Target.ofField r i x s = .ok ⟨.behind x k, [], s⟩ := by
  unfold Target.ofField
  rw [bind_silent (fieldOffset_run hv hk s)]
  rfl

/-- A field that has an offset is reached there. -/
theorem reaches (hv : r.notes.var? i = some v) (hk : r.layout.fieldOffset? v.id = some k)
    (n : Node) (b : Expr) : r.Reaches n b i k where
  place := ofField_run hv hk
  reads s o ho := by
    unfold Expr.eval at ho
    obtain ⟨a, ha, y, hy, rfl⟩ := bind_run_ok.mp (noDouble_ok ho)
    obtain ⟨z, hz, hx, hc, hs⟩ := needed_from ha
    rw [bind_silent (ofField_run hv hk a.value a.supply)] at hy
    obtain ⟨t, ht, u, hu, rfl⟩ := bind_run_ok.mp hy
    cases hu
    have ht : Code.Emit.load a.value k a.supply = .ok t := ht
    refine ⟨z, a.value, t.value, hz, hx, ?_, rfl⟩
    rw [List.append_nil, toTemp_code ht, hc]
  writes s o ho := by
    unfold Expr.target at ho
    obtain ⟨a, ha, y, hy, rfl⟩ := bind_run_ok.mp ho
    obtain ⟨z, hz, hx, hc, hs⟩ := needed_from ha
    rw [ofField_run hv hk] at hy
    cases hy
    exact ⟨z, a.value, hz, hx, by rw [List.append_nil, hc], rfl⟩

/-- A variable that has an offset and no slot is found behind the object at hand. -/
theorem finds (hv : r.notes.var? i = some v) (hslot : r.slot? v.id = none)
    (hk : r.layout.fieldOffset? v.id = some k) {t : Location} (ht : r.this = some t) (n : Node) :
    r.Finds n i (.based t k i.name) := by
  have hrun : ∀ s, Target.ofName r i s = .ok ⟨.word (.based t k i.name), [], s⟩ := fun s => by
    have e : r.varOf i s = .ok ⟨v, [], s⟩ := by
      unfold varOf
      rw [hv]
      rfl
    have et : r.thisLocation s = .ok ⟨t, [], s⟩ := by
      unfold thisLocation
      rw [ht]
      rfl
    unfold Target.ofName
    rw [bind_silent e, hslot]
    dsimp only
    rw [bind_silent (fieldOffset_run hv hk s), bind_silent et]
    rfl
  constructor
  · intro s o ho
    unfold Expr.eval at ho
    have ho := noDouble_ok ho
    rw [bind_silent (hrun s)] at ho
    cases ho
    rfl
  · intro s
    unfold Expr.target
    exact hrun s

end Surroundings

/-! ## 5. Accesses in a program -/

/-- A field behind a base is one of the class around, which is related to the type of the base, and
has a field of that name as well. -/
theorem Expr.Checked.field_goes {r : Rules} {f : Forest} {a : Notes} {n : Node} {x : Expr}
    {i : Ident} (h : (Expr.field n x i).Checked r f a) : ∃ o d w v, a.typeOf x = .named o ∧
      r.member? o i.name = some (.var w) ∧ r.cls? = some d ∧ r.member? d i.name = some (.var v) ∧
      (r.Accepts (.named d) (.named o) ∨ r.Accepts (.named o) (.named d)) ∧
      a.var? i = some v := by
  obtain ⟨o, d, w, v, hx, hw, hd, hv, hacc, -⟩ := (h.noted _).mpr rfl
  obtain ⟨c, hc, hu, hk⟩ := h
  obtain ⟨hxk, hf, -, hb⟩ := Verdict.clean_at.mp hk
  have hux : ∀ y ∈ x.uses c.forest, y.Settled c.notes := fun y hy => (hu y hy).1
  have ht : a.typeOf x = .named o := ((Expr.noted hc.follows hux hxk _).mp hx).symm
  refine ⟨o, d, w, v, ht, hw, hd, hv, hacc, ?_⟩
  -- the rule binds the name to the field of the class around
  have hbind : (i, Decl.var v) ∈ (c.fieldRule (x.check c).type i).binding := by
    rw [← Expr.type_kept hxk, ht] at hf ⊢
    rw [← hc.follows.member_eq] at hw hv
    rw [← hc.follows.cls_eq] at hd
    obtain ⟨e, he, rfl⟩ := Option.map_eq_some_iff.mp hd
    unfold Context.fieldRule at hf ⊢
    dsimp only at hf ⊢
    rw [hw, he] at hf ⊢
    dsimp only at hf ⊢
    rw [hv] at hf ⊢
    dsimp only at hf ⊢
    split at hf
    · rename_i hacc
      rw [if_pos hacc]
      rfl
    · cases hf
  have hdecl : a.decl? i = some (.var v) := hb _ hbind
  unfold Notes.var?
  rw [hdecl]
  rfl

/-- A bare name that was checked stands for a variable. -/
theorem Expr.Checked.name_goes {r : Rules} {f : Forest} {a : Notes} {n : Node} {i : Ident}
    (h : (Expr.name n i).Checked r f a) : ∃ v, a.var? i = some v := by
  obtain ⟨c, hc, hu, hk⟩ := h
  exact (Expr.name_placed hc.follows (hu _ List.mem_cons_self) hk).imp fun _ h => h.1

namespace Program

variable {p : Program} {l : Layout} {cls : Option ClassDecl} {n : Node} {b : Expr} {i : Ident}
  {C : String} {v : VarDecl}

/-- A variable that code may give a slot: a global, a formal or a local. -/
def Slotted (p : Program) (v : VarDecl) : Prop :=
  Decl.var v ∈ p.decls ∨ ∃ cls g, (cls, g) ∈ p.functions ∧ v ∈ g.vars

/-- A field of a class of the program. -/
def IsField (p : Program) (v : VarDecl) : Prop := ∃ c, Decl.cls c ∈ p.decls ∧ v ∈ c.fields

/-- What code of the program may depend on: its notes, this layout, and slots for globals, formals
and locals. -/
structure Surrounds (p : Program) (l : Layout) (r : Surroundings) : Prop where
  notes_eq : r.notes = p.analyze.notes
  layout_eq : r.layout = l
  slots : ∀ i x, r.slot? i = some x → ∃ v, p.Slotted v ∧ v.id = i

theorem class_of_method {c : ClassDecl} {g : FnDecl} (hg : (some c, g) ∈ p.functions) :
    Decl.cls c ∈ p.decls := by
  rcases mem_functions.mp hg with ⟨e, -⟩ | ⟨c', e, hc, -⟩
  · cases e
  · obtain rfl := Option.some.inj e
    exact hc

/-- No field has the number of a variable that gets a slot. -/
theorem Named.not_slotted (h : p.Named) {u : VarDecl} (hv : p.IsField v) (hu : p.Slotted u) :
    u.id ≠ v.id := by
  intro e
  obtain ⟨c, hc, hvc⟩ := hv
  have hmem : Decl.var v ∈ (TypeDecl.cls c).opening.scope.decls := ClassDecl.mem_fields.mp hvc
  have ho : (TypeDecl.cls c).opening ∈ p.openings := opening_mem (mem_types.mpr hc)
  have hn := List.nodup_append.mp h.numbered.nodup_declared
  have hdecl : v.id ∈ (TypeDecl.cls c).opening.scope.decls.map Decl.id := List.mem_map_of_mem hmem
  rcases hu with hd | ⟨cls, g, hg, hu⟩
  · -- a global is declared at the top level
    exact hn.2.2 _ (List.mem_map_of_mem hd) _ (List.mem_flatMap.mpr ⟨_, ho, hdecl⟩) e
  -- a local or formal is declared in a scope without an owner
  · obtain ⟨o, hog, hd⟩ := FnDecl.mem_vars.mp hu
    have hin : u.id ∈ o.scope.decls.map Decl.id := List.mem_map_of_mem hd
    have heq := eq_of_mem_flatMap hn.2.1 ho ((openings_sublist hg).subset hog) hdecl (e ▸ hin)
    cases (g.opens_variables o hog).2 c.owner (heq ▸ rfl)

/-- What is bound to a field behind a base of a class lies at the offset of its name in the objects
of that class. -/
theorem Clean.field_behind (h : p.Clean) (hf : p.Flat)
    (hl : Layout.ofProgram p.analyze.hierarchy p = .ok l) (he : p.Contains cls (.field n b i))
    (ht : p.analyze.notes.typeOf b = .named C)
    (hC : (p.analyze.hierarchy.class? C).isSome = true) :
    ∃ v k, p.analyze.notes.var? i = some v ∧ l.fieldOffset? v.id = some k ∧
      p.FieldAt l C i.name k := by
  obtain ⟨g, body, hg, hb, he⟩ := he
  obtain ⟨o, d, w, v, hto, hw, hd, hv, hacc, hvar⟩ :=
    (h.named.all_checked hf h.typed.1 hg hb _ he).field_goes
  obtain rfl := Ty.named.inj (hto.symm.trans ht)
  obtain ⟨c, rfl, rfl⟩ := Option.map_eq_some_iff.mp hd
  have hc := class_of_method hg
  have hcls := h.named.class?_eq hc
  obtain ⟨k, hk⟩ := Option.isSome_iff_exists.mp hC
  obtain rfl := Hierarchy.class?_name hk
  have hv : p.scopes.member? c.name i.name = some (.var v) := hv
  have hw : p.scopes.member? k.name i.name = some (.var w) := hw
  rw [h.named.member_class hf hc] at hv
  rw [h.named.member_class hf (h.named.class_mem hk)] at hw
  -- The checker let the access pass only between classes on one chain.
  have hrelated : k.name ∈ p.analyze.hierarchy.ancestors c.name ∨
      c.name ∈ p.analyze.hierarchy.ancestors k.name :=
    hacc.symm.imp (Hierarchy.ancestor_of_accepts hC)
      (Hierarchy.ancestor_of_accepts (h := p.analyze.hierarchy) (by rw [hcls]; rfl))
  obtain ⟨m, hm, hd⟩ := (h.conforming hf).field_above hrelated hv hw
  obtain ⟨-, -, -, hname⟩ := Hierarchy.declared?_eq_some hd
  have hname : v.name = i.name := hname
  rw [← hname] at hd
  obtain ⟨off, hoff, hat⟩ := h.named.field_at hl hC hm hd
  exact ⟨v, off, hvar, hoff, hname ▸ hat⟩

/-- A field that a class has lies at the offset of its name in the objects of the class. -/
theorem Named.member_at (h : p.Named) (hf : p.Flat)
    (hl : Layout.ofProgram p.analyze.hierarchy p = .ok l) {c : ClassDecl}
    (hc : Decl.cls c ∈ p.decls) {name : String}
    (hm : p.scopes.member? c.name name = some (.var v)) :
    ∃ k, l.fieldOffset? v.id = some k ∧ p.FieldAt l c.name name k := by
  rw [h.member_class hf hc] at hm
  obtain ⟨m, hm', hd⟩ := List.exists_of_findSome?_eq_some hm
  obtain ⟨-, -, -, hname⟩ := Hierarchy.declared?_eq_some hd
  have hname : v.name = name := hname
  rw [← hname] at hd ⊢
  exact h.field_at hl (by rw [h.class?_eq hc]; rfl) hm' hd

/-- A bare name stands for a variable of the function, or for what is found around it. -/
theorem Named.name_goes (h : p.Named) {g : FnDecl} {body : Block} (hg : (cls, g) ∈ p.functions)
    (hb : g.body = some body) (he : Part.expr (.name n i) ∈ body.parts)
    (hv : p.analyze.notes.var? i = some v) :
    v ∈ g.vars ∨ (p.around cls).lookup? i.name = some (.var v) := by
  obtain ⟨ho, hu⟩ := h.body_known hg hb
  obtain ⟨k, hk, hen⟩ := h.scope_of_fn hg
  have hin : (p.context cls g).forest.Inside (p.around cls) g.openings := by
    show ((p.around cls).enterFn g).Inside _ _
    rw [hen]
    exact (Forest.inside_self _ _).open hk List.mem_cons_self
  have hsub : body.openings ⊆ g.openings := fun o ho => List.mem_cons_of_mem _ (by rwa [hb])
  obtain ⟨f, hf', hus⟩ := body.all_sought hin ho hsub (List.Subset.refl _) _ he n i rfl
  obtain ⟨d, hlook, -, hd⟩ := Forest.use_settled.mp (hu _ hus).2
  have hd' : p.analyze.notes.decl? i = some d := hd
  obtain rfl : d = .var v := by
    unfold Notes.var? at hv
    rw [hd'] at hv
    cases d <;> cases hv
    rfl
  exact (hf' _ _ hlook).imp_left fun ⟨o, hog, hdecl⟩ => FnDecl.mem_vars.mpr ⟨o, hog, hdecl⟩

/-- What a bare name in a method is bound to, if it is a field, lies at the offset of its name in
the objects of the class around. -/
theorem Clean.field_bare (h : p.Clean) (hf : p.Flat)
    (hl : Layout.ofProgram p.analyze.hierarchy p = .ok l) {c : ClassDecl}
    (he : p.Contains (some c) (.name n i)) (hv : p.analyze.notes.var? i = some v)
    (hfield : p.IsField v) :
    ∃ k, l.fieldOffset? v.id = some k ∧ p.FieldAt l c.name i.name k := by
  obtain ⟨g, body, hg, hb, he⟩ := he
  rcases h.named.name_goes hg hb he hv with hvg | hlook
  · exact absurd rfl (h.named.not_slotted hfield (.inr ⟨some c, g, hg, hvg⟩))
  · rcases h.named.around_member hf hg hlook with ⟨hd, -⟩ | ⟨c', e, hc, hm⟩
    · exact absurd rfl (h.named.not_slotted hfield (.inl hd))
    · obtain rfl := Option.some.inj e
      exact h.named.member_at hf hl hc hm

/-- Where every variable of a function has its word, nothing but the notes, the layout and slots
for variables is given. -/
theorem surrounds {g : FnDecl} {f : Frame} {m : Bool} {n : Int} {body : List Instr}
    (hg : (cls, g) ∈ p.functions) (hs : g.Stores p l m f n body)
    {r : Surroundings} (hr : r.Resides p l f) : p.Surrounds l r where
  notes_eq := hr.notes_eq
  layout_eq := hr.layout_eq
  slots i x hx := by
    rcases hr.slots _ (Table.mem_of_find hx) with ⟨v, e, hv⟩ | ⟨v, o, hv, -, e⟩
    · exact ⟨v, .inr ⟨cls, g, hg, hs.mem_vars hv⟩, e.symm⟩
    · exact ⟨v, .inl hv, (congrArg Prod.fst e).symm⟩

/-- In the code of a program, every expression of a function was coded where only the notes, the
layout, slots for variables and, in a method, the object at hand are given. -/
theorem Clean.coded (h : p.Clean) (hf : p.Flat) {code : List Instr}
    (hc : p.lower p.analyze.notes l = .ok code) {e : Expr} (he : p.Contains cls e) :
    ∃ r, p.Surrounds l r ∧ (cls.isSome = true → r.this = some thisParam) ∧ e.Coded r code := by
  obtain ⟨r, cs, hr, rfl, hcs⟩ := lower_chunks hc
  obtain ⟨g, b, hg, hb, he⟩ := he
  obtain ⟨k, hk, hmakes⟩ := forall₂_left hcs (function_mem_sources.mpr hg)
  cases hmakes with
  | function hx =>
    obtain ⟨f, hs⟩ := FnDecl.lowerBody_stores (globals_reside hr) (h.plain hg) hx
    obtain ⟨r', hr', hthis, hcoded⟩ := hs.exprs hf e (by rw [hb]; exact he)
    exact ⟨r', surrounds hg hs hr', hthis, hcoded.within (Chunk.body_infix hk)⟩

/-- **Accesses to fields go to the right word in every class.** Behind a base of a class, and behind
the object at hand, the code goes to one offset: the one that the field of the name has in the
objects of the class and of all classes that derive from it. -/
theorem Clean.fields_agree (h : p.Clean) (hf : p.Flat) (ha : p.analyze.hierarchy.Acyclic) :
    ∃ l, Layout.ofProgram p.analyze.hierarchy p = .ok l ∧
      (∀ cls n b i C, p.Contains cls (.field n b i) → p.analyze.notes.typeOf b = .named C →
        (p.analyze.hierarchy.class? C).isSome = true →
          ∃ k, p.FieldAt l C i.name k ∧ ∀ r, p.Surrounds l r → r.Reaches n b i k) ∧
      (∀ c n i v, p.Contains (some c) (.name n i) → p.analyze.notes.var? i = some v →
        p.IsField v → ∃ k, p.FieldAt l c.name i.name k ∧
          ∀ r t, p.Surrounds l r → r.this = some t → r.Finds n i (.based t k i.name)) ∧
      ∀ code, p.lower p.analyze.notes l = .ok code → ∀ cls e, p.Contains cls e →
        ∃ r, p.Surrounds l r ∧ (cls.isSome = true → r.this = some thisParam) ∧ e.Coded r code := by
  obtain ⟨l, -, hl, -⟩ := Layout.ofProgram_arranged (p := p) ha
  refine ⟨l, hl, fun cls n b i C he ht hC => ?_, fun c n i v he hv hfield => ?_,
    fun code hc cls e he => h.coded hf hc he⟩
  · obtain ⟨v, k, hv, hk, hat⟩ := h.field_behind hf hl he ht hC
    exact ⟨k, hat, fun r hr => Surroundings.reaches (hr.notes_eq ▸ hv) (hr.layout_eq ▸ hk) n b⟩
  · obtain ⟨k, hk, hat⟩ := h.field_bare hf hl he hv hfield
    refine ⟨k, hat, fun r t hr ht => ?_⟩
    have hslot : r.slot? v.id = none := by
      -- A field never has a slot, so its bare name goes through `this`.
      cases hs : r.slot? v.id with
      | none => rfl
      | some x =>
        obtain ⟨u, hu, e⟩ := hr.slots _ _ hs
        exact absurd e (h.named.not_slotted hfield hu)
    exact Surroundings.finds (hr.notes_eq ▸ hv) hslot (hr.layout_eq ▸ hk) ht n

end Program

/-- Pixels are points with a color. A pixel uses the place of another point, and a point that of a
pixel. -/
def pixels : Program := .number [
  .cls ⟨.nowhere, .called "Point", none, [], [.var (.int "x"), .var (.int "y"),
    .fn ⟨.nowhere, .called "follow", .prim 0 .int, [.called "p" (.named 0 (.called "Pixel"))],
      some ⟨.nowhere, [],
        [.set (.use "x") (.field .nowhere (.use "p") (.called "x")),
          .ret .nowhere (some (.use "y"))]⟩⟩]⟩,
  .cls ⟨.nowhere, .called "Pixel", some (.called "Point"), [], [.var (.int "color"),
    .fn ⟨.nowhere, .called "mix", .prim 0 .int, [.called "p" (.named 0 (.called "Point"))],
      some ⟨.nowhere, [],
        [.set (.field .nowhere (.use "p") (.called "y"))
            (.field .nowhere (.this .nowhere) (.called "color")),
          .ret .nowhere (some (.binary .nowhere .add (.use "x") (.use "color")))]⟩⟩]⟩,
  .fn ⟨.nowhere, .called "main", .prim 0 .void, [], some ⟨.nowhere,
    [.called "p" (.named 0 (.called "Pixel"))],
    [.set (.use "p") (.new .nowhere (.called "Pixel")),
      .print .nowhere [.send .nowhere (.use "p") (.called "mix") [.use "p"],
        .send .nowhere (.use "p") (.called "follow") [.use "p"]]]⟩⟩]

/-- Points and pixels agree on where the fields lie. -/
theorem fields_agree_pixels : pixels.Clean ∧ pixels.Flat ∧ pixels.analyze.hierarchy.Acyclic ∧
    ∃ l, Layout.ofProgram pixels.analyze.hierarchy pixels = .ok l ∧
      (∀ cls n b i C, pixels.Contains cls (.field n b i) →
        pixels.analyze.notes.typeOf b = .named C →
          (pixels.analyze.hierarchy.class? C).isSome = true →
            ∃ k, pixels.FieldAt l C i.name k ∧ ∀ r, pixels.Surrounds l r → r.Reaches n b i k) ∧
      (∀ c n i v, pixels.Contains (some c) (.name n i) → pixels.analyze.notes.var? i = some v →
        pixels.IsField v → ∃ k, pixels.FieldAt l c.name i.name k ∧
          ∀ r t, pixels.Surrounds l r → r.this = some t → r.Finds n i (.based t k i.name)) ∧
      ∀ code, pixels.lower pixels.analyze.notes l = .ok code → ∀ cls e, pixels.Contains cls e →
        ∃ r, pixels.Surrounds l r ∧ (cls.isSome = true → r.this = some thisParam) ∧
          e.Coded r code := by
  have hclean : pixels.Clean :=
    ⟨Program.number_numbered _, List.isEmpty_iff.mp (by decide +kernel)⟩
  have hflat : pixels.Flat := of_decide_eq_true rfl
  have hacyclic : pixels.analyze.hierarchy.Acyclic := by decide +kernel
  exact ⟨hclean, hflat, hacyclic, hclean.fields_agree hflat hacyclic⟩

end DecafLang
