import DecafLang.Syntax.Handwritten
import DecafLang.Proofs.Parameters
import DecafLang.Proofs.Dispatch
import DecafLang.Proofs.CheckedExpressions
import DecafLang.Proofs.Lineage
import DecafLang.Proofs.Labels

/-!
# Calls

What the callers and the callees of a program agree on.

* A call of a checked program goes to a function with as many formals as the call has arguments; a
  method that is called through a table has as many in every class that the object may be of
  (`Program.Clean.offers`).
* `Program.Calls` is the contract between the code in front of a call, what is pushed, and what is
  called. **Every call in the code of a checked program fulfils it, in a site of its own**
  (`Program.Clean.calls_agree`), and every function finds its parameters by their positions.
* A label alone does not tell what is called: **a function may have the name of one of the
  runtime.**
  Everything that has the label of a call takes what is pushed if such functions take as many
  parameters (`Program.Calls.takes`).
-/

namespace DecafLang

open Code (Builtin Emit Emitted Instr Label Location Supply)
open Lowering

/-! ## 1. Calls in a body that was checked -/

section

variable {r : Rules} {f : Forest} {a : Notes} {n : Node} {i : Ident} {args : List Expr}

theorem Expr.Fit.length_eq : ∀ {vs : List VarDecl} {es : List Expr}, Expr.Fit r vs es →
    vs.length = es.length
  | [], [], _ => rfl
  | _ :: _, _ :: _, h => congrArg (· + 1) h.2.length_eq

/-- Each argument leaves one value. -/
theorem Expr.evalAll_length {r : Surroundings} {es : List Expr} {s : Supply}
    {o : Emitted (List Location)} (h : Expr.evalAll r es s = .ok o) :
    o.value.length = es.length := by
  induction es generalizing s o with
  | nil =>
    cases h
    rfl
  | cons e es ih =>
    obtain ⟨x, -, y, hy, rfl⟩ := Code.Emit.bind_run_ok.mp h
    obtain ⟨z, hz, w, hw, rfl⟩ := Code.Emit.bind_run_ok.mp hy
    cases hw
    exact congrArg (· + 1) (ih hz)

/-- A call by a bare name goes to a function in sight that has as many formals. -/
theorem Expr.Checked.call_goes (h : (Expr.call n i args).Checked r f a) :
    ∃ g, a.fn? i = some g ∧ f.lookup? i.name = some (.fn g) ∧ g.formals.length = args.length := by
  obtain ⟨g, hg, hfit, -⟩ := (h.noted _).mpr rfl
  obtain ⟨c, hc, hu, -⟩ := h
  obtain ⟨h₀, h₁⟩ := hu _ List.mem_cons_self
  -- The notes at hand and the final ones were both filled by the same look-up.
  obtain ⟨d, hl, -, hd⟩ := Forest.use_settled.mp h₀
  obtain ⟨d', hl', -, hd'⟩ := Forest.use_settled.mp h₁
  rw [hc.follows.notes_eq, hg] at hd
  obtain rfl := Option.some.inj hd
  obtain rfl := Option.some.inj (hl.symm.trans hl')
  refine ⟨g, ?_, hc.fns _ g hl, hfit.length_eq⟩
  unfold Notes.fn?
  rw [hd']
  rfl

/-- A call behind a base that is not the length of an array goes to a member of the type of the
base, which has as many formals. -/
theorem Expr.Checked.send_goes {x : Expr} (h : (Expr.send n x i args).Checked r f a)
    (hl : ¬ ((a.typeOf x).isArray && i.name == "length") = true) :
    ∃ o g, a.typeOf x = .named o ∧ r.member? o i.name = some (.fn g) ∧ a.fn? i = some g ∧
      g.formals.length = args.length := by
  obtain ⟨u, hx, hor⟩ := (h.noted _).mpr rfl
  obtain ⟨c, hc, hu, hk⟩ := h
  obtain ⟨hxa, hf, -, hb⟩ := Verdict.clean_at.mp hk
  have hxk := (Report.clean_append.mp hxa).1
  have hux : ∀ y ∈ x.uses c.forest, y.Settled c.notes := fun y hy =>
    (hu y (List.mem_append_left _ hy)).1
  obtain rfl := (Expr.noted hc.follows hux hxk u).mp hx
  have ht : a.typeOf x = (x.check c).type := Expr.type_kept hxk
  rw [Bool.and_eq_true, beq_iff_eq] at hl
  rcases hor with ⟨harr, hi, -, -⟩ | ⟨o, g, ho, hm, hfit, -⟩
  · exact absurd ⟨harr, hi⟩ hl
  · rw [ht] at hl hx ho
    obtain ⟨o', g', ho', hm', hg', -, -⟩ :=
      ((Context.send_binds hf).resolve_left hx.proper.ne_error).resolve_left
        fun h => hl ⟨h.1, h.2.1⟩
    obtain rfl := Ty.named.inj (ho.symm.trans ho')
    rw [hc.follows.member_eq, hm] at hm'
    obtain rfl := Decl.fn.inj (Option.some.inj hm')
    have hd : a.decl? i = some (.fn g) := hb _ hg'
    refine ⟨o, g, ht.trans ho, hm, ?_, hfit.length_eq⟩
    unfold Notes.fn?
    rw [hd]
    rfl

end

namespace Program

variable {p : Program} {l : Layout} {cls : Option ClassDecl} {g : FnDecl}

/-- Around a function, a name stands for a declaration at the top level, or for a member of the
class whose method the function is. -/
theorem Named.around_member (h : p.Named) (hf : p.Flat) (hg : (cls, g) ∈ p.functions)
    {name : String} {d : Decl} (hl : (p.around cls).lookup? name = some d) :
    (d ∈ p.decls ∧ d.name = name) ∨
      ∃ c, cls = some c ∧ Decl.cls c ∈ p.decls ∧ p.scopes.member? c.name name = some d := by
  rcases mem_functions.mp hg with ⟨rfl, -⟩ | ⟨c, rfl, hc, -⟩
  · exact .inl (h.lookup_global hl)
  · have ho : p.scopes.ownerScope? c.name = some (p.scopes.slotOf c.node.id) := by
      rw [h.numbered.ownerScope?_eq hf]
      exact congrArg (Option.map _) (h.type?_class hc)
    have hm : p.scopes.member? c.name name = p.scopes.within? (p.scopes.slotOf c.node.id) name := by
      unfold Forest.member?
      rw [ho, Option.bind_some]
    -- Around a method there are two scopes: that of its class, then the global one.
    have e : p.around (some c) = _ := h.numbered.enterClass_eq hc
    rw [e] at hl
    have hl : List.findSome? (fun k => p.scopes.within? k name)
      [p.scopes.slotOf c.node.id, Forest.globalId] = some d := hl
    rw [findSome?_cons_or] at hl
    rcases Option.or_eq_some_iff.mp hl with hl | ⟨-, hl⟩
    · exact .inr ⟨c, rfl, hc, hm.trans hl⟩
    · refine .inl (h.lookup_global ?_)
      unfold Forest.lookup? Forest.active
      rw [h.numbered.inner_eq]
      exact hl

/-- The layout of a program has its classes, and slots for their methods. -/
theorem Named.layout_holds (h : p.Named) (hl : Layout.ofProgram p.analyze.hierarchy p = .ok l) :
    (∀ name, (l.class? name).isSome = true → (p.analyze.hierarchy.class? name).isSome = true) ∧
      ∀ i, (l.methodSlot? i).isSome = true →
        ∃ c, Decl.cls c ∈ p.decls ∧ ∃ m ∈ c.methods, m.id = i := by
  obtain ⟨ha, -⟩ := Layout.of_ofProgram hl
  obtain ⟨l', cs, hok, hholds, hcs, -⟩ := Layout.ofProgram_ok (p := p) ha fun n c hn =>
    h.nodup_fields (h.class_iff.mp ⟨n, hn⟩)
  cases hl.symm.trans hok
  refine ⟨fun name hn => ?_, fun i hi => ?_⟩
  · obtain ⟨c, hc, rfl⟩ := (hholds.classes name).mp hn
    rw [h.class?_eq (h.class_iff.mp ((hcs c).mp hc))]
    rfl
  · obtain ⟨c, hc, m, hm, e⟩ := (hholds.methods i).mp hi
    exact ⟨c, h.class_iff.mp ((hcs c).mp hc), m, hm, e⟩

/-! ## 2. What a call promises -/

section

variable (p : Program) (l : Layout)

/-- The expression stands in the body of a function of this class, or of no class. -/
def Contains (cls : Option ClassDecl) (e : Expr) : Prop :=
  ∃ g b, (cls, g) ∈ p.functions ∧ g.body = some b ∧ Part.expr e ∈ b.parts

/-- In the tables of a class and of all classes that derive from it, the slot holds the method that
the class has under the name, and each of these methods has so many formals. -/
def Offers (C member : String) (slot n : Nat) : Prop :=
  (p.analyze.hierarchy.class? C).isSome = true ∧
    ∀ D, p.analyze.hierarchy.isSubclass D C = true → ∃ o e, l.class? D = some o ∧
      o.methods[slot]? = some e ∧ p.scopes.member? D member = some (.fn e.method) ∧
        e.method.formals.length = n

/-- **What stands in front of the site of a call, what is pushed there, and what is called:** the
values of the arguments in their order, behind the object that a method is called for, and whatever
may be called takes as many parameters. -/
inductive Calls : Code.Contract
  /-- A function of the runtime. -/
  | runtime {first : List Instr} {ps : List Location} {dst : Option Location} (b : Builtin)
      (hn : ps.length = b.argCount) : Calls first ps (.call b.label dst)
  /-- A function at the top level. -/
  | function {first : List Instr} {dst : Option Location} {r : Surroundings}
      {cls : Option ClassDecl} {n : Node} {i : Ident} {args : List Expr} {g : FnDecl} {s : Supply}
      {o : Emitted (List Location)} (hr : r.notes = p.analyze.notes ∧ r.layout = l)
      (he : p.Contains cls (.call n i args)) (hg : Decl.fn g ∈ p.decls) (hi : g.name = i.name)
      (ho : Expr.evalAll r args s = .ok o) (hn : o.value.length = g.formals.length) :
      Calls (first ++ o.code) o.value (.call (plainLabel g.name) dst)
  /-- A method of the object at hand: the class is the one around. -/
  | own {first : List Instr} {table addr : Location} {dst : Option Location} {r : Surroundings}
      {c : ClassDecl} {n : Node} {i : Ident} {args : List Expr} {slot : Nat} {s : Supply}
      {o : Emitted (List Location)} (hr : r.notes = p.analyze.notes ∧ r.layout = l)
      (he : p.Contains (some c) (.call n i args)) (ho : Expr.evalAll r args s = .ok o)
      (hn : p.Offers l c.name i.name slot o.value.length) :
      Calls (first ++ o.code ++ tableLoads thisParam slot table addr) (thisParam :: o.value)
        (.callVia addr dst)
  /-- A method of the object that a base gives: the class is the type of the base. -/
  | send {first : List Instr} {table addr : Location} {dst : Option Location} {r : Surroundings}
      {cls : Option ClassDecl} {n : Node} {b : Expr} {i : Ident} {args : List Expr} {C : String}
      {slot : Nat} {x : Location} {s : Supply} {a : Emitted (Option Location)}
      {o : Emitted (List Location)} (hr : r.notes = p.analyze.notes ∧ r.layout = l)
      (he : p.Contains cls (.send n b i args)) (hb : b.eval r s = .ok a) (hx : a.value = some x)
      (ho : Expr.evalAll r args a.supply = .ok o) (hC : r.typeAt b.node = .named C)
      (hn : p.Offers l C i.name slot o.value.length) :
      Calls (first ++ a.code ++ o.code ++ tableLoads x slot table addr) (x :: o.value)
        (.callVia addr dst)

end

/-- A method that is found in a class is offered by it. -/
theorem Clean.offers (h : p.Clean) (hf : p.Flat)
    (hl : Layout.ofProgram p.analyze.hierarchy p = .ok l) {C member : String} {f : FnDecl}
    (hC : (p.analyze.hierarchy.class? C).isSome = true)
    (hm : p.scopes.member? C member = some (.fn f)) :
    ∃ slot, l.methodSlot? f.id = some slot ∧ p.Offers l C member slot f.formals.length := by
  have hself : p.analyze.hierarchy.isSubclass C C = true :=
    decide_eq_true List.mem_cons_self
  obtain ⟨slot, -, -, hslot, -⟩ := h.entry_below hf hl hC hself hm
  refine ⟨slot, hslot, hC, fun D hD => ?_⟩
  -- In every subclass the entry at this slot has the formals of `f`.
  obtain ⟨slot', o, e, hslot', ho, he, hmem, -, -, hsig⟩ := h.entry_below hf hl hC hD hm
  obtain rfl := Option.some.inj (hslot.symm.trans hslot')
  have hlen := congrArg (fun t : Ty.Signature => t.formals.length) hsig
  simp only [FnDecl.signature, List.length_map] at hlen
  exact ⟨o, e, ho, he, hmem, hlen⟩

/-! ## 3. Every call keeps its promise -/

/-- A function in sight stands at the top level and has no slot, or it is a method that the class
around offers. -/
theorem Clean.in_sight (h : p.Clean) (hf : p.Flat)
    (hl : Layout.ofProgram p.analyze.hierarchy p = .ok l) (hg : (cls, g) ∈ p.functions)
    {name : String} {f : FnDecl} (hlook : (p.around cls).lookup? name = some (.fn f)) :
    (Decl.fn f ∈ p.decls ∧ f.name = name ∧ l.methodSlot? f.id = none) ∨
      ∃ c slot, cls = some c ∧ l.methodSlot? f.id = some slot ∧
        p.Offers l c.name name slot f.formals.length := by
  rcases h.named.around_member hf hg hlook with ⟨hd, hname⟩ | ⟨c, rfl, hc, hm⟩
  · refine .inl ⟨hd, hname, ?_⟩
    -- no method has the number of a function at the top level
    cases hs : l.methodSlot? f.id with
    | none => rfl
    | some slot =>
      obtain ⟨c, hc, m, hm, e⟩ := (h.named.layout_holds hl).2 f.id (by rw [hs]; rfl)
      exact absurd e (h.named.not_method hd hc hm)
  · obtain ⟨slot, hslot, hoff⟩ := h.offers hf hl (by rw [h.named.class?_eq hc]; rfl) hm
    exact .inr ⟨c, slot, rfl, hslot, hoff⟩

/-- **Every call in a checked program promises what has been said.** -/
theorem Clean.complies (h : p.Clean) (hf : p.Flat)
    (hl : Layout.ofProgram p.analyze.hierarchy p = .ok l) (hg : (cls, g) ∈ p.functions) :
    g.Complies (p.Calls l) p.analyze.notes l := by
  intro r hr hlay hthis e he
  cases hb : g.body with
  | none =>
    rw [hb] at he
    cases he
  | some b =>
    rw [hb] at he
    have hin : p.Contains cls e := ⟨g, b, hg, hb, he⟩
    have hk := h.named.all_checked hf h.typed.1 hg hb e he
    cases e with
    | call n i args =>
      obtain ⟨f, hf₁, hlook, hlen⟩ := hk.call_goes
      intro f' hf₂ pre s o ho
      obtain rfl : f = f' := Option.some.inj (hf₁.symm.trans (hr ▸ hf₂))
      have hlen := (Expr.evalAll_length ho).trans hlen.symm
      rw [hlay]
      rcases h.in_sight hf hl hg hlook with ⟨hd, hname, hslot⟩ | ⟨c, slot, rfl, hslot, hoff⟩
      · rw [hslot]
        intro dst
        rw [← hname]
        exact .function ⟨hr, hlay⟩ hin hd hname ho hlen
      · rw [hslot]
        intro x hx table addr dst
        obtain rfl := hthis x hx
        exact .own ⟨hr, hlay⟩ hin ho (hlen ▸ hoff)
    | send n x i args =>
      intro f' hf₂ pre s a y o slot hnl hC ha hy ho hslot table addr dst
      have et : r.typeAt x.node = p.analyze.notes.typeOf x := hr ▸ rfl
      rw [et] at hnl hC
      obtain ⟨C, f, htype, hm, hf₁, hlen⟩ := hk.send_goes hnl
      obtain rfl : f = f' := Option.some.inj (hf₁.symm.trans (hr ▸ hf₂))
      have hlen := (Expr.evalAll_length ho).trans hlen.symm
      have hclass := (h.named.layout_holds hl).1 C (hlay ▸ hC C htype)
      obtain ⟨slot', hslot', hoff⟩ := h.offers hf hl hclass hm
      rw [hlay] at hslot
      obtain rfl := Option.some.inj (hslot.symm.trans hslot')
      exact .send ⟨hr, hlay⟩ hin ha hy ho (et.trans htype) (hlen ▸ hoff)
    | _ => trivial

/-! ## 4. Callers and callees -/

/-- Whatever has this label, be it of the program or of the runtime, takes so many parameters. The
object that a method is called for is one of them. -/
def Takes (p : Program) (lab : Label) (n : Nat) : Prop :=
  (∀ cls g, (cls, g) ∈ p.functions → g.codeLabel cls = lab →
      cls.isSome.toNat + g.formals.length = n) ∧
    ∀ b : Builtin, b.label = lab → b.argCount = n

theorem builtin_label_inj {b b' : Builtin} (h : b.label = b'.label) : b = b' := by
  revert h
  cases b <;> cases b' <;> decide

/-- A label of the runtime is that of no method. -/
theorem builtin_label_ne (b : Builtin) (cls method : String) :
    qualifiedLabel cls method ≠ b.label := by
  intro e
  have hdot : '.' ∉ b.label.toList := by cases b <;> decide
  rw [← e, qualifiedLabel_toList] at hdot
  exact hdot (List.mem_cons_of_mem _ (List.mem_append_right _ List.mem_cons_self))

/-- The label of a function at the top level is that of no other one. -/
theorem Spelled.eq_of_label (h : p.Spelled) (hn : p.Named) {f : FnDecl}
    (hf : Decl.fn f ∈ p.decls) (hg : (cls, g) ∈ p.functions)
    (e : g.codeLabel cls = plainLabel f.name) : cls = none ∧ g = f := by
  -- the declaration that the label belongs to, which is `f` itself or not
  have hl : ∃ d ∈ p.decls, g.codeLabel cls ∈ d.labels ∧ ∀ d', d' = Decl.fn f → d = d' →
      cls = none ∧ g = f := by
    rcases mem_functions.mp hg with ⟨rfl, hd⟩ | ⟨c, rfl, hc, hm⟩
    · refine ⟨_, hd, List.mem_singleton_self _, ?_⟩
      rintro _ rfl e'
      exact ⟨rfl, Decl.fn.inj e'⟩
    · refine ⟨_, hc, ClassDecl.mem_labels.mpr (.inl ⟨g, hm, rfl⟩), ?_⟩
      rintro _ rfl e'
      cases e'
  obtain ⟨d, hd, hmem, hsame⟩ := hl
  refine hsame _ rfl (hn.eq_of_name hd hf (String.toList_inj.mp ?_))
  rw [← h.ownerName_eq hd hmem, e]
  exact h.ownerName_eq hf (List.mem_singleton_self _)

/-- The names are written like names, and a function that has the name of one of the runtime takes
as many parameters. -/
structure Fitting (p : Program) : Prop where
  spelled : p.Spelled
  counts : ∀ g b, Decl.fn g ∈ p.decls → plainLabel g.name = Builtin.label b →
    g.formals.length = b.argCount

/-- **What is pushed for a call by a label fits everything that has this label.** -/
theorem Calls.takes (h : p.Named) (hp : p.Fitting) {first : List Instr} {ps : List Location}
    {lab : Label} {dst : Option Location} (hc : p.Calls l first ps (.call lab dst)) :
    p.Takes lab ps.length := by
  cases hc with
  -- a routine of the runtime, whose label a function may have as well
  | runtime b hn =>
    refine ⟨fun cls g hg e => ?_, fun b' e => ?_⟩
    · rcases mem_functions.mp hg with ⟨rfl, hd⟩ | ⟨c, rfl, -, -⟩
      · exact (Nat.zero_add _).trans ((hp.counts g b hd e).trans hn.symm)
      · exact absurd e (builtin_label_ne b _ _)
    · rw [builtin_label_inj e]
      exact hn.symm
  -- a function, whose label a routine of the runtime may have as well
  | function hr he hf hi ho hn =>
    refine ⟨fun cls g hg e => ?_, fun b e => ?_⟩
    · obtain ⟨rfl, rfl⟩ := hp.spelled.eq_of_label h hf hg e
      exact (Nat.zero_add _).trans hn.symm
    · exact (hp.counts _ b hf e.symm).symm.trans hn.symm

/-- A call in code, with what stands around it. -/
structure Site (p : Program) (l : Layout) (before : List Instr) (c : Instr) (after : List Instr)
    (ps : List Location) : Prop where
  /-- Right in front of the call the parameters are pushed, and nothing else is. -/
  pushed : ∃ first, before = first ++ Code.pushes ps ∧ Code.EndsQuiet first ∧ p.Calls l first ps c
  /-- Right behind the call they are taken off, and nothing else is. -/
  popped : ∃ rest, after = Code.pops ps.length ++ rest ∧ Code.StartsQuiet rest
  /-- Meanwhile they lie on the stack, the first of them on top. -/
  stacked : Code.Stacks ps
  /-- The callee finds them at the places of its own parameters, as long as memory holds them. -/
  found : 4 * (ps.length + 1) < 2 ^ 32 → ∀ address, Mips.HandsOver address ps
  /-- Whatever has the label that is called takes so many parameters. -/
  fits : p.Fitting → ∀ lab dst, c = .call lab dst → p.Takes lab ps.length

/-- **Callers and callees agree on the stack.** In the code of a checked program every call stands
in a site of its own, where it promises what the checker found; and every function has its
parameters by their positions. -/
theorem Clean.calls_agree {code : List Instr} (h : p.Clean) (hf : p.Flat)
    (hl : Layout.ofProgram p.analyze.hierarchy p = .ok l)
    (hc : p.lower p.analyze.notes l = .ok code) :
    (∀ before c after, code = before ++ c :: after → c.Calls →
      ∃ ps, p.Site l before c after ps) ∧
        ∀ cls g, (cls, g) ∈ p.functions → g.Receives cls code := by
  -- What is proved along the traversal holds at each call by the split of the code there.
  have horder : Code.Orderly (p.Calls l) [] code :=
    lower_orderly (fun pre ps b dst hn => .runtime b hn) (fun cls g hg => h.complies hf hl hg) hc
  refine ⟨fun before c after e hcall => ?_, fun cls g hg => h.named.receives hg hc⟩
  obtain ⟨first, ps, rest, e₁, hq, e₂, hq', hk⟩ := horder.sites before c after e hcall
  refine ⟨ps, ⟨first, e₁, hq, hk⟩, ⟨rest, e₂, hq'⟩, Code.pushes_stacks ps,
    fun hn address => Mips.handsOver address hn, fun hp lab dst hlab => ?_⟩
  subst hlab
  exact Calls.takes h.named hp hk

end Program

/-- The code of a program, if there is a layout and then code. -/
def Program.code? (p : Program) : Option (List Instr) :=
  (Layout.ofProgram p.analyze.hierarchy p).toOption.bind fun l =>
    (p.lower p.analyze.notes l).toOption

theorem Program.of_code? {p : Program} {code : List Instr} (h : p.code? = some code) :
    ∃ l, Layout.ofProgram p.analyze.hierarchy p = .ok l ∧
      p.lower p.analyze.notes l = .ok code := by
  unfold code? at h
  cases hl : Layout.ofProgram p.analyze.hierarchy p with
  | error e =>
    rw [hl] at h
    cases h
  | ok l =>
    rw [hl] at h
    have h : (p.lower p.analyze.notes l).toOption = some code := h
    cases hc : p.lower p.analyze.notes l with
    | error e =>
      rw [hc] at h
      cases h
    | ok code' =>
      rw [hc] at h
      obtain rfl := Option.some.inj h
      exact ⟨l, rfl, hc⟩

theorem Program.exists_code {p : Program} (h : p.code?.isSome = true) :
    ∃ l code, Layout.ofProgram p.analyze.hierarchy p = .ok l ∧
      p.lower p.analyze.notes l = .ok code := by
  obtain ⟨code, hcode⟩ := Option.isSome_iff_exists.mp h
  obtain ⟨l, hl, hc⟩ := of_code? hcode
  exact ⟨l, code, hl, hc⟩

/-- Calls in the arguments of calls: of a function, of a method that is replaced in a class below,
and of a method by its bare name. -/
def relay : Program := .number [
  .cls ⟨.nowhere, .called "Base", none, [], [
    .fn ⟨.nowhere, .called "pick", .prim 0 .int, [.int "a", .int "b"], some ⟨.nowhere, [],
      [.ret .nowhere (some (.use "a"))]⟩⟩,
    .fn ⟨.nowhere, .called "twice", .prim 0 .int, [.int "a"], some ⟨.nowhere, [],
      [.ret .nowhere (some (.call .nowhere (.called "pick")
        [.use "a", .call .nowhere (.called "pick") [.use "a", .int .nowhere 1]]))]⟩⟩]⟩,
  .cls ⟨.nowhere, .called "Derived", some (.called "Base"), [], [
    .fn ⟨.nowhere, .called "pick", .prim 0 .int, [.int "a", .int "b"], some ⟨.nowhere, [],
      [.ret .nowhere (some (.use "b"))]⟩⟩]⟩,
  .fn ⟨.nowhere, .called "add", .prim 0 .int, [.int "a", .int "b"], some ⟨.nowhere, [],
    [.ret .nowhere (some (.binary .nowhere .add (.use "a") (.use "b")))]⟩⟩,
  .fn ⟨.nowhere, .called "main", .prim 0 .void, [], some ⟨.nowhere,
    [.called "x" (.named 0 (.called "Base"))],
    [.set (.use "x") (.new .nowhere (.called "Derived")),
      .print .nowhere [.call .nowhere (.called "add")
        [.send .nowhere (.use "x") (.called "twice") [.int .nowhere 1],
          .call .nowhere (.called "add") [.int .nowhere 2, .int .nowhere 3]]]]⟩⟩]

/-- Every call of the relay stands in its site. -/
theorem calls_agree_relay : relay.Clean ∧ relay.Flat ∧ ∃ l code,
    Layout.ofProgram relay.analyze.hierarchy relay = .ok l ∧
      relay.lower relay.analyze.notes l = .ok code ∧
        (∀ before c after, code = before ++ c :: after → c.Calls →
          ∃ ps, relay.Site l before c after ps) ∧
            ∀ cls g, (cls, g) ∈ relay.functions → g.Receives cls code := by
  have hclean : relay.Clean :=
    ⟨Program.number_numbered _, List.isEmpty_iff.mp (by decide +kernel)⟩
  have hflat : relay.Flat := of_decide_eq_true rfl
  have hok : relay.code?.isSome = true := by decide +kernel
  obtain ⟨code, hcode⟩ := Option.isSome_iff_exists.mp hok
  obtain ⟨l, hl, hc⟩ := Program.of_code? hcode
  exact ⟨hclean, hflat, l, code, hl, hc, hclean.calls_agree hflat hl hc⟩

/-- A function has the name of the one of the runtime that reserves memory, and takes two
parameters. -/
def reserving : Program := .number [
  .cls ⟨.nowhere, .called "Box", none, [], []⟩,
  .fn ⟨.nowhere, .called "Alloc", .prim 0 .void, [.int "a", .int "b"], some .empty⟩,
  .fn ⟨.nowhere, .called "main", .prim 0 .void, [], some ⟨.nowhere, [],
    [.expr (.new .nowhere (.called "Box")),
      .expr (.call .nowhere (.called "Alloc") [.int .nowhere 1, .int .nowhere 2])]⟩⟩]

/-- The code of the program: a box is reserved, and then the function is called. -/
def reservingCode : List Instr :=
  [.table "Box" [], .label "_Alloc", .enter 0, .leave, .label "main", .enter 20,
    .const (.frame (-8) "_tmp0") 4, .push (.frame (-8) "_tmp0"),
    .call "_Alloc" (some (.frame (-12) "_tmp1")), .pop 4, .addr (.frame (-16) "_tmp2") "Box",
    .store (.frame (-12) "_tmp1") (.frame (-16) "_tmp2") 0, .const (.frame (-20) "_tmp3") 1,
    .const (.frame (-24) "_tmp4") 2, .push (.frame (-24) "_tmp4"), .push (.frame (-20) "_tmp3"),
    .call "_Alloc" none, .pop 8, .leave]

/-- The code of a clean program may call a label once with one parameter and once with two. Neither
number fits the function and the one of the runtime that have this label. -/
theorem not_calls_agree_reserving : reserving.Clean ∧ reserving.Flat ∧ ∃ l code,
    Layout.ofProgram reserving.analyze.hierarchy reserving = .ok l ∧
      reserving.lower reserving.analyze.notes l = .ok code ∧
        (∃ first p dst rest, code = first ++ Code.pushes [p] ++ .call "_Alloc" dst :: rest ∧
          Code.EndsQuiet first ∧ ¬ reserving.Takes "_Alloc" [p].length) ∧
          ∃ first p q dst rest, code = first ++ Code.pushes [p, q] ++ .call "_Alloc" dst :: rest ∧
            Code.EndsQuiet first ∧ ¬ reserving.Takes "_Alloc" [p, q].length := by
  have hcode : reserving.code? = some reservingCode := by decide +kernel
  obtain ⟨l, hl, hc⟩ := Program.of_code? hcode
  refine ⟨⟨Program.number_numbered _, List.isEmpty_iff.mp (by decide +kernel)⟩,
    of_decide_eq_true rfl, l, reservingCode, hl, hc,
    ⟨reservingCode.take 7, .frame (-8) "_tmp0", some (.frame (-12) "_tmp1"),
      reservingCode.drop 9, rfl, fun p r e => ?_, fun h => ?_⟩,
    ⟨reservingCode.take 14, .frame (-20) "_tmp3", .frame (-24) "_tmp4", none,
      reservingCode.drop 17, rfl, fun p r e => ?_, fun h => ?_⟩⟩
  · have hlast : (reservingCode.take 7).getLast? = some (.push p) := by
      rw [e, List.getLast?_concat]
    cases hlast
  · -- the function takes two parameters
    have hm : ∃ g, Decl.fn g ∈ reserving.decls ∧ g.codeLabel none = "_Alloc" ∧
        g.formals.length = 2 := ⟨_, List.mem_cons_of_mem _ List.mem_cons_self, rfl, rfl⟩
    obtain ⟨g, hg, hlabel, htwo⟩ := hm
    have hcount := h.1 none g (Program.mem_functions.mpr (.inl ⟨rfl, hg⟩)) hlabel
    rw [htwo] at hcount
    cases hcount
  · have hlast : (reservingCode.take 14).getLast? = some (.push p) := by
      rw [e, List.getLast?_concat]
    cases hlast
  · -- the one of the runtime takes one
    cases h.2 .alloc rfl

end DecafLang
