import DecafLang.Proofs.Layouts
import DecafLang.Proofs.Overriding

/-!
# Dispatch

A call through the table of an object reaches what the checker has looked up in its class.

* What a class has under a name is declared by `Hierarchy.definer?`, the nearest of its ancestors
  that declares the name. **The table of the class has the method of that ancestor**
  (`Hierarchy.find?_table`).
* A method that replaces another takes over its slot, so the slot that a class gives to a method is
  the slot of the name in all classes below.
* **So one slot per method will do:** whatever class an object has, the slot of the method that a
  call was checked against holds the method that the class of the object has under that name
  (`Program.Clean.dispatches`).
-/

namespace DecafLang

/-! ## 1. Nearest declarations -/

namespace Hierarchy

/-- The nearest of the ancestors that declares a name. -/
def definer? (h : Hierarchy) (member cls : String) : Option String :=
  (h.ancestors cls).find? fun a => (h.declared? member a).isSome

/-- The method that a class puts into its table under a name. -/
def entry? (h : Hierarchy) (member cls : String) : Option TableEntry :=
  (h.class? cls).bind fun c => (c.methods.find? (·.name == member)).map (TableEntry.mk c.name)

variable {h : Hierarchy} {a member : String} {c : ClassDecl} {d : Decl} {g : FnDecl}

/-- What a class has under a name is declared by the nearest ancestor that declares the name. -/
theorem member?_split (hm : h.member? a member = some d) : ∃ front n back,
    h.ancestors a = front ++ n :: back ∧ h.declared? member n = some d ∧
      (∀ x ∈ front, h.declared? member x = none) ∧ h.definer? member a = some n := by
  obtain ⟨front, n, back, e, hd, hfront⟩ := List.findSome?_eq_some_iff.mp hm
  refine ⟨front, n, back, e, hd, hfront, List.find?_eq_some_iff_append.mpr ?_⟩
  refine ⟨by rw [hd]; rfl, front, back, e, fun x hx => ?_⟩
  rw [hfront x hx]
  rfl

theorem entry?_none (hd : h.declared? member a = none) : h.entry? member a = none := by
  unfold declared? at hd
  unfold entry?
  cases hc : h.class? a with
  | none => rfl
  | some c =>
    rw [hc] at hd
    have hd : c.members.find? (·.name == member) = none := hd
    have hf : c.methods.find? (·.name == member) = none := List.find?_eq_none.mpr fun g hg =>
      List.find?_eq_none.mp hd (.fn g) (ClassDecl.mem_methods.mp hg)
    rw [Option.bind_some, hf]
    rfl

theorem entry?_some (hn : ∀ c, h.class? a = some c → (c.methods.map FnDecl.name).Nodup)
    (hd : h.declared? member a = some (.fn g)) : h.entry? member a = some ⟨a, g⟩ := by
  obtain ⟨c, hc, hm, rfl⟩ := declared?_eq_some hd
  unfold entry?
  rw [hc, Option.bind_some, class?_name hc]
  exact congrArg _ (find?_key (hn c hc) (ClassDecl.mem_methods.mpr hm))

/-- **The table of a class has, under every name, the nearest method of that name.** -/
theorem find?_table (hn : ∀ n c, h.class? n = some c → (c.methods.map FnDecl.name).Nodup)
    (hc : h.class? a = some c) (hm : h.member? a member = some (.fn g)) :
    ∃ n, h.definer? member a = some n ∧
      (h.object c).methods.find? (·.name == member) = some ⟨n, g⟩ := by
  obtain ⟨front, n, back, e, hd, hfront, hdef⟩ := member?_split hm
  refine ⟨n, hdef, ?_⟩
  have hline : ∀ b ∈ c :: h.above c, (b.methods.map FnDecl.name).Nodup := fun b hb =>
    hn _ b (of_mem_line hc hb).2
  have he : (h.object c).methods.find? (·.name == member) =
      (h.ancestors a).findSome? (h.entry? member) := by
    rw [object, ObjectLayout.find?_methods, findSome?_congr fun b hb =>
      congrArg _ (findRev?_of_nodup (hline b hb) member), ← class_ancestors hc,
      findSome?_filterMap]
    rfl
  rw [he]
  exact List.findSome?_eq_some_iff.mpr
    ⟨front, n, back, e, entry?_some (hn n) hd, fun x hx => entry?_none (hfront x hx)⟩

end Hierarchy

/-! ## 2. Programs -/

namespace Program

variable {p : Program}

theorem Clean.conforming (h : p.Clean) (hf : p.Flat) : p.analyze.hierarchy.Conforming := by
  have := h.clean
  unfold Analysis.diagnostics at this
  simp only [List.append_eq_nil_iff] at this
  exact h.named.conforming hf this.1.2

/-- The slot of a method is that of its name in the table of every class that has the method, or
one in its place. -/
theorem Named.slot_stays (h : p.Named) (ha : p.analyze.hierarchy.Acyclic) {l : Layout}
    {cs : List ClassDecl} (hs : p.analyze.hierarchy.Sorts cs)
    (hl : l.Arranged p.analyze.hierarchy cs) {a b : String} {c d : ClassDecl} {g : FnDecl}
    (hb : b ∈ p.analyze.hierarchy.ancestors a) (hc : p.analyze.hierarchy.class? a = some c)
    (hd : p.analyze.hierarchy.class? b = some d) (hg : g ∈ d.methods) :
    ∃ s, l.methodSlot? g.id = some s ∧
      (p.analyze.hierarchy.object c).slotOf? g.name = some s := by
  have hn : g.name ∈ (p.analyze.hierarchy.object d).methods.map TableEntry.name :=
    ObjectLayout.name_mem_methods hg
  obtain ⟨s, hslot⟩ := Option.isSome_iff_exists.mp (position?_isSome hn)
  refine ⟨s, ?_, position?_stays (ha.object_stays hb hc hd).2 hslot⟩
  have hapart := h.numbered.apart hs
  exact (hl.methodSlot?_iff hapart).mpr ⟨d, (hs.mem_iff d).mpr ⟨b, hd⟩, g, hg, rfl, hslot⟩

/-- In the slot of a method there stands, in the table of every class below, the method that the
class has under the name, which has the same signature. -/
theorem Clean.entry_below (h : p.Clean) (hf : p.Flat) {l : Layout}
    (hl : Layout.ofProgram p.analyze.hierarchy p = .ok l) {C D member : String} {f : FnDecl}
    (hC : (p.analyze.hierarchy.class? C).isSome = true)
    (hD : p.analyze.hierarchy.isSubclass D C = true)
    (hm : p.scopes.member? C member = some (.fn f)) :
    ∃ s o e, l.methodSlot? f.id = some s ∧ l.class? D = some o ∧ o.methods[s]? = some e ∧
      p.scopes.member? D member = some (.fn e.method) ∧
      p.analyze.hierarchy.definer? member D = some e.cls ∧ e.name = member ∧
      e.method.signature = f.signature := by
  have hn := h.named
  obtain ⟨ha, cs, hs, hl⟩ := Layout.of_ofProgram hl
  have hD : C ∈ p.analyze.hierarchy.ancestors D := of_decide_eq_true hD
  obtain ⟨c, hc⟩ := Option.isSome_iff_exists.mp hC
  obtain ⟨d, hd⟩ := Option.isSome_iff_exists.mp ((Hierarchy.class_of_ancestor hD).trans hC)
  obtain rfl := Hierarchy.class?_name hc
  obtain rfl := Hierarchy.class?_name hd
  rw [hn.member_class hf (hn.class_mem hc)] at hm
  rw [hn.member_class hf (hn.class_mem hd)]
  -- the method that was looked up, and its slot
  obtain ⟨b, hb, hdecl⟩ := List.exists_of_findSome?_eq_some hm
  obtain ⟨k, hk, hfm, rfl⟩ := Hierarchy.declared?_eq_some hdecl
  have hbD : b ∈ p.analyze.hierarchy.ancestors d.name := Hierarchy.ancestors_trans hD hb
  obtain ⟨s, hslot, hpos⟩ := hn.slot_stays ha hs hl hbD hd hk (ClassDecl.mem_methods.mpr hfm)
  -- the method in its place in the table of the other class
  obtain ⟨g, hg, hsig⟩ := (h.conforming hf).agrees hD hm
  obtain ⟨n, hdef, hentry⟩ := Hierarchy.find?_table
    (fun _ _ hc => hn.nodup_methods (hn.class_mem hc)) hd hg
  refine ⟨s, _, ⟨n, g⟩, hslot, hl.class?_eq ((hs.mem_iff d).mpr ⟨_, hd⟩), ?_, hg, hdef, ?_, hsig⟩
  · rw [getElem?_position? hpos]
    exact hentry
  · exact beq_iff_eq.mp (List.find?_some hentry :)

/-- **Calls through tables reach what the checker has looked up.** If a name stands for a method in
a class, then that method has a slot, and in the table of every class that is this one or derives
from it there stands, in this slot, the method that the name stands for in that class. Its label is
that of the nearest class that declares the name. -/
theorem Clean.dispatches (h : p.Clean) (hf : p.Flat) (ha : p.analyze.hierarchy.Acyclic) :
    ∃ l, Layout.ofProgram p.analyze.hierarchy p = .ok l ∧
      ∀ C D, (p.analyze.hierarchy.class? C).isSome = true →
        p.analyze.hierarchy.isSubclass D C = true → ∀ member f,
          p.analyze.forest.member? C member = some (.fn f) →
            ∃ s o e n, l.methodSlot? f.id = some s ∧ l.class? D = some o ∧
              o.methods[s]? = some e ∧
              p.analyze.forest.member? D member = some (.fn e.method) ∧
              p.analyze.hierarchy.definer? member D = some n ∧
              e.label = qualifiedLabel n member := by
  obtain ⟨l, cs, hok, -⟩ := Layout.ofProgram_arranged (p := p) ha
  refine ⟨l, hok, fun C D hC hD member f hm => ?_⟩
  have ef : p.analyze.forest = p.scopes := h.named.numbered.typed_forest
  rw [ef] at hm
  rw [ef]
  obtain ⟨s, o, e, hs, ho, he, hg, hdef, hname, -⟩ := h.entry_below hf hok hC hD hm
  exact ⟨s, o, e, e.cls, hs, ho, he, hg, hdef, congrArg (qualifiedLabel e.cls) hname⟩

end Program

theorem figures_clean : figures.Clean :=
  ⟨Program.number_numbered _, List.isEmpty_iff.mp (by decide +kernel)⟩

/-- A tile that is taken for a figure has the size of a square. -/
theorem dispatches_figures : ∃ l, Layout.ofProgram figures.analyze.hierarchy figures = .ok l ∧
    ∃ f, figures.analyze.forest.member? "Figure" "size" = some (.fn f) ∧
      ∃ s o e, l.methodSlot? f.id = some s ∧ l.class? "Tile" = some o ∧ o.methods[s]? = some e ∧
        figures.analyze.forest.member? "Tile" "size" = some (.fn e.method) ∧
        e.label = "_Square.size" := by
  obtain ⟨l, hl, hall⟩ := figures_clean.dispatches figures_flat (by decide +kernel)
  have hm : ((figures.analyze.forest.member? "Figure" "size").bind Decl.fn?).isSome = true := by
    decide +kernel
  obtain ⟨f, hf⟩ := Option.isSome_iff_exists.mp hm
  obtain ⟨d, hd, e⟩ := Option.bind_eq_some_iff.mp hf
  cases d <;> cases e
  obtain ⟨s, o, e, n, hs, ho, he, hg, hn, hlabel⟩ :=
    hall "Figure" "Tile" (by decide +kernel) (by decide +kernel) "size" f hd
  have hdef : figures.analyze.hierarchy.definer? "size" "Tile" = some "Square" := by decide +kernel
  cases hdef.symm.trans hn
  exact ⟨l, hl, f, hd, s, o, e, hs, ho, he, hg, hlabel⟩

end DecafLang
