import DecafLang.Syntax.Handwritten
import DecafLang.Proofs.Registry
import DecafLang.Proofs.Dispatch

/-!
# Methods of another signature

A method that takes the place of an inherited one without having its signature.

* A method is compared with what its class inherits, and with what the interfaces ask for that the
  class lists. Neither comparison knows of the other. **So a method that fails in both is reported
  twice, and one that fails in the first alone is reported once**
  (`Program.Named.mismatch_counted`).
* The layout goes by names. **The method takes over the slot, whatever its signature.**
* Classes may hold types here. What is asked for instead is that the classes above, and the
  interfaces that are listed, have not lost their names to types inside classes
  (`Program.registered?`).
-/

namespace DecafLang

/-! ## 1. Reports on one method -/

namespace FnDecl

variable {f : Forest} {a : Notes} {g k : FnDecl}

/-- A mismatch tells the name of the method and where it stands. -/
theorem mismatch_inj : k.mismatch = g.mismatch ↔
    k.ident.span = g.ident.span ∧ k.name = g.name := by
  unfold mismatch
  rw [Diagnostic.located.injEq, Fault.overrideMismatch.injEq]

theorem count_unless {b : Bool} :
    (if b then ([] : List Diagnostic) else [g.mismatch]).count g.mismatch = if b then 0 else 1 := by
  cases b with
  | true => rfl
  | false => exact List.count_singleton_self

/-- No report about another rule is a mismatch. -/
theorem ne_mismatch {s : Span} {x : Fault} (hx : x ≠ .overrideMismatch g.name) :
    g.mismatch ≠ .located s x := fun e => hx (Diagnostic.located.inj e).2.symm

/-- What a method inherits is compared with it once. -/
theorem count_override (hk : f.inherited? g.name = some (.fn k)) :
    (g.overrideFaults f a).count g.mismatch = if a.sameSignature g k then 0 else 1 := by
  unfold overrideFaults
  rw [hk]
  exact count_unless

/-- What is asked for is compared with it once more. -/
theorem count_required {q? : Option FnDecl} (hq : f.required? g.name = q?.map Decl.fn) :
    (g.requiredFaults f a).count g.mismatch =
      if q?.all fun q => a.sameSignature g q then 0 else 1 := by
  unfold requiredFaults
  rw [hq]
  cases q? with
  | none => rfl
  | some q => exact count_unless

end FnDecl

/-- Only methods are reported as mismatches, each under its own name. -/
theorem Decl.of_mismatch {f : Forest} {a : Notes} {d : Decl} {g : FnDecl}
    (h : g.mismatch ∈ d.memberFaults f a) : ∃ k, d = .fn k ∧ k.mismatch = g.mismatch := by
  cases d with
  | var v =>
    have h : g.mismatch ∈ v.fieldFaults f := h
    unfold VarDecl.fieldFaults at h
    split at h
    · exact absurd (List.mem_singleton.mp h) (FnDecl.ne_mismatch nofun)
    · cases h
  | fn k =>
    refine ⟨k, rfl, ?_⟩
    rcases List.mem_append.mp h with h | h
    · unfold FnDecl.overrideFaults at h
      split at h
      · split at h
        · cases h
        · exact (List.mem_singleton.mp h).symm
      · exact absurd (List.mem_singleton.mp h) (FnDecl.ne_mismatch nofun)
      · cases h
    · unfold FnDecl.requiredFaults at h
      split at h
      · split at h
        · cases h
        · exact (List.mem_singleton.mp h).symm
      · cases h
  | iface _ => cases h
  | cls _ => cases h

namespace ClassDecl

variable {f : Forest} {a : Notes} {c : ClassDecl} {g : FnDecl}

/-- An interface that is not provided is no mismatch of a method. -/
theorem missing_ne_mismatch : g.mismatch ∉ (c.interfaces.findSome? (c.missing? f a)).toList := by
  intro h
  obtain ⟨i, -, h⟩ := List.exists_of_findSome?_eq_some (Option.mem_toList.mp h)
  unfold missing? at h
  split at h
  · split at h
    · cases h
    · exact absurd (Option.some.inj h).symm (FnDecl.ne_mismatch nofun)
  · cases h

/-- What a class says about a mismatch is what its methods say. -/
theorem of_mismatch (h : g.mismatch ∈ c.faults f a) :
    ∃ k ∈ c.methods, k.mismatch = g.mismatch := by
  rcases List.mem_append.mp h with h | h
  · obtain ⟨d, hd, h⟩ := List.mem_flatMap.mp h
    obtain ⟨k, rfl, e⟩ := Decl.of_mismatch h
    exact ⟨k, mem_methods.mpr hd, e⟩
  · exact absurd h missing_ne_mismatch

/-- **In its class a method is reported by the two comparisons alone.** -/
theorem count_mismatch (hn : (c.members.map Decl.name).Nodup) (hg : g ∈ c.methods) :
    (c.faults f a).count g.mismatch =
      (g.overrideFaults f a).count g.mismatch + (g.requiredFaults f a).count g.mismatch := by
  have hgm : Decl.fn g ∈ c.members := mem_methods.mp hg
  have alone : ∀ d ∈ c.members, g.mismatch ∈ d.memberFaults f a → d = .fn g := fun d hd hm => by
    obtain ⟨k, rfl, e⟩ := Decl.of_mismatch hm
    exact List.inj_on_of_nodup_map hn hd hgm (FnDecl.mismatch_inj.mp e).2
  unfold faults
  rw [List.count_append, List.count_eq_zero.mpr missing_ne_mismatch, Nat.add_zero,
    count_flatMap_alone hn.of_map hgm alone]
  exact List.count_append

end ClassDecl

/-! ## 2. What they are compared with -/

namespace Hierarchy

/-- The prototype of a name in the first interface that asks for one, of those that a class
lists. -/
def prototype? (h : Hierarchy) (c : ClassDecl) (name : String) : Option FnDecl :=
  c.interfaces.findSome? fun i => (h.iface? i.name).bind fun d => d.members.find? (·.name == name)

/-- Without a cycle no class is among those above it. -/
theorem Acyclic.not_above {h : Hierarchy} (ha : h.Acyclic) {a b : String} (hb : b ∈ h.ancestors a)
    (hl : h.base? b = some a) : False :=
  ha a (Relation.TransGen.tail' (mem_ancestors_iff.mp hb) hl)

end Hierarchy

namespace Program.Named

variable {p : Program} {c : ClassDecl}

section

variable (h : p.Named)

include h

/-- What a class of the hierarchy declares lies in the scope of the class. -/
theorem slotNamed_declared {t : TypeDecl} (ht : t ∈ p.types)
    (hk : (p.analyze.hierarchy.class? t.name).isSome = true) (member : String) :
    (p.scopes.scope (p.slotNamed t.name)).get? member =
      p.analyze.hierarchy.declared? member t.name := by
  obtain ⟨c, hc⟩ := Option.isSome_iff_exists.mp hk
  obtain ⟨u, hu, e⟩ := Option.bind_eq_some_iff.mp hc
  cases (h.get?_eq ht).symm.trans hu
  rw [h.slotNamed_eq ht, h.numbered.get?_eq ht]
  unfold Hierarchy.declared?
  rw [hc]
  cases t <;> cases e
  rfl

/-- **What a class inherits is declared by its nearest ancestor that has the name,** if no type
inside a class has taken the name of an ancestor. -/
theorem inherited_registered (ha : p.analyze.hierarchy.Acyclic) (hc : Decl.cls c ∈ p.decls)
    (hr : ∀ n ∈ (p.analyze.hierarchy.ancestors c.name).tail,
      p.registered? n = p.analyze.hierarchy.get? n) (member : String) :
    (p.scopes.enterClass c).inherited? member = p.analyze.hierarchy.inherited? c.name member := by
  have ht : TypeDecl.cls c ∈ p.types := mem_types.mpr hc
  -- `hr` says this above the class; the class itself has no link to itself.
  have bases : ∀ a ∈ p.analyze.hierarchy.ancestors c.name, ∀ b,
      p.analyze.hierarchy.base? a = some b → p.registered? b = p.analyze.hierarchy.get? b := by
    intro a hac b hb
    have hbc := Hierarchy.ancestors_trans hac (Hierarchy.mem_ancestors_iff.mpr (.single hb))
    rcases List.mem_cons.mp hbc with rfl | hbc
    · exact (ha.not_above hac hb).elim
    · exact hr b hbc
  rw [h.numbered.enterClass_eq hc]
  show (p.scopes.parents (p.scopes.slotOf (TypeDecl.cls c).id)).findSome? _ = _
  rw [h.parents_linked ht bases, List.findSome?_map]
  refine findSome?_congr fun n hn => ?_
  -- Scope by scope along the way up, both sides look into the same class.
  have hn := List.mem_of_mem_tail hn
  obtain ⟨u, hu, rfl⟩ := h.type_of_ancestor ht hn
  refine h.slotNamed_declared hu ?_ member
  rw [← Hierarchy.class_of_ancestor hn]
  exact (congrArg Option.isSome (h.class?_eq hc)).trans rfl

/-- **What the listed interfaces ask for is the first prototype of the name,** if no type inside a
class has taken the name of one of them. -/
theorem required_registered (hc : Decl.cls c ∈ p.decls)
    (hr : ∀ i ∈ c.interfaces, p.registered? i.name = p.analyze.hierarchy.get? i.name)
    (name : String) : (p.scopes.enterClass c).required? name =
      (p.analyze.hierarchy.prototype? c name).map Decl.fn := by
  have hi : (p.scopes.scope (p.scopes.slotOf c.node.id)).interfaces =
      c.interfaces.map Ident.name :=
    (congrArg Scope.interfaces (h.numbered.has_type (t := .cls c) (mem_types.mpr hc)).2 :)
  rw [h.numbered.enterClass_eq hc]
  show (p.scopes.scope (p.scopes.slotOf c.node.id)).interfaces.findSome? (fun i =>
    (p.scopes.ownerScope? i).bind fun id => (p.scopes.scope id).get? name) = _
  rw [hi, List.findSome?_map, Hierarchy.prototype?, List.map_findSome?]
  refine findSome?_congr fun i hic => ?_
  -- A listed interface is declared, and `hr` makes its scope the registered one.
  obtain ⟨d, hd, hn, -⟩ := h.listed_iface hc hic
  have ht : TypeDecl.iface d ∈ p.types := mem_types.mpr hd
  have hg : p.analyze.hierarchy.get? i.name = some (.iface d) := hn ▸ h.get?_eq ht
  have hk : p.analyze.hierarchy.iface? i.name = some d := hn ▸ h.iface?_eq hd
  show (p.scopes.ownerScope? i.name).bind _ =
    ((p.analyze.hierarchy.iface? i.name).bind fun d => d.members.find? (·.name == name)).map Decl.fn
  rw [h.numbered.ownerScope?_registered, hr i hic, hg, hk]
  show (p.scopes.scope (p.scopes.slotOf (TypeDecl.iface d).id)).get? name = _
  rw [h.numbered.get?_eq ht]
  exact List.find?_map

end

/-! ## 3. Programs -/

section

variable (h : p.Named) (ha : p.analyze.hierarchy.Acyclic) {g k : FnDecl}

include h ha

/-- **What the checker says about a method it says in the class of the method,** if no method of
another class has both the name and the place. -/
theorem count_conformance (hc : Decl.cls c ∈ p.decls) (hg : g ∈ c.methods)
    (hu : ∀ d, Decl.cls d ∈ p.decls → ∀ f ∈ d.methods,
      f.name = g.name → f.ident.span = g.ident.span → f.id = g.id) :
    p.analyze.conformance.diagnostics.count g.mismatch =
      (c.faults (p.scopes.enterClass c) p.analyze.resolved.notes).count g.mismatch := by
  obtain ⟨cs, -, hs⟩ := ha.sorted
  have sorted : ∀ {d}, Decl.cls d ∈ p.decls → d ∈ cs := fun hd =>
    (hs.mem_iff _).mpr ⟨_, h.class?_eq hd⟩
  rw [h.numbered.conformance_eq]
  refine count_flatMap_alone h.numbered.nodup_classes (Decl.mem_classes.mpr hc) fun d hd hm => ?_
  have hd := Decl.mem_classes.mp hd
  obtain ⟨f, hf, e⟩ := ClassDecl.of_mismatch hm
  -- No other class reports it: a mismatch tells name and place, and `hu` makes those the method.
  obtain ⟨espan, ename⟩ := FnDecl.mismatch_inj.mp e
  exact (h.numbered.apart hs d (sorted hd) c (sorted hc) (.fn f) (ClassDecl.mem_methods.mp hf)
    (.fn g) (ClassDecl.mem_methods.mp hg) (hu d hd f hf ename espan)).1

/-- **A method has the slot of the method that it takes the place of,** whatever its signature. -/
theorem shared_slot (hc : Decl.cls c ∈ p.decls) (hg : g ∈ c.methods)
    (hk : p.analyze.hierarchy.inherited? c.name g.name = some (.fn k)) :
    ∃ l s, Layout.ofProgram p.analyze.hierarchy p = .ok l ∧ l.methodSlot? g.id = some s ∧
      l.methodSlot? k.id = some s := by
  obtain ⟨l, cs, hok, hs, hl, -⟩ := Layout.ofProgram_arranged (p := p) ha
  have hcls := h.class?_eq hc
  obtain ⟨b, hb, hd⟩ := List.exists_of_findSome?_eq_some hk
  obtain ⟨d, hd, hkd, hname⟩ := Hierarchy.declared?_eq_some hd
  have hname : k.name = g.name := hname
  -- Both declarations have the same name, so both sit where that name sits in the table of `c`.
  obtain ⟨s, hgs, hpos⟩ := h.slot_stays ha hs hl List.mem_cons_self hcls hcls hg
  obtain ⟨s', hks, hpos'⟩ := h.slot_stays ha hs hl (List.mem_of_mem_tail hb) hcls hd
    (ClassDecl.mem_methods.mpr hkd)
  rw [hname, hpos] at hpos'
  cases hpos'
  exact ⟨l, s, hok, hgs, hks⟩

/-- **A method that takes the place of one of another signature gets its slot, and is reported once
or twice:** once more if the first prototype of its name, in the interfaces that its class lists,
has another signature as well. -/
theorem mismatch_counted (hc : Decl.cls c ∈ p.decls) (hg : g ∈ c.methods)
    (hk : p.analyze.hierarchy.inherited? c.name g.name = some (.fn k))
    (hs : g.signature ≠ k.signature)
    (hu : ∀ d, Decl.cls d ∈ p.decls → ∀ f ∈ d.methods,
      f.name = g.name → f.ident.span = g.ident.span → f.id = g.id) :
    (∃ l s, Layout.ofProgram p.analyze.hierarchy p = .ok l ∧ l.methodSlot? g.id = some s ∧
      l.methodSlot? k.id = some s) ∧
    ((∀ n ∈ (p.analyze.hierarchy.ancestors c.name).tail,
        p.registered? n = p.analyze.hierarchy.get? n) →
      (∀ i ∈ c.interfaces, p.registered? i.name = p.analyze.hierarchy.get? i.name) →
      ((∀ q, p.analyze.hierarchy.prototype? c g.name = some q → q.signature = g.signature) →
        p.analyze.conformance.diagnostics.count g.mismatch = 1) ∧
      ∀ q, p.analyze.hierarchy.prototype? c g.name = some q → q.signature ≠ g.signature →
        p.analyze.conformance.diagnostics.count g.mismatch = 2) := by
  refine ⟨h.shared_slot ha hc hg hk, fun hr hi => ?_⟩
  have hw := h.written_method hc hg
  -- the comparison with what is inherited
  have hover : (g.overrideFaults (p.scopes.enterClass c) p.analyze.resolved.notes).count
      g.mismatch = 1 := by
    obtain ⟨b, -, hd⟩ := List.exists_of_findSome?_eq_some hk
    rw [FnDecl.count_override ((h.inherited_registered ha hc hr g.name).trans hk)]
    exact if_neg fun e => hs ((Notes.sameSignature_iff hw (h.written_declared hd)).mp e)
  -- the comparison with what is asked for
  have same : ∀ q, p.analyze.hierarchy.prototype? c g.name = some q →
      (p.analyze.resolved.notes.sameSignature g q = true ↔ g.signature = q.signature) := by
    intro q hq
    obtain ⟨i, -, hq⟩ := List.exists_of_findSome?_eq_some hq
    obtain ⟨d, hd, hq⟩ := Option.bind_eq_some_iff.mp hq
    exact Notes.sameSignature_iff hw
      (h.written_prototype (h.iface_mem hd).1 (List.mem_of_find?_eq_some hq))
  have hreq := FnDecl.count_required (g := g) (a := p.analyze.resolved.notes)
    (h.required_registered hc hi g.name)
  have hcount := (h.count_conformance ha hc hg hu).trans
    (ClassDecl.count_mismatch (h.nodup_members hc) hg)
  rw [hover, hreq] at hcount
  refine ⟨fun hall => ?_, fun q hq hne => ?_⟩
  · rw [hcount]
    refine congrArg _ (if_pos ?_)
    cases hq : p.analyze.hierarchy.prototype? c g.name with
    | none => rfl
    | some q => exact (same q hq).mpr (hall q hq).symm
  · rw [hcount, hq]
    exact congrArg _ (if_neg fun e => hne ((same q hq).mp e).symm)

end

end Program.Named

/-- A shape is drawn with a number; a ring and a circle are drawn without one, and the circle lists
an interface that asks for what it does not have either. -/
def shades : Program := .number [
  .iface ⟨.nowhere, .onLine "Drawn" 1, [⟨.nowhere, .onLine "draw" 2, .prim 0 .void, [], none⟩]⟩,
  .cls ⟨.nowhere, .onLine "Shape" 3, none, [], [
    .fn ⟨.nowhere, .onLine "draw" 4, .prim 0 .int, [⟨.nowhere, .onLine "x" 4, .prim 0 .int⟩],
      some ⟨.nowhere, [], [.ret .nowhere (some (.name .nowhere (.onLine "x" 4)))]⟩⟩]⟩,
  .cls ⟨.nowhere, .onLine "Ring" 5, some (.onLine "Shape" 5), [], [
    .fn ⟨.nowhere, .onLine "draw" 6, .prim 0 .void, [], some .empty⟩]⟩,
  .cls ⟨.nowhere, .onLine "Circle" 7, some (.onLine "Shape" 7), [.onLine "Drawn" 7], [
    .fn ⟨.nowhere, .onLine "draw" 8, .prim 0 .bool, [], some ⟨.nowhere, [],
      [.ret .nowhere (some (.bool .nowhere true))]⟩⟩]⟩,
  .fn ⟨.nowhere, .onLine "main" 9, .prim 0 .void, [], some .empty⟩]

theorem shades_named : shades.Named := ⟨Program.number_numbered _, rfl, rfl⟩

/-- The class of a name among the shades. -/
def shades.classOf (name : String) : ClassDecl :=
  (shades.analyze.hierarchy.class? name).getD default

/-- How the shades of a class are drawn. -/
def shades.drawing (name : String) : FnDecl := (shades.classOf name).methods.head?.getD default

theorem shades.mem_decls {name : String}
    (h : shades.analyze.hierarchy.class? name = some (shades.classOf name)) :
    Decl.cls (shades.classOf name) ∈ shades.decls := shades_named.class_mem h

/-- All methods of the shades stand in places of their own. -/
theorem shades.places {c : ClassDecl} {g : FnDecl} (hc : Decl.cls c ∈ shades.decls)
    (hg : g ∈ c.methods) : ∀ d, Decl.cls d ∈ shades.decls → ∀ f ∈ d.methods, f.name = g.name →
      f.ident.span = g.ident.span → f.id = g.id := by
  intro d hd f hf _ e
  have apart : ∀ d ∈ shades.decls.filterMap Decl.cls?, ∀ f ∈ d.methods,
      ∀ c ∈ shades.decls.filterMap Decl.cls?, ∀ g ∈ c.methods,
        f.ident.span = g.ident.span → f.id = g.id := by decide +kernel
  exact apart d (Decl.mem_classes.mpr hd) f hf c (Decl.mem_classes.mpr hc) g hg e

/-- A ring is reported once and a circle twice, and both are drawn through the slot of a shape. -/
theorem mismatch_counted_shades :
    shades.analyze.conformance.diagnostics.count (shades.drawing "Ring").mismatch = 1 ∧
    shades.analyze.conformance.diagnostics.count (shades.drawing "Circle").mismatch = 2 ∧
    ∃ l s, Layout.ofProgram shades.analyze.hierarchy shades = .ok l ∧
      l.methodSlot? (shades.drawing "Circle").id = some s ∧
      l.methodSlot? (shades.drawing "Shape").id = some s := by
  have ha : shades.analyze.hierarchy.Acyclic := by decide +kernel
  have above : ∀ n ∈ ["Shape"], shades.registered? n = shades.analyze.hierarchy.get? n :=
    List.forall_mem_singleton.mpr rfl
  have listed : ∀ i ∈ (shades.classOf "Circle").interfaces,
      shades.registered? i.name = shades.analyze.hierarchy.get? i.name :=
    List.forall_mem_singleton.mpr rfl
  have hr : shades.drawing "Ring" ∈ (shades.classOf "Ring").methods := List.mem_of_head? rfl
  have hc : shades.drawing "Circle" ∈ (shades.classOf "Circle").methods := List.mem_of_head? rfl
  -- `Ring` inherits alone; `Circle` inherits and lists an interface, so it reports twice.
  have ring := (shades_named.mismatch_counted ha (shades.mem_decls rfl) hr
    (k := shades.drawing "Shape") rfl (by decide +kernel)
    (shades.places (shades.mem_decls rfl) hr)).2 above nofun
  have circle := shades_named.mismatch_counted ha (shades.mem_decls rfl) hc
    (k := shades.drawing "Shape") rfl (by decide +kernel)
    (shades.places (shades.mem_decls rfl) hc)
  exact ⟨ring.1 nofun, (circle.2 above listed).2 _ rfl (by decide +kernel), circle.1⟩

/-- The names of the shades are in order and no class is above itself, and yet there is more than
one report on how a circle is drawn. -/
theorem mismatch_repeated_shades : shades.Named ∧ shades.analyze.hierarchy.Acyclic ∧
    Decl.cls (shades.classOf "Circle") ∈ shades.decls ∧
    shades.drawing "Circle" ∈ (shades.classOf "Circle").methods ∧
    shades.analyze.hierarchy.inherited? "Circle" (shades.drawing "Circle").name =
      some (.fn (shades.drawing "Shape")) ∧
    (shades.drawing "Circle").signature ≠ (shades.drawing "Shape").signature ∧
    (∀ d, Decl.cls d ∈ shades.decls → ∀ f ∈ d.methods,
      f.name = (shades.drawing "Circle").name →
      f.ident.span = (shades.drawing "Circle").ident.span → f.id = (shades.drawing "Circle").id) ∧
    shades.analyze.conformance.diagnostics.count (shades.drawing "Circle").mismatch ≠ 1 := by
  have hc : shades.drawing "Circle" ∈ (shades.classOf "Circle").methods := List.mem_of_head? rfl
  exact ⟨shades_named, by decide +kernel, shades.mem_decls rfl, hc, rfl, by decide +kernel,
    shades.places (shades.mem_decls rfl) hc, by decide +kernel⟩

end DecafLang
