import DecafLang.Syntax.Handwritten
import DecafLang.Proofs.Lineage
import DecafLang.Proofs.Numbering

/-!
# Interfaces that are not provided

What the checker says about the interfaces that a class lists.

* `FnDecl.Unmet` says when a prototype is not met by the declaration that is found for its name,
  and `Program.Unprovided` when a class does not provide an interface that it lists. Both speak of
  the text alone: what is found is the nearest declaration in the class or above it.
* **The first interface that is not provided is reported once, and nothing else is said of that
  kind about the class** (`Program.Numbered.unprovided_reported`). Names that are declared twice,
  names that stand for nothing and classes that extend each other do not change that.
-/

namespace DecafLang

/-! ## 1. Signatures -/

namespace Notes

/-- Every type in the head of a function is known. -/
def KnowsHead (a : Notes) (g : FnDecl) : Prop :=
  a.denote g.result ≠ .error ∧ ∀ v ∈ g.formals, a.denote v.type ≠ .error

theorem signature?_eq_some {a : Notes} {g : FnDecl} {s : Ty.Signature} :
    a.signature? g = some s ↔ a.KnowsHead g ∧ s = a.signature g := by
  have hall : ((a.signature g).ret.isError || (a.signature g).formals.any Ty.isError) = true ↔
      ¬ a.KnowsHead g := by
    unfold signature KnowsHead
    rw [Bool.or_eq_true, Ty.isError_iff, List.any_map, List.any_eq_true, not_and_or, not_not]
    simp only [Function.comp_apply, Ty.isError_iff, not_forall, not_not, exists_prop]
  unfold signature?
  dsimp only
  split
  · rename_i h
    exact ⟨nofun, fun hk => absurd hk.1 (hall.mp h)⟩
  · rename_i h
    have hk : a.KnowsHead g := not_not.mp fun hk => h (hall.mpr hk)
    exact ⟨fun e => ⟨hk, (Option.some.inj e).symm⟩, fun e => congrArg some e.2.symm⟩

/-- **Functions do not stand for each other if all types in them are known and they differ.** -/
theorem sameSignature_eq_false {a : Notes} {g q : FnDecl} : a.sameSignature g q = false ↔
    a.KnowsHead g ∧ a.KnowsHead q ∧ a.signature g ≠ a.signature q := by
  unfold sameSignature
  split
  · rename_i s t hs ht
    obtain ⟨hg, rfl⟩ := signature?_eq_some.mp hs
    obtain ⟨hq, rfl⟩ := signature?_eq_some.mp ht
    rw [← Bool.not_eq_true, Ty.Signature.agrees_iff_eq]
    exact ⟨fun hne => ⟨hg, hq, hne⟩, fun h => h.2.2⟩
  · rename_i hno
    refine ⟨nofun, fun ⟨hg, hq, _⟩ => ?_⟩
    exact (hno _ _ (signature?_eq_some.mpr ⟨hg, rfl⟩) (signature?_eq_some.mpr ⟨hq, rfl⟩)).elim

end Notes

/-! ## 2. One interface -/

/-- What a prototype asks for is not what is found under its name. -/
inductive FnDecl.Unmet (a : Notes) (q : FnDecl) : Option Decl → Prop
  /-- Nothing is found. -/
  | missing : q.Unmet a none
  /-- Something else than a method is found. -/
  | noMethod {d : Decl} (hd : d.fn? = none) : q.Unmet a (some d)
  /-- A method of another signature is found. -/
  | differs {g : FnDecl} (hg : a.KnowsHead g) (hq : a.KnowsHead q)
      (hs : a.signature g ≠ a.signature q) : q.Unmet a (some (.fn g))

namespace ClassDecl

variable {f : Forest} {a : Notes} {c : ClassDecl} {i : Ident} {r : Diagnostic}

/-- The report that a class does not provide an interface. -/
def lacks (c : ClassDecl) (i : Ident) (d : IfaceDecl) : Diagnostic :=
  .located i.span (.interfaceNotImplemented c.name d.name)

theorem hasMethod_eq_false {q : FnDecl} :
    c.hasMethod f a q = false ↔ q.Unmet a (f.member? c.name q.name) := by
  unfold hasMethod
  cases f.member? c.name q.name with
  | none => exact ⟨fun _ => .missing, fun _ => rfl⟩
  | some d =>
    cases d with
    | fn g =>
      refine Notes.sameSignature_eq_false.trans ⟨fun ⟨hg, hq, hs⟩ => .differs hg hq hs, fun h => ?_⟩
      cases h with
      | noMethod hd => cases hd
      | differs hg hq hs => exact ⟨hg, hq, hs⟩
    | _ => exact ⟨fun _ => .noMethod rfl, fun _ => rfl⟩

/-- A listed name is reported if it stands for an interface with a prototype that is not met. -/
theorem missing?_eq_some : c.missing? f a i = some r ↔ ∃ d, a.decl? i = some (.iface d) ∧
    (∃ q ∈ d.members, q.Unmet a (f.member? c.name q.name)) ∧ r = c.lacks i d := by
  unfold missing?
  split
  · rename_i d hd
    -- The test fails exactly where one of the prototypes is unmet.
    have hall : ¬ d.members.all (c.hasMethod f a) = true ↔
        ∃ q ∈ d.members, q.Unmet a (f.member? c.name q.name) := by
      simp only [List.all_eq_true, not_forall, exists_prop, Bool.not_eq_true, hasMethod_eq_false]
    split
    · rename_i h
      refine ⟨nofun, fun ⟨d', hd', hq, _⟩ => ?_⟩
      cases hd.symm.trans hd'
      exact absurd h (hall.mpr hq)
    · rename_i h
      refine ⟨fun e => ⟨d, hd, hall.mp h, (Option.some.inj e).symm⟩, fun ⟨d', hd', _, e⟩ => ?_⟩
      cases hd.symm.trans hd'
      exact congrArg some e.symm
  · rename_i hno
    exact ⟨nofun, fun ⟨d, hd, _⟩ => (hno d hd).elim⟩

end ClassDecl

/-! ## 3. One class -/

/-- Whether the report says of a class of that name that it does not provide an interface. -/
def Diagnostic.isLackOf (cls : String) : Diagnostic → Bool
  | .located _ (.interfaceNotImplemented c _) => c == cls
  | _ => false

/-- Whatever is wrong with a member, it is no interface that is not provided. -/
theorem Decl.memberFaults_lack (f : Forest) (a : Notes) (d : Decl) (cls : String) :
    (d.memberFaults f a).filter (·.isLackOf cls) = [] := by
  cases d with
  | var v =>
    show (v.fieldFaults f).filter _ = []
    unfold VarDecl.fieldFaults
    split <;> rfl
  | fn g =>
    show (g.overrideFaults f a ++ g.requiredFaults f a).filter _ = []
    rw [List.filter_append, List.append_eq_nil_iff]
    constructor
    -- a method's faults are mismatches, never a lack of an interface
    · unfold FnDecl.overrideFaults
      split
      · split <;> rfl
      · rfl
      · rfl
    · unfold FnDecl.requiredFaults
      split
      · split <;> rfl
      · rfl
  | iface _ => rfl
  | cls _ => rfl

namespace ClassDecl

variable {f : Forest} {a : Notes} {c : ClassDecl}

theorem isLackOf_of_missing {i : Ident} {r : Diagnostic} (h : c.missing? f a i = some r)
    (cls : String) : r.isLackOf cls = (c.name == cls) := by
  obtain ⟨d, -, -, rfl⟩ := missing?_eq_some.mp h
  rfl

/-- **Of the interfaces of a class only the first one is reported that is not provided.** -/
theorem faults_lack (f : Forest) (a : Notes) (c : ClassDecl) (cls : String) :
    (c.faults f a).filter (·.isLackOf cls) =
      if c.name = cls then (c.interfaces.findSome? (c.missing? f a)).toList else [] := by
  -- What is left are the faults of the head: at most one lack, named after the class.
  have hm : (c.members.flatMap (Decl.memberFaults f a)).filter (·.isLackOf cls) = [] := by
    rw [List.filter_flatMap, List.flatMap_eq_nil_iff]
    exact fun d _ => d.memberFaults_lack f a cls
  unfold faults
  rw [List.filter_append, hm, List.nil_append]
  cases hr : c.interfaces.findSome? (c.missing? f a) with
  | none => exact (ite_self []).symm
  | some r =>
    obtain ⟨i, -, hi⟩ := List.exists_of_findSome?_eq_some hr
    rw [Option.toList_some, List.filter_singleton, isLackOf_of_missing hi cls]
    by_cases hc : c.name = cls
    · rw [if_pos hc, beq_iff_eq.mpr hc]
      rfl
    · rw [if_neg hc, beq_eq_false_iff_ne.mpr hc]
      rfl

end ClassDecl

/-! ## 4. Programs -/

namespace Program

/-- A name after `implements` stands for an interface, and one of its prototypes is not met by the
nearest declaration in the class or above it. -/
structure Unprovided (p : Program) (c : ClassDecl) (i : Ident) (d : IfaceDecl) : Prop where
  bound : p.analyze.resolved.notes.decl? i = some (.iface d)
  unmet : ∃ q ∈ d.members,
    q.Unmet p.analyze.resolved.notes (Decl.among? (p.lineage (.cls c)) q.name)

variable {p : Program} {c : ClassDecl}

namespace Numbered

section

variable (h : p.Numbered) (hf : p.Flat) (hc : Decl.cls c ∈ p.decls)
  (hu : ∀ t ∈ p.types, t.name = c.name → t = .cls c)

include hc hu

omit h hf in
/-- A class that alone has its name is the type of the name. -/
theorem type?_alone : p.type? c.name = some (.cls c) := by
  have hs : (p.type? c.name).isSome = true :=
    List.find?_isSome.mpr ⟨.cls c, mem_types.mpr hc, beq_self_eq_true c.name⟩
  obtain ⟨t, ht⟩ := Option.isSome_iff_exists.mp hs
  obtain ⟨hm, hn⟩ := mem_of_type? ht
  exact ht.trans (congrArg some (hu t hm hn))

include h hf

/-- The members that the scopes give for such a class are the nearest ones of the text. -/
theorem member?_alone (name : String) : (p.scopes.enterClass c).member? c.name name =
    Decl.among? (p.lineage (.cls c)) name := by
  rw [h.enterClass_eq hc]
  refine (h.member?_eq hf c.name name).trans ?_
  rw [type?_alone hc hu]
  rfl

theorem missing?_iff {i : Ident} {r : Diagnostic} :
    c.missing? (p.scopes.enterClass c) p.analyze.resolved.notes i = some r ↔
      ∃ d, p.Unprovided c i d ∧ r = c.lacks i d := by
  simp only [ClassDecl.missing?_eq_some, h.member?_alone hf hc hu]
  exact exists_congr fun d => ⟨fun ⟨hb, hq, e⟩ => ⟨⟨hb, hq⟩, e⟩, fun ⟨⟨hb, hq⟩, e⟩ => ⟨hb, hq, e⟩⟩

omit hf in
/-- What is said of that kind about the class is said where the class is checked. -/
theorem lacks_eq : p.analyze.conformance.diagnostics.filter (·.isLackOf c.name) =
    (c.interfaces.findSome?
      (c.missing? (p.scopes.enterClass c) p.analyze.resolved.notes)).toList := by
  rw [h.conformance_eq, List.filter_flatMap]
  refine (flatMap_alone h.nodup_classes (Decl.mem_classes.mpr hc) fun c' hc' hne => ?_).trans ?_
  · rw [ClassDecl.faults_lack, if_neg fun e => hne ?_]
    cases hu (.cls c') (mem_types.mpr (Decl.mem_classes.mp hc')) e
    rfl
  · rw [ClassDecl.faults_lack, if_pos rfl]

/-- **A class is reported for its interfaces exactly if it does not provide one of those it lists.**
Then there is one such report, on the first of these, whatever else is wrong with the class. -/
theorem unprovided_reported :
    ((∃ r ∈ p.analyze.conformance.diagnostics, r.isLackOf c.name = true) ↔
      ∃ i ∈ c.interfaces, ∃ d, p.Unprovided c i d) ∧
    ∀ front i back d, c.interfaces = front ++ i :: back →
      (∀ j ∈ front, ∀ e, ¬ p.Unprovided c j e) → p.Unprovided c i d →
      p.analyze.conformance.diagnostics.filter (·.isLackOf c.name) = [c.lacks i d] := by
  have hl := h.lacks_eq hc hu
  constructor
  · constructor
    -- a report names the first of the listed interfaces that is not provided
    · intro ⟨r, hr, hb⟩
      have hm : r ∈ p.analyze.conformance.diagnostics.filter (·.isLackOf c.name) :=
        List.mem_filter.mpr ⟨hr, hb⟩
      rw [hl] at hm
      obtain ⟨i, hi, hm⟩ := List.exists_of_findSome?_eq_some (Option.mem_toList.mp hm)
      obtain ⟨d, hd, -⟩ := (h.missing?_iff hf hc hu).mp hm
      exact ⟨i, hi, d, hd⟩
    -- one that is not provided makes the search for the first succeed
    · intro ⟨i, hi, d, hd⟩
      have hm := (h.missing?_iff hf hc hu).mpr ⟨d, hd, rfl⟩
      have hs : (c.interfaces.findSome?
          (c.missing? (p.scopes.enterClass c) p.analyze.resolved.notes)).isSome = true :=
        List.findSome?_isSome_iff.mpr ⟨i, hi, Option.isSome_of_mem hm⟩
      obtain ⟨r, hr⟩ := Option.isSome_iff_exists.mp hs
      have hr : r ∈ p.analyze.conformance.diagnostics.filter (·.isLackOf c.name) := by
        rw [hl, hr]
        exact List.mem_singleton_self r
      exact ⟨r, List.mem_filter.mp hr⟩
  · intro front i back d hsplit hfront hd
    have hm := (h.missing?_iff hf hc hu).mpr ⟨d, hd, rfl⟩
    have hnone : ∀ j ∈ front,
        c.missing? (p.scopes.enterClass c) p.analyze.resolved.notes j = none := fun j hj => by
      refine Option.eq_none_iff_forall_ne_some.mpr fun r hr => ?_
      obtain ⟨e, he, -⟩ := (h.missing?_iff hf hc hu).mp hr
      exact hfront j hj e he
    rw [hl, List.findSome?_eq_some_iff.mpr ⟨front, i, back, hsplit, hm, hnone⟩]
    rfl

end

end Numbered

end Program

/-- A tile is a figure and lists four names. One stands for nothing; one asks for what a tile has
and inherits, with a type that nobody knows; one asks for a method where a tile has a field; and one
asks for a method of another signature. There are two figures, the first of which extends the tile,
and a function is called like the class. -/
def wares : Program := .number [
  .iface ⟨.nowhere, .onLine "Sized" 1, [
    ⟨.nowhere, .onLine "size" 2, .prim 0 .int, [], none⟩,
    ⟨.nowhere, .onLine "area" 3, .named 0 (.onLine "Gone" 3), [], none⟩]⟩,
  .iface ⟨.nowhere, .onLine "Named" 4, [⟨.nowhere, .onLine "label" 5, .prim 0 .string, [], none⟩]⟩,
  .iface ⟨.nowhere, .onLine "Drawn" 6, [⟨.nowhere, .onLine "draw" 7, .prim 0 .void, [], none⟩]⟩,
  .cls ⟨.nowhere, .onLine "Figure" 8, some (.onLine "Tile" 8), [], [
    .fn ⟨.nowhere, .onLine "size" 9, .prim 0 .int, [], some .empty⟩]⟩,
  .cls ⟨.nowhere, .onLine "Figure" 10, none, [], []⟩,
  .fn ⟨.nowhere, .onLine "Tile" 11, .prim 0 .void, [], none⟩,
  .cls ⟨.nowhere, .onLine "Tile" 12, some (.onLine "Figure" 12),
    [.onLine "Lost" 13, .onLine "Sized" 14, .onLine "Named" 15, .onLine "Drawn" 16], [
      .fn ⟨.nowhere, .onLine "area" 17, .prim 0 .int, [], some .empty⟩,
      .var ⟨.nowhere, .onLine "label" 18, .prim 0 .string⟩,
      .fn ⟨.nowhere, .onLine "draw" 19, .prim 0 .int, [], some .empty⟩]⟩]

/-- The tile among the wares. -/
def wares.tile : ClassDecl := ((wares.type? "Tile").bind TypeDecl.cls?).getD default

theorem wares.numbered : wares.Numbered := Program.number_numbered _

theorem wares.tile_mem : Decl.cls wares.tile ∈ wares.decls :=
  Program.mem_types.mp
    (Program.mem_of_type? (rfl : wares.type? "Tile" = some (.cls wares.tile))).1

theorem wares.tile_only (t : TypeDecl) (ht : t ∈ wares.types) (hn : t.name = wares.tile.name) :
    t = .cls wares.tile := by
  have only : ∀ t ∈ wares.types, t.name = wares.tile.name → t.id = wares.tile.node.id := by
    decide +kernel
  have htile : TypeDecl.cls wares.tile ∈ wares.types := Program.mem_types.mpr wares.tile_mem
  exact List.inj_on_of_nodup_map wares.numbered.nodup_types ht htile (only t ht hn)

/-- A name that the tile lists. -/
def wares.listed (k : Nat) : Ident := wares.tile.interfaces.getD k default

/-- Of the two interfaces that a tile does not provide, the first one is reported. -/
theorem unprovided_reported_wares :
    wares.analyze.conformance.diagnostics.filter (·.isLackOf "Tile") =
      [.located (.point 15 1) (.interfaceNotImplemented "Tile" "Named")] := by
  have hf : wares.Flat := of_decide_eq_true rfl
  have lacks := fun i r => wares.numbered.missing?_iff hf wares.tile_mem wares.tile_only (i := i)
    (r := r)
  have front : ∀ j ∈ [wares.listed 0, wares.listed 1], ∀ e, ¬ wares.Unprovided wares.tile j e := by
    have hn : ∀ j ∈ [wares.listed 0, wares.listed 1], wares.tile.missing?
        (wares.scopes.enterClass wares.tile) wares.analyze.resolved.notes j = none := by
      decide +kernel
    intro j hj e he
    have hm := (lacks j _).mpr ⟨e, he, rfl⟩
    rw [hn j hj] at hm
    cases hm
  obtain ⟨d, hd, e⟩ := (lacks (wares.listed 2)
    (.located (.point 15 1) (.interfaceNotImplemented "Tile" "Named"))).mp (by decide +kernel)
  rw [e]
  exact (wares.numbered.unprovided_reported hf wares.tile_mem wares.tile_only).2
    [wares.listed 0, wares.listed 1] (wares.listed 2) [wares.listed 3] d rfl front hd

end DecafLang
