import DecafLang.Syntax.Handwritten
import DecafLang.Proofs.Layouts
import DecafLang.Proofs.Numbering

/-!
# Heirs

What the layout of a class takes over from the layout of the class that it extends, in a program
whose names need not be in order: members may replace inherited ones, and one another.

* The names that are inherited come first, at the positions that they have in the base. **The names
  that are new come behind them,** each once, in the order in which they are first declared
  (`ObjectLayout.Continues`).
* Under every name stands the last declaration of it in the nearest class that has one
  (`ObjectLayout.Nearest`).
* **The tables of the program agree with all objects** (`Layout.Inherits`): they are written class
  after class, and what is written again has been there before.
-/

namespace DecafLang

/-! ## 1. One class and its base -/

namespace ObjectLayout

/-- The names of a base go on in the layout of a class that extends it. -/
structure Continues (o : ObjectLayout) (fields methods : List String) (c : ClassDecl) : Prop where
  fields : o.fields.map VarDecl.name =
    fields ++ ((c.fields.map VarDecl.name).removeAll fields).eraseDups
  methods : o.methods.map TableEntry.name =
    methods ++ ((c.methods.map FnDecl.name).removeAll methods).eraseDups

/-- No name is there twice, and the words of the fields fill the object behind its first word. -/
structure Orderly (o : ObjectLayout) : Prop where
  fields_nodup : (o.fields.map VarDecl.name).Nodup
  methods_nodup : (o.methods.map TableEntry.name).Nodup
  offsets : o.fields.map (fun v => o.fieldOffset? v.name) =
    (List.range o.fields.length).map fun i => some (4 * i + 4)
  slots : o.methods.map (fun e => o.slotOf? e.name) = (List.range o.methods.length).map some
  size : o.size = 4 * o.fields.length + 4

/-- Under every name stands the last declaration of it in the first of these classes that has
one. -/
structure Nearest (o : ObjectLayout) (line : List ClassDecl) : Prop where
  field : ∀ n, o.fields.find? (·.name == n) =
    line.findSome? fun c => c.fields.findRev? (·.name == n)
  method : ∀ n, o.methods.find? (·.name == n) =
    line.findSome? fun c => (c.methods.findRev? (·.name == n)).map (TableEntry.mk c.name)

theorem extend_continues (fields : List VarDecl) (methods : List TableEntry) (c : ClassDecl) :
    (extend fields methods c).Continues (fields.map VarDecl.name)
      (methods.map TableEntry.name) c where
  fields := map_foldl_place _ _
  methods := by
    rw [extend_methods, map_foldl_place, List.map_map]
    rfl

/-- The entries of a list whose names are distinct have the positions that count them. -/
theorem map_position? {α : Type} {name : α → String} {l : List α} (hn : (l.map name).Nodup) :
    l.map (fun x => position? name (name x) l) = (List.range l.length).map some := by
  refine List.ext_getElem? fun i => ?_
  rw [List.getElem?_map, List.getElem?_map]
  cases hx : l[i]? with
  | none => rw [List.getElem?_eq_none (by simpa using hx)]; rfl
  | some x =>
    obtain ⟨hi, -⟩ := List.getElem?_eq_some_iff.mp hx
    rw [List.getElem?_range hi, Option.map_some, position?_getElem hn hx]
    rfl

theorem along_orderly (c : ClassDecl) (above : List ClassDecl) : (along c above).Orderly := by
  obtain ⟨hf, hm⟩ := nodup_along c above
  refine ⟨hf, hm, ?_, map_position? hm, Nat.add_comm ..⟩
  -- an offset is told by a position
  have hoff : (along c above).fields.map (fun v => (along c above).fieldOffset? v.name) =
      ((along c above).fields.map fun v =>
        position? VarDecl.name v.name (along c above).fields).map (Option.map offsetAt) := by
    rw [List.map_map]
    rfl
  rw [hoff, map_position? hf, List.map_map]
  exact List.map_congr_left fun i _ => congrArg some (Nat.add_comm 4 (4 * i))

theorem along_nearest (c : ClassDecl) (above : List ClassDecl) :
    (along c above).Nearest (c :: above) :=
  ⟨find?_fields c above, find?_methods c above⟩

end ObjectLayout

/-! ## 2. All classes -/

namespace Layout

variable {l : Layout} {h : Hierarchy} {c : ClassDecl} {cs : List ClassDecl}

/-- A method stands in every table in the slot that its class gives to its name. -/
theorem Arranged.method_position (hl : l.Arranged h cs) (ha : h.Acyclic) (hs : h.Sorts cs)
    (hc : c ∈ cs) {s : Nat} {e : TableEntry} (he : (h.object c).methods[s]? = some e) :
    ∃ d ∈ cs, e.method ∈ d.methods ∧ (h.object d).slotOf? e.method.name = some s := by
  obtain ⟨d, hd, -, hed⟩ := ObjectLayout.of_mem_methods (List.mem_of_getElem? he)
  obtain ⟨hm, hk⟩ := Hierarchy.of_mem_line (hl.known c hc) hd
  exact ⟨d, (hs.mem_iff d).mpr ⟨_, hk⟩, hed, position?_since
    (ha.object_stays hm (hl.known c hc) hk).2 (ObjectLayout.nodup_along c (h.above c)).2
    (ObjectLayout.name_mem_methods hed) he⟩

/-- **The layout of every class goes on from that of the class that it extends,** and the tables of
the program have the places that all classes give to their members. -/
structure Inherits (l : Layout) (h : Hierarchy) : Prop where
  found : ∀ o ∈ l.classes, l.class? o.name = some o
  classes : ∀ C, (l.class? C).isSome = (h.class? C).isSome
  root : ∀ C c o, h.class? C = some c → l.class? C = some o → h.base? C = none →
    o.Continues [] [] c
  heir : ∀ C c o B, h.class? C = some c → l.class? C = some o → h.base? C = some B →
    ∃ b, l.class? B = some b ∧
      o.Continues (b.fields.map VarDecl.name) (b.methods.map TableEntry.name) c
  orderly : ∀ C o, l.class? C = some o → o.Orderly
  nearest : ∀ C o, l.class? C = some o → o.Nearest ((h.ancestors C).filterMap h.class?)
  offset : ∀ C o i v, l.class? C = some o → o.fields[i]? = some v →
    l.fieldOffset? v.id = some (4 * i + 4)
  slot : ∀ C o s e, l.class? C = some o → o.methods[s]? = some e →
    l.methodSlot? e.method.id = some s

theorem Arranged.inherits (hl : l.Arranged h cs) (ha : h.Acyclic) (hs : h.Sorts cs)
    (hi : ClassDecl.Apart cs) : l.Inherits h := by
  -- a layout is that of a class of the hierarchy
  have known : ∀ {C o}, l.class? C = some o →
      ∃ c, h.class? C = some c ∧ c ∈ cs ∧ h.object c = o := by
    intro C o ho
    rw [hl.class?_map hs] at ho
    obtain ⟨c, hc, rfl⟩ := Option.map_eq_some_iff.mp ho
    exact ⟨c, hc, (hs.mem_iff c).mpr ⟨C, hc⟩, rfl⟩
  refine ⟨fun o ho => ?_, fun C => ?_, fun C c o hc ho hb => ?_, fun C c o B hc ho hb => ?_,
    fun C o ho => ?_, fun C o ho => ?_, fun C o i v ho hv => ?_, fun C o s e ho he => ?_⟩
  · rw [hl.classes] at ho
    obtain ⟨c, hc, rfl⟩ := List.mem_map.mp ho
    exact (congrArg l.class? (ObjectLayout.along_name ..)).trans (hl.class?_eq hc)
  · rw [hl.class?_map hs, Option.isSome_map]
  · obtain rfl := Hierarchy.class?_name hc
    rw [hl.class?_map hs, hc] at ho
    cases ho
    unfold Hierarchy.object
    rw [ha.above_none hb]
    exact ObjectLayout.extend_continues [] [] c
  · obtain rfl := Hierarchy.class?_name hc
    obtain ⟨d, hd⟩ := Option.isSome_iff_exists.mp (Hierarchy.base?_isSome hb).2
    rw [hl.class?_map hs, hc] at ho
    cases ho
    refine ⟨h.object d, by rw [hl.class?_map hs, hd]; rfl, ?_⟩
    unfold Hierarchy.object
    rw [ha.above_some hb hd]
    exact ObjectLayout.extend_continues _ _ c
  · obtain ⟨c, -, -, rfl⟩ := known ho
    exact ObjectLayout.along_orderly c _
  · obtain ⟨c, hc, -, rfl⟩ := known ho
    rw [Hierarchy.class_ancestors hc]
    exact ObjectLayout.along_nearest c _
  · obtain ⟨c, -, hc, rfl⟩ := known ho
    exact (hl.fieldOffset?_iff ha hs hi).mpr ⟨c, hc, i, v, hv, rfl, Nat.add_comm ..⟩
  · obtain ⟨c, -, hc, rfl⟩ := known ho
    obtain ⟨d, hd, hm, hslot⟩ := hl.method_position ha hs hc he
    exact (hl.methodSlot?_iff hi).mpr ⟨d, hd, e.method, hm, rfl, hslot⟩

end Layout

/-- **Layouts are inherited.** Where no class extends itself, the layout of every class goes on from
that of the class that it extends, whatever members replace others. -/
theorem Program.Numbered.layout_inherits {p : Program} (h : p.Numbered)
    (ha : p.analyze.hierarchy.Acyclic) :
    ∃ l, Layout.ofProgram p.analyze.hierarchy p = .ok l ∧ l.Inherits p.analyze.hierarchy := by
  obtain ⟨l, cs, hl, hs, har, -⟩ := Layout.ofProgram_arranged (p := p) ha
  exact ⟨l, hl, har.inherits ha hs (h.apart hs)⟩

/-- Three classes that replace what they inherit, and one of them its own members as well. -/
def heirs : Program := .number [
  .cls ⟨.nowhere, .called "Child", some (.called "Parent"), [], [
    field "d", field "b", field "e", field "b", method "f"]⟩,
  .cls ⟨.nowhere, .called "Parent", some (.called "Elder"), [], [
    field "c", field "a", method "g", field "c", method "g", method "k"]⟩,
  .cls ⟨.nowhere, .called "Elder", none, [], [field "a", field "b", method "f", method "g"]⟩]
where
  field (s : String) : Decl := .var (.int s)
  method (s : String) : Decl := .fn ⟨.nowhere, .called s, .prim 0 .void, [], some .empty⟩

/-- The fields of a child come behind those of its parent, which come behind those of the elder. -/
theorem layout_inherits_heirs : ∃ l o, Layout.ofProgram heirs.analyze.hierarchy heirs = .ok l ∧
    l.class? "Child" = some o ∧ l.Inherits heirs.analyze.hierarchy ∧
      o.fields.map VarDecl.name = ["a", "b", "c", "d", "e"] ∧
      o.methods.map TableEntry.label = ["_Child.f", "_Parent.g", "_Parent.k"] := by
  have hn : heirs.Numbered := Program.number_numbered _
  obtain ⟨l, hl, hi⟩ := hn.layout_inherits (by decide +kernel)
  -- what the object of `Child` looks like is a matter of the hierarchy alone
  have hk : ((heirs.analyze.hierarchy.class? "Child").map heirs.analyze.hierarchy.object).map
      (fun o => (o.fields.map VarDecl.name, o.methods.map TableEntry.label)) =
        some (["a", "b", "c", "d", "e"], ["_Child.f", "_Parent.g", "_Parent.k"]) := by
    decide +kernel
  rw [← Layout.class?_of_ofProgram hl] at hk
  obtain ⟨o, ho, e⟩ := Option.map_eq_some_iff.mp hk
  exact ⟨l, o, hl, ho, hi, congrArg Prod.fst e, congrArg Prod.snd e⟩

end DecafLang
