import DecafLang.Proofs.Ancestry
import DecafLang.Proofs.Places

/-!
# What lies where

The objects and the tables of a program without a cycle of classes, told by its hierarchy.

* `Hierarchy.object` is what the objects of a class look like: those of the class it extends, with
  its own fields and methods put in their places.
* **The layout of a program has exactly these objects** (`Layout.ofProgram_arranged`), in whatever
  order the classes have been laid out.
* What is put in its place keeps it further down (`ObjectLayout.along_stays`). So a field has one
  offset, and a method one slot, in all objects that have it (`Layout.Arranged.fieldOffset?_iff`,
  `methodSlot?_iff`).
-/

namespace DecafLang

/-! ## 1. Objects -/

namespace ObjectLayout

variable {c b : ClassDecl} {above rest : List ClassDecl}

/-- The objects of a class that extends these classes, nearest first. -/
def along : ClassDecl → List ClassDecl → ObjectLayout
  | c, [] => extend [] [] c
  | c, b :: above => extend (along b above).fields (along b above).methods c

theorem along_name (c : ClassDecl) (above : List ClassDecl) : (along c above).name = c.name := by
  cases above <;> rfl

theorem extend_methods (fields : List VarDecl) (methods : List TableEntry) (c : ClassDecl) :
    (extend fields methods c).methods = (c.methods.map (TableEntry.mk c.name)).foldl
      (fun l y => place TableEntry.name y l) methods := by
  rw [List.foldl_map]
  rfl

/-- The names of the fields and of the methods stay where they are in all classes below. -/
theorem along_stays (h : b :: rest <:+ c :: above) :
    (along b rest).fields.map VarDecl.name <+: (along c above).fields.map VarDecl.name ∧
      (along b rest).methods.map TableEntry.name <+:
        (along c above).methods.map TableEntry.name := by
  induction above generalizing c with
  | nil =>
    rcases List.suffix_cons_iff.mp h with e | h
    · cases e
      exact ⟨List.prefix_rfl, List.prefix_rfl⟩
    · cases List.suffix_nil.mp h
  | cons a above ih =>
    rcases List.suffix_cons_iff.mp h with e | h
    · cases e
      exact ⟨List.prefix_rfl, List.prefix_rfl⟩
    · obtain ⟨hf, hm⟩ := ih h
      refine ⟨hf.trans (names_foldl_place _ _), hm.trans ?_⟩
      rw [along, extend_methods]
      exact names_foldl_place _ _

theorem nodup_along (c : ClassDecl) (above : List ClassDecl) :
    ((along c above).fields.map VarDecl.name).Nodup ∧
      ((along c above).methods.map TableEntry.name).Nodup := by
  have step : ∀ {fields : List VarDecl} {methods : List TableEntry} (c : ClassDecl),
      (fields.map VarDecl.name).Nodup → (methods.map TableEntry.name).Nodup →
        ((extend fields methods c).fields.map VarDecl.name).Nodup ∧
          ((extend fields methods c).methods.map TableEntry.name).Nodup := by
    intro fields methods c hf hm
    rw [extend_methods]
    exact ⟨nodup_foldl_place _ hf, nodup_foldl_place _ hm⟩
  induction above generalizing c with
  | nil => exact step c List.nodup_nil List.nodup_nil
  | cons b above ih => exact step c (ih b).1 (ih b).2

theorem name_mem_fields {v : VarDecl} (hv : v ∈ c.fields) :
    v.name ∈ (along c above).fields.map VarDecl.name := by
  cases above <;> exact name_mem_foldl_place (.inr hv)

theorem name_mem_methods {g : FnDecl} (hg : g ∈ c.methods) :
    g.name ∈ (along c above).methods.map TableEntry.name := by
  have hm : TableEntry.mk c.name g ∈ c.methods.map (TableEntry.mk c.name) := List.mem_map_of_mem hg
  cases above <;> rw [along, extend_methods] <;> exact name_mem_foldl_place (.inr hm)

/-- The fields of a class are there, if they have names of their own. -/
theorem mem_fields {v : VarDecl} (hn : (c.fields.map VarDecl.name).Nodup) (hv : v ∈ c.fields) :
    v ∈ (along c above).fields := by
  cases above <;> exact mem_foldl_place_of_nodup hn hv

/-- Every field of the objects is one of the class or of a class above it. -/
theorem of_mem_fields {v : VarDecl} (hv : v ∈ (along c above).fields) :
    ∃ b ∈ c :: above, v ∈ b.fields := by
  induction above generalizing c with
  | nil =>
    have hv := (of_mem_foldl_place hv).resolve_right List.not_mem_nil
    exact ⟨c, List.mem_cons_self, hv⟩
  | cons a above ih =>
    rcases of_mem_foldl_place hv with hv | hv
    · exact ⟨c, List.mem_cons_self, hv⟩
    · obtain ⟨b, hb, hv⟩ := ih hv
      exact ⟨b, List.mem_cons_of_mem c hb, hv⟩

/-- Every method in the table is one of the class or of a class above it. -/
theorem of_mem_methods {e : TableEntry} (he : e ∈ (along c above).methods) :
    ∃ b ∈ c :: above, e.cls = b.name ∧ e.method ∈ b.methods := by
  have own : ∀ {c : ClassDecl}, e ∈ c.methods.map (TableEntry.mk c.name) →
      e.cls = c.name ∧ e.method ∈ c.methods := fun he => by
    obtain ⟨g, hg, rfl⟩ := List.mem_map.mp he
    exact ⟨rfl, hg⟩
  induction above generalizing c with
  | nil =>
    rw [along, extend_methods] at he
    exact ⟨c, List.mem_cons_self, own ((of_mem_foldl_place he).resolve_right List.not_mem_nil)⟩
  | cons a above ih =>
    rw [along, extend_methods] at he
    rcases of_mem_foldl_place he with he | he
    · exact ⟨c, List.mem_cons_self, own he⟩
    · obtain ⟨b, hb, he⟩ := ih he
      exact ⟨b, List.mem_cons_of_mem c hb, he⟩

/-- The fields have, under every name, the last of that name in the nearest class with one. -/
theorem find?_fields (c : ClassDecl) (above : List ClassDecl) (n : String) :
    (along c above).fields.find? (·.name == n) =
      (c :: above).findSome? fun b => b.fields.findRev? (·.name == n) := by
  induction above generalizing c with
  | nil =>
    rw [findSome?_cons_or]
    exact find?_foldl_place _ _ n
  | cons a above ih =>
    rw [findSome?_cons_or, ← ih a]
    exact find?_foldl_place _ _ n

/-- **The table has, under every name, the last method of that name in the nearest class with
one.** -/
theorem find?_methods (c : ClassDecl) (above : List ClassDecl) (n : String) :
    (along c above).methods.find? (·.name == n) = (c :: above).findSome? fun b =>
      (b.methods.findRev? (·.name == n)).map (TableEntry.mk b.name) := by
  have step : ∀ {fields : List VarDecl} {methods : List TableEntry} {c : ClassDecl},
      (extend fields methods c).methods.find? (·.name == n) =
        ((c.methods.findRev? (·.name == n)).map (TableEntry.mk c.name)).or
          (methods.find? (·.name == n)) := by
    intro fields methods c
    rw [extend_methods, find?_foldl_place, List.findRev?_eq_find?_reverse, ← List.map_reverse,
      List.find?_map, List.findRev?_eq_find?_reverse]
    rfl
  induction above generalizing c with
  | nil =>
    rw [along, step, findSome?_cons_or]
    rfl
  | cons a above ih => rw [along, step, ih, findSome?_cons_or _ c]

end ObjectLayout

/-! ## 2. Classes and those above them -/

namespace Hierarchy

/-- The classes above a class, nearest first. -/
def above (h : Hierarchy) (c : ClassDecl) : List ClassDecl :=
  (h.ancestors c.name).tail.filterMap h.class?

/-- What the objects of a class look like. -/
def object (h : Hierarchy) (c : ClassDecl) : ObjectLayout := .along c (h.above c)

variable {h : Hierarchy} {a b : String} {c d : ClassDecl}

theorem class_ancestors (hc : h.class? a = some c) :
    (h.ancestors a).filterMap h.class? = c :: h.above c := by
  obtain rfl := class?_name hc
  show (c.name :: (h.ancestors c.name).tail).filterMap h.class? = _
  rw [List.filterMap_cons, hc]
  rfl

theorem of_mem_line (hc : h.class? a = some c) (hd : d ∈ c :: h.above c) :
    d.name ∈ h.ancestors a ∧ h.class? d.name = some d := by
  rw [← class_ancestors hc] at hd
  obtain ⟨n, hn, hd⟩ := List.mem_filterMap.mp hd
  obtain rfl := class?_name hd
  exact ⟨hn, hd⟩

/-- Without a cycle the ancestors of a class are those of its base, and the class itself. -/
theorem Acyclic.ancestors_eq (ha : h.Acyclic) (n : String) :
    h.ancestors n = n :: ((h.base? n).map h.ancestors).getD [] :=
  Chain.fromStart_cons (l := h.names) (fun _ _ => base?_mem_names)
    (Nat.le_of_eq (List.length_map _)) (ha n)

theorem Acyclic.above_none (ha : h.Acyclic) (hb : h.base? c.name = none) : h.above c = [] := by
  unfold above
  rw [ha.ancestors_eq, hb]
  rfl

theorem Acyclic.above_some (ha : h.Acyclic) (hb : h.base? c.name = some b)
    (hd : h.class? b = some d) : h.above c = d :: h.above d := by
  unfold above
  rw [ha.ancestors_eq, hb]
  exact class_ancestors hd

/-- **What is above an ancestor of a class is the rest of what is above the class.** -/
theorem Acyclic.line_suffix (ha : h.Acyclic) (hb : b ∈ h.ancestors a) (hc : h.class? a = some c)
    (hd : h.class? b = some d) : d :: h.above d <:+ c :: h.above c := by
  induction mem_ancestors_iff.mp hb generalizing d with
  | refl =>
    cases hc.symm.trans hd
    exact List.suffix_rfl
  | tail hab hbase ih =>
    obtain ⟨k, hk⟩ := Option.isSome_iff_exists.mp (base?_isSome hbase).1
    obtain rfl := class?_name hk
    have hs := ih (mem_ancestors_iff.mpr hab) hk
    rw [ha.above_some hbase hd] at hs
    exact (List.suffix_cons k _).trans hs

/-- An object has the names of an object of a class above at the same positions. -/
theorem Acyclic.object_stays (ha : h.Acyclic) (hb : b ∈ h.ancestors a) (hc : h.class? a = some c)
    (hd : h.class? b = some d) :
    (h.object d).fields.map VarDecl.name <+: (h.object c).fields.map VarDecl.name ∧
      (h.object d).methods.map TableEntry.name <+: (h.object c).methods.map TableEntry.name :=
  ObjectLayout.along_stays (ha.line_suffix hb hc hd)

end Hierarchy

/-! ## 3. The layout of a program -/

/-- No two members of the classes have the same number. -/
def ClassDecl.Apart (cs : List ClassDecl) : Prop :=
  ∀ c ∈ cs, ∀ c' ∈ cs, ∀ d ∈ c.members, ∀ d' ∈ c'.members, d.id = d'.id → c = c' ∧ d = d'

namespace Layout

/-- These classes of the hierarchy are laid out, and that is all. -/
structure Arranged (l : Layout) (h : Hierarchy) (cs : List ClassDecl) : Prop where
  known : ∀ c ∈ cs, h.class? c.name = some c
  classes : l.classes = cs.map h.object
  fieldOffsets : l.fieldOffsets = Table.empty.insertAll
    (cs.flatMap fun c => (h.object c).fieldEntries)
  methodSlots : l.methodSlots = Table.empty.insertAll
    (cs.flatMap fun c => (h.object c).methodEntries c)

variable {l : Layout} {h : Hierarchy} {c d : ClassDecl} {cs : List ClassDecl} {p : Program}

theorem Arranged.class?_eq (hl : l.Arranged h cs) (hc : c ∈ cs) :
    l.class? c.name = some (h.object c) := by
  unfold class?
  rw [hl.classes, List.find?_map]
  have hf : cs.find? ((·.name == c.name) ∘ h.object) = some c := by
    have hs : (cs.find? ((·.name == c.name) ∘ h.object)).isSome = true :=
      List.find?_isSome.mpr ⟨c, hc, beq_iff_eq.mpr (ObjectLayout.along_name ..)⟩
    obtain ⟨e, he⟩ := Option.isSome_iff_exists.mp hs
    have hb : ((h.object e).name == c.name) = true := (List.find?_some he :)
    have hn : e.name = c.name := (ObjectLayout.along_name ..).symm.trans (beq_iff_eq.mp hb)
    have hk := hl.known e (List.mem_of_find?_eq_some he)
    rw [hn, hl.known c hc] at hk
    cases hk
    exact he
  rw [hf]
  rfl

theorem Arranged.class?_map (hl : l.Arranged h cs) (hs : h.Sorts cs) (name : String) :
    l.class? name = (h.class? name).map h.object := by
  cases hc : h.class? name with
  | some c =>
    obtain rfl := Hierarchy.class?_name hc
    exact hl.class?_eq ((hs.mem_iff c).mpr ⟨_, hc⟩)
  | none =>
    refine List.find?_eq_none.mpr fun o ho hn => ?_
    rw [hl.classes] at ho
    obtain ⟨c, hm, rfl⟩ := List.mem_map.mp ho
    have hn : c.name = name := (ObjectLayout.along_name ..).symm.trans (beq_iff_eq.mp hn)
    have hk := hl.known c hm
    rw [hn, hc] at hk
    cases hk

/-- A class is laid out as the hierarchy says, once the class that it extends is there. -/
theorem Arranged.addClass (ha : h.Acyclic) (hl : l.Arranged h cs) (hc : h.class? c.name = some c)
    (hb : ∀ b, h.base? c.name = some b → b ∈ cs.map ClassDecl.name) :
    (l.addClass h c).Arranged h (cs ++ [c]) := by
  have hown : l.addClass h c = { l with
      classes := l.classes ++ [h.object c]
      methodSlots := l.methodSlots.insertAll ((h.object c).methodEntries c)
      fieldOffsets := l.fieldOffsets.insertAll (h.object c).fieldEntries } := by
    unfold Layout.addClass Hierarchy.object
    -- the layout of the base is the one that was put there, since no other has its name
    cases hbase : h.base? c.name with
    | none =>
      rw [ha.above_none hbase]
      rfl
    | some b =>
      obtain ⟨d, hd, rfl⟩ := List.mem_map.mp (hb b hbase)
      rw [ha.above_some hbase (hl.known d hd), Option.bind_some, hl.class?_eq hd]
      rfl
  rw [hown]
  refine ⟨fun d hd => ?_, ?_, ?_, ?_⟩
  · rcases List.mem_append.mp hd with hd | hd
    · exact hl.known d hd
    · obtain rfl := List.mem_singleton.mp hd
      exact hc
  · rw [hl.classes, List.map_append]
    rfl
  · rw [hl.fieldOffsets, List.flatMap_append, List.flatMap_singleton, Table.insertAll_append]
  · rw [hl.methodSlots, List.flatMap_append, List.flatMap_singleton, Table.insertAll_append]

theorem arranged_empty : empty.Arranged h [] := ⟨nofun, rfl, rfl, rfl⟩

/-- Classes that are sorted are laid out as the hierarchy says. -/
theorem arranged_classes (ha : h.Acyclic) (hs : h.Sorts cs) :
    (cs.foldl (Layout.addClass h) empty).Arranged h cs := by
  -- some of them have been laid out, the others are to come
  have along : ∀ (rest done : List ClassDecl) (l : Layout), cs = done ++ rest →
      l.Arranged h done → (rest.foldl (Layout.addClass h) l).Arranged h cs := by
    intro rest
    induction rest with
    | nil =>
      intro done l e hl
      rwa [e, List.append_nil]
    | cons c rest ih =>
      intro done l e hl
      obtain ⟨n, hn⟩ := (hs.mem_iff c).mp (e ▸ List.mem_append_right _ List.mem_cons_self)
      obtain rfl := Hierarchy.class?_name hn
      have hc := hl.addClass ha hn (hs.front done c rest e)
      exact ih (done ++ [c]) _ (by rw [e, List.append_assoc]; rfl) hc
  exact along cs [] empty rfl arranged_empty

theorem Arranged.addGlobals (hl : l.Arranged h cs) (vs : List VarDecl) :
    (vs.foldl addGlobal l).Arranged h cs := by
  induction vs generalizing l with
  | nil => exact hl
  | cons v vs ih => exact ih ⟨hl.known, hl.classes, hl.fieldOffsets, hl.methodSlots⟩

/-- The globals get places. -/
theorem globalOffset?_isSome (vs : List VarDecl) {i : NodeId} :
    ((vs.foldl addGlobal l).globalOffset? i).isSome = true ↔
      (l.globalOffset? i).isSome = true ∨ ∃ v ∈ vs, v.id = i := by
  induction vs generalizing l with
  | nil => exact ⟨.inl, fun h => h.elim id fun ⟨_, h, _⟩ => nomatch h⟩
  | cons v vs ih =>
    have e : (l.addGlobal v).globalOffset? i =
        if v.id = i then some l.globalSize else l.globalOffset? i := Table.get?_insert _ _ _ _
    rw [List.foldl_cons, ih, e]
    by_cases hi : v.id = i
    · rw [if_pos hi]
      exact ⟨fun _ => .inr ⟨v, List.mem_cons_self, hi⟩, fun _ => .inl rfl⟩
    · rw [if_neg hi]
      simp only [List.mem_cons, or_and_right, exists_or, exists_eq_left, hi, false_or]

/-- **The layout of a program has the objects that the hierarchy says,** and all globals. -/
theorem ofProgram_arranged (ha : h.Acyclic) :
    ∃ l cs, ofProgram h p = .ok l ∧ h.Sorts cs ∧ l.Arranged h cs ∧
      ∀ v, Decl.var v ∈ p.decls → (l.globalOffset? v.id).isSome = true := by
  obtain ⟨cs, e, hs⟩ := ha.sorted
  have hl := (arranged_classes ha hs).addGlobals (p.decls.filterMap Decl.var?)
  refine ⟨_, cs, ?_, hs, hl, fun v hv => ?_⟩
  · unfold ofProgram
    rw [e]
  · exact (globalOffset?_isSome _).mpr (.inr ⟨v, List.mem_filterMap.mpr ⟨_, hv, rfl⟩, rfl⟩)

/-- A layout is that of a program without a cycle of classes. -/
theorem of_ofProgram (hl : ofProgram h p = .ok l) :
    h.Acyclic ∧ ∃ cs, h.Sorts cs ∧ l.Arranged h cs := by
  have ha : h.Acyclic := by
    unfold ofProgram at hl
    cases e : h.sorted with
    | error r =>
      rw [e] at hl
      cases hl
    | ok cs => exact Hierarchy.acyclic_of_sorted e
  obtain ⟨l', cs, hl', hs, har, -⟩ := ofProgram_arranged (p := p) ha
  cases hl.symm.trans hl'
  exact ⟨ha, cs, hs, har⟩

/-- What is laid out are the objects of the classes. -/
theorem class?_of_ofProgram (hl : ofProgram h p = .ok l) (name : String) :
    l.class? name = (h.class? name).map h.object := by
  obtain ⟨-, cs, hs, har⟩ := of_ofProgram hl
  exact har.class?_map hs name

/-! ## 4. Offsets and slots -/

theorem mem_methodEntries {o : ObjectLayout} {i : NodeId} {s : Nat} :
    (i, s) ∈ o.methodEntries c ↔ ∃ m ∈ c.methods, m.id = i ∧ o.slotOf? m.name = some s := by
  unfold ObjectLayout.methodEntries
  rw [List.mem_filterMap]
  refine exists_congr fun m => and_congr_right fun _ => ?_
  cases o.slotOf? m.name with
  | none => simp
  | some s' => simp

theorem mem_fieldEntries {o : ObjectLayout} {i : NodeId} {k : Nat} :
    (i, k) ∈ o.fieldEntries ↔ ∃ n v, o.fields[n]? = some v ∧ v.id = i ∧
      ObjectLayout.offsetAt n = k := by
  unfold ObjectLayout.fieldEntries
  rw [List.mem_map]
  constructor
  · intro ⟨⟨v, n⟩, hv, e⟩
    cases e
    exact ⟨n, v, List.mk_mem_zipIdx_iff_getElem?.mp hv, rfl, rfl⟩
  · intro ⟨n, v, hv, hi, hk⟩
    exact ⟨(v, n), List.mk_mem_zipIdx_iff_getElem?.mpr hv, by rw [← hi, ← hk]⟩

/-- **A method has the slot of its name in the table of its class.** -/
theorem Arranged.methodSlot?_iff (hl : l.Arranged h cs) (hi : ClassDecl.Apart cs) {i : NodeId}
    {s : Nat} : l.methodSlot? i = some s ↔ ∃ c ∈ cs, ∃ m ∈ c.methods, m.id = i ∧
      (h.object c).slotOf? m.name = some s := by
  have hmem : ∀ {i s}, (i, s) ∈ cs.flatMap (fun c => (h.object c).methodEntries c) ↔
      ∃ c ∈ cs, ∃ m ∈ c.methods, m.id = i ∧ (h.object c).slotOf? m.name = some s := by
    intro i s
    rw [List.mem_flatMap]
    exact exists_congr fun c => and_congr_right fun _ => mem_methodEntries
  have hone : ∀ i s t, (i, s) ∈ cs.flatMap (fun c => (h.object c).methodEntries c) →
      (i, t) ∈ cs.flatMap (fun c => (h.object c).methodEntries c) → s = t := by
    intro i s t hms hmt
    obtain ⟨c, hc, m, hm, rfl, hs⟩ := hmem.mp hms
    obtain ⟨c', hc', m', hm', e, ht⟩ := hmem.mp hmt
    obtain ⟨rfl, e⟩ :=
      hi c hc c' hc' _ (ClassDecl.mem_methods.mp hm) _ (ClassDecl.mem_methods.mp hm') e.symm
    cases e
    exact Option.some.inj (hs.symm.trans ht)
  unfold methodSlot?
  rw [hl.methodSlots, Table.get?_insertAll_iff hone, hmem]

/-- A field stands in every object at the position that it has in the objects of its class. -/
theorem Arranged.field_position (hl : l.Arranged h cs) (ha : h.Acyclic) (hs : h.Sorts cs)
    (hc : c ∈ cs) {n : Nat} {v : VarDecl} (hv : (h.object c).fields[n]? = some v) :
    ∃ d ∈ cs, v ∈ d.fields ∧ position? VarDecl.name v.name (h.object d).fields = some n := by
  obtain ⟨d, hd, hvd⟩ := ObjectLayout.of_mem_fields (List.mem_of_getElem? hv)
  obtain ⟨hm, hk⟩ := Hierarchy.of_mem_line (hl.known c hc) hd
  exact ⟨d, (hs.mem_iff d).mpr ⟨_, hk⟩, hvd, position?_since
    (ha.object_stays hm (hl.known c hc) hk).1 (ObjectLayout.nodup_along c (h.above c)).1
    (ObjectLayout.name_mem_fields hvd) hv⟩

/-- **A field has one offset, in all objects that have it.** -/
theorem Arranged.fieldOffset?_iff (hl : l.Arranged h cs) (ha : h.Acyclic) (hs : h.Sorts cs)
    (hi : ClassDecl.Apart cs) {i : NodeId} {k : Nat} : l.fieldOffset? i = some k ↔
      ∃ c ∈ cs, ∃ n v, (h.object c).fields[n]? = some v ∧ v.id = i ∧
        ObjectLayout.offsetAt n = k := by
  have hmem : ∀ {i k}, (i, k) ∈ cs.flatMap (fun c => (h.object c).fieldEntries) ↔
      ∃ c ∈ cs, ∃ n v, (h.object c).fields[n]? = some v ∧ v.id = i ∧
        ObjectLayout.offsetAt n = k := by
    intro i k
    rw [List.mem_flatMap]
    exact exists_congr fun c => and_congr_right fun _ => mem_fieldEntries
  have hone : ∀ i j k, (i, j) ∈ cs.flatMap (fun c => (h.object c).fieldEntries) →
      (i, k) ∈ cs.flatMap (fun c => (h.object c).fieldEntries) → j = k := by
    -- two objects that have the field have it from the same class
    intro i j k hj hk
    obtain ⟨c, hc, n, v, hv, rfl, rfl⟩ := hmem.mp hj
    obtain ⟨c', hc', n', v', hv', e, rfl⟩ := hmem.mp hk
    obtain ⟨d, hd, hm, hn⟩ := hl.field_position ha hs hc hv
    obtain ⟨d', hd', hm', hn'⟩ := hl.field_position ha hs hc' hv'
    obtain ⟨rfl, e⟩ :=
      hi d hd d' hd' _ (ClassDecl.mem_fields.mp hm) _ (ClassDecl.mem_fields.mp hm') e.symm
    cases e
    rw [Option.some.inj (hn.symm.trans hn')]
  unfold fieldOffset?
  rw [hl.fieldOffsets, Table.get?_insertAll_iff hone, hmem]

/-! ## 5. Everything is laid out -/

/-- The layout has these classes, and places for their fields and methods. -/
structure Holds (l : Layout) (cs : List ClassDecl) : Prop where
  classes : ∀ name, (l.class? name).isSome = true ↔ ∃ c ∈ cs, c.name = name
  fields : ∀ c ∈ cs, ∀ v ∈ c.fields, (l.fieldOffset? v.id).isSome = true
  methods : ∀ i, (l.methodSlot? i).isSome = true ↔ ∃ c ∈ cs, ∃ m ∈ c.methods, m.id = i

theorem Arranged.holds (hl : l.Arranged h cs) (hn : ∀ c ∈ cs, (c.fields.map VarDecl.name).Nodup) :
    l.Holds cs where
  classes name := by
    unfold class?
    rw [hl.classes, List.find?_isSome]
    constructor
    · intro ⟨o, ho, hname⟩
      obtain ⟨c, hc, rfl⟩ := List.mem_map.mp ho
      exact ⟨c, hc, (ObjectLayout.along_name ..).symm.trans (beq_iff_eq.mp hname)⟩
    · intro ⟨c, hc, hname⟩
      exact ⟨_, List.mem_map_of_mem hc, beq_iff_eq.mpr ((ObjectLayout.along_name ..).trans hname)⟩
  fields c hc v hv := by
    have hm : v ∈ (h.object c).fields := ObjectLayout.mem_fields (hn c hc) hv
    obtain ⟨n, hm⟩ := List.getElem?_of_mem hm
    unfold fieldOffset?
    rw [hl.fieldOffsets, Table.isSome_insertAll]
    exact .inr (List.mem_map.mpr ⟨_, List.mem_flatMap.mpr
      ⟨c, hc, mem_fieldEntries.mpr ⟨n, v, hm, rfl, rfl⟩⟩, rfl⟩)
  methods i := by
    unfold methodSlot?
    rw [hl.methodSlots, Table.isSome_insertAll]
    constructor
    · intro hi
      obtain ⟨⟨i, s⟩, hm, rfl⟩ := List.mem_map.mp (hi.resolve_left nofun)
      obtain ⟨c, hc, hm⟩ := List.mem_flatMap.mp hm
      obtain ⟨m, hm, hi, -⟩ := mem_methodEntries.mp hm
      exact ⟨c, hc, m, hm, hi⟩
    · intro ⟨c, hc, m, hm, hi⟩
      have hs : ((h.object c).slotOf? m.name).isSome = true :=
        position?_isSome (ObjectLayout.name_mem_methods hm)
      obtain ⟨s, hs⟩ := Option.isSome_iff_exists.mp hs
      exact .inr (List.mem_map.mpr ⟨(i, s), List.mem_flatMap.mpr
        ⟨c, hc, mem_methodEntries.mpr ⟨m, hm, hi, hs⟩⟩, rfl⟩)

/-- **A program without a cycle of classes has a layout, with all its classes and globals.** -/
theorem ofProgram_ok (ha : h.Acyclic)
    (hn : ∀ n c, h.class? n = some c → (c.fields.map VarDecl.name).Nodup) :
    ∃ l cs, ofProgram h p = .ok l ∧ l.Holds cs ∧ (∀ c, c ∈ cs ↔ ∃ n, h.class? n = some c) ∧
      ∀ v, Decl.var v ∈ p.decls → (l.globalOffset? v.id).isSome = true := by
  obtain ⟨l, cs, hok, hs, hl, hg⟩ := ofProgram_arranged (p := p) ha
  refine ⟨l, cs, hok, hl.holds fun c hc => ?_, hs.mem_iff, hg⟩
  obtain ⟨n, hc⟩ := (hs.mem_iff c).mp hc
  exact hn n c hc

end Layout

/-- The members of the classes of a program have numbers of their own. -/
theorem Program.Numbered.apart {p : Program} (h : p.Numbered) {cs : List ClassDecl}
    (hs : p.analyze.hierarchy.Sorts cs) : ClassDecl.Apart cs := by
  have hcs : ∀ c ∈ cs, Decl.cls c ∈ p.decls := fun c hc => by
    obtain ⟨n, hn⟩ := (hs.mem_iff c).mp hc
    exact mem_of_class? hn
  have hn := (List.nodup_append.mp h.nodup_declared).2.1
  intro c hc c' hc' d hd d' hd' e
  have ht : TypeDecl.cls c ∈ p.types := mem_types.mpr (hcs c hc)
  have ht' : TypeDecl.cls c' ∈ p.types := mem_types.mpr (hcs c' hc')
  have hm : d.id ∈ c'.members.map Decl.id := e ▸ List.mem_map_of_mem hd'
  have ho := eq_of_mem_flatMap hn (opening_mem ht) (opening_mem ht') (List.mem_map_of_mem hd) hm
  cases List.inj_on_of_nodup_map h.nodup_types ht ht' (congrArg Opening.node ho)
  have hself := (List.nodup_flatMap.mp hn).1 _ (opening_mem ht)
  exact ⟨rfl, List.inj_on_of_nodup_map hself hd hd' e⟩

end DecafLang
