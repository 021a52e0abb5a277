import DecafLang.Syntax.Handwritten
import DecafLang.Proofs.Chunks

/-!
# Storage

Whose the words are that the code of a program touches.

* The parameters of a function have the words above the frame pointer, its locals and temporaries
  those below the two words where the caller's are saved. **No two of them have the same word**
  (`Frame.Holds.tenant_eq`), and the frame is as large as they need.
* Every global variable has a word of its own in the global segment.
* **The code of a function touches these words only** (`Program.Clean.storage_apart`), if the fields
  of objects are counted from where the objects lie.
-/

namespace DecafLang

open Code (Chunk Emitted Instr Label Location Supply touched)
open Code.Supply (localOffset paramOffset)
open Code.Emit
open Lowering

/-! ## 1. Frames -/

/-- Who has the words of a frame, by their positions. -/
structure Frame where
  /-- Above the frame pointer. -/
  params : List Tenant
  /-- Below it. -/
  others : List Tenant

namespace Frame

variable {f : Frame} {t t' : Tenant} {x x' : Location}

/-- The tenant has this word of the frame. -/
def Holds (f : Frame) (t : Tenant) (x : Location) : Prop :=
  (∃ i : Nat, f.params[i]? = some t ∧ x = t.aboveAt i) ∨
    ∃ i : Nat, f.others[i]? = some t ∧ x = t.belowAt i

/-- Offsets of words of the frame: 4, 8, … above the frame pointer, and -8, -12, … below it. -/
def Covers (f : Frame) (o : Int) : Prop :=
  (∃ i : Nat, i < f.params.length ∧ o = 4 + 4 * i) ∨ ∃ i : Nat, i < f.others.length ∧ o = -8 - 4 * i

theorem Holds.covers (h : f.Holds t x) : x = .frame x.offset t.name ∧ f.Covers x.offset := by
  rcases h with ⟨i, hi, rfl⟩ | ⟨i, hi, rfl⟩
  · refine ⟨rfl, .inl ⟨i, (List.getElem?_eq_some_iff.mp hi).1, ?_⟩⟩
    show paramOffset i = _
    unfold paramOffset wordSize
    omega
  · refine ⟨rfl, .inr ⟨i, (List.getElem?_eq_some_iff.mp hi).1, ?_⟩⟩
    show localOffset i = _
    unfold localOffset wordSize
    omega

/-- **No two tenants have the same word.** -/
theorem Holds.tenant_eq (h : f.Holds t x) (h' : f.Holds t' x') (e : x.offset = x'.offset) :
    t = t' := by
  rcases h with ⟨i, hi, rfl⟩ | ⟨i, hi, rfl⟩ <;> rcases h' with ⟨j, hj, rfl⟩ | ⟨j, hj, rfl⟩
  · obtain rfl := Surroundings.paramOffset_inj (show paramOffset i = paramOffset j from e)
    exact Option.some.inj (hi.symm.trans hj)
  · exact absurd e.symm (Surroundings.localOffset_ne_paramOffset j i)
  · exact absurd e (Surroundings.localOffset_ne_paramOffset i j)
  · obtain rfl := Placing.localOffset_inj (show localOffset i = localOffset j from e)
    exact Option.some.inj (hi.symm.trans hj)

/-- No tenant has two words. -/
theorem Holds.word_eq (hn : (f.params ++ f.others).Nodup) (h : f.Holds t x) (h' : f.Holds t x') :
    x = x' := by
  obtain ⟨hp, ho, hd⟩ := List.nodup_append.mp hn
  have inj : ∀ {l : List Tenant} {i j : Nat}, l.Nodup → l[i]? = some t → l[j]? = some t → i = j :=
    fun hl hi hj => (List.getElem?_inj (List.getElem?_eq_some_iff.mp hi).1 hl).mp (hi.trans hj.symm)
  rcases h with ⟨i, hi, rfl⟩ | ⟨i, hi, rfl⟩ <;> rcases h' with ⟨j, hj, rfl⟩ | ⟨j, hj, rfl⟩
  · rw [inj hp hi hj]
  · exact absurd rfl (hd _ (List.mem_of_getElem? hi) _ (List.mem_of_getElem? hj))
  · exact absurd rfl (hd _ (List.mem_of_getElem? hj) _ (List.mem_of_getElem? hi))
  · rw [inj ho hi hj]

end Frame

/-! ## 2. Globals -/

namespace Layout

variable {l : Layout}

theorem globalSize_addClasses (h : Hierarchy) (cs : List ClassDecl) (l : Layout) :
    (cs.foldl (addClass h) l).globalSize = l.globalSize := by
  induction cs generalizing l with
  | nil => rfl
  | cons c cs ih => exact ih (l.addClass h c)

/-- Every global takes one word more. -/
theorem globalSize_addGlobals (vs : List VarDecl) (l : Layout) :
    (vs.foldl addGlobal l).globalSize = l.globalSize + wordSize * vs.length := by
  induction vs generalizing l with
  | nil => rfl
  | cons v vs ih =>
    rw [List.foldl_cons, ih, List.length_cons]
    show l.globalSize + wordSize + _ = _
    rw [Nat.mul_succ]
    omega

theorem globalOffset?_addGlobal (l : Layout) (v : VarDecl) (i : NodeId) :
    (l.addGlobal v).globalOffset? i = if v.id = i then some l.globalSize else l.globalOffset? i :=
  Table.get?_insert _ _ _ _

/-- Other globals change nothing. -/
theorem globalOffset?_kept {vs : List VarDecl} {i : NodeId} (hi : i ∉ vs.map VarDecl.id)
    (l : Layout) : (vs.foldl addGlobal l).globalOffset? i = l.globalOffset? i := by
  induction vs generalizing l with
  | nil => rfl
  | cons v vs ih =>
    obtain ⟨hne, hi⟩ := not_or.mp (mt List.mem_cons.mpr hi)
    rw [List.foldl_cons, ih hi, globalOffset?_addGlobal, if_neg fun e => hne e.symm]

/-- Globals lie one behind the other. -/
theorem globalOffset?_addGlobals {vs : List VarDecl} (hn : (vs.map VarDecl.id).Nodup) (l : Layout)
    {i : Nat} {v : VarDecl} (hi : vs[i]? = some v) :
    (vs.foldl addGlobal l).globalOffset? v.id = some (l.globalSize + wordSize * i) := by
  induction vs generalizing l i with
  | nil => cases hi
  | cons u vs ih =>
    obtain ⟨hu, hn⟩ := List.nodup_cons.mp hn
    cases i with
    | zero =>
      obtain rfl := Option.some.inj hi
      -- the later globals leave this one where it was put
      rw [List.foldl_cons, globalOffset?_kept hu, globalOffset?_addGlobal, if_pos rfl]
      rfl
    | succ i =>
      rw [List.foldl_cons, ih hn _ hi]
      show some (l.globalSize + wordSize + wordSize * i) = _
      rw [Nat.mul_succ]
      congr 1
      omega

/-- Where the globals of a program lie. -/
theorem globals_of_ofProgram {h : Hierarchy} {p : Program} (hl : ofProgram h p = .ok l)
    (hn : ((p.decls.filterMap Decl.var?).map VarDecl.id).Nodup) :
    l.globalSize = wordSize * (p.decls.filterMap Decl.var?).length ∧
      ∀ i v, (p.decls.filterMap Decl.var?)[i]? = some v →
        l.globalOffset? v.id = some (wordSize * i) := by
  unfold ofProgram at hl
  split at hl
  · cases hl
  · rename_i cs _
    obtain rfl := Except.ok.inj hl
    refine ⟨?_, fun i v hi => ?_⟩
    · rw [globalSize_addGlobals, globalSize_addClasses]
      exact Nat.zero_add _
    · rw [globalOffset?_addGlobals hn _ hi, globalSize_addClasses]
      exact congrArg some (Nat.zero_add _)

/-- **Every global variable has a word of its own in the global segment.** -/
theorem globals_apart {h : Hierarchy} {p : Program} (hl : ofProgram h p = .ok l)
    (hn : ((p.decls.filterMap Decl.var?).map VarDecl.id).Nodup) {v : VarDecl}
    (hv : Decl.var v ∈ p.decls) : ∃ o, l.globalOffset? v.id = some o ∧ wordSize ∣ o ∧
      o + wordSize ≤ l.globalSize ∧
        ∀ w, Decl.var w ∈ p.decls → l.globalOffset? w.id = some o → w = v := by
  obtain ⟨hsize, hplace⟩ := globals_of_ofProgram hl hn
  have hposition : ∀ {u : VarDecl}, Decl.var u ∈ p.decls →
      ∃ i, (p.decls.filterMap Decl.var?)[i]? = some u := fun hu =>
    List.mem_iff_getElem?.mp (List.mem_filterMap.mpr ⟨_, hu, rfl⟩)
  obtain ⟨i, hi⟩ := hposition hv
  refine ⟨_, hplace i v hi, Nat.dvd_mul_right .., ?_, fun w hw how => ?_⟩
  · have hlt := (List.getElem?_eq_some_iff.mp hi).1
    rw [hsize]
    unfold wordSize
    omega
  · obtain ⟨j, hj⟩ := hposition hw
    -- equal offsets come from equal positions
    have e := Option.some.inj ((hplace j w hj).symm.trans how)
    unfold wordSize at e
    obtain rfl : j = i := by omega
    exact Option.some.inj (hj.symm.trans hi)

end Layout

/-- The slots of the globals are the words that they have in the layout. -/
theorem withGlobals_slots {vs : List VarDecl} {r r' : Surroundings}
    (h : withGlobals r vs = .ok r') : ∀ e ∈ r'.slots, e ∈ r.slots ∨
      ∃ v ∈ vs, ∃ o, r.layout.globalOffset? v.id = some o ∧ e = (v.id, .global o v.name) := by
  induction vs generalizing r with
  | nil =>
    cases h
    exact fun _ => .inl
  | cons v vs ih =>
    unfold withGlobals at h
    split at h
    · rename_i o ho
      intro e he
      rcases ih h e he with he | ⟨u, hu, h⟩
      · rcases List.mem_cons.mp he with rfl | he
        · exact .inr ⟨v, List.mem_cons_self, o, ho, rfl⟩
        · exact .inl he
      · exact .inr ⟨u, List.mem_cons_of_mem _ hu, h⟩
    · cases h

/-! ## 3. Functions -/

/-- Who has the words above the frame pointer. -/
def FnDecl.guests (g : FnDecl) (isMethod : Bool) : List Tenant :=
  (if isMethod then [.this] else []) ++ g.formals.map .var

/-- In these surroundings every variable has its word of the frame or of the globals. -/
structure Surroundings.Resides (r : Surroundings) (p : Program) (l : Layout) (f : Frame) :
    Prop where
  notes_eq : r.notes = p.analyze.notes
  layout_eq : r.layout = l
  this : ∀ x, r.this = some x → f.Holds .this x
  slots : ∀ e ∈ r.slots, (∃ v, e.1 = v.id ∧ f.Holds (.var v) e.2) ∨
    ∃ v o, Decl.var v ∈ p.decls ∧ l.globalOffset? v.id = some o ∧ e = (v.id, .global o v.name)

namespace Surroundings.Resides

variable {r r' : Surroundings} {p : Program} {l : Layout} {f : Frame}

/-- Further in, the slots of tenants are added. -/
theorem inside (h : r.Resides p l f) (hr : r'.Inside r 0 f.others) : r'.Resides p l f where
  notes_eq := hr.within.notes_eq.trans h.notes_eq
  layout_eq := hr.within.layout_eq.trans h.layout_eq
  this x hx := h.this x (hr.within.this_eq ▸ hx)
  slots e he := by
    rcases hr.slots e he with he | ⟨i, v, hi, rfl⟩
    · exact h.slots e he
    · exact .inl ⟨v, rfl, .inr ⟨i, hi, by rw [Nat.zero_add]⟩⟩

/-- What is at hand are words of the frame and of globals. -/
theorem root_of_mem (h : r.Resides p l f) {x : Location} (hx : x ∈ r.words) :
    (∃ t, f.Holds t x.root) ∨ ∃ v o, Decl.var v ∈ p.decls ∧ l.globalOffset? v.id = some o ∧
      x.root = .global o v.name := by
  have held : ∀ {t y}, f.Holds t y → f.Holds t y.root := fun hy => by
    rcases hy with ⟨i, hi, rfl⟩ | ⟨i, hi, rfl⟩
    · exact .inl ⟨i, hi, rfl⟩
    · exact .inr ⟨i, hi, rfl⟩
  rcases List.mem_append.mp hx with hx | hx
  · obtain ⟨e, he, rfl⟩ := List.mem_map.mp hx
    rcases h.slots e he with ⟨v, -, hv⟩ | ⟨v, o, hv, ho, rfl⟩
    · exact .inl ⟨_, held hv⟩
    · exact .inr ⟨v, o, hv, ho, rfl⟩
  · exact .inl ⟨_, held (h.this x (Option.mem_toList.mp hx))⟩

end Surroundings.Resides

/-- What the code of the body of a function does with storage. -/
structure FnDecl.Stores (p : Program) (l : Layout) (g : FnDecl) (isMethod : Bool)
    (f : Frame) (frameSize : Int) (body : List Instr) : Prop where
  /-- Above the frame pointer are the parameters. -/
  params : f.params = g.guests isMethod
  /-- Below it are the locals of all blocks, and temporaries. -/
  locals : Tenant.vars f.others = Opening.vars (Block.openingsOpt g.body)
  temps : (Tenant.temps f.others).Nodup
  no_this : Tenant.this ∉ f.others
  /-- The frame is as large as they need. -/
  size : frameSize = 4 * f.others.length
  /-- The code touches all temporaries. -/
  used : ∀ n ∈ Tenant.temps f.others, ∃ x ∈ touched body, f.Holds (.temp n) x
  /-- It touches nothing but words of the frame and of globals, and what is counted from there. -/
  reach : ∀ x ∈ touched body, (∃ t, f.Holds t x.root) ∨
    ∃ v o, Decl.var v ∈ p.decls ∧ l.globalOffset? v.id = some o ∧ x.root = .global o v.name
  /-- It has the code of all blocks in it, whose locals have their words there. -/
  blocks : ∀ b, Part.block b ∈ Block.partsOpt g.body → ∃ (r : Surroundings) (s : Supply)
    (o : Emitted Unit), r.Resides p l f ∧ Stmt.lowerAll b.stmts r s = .ok o ∧ o.code <:+: body ∧
      ∀ v ∈ b.locals, ∃ x, (v.id, x) ∈ r.slots ∧ f.Holds (.var v) x
  /-- It has the code of all expressions in it, if no types are nested. -/
  exprs : p.Flat → Part.All (fun e => ∃ r : Surroundings, r.Resides p l f ∧
    (isMethod = true → r.this = some thisParam) ∧ e.Coded r body) (Block.partsOpt g.body)
  inner : ∀ i ∈ body, i.Inner l

section

variable {p : Program} {l : Layout} {g : FnDecl} {r : Surroundings} {s : Supply} {x : Emitted Unit}

/-- Formals come behind the object that a method is called for. -/
theorem FnDecl.guests_formal {m : Bool} {i : Nat} {v : VarDecl} (hi : g.formals[i]? = some v) :
    (g.guests m)[m.toNat + i]? = some (.var v) := by
  have e : (g.formals.map Tenant.var)[i]? = some (.var v) := by
    rw [List.getElem?_map, hi]
    rfl
  cases m with
  | false => exact (congrArg _ (Nat.zero_add i)).trans e
  | true => exact (congrArg _ (Nat.add_comm 1 i)).trans e

/-- Where a function begins, its parameters have their words above the frame pointer. -/
theorem FnDecl.entry_resides {m : Bool} {r' : Surroundings} (hr : r.Resides p l ⟨[], []⟩)
    (hadds : Surroundings.Adds { r with this := if m then some thisParam else none } r' g.formals
      paramOffset m.toNat) (ts : List Tenant) : r'.Resides p l ⟨g.guests m, ts⟩ where
  notes_eq := hadds.within.notes_eq.trans hr.notes_eq
  layout_eq := hadds.within.layout_eq.trans hr.layout_eq
  this y hy := by
    rw [hadds.within.this_eq] at hy
    cases m with
    | false => cases hy
    | true =>
      obtain rfl := Option.some.inj hy
      exact .inl ⟨0, rfl, rfl⟩
  slots e he := by
    -- a slot of the formals, or one that was there before: then a global
    rcases hadds.slots e he with he | ⟨i, v, hi, rfl⟩
    · rcases hr.slots e he with ⟨v, -, ⟨i, hi, -⟩ | ⟨i, hi, -⟩⟩ | hglobal
      · cases hi
      · cases hi
      · exact .inr hglobal
    · exact .inl ⟨v, rfl, .inl ⟨_, g.guests_formal hi, rfl⟩⟩

/-- **The body of a function has a frame, and stores in it.** -/
theorem FnDecl.lowerBody_stores {m : Bool} (hr : r.Resides p l ⟨[], []⟩)
    (hp : Part.Plain p.Flat p.analyze.notes (Block.partsOpt g.body))
    (h : g.lowerBody r m s.newFrame = .ok x) :
    ∃ f, g.Stores p l m f x.supply.frameSize x.code := by
  obtain ⟨r₂, ts, hadds, ht, hparts⟩ :=
    FnDecl.lowerBody_houses r.leaves_self (hr.notes_eq ▸ hp) h
  have hres := FnDecl.entry_resides hr hadds ts
  refine ⟨⟨g.guests m, ts⟩, {
    params := rfl, locals := ht.vars, temps := ht.temps.nodup, no_this := ht.no_this,
    size := ht.frameSize_eq rfl, used := fun n hn => ?_, reach := fun y hy => ?_,
    blocks := fun b hb => ?_, exprs := fun hf e he => ?_, inner := hr.layout_eq ▸ ht.inner }⟩
  · obtain ⟨i, hi⟩ := List.mem_iff_getElem?.mp (Tenant.mem_temps.mp hn)
    exact ⟨_, ht.used i n hi, .inr ⟨i, hi, by rw [Nat.zero_add]⟩⟩
  · rcases List.mem_append.mp (ht.reach y (List.mem_append_left _ hy)) with hy | hy
    · obtain ⟨z, hz, e⟩ := List.mem_map.mp hy
      rw [← e]
      exact hres.root_of_mem hz
    · obtain ⟨i, t, hi, e⟩ := Tenant.mem_words.mp hy
      exact .inl ⟨t, .inr ⟨i, hi, by rw [e, Nat.zero_add]⟩⟩
  · obtain ⟨r', s', o, hin, ho, hinf, hloc⟩ := hparts _ hb
    refine ⟨r', s', o, hres.inside hin, ho, hinf, fun v hv => ?_⟩
    obtain ⟨i, hi, hm⟩ := hloc v hv
    exact ⟨_, hm, .inr ⟨i, hi, by rw [Nat.zero_add]⟩⟩
  · obtain ⟨r', hin, hcoded⟩ := hparts _ he hf
    refine ⟨r', hres.inside hin, fun hm => ?_, hcoded⟩
    rw [hin.within.this_eq, hadds.within.this_eq]
    exact if_pos hm

end

/-! ## 4. Programs -/

theorem Decl.ids_of_vars (ds : List Decl) :
    ((ds.filterMap Decl.var?).map VarDecl.id).Sublist (ds.map Decl.id) := by
  induction ds with
  | nil => exact .slnil
  | cons d ds ih =>
    cases d with
    | var v => exact ih.cons_cons v.id
    | _ => exact ih.cons _

theorem FnDecl.vars_eq (g : FnDecl) :
    g.vars = g.formals ++ Opening.vars (Block.openingsOpt g.body) :=
  congrArg (· ++ _) (Decl.filterMap_var? g.formals)

/-- The body of a function keeps its words apart. -/
structure FnDecl.Keeps (p : Program) (l : Layout) (g : FnDecl) (isMethod : Bool) (f : Frame)
    (frameSize : Int) (body : List Instr) : Prop extends
      g.Stores p l isMethod f frameSize body where
  /-- The frame has room for the locals and the temporaries. -/
  count : frameSize = 4 * ((Tenant.vars f.others).length + (Tenant.temps f.others).length : Nat)
  /-- Whoever has a word has this one only, and has it alone. -/
  alone : ∀ t t' x x', f.Holds t x → f.Holds t' x' → (t = t' ↔ x.offset = x'.offset)
  /-- Each word of the frame that the code touches belongs to the function. -/
  covered : ∀ x ∈ touched body, ∀ o name, x.root = .frame o name → f.Covers o
  /-- Wherever a variable of the function has a slot, this is its word. -/
  found : ∀ r : Surroundings, r.Resides p l f → ∀ v x, f.Holds (.var v) x → (v.id, x) ∈ r.slots →
    r.slot? v.id = some x

namespace Program

variable {p : Program} {l : Layout} {cls : Option ClassDecl} {g : FnDecl} {f : Frame} {n : Int}
  {code body : List Instr}

/-- The variables of a function have numbers of their own. -/
theorem Named.vars_nodup (h : p.Named) (hg : (cls, g) ∈ p.functions) :
    (g.vars.map VarDecl.id).Nodup := by
  have hdecl : (Opening.declared g.openings).Nodup :=
    (List.nodup_append.mp h.numbered.nodup_declared).2.1.sublist ((openings_sublist hg).flatMap _)
  have e : g.vars.map VarDecl.id = Opening.declared g.openings := by
    unfold FnDecl.vars Opening.declared
    rw [List.map_flatMap]
    refine List.flatMap_congr fun o ho => ?_
    obtain ⟨ls, hls⟩ := (g.opens_variables o ho).1
    rw [hls, Decl.filterMap_var?, List.map_map]
    rfl
  exact e ▸ hdecl

/-- No global has the number of a variable of a function. -/
theorem Named.global_ne (h : p.Named) (hg : (cls, g) ∈ p.functions) {u v : VarDecl}
    (hu : Decl.var u ∈ p.decls) (hv : v ∈ g.vars) : u.id ≠ v.id := by
  have hd := (List.nodup_append.mp h.numbered.nodup_declared).2.2
  have hm : v.id ∈ Opening.declared p.openings :=
    ((openings_sublist hg).flatMap _).subset (FnDecl.mem_declared.mpr ⟨v, hv, rfl⟩)
  exact hd _ (List.mem_map_of_mem hu) _ hm

theorem Named.globals_nodup (h : p.Named) :
    ((p.decls.filterMap Decl.var?).map VarDecl.id).Nodup :=
  (List.nodup_append.mp h.numbered.nodup_declared).1.sublist (Decl.ids_of_vars p.decls)

theorem mem_globals {v : VarDecl} : v ∈ p.decls.filterMap Decl.var? ↔ Decl.var v ∈ p.decls := by
  refine List.mem_filterMap.trans ⟨fun ⟨d, hd, e⟩ => ?_, fun h => ⟨_, h, rfl⟩⟩
  cases d <;> cases e
  exact hd

end Program

namespace FnDecl.Stores

variable {p : Program} {l : Layout} {cls : Option ClassDecl} {g : FnDecl} {m : Bool} {f : Frame}
  {n : Int} {body : List Instr}

/-- A variable that has a word of the frame is one of the function. -/
theorem mem_vars (hs : g.Stores p l m f n body) {v : VarDecl} {x : Location}
    (hv : f.Holds (.var v) x) : v ∈ g.vars := by
  rw [g.vars_eq]
  -- among the formals, or among the locals
  rcases hv with ⟨i, hi, -⟩ | ⟨i, hi, -⟩
  · have hm : Tenant.var v ∈ g.guests m := hs.params ▸ List.mem_of_getElem? hi
    rcases List.mem_append.mp hm with hm | hm
    · cases m with
      | false => cases hm
      | true => cases List.mem_singleton.mp hm
    · obtain ⟨u, hu, e⟩ := List.mem_map.mp hm
      obtain rfl := Tenant.var.inj e
      exact List.mem_append_left _ hu
  · rw [← hs.locals]
    exact List.mem_append_right _ (Tenant.mem_vars.mpr (List.mem_of_getElem? hi))

/-- All tenants are different. -/
theorem nodup (hs : g.Stores p l m f n body) (hn : (g.vars.map VarDecl.id).Nodup) :
    (f.params ++ f.others).Nodup := by
  have hv : g.vars.Nodup := hn.of_map
  rw [g.vars_eq] at hv
  obtain ⟨hformals, hlocals, hapart⟩ := List.nodup_append.mp hv
  have hothers : f.others.Nodup := Tenant.nodup hs.no_this (hs.locals ▸ hlocals) hs.temps
  have hmap : (g.formals.map Tenant.var).Nodup :=
    hformals.map fun _ _ e => Tenant.var.inj e
  have hmem : ∀ v ∈ g.formals, Tenant.var v ∉ f.others := fun v hv hm =>
    hapart v hv v (hs.locals ▸ Tenant.mem_vars.mpr hm) rfl
  rw [hs.params]
  -- `this` is a tenant of its own, and the formals are apart from the locals by name.
  refine List.nodup_append.mpr ⟨?_, hothers, fun t ht u hu e => ?_⟩
  · cases m with
    | false => exact hmap
    | true => exact List.nodup_cons.mpr ⟨by simp, hmap⟩
  · subst e
    rcases List.mem_append.mp ht with ht | ht
    · cases m with
      | false => cases ht
      | true => exact hs.no_this (List.mem_singleton.mp ht ▸ hu)
    · obtain ⟨v, hv, rfl⟩ := List.mem_map.mp ht
      exact hmem v hv hu

/-- **What a function stores it keeps apart.** -/
theorem keeps (hs : g.Stores p l m f n body) (h : p.Named) (hg : (cls, g) ∈ p.functions) :
    g.Keeps p l m f n body where
  toStores := hs
  count := by rw [hs.size, Tenant.length_eq hs.no_this]
  alone t t' x x' ht ht' := by
    refine ⟨fun e => ?_, ht.tenant_eq ht'⟩
    subst e
    rw [ht.word_eq (hs.nodup (h.vars_nodup hg)) ht']
  covered x hx o name e := by
    rcases hs.reach x hx with ⟨t, ht⟩ | ⟨v, k, -, -, e'⟩
    · obtain ⟨-, hc⟩ := ht.covers
      rwa [e] at hc
    · cases e.symm.trans e'
  found r hr v x hv hm := by
    have hne : r.slot? v.id ≠ none := fun e => Table.find_eq_none.mp e (List.mem_map_of_mem hm)
    obtain ⟨y, hy⟩ := Option.ne_none_iff_exists'.mp hne
    rw [hy]
    -- the slot found is that of a variable of the frame, or of a global
    rcases hr.slots _ (Table.mem_of_find hy) with ⟨u, e, hu⟩ | ⟨u, o, hu, -, e⟩
    · have e : v.id = u.id := e
      obtain rfl := List.inj_on_of_nodup_map (h.vars_nodup hg) (hs.mem_vars hv) (hs.mem_vars hu) e
      exact congrArg some (Frame.Holds.word_eq (hs.nodup (h.vars_nodup hg)) hu hv)
    · exact absurd (congrArg Prod.fst e).symm (h.global_ne hg hu (hs.mem_vars hv))

end FnDecl.Stores

namespace Program

variable {p : Program} {l : Layout} {cls : Option ClassDecl} {g : FnDecl} {f : Frame} {n : Int}
  {code body : List Instr}

/-- No length of an array has arguments in a checked program. -/
theorem Clean.plain (h : p.Clean) (hg : (cls, g) ∈ p.functions) :
    Part.Plain p.Flat p.analyze.notes (Block.partsOpt g.body) := by
  intro hf e he
  cases hb : g.body with
  | none =>
    rw [hb] at he
    cases he
  | some b =>
    rw [hb] at he
    exact (h.named.all_checked hf h.typed.1 hg hb e he).plainLength

/-- Around all functions, the globals have their words. -/
theorem globals_reside {r : Surroundings}
    (hr : withGlobals ⟨p.analyze.notes, l, [], none, none⟩ (p.decls.filterMap Decl.var?) = .ok r) :
    r.Resides p l ⟨[], []⟩ where
  notes_eq := (withGlobals_within hr).notes_eq
  layout_eq := (withGlobals_within hr).layout_eq
  this x hx := by
    rw [(withGlobals_within hr).this_eq] at hx
    cases hx
  slots e he := by
    rcases withGlobals_slots hr e he with he | ⟨v, hv, o, ho, rfl⟩
    · cases he
    · exact .inr ⟨v, o, mem_globals.mp hv, ho, rfl⟩

/-- The functions among the chunks of a checked program are functions of the program, and keep
their words apart. -/
theorem Clean.chunk_keeps (h : p.Clean) {r : Surroundings} {cs : List Chunk}
    (hr : r.Resides p l ⟨[], []⟩) (hcs : List.Forall₂ (Source.Makes r) p.sources cs) {lab : Label}
    (hm : .function lab n body ∈ cs) : ∃ cls g f, (cls, g) ∈ p.functions ∧
      lab = g.codeLabel cls ∧ g.Keeps p l cls.isSome f n body := by
  obtain ⟨src, hsrc, hmakes⟩ := forall₂_right hcs hm
  cases hmakes with
  | function hx =>
    have hg := function_mem_sources.mp hsrc
    obtain ⟨f, hs⟩ := FnDecl.lowerBody_stores hr (h.plain hg) hx
    exact ⟨_, _, f, hg, rfl, hs.keeps h.named hg⟩

/-- Inside the functions among the chunks stand no others. -/
theorem Clean.chunk_closed (h : p.Clean) {r : Surroundings} {cs : List Chunk}
    (hr : r.Resides p l ⟨[], []⟩) (hcs : List.Forall₂ (Source.Makes r) p.sources cs) {c : Chunk}
    (hc : c ∈ cs) : c.Closed l := by
  cases c with
  | table _ _ => trivial
  | function lab n body =>
    obtain ⟨_, _, _, -, -, hk⟩ := h.chunk_keeps hr hcs hc
    exact hk.inner

/-- What the code of a program does with storage. -/
structure KeepsApart (p : Program) (l : Layout) (code : List Instr) : Prop where
  /-- Wherever a frame is opened, it is that of a function, whose words are kept apart up to the end
  of the function. -/
  frames : ∀ before n after, code = before ++ .enter n :: after → ∃ cls g f body first rest,
    (cls, g) ∈ p.functions ∧ before = first ++ [.label (g.codeLabel cls)] ∧
      after = body ++ .leave :: rest ∧ .leave ∉ body ∧ g.Keeps p l cls.isSome f n body
  /-- Every global has a word of its own in the global segment. -/
  apart : ∀ v, Decl.var v ∈ p.decls → ∃ o, l.globalOffset? v.id = some o ∧ wordSize ∣ o ∧
    o + wordSize ≤ l.globalSize ∧ ∀ w, Decl.var w ∈ p.decls → l.globalOffset? w.id = some o → w = v
  /-- In the global segment nothing else is touched. -/
  globals : ∀ x ∈ touched code, ∀ o name, x.root = .global o name →
    ∃ v k, Decl.var v ∈ p.decls ∧ l.globalOffset? v.id = some k ∧ o = k ∧ name = v.name

/-- **Storage never overlaps and never leaves its frame**, in the code of a checked program. -/
theorem Clean.storage_apart (h : p.Clean) (hl : Layout.ofProgram p.analyze.hierarchy p = .ok l)
    (hc : p.lower p.analyze.notes l = .ok code) : p.KeepsApart l code := by
  obtain ⟨r, cs, hr, rfl, hcs⟩ := lower_chunks hc
  have hr := globals_reside hr
  constructor
  · intro before n after e
    obtain ⟨lab, body, first, rest, hm, hbefore, hafter⟩ :=
      Chunk.of_enter (fun _ => h.chunk_closed hr hcs) e
    obtain ⟨cls, g, f, hg, rfl, hk⟩ := h.chunk_keeps hr hcs hm
    exact ⟨cls, g, f, body, first, rest, hg, hbefore, hafter, fun hm => hk.inner _ hm, hk⟩
  -- the globals have words of their own
  · exact fun v hv => Layout.globals_apart hl h.named.globals_nodup hv
  · intro x hx o name e
    obtain ⟨lab, n, body, hm, hx⟩ := Chunk.of_touched hx
    obtain ⟨cls, g, f, -, -, hk⟩ := h.chunk_keeps hr hcs hm
    rcases hk.reach x hx with ⟨t, ht⟩ | ⟨v, k, hv, hk, e'⟩
    · cases e.symm.trans ht.covers.1
    · obtain ⟨-, ho, hname⟩ := Location.direct.inj (e.symm.trans e')
      exact ⟨v, k, hv, hk, ho, hname⟩

end Program

/-- A meter that counts in a field, in the locals of two blocks, and in a global. -/
def meter : Program := .number [
  .var (.int "total"),
  .cls ⟨.nowhere, .called "Meter", none, [], [.var (.int "count"),
    .fn ⟨.nowhere, .called "add", .prim 0 .int, [.int "a", .int "b"], some ⟨.nowhere, [.int "sum"],
      [.set (.use "sum") (.binary .nowhere .add (.use "a") (.use "b")),
        .block ⟨.nowhere, [.int "more"],
          [.set (.use "more") (.binary .nowhere .add (.use "sum") (.use "count")),
            .set (.use "count") (.use "more"),
            .set (.use "total")
              (.binary .nowhere .add (.use "total") (.use "more"))]⟩,
        .ret .nowhere (some (.use "sum"))]⟩⟩]⟩,
  .fn ⟨.nowhere, .called "main", .prim 0 .void, [], some ⟨.nowhere,
    [.called "m" (.named 0 (.called "Meter"))],
    [.set (.use "m") (.new .nowhere (.called "Meter")),
      .expr (.send .nowhere (.use "m") (.called "add") [.int .nowhere 1, .int .nowhere 2]),
      .print .nowhere [.use "total"]]⟩⟩]

/-- The meter keeps its words apart. -/
theorem storage_apart_meter : meter.Clean ∧ ∃ l code,
    Layout.ofProgram meter.analyze.hierarchy meter = .ok l ∧
      meter.lower meter.analyze.notes l = .ok code ∧ meter.KeepsApart l code := by
  have hclean : meter.Clean :=
    ⟨Program.number_numbered _, List.isEmpty_iff.mp (by decide +kernel)⟩
  obtain ⟨l, code, hl, hc⟩ := Program.exists_code (p := meter) (by decide +kernel)
  exact ⟨hclean, l, code, hl, hc, hclean.storage_apart hl hc⟩

end DecafLang
