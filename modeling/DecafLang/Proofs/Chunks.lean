import DecafLang.Proofs.StatementAllocation

/-!
# Chunks

How the code of a program is cut.

* Code is a row of chunks: functions, each between `enter` and `leave` behind its label, and tables.
* **A program has one chunk for every function and method, and one for the table of every class, in
  the order of the text** (`Program.lower_chunks`).
* Inside a function stands no other (`Chunk.Closed`), so an `enter` in the code belongs to a chunk
  and tells where it begins and ends, and so does a table.
-/

namespace DecafLang

open Code (Emit Emitted Instr Label Location Supply)
open Code.Emit
open Lowering

/-! ## 1. Chunks -/

namespace Code

/-- A part of the code of a program. -/
inductive Chunk where
  | function (l : Label) (frameSize : Int) (body : List Instr)
  | table (cls : String) (methods : List Label)

namespace Chunk

/-- The code of a chunk. -/
def code : Chunk → List Instr
  | function l n body => .label l :: .enter n :: (body ++ [.leave])
  | table c ms => [.table c ms]

/-- Inside a function stands no other, and the addresses that it takes are those of tables that are
laid out. -/
def Closed (l : Layout) : Chunk → Prop
  | function _ _ body => ∀ i ∈ body, i.Inner l
  | table _ _ => True

end Chunk

section

variable {l : Layout} {cs : List Chunk} {before after : List Instr} {n : Int}

/-- A chunk that opens a frame is a function, and opens none but its own. -/
theorem Chunk.enter_split {c : Chunk} (hc : c.Closed l)
    (e : c.code = before ++ .enter n :: after) : ∃ lab body, c = .function lab n body ∧
      before = [.label lab] ∧ after = body ++ [.leave] := by
  cases c with
  | table c ms =>
    have hm : Instr.enter n ∈ (table c ms).code := e ▸ List.mem_append_right _ List.mem_cons_self
    cases List.mem_singleton.mp hm
  | function lab m body =>
    match before, e with
    | [], e => cases e
    | [i], e =>
      obtain ⟨rfl, e₁⟩ := List.cons.inj e
      obtain ⟨hn, rfl⟩ := List.cons.inj (show _ :: _ = .enter n :: after from e₁)
      obtain rfl := Instr.enter.inj hn
      exact ⟨lab, body, rfl, rfl, rfl⟩
    | i :: j :: before, e =>
      -- another one would stand in the body
      have e : body ++ [.leave] = before ++ .enter n :: after :=
        (List.cons.inj (List.cons.inj e).2).2
      have hm : Instr.enter n ∈ body ++ [.leave] :=
        e ▸ List.mem_append_right _ List.mem_cons_self
      rcases List.mem_append.mp hm with hm | hm
      · cases hc _ hm
      · cases List.mem_singleton.mp hm

/-- An instruction of the code stands in the code of a chunk. -/
theorem Chunk.of_split {i : Instr} (e : cs.flatMap Chunk.code = before ++ i :: after) :
    ∃ first c rest front back, cs = first ++ c :: rest ∧ c.code = front ++ i :: back ∧
      before = first.flatMap Chunk.code ++ front ∧ after = back ++ rest.flatMap Chunk.code := by
  induction cs generalizing before with
  | nil => cases List.append_eq_nil_iff.mp e.symm |>.2
  | cons c cs ih =>
    rw [List.flatMap_cons] at e
    -- either it stands behind the first chunk, or in it
    rcases List.append_eq_append_iff.mp e with ⟨z, rfl, hz⟩ | ⟨z, hcode, hz⟩
    · obtain ⟨first, c', rest, front, back, rfl, hc, rfl, hafter⟩ := ih hz
      exact ⟨c :: first, c', rest, front, back, rfl, hc, (List.append_assoc ..).symm, hafter⟩
    · cases z with
      | nil =>
        have hz : cs.flatMap Chunk.code = [] ++ i :: after := hz.symm
        obtain ⟨first, c', rest, front, back, rfl, hc, hfront, hafter⟩ := ih hz
        rw [List.append_nil] at hcode
        refine ⟨c :: first, c', rest, front, back, rfl, hc, ?_, hafter⟩
        rw [List.flatMap_cons, List.append_assoc, ← hfront, List.append_nil, hcode]
      | cons j z =>
        obtain ⟨rfl, rfl⟩ := List.cons.inj hz
        exact ⟨[], c, cs, before, z, rfl, hcode, rfl, rfl⟩

/-- **Where a frame is opened, a function begins:** its label stands in front, and its body and its
end behind. -/
theorem Chunk.of_enter (hc : ∀ c ∈ cs, c.Closed l)
    (e : cs.flatMap Chunk.code = before ++ .enter n :: after) : ∃ lab body first rest,
      .function lab n body ∈ cs ∧ before = first ++ [.label lab] ∧
        after = body ++ .leave :: rest := by
  obtain ⟨first, c, rest, front, back, rfl, hcode, rfl, rfl⟩ := Chunk.of_split e
  have hm : c ∈ first ++ c :: rest := List.mem_append_right _ List.mem_cons_self
  obtain ⟨lab, body, rfl, rfl, rfl⟩ := Chunk.enter_split (hc c hm) hcode
  exact ⟨lab, body, first.flatMap Chunk.code, rest.flatMap Chunk.code, hm, rfl,
    List.append_assoc ..⟩

/-- The body of a function stands in the code. -/
theorem Chunk.body_infix {lab : Label} {body : List Instr} (h : .function lab n body ∈ cs) :
    body <:+: cs.flatMap Chunk.code := by
  have hcode : body <:+: (Chunk.function lab n body).code :=
    ⟨[.label lab, .enter n], [.leave], rfl⟩
  exact hcode.trans (List.infix_of_mem_flatten (List.mem_map_of_mem h))

/-- What stands in the code of chunks is a table, or begins or ends a function, or stands in the
body of one. -/
theorem Chunk.of_mem {i : Instr} (h : i ∈ cs.flatMap Chunk.code) :
    (∃ c ms, .table c ms ∈ cs ∧ i = .table c ms) ∨ ∃ lab n body, .function lab n body ∈ cs ∧
      (i = .label lab ∨ i = .enter n ∨ i = .leave ∨ i ∈ body) := by
  obtain ⟨k, hk, hm⟩ := List.mem_flatMap.mp h
  cases k with
  | table c ms => exact .inl ⟨c, ms, hk, List.mem_singleton.mp hm⟩
  | function lab n body =>
    refine .inr ⟨lab, n, body, hk, ?_⟩
    -- label, opening of the frame, body, end of the frame
    rcases List.mem_cons.mp hm with e | hm
    · exact .inl e
    rcases List.mem_cons.mp hm with e | hm
    · exact .inr (.inl e)
    rcases List.mem_append.mp hm with hm | hm
    · exact .inr (.inr (.inr hm))
    · exact .inr (.inr (.inl (List.mem_singleton.mp hm)))

/-- Locations are touched in bodies. -/
theorem Chunk.of_touched {x : Location} (h : x ∈ touched (cs.flatMap Chunk.code)) :
    ∃ lab n body, .function lab n body ∈ cs ∧ x ∈ touched body := by
  obtain ⟨i, hi, hx⟩ := List.mem_flatMap.mp h
  rcases of_mem hi with ⟨_, _, -, rfl⟩ | ⟨lab, n, body, hk, rfl | rfl | rfl | hm⟩
  · cases hx
  · cases hx
  · cases hx
  · cases hx
  · exact ⟨lab, n, body, hk, List.mem_flatMap.mpr ⟨i, hm, hx⟩⟩

end

end Code

open Code (Chunk)

section

variable {α β : Type} {R : α → β → Prop} {as : List α} {bs : List β}

theorem forall₂_left (h : List.Forall₂ R as bs) {a : α} (ha : a ∈ as) : ∃ b ∈ bs, R a b := by
  induction h with
  | nil => cases ha
  | cons hr _ ih =>
    rcases List.mem_cons.mp ha with rfl | ha
    · exact ⟨_, List.mem_cons_self, hr⟩
    · obtain ⟨b, hb, hab⟩ := ih ha
      exact ⟨b, List.mem_cons_of_mem _ hb, hab⟩

theorem forall₂_right (h : List.Forall₂ R as bs) {b : β} (hb : b ∈ bs) : ∃ a ∈ as, R a b :=
  forall₂_left h.flip hb

end

/-! ## 2. What has a chunk -/

/-- What the code of a program has a chunk for. -/
inductive Source where
  /-- A function, or a method of a class. -/
  | function (cls : Option ClassDecl) (g : FnDecl)
  /-- The table of a class. -/
  | table (c : ClassDecl)

/-- What the code of a declaration has chunks for. -/
def Decl.sources : Decl → List Source
  | .fn g => [.function none g]
  | .cls c => c.methods.map (.function (some c)) ++ [.table c]
  | _ => []

/-- In these surroundings the chunk is made of what it is for. -/
inductive Source.Makes (r : Surroundings) : Source → Chunk → Prop
  | function {cls : Option ClassDecl} {g : FnDecl} {s : Supply} {x : Emitted Unit}
      (h : g.lowerBody r cls.isSome s.newFrame = .ok x) :
      Makes r (.function cls g) (.function (g.codeLabel cls) x.supply.frameSize x.code)
  | table {c : ClassDecl} {o : ObjectLayout} (h : r.layout.class? c.name = some o) :
      Makes r (.table c) (.table c.name o.labels)

section

variable {r : Surroundings} {s : Supply} {x : Emitted Unit}

/-- The code of a function is its chunk. -/
theorem Code.Emit.function_ok {l : Label} {m : Emit Unit} (h : Emit.function l m s = .ok x) :
    ∃ y, m s.newFrame = .ok y ∧ x.code = (Chunk.function l y.supply.frameSize y.code).code := by
  unfold Emit.function at h
  cases hy : m s.newFrame with
  | error e =>
    rw [hy] at h
    cases h
  | ok y =>
    rw [hy] at h
    cases h
    exact ⟨y, rfl, rfl⟩

theorem FnDecl.lowerMethods_chunks {c : ClassDecl} {gs : List FnDecl}
    (h : FnDecl.lowerMethods c.name r gs s = .ok x) : ∃ cs, x.code = cs.flatMap Chunk.code ∧
      List.Forall₂ (Source.Makes r) (gs.map (.function (some c))) cs := by
  induction gs generalizing s x with
  | nil =>
    cases h
    exact ⟨[], rfl, .nil⟩
  | cons g gs ih =>
    obtain ⟨a, ha, b, hb, rfl⟩ := bind_run_ok.mp h
    obtain ⟨y, hy, e⟩ := function_ok ha
    obtain ⟨cs, e', hcs⟩ := ih hb
    refine ⟨_ :: cs, ?_, .cons (Source.Makes.function hy) hcs⟩
    show a.code ++ b.code = _
    rw [e, e']
    rfl

theorem ClassDecl.lower_chunks {c : ClassDecl} (h : c.lower r s = .ok x) :
    ∃ cs, x.code = cs.flatMap Chunk.code ∧
      List.Forall₂ (Source.Makes r) (Decl.cls c).sources cs := by
  obtain ⟨a, ha, b, hb, rfl⟩ := bind_run_ok.mp h
  obtain ⟨o, ho, t, ht, rfl⟩ := bind_run_ok.mp hb
  obtain ⟨hl, hc, -⟩ := required_run ho
  cases ht
  obtain ⟨cs, e, hcs⟩ := FnDecl.lowerMethods_chunks ha
  refine ⟨cs ++ [.table c.name o.value.labels], ?_,
    List.rel_append hcs (.cons (.table hl) .nil)⟩
  rw [List.flatMap_append, ← e, hc]
  rfl

/-- The code of declarations has a chunk for each function, method and class. -/
theorem Decl.lowerAll_chunks {ds : List Decl} (h : Decl.lowerAll r ds s = .ok x) :
    ∃ cs, x.code = cs.flatMap Chunk.code ∧
      List.Forall₂ (Source.Makes r) (ds.flatMap Decl.sources) cs := by
  induction ds generalizing s x with
  | nil =>
    cases h
    exact ⟨[], rfl, .nil⟩
  | cons d ds ih =>
    cases d with
    | var _ => exact ih h
    | iface _ => exact ih h
    | fn g =>
      obtain ⟨a, ha, b, hb, rfl⟩ := bind_run_ok.mp h
      obtain ⟨y, hy, e⟩ := function_ok ha
      obtain ⟨cs, e', hcs⟩ := ih hb
      refine ⟨_ :: cs, ?_, .cons (Source.Makes.function hy) hcs⟩
      show a.code ++ b.code = _
      rw [e, e']
      rfl
    | cls c =>
      obtain ⟨a, ha, b, hb, rfl⟩ := bind_run_ok.mp h
      obtain ⟨cs, e, hcs⟩ := ClassDecl.lower_chunks ha
      obtain ⟨cs', e', hcs'⟩ := ih hb
      exact ⟨cs ++ cs', by rw [List.flatMap_append, ← e, ← e'], List.rel_append hcs hcs'⟩

end

/-! ## 3. Programs -/

namespace Program

variable {p : Program} {a : Notes} {l : Layout} {code : List Instr}

/-- What the code of a program has chunks for. -/
def sources (p : Program) : List Source := p.decls.flatMap Decl.sources

theorem function_mem_sources {cls : Option ClassDecl} {g : FnDecl} :
    .function cls g ∈ p.sources ↔ (cls, g) ∈ p.functions := by
  unfold sources
  rw [List.mem_flatMap, mem_functions]
  constructor
  · rintro ⟨d, hd, h⟩
    cases d with
    | var _ => cases h
    | iface _ => cases h
    | fn g' =>
      obtain ⟨rfl, rfl⟩ := Source.function.inj (List.mem_singleton.mp h)
      exact .inl ⟨rfl, hd⟩
    | cls c =>
      rcases List.mem_append.mp h with h | h
      · obtain ⟨g', hg, e⟩ := List.mem_map.mp h
        obtain ⟨rfl, rfl⟩ := Source.function.inj e
        exact .inr ⟨c, rfl, hd, hg⟩
      · cases List.mem_singleton.mp h
  · rintro (⟨rfl, hd⟩ | ⟨c, rfl, hd, hg⟩)
    · exact ⟨_, hd, List.mem_singleton.mpr rfl⟩
    · exact ⟨_, hd, List.mem_append_left _ (List.mem_map_of_mem hg)⟩

/-- **The code of a program is a row of chunks, one for each of its functions, methods and
classes.** -/
theorem lower_chunks (h : p.lower a l = .ok code) : ∃ r cs,
    withGlobals ⟨a, l, [], none, none⟩ (p.decls.filterMap Decl.var?) = .ok r ∧
      code = cs.flatMap Chunk.code ∧ List.Forall₂ (Source.Makes r) p.sources cs := by
  obtain ⟨r, x, hr, hx, rfl⟩ := lower_eq_ok h
  obtain ⟨cs, e, hcs⟩ := Decl.lowerAll_chunks hx
  exact ⟨r, cs, hr, e, hcs⟩

end Program

end DecafLang
