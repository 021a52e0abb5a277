import DecafLang.Syntax.Handwritten
import DecafLang.Proofs.Storage

/-!
# Temporaries

Where the code of a function writes its temporaries, and where it reads them.

* The code of the body of a function has its course (`FnDecl.lowerBody_course`): it is given the
  words of the parameters and of globals, and jumps to its own labels only.
* **Each temporary of a function is written by one instruction, which control passes before it comes
  to one that reads the temporary** (`Program.temporaries_written_first`), whichever way it takes
  through the code.
-/

namespace DecafLang

open Code (Chunk Emit Emitted Instr Label Location Supply offsets touched written)
open Code.Supply (localOffset paramOffset)
open Code.Emit
open Lowering

/-! ## 1. Words of a function -/

namespace Tenant

variable {a i : Nat} {ts : List Tenant}

theorem nodup_tempOffsets : (tempOffsets a ts).Nodup := by
  induction ts generalizing a with
  | nil => exact .nil
  | cons t ts ih =>
    cases t with
    | temp n =>
      refine List.nodup_cons.mpr ⟨fun h => ?_, ih⟩
      obtain ⟨i, _, -, e⟩ := mem_tempOffsets.mp h
      have := Placing.localOffset_inj e
      omega
    | this => exact ih
    | var v => exact ih

/-- The word of a temporary is not that of a variable. -/
theorem not_mem_varOffsets {n : Nat} (hi : ts[i]? = some (temp n)) :
    localOffset (a + i) ∉ varOffsets a ts := by
  intro ⟨j, v, hj, e⟩
  obtain rfl : i = j := by
    have := Placing.localOffset_inj e
    omega
  cases hi.symm.trans hj

end Tenant

namespace Code

variable {known : Label → Option (Set Int)} {G G' : Set Int} {code : List Instr}

/-- What stands around the body of a function changes nothing. -/
theorem Flows.function (h : Flows known G code G') (n : Int) :
    ∃ G₁, Flows known G (.enter n :: (code ++ [.leave])) G₁ := by
  have hready : ∀ (i : Instr) (G : Set Int), i.gets = [] → i.aim? = none → i.Ready known G := by
    intro i G hg ha
    refine ⟨fun o ho => ?_, fun l hl => ?_⟩
    · rw [hg] at ho
      cases ho
    · rw [ha] at hl
      cases hl
  have hleave : Flows known G' [.leave] (Instr.leaves known G' .leave) :=
    ⟨hready _ _ rfl rfl, Set.Subset.refl _⟩
  exact ⟨_, hready _ _ rfl rfl, (h.append hleave).mono Set.subset_union_left⟩

theorem written_function (n : Int) : written (.enter n :: (code ++ [.leave])) = written code := by
  show written (code ++ [.leave]) = _
  rw [written_append]
  exact List.append_nil _

/-- Labels can be known by their numbers. -/
theorem exists_known (place : Nat → Set Int) (P : Nat → Prop) : ∃ known : Label → Option (Set Int),
    (∀ n, P n → known (Supply.labelName n) = some (place n)) ∧
      ∀ l S, known l = some S → ∃ n, P n ∧ l = Supply.labelName n := by
  classical
  refine ⟨fun l => if h : ∃ n, P n ∧ l = Supply.labelName n then some (place h.choose) else none,
    fun n hn => ?_, fun l S h => ?_⟩
  · have h : ∃ k, P k ∧ Supply.labelName n = Supply.labelName k := ⟨n, hn, rfl⟩
    dsimp only
    rw [dif_pos h, ← labelName_inj h.choose_spec.2]
  · dsimp only at h
    split at h
    · assumption
    · cases h

end Code

/-- Around all functions lie globals only, and there is nothing to leave. -/
structure Surroundings.AtTop (r : Surroundings) : Prop where
  slots : ∀ e ∈ r.slots, ∃ o name, e.2 = .global o name
  breakTo_eq : r.breakTo = none

theorem withGlobals_atTop {a : Notes} {l : Layout} {vs : List VarDecl} {r : Surroundings}
    (h : withGlobals ⟨a, l, [], none, none⟩ vs = .ok r) : r.AtTop where
  slots e he := by
    rcases withGlobals_slots h e he with he | ⟨v, -, o, -, rfl⟩
    · cases he
    · exact ⟨o, v.name, rfl⟩
  breakTo_eq := (withGlobals_outside (a := a) ⟨rfl, rfl, fun _ _ _ h => by cases h⟩ h).breakTo_eq

/-- The locations are parameters and globals. -/
def Outer (own : List Location) : Prop :=
  ∀ y ∈ own, (∃ i name, y = .frame (paramOffset i) name) ∨ ∃ o name, y = .global o name

namespace Course

variable {l : Layout} {own : List Location} {s t : Supply} {code : List Instr} {vs : List VarDecl}
  {ts : List Tenant}

/-- Whatever the code of a body touches below the frame pointer is the word of a tenant. -/
theorem tenant_of_touched (h : Course l own [] own s code t own vs ts) (hs : s.locals = 0)
    (hown : Outer own) {x : Location} (hx : x ∈ touched code) {i : Nat} {name : String}
    (e : x.root = .frame (localOffset i) name) : ∃ t, ts[i]? = some t ∧ name = t.name := by
  rcases List.mem_append.mp (h.reach x (List.mem_append_left _ hx)) with hm | hm
  · obtain ⟨z, hz, e'⟩ := List.mem_map.mp hm
    -- the words the function starts with: formals, or words elsewhere
    rcases hown z hz with ⟨j, _, rfl⟩ | ⟨_, _, rfl⟩
    · have e := Location.direct.inj (e'.trans e)
      exact absurd e.2.1.symm (Surroundings.localOffset_ne_paramOffset i j)
    · cases e'.trans e
  -- a word handed out along the code, whose offset tells its position
  · obtain ⟨j, t, hj, e'⟩ := Tenant.mem_words.mp hm
    obtain ⟨-, ho, hname⟩ := Location.direct.inj (e.symm.trans e')
    rw [hs, Nat.zero_add] at ho
    obtain rfl := Placing.localOffset_inj ho
    exact ⟨t, hj, hname⟩

/-- **Each temporary of a body is written first**: it is written once, and nothing vouches for its
word but the instruction that writes it. -/
theorem writtenFirst (h : Course l own [] own s code t own vs ts) (hs : s.locals = 0)
    (hown : Outer own) (frameSize : Int) {i n : Nat} (hi : ts[i]? = some (.temp n)) :
    Code.WrittenFirst (.enter frameSize :: (code ++ [.leave])) (localOffset i) := by
  -- what is vouched for: the words of the parameters, and those of the locals
  let U : Set Int := {o | ∃ i, o = paramOffset i} ∪ Tenant.varOffsets 0 ts
  have hU : offsets own ⊆ U := by
    rintro o ⟨y, hy, e⟩
    rcases hown y hy with ⟨i, _, rfl⟩ | ⟨_, _, rfl⟩
    · exact .inl ⟨i, (Option.some.inj e).symm⟩
    · cases e
  have hnot : localOffset i ∉ U := fun hm => by
    rcases hm with ⟨j, e⟩ | hm
    · exact Surroundings.localOffset_ne_paramOffset _ _ e
    · exact Tenant.not_mem_varOffsets hi (Nat.zero_add i ▸ hm)
  obtain ⟨⟨us, hp, hus⟩, place, hflows⟩ := h.orderly U hU (hs ▸ Set.subset_union_right)
  rw [hs] at hp
  obtain ⟨known, hknown, -⟩ := Code.exists_known place fun n => s.labels ≤ n ∧ n < t.labels
  obtain ⟨_, hflow⟩ :=
    (hflows known (fun n h₁ h₂ => hknown n ⟨h₁, h₂⟩) nofun).function frameSize
  refine hflow.writtenFirst (fun hm => hnot (hm.elim (fun h => hU h) fun h => h)) ?_
  have hmem : localOffset i ∈ Tenant.tempOffsets 0 ts :=
    Tenant.mem_tempOffsets.mpr ⟨i, n, hi, by rw [Nat.zero_add]⟩
  have hothers : us.count (localOffset i) = 0 :=
    List.count_eq_zero.mpr fun h => hnot (hus _ h)
  rw [Code.written_function, hp.count_eq, List.count_append, hothers,
    List.count_eq_one_of_mem Tenant.nodup_tempOffsets hmem]

end Course

section

variable {g : FnDecl} {r : Surroundings} {m : Bool} {s : Supply} {x : Emitted Unit}

/-- The code of a body is given the words of the parameters and of globals, and jumps to its own
labels only. -/
theorem FnDecl.lowerBody_course (hr : r.AtTop) (h : g.lowerBody r m s.newFrame = .ok x) :
    ∃ own start ts, Course r.layout own [] own start x.code x.supply own
        (Opening.vars (Block.openingsOpt g.body)) ts ∧
      start.locals = 0 ∧ start.temps = s.temps ∧ start.labels = s.labels ∧ Outer own := by
  have hbreak : r.Leaves [] [] := fun l hl => by
    rw [hr.breakTo_eq] at hl
    cases hl
  obtain ⟨r₂, ts, hadds, ht, -⟩ := FnDecl.lowerBody_houses (H := False) hbreak nofun h
  refine ⟨r₂.words, _, ts, ht, rfl, rfl, rfl, fun y hy => ?_⟩
  rcases List.mem_append.mp hy with hy | hy
  · obtain ⟨e, he, rfl⟩ := List.mem_map.mp hy
    -- a global the function starts with, or one of its formals
    rcases hadds.slots e he with he | ⟨i, v, -, rfl⟩
    · exact .inr (hr.slots e he)
    · exact .inl ⟨_, _, rfl⟩
  · rw [hadds.within.this_eq] at hy
    cases m with
    | false => cases hy
    | true =>
      obtain rfl := List.mem_singleton.mp hy
      exact .inl ⟨0, _, rfl⟩

/-- What the code of a body does with the words below the frame pointer. These tenants have them. -/
structure FnDecl.WritesFirst (g : FnDecl) (frameSize : Int) (body : List Instr)
    (ts : List Tenant) : Prop where
  /-- The frame is as large as the tenants need. -/
  size : frameSize = 4 * ts.length
  no_this : Tenant.this ∉ ts
  /-- The variables among them are the locals of all blocks. -/
  locals : Tenant.vars ts = Opening.vars (Block.openingsOpt g.body)
  /-- The temporaries are those that were handed out while the body was written. -/
  handed : ∃ r isMethod s x n, g.lowerBody r isMethod s = .ok x ∧ x.code = body ∧
    x.supply.temps = s.temps + n ∧ Tenant.temps ts = List.range' s.temps n
  /-- Whatever the code touches there is the word of a tenant, under its name. -/
  reach : ∀ x ∈ touched body, ∀ i name, x.root = .frame (localOffset i) name →
    ∃ t, ts[i]? = some t ∧ name = t.name
  /-- Each temporary is written by one instruction, which control passes before all that read it. -/
  first : ∀ i n, ts[i]? = some (.temp n) →
    Code.WrittenFirst (.enter frameSize :: (body ++ [.leave])) (localOffset i)

theorem FnDecl.lowerBody_writesFirst (hr : r.AtTop) (h : g.lowerBody r m s.newFrame = .ok x) :
    ∃ ts, g.WritesFirst x.supply.frameSize x.code ts := by
  obtain ⟨own, start, ts, ht, hlocals, htemps, -, hown⟩ := FnDecl.lowerBody_course hr h
  obtain ⟨n, hn, e⟩ := ht.numbers
  exact ⟨ts, {
    size := ht.frameSize_eq hlocals, no_this := ht.no_this, locals := ht.vars,
    handed := ⟨r, m, s.newFrame, x, n, h, rfl, htemps ▸ hn, htemps ▸ e⟩,
    reach := fun y hy i name e => ht.tenant_of_touched hlocals hown hy e,
    first := fun i n hi => ht.writtenFirst hlocals hown _ hi }⟩

end

/-! ## 2. Programs -/

namespace Program

variable {p : Program} {a : Notes} {l : Layout} {code : List Instr}

/-- Inside the functions among the chunks of a program stand no others. -/
theorem chunk_closed {r : Surroundings} {cs : List Chunk} (hr : r.AtTop)
    (hcs : List.Forall₂ (Source.Makes r) p.sources cs) {c : Chunk} (hc : c ∈ cs) :
    c.Closed r.layout := by
  cases c with
  | table _ _ => trivial
  | function lab n body =>
    obtain ⟨src, -, hmakes⟩ := forall₂_right hcs hc
    cases hmakes with
    | function hx =>
      obtain ⟨_, _, _, ht, -⟩ := FnDecl.lowerBody_course hr hx
      exact ht.inner

/-- **Each temporary is written by one instruction of its function, and control passes this
instruction before it comes to one that reads the temporary**, on every way from where the frame is
opened: wherever a frame is opened, it is that of a function, up to whose end this holds of all
temporaries that were handed out for its body. -/
theorem temporaries_written_first (h : p.lower a l = .ok code) :
    ∀ before n after, code = before ++ .enter n :: after → ∃ cls g body first rest ts,
      (cls, g) ∈ p.functions ∧ before = first ++ [.label (g.codeLabel cls)] ∧
        after = body ++ .leave :: rest ∧ .leave ∉ body ∧ g.WritesFirst n body ts := by
  obtain ⟨r, cs, hr, rfl, hcs⟩ := lower_chunks h
  have hr := withGlobals_atTop hr
  intro before n after e
  obtain ⟨lab, body, first, rest, hm, hbefore, hafter⟩ :=
    Chunk.of_enter (fun _ => chunk_closed hr hcs) e
  have hclosed := chunk_closed hr hcs hm
  obtain ⟨src, hsrc, hmakes⟩ := forall₂_right hcs hm
  cases hmakes with
  | function hx =>
    obtain ⟨ts, hts⟩ := FnDecl.lowerBody_writesFirst hr hx
    exact ⟨_, _, _, first, rest, ts, function_mem_sources.mp hsrc, hbefore, hafter,
      fun hm => hclosed _ hm, hts⟩

end Program

/-- A loop over an array that is left early, and a choice of what is printed. -/
def rummage : Program := .number [
  .fn ⟨.nowhere, .called "main", .prim 0 .void, [], some ⟨.nowhere,
    [.called "a" (.array 0 (.prim 0 .int)), .int "i"],
    [.set (.use "a") (.newArray .nowhere (.int .nowhere 3) (.prim 0 .int)),
      .for .nowhere (some (.assign .nowhere (.use "i") (.int .nowhere 0)))
        (.binary .nowhere .less (.use "i") (.int .nowhere 3))
        (some (.step .nowhere .increment (.use "i")))
        (.ifElse .nowhere (.binary .nowhere .equal (.use "i") (.int .nowhere 2))
          (.break .nowhere) (.set (.index .nowhere (.use "a") (.use "i")) (.use "i"))),
      .switch .nowhere (.use "i") [
        ⟨some 2, [.print .nowhere [.index .nowhere (.use "a") (.int .nowhere 0)], .break .nowhere]⟩,
        ⟨none, [.print .nowhere [.use "i"]]⟩]]⟩⟩]

/-- A frame is opened in the code of the program, and its temporaries are written first. -/
theorem temporaries_written_first_rummage : ∃ l code,
    rummage.lower rummage.analyze.notes l = .ok code ∧
    ∃ before n after, code = before ++ .enter n :: after ∧ ∃ cls g body first rest ts,
      (cls, g) ∈ rummage.functions ∧ before = first ++ [.label (g.codeLabel cls)] ∧
        after = body ++ .leave :: rest ∧ .leave ∉ body ∧ g.WritesFirst n body ts := by
  have hopen : rummage.code?.bind (·[1]?) = some (.enter 176) := by decide +kernel
  obtain ⟨code, hcode, hn⟩ := Option.bind_eq_some_iff.mp hopen
  obtain ⟨l, -, hc⟩ := Program.of_code? hcode
  obtain ⟨before, after, e⟩ := List.append_of_mem (List.mem_of_getElem? hn)
  exact ⟨l, code, hc, before, 176, after, e,
    Program.temporaries_written_first hc before 176 after e⟩

end DecafLang
