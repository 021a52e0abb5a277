import Mathlib.Data.List.Flatten
import DecafLang.Syntax.Handwritten
import DecafLang.Proofs.Bodies
import DecafLang.Proofs.Checked
import DecafLang.Proofs.Numbering

/-!
# Functions run as they are written

**The code of a function with a simple body exists, and its runs end as the body does**
(`Program.Clean.lowers_faithfully`): at the end with the same words in the variables, or at an
instruction that gives the same value back.

* Every variable of the function has a word of its own in the frame; the formals lie where a
  caller puts them.
* The code starts behind the label of the function, so that jumps find the labels of the function
  alone.
-/

namespace DecafLang

open Code (Emit Emitted Halt HaltsIn Implements Instr Label Location Occurs Runs Steps Store Supply
  World labelsOf)
open Lowering Code.Supply

/-! ## 1. What it is to run as written -/

/-- Two valuations agree on the variables that have a place. -/
def Placing.Agree (p : Placing) (σ τ : Valuation) : Prop := ∀ v o, p v = some o → σ v = τ v

/-- The runs of the code end as the behaviour does, from every valuation whose bools are 0 or 1. -/
structure Placing.Follows (p : Placing) (T : NodeId → Prop) (code : List Instr) (X : Behaviour) :
    Prop where
  ends : ∀ w σ τ m, Truthful T σ → p.Holds σ m →
    ((∃ σ', X σ .normal σ' ∧ p.Agree σ' τ) ↔ ∃ m', Runs w code m (.ended m') ∧ p.Holds τ m')
  returns : ∀ w σ v m, Truthful T σ → p.Holds σ m →
    ((∃ σ', X σ (.returned v) σ') ↔ ∃ m', Runs w code m (.returned v m'))

/-- The code of a function runs as its body is written; `first` is the position of the first
formal among the parameters. -/
def FnDecl.Faithful (g : FnDecl) (a : Notes) (b : Block) (first : Nat) (l : Label)
    (code : List Instr) : Prop :=
  ∃ n body, code = .label l :: .enter n :: body ++ [.leave] ∧
    ∃ p : Placing, p.Apart ∧ (∀ v, (p v).isSome ↔ ∃ u ∈ g.vars, u.id = v) ∧
      (∀ i v, g.formals[i]? = some v → p v.id = some (paramOffset (first + i))) ∧
      p.Follows g.bools (.enter n :: body ++ [.leave]) (b.exec a)

/-! ## 2. Placings of lists -/

/-- The placing of a list of slots. -/
def Placing.ofSlots (l : List (NodeId × Int)) : Placing := fun v => Table.find v l

namespace Placing

variable {l : List (NodeId × Int)} {p : Placing} {v : NodeId} {o : Int}

theorem ofSlots_eq_some (h : (l.map Prod.fst).Nodup) : ofSlots l v = some o ↔ (v, o) ∈ l :=
  ⟨Table.mem_of_find, Table.find_of_mem h⟩

theorem ofSlots_apart (h : (l.map Prod.fst).Nodup) (h' : (l.map Prod.snd).Nodup) :
    (ofSlots l).Apart := by
  intro u v o hu hv
  have := List.inj_on_of_nodup_map h' ((ofSlots_eq_some h).mp hu) ((ofSlots_eq_some h).mp hv) rfl
  exact congrArg Prod.fst this

theorem ofSlots_isSome (h : (l.map Prod.fst).Nodup) :
    (ofSlots l v).isSome ↔ v ∈ l.map Prod.fst := by
  rw [Option.isSome_iff_exists, List.mem_map]
  constructor
  · intro ⟨o, ho⟩
    exact ⟨(v, o), (ofSlots_eq_some h).mp ho, rfl⟩
  · intro h
    obtain ⟨⟨u, o⟩, hm, rfl⟩ := h
    exact ⟨o, (ofSlots_eq_some h).mpr hm⟩

end Placing

/-- The slots of the formals and of the locals of a function. -/
def slots (vs : List VarDecl) (first : Nat) (pl : List (NodeId × Nat)) : List (NodeId × Int) :=
  (placed vs first).map (fun x => (x.1, paramOffset x.2)) ++ pl.map fun x => (x.1, localOffset x.2)

theorem map_fst_slots (vs : List VarDecl) (first : Nat) (pl : List (NodeId × Nat)) :
    (slots vs first pl).map Prod.fst = vs.map VarDecl.id ++ pl.map Prod.fst := by
  unfold slots
  rw [List.map_append, List.map_map, List.map_map, ← map_fst_placed vs first]
  rfl

theorem nodup_slots {vs : List VarDecl} {first n : Nat} {pl : List (NodeId × Nat)}
    (h : Fills (pl.map Prod.snd) 0 n) : ((slots vs first pl).map Prod.snd).Nodup := by
  unfold slots
  rw [List.map_append, List.map_map, List.map_map]
  have hf := (placed_fills vs first).nodup
  have e : (placed vs first).map (Prod.snd ∘ fun x => (x.1, paramOffset x.2)) =
      ((placed vs first).map Prod.snd).map paramOffset := by
    rw [List.map_map]
    rfl
  have e' : pl.map (Prod.snd ∘ fun x => (x.1, localOffset x.2)) =
      (pl.map Prod.snd).map localOffset := by
    rw [List.map_map]
    rfl
  rw [e, e']
  refine List.nodup_append.mpr ⟨hf.map_on fun i _ j _ => Surroundings.paramOffset_inj,
    h.nodup.map_on fun i _ j _ => Placing.localOffset_inj, ?_⟩
  -- parameters lie above the frame pointer and locals below
  intro o ho o' ho' he
  obtain ⟨i, -, rfl⟩ := List.mem_map.mp ho
  obtain ⟨j, -, rfl⟩ := List.mem_map.mp ho'
  exact Surroundings.localOffset_ne_paramOffset j i he.symm

theorem mem_placed {vs : List VarDecl} {k i : Nat} {v : VarDecl} (h : vs[i]? = some v) :
    (v.id, k + i) ∈ placed vs k := by
  induction vs generalizing k i with
  | nil => cases h
  | cons u vs ih =>
    cases i with
    | zero =>
      cases h
      exact List.mem_cons_self
    | succ i =>
      have := ih (k := k + 1) h
      rw [Nat.add_assoc, Nat.add_comm 1] at this
      exact List.mem_cons_of_mem _ this

/-- The formals lie where the list of slots has them. -/
theorem ofSlots_formal {vs : List VarDecl} {first i : Nat} {pl : List (NodeId × Nat)} {v : NodeId}
    (h : ((slots vs first pl).map Prod.fst).Nodup) (hv : (v, i) ∈ placed vs first) :
    Placing.ofSlots (slots vs first pl) v = some (paramOffset i) :=
  (Placing.ofSlots_eq_some h).mpr (List.mem_append_left _ (List.mem_map.mpr ⟨_, hv, rfl⟩))

/-- What lies among the locals is what has been placed there. -/
theorem ofSlots_local {vs : List VarDecl} {first i : Nat} {pl : List (NodeId × Nat)} {v : NodeId}
    (h : ((slots vs first pl).map Prod.fst).Nodup) :
    Placing.ofSlots (slots vs first pl) v = some (localOffset i) ↔ (v, i) ∈ pl := by
  rw [Placing.ofSlots_eq_some h]
  constructor
  · intro hm
    rcases List.mem_append.mp hm with hm | hm
    · obtain ⟨y, -, hy⟩ := List.mem_map.mp hm
      -- the offset of a local is never that of a parameter
      exact absurd (congrArg Prod.snd hy).symm (Surroundings.localOffset_ne_paramOffset _ _)
    · obtain ⟨⟨u, j⟩, hm, hy⟩ := List.mem_map.mp hm
      have hj := Placing.localOffset_inj (congrArg Prod.snd hy)
      have hu : u = v := congrArg Prod.fst hy
      exact hu ▸ hj ▸ hm
  · intro hm
    exact List.mem_append_right _ (List.mem_map.mpr ⟨(v, i), hm, rfl⟩)

/-! ## 3. The code of a function -/

section

variable {g : FnDecl} {a : Notes} {b : Block} {r : Surroundings}

/-- Nothing lies in the frame yet, and there is nothing to leave. -/
structure Surroundings.Outside (r : Surroundings) (a : Notes) : Prop where
  notes_eq : r.notes = a
  breakTo_eq : r.breakTo = none
  slots : ∀ v o n, r.slot? v ≠ some (.frame o n)

theorem withThis_run (h : r.Outside a) (isMethod : Bool) (s : Supply) :
    ∃ r', withThis r isMethod s =
      .ok ⟨r', [], { s with params := s.params + isMethod.toNat }⟩ ∧ r'.Outside a := by
  cases isMethod with
  | false => exact ⟨_, rfl, h.notes_eq, h.breakTo_eq, h.slots⟩
  | true => exact ⟨_, rfl, h.notes_eq, h.breakTo_eq, h.slots⟩

/-- The slots of the formals, and the code of the body in sight of them. -/
theorem FnDecl.lowerBody_run (h : r.Outside a) (hb : g.body = some b)
    (ht : b.Tame a g.bools g.formals false)
    (hT : ∀ v ∈ g.formals, g.bools v.id ↔ v.type.ty = .bool) (isMethod : Bool) (s : Supply) :
    ∃ r' code s₁ s' pl, g.lowerBody r isMethod s = .ok ⟨(), code, s'⟩ ∧
      pl.map Prod.fst = Opening.declared b.openings ∧ r'.breakTo = none ∧ s₁.locals = s.locals ∧
      (∀ p : Placing, (∀ v i, (v, i) ∈ placed g.formals (s.params + isMethod.toNat) →
        p v = some (paramOffset i)) → p.Covers r') ∧
      Lowered r' g.bools (b.exec a) s₁ code s' pl := by
  obtain ⟨r₁, e₁, h₁⟩ := withThis_run h isMethod s
  obtain ⟨r₂, e₂, h₂⟩ := withFormals_run g.formals r₁ { s with params := s.params + isMethod.toNat }
  -- behind the object and the parameters the body finds its surroundings
  have hs : r₂.Suits a g.bools g.formals false := by
    refine ⟨h₂.notes_eq.trans h₁.notes_eq, ?_, hT, nofun⟩
    have := h₂.shows [] nofun
    rwa [List.append_nil] at this
  obtain ⟨code, s', pl, e, hk, hx⟩ := b.lowers hs ht { s with
    params := s.params + isMethod.toNat + g.formals.length }
  refine ⟨r₂, code, { s with params := s.params + isMethod.toNat + g.formals.length }, s', pl, ?_,
    hk, h₂.breakTo_eq.trans h₁.breakTo_eq, rfl, fun p hp => ?_, hx⟩
  · unfold lowerBody
    refine bind_run (c := []) e₁ (bind_run (c := []) e₂ ?_)
    rw [hb]
    exact e
  · exact h₂.covers p (fun v o n hv => absurd hv (h₁.slots v o n)) hp

/-- How the run of a function ends that comes to this. -/
def Outcome.halt? (m : Store) : Outcome → Option Halt
  | .normal => some (.ended m)
  | .broke => none
  | .returned v => some (.returned v m)

section

variable {w : World} {p : Placing} {T : NodeId → Prop} {X : Behaviour} {n : Int}
  {code : List Instr} {σ σ' : Valuation} {o : Outcome} {m : Store} {hh : Halt}

/-- What may happen in the body, a run of the function comes to. -/
theorem Code.Implements.runs
    (h : Implements w (.enter n :: code ++ [.leave]) (State p T) 1 (1 + code.length) none X)
    (hx : X σ o σ') (hm : State p T σ m) :
    ∃ m' hh, Runs w (.enter n :: code ++ [.leave]) m hh ∧ State p T σ' m' ∧
      o.halt? m' = some hh := by
  have henter : Steps w (.enter n :: code ++ [.leave]) 1 ⟨0, m⟩ ⟨1, m⟩ :=
    .one (Code.step_of_effect (i := .enter n) rfl rfl)
  obtain ⟨k, m', hr, hm'⟩ := h.sound σ o σ' m hx hm
  -- a body ends behind its last statement or with a return; no break leaves it
  cases o with
  | normal =>
    have hleave : (Instr.enter n :: code ++ [.leave])[1 + code.length]? = some .leave := by
      rw [Nat.add_comm, List.cons_append, List.getElem?_cons_succ, List.getElem?_append_right
        (Nat.le_refl _), Nat.sub_self]
      rfl
    refine ⟨m', .ended m', ⟨_, .of_steps henter ⟨_, hr, ?_⟩⟩, hm', rfl⟩
    unfold Code.step
    rw [hleave]
    rfl
  | broke =>
    obtain ⟨_, hb, -⟩ := hr
    cases hb
  | returned v => exact ⟨m', .returned v m', ⟨_, .of_steps henter hr⟩, hm', rfl⟩

/-- What a run of the function comes to may happen in the body. -/
theorem Code.Implements.exec
    (h : Implements w (.enter n :: code ++ [.leave]) (State p T) 1 (1 + code.length) none X)
    (hm : State p T σ m) (hrun : Runs w (.enter n :: code ++ [.leave]) m hh) :
    ∃ o σ' m', X σ o σ' ∧ State p T σ' m' ∧ o.halt? m' = some hh := by
  have henter : Steps w (.enter n :: code ++ [.leave]) 1 ⟨0, m⟩ ⟨1, m⟩ :=
    .one (Code.step_of_effect (i := .enter n) rfl rfl)
  obtain ⟨k, hk⟩ := hrun
  obtain ⟨-, hk'⟩ := henter.halts_of_halts hk
  obtain ⟨o, σ', hx⟩ := h.complete σ m _ hh hm hk'
  obtain ⟨m', hh', ⟨j, hj⟩, hm', ho⟩ := h.runs hx hm
  -- a run ends in one way only
  obtain rfl := hk.unique hj
  exact ⟨o, σ', m', hx, hm', ho⟩

/-- What the code of a body implements, it follows from its first instruction on. -/
theorem Placing.Follows.of_implements
    (h : ∀ w, Implements w (.enter n :: code ++ [.leave]) (State p T) 1 (1 + code.length) none X) :
    p.Follows T (.enter n :: code ++ [.leave]) X := by
  constructor
  · intro w σ τ m hσ hm
    constructor
    · intro ⟨σ', hx, hτ⟩
      obtain ⟨m', hh, hrun, hm', e⟩ := (h w).runs hx ⟨hm, hσ⟩
      -- the run that there is ends the way the behaviour says
      cases e
      exact ⟨m', hrun, fun v o hv => (hm'.holds v o hv).trans (hτ v o hv)⟩
    · intro ⟨m', hrun, hτ⟩
      obtain ⟨o, σ', m'', hx, hm'', e⟩ := (h w).exec ⟨hm, hσ⟩ hrun
      cases o with
      | normal =>
        cases e
        exact ⟨σ', hx, fun v o hv => (hm''.holds v o hv).symm.trans (hτ v o hv)⟩
      | broke => cases e
      | returned _ => cases e
  · intro w σ v m hσ hm
    constructor
    · intro ⟨σ', hx⟩
      obtain ⟨m', hh, hrun, -, e⟩ := (h w).runs hx ⟨hm, hσ⟩
      cases e
      exact ⟨m', hrun⟩
    · intro ⟨m', hrun⟩
      obtain ⟨o, σ', m'', hx, -, e⟩ := (h w).exec ⟨hm, hσ⟩ hrun
      cases o with
      | normal => cases e
      | broke => cases e
      | returned _ =>
        cases e
        exact ⟨σ', hx⟩

end

theorem FnDecl.map_fst_slots {first : Nat} {pl : List (NodeId × Nat)} (hb : g.body = some b)
    (hk : pl.map Prod.fst = Opening.declared b.openings) :
    (slots g.formals first pl).map Prod.fst = Opening.declared g.openings := by
  rw [DecafLang.map_fst_slots, hk]
  unfold openings Block.openingsOpt
  rw [hb, Opening.declared_cons]
  show _ = ((g.formals.map Decl.var).map Decl.id) ++ _
  rw [List.map_map]
  rfl

/-- **The code of a function with a tame body exists and runs as the body is written.** -/
theorem FnDecl.function_faithful (h : r.Outside a) (hb : g.body = some b)
    (ht : b.Tame a g.bools g.formals false)
    (hT : ∀ v ∈ g.formals, g.bools v.id ↔ v.type.ty = .bool)
    (hn : (Opening.declared g.openings).Nodup) (isMethod : Bool) (l : Label) (s : Supply) :
    ∃ code s', Emit.function l (g.lowerBody r isMethod) s = .ok ⟨(), code, s'⟩ ∧
      g.Faithful a b isMethod.toNat l code := by
  obtain ⟨r', body, s₁, s', pl, e, hk, hbr, hloc, hcov, hx⟩ :=
    g.lowerBody_run h hb ht hT isMethod s.newFrame
  have hkeys : (slots g.formals isMethod.toNat pl).map Prod.fst = _ := g.map_fst_slots hb hk
  have hfst := hkeys ▸ hn
  have hloc : s₁.locals = 0 := hloc
  have hplaced := hx.placed
  -- no locals are handed out before the body
  rw [hloc] at hplaced
  have hsnd : ((slots g.formals isMethod.toNat pl).map Prod.snd).Nodup := nodup_slots hplaced
  obtain ⟨ns, hl, hf⟩ := hx.labelled
  refine ⟨_, s', ?_, s'.frameSize, body, rfl, .ofSlots (slots g.formals isMethod.toNat pl),
    Placing.ofSlots_apart hfst hsnd, fun v => ?_, fun i v hv => ?_, .of_implements fun w => ?_⟩
  · unfold Emit.function
    rw [e]
  · rw [Placing.ofSlots_isSome hfst, hkeys, g.mem_declared]
  · exact ofSlots_formal hfst (mem_placed hv)
  · have himp := @Lowered.implements _ _ _ _ _ _ _ hx (.ofSlots (slots g.formals isMethod.toNat pl))
      w (.enter s'.frameSize :: body ++ [.leave]) 1
    rw [hbr] at himp
    refine himp (Placing.ofSlots_apart hfst hsnd) (hcov _ fun v i hv => ?_)
      (fun v i _ _ => ofSlots_local hfst) (Occurs.of_append [_] body [.leave]) ?_ nofun
    · rw [show s.newFrame.params + isMethod.toNat = isMethod.toNat from Nat.zero_add _] at hv
      exact ofSlots_formal hfst hv
    · have hlab : labelsOf (.enter s'.frameSize :: body ++ [.leave]) = labelsOf body := by
        rw [List.cons_append]
        show labelsOf (body ++ [.leave]) = _
        rw [Code.labelsOf_append]
        exact List.append_nil _
      rw [hlab]
      exact hl.nodup hf

end

/-! ## 4. The code of a program -/

theorem withGlobals_outside {a : Notes} {r r' : Surroundings} {vs : List VarDecl}
    (h : r.Outside a) (hr : withGlobals r vs = .ok r') : r'.Outside a := by
  induction vs generalizing r with
  | nil =>
    cases hr
    exact h
  | cons v vs ih =>
    unfold withGlobals at hr
    split at hr
    · refine ih ?_ hr
      refine ⟨h.notes_eq, h.breakTo_eq, fun u o n hu => ?_⟩
      rw [Surroundings.slot?_withSlot] at hu
      -- a global variable lies outside of the frame
      split at hu
      · cases hu
      · exact h.slots u o n hu
    · cases hr

/-- The label of a function, or of a method of a class. -/
def FnDecl.codeLabel (g : FnDecl) : Option ClassDecl → Label
  | none => plainLabel g.name
  | some c => qualifiedLabel c.name g.name

/-- Steps that write the code of a function write it into the code of all. -/
def Emit.Includes (m : Emit Unit) (f : Emit Unit) : Prop :=
  ∀ s e, m s = .ok e → ∃ s' e', f s' = .ok e' ∧ e'.code <:+: e.code

namespace Emit.Includes

variable {m m' f : Emit Unit}

theorem refl (m : Emit Unit) : Emit.Includes m m := fun s e h => ⟨s, e, h, List.infix_refl _⟩

theorem left (h : Emit.Includes m f) : Emit.Includes (do m; m') f := by
  intro s e he
  obtain ⟨d, hd, d', -, rfl⟩ := Code.Emit.bind_run_ok.mp he
  obtain ⟨s', e', hf, hi⟩ := h s d hd
  exact ⟨s', e', hf, hi.trans (List.infix_append' [] d.code d'.code)⟩

theorem right (h : Emit.Includes m' f) : Emit.Includes (do m; m') f := by
  intro s e he
  obtain ⟨d, -, d', hd', rfl⟩ := Code.Emit.bind_run_ok.mp he
  obtain ⟨s', e', hf, hi⟩ := h d.supply d' hd'
  refine ⟨s', e', hf, hi.trans ?_⟩
  have := List.infix_append d.code d'.code []
  rwa [List.append_nil] at this

end Emit.Includes

theorem FnDecl.lowerMethods_includes {cls : String} {r : Surroundings} {gs : List FnDecl}
    {g : FnDecl} (h : g ∈ gs) : Emit.Includes (FnDecl.lowerMethods cls r gs)
      (Emit.function (qualifiedLabel cls g.name) (g.lowerBody r true)) := by
  induction gs with
  | nil => cases h
  | cons g' gs ih =>
    rcases List.mem_cons.mp h with rfl | h
    · exact .left (.refl _)
    · exact .right (ih h)

/-- The code of every function stands in the code of the program. -/
theorem Decl.lowerAll_includes {p : Program} {r : Surroundings} {cls : Option ClassDecl}
    {g : FnDecl} (h : (cls, g) ∈ p.functions) : Emit.Includes (Decl.lowerAll r p.decls)
      (Emit.function (g.codeLabel cls) (g.lowerBody r cls.isSome)) := by
  -- the code of one declaration is part of that of all, by induction over those in front
  have hall : ∀ {ds : List Decl} {d : Decl} {m f : Emit Unit}, d ∈ ds →
      (∀ rest, Decl.lowerAll r (d :: rest) = do m; Decl.lowerAll r rest) → Emit.Includes m f →
        Emit.Includes (Decl.lowerAll r ds) f := by
    intro ds d m f hd he hi
    induction ds with
    | nil => cases hd
    | cons d' ds ih =>
      rcases List.mem_cons.mp hd with rfl | hd
      · rw [he]
        exact hi.left
      · have := ih hd
        cases d' with
        | var _ => exact this
        | iface _ => exact this
        | fn _ => exact this.right
        | cls _ => exact this.right
  rcases Program.mem_functions.mp h with ⟨rfl, hd⟩ | ⟨c, rfl, hd, hm⟩
  · exact hall hd (fun _ => rfl) (.refl _)
  · exact hall hd (fun _ => rfl) (.left (FnDecl.lowerMethods_includes hm))

/-- **Take a function of a clean program with a simple body. Its code exists in all surroundings
that the program has for it, it stands in the code of the program if there is one, and it runs as
the body is written.** -/
theorem Program.Clean.lowers_faithfully {p : Program} (h : p.Clean) {cls : Option ClassDecl}
    {g : FnDecl} (hg : (cls, g) ∈ p.functions) {b : Block} (hb : g.body = some b)
    (hs : b.Simple p.analyze.notes g.vars) (lay : Layout) :
    (∀ r s, withGlobals ⟨p.analyze.notes, lay, [], none, none⟩ (p.decls.filterMap Decl.var?) =
        .ok r → ∃ code s', Emit.function (g.codeLabel cls) (g.lowerBody r cls.isSome) s =
          .ok ⟨(), code, s'⟩ ∧
            g.Faithful p.analyze.notes b cls.isSome.toNat (g.codeLabel cls) code) ∧
      ∀ whole, p.lower p.analyze.notes lay = .ok whole → ∃ code, code <:+: whole ∧
        g.Faithful p.analyze.notes b cls.isSome.toNat (g.codeLabel cls) code := by
  have hT := h.named.bools_iff hg
  -- the variables of a function have numbers of their own
  have hn : (Opening.declared g.openings).Nodup :=
    (List.nodup_append.mp h.numbered.nodup_declared).2.1.sublist
      ((openings_sublist hg).flatMap _)
  have hall : ∀ r s, withGlobals ⟨p.analyze.notes, lay, [], none, none⟩
      (p.decls.filterMap Decl.var?) = .ok r → ∃ code s', Emit.function (g.codeLabel cls)
        (g.lowerBody r cls.isSome) s = .ok ⟨(), code, s'⟩ ∧
          g.Faithful p.analyze.notes b cls.isSome.toNat (g.codeLabel cls) code := fun r s hr => by
    have ho : r.Outside p.analyze.notes :=
      withGlobals_outside ⟨rfl, rfl, fun _ _ _ h => by cases h⟩ hr
    refine g.function_faithful ho hb (h.tame hg hb hs) (fun v hv => ?_) hn cls.isSome _ s
    exact hT v (FnDecl.mem_vars.mpr ⟨_, List.mem_cons_self, List.mem_map_of_mem hv⟩)
  refine ⟨hall, fun whole hw => ?_⟩
  unfold Program.lower at hw
  split at hw
  · split at hw
    · cases hw
    · rename_i r hr
      split at hw
      · cases hw
      · rename_i e he
        cases hw
        obtain ⟨s, e', hf, hi⟩ := Decl.lowerAll_includes hg _ e he
        obtain ⟨code, s', hf', hfaith⟩ := hall r s hr
        rw [hf] at hf'
        cases hf'
        exact ⟨_, hi, hfaith⟩
  · cases hw

/-! ## 5. A loop -/

/-- `while (i < 3) { i = i + 1; if (i == 2) break; }` as the body of `main`. -/
def counting : Program := .number [.fn ⟨.nowhere, .called "main", .prim 0 .void, [], some ⟨.nowhere,
  [.int "i"],
  [.while .nowhere (.binary .nowhere .less i (.int .nowhere 3)) (.block ⟨.nowhere, [],
    [.set i (.binary .nowhere .add i (.int .nowhere 1)),
      .ifThen .nowhere (.binary .nowhere .equal i (.int .nowhere 2)) (.break .nowhere)]⟩)]⟩⟩]
where
  i : Expr := .use "i"

/-- Its one function. -/
def counting.main : FnDecl := (counting.functions.head?.map Prod.snd).getD default

/-- The body of its one function. -/
def counting.body : Block := counting.main.body.getD default

theorem counting_clean : counting.Clean := ⟨Program.number_numbered _, rfl⟩

theorem counting_simple : counting.body.Simple counting.analyze.notes counting.main.vars := by
  have hi : ∀ k ∈ [4, 8, 10, 15],
      counting.analyze.notes.Simple counting.main.vars ⟨"i", ⟨k, .nowhere⟩⟩ := by
    intro k hk
    simp only [List.mem_cons, List.not_mem_nil, or_false] at hk
    rcases hk with rfl | rfl | rfl | rfl
    · exact ⟨_, List.mem_cons_self, rfl, .inl rfl⟩
    · exact ⟨_, List.mem_cons_self, rfl, .inl rfl⟩
    · exact ⟨_, List.mem_cons_self, rfl, .inl rfl⟩
    · exact ⟨_, List.mem_cons_self, rfl, .inl rfl⟩
  exact ⟨⟨⟨nofun, nofun, hi 4 (by decide), trivial⟩, ⟨hi 8 (by decide), nofun, nofun,
    hi 10 (by decide), trivial⟩, ⟨⟨nofun, nofun, hi 15 (by decide), trivial⟩, trivial⟩,
    trivial⟩, trivial⟩

/-- The code of the loop stands in the code of its program, and runs as the loop is written. -/
theorem lowers_faithfully_counting : ∃ whole code,
    counting.lower counting.analyze.notes .empty = .ok whole ∧ code <:+: whole ∧
      counting.main.Faithful counting.analyze.notes counting.body 0 "main" code := by
  have hg : (none, counting.main) ∈ counting.functions := List.mem_cons_self
  have hb : counting.main.body = some counting.body := rfl
  obtain ⟨-, h⟩ := counting_clean.lowers_faithfully hg hb counting_simple .empty
  have hok : (counting.lower counting.analyze.notes .empty).isOk = true := by decide +kernel
  cases hw : counting.lower counting.analyze.notes .empty with
  | error e =>
    rw [hw] at hok
    cases hok
  | ok whole =>
    obtain ⟨code, hi, hf⟩ := h whole hw
    exact ⟨whole, code, rfl, hi, hf⟩

end DecafLang
