import DecafLang.Proofs.ScalarStatements
import DecafLang.Proofs.Switch
import DecafLang.Lowering.Program

/-!
# The code of bodies

**The code of a tame statement exists and does what the statement does** (`Stmt.lowers`), with a
slot for each of its variables. Every statement is put together from the pieces of its parts.
-/

namespace DecafLang

open Code (Emit Emitted Implements Instr Label Location Occurs Steps Store Supply World labelsOf)
open Lowering Code.Supply

/-! ## 1. Surroundings of tame statements -/

namespace Surroundings

/-- The surroundings fit the variables in sight. -/
structure Suits (r : Surroundings) (a : Notes) (T : NodeId → Prop) (vis : List VarDecl)
    (br : Bool) : Prop where
  notes_eq : r.notes = a
  shows : r.Shows vis
  bools : ∀ v ∈ vis, T v.id ↔ v.type.ty = .bool
  breaks : br = true → ∃ l, r.breakTo = some l

variable {r r' : Surroundings} {a : Notes} {T : NodeId → Prop} {vis : List VarDecl} {br : Bool}
  {p : Placing}

/-- Inside a loop there is a label to leave to. -/
theorem Suits.leavingTo (h : r.Suits a T vis br) (l : Label) :
    (r.leavingTo l).Suits a T vis true :=
  ⟨h.notes_eq, h.shows, h.bools, fun _ => ⟨l, rfl⟩⟩

/-- The latest slot is the one that is found. -/
theorem slot?_withSlot (r : Surroundings) (v u : NodeId) (l : Location) :
    (r.withSlot v l).slot? u = if v = u then some l else r.slot? u := rfl

/-- A variable with a slot is shown, and so are those that were. -/
theorem Shows.withSlot (h : r.Shows vis) (v : VarDecl) (o : Int) (n : String) :
    (r.withSlot v.id (.frame o n)).Shows (v :: vis) := by
  intro u hu
  rw [slot?_withSlot]
  -- an older slot of the same variable is hidden, one of another variable is still seen
  by_cases e : v.id = u.id
  · rw [if_pos e]
    exact ⟨o, n, rfl⟩
  · rw [if_neg e]
    rcases List.mem_cons.mp hu with rfl | hu
    · exact absurd rfl e
    · exact h u hu

/-- A placing covers a slot where it puts the variable. -/
theorem covers_withSlot {v : NodeId} {o : Int} {n : String} (h : p.Covers r) (hv : p v = some o) :
    p.Covers (r.withSlot v (.frame o n)) := by
  intro u q m hu
  rw [slot?_withSlot] at hu
  split at hu
  · rename_i e
    cases hu
    exact e ▸ hv
  · exact h u q m hu

end Surroundings

/-- Locals with their positions, from a first one on. -/
def placed : List VarDecl → Nat → List (NodeId × Nat)
  | [], _ => []
  | v :: vs, k => (v.id, k) :: placed vs (k + 1)

/-- The variables are placed in their order. -/
theorem map_fst_placed (vs : List VarDecl) (k : Nat) :
    (placed vs k).map Prod.fst = vs.map VarDecl.id := by
  induction vs generalizing k with
  | nil => rfl
  | cons v vs ih =>
    unfold placed
    rw [List.map_cons, List.map_cons, ih]

/-- **They take one local after the other.** -/
theorem placed_fills (vs : List VarDecl) (k : Nat) :
    Fills ((placed vs k).map Prod.snd) k (k + vs.length) := by
  induction vs generalizing k with
  | nil => exact .nil
  | cons v vs ih =>
    have ih := ih (k + 1)
    rw [Nat.add_assoc, Nat.add_comm 1] at ih
    exact ih.cons (Nat.lt_add_of_pos_right (Nat.succ_pos _))

/-- Variables with slots at these offsets have come into sight. -/
structure Surroundings.Gains (r r' : Surroundings) (vs : List VarDecl) (offset : Nat → Int)
    (k : Nat) : Prop where
  notes_eq : r'.notes = r.notes
  layout_eq : r'.layout = r.layout
  this_eq : r'.this = r.this
  breakTo_eq : r'.breakTo = r.breakTo
  slots : ∀ i, (r.slot? i).isSome = true ∨ i ∈ vs.map VarDecl.id → (r'.slot? i).isSome = true
  shows : ∀ vis, r.Shows vis → r'.Shows (vs ++ vis)
  covers : ∀ p : Placing, p.Covers r →
    (∀ v i, (v, i) ∈ placed vs k → p v = some (offset i)) → p.Covers r'

namespace Surroundings.Gains

variable {r r' : Surroundings} {vs : List VarDecl} {offset : Nat → Int} {k : Nat}

/-- No variable gains nothing. -/
theorem nil : r.Gains r [] offset k where
  notes_eq := rfl
  layout_eq := rfl
  this_eq := rfl
  breakTo_eq := rfl
  slots _ h := h.elim id nofun
  shows _ h := h
  covers _ h _ := h

/-- The first variable gets its slot, and the others those behind. -/
theorem cons {v : VarDecl} (h : (r.withSlot v.id (.frame (offset k) v.name)).Gains r' vs offset
    (k + 1)) : r.Gains r' (v :: vs) offset k where
  notes_eq := h.notes_eq
  layout_eq := h.layout_eq
  this_eq := h.this_eq
  breakTo_eq := h.breakTo_eq
  slots i hi := by
    refine h.slots i ?_
    rw [slot?_withSlot]
    -- the slot of the first variable is found even if a later one has the same number
    by_cases e : v.id = i
    · rw [if_pos e]
      exact .inl rfl
    · rw [if_neg e]
      exact hi.imp_right fun hm => (List.mem_cons.mp hm).resolve_left fun e' => e e'.symm
  shows vis hs u hu := by
    refine h.shows _ (hs.withSlot v (offset k) v.name) u ?_
    rw [List.mem_append, List.mem_cons]
    rw [List.cons_append, List.mem_cons, List.mem_append] at hu
    tauto
  covers p hc hp :=
    h.covers p (covers_withSlot hc (hp _ _ List.mem_cons_self)) fun u i hu =>
      hp u i (List.mem_cons_of_mem _ hu)

end Surroundings.Gains

/-- Locals get the next positions. -/
theorem withLocals_run (ls : List VarDecl) (r : Surroundings) (s : Supply) :
    ∃ r', withLocals r ls s = .ok ⟨r', [], { s with locals := s.locals + ls.length }⟩ ∧
      r.Gains r' ls localOffset s.locals := by
  induction ls generalizing r s with
  | nil => exact ⟨r, rfl, .nil⟩
  | cons v ls ih =>
    obtain ⟨r', e, h⟩ := ih (r.withSlot v.id (.frame (localOffset s.locals) v.name))
      { s with locals := s.locals + 1 }
    have hlen : s.locals + 1 + ls.length = s.locals + (v :: ls).length := by
      rw [List.length_cons, Nat.add_assoc, Nat.add_comm 1]
    rw [← hlen]
    exact ⟨r', bind_run (c := []) rfl e, h.cons⟩

/-- Formals get the next positions among the parameters. -/
theorem withFormals_run (vs : List VarDecl) (r : Surroundings) (s : Supply) :
    ∃ r', withFormals r vs s = .ok ⟨r', [], { s with params := s.params + vs.length }⟩ ∧
      r.Gains r' vs paramOffset s.params := by
  induction vs generalizing r s with
  | nil => exact ⟨r, rfl, .nil⟩
  | cons v vs ih =>
    obtain ⟨r', e, h⟩ := ih (r.withSlot v.id (.frame (paramOffset s.params) v.name))
      { s with params := s.params + 1 }
    have hlen : s.params + 1 + vs.length = s.params + (v :: vs).length := by
      rw [List.length_cons, Nat.add_assoc, Nat.add_comm 1]
    rw [← hlen]
    exact ⟨r', bind_run (c := []) rfl e, h.cons⟩

/-- The code of a program is that of its declarations. -/
theorem Program.lower_eq_ok {p : Program} {a : Notes} {l : Layout} {code : List Code.Instr}
    (h : p.lower a l = .ok code) : ∃ r x,
      withGlobals ⟨a, l, [], none, none⟩ (p.decls.filterMap Decl.var?) = .ok r ∧
        Decl.lowerAll r p.decls .empty = .ok x ∧ x.code = code := by
  unfold lower at h
  split at h
  · split at h
    · cases h
    · rename_i r hr
      split at h
      · cases h
      · rename_i x hx
        exact ⟨r, x, hr, hx, Except.ok.inj h⟩
  · cases h

/-! ## 2. Values and statements without parts -/

section

variable {r : Surroundings} {a : Notes} {T : NodeId → Prop} {vis : List VarDecl} {br : Bool}
  {e : Expr} {t : Ty} {m : Emit Unit} {X : Behaviour} {ids : List NodeId}

/-- **A tame expression has code that gives its word.** -/
theorem Expr.Tame.values (h : r.Suits a T vis br) (he : e.Tame a vis t) :
    Values r T (e.value r) (e.inOrder a) := by
  intro s
  obtain ⟨l, code, s', hr, hx⟩ := e.eval_realizes s (he.plain h.notes_eq h.shows)
  rw [h.notes_eq] at hx
  refine ⟨l, code, s', needed_run hr, hx.locals_le, hx.labels_eq, hx.no_labels, ?_⟩
  intro p w whole k ha hc hp ho σ m hm
  refine hx.keeps ⟨ha, hc⟩ (fun σ hσ => ?_) hp ho hm
  -- the code reads variables where they lie, which is right since nothing changes meanwhile
  obtain ⟨hsame, hval, -⟩ := he.inPlace_eq h.bools hσ
  rw [hsame]
  exact ⟨hval, hσ⟩

/-- What an assignment does, in the order of the code and in that of the language. -/
theorem Expr.TameSet.inPlace_eq (hT : ∀ v ∈ vis, T v.id ↔ v.type.ty = .bool)
    (he : e.TameSet a vis) {σ : Valuation} (hσ : Truthful T σ) :
    (e.inPlace a σ).2 = (e.inOrder a σ).2 ∧ Truthful T (e.inOrder a σ).2 := by
  unfold TameSet at he
  split at he
  · rename_i n k i x
    obtain ⟨t, -, ⟨-, v, hv, hi, ht⟩, hx⟩ := he
    obtain ⟨hsame, hval, hb⟩ := hx.inPlace_eq hT hσ
    have hid := Notes.varId_eq hi
    simp only [inPlace, inOrder, hsame, hval, hid]
    refine ⟨trivial, fun u hu => ?_⟩
    -- only the assigned variable changes, and a bool gets the truth value of the expression
    by_cases e : u = v.id
    · rw [e, Function.update_self]
      rw [hval] at hb
      exact hb (ht.symm.trans ((hT v hv).mp (e ▸ hu)))
    · rw [Function.update_of_ne e]
      exact hσ u hu
  · exact he.elim

/-- The code of an assignment never leaves the program. -/
theorem Expr.TameSet.plain (h : r.Suits a T vis br) (he : e.TameSet a vis) : e.Plain r := by
  unfold TameSet at he
  split at he
  · rename_i n k i x
    obtain ⟨t, ht, hk, hx⟩ := he
    refine ⟨?_, hk.sees h.notes_eq h.shows, hx.plain h.notes_eq h.shows⟩
    rw [Surroundings.typeAt_of_get? h.notes_eq ht]
    rcases hk.1 with rfl | rfl
    · exact nofun
    · exact nofun
  · exact he.elim

/-- **An assignment has code that performs it.** -/
theorem Expr.TameSet.lowers (h : r.Suits a T vis br) (he : e.TameSet a vis) :
    Lowers r T (do let _ ← e.eval r) (.eval (e.inOrder a)) [] := by
  intro s
  obtain ⟨l, code, s', hr, hx⟩ := e.eval_realizes s (he.plain h)
  rw [h.notes_eq] at hx
  refine ⟨code ++ [], s', [], bind_run hr rfl, rfl, hx.locals_le, Nat.le_of_eq hx.labels_eq.symm,
    .nil, ⟨[], .nil ?_, .nil⟩, ?_⟩
  · rw [List.append_nil]
    exact hx.no_labels
  · intro p w whole k ha hc hs ho hn hb
    rw [List.append_nil] at ho ⊢
    refine .eval fun σ m hm => ?_
    obtain ⟨m', hrun, hm', -⟩ := hx.runs p ⟨ha, hc⟩ w σ m hm.holds hs.avoids
    obtain ⟨hsame, hT⟩ := he.inPlace_eq h.bools hm.truthful
    exact ⟨_, m', .of_effectAll ho hrun, hsame ▸ hm', hT⟩

/-- An expression that may be missing has code that does what it does. -/
theorem Expr.lowers_opt {e : Option Expr} (h : r.Suits a T vis br)
    (he : ∀ x ∈ e, x.TameSet a vis) :
    Lowers r T (evalOpt r e) (Expr.execOpt a e) [] := by
  cases e with
  | none => exact .pure
  | some e => exact (he e rfl).lowers h

/-- **A break has code that jumps to where the loop leaves to.** -/
theorem Lowers.broke (h : r.Suits a T vis true) :
    Lowers r T (do
      let l ← Emit.required .breakOutside r.breakTo
      Emit.instr (.jump l)) (.leave .broke) [] := by
  intro s
  obtain ⟨l, hl⟩ := h.breaks rfl
  rw [hl]
  refine ⟨[.jump l], s, [], rfl, rfl, Nat.le_refl _, Nat.le_refl _, .nil, ⟨[], rfl, .nil⟩, ?_⟩
  intro p w whole k ha hc hs ho hn hb
  -- the label stands somewhere in the code, and that is where the jump goes
  obtain ⟨q, hq⟩ := Option.isSome_iff_exists.mp (hb l hl)
  rw [hl]
  show Implements w whole _ _ _ (Code.position? whole l) _
  rw [hq]
  exact .broke (Occurs.cons_iff.mp ho).1 hq

/-- A return has code that ends the run. -/
theorem Lowers.ret : Lowers r T (giveBack r none) (.leave (.returned none)) [] := by
  intro s
  refine ⟨[.ret none], s, [], rfl, rfl, Nat.le_refl _, Nat.le_refl _, .nil, ⟨[], rfl, .nil⟩, ?_⟩
  intro p w whole k ha hc hs ho hn hb
  exact .ret (Occurs.cons_iff.mp ho).1

/-- A return with a value has code that ends the run with it. -/
theorem Lowers.giveBack {e : Expr} {f : Behaviour.Step} (ht : Values r T (e.value r) f) :
    Lowers r T (giveBack r (some e)) (.giveBack f) [] := by
  intro s
  obtain ⟨l, code, s', hr, hv⟩ := ht s
  refine ⟨code ++ [.ret (some l)], s', [], bind_run hr rfl, rfl, hv.locals_le,
    Nat.le_of_eq hv.labels_eq.symm, .nil, ⟨[], .nil ?_, .nil⟩, ?_⟩
  · rw [Code.labelsOf_append, hv.no_labels]
    rfl
  · intro p w whole k ha hc hs ho hn hb
    obtain ⟨ho₁, ho₂⟩ := Occurs.append_iff.mp ho
    exact .giveBack (hv.computes ha hc hs.avoids ho₁) (Occurs.cons_iff.mp ho₂).1

end

/-! ## 3. Statements -/

/-- Nothing in front of steps. -/
theorem Emit.done_bind {α β : Type} (x : α) (k : α → Emit β) : (pure x >>= k) = k x := by
  funext s
  show Code.Emit.andThen (Code.Emit.done x) k s = k x s
  unfold Code.Emit.andThen Code.Emit.done
  cases h : k x s with
  | error e => simp only [h]
  | ok b => simp only [h, List.nil_append]

section

variable {a : Notes} {T : NodeId → Prop}

/-- An expression never leaves the loop around. -/
theorem Behaviour.execOpt_normal {e : Option Expr} {σ σ' : Valuation} {o : Outcome}
    (h : Expr.execOpt a e σ o σ') : o = .normal := by
  cases e with
  | none => exact h.1
  | some e => exact h.1

/-- **A block has code that does what it does,** with slots for its variables in front. -/
theorem Lowers.block {r : Surroundings} {vis : List VarDecl} {br : Bool} {n : Node}
    {ls : List VarDecl} {ss : List Stmt} (h : r.Suits a T vis br)
    (hT : ∀ v ∈ ls, T v.id ↔ v.type.ty = .bool)
    (hs : ∀ r' : Surroundings, r'.Suits a T (ls ++ vis) br →
      Lowers r' T (Stmt.lowerAll ss r') (Stmt.execAll a ss)
        (Opening.declared (Stmt.openingsAll ss))) :
    Lowers r T (Block.lower ⟨n, ls, ss⟩ r) (Block.exec a ⟨n, ls, ss⟩)
      (Opening.declared (Block.openings ⟨n, ls, ss⟩)) := by
  intro s
  obtain ⟨r', e, hg⟩ := withLocals_run ls r s
  have hb := hg.breakTo_eq
  have h' : r'.Suits a T (ls ++ vis) br := by
    refine ⟨hg.notes_eq.trans h.notes_eq, hg.shows vis h.shows, fun v hv => ?_, hb ▸ h.breaks⟩
    rcases List.mem_append.mp hv with hv | hv
    · exact hT v hv
    · exact h.bools v hv
  obtain ⟨code, s', pl, e', hk, hx⟩ := hs r' h' { s with locals := s.locals + ls.length }
  have hle : s.locals + ls.length ≤ s'.locals := hx.locals_le
  have hf := placed_fills ls s.locals
  refine ⟨code, s', placed ls s.locals ++ pl, ?_, ?_, by omega, hx.labels_le, ?_, hx.labelled, ?_⟩
  · unfold Block.lower
    exact bind_run (c := []) e e'
  · rw [List.map_append, map_fst_placed, hk]
    unfold Block.openings
    rw [Opening.declared_cons]
    show _ = ((ls.map Decl.var).map Decl.id) ++ _
    rw [List.map_map]
    rfl
  · rw [List.map_append]
    exact hf.append hx.placed (Nat.le_add_right _ _) hle
  · intro p w whole k ha hc hs ho hn hbr
    have hl : Slots p s.locals (s.locals + ls.length) (placed ls s.locals) :=
      hs.left hx.placed hle
    have hc' : p.Covers r' := hg.covers p hc fun v i hi => by
      have hm := hf.mem (List.mem_map_of_mem hi)
      exact (hl v i hm.1 hm.2).mpr hi
    have := hx.implements (w := w) ha hc' (hs.right hf (Nat.le_add_right _ _)) ho hn
      (hb ▸ hbr)
    rwa [hb] at this

mutual

/-- **The code of a tame statement exists and does what the statement does.** -/
theorem Stmt.lowers {r : Surroundings} {vis : List VarDecl} {br : Bool}
    (h : r.Suits a T vis br) : ∀ st : Stmt, st.Tame a T vis br →
      Lowers r T (st.lower r) (st.exec a) (Opening.declared st.openings)
  | .block b, ht => b.lowers h ht
  | .ifThen _ t s, ht => .ifThen (ht.1.values h) (s.lowers h ht.2)
  | .ifElse _ t s o, ht => by
    unfold Stmt.openings
    rw [Opening.declared_append]
    exact .ifElse (ht.1.values h) (s.lowers h ht.2.1) (o.lowers h ht.2.2)
  | .while _ t s, ht => by
    -- a while loop is a loop without an update
    have := Lowers.loop (ht.1.values h) (fun b => s.lowers (h.leavingTo b) ht.2) .pure
      fun _ _ _ hu => hu.1
    simp only [Emit.done_bind] at this
    exact this
  | .for _ i t u s, ht =>
    -- a for loop is its first part and then a loop with an update
    .seq (Expr.lowers_opt h ht.1) (.loop (ht.2.1.values h)
      (fun b => s.lowers (h.leavingTo b) ht.2.2.2) (Expr.lowers_opt h ht.2.2.1)
      fun _ _ _ hu => Behaviour.execOpt_normal hu)
  | .switch _ e cs, ⟨⟨_, he⟩, hd, hcs⟩ =>
    .switch (he.values h) hd fun b c hc => Case.lowers_all (h.leavingTo b) cs hcs c hc
  | .break _, ht => by
    obtain rfl := ht
    exact .broke h
  | .ret _ none, _ => .ret
  | .ret _ (some e), ht => by
    obtain ⟨_, he⟩ := ht e rfl
    exact .giveBack (he.values h)
  | .expr e, ht => ht.lowers h

/-- **So has a block.** -/
theorem Block.lowers {r : Surroundings} {vis : List VarDecl} {br : Bool}
    (h : r.Suits a T vis br) : ∀ b : Block, b.Tame a T vis br →
      Lowers r T (b.lower r) (b.exec a) (Opening.declared b.openings)
  | ⟨_, _, ss⟩, ht => .block h ht.1 fun _ h' => Stmt.lowers_all h' ss ht.2

/-- **So have statements in a row.** -/
theorem Stmt.lowers_all {r : Surroundings} {vis : List VarDecl} {br : Bool}
    (h : r.Suits a T vis br) : ∀ ss : List Stmt, Stmt.TameAll a T ss vis br →
      Lowers r T (Stmt.lowerAll ss r) (Stmt.execAll a ss)
        (Opening.declared (Stmt.openingsAll ss))
  | [], _ => .pure
  | s :: ss, ht => by
    unfold Stmt.openingsAll
    rw [Opening.declared_append]
    exact .seq (s.lowers h ht.1) (Stmt.lowers_all h ss ht.2)

/-- **So has every arm of a switch.** -/
theorem Case.lowers_all {r : Surroundings} {vis : List VarDecl} (h : r.Suits a T vis true) :
    ∀ cs : List Case, Case.TameAll a T cs vis → ∀ c ∈ cs,
      Lowers r T (c.lower r) (c.exec a) (Opening.declared c.openings)
  | ⟨_, ss⟩ :: cs, ht, c, hc => by
    rcases List.mem_cons.mp hc with rfl | hc
    · exact Stmt.lowers_all h ss ht.1
    · exact Case.lowers_all h cs ht.2 c hc

end

end

end DecafLang
