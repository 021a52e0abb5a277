import DecafLang.Proofs.Processor
import DecafLang.Proofs.Faithful
import DecafLang.Proofs.Sites

/-!
# Parameters

Where a caller puts the parameters of a call, and where the callee looks for them.

* A function counts its parameters from 4 bytes above its frame pointer, and a method has the object
  that it is called for in front of its formals (`FnDecl.lowerBody_params`).
* **Pushing puts the words of the parameters on top of each other, the first of them uppermost,**
  and popping takes them off again (`Code.effectAll_pushes`, `Code.effectAll_pops`).
* On the processor, **the callee finds the word of each parameter where it looks for it**
  (`Mips.handsOver`), if the words that the stack grows into are not those that the parameters are
  read from.
-/

namespace DecafLang

open Code (Emit Emitted Instr Label Location Store Supply World effectAll)
open Code.Emit Lowering

/-! ## 1. Where the callee looks -/

/-- Formals get their positions one after the other. -/
theorem withFormals_slots (vs : List VarDecl) (hn : (vs.map VarDecl.id).Nodup) (r : Surroundings)
    (s : Supply) : ∃ r', withFormals r vs s =
      .ok ⟨r', [], { s with params := s.params + vs.length }⟩ ∧ r'.this = r.this ∧
        (∀ i v, vs[i]? = some v →
          r'.slot? v.id = some (.frame (Supply.paramOffset (s.params + i)) v.name)) ∧
        ∀ u, u ∉ vs.map VarDecl.id → r'.slot? u = r.slot? u := by
  induction vs generalizing r s with
  | nil => exact ⟨r, rfl, rfl, nofun, fun _ _ => rfl⟩
  | cons v vs ih =>
    obtain ⟨hv, hn⟩ := List.nodup_cons.mp hn
    obtain ⟨r', e, ht, hs, ho⟩ := ih hn
      (r.withSlot v.id (.frame (Supply.paramOffset s.params) v.name))
      { s with params := s.params + 1 }
    have hlen : s.params + 1 + vs.length = s.params + (v :: vs).length := by
      rw [List.length_cons, Nat.add_assoc, Nat.add_comm 1]
    rw [← hlen]
    refine ⟨r', bind_run (c := []) rfl e, ht, fun i u hu => ?_, fun u hu => ?_⟩
    · cases i with
      | zero =>
        obtain rfl := Option.some.inj hu
        -- the later formals have other ids and leave the first one's slot alone
        rw [ho _ hv, Surroundings.slot?_withSlot, if_pos rfl]
        rfl
      | succ i =>
        rw [hs i u hu]
        show some (Location.frame (Supply.paramOffset (s.params + 1 + i)) u.name) = _
        rw [Nat.add_assoc, Nat.add_comm 1]
    · obtain ⟨hne, hu⟩ := not_or.mp (mt List.mem_cons.mpr hu)
      rw [ho u hu, Surroundings.slot?_withSlot, if_neg fun e => hne e.symm]

/-- **In the body of a function every formal has the place of its position,** counted behind the
object that a method is called for. -/
theorem FnDecl.lowerBody_params {g : FnDecl} (hn : (g.formals.map VarDecl.id).Nodup)
    (r : Surroundings) (m : Bool) (s : Supply) : ∃ r' s', g.lowerBody r m s.newFrame =
      Block.lowerOpt g.body r' s' ∧ (m = true → r'.this = some thisParam) ∧
        ∀ i v, g.formals[i]? = some v →
          r'.slot? v.id = some (.frame (Supply.paramOffset (m.toNat + i)) v.name) := by
  obtain ⟨r₁, e₁, -, -, ht₁⟩ := withThis_newFrame r m s
  obtain ⟨r₂, e₂, ht₂, hs, -⟩ :=
    withFormals_slots g.formals hn r₁ { s with locals := 0, params := m.toNat }
  refine ⟨r₂, { s with locals := 0, params := m.toNat + g.formals.length }, ?_,
    fun hm => (ht₂.trans ht₁).trans (if_pos hm), hs⟩
  unfold lowerBody
  rw [bind_silent e₁, bind_silent e₂]

/-- The code of a function stands in this code. In it the object that a method is called for and the
formals have the places of their positions among the parameters. -/
def FnDecl.Receives (g : FnDecl) (cls : Option ClassDecl) (code : List Instr) : Prop :=
  ∃ r s x n, Block.lowerOpt g.body r s = .ok x ∧
    .label (g.codeLabel cls) :: .enter n :: x.code ++ [.leave] <:+: code ∧
      (cls.isSome = true → r.this = some thisParam) ∧ ∀ i v, g.formals[i]? = some v →
        r.slot? v.id = some (.frame (Supply.paramOffset (cls.isSome.toNat + i)) v.name)

/-- **Every function of a program has its parameters by their positions.** -/
theorem Program.Named.receives {p : Program} (h : p.Named) {a : Notes} {l : Layout}
    {code : List Instr} {cls : Option ClassDecl} {g : FnDecl} (hg : (cls, g) ∈ p.functions)
    (hc : p.lower a l = .ok code) : g.Receives cls code := by
  -- The formals are declared in the function's own scope, where ids are distinct.
  have hn : (g.formals.map VarDecl.id).Nodup := by
    have hall : (Opening.declared g.openings).Nodup :=
      (List.nodup_append.mp h.numbered.nodup_declared).2.1.sublist
        ((openings_sublist hg).flatMap _)
    have e : g.formals.map VarDecl.id = (g.formals.map Decl.var).map Decl.id := by
      rw [List.map_map]
      rfl
    rw [e]
    unfold FnDecl.openings at hall
    rw [Opening.declared_cons] at hall
    exact (List.nodup_append.mp hall).1
  obtain ⟨r, x, -, hx, rfl⟩ := lower_eq_ok hc
  obtain ⟨s, y, hy, hin⟩ := Decl.lowerAll_includes hg _ x hx
  obtain ⟨r', s', e, ht, hs⟩ := g.lowerBody_params hn r cls.isSome s
  unfold Emit.function at hy
  rw [e] at hy
  cases hb : Block.lowerOpt g.body r' s' with
  | error _ =>
    rw [hb] at hy
    cases hy
  | ok z =>
    rw [hb] at hy
    cases hy
    exact ⟨r', s', z, _, hb, hin, ht, hs⟩

/-! ## 2. What the caller puts there -/

namespace Code

theorem pushes_cons (p : Location) (ps : List Location) :
    pushes (p :: ps) = pushes ps ++ [.push p] := by
  unfold pushes
  rw [List.reverse_cons, List.map_append]
  rfl

theorem Store.read_pushed (m : Store) (l : Location) (ws : List Int32) :
    ({ m with pushed := ws } : Store).read l = m.read l := by
  induction l with
  | direct g o n => cases g <;> rfl
  | based b o n ih =>
    unfold Store.read
    rw [ih]

/-- Pushing parameters puts their words on the stack, the first of them on top, and popping as many
takes them off. -/
def Stacks (ps : List Location) : Prop :=
  ∀ w (m : Store), effectAll w (pushes ps) m =
      some { m with pushed := ps.map m.read ++ m.pushed } ∧
    ∀ ws : List Int32, ws.length = ps.length →
      effectAll w (pops ps.length) { m with pushed := ws ++ m.pushed } = some m

/-- The words of the parameters lie on the stack, the first of them on top. -/
theorem effectAll_pushes (w : World) (ps : List Location) (m : Store) :
    effectAll w (pushes ps) m = some { m with pushed := ps.map m.read ++ m.pushed } := by
  induction ps with
  | nil => rfl
  | cons p ps ih =>
    have hr : ∀ q, ({ m with pushed := ps.map m.read ++ m.pushed } : Store).read q = m.read q :=
      fun q => m.read_pushed q _
    rw [pushes_cons, effectAll_append, ih]
    simp [effectAll, Instr.effect, hr]

/-- What was pushed is taken off. -/
theorem effectAll_pops (w : World) (ws : List Int32) (m : Store) :
    effectAll w (pops ws.length) { m with pushed := ws ++ m.pushed } = some m := by
  unfold pops
  split
  · rename_i hn
    obtain rfl := List.length_eq_zero_iff.mp hn
    rfl
  · have hn : (wordSize * ws.length : Nat) / 4 = ws.length := by
      unfold wordSize
      omega
    have hd : (ws ++ m.pushed).drop (((wordSize * ws.length : Nat) : Int).toNat / 4) =
        m.pushed := by
      rw [Int.toNat_natCast, hn, List.drop_left]
    exact congrArg (fun x => some { m with pushed := x }) hd

theorem pushes_stacks (ps : List Location) : Stacks ps := fun w m =>
  ⟨effectAll_pushes w ps m, fun ws hn => hn ▸ effectAll_pops w ws m⟩

end Code

/-! ## 3. What the callee finds -/

namespace Mips

/-- The offset of so many words of the stack. -/
def wordOffset (k : Nat) : Int32 := .ofNat (4 * k)

theorem wordOffset_succ (k : Nat) : wordOffset (k + 1) = wordOffset k + 4 := by
  unfold wordOffset
  rw [Nat.mul_add, Int32.ofNat_add]
  rfl

/-- Fewer words than memory holds have different offsets. -/
theorem wordOffset_inj {j k : Nat} (hj : 4 * j < 2 ^ 32) (hk : 4 * k < 2 ^ 32)
    (h : wordOffset j = wordOffset k) : j = k := by
  have e : (BitVec.ofNat 32 (4 * j)).toNat = (BitVec.ofNat 32 (4 * k)).toNat :=
    congrArg (fun a : Int32 => a.toBitVec.toNat) h
  rw [BitVec.toNat_ofNat, BitVec.toNat_ofNat, Nat.mod_eq_of_lt hj, Nat.mod_eq_of_lt hk] at e
  omega

theorem add_wordOffset_ne (a : Int32) {k : Nat} (hp : 0 < k) (hk : 4 * k < 2 ^ 32) :
    a + wordOffset k ≠ a := by
  intro e
  have e : wordOffset k = wordOffset 0 := by
    show _ = (0 : Int32)
    grind
  exact absurd (wordOffset_inj hk (by decide) e) (Nat.ne_of_gt hp)

/-- A word is one further away from the next word below. -/
theorem sub_add_wordOffset (a : Int32) (k : Nat) :
    a - 4 + wordOffset (k + 1) = a + wordOffset k := by
  rw [wordOffset_succ]
  grind

namespace State

variable {s t u : State} {l : Location} {ws : List Int32} {w : Int32} {n : Nat}

/-- The addresses of the words on the way to the word of a location, with its own. -/
def cells (s : State) : Location → List Int32
  | .direct g o n => [s.place (.direct g o n)]
  | .based b o n => s.cells b ++ [s.place (.based b o n)]

theorem place_mem_cells (s : State) (l : Location) : s.place l ∈ s.cells l := by
  cases l <;> simp [cells]

/-- If these words are the same, the location has the same word. -/
theorem word_congr (hf : t.reg .fp = s.reg .fp) (hg : t.reg .gp = s.reg .gp)
    (h : ∀ a ∈ s.cells l, t.mem a = s.mem a) : t.word l = s.word l := by
  have hp : t.place l = s.place l := by
    induction l with
    | direct g o n => cases g <;> simp [place, Reg.ofSegment, hf, hg]
    | based b o n ih =>
      obtain ⟨hb, -⟩ := List.forall_mem_append.mp h
      rw [place, place, ih hb, hb _ (s.place_mem_cells b)]
  rw [word, word, hp, h _ (s.place_mem_cells l)]

/-- The next words of the stack: the first lies at the stack pointer, the others below. -/
def next (s : State) (k : Nat) : Int32 := s.reg .sp - wordOffset k

/-- The next words of the stack are not on the way to the word of the location. -/
def Clear (s : State) (n : Nat) (l : Location) : Prop := ∀ k < n, s.next k ∉ s.cells l

/-- These words have been pushed, the first of them last. -/
structure Pushed (s t : State) (ws : List Int32) : Prop where
  fp : t.reg .fp = s.reg .fp
  gp : t.reg .gp = s.reg .gp
  sp : t.reg .sp = s.next ws.length
  words : ∀ j w, ws[j]? = some w → t.mem (t.reg .sp + wordOffset (j + 1)) = w
  mem : ∀ a, (∀ k < ws.length, a ≠ s.next k) → t.mem a = s.mem a

theorem Pushed.nil : s.Pushed s [] where
  fp := rfl
  gp := rfl
  sp := by
    show s.reg .sp = s.reg .sp - 0
    grind
  words := nofun
  mem _ _ := rfl

/-- One more word goes on top. -/
theorem Pushed.cons (h : s.Pushed t ws) (hn : 4 * (ws.length + 1) < 2 ^ 32)
    (hf : u.reg .fp = t.reg .fp) (hg : u.reg .gp = t.reg .gp) (hs : u.reg .sp = t.reg .sp - 4)
    (hm : u.mem = Function.update t.mem (t.reg .sp) w) : s.Pushed u (w :: ws) where
  fp := hf.trans h.fp
  gp := hg.trans h.gp
  sp := by
    rw [hs, h.sp, List.length_cons, next, next, wordOffset_succ]
    grind
  words j v hv := by
    rw [hs, sub_add_wordOffset, hm]
    cases j with
    | zero =>
      obtain rfl := Option.some.inj hv
      have e : t.reg .sp + wordOffset 0 = t.reg .sp := by
        show t.reg .sp + 0 = _
        grind
      rw [e, Function.update_self]
    | succ j =>
      have hj : j < ws.length := Nat.lt_of_succ_lt_succ (List.getElem?_eq_some_iff.mp hv).1
      -- the words pushed before lie above the new one
      rw [Function.update_of_ne (add_wordOffset_ne _ (Nat.succ_pos j) (by omega))]
      exact h.words j v hv
  mem a ha := by
    have hne : a ≠ t.reg .sp := h.sp ▸ ha ws.length (Nat.lt_succ_self _)
    rw [hm, Function.update_of_ne hne]
    exact h.mem a fun k hk => ha k (Nat.lt_succ_of_lt hk)

end State

variable (address : Label → Int32)

/-- Code without texts takes no number of a text. -/
theorem ofCodeFrom_append (k : Nat) {a b : List Code.Instr} (h : ∀ i ∈ a, textsIn i = 0) :
    ofCodeFrom k (a ++ b) = ofCodeFrom k a ++ ofCodeFrom k b := by
  induction a with
  | nil => rfl
  | cons i a ih =>
    obtain ⟨hi, ha⟩ := List.forall_mem_cons.mp h
    show ofInstr (k + textsIn i) i ++ ofCodeFrom (k + textsIn i) (a ++ b) =
      (ofInstr (k + textsIn i) i ++ ofCodeFrom (k + textsIn i) a) ++ ofCodeFrom k b
    rw [hi, Nat.add_zero, ih ha, List.append_assoc]

/-- The lines of parameters that are pushed put their words on the stack. -/
theorem execAll_pushes (k : Nat) (s : State) (ps : List Location) (hn : 4 * ps.length < 2 ^ 32)
    (hc : ∀ p ∈ ps, s.Clear ps.length p) :
    ∃ t, execAll address (machineCode (ofCodeFrom k (Code.pushes ps))) s = .next t ∧
      s.Pushed t (ps.map s.word) := by
  induction ps with
  | nil => exact ⟨s, rfl, .nil⟩
  | cons p ps ih =>
    obtain ⟨t, ht, hp⟩ := ih (by rw [List.length_cons] at hn; omega) fun q hq j hj =>
      hc q (List.mem_cons_of_mem _ hq) j (Nat.lt_succ_of_lt hj)
    obtain ⟨u, hu, hw⟩ := execAll_ofInstr address k (i := .push p) trivial t
    have e : ofCodeFrom k (Code.pushes (p :: ps)) =
        ofCodeFrom k (Code.pushes ps) ++ ofInstr k (.push p) := by
      rw [Code.pushes_cons, ofCodeFrom_append k fun i hi => ?_]
      · exact congrArg _ (List.append_nil _)
      · obtain ⟨q, -, rfl⟩ := List.mem_map.mp hi
        rfl
    -- The pushes so far wrote below the stack pointer, where no operand lies.
    have hmem : ∀ a ∈ s.cells p, t.mem a = s.mem a := fun a ha => hp.mem a fun j hj e => by
      rw [List.length_map] at hj
      exact hc p List.mem_cons_self j (Nat.lt_succ_of_lt hj) (e ▸ ha)
    have hword : t.word p = s.word p := State.word_congr hp.fp hp.gp hmem
    refine ⟨u, by rw [e, machineCode_append, execAll_append, ht]; exact hu, hp.cons ?_ ?_ ?_ ?_ ?_⟩
    · rw [List.length_map]
      exact hn
    · exact hw.reg .fp rfl
    · exact hw.reg .gp rfl
    · exact hw.reg .sp rfl
    · have ha : t.reg .sp - 4 + 4 = t.reg .sp := by grind
      rw [hw.mem, ha, hword]
      rfl

/-- The callee finds the words of the parameters at the places of its own parameters, whatever its
frame, and its caller gets the stack back. -/
def HandsOver (ps : List Location) : Prop :=
  ∀ (k : Nat) (s : State), (∀ p ∈ ps, s.Clear ps.length p) →
    ∃ t, execAll address (machineCode (ofCodeFrom k (Code.pushes ps))) s = .next t ∧
      (∀ u : State, u.reg .sp = t.reg .sp → u.mem = t.mem → ∀ n, ∃ v,
        execAll address (machineCode (ofInstr k (.enter n))) u = .next v ∧
          ∀ j p, ps[j]? = some p → ∀ name,
            v.word (.frame (Supply.paramOffset j) name) = s.word p) ∧
      ∀ u : State, u.reg .sp = t.reg .sp → ∃ v,
        execAll address (machineCode (ofCodeFrom k (Code.pops ps.length))) u = .next v ∧
          v.reg .sp = s.reg .sp ∧ v.mem = u.mem

/-- The places of parameters, counted from the stack of the caller. -/
theorem ofInt_paramOffset (j : Nat) :
    Int32.ofInt (Supply.paramOffset j) = wordOffset (j + 1) := by
  unfold Supply.paramOffset wordOffset wordSize
  rw [← Int32.ofInt_eq_ofNat]
  congr 1
  omega

/-- Taking words off the stack moves the stack pointer back. -/
theorem execAll_pops (k n : Nat) (s : State) : ∃ t,
    execAll address (machineCode (ofCodeFrom k (Code.pops n))) s = .next t ∧
      t.reg .sp = s.reg .sp + wordOffset n ∧ t.mem = s.mem := by
  unfold Code.pops
  split
  · rename_i hn
    subst hn
    refine ⟨s, rfl, ?_, rfl⟩
    show s.reg .sp = s.reg .sp + 0
    grind
  · rename_i hn
    have hne : ((wordSize * n : Nat) : Int) ≠ 0 := by
      unfold wordSize
      omega
    have e : Int32.ofInt (wordSize * n : Nat) = wordOffset n := Int32.ofInt_eq_ofNat
    refine ⟨s.setReg .sp (s.reg .sp + wordOffset n), ?_, by simp, rfl⟩
    rw [ofCodeFrom, ofCodeFrom, ofInstr, if_neg hne, ← e]
    rfl

/-- **What a caller pushes is what its callee finds.** -/
theorem handsOver {ps : List Location} (hn : 4 * (ps.length + 1) < 2 ^ 32) :
    HandsOver address ps := by
  intro k s hc
  obtain ⟨t, ht, hp⟩ := execAll_pushes address k s ps (by omega) hc
  refine ⟨t, ht, fun u hsp hm n => ?_, fun u hsp => ?_⟩
  · obtain ⟨v, hv, hf, -, hvm⟩ := execAll_prologue address n u
    refine ⟨v, hv, fun j p hj name => ?_⟩
    have hlt : j < ps.length := (List.getElem?_eq_some_iff.mp hj).1
    have ha : v.place (.frame (Supply.paramOffset j) name) = u.reg .sp + wordOffset (j + 1) := by
      show v.reg .fp + .ofInt (Supply.paramOffset j) = _
      rw [hf, ofInt_paramOffset]
    -- the two words that the callee saves lie below
    have hfp : u.reg .sp + wordOffset (j + 1) ≠ u.reg .sp :=
      add_wordOffset_ne _ (Nat.succ_pos j) (by omega)
    have hra : u.reg .sp + wordOffset (j + 1) ≠ u.reg .sp - 4 := by
      rw [← sub_add_wordOffset]
      exact add_wordOffset_ne _ (Nat.succ_pos _) (by omega)
    rw [State.word, ha, hvm, Function.update_of_ne hra, Function.update_of_ne hfp, hm, hsp]
    exact hp.words j _ (by rw [List.getElem?_map, hj]; rfl)
  · obtain ⟨v, hv, hvs, hvm⟩ := execAll_pops address k ps.length u
    refine ⟨v, hv, ?_, hvm⟩
    rw [hvs, hsp, hp.sp, List.length_map, State.next]
    grind

end Mips

end DecafLang
