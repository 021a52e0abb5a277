import DecafLang.Proofs.Chunks
import DecafLang.Proofs.Reordering
import DecafLang.Proofs.Targets

/-!
# Doubles

Floating point numbers get no code.

* An expression of the type `double` is refused where it is evaluated. What is assigned to is not
  evaluated, but an assignment has the type of its target, and an operator behind a variable takes
  ints only (`Expr.check_assign`, `Expr.check_step`). So one of them keeps a `double` out of the
  other, and **code for an expression without a report means that no part has the type**
  (`Expr.eval_bars`).
* Whatever has a type was checked, and only bodies are (`Program.Numbered.checked`).
* **If a clean program has code, no expression in it has the type `double`**
  (`Program.Clean.no_doubles`).
-/

namespace DecafLang

open Code (Emit Emitted Label Location)
open Code.Emit
open Lowering

/-! ## 1. Steps that refuse doubles -/

/-- Steps that are refused as long as an expression among some pieces has the type `double`. -/
def Code.Emit.Bars {α : Type} (m : Emit α) (a : Notes) (ps : List Part) : Prop :=
  ∀ s o, m s = .ok o → Part.All (fun e => a.typeOf e ≠ .double) ps

namespace Code.Emit.Bars

variable {α β : Type} {m : Emit α} {k : α → Emit β} {a : Notes} {r : Surroundings}
  {ps qs : List Part}

theorem nil : m.Bars a [] := fun _ _ _ => .nil

theorem append (h : m.Bars a ps) (h' : m.Bars a qs) : m.Bars a (ps ++ qs) :=
  fun s o ho => (h s o ho).append (h' s o ho)

theorem cons {q : Part} (hq : ∀ e, q ≠ .expr e) (h : m.Bars a ps) : m.Bars a (q :: ps) :=
  fun s o ho => .cons hq (h s o ho)

theorem type (t : TypeExpr) : m.Bars a t.parts := fun _ _ _ => .type t

theorem refuse {e : Refusal} : (Emit.refuse e : Emit α).Bars a ps := fun _ _ h => by cases h

/-- What the first of two steps refuses. -/
theorem fst (h : m.Bars a ps) : (m >>= k).Bars a ps := by
  intro s _ ho
  obtain ⟨x, hx, -⟩ := bind_run_ok.mp ho
  exact h s x hx

/-- What the second of two steps refuses, which knows what the first came to. -/
theorem snd_of {Q : α → Prop} (hq : m.Ends Q) (h : ∀ x, Q x → (k x).Bars a ps) :
    (m >>= k).Bars a ps := by
  intro s _ ho
  obtain ⟨x, hx, y, hy, -⟩ := bind_run_ok.mp ho
  exact h x.value (hq s x hx) x.supply y hy

theorem snd (h : ∀ x, (k x).Bars a ps) : (m >>= k).Bars a ps :=
  snd_of (Q := fun _ => True) (fun _ _ _ => trivial) fun x _ => h x

theorem bind (h : m.Bars a ps) (h' : ∀ x, (k x).Bars a qs) : (m >>= k).Bars a (ps ++ qs) :=
  h.fst.append (snd h')

theorem noDouble {n : Node} (h : m.Bars a ps) : (r.noDouble n m).Bars a ps :=
  fun s o ho => h s o (Surroundings.noDouble_ok ho)

/-- The expression that is evaluated does not have the type `double`. -/
theorem guarded {n : Node} {e : Expr} (hn : e.node = n) :
    (r.noDouble n m).Bars r.notes [.expr e] := by
  intro s o ho
  subst hn
  unfold Surroundings.noDouble at ho
  split at ho
  · cases ho
  · rename_i h
    exact .one h

end Code.Emit.Bars

open Code.Emit.Bars

/-! ## 2. Expressions -/

section

variable {r : Surroundings} {c : Context} {a : Notes}

theorem Expr.bars_self (e : Expr) : (e.eval r).Bars r.notes [.expr e] := by
  cases e with
  | double n =>
    unfold Expr.eval
    exact .refuse
  | _ =>
    unfold Expr.eval
    exact .guarded rfl

/-- An assignment has the type of its target. -/
theorem Expr.check_assign {n : Node} {x y : Expr}
    (h : ((Expr.assign n x y).check c).report.Clean a) :
    a.typeOf (.assign n x y) = a.typeOf x := by
  obtain ⟨hx, -⟩ := Report.clean_append.mp (Verdict.clean_at.mp h).1
  rw [Expr.type_kept h, Expr.type_kept hx]
  rfl

/-- An operator behind a variable takes no doubles. -/
theorem Expr.check_step {n : Node} {op : StepOp} {x : Expr}
    (h : ((Expr.step n op x).check c).report.Clean a) : a.typeOf x ≠ .double := by
  intro e
  obtain ⟨hx, hf, -⟩ := Verdict.clean_at.mp h
  rw [← Expr.type_kept hx, e] at hf
  cases hf

/-- The length of an array takes no arguments. -/
theorem Expr.check_length {n : Node} {x : Expr} {i : Ident} {args : List Expr}
    (h : ((Expr.send n x i args).check c).report.Clean a) (hl : x.isLength a i = true) :
    args = [] := by
  obtain ⟨hxa, hf, -⟩ := Verdict.clean_at.mp h
  have hx : a.typeOf x = (x.check c).type := Expr.type_kept (Report.clean_append.mp hxa).1
  unfold Expr.isLength at hl
  rw [hx] at hl
  -- only an array has a length, and asking for it takes no arguments
  rcases Context.send_binds hf with e | ⟨-, -, e, -⟩ | ⟨o, g, e, -⟩
  · rw [e] at hl
    cases hl
  · cases args with
    | nil => rfl
    | cons _ _ => cases e
  · rw [e] at hl
    cases hl

mutual

/-- **An expression without a report is evaluated only if no part of it has the type `double`.** -/
theorem Expr.eval_bars : ∀ e : Expr, (e.check c).report.Clean r.notes →
    (e.eval r).Bars r.notes e.parts
  | .int _ _, _ | .bool _ _, _ | .null _, _ | .string _ _, _ | .double _, _ | .readInteger _, _
  | .readLine _, _ | .this _, _ => Expr.bars_self _
  | .name _ _, _ | .new _ _, _ => .cons nofun (Expr.bars_self _)
  | .binary n op x y, h => by
    obtain ⟨hx, hy⟩ := Report.clean_append.mp (Verdict.clean_at.mp h).1
    refine .append ?_ (Expr.bars_self _)
    unfold Expr.eval
    exact noDouble (append (x.eval_bars hx).fst.fst (snd fun _ => (y.eval_bars hy).fst.fst))
  | .unary n op x, h => by
    refine .append ?_ (Expr.bars_self _)
    unfold Expr.eval
    exact noDouble (x.eval_bars (Verdict.clean_at.mp h).1).fst.fst
  | .step n op x, h => by
    refine .append ?_ (Expr.bars_self _)
    unfold Expr.eval
    exact noDouble (x.target_bars (Verdict.clean_at.mp h).1 (Expr.check_step h)).fst
  | .assign n x y, h => by
    obtain ⟨hx, hy⟩ := Report.clean_append.mp (Verdict.clean_at.mp h).1
    intro s o ho
    -- the assignment is evaluated, and its target has the same type
    have hself := Expr.bars_self (.assign n x y) s o ho
    have hdouble : r.notes.typeOf x ≠ .double := Expr.check_assign h ▸ hself _ List.mem_cons_self
    refine .append ?_ hself
    unfold Expr.eval at ho
    exact noDouble (append (x.target_bars hx hdouble).fst
      (snd fun _ => (y.eval_bars hy).fst.fst)) s o ho
  | .index n x y, h => by
    obtain ⟨hx, hy⟩ := Report.clean_append.mp (Verdict.clean_at.mp h).1
    refine .append ?_ (Expr.bars_self _)
    unfold Expr.eval
    exact noDouble (append (x.eval_bars hx).fst.fst (snd fun _ => (y.eval_bars hy).fst.fst))
  | .field n x i, h => by
    refine .append ?_ (.cons nofun (Expr.bars_self _))
    unfold Expr.eval
    exact noDouble (x.eval_bars (Verdict.clean_at.mp h).1).fst.fst
  | .newArray n x t, h => by
    refine .append (.append ?_ (type t)) (Expr.bars_self _)
    unfold Expr.eval
    exact noDouble (x.eval_bars (Verdict.clean_at.mp h).1).fst.fst
  | .call n i args, h => by
    refine .append ?_ (.cons nofun (Expr.bars_self _))
    have hargs := Expr.eval_all_bars args (Verdict.clean_at.mp h).1
    unfold Expr.eval
    refine noDouble (snd fun g => ?_)
    cases r.layout.methodSlot? g.id with
    | some slot => exact snd fun _ => hargs.fst
    | none => exact hargs.fst
  | .send n x i args, h => by
    obtain ⟨hx, hargs⟩ := Report.clean_append.mp (Verdict.clean_at.mp h).1
    refine .append ?_ (.cons nofun (Expr.bars_self _))
    unfold Expr.eval
    refine noDouble ?_
    split
    next hl =>
      -- the arguments of a length are not evaluated
      obtain rfl := Expr.check_length h hl
      exact append (x.eval_bars hx).fst.fst nil
    · exact snd fun _ => snd fun _ => append (x.eval_bars hx).fst.fst
        (snd fun _ => (Expr.eval_all_bars args hargs).fst)

/-- The place of an expression is found only if no part of it has the type `double`, unless the
expression has it itself. -/
theorem Expr.target_bars : ∀ e : Expr, (e.check c).report.Clean r.notes →
    r.notes.typeOf e ≠ .double → (e.target r).Bars r.notes e.parts
  -- no double is a target, by assumption
  | .name _ _, _, hd => .cons nofun fun _ _ _ => .one hd
  | .field n x i, h, hd => by
    refine .append ?_ (.cons nofun fun _ _ _ => .one hd)
    unfold Expr.target
    exact (x.eval_bars (Verdict.clean_at.mp h).1).fst.fst
  | .index n x y, h, hd => by
    obtain ⟨hx, hy⟩ := Report.clean_append.mp (Verdict.clean_at.mp h).1
    refine .append ?_ fun _ _ _ => .one hd
    unfold Expr.target
    exact append (x.eval_bars hx).fst.fst (snd fun _ => (y.eval_bars hy).fst.fst)
  | .int _ _, _, _ | .bool _ _, _, _ | .null _, _, _ | .string _ _, _, _ | .double _, _, _
  | .readInteger _, _, _ | .readLine _, _, _ | .this _, _, _ | .binary _ _ _ _, _, _
  | .unary _ _ _, _, _ | .step _ _ _, _, _ | .assign _ _ _, _, _ | .new _ _, _, _
  | .newArray _ _ _, _, _ | .call _ _ _, _, _ | .send _ _ _ _, _, _ => by
    unfold Expr.target
    exact .refuse

theorem Expr.eval_all_bars : ∀ es : List Expr, (Expr.checkAll c es).2.Clean r.notes →
    (Expr.evalAll r es).Bars r.notes (Expr.partsAll es)
  | [], _ => .nil
  | e :: es, h => by
    obtain ⟨he, hs⟩ := Report.clean_append.mp h
    unfold Expr.evalAll
    exact append (e.eval_bars he).fst.fst (snd fun _ => (Expr.eval_all_bars es hs).fst)

end

/-! ## 3. Statements -/

theorem Expr.eval_opt_bars {e : Option Expr} (h : (Expr.checkOpt c e).Clean r.notes) :
    (evalOpt r e).Bars r.notes (Expr.partsOpt e) := by
  cases e with
  | none => exact .nil
  | some e => exact (e.eval_bars h).fst

theorem Expr.test_bars {e : Expr} (h : (e.checkTest c).Clean r.notes) :
    (e.value r).Bars r.notes e.parts :=
  (e.eval_bars (Report.clean_append.mp h).1).fst

theorem Expr.print_bars : ∀ (es : List Expr) (k : Nat), (Expr.checkPrint c k es).Clean r.notes →
    (print r es).Bars r.notes (Expr.partsAll es)
  | [], _, _ => .nil
  | e :: es, k, h => by
    obtain ⟨h, hs⟩ := Report.clean_append.mp h
    obtain ⟨he, -⟩ := Report.clean_append.mp h
    unfold print
    exact snd fun _ => (e.eval_bars he).fst.bind fun _ => snd fun _ => Expr.print_bars es (k + 1) hs

theorem Expr.give_back_bars {s : Span} {e : Option Expr}
    (h : (Expr.checkReturn c s e).Clean r.notes) :
    (giveBack r e).Bars r.notes (Expr.partsOpt e) := by
  cases e with
  | none => exact .nil
  | some e => exact (e.eval_bars (Report.clean_append.mp h).1).fst.fst

end

mutual

/-- **A statement without a report gets code only if no expression in it has the type `double`.** -/
theorem Stmt.lower_bars : ∀ (s : Stmt) (r : Surroundings) {c : Context},
    (s.check c).Clean r.notes → (s.lower r).Bars r.notes s.parts
  | .block b, r, _, h => by
    unfold Stmt.lower
    exact b.lower_bars r h
  | .ifThen _ t s, r, _, h => by
    obtain ⟨ht, hs⟩ := Report.clean_append.mp h
    unfold Stmt.lower
    exact (Expr.test_bars ht).bind fun _ => snd fun _ => snd fun _ => (s.lower_bars r hs).fst
  | .ifElse _ t s o, r, _, h => by
    obtain ⟨h, ho⟩ := Report.clean_append.mp h
    obtain ⟨ht, hs⟩ := Report.clean_append.mp h
    unfold Stmt.lower Stmt.parts
    rw [List.append_assoc]
    exact (Expr.test_bars ht).bind fun _ => snd fun _ => snd fun _ =>
      (s.lower_bars r hs).bind fun _ => snd fun _ => snd fun _ => snd fun _ =>
        (o.lower_bars r ho).fst
  | .while _ t s, r, _, h => by
    obtain ⟨ht, hs⟩ := Report.clean_append.mp h
    unfold Stmt.lower
    exact snd fun _ => snd fun l => snd fun _ => (Expr.test_bars ht).bind fun _ => snd fun _ =>
      (s.lower_bars (r.leavingTo l) hs).fst
  | .for _ i t u s, r, _, h => by
    obtain ⟨h, hs⟩ := Report.clean_append.mp h
    obtain ⟨h, hu⟩ := Report.clean_append.mp h
    obtain ⟨hi, ht⟩ := Report.clean_append.mp h
    unfold Stmt.lower Stmt.parts
    rw [List.append_assoc, List.append_assoc]
    -- what comes before the body in the text has its code behind it
    exact (Expr.eval_opt_bars hi).bind fun _ => snd fun _ => snd fun l => snd fun _ =>
      (Expr.test_bars ht).bind fun _ => snd fun _ =>
        append (snd fun _ => (Expr.eval_opt_bars hu).fst) (s.lower_bars (r.leavingTo l) hs).fst
  | .switch _ e cs, r, _, h => by
    obtain ⟨he, hs⟩ := Report.clean_append.mp h
    unfold Stmt.lower
    exact (e.eval_bars he).fst.bind fun _ => snd fun l =>
      snd_of (Q := fun ls => ls.length = cs.length) (fun _ _ => newLabels_length) fun ls hn =>
        snd fun _ => snd fun _ => (Case.lower_all_bars cs ls (r.leavingTo l) hn hs).fst
  | .break _, _, _, _ => .nil
  | .ret _ _, r, _, h => by
    unfold Stmt.lower
    exact Expr.give_back_bars h
  | .print _ es, r, _, h => by
    unfold Stmt.lower
    exact Expr.print_bars es 1 h
  | .expr e, r, _, h => by
    unfold Stmt.lower
    exact (e.eval_bars h).fst

theorem Block.lower_bars : ∀ (b : Block) (r : Surroundings) {c : Context},
    (b.check c).Clean r.notes → (b.lower r).Bars r.notes b.parts
  | ⟨n, ls, ss⟩, r, c, h => fun s o ho => by
    unfold Block.lower at ho
    obtain ⟨r', e, hadds, -⟩ := withLocals_adds ls r s
    rw [bind_silent e] at ho
    have hnotes := hadds.within.notes_eq
    rw [← hnotes] at h ⊢
    exact .append (.append (.vars ls) (Stmt.lower_all_bars ss r' (c := c.inBlock n) h _ o ho))
      (.cons nofun .nil)

theorem Stmt.lower_all_bars : ∀ (ss : List Stmt) (r : Surroundings) {c : Context},
    (Stmt.checkAll ss c).Clean r.notes → (Stmt.lowerAll ss r).Bars r.notes (Stmt.partsAll ss)
  | [], _, _, _ => .nil
  | s :: ss, r, _, h => by
    obtain ⟨hs, hr⟩ := Report.clean_append.mp h
    unfold Stmt.lowerAll
    exact (s.lower_bars r hs).bind fun _ => Stmt.lower_all_bars ss r hr

theorem Case.lower_all_bars : ∀ (cs : List Case) (ls : List Label) (r : Surroundings)
    {c : Context}, ls.length = cs.length → (Case.checkAll cs c).Clean r.notes →
      (Case.lowerAll cs ls r).Bars r.notes (Case.partsAll cs)
  | [], _, _, _, _, _ => .nil
  | _ :: _, [], _, _, hn, _ => nomatch hn
  | ⟨_, ss⟩ :: cs, _ :: ls, r, _, hn, h => by
    obtain ⟨hs, hr⟩ := Report.clean_append.mp h
    unfold Case.lowerAll Case.lower
    exact snd fun _ => (Stmt.lower_all_bars ss r hs).bind fun _ =>
      Case.lower_all_bars cs ls r (Nat.succ.inj hn) hr

end

/-! ## 4. Programs -/

theorem FnDecl.mem_types_all {h : Hierarchy} {a : Notes} {f : Forest} {gs : List FnDecl}
    {x : NodeId × Ty} (hx : x ∈ (FnDecl.checkAll gs h a f).types) :
    ∃ g ∈ gs, x ∈ (g.check h a f).types := by
  induction gs with
  | nil => cases hx
  | cons g gs ih =>
    rcases List.mem_append.mp hx with hx | hx
    · exact ⟨g, List.mem_cons_self, hx⟩
    · obtain ⟨g', hg, hx⟩ := ih hx
      exact ⟨g', List.mem_cons_of_mem _ hg, hx⟩

/-- What gets a type in a function has the number of a piece of its body. -/
theorem FnDecl.typed_in_body {g : FnDecl} {h : Hierarchy} {a : Notes} {f : Forest}
    {x : NodeId × Ty} (hx : x ∈ (g.check h a f).types) :
    ∃ q ∈ Block.partsOpt g.body, q.id = x.1 := by
  unfold FnDecl.check at hx
  cases hb : g.body with
  | none =>
    rw [hb] at hx
    cases hx
  | some b =>
    rw [hb] at hx
    have hk : x.1 ∈ (b.check ⟨f.enterFn g, a, h, a.denote g.result, false⟩).keys :=
      List.mem_append_left _ (List.mem_map_of_mem hx)
    -- a number whose type is noted is a piece of the body, as it is counted there
    have hle := b.count_keys (k := x.1) f ⟨f.enterFn g, a, h, a.denote g.result, false⟩
    have hpos := List.count_pos_iff.mpr hk
    have hm : x.1 ∈ Part.ids b.parts := List.count_pos_iff.mp (by omega)
    exact List.mem_map.mp hm

namespace Program

variable {p : Program} {l : Layout} {code : List Code.Instr} {cls : Option ClassDecl} {g : FnDecl}
  {e : Expr}

theorem mem_exprs : e ∈ p.exprs ↔ Part.expr e ∈ p.parts :=
  mem_filterMap_form fun q e => by cases q <;> simp [Part.expr?]

/-- An expression that has a type belongs to the body of a function or a method that is checked. -/
theorem Numbered.checked (h : p.Numbered) (he : e ∈ p.exprs)
    (ht : p.analyze.notes.typeOf e ≠ .error) :
    ∃ cls g, (cls, g) ∈ p.functions ∧ Part.expr e ∈ Block.partsOpt g.body := by
  obtain ⟨t, ht⟩ : ∃ t, p.analyze.notes.types.get? e.id = some t := by
    refine Option.ne_none_iff_exists'.mp fun hn => ht ?_
    unfold Notes.typeOf
    rw [hn]
    rfl
  have hx : (e.id, t) ∈ p.analyze.typed.report.types :=
    (Table.of_get?_insertAll ht).resolve_right (Option.not_mem_none _)
  rw [h.report_eq] at hx
  rw [Decl.check_all_eq] at hx
  obtain ⟨d, hd, hx⟩ := List.mem_flatMap.mp hx
  -- the function where it gets the type
  obtain ⟨cls, g, f, hg, hx⟩ : ∃ cls g f, (cls, g) ∈ p.functions ∧
      (e.id, t) ∈ (g.check (.ofProgram p) p.analyze.resolved.notes f).types := by
    cases d with
    | var _ => cases hx
    | iface _ => cases hx
    | fn g => exact ⟨none, g, _, mem_functions.mpr (.inl ⟨rfl, hd⟩), hx⟩
    | cls c =>
      obtain ⟨g, hm, hx⟩ := FnDecl.mem_types_all hx
      exact ⟨some c, g, _, mem_functions.mpr (.inr ⟨c, rfl, hd, hm⟩), hx⟩
  obtain ⟨q, hq, hid⟩ := FnDecl.typed_in_body hx
  obtain rfl : q = .expr e :=
    List.inj_on_of_nodup_map h (body_subset hg hq) (mem_exprs.mp he) hid
  exact ⟨cls, g, hg, hq⟩

/-- A function of a clean program gets code only if no expression in it has the type `double`. -/
theorem Clean.lower_body_bars (h : p.Clean) (hg : (cls, g) ∈ p.functions) {r : Surroundings}
    (hr : r.notes = p.analyze.notes) (m : Bool) :
    (g.lowerBody r m).Bars p.analyze.notes (Block.partsOpt g.body) := by
  -- the body was checked in the notes that it is lowered with
  have hbody : ∀ r' : Surroundings, r'.notes = p.analyze.notes →
      (Block.lowerOpt g.body r').Bars p.analyze.notes (Block.partsOpt g.body) := by
    intro r' hr'
    cases hb : g.body with
    | none => exact .nil
    | some b =>
      have hk := h.named.check_clean hg h.typed
      rw [Named.check_body_eq hb, ← hr'] at hk
      exact hr' ▸ b.lower_bars r' hk
  unfold FnDecl.lowerBody
  exact .snd_of (withThis_sound r m).ends_in fun r₁ ⟨h₁, _⟩ =>
    .snd_of (withFormals_sound r₁ g.formals).ends_in fun r₂ ⟨_, h₂⟩ =>
      hbody r₂ (h₂.notes_eq.trans (h₁.trans hr))

/-- **If a clean program has code, no expression in it has the type `double`**, be it evaluated,
assigned to, or a part of another one. -/
theorem Clean.no_doubles (h : p.Clean) (hc : p.lower p.analyze.notes l = .ok code) :
    ∀ e ∈ p.exprs, p.analyze.notes.typeOf e ≠ .double := by
  intro e he hd
  obtain ⟨cls, g, hg, hq⟩ := h.numbered.checked he (by rw [hd]; exact nofun)
  obtain ⟨r, cs, hr, rfl, hcs⟩ := lower_chunks hc
  obtain ⟨c, -, hmakes⟩ := forall₂_left hcs (function_mem_sources.mpr hg)
  cases hmakes with
  | function hx =>
    exact h.lower_body_bars hg (withGlobals_within hr).notes_eq _ _ _ hx e hq hd

end Program

/-- No expression in the ledger has the type `double`. -/
theorem no_doubles_ledger : ledger.Clean ∧ ledger.exprs.length = 22 ∧ (∃ l code,
    ledger.lower ledger.analyze.notes l = .ok code) ∧
      ∀ e ∈ ledger.exprs, ledger.analyze.notes.typeOf e ≠ .double := by
  have hclean : ledger.Clean :=
    ⟨Program.number_numbered _, List.isEmpty_iff.mp (by decide +kernel)⟩
  obtain ⟨l, code, -, hc⟩ := Program.exists_code (p := ledger) (by decide +kernel)
  exact ⟨hclean, by decide +kernel, ⟨l, code, hc⟩, hclean.no_doubles hc⟩

end DecafLang
