import DecafLang.Proofs.Calls

/-!
# Code of the parts of an expression

**Every part of an expression has its code in the code of the expression**
(`Expr.eval_codes`): it was evaluated, or its place was, in the same surroundings.

The one exception would be the arguments of the length of an array, which are not evaluated. The
checker lets none pass (`Expr.Checked.plainLength`).
-/

namespace DecafLang

open Code (Emit Emitted Instr Location Supply)
open Code.Emit
open Lowering

/-- In these surroundings the expression, or the place that it stands for, has its code within
other code. -/
def Expr.Coded (r : Surroundings) (code : List Instr) (e : Expr) : Prop :=
  ∃ s, (∃ o, e.eval r s = .ok o ∧ o.code <:+: code) ∨ ∃ o, e.target r s = .ok o ∧ o.code <:+: code

/-- The expression is not the length of an array with arguments. -/
def Expr.PlainLength (a : Notes) : Expr → Prop
  | .send _ b i args => ((a.typeOf b).isArray && i.name == "length") = true → args = []
  | _ => True

/-- The checker accepts no arguments for the length of an array. -/
theorem Expr.Checked.plainLength {r : Rules} {f : Forest} {a : Notes} {e : Expr}
    (h : e.Checked r f a) : e.PlainLength a := by
  cases e with
  | send n b i args =>
    intro hlen
    obtain ⟨u, hb, hor⟩ := (h.noted _).mpr rfl
    rcases hor with ⟨-, -, rfl, -⟩ | ⟨c, g, rfl, -⟩
    · rfl
    · -- a base that is an object has no length
      obtain ⟨k, hk, hu, hc⟩ := h
      have hbk : (b.check k).report.Clean a :=
        (Report.clean_append.mp (Verdict.clean_at.mp hc).1).1
      have hub : ∀ y ∈ b.uses k.forest, y.Settled k.notes := fun y hy =>
        (hu y (List.mem_append_left _ hy)).1
      rw [← (Expr.noted hk.follows hub hbk _).mp hb] at hlen
      exact absurd hlen Bool.false_ne_true
  | _ => trivial

/-- Where floating point numbers are refused and nothing was, the steps went on. -/
theorem Surroundings.noDouble_ok {α : Type} {r : Surroundings} {n : Node} {m : Emit α}
    {s : Supply} {o : Emitted α} (h : r.noDouble n m s = .ok o) : m s = .ok o := by
  unfold noDouble at h
  split at h
  · cases h
  · exact h

/-- The value of a target is read from its place. -/
theorem Expr.eval_target {r : Surroundings} {s : Supply} {e : Expr} {o : Emitted (Option Location)}
    (ht : e.IsTarget) (ho : e.eval r s = .ok o) : ∃ p d, e.target r s = .ok p ∧
      p.value.load p.supply = .ok d ∧ o.value = some d.value ∧ o.code = p.code ++ d.code := by
  cases e with
  | name n i =>
    unfold Expr.eval at ho
    obtain ⟨p, hp, u, hu, rfl⟩ := bind_run_ok.mp (Surroundings.noDouble_ok ho)
    obtain ⟨d, hd, j, hj, rfl⟩ := bind_run_ok.mp hu
    cases hj
    exact ⟨p, d, hp, hd, rfl, by rw [List.append_nil]⟩
  | field n b i =>
    -- the base is evaluated in front of the place, and then the place is read
    unfold Expr.eval at ho
    obtain ⟨x, hx, y, hy, rfl⟩ := bind_run_ok.mp (Surroundings.noDouble_ok ho)
    obtain ⟨p, hp, u, hu, rfl⟩ := bind_run_ok.mp hy
    obtain ⟨d, hd, j, hj, rfl⟩ := bind_run_ok.mp hu
    cases hj
    unfold Expr.target
    refine ⟨_, d, bind_run_ok.mpr ⟨x, hx, p, hp, rfl⟩, hd, rfl, ?_⟩
    simp only [List.append_nil, List.append_assoc]
  | index n b k =>
    unfold Expr.eval at ho
    obtain ⟨x, hx, y, hy, rfl⟩ := bind_run_ok.mp (Surroundings.noDouble_ok ho)
    obtain ⟨z, hz, w, hw, rfl⟩ := bind_run_ok.mp hy
    obtain ⟨p, hp, u, hu, rfl⟩ := bind_run_ok.mp hw
    obtain ⟨d, hd, j, hj, rfl⟩ := bind_run_ok.mp hu
    cases hj
    unfold Expr.target
    refine ⟨_, d, bind_run_ok.mpr ⟨x, hx, _, bind_run_ok.mpr ⟨z, hz, p, hp, rfl⟩, rfl⟩, hd, rfl, ?_⟩
    simp only [List.append_nil, List.append_assoc]
  | _ => exact ht.elim

/-- What is coded within some code is coded within any that it stands in. -/
theorem Expr.Coded.within {r : Surroundings} {code code' : List Instr} {e : Expr}
    (h : e.Coded r code) (hc : code <:+: code') : e.Coded r code' := by
  obtain ⟨s, ⟨o, ho, hi⟩ | ⟨o, ho, hi⟩⟩ := h
  · exact ⟨s, .inl ⟨o, ho, hi.trans hc⟩⟩
  · exact ⟨s, .inr ⟨o, ho, hi.trans hc⟩⟩

/-- So are all expressions among some pieces. -/
theorem Part.All.coded_within {r : Surroundings} {code code' : List Instr} {ps : List Part}
    (h : Part.All (Expr.Coded r code) ps) (hc : code <:+: code') :
    Part.All (Expr.Coded r code') ps := fun e he => (h e he).within hc

/-- Steps whose code has that of all expressions among some pieces in it. -/
def Code.Emit.Codes {α : Type} (m : Emit α) (r : Surroundings) (ps : List Part) : Prop :=
  ∀ s o, m s = .ok o → Part.All (Expr.Coded r o.code) ps

namespace Code.Emit.Codes

variable {α β : Type} {m : Emit α} {k : α → Emit β} {r : Surroundings} {ps qs : List Part}

/-- Without pieces there is nothing to show. -/
theorem nil : m.Codes r [] := fun _ _ _ => .nil

/-- Pieces behind each other are coded if both lists are. -/
theorem append (h : m.Codes r ps) (h' : m.Codes r qs) : m.Codes r (ps ++ qs) :=
  fun s o ho => (h s o ho).append (h' s o ho)

/-- A piece that is no expression asks for nothing. -/
theorem cons {q : Part} (hq : ∀ e, q ≠ .expr e) (h : m.Codes r ps) : m.Codes r (q :: ps) :=
  fun s o ho => .cons hq (h s o ho)

/-- There are no expressions in a written type. -/
theorem type (t : TypeExpr) : m.Codes r t.parts := fun _ _ _ => .type t

/-- What the first of two steps codes. -/
theorem fst (h : m.Codes r ps) : (m >>= k).Codes r ps := by
  intro s o ho
  obtain ⟨a, ha, b, -, rfl⟩ := bind_run_ok.mp ho
  exact (h s a ha).coded_within (List.prefix_append a.code b.code).isInfix

/-- What the second of two steps codes. -/
theorem snd (h : ∀ a, (k a).Codes r ps) : (m >>= k).Codes r ps := by
  intro s o ho
  obtain ⟨a, -, b, hb, rfl⟩ := bind_run_ok.mp ho
  exact (h a.value a.supply b hb).coded_within (List.suffix_append a.code b.code).isInfix

/-- That a value is needed does not change the code. -/
theorem needed {d : Defect} {m : Emit (Option α)} (h : m.Codes r ps) : (needed d m).Codes r ps :=
  h.fst

/-- Nor does it that floating point numbers are refused. -/
theorem noDouble {n : Node} (h : m.Codes r ps) : (r.noDouble n m).Codes r ps :=
  fun s o ho => h s o (Surroundings.noDouble_ok ho)

/-- Steps that are refused have no code. -/
theorem refuse {e : Refusal} : (Emit.refuse e : Emit α).Codes r ps := fun _ _ h => by cases h

end Code.Emit.Codes

open Code.Emit.Codes

section

variable {r : Surroundings}

/-- An expression that is evaluated is coded. -/
theorem Expr.codes_self (e : Expr) : (e.eval r).Codes r [.expr e] := fun s o ho =>
  .one ⟨s, .inl ⟨o, ho, List.infix_rfl⟩⟩

/-- An expression whose place is evaluated is coded. -/
theorem Expr.codes_place (e : Expr) : (e.target r).Codes r [.expr e] := fun s o ho =>
  .one ⟨s, .inr ⟨o, ho, List.infix_rfl⟩⟩

mutual

-- By induction on the expression. The expression itself is coded by what `Expr.codes_self` says;
-- each part is evaluated in one of the steps, and the code of that step stands in the whole.

/-- **The code of an expression has that of its parts in it.** -/
theorem Expr.eval_codes : ∀ e : Expr, Part.All (PlainLength r.notes) e.parts →
    (e.eval r).Codes r e.parts
  | .int _ _, _ | .bool _ _, _ | .null _, _ | .string _ _, _ | .double _, _ | .readInteger _, _
  | .readLine _, _ | .this _, _ => Expr.codes_self _
  | .name _ _, _ | .new _ _, _ => .cons nofun (Expr.codes_self _)
  | .binary n op x y, h => by
    refine .append ?_ (Expr.codes_self _)
    have hx := x.eval_codes h.left.left
    have hy := y.eval_codes h.left.right
    unfold Expr.eval
    refine noDouble (append ?left ?right)
    case left => exact hx.needed.fst
    case right => exact snd fun left => hy.needed.fst
  | .unary n op x, h => by
    refine .append ?_ (Expr.codes_self _)
    have hx := x.eval_codes h.left
    unfold Expr.eval
    exact noDouble hx.needed.fst
  | .step n op x, h => by
    refine .append ?_ (Expr.codes_self _)
    have hx := x.target_codes h.left
    unfold Expr.eval
    exact noDouble hx.fst
  | .assign n x y, h => by
    refine .append ?_ (Expr.codes_self _)
    have hx := x.target_codes h.left.left
    have hy := y.eval_codes h.left.right
    unfold Expr.eval
    refine noDouble (append ?place ?value)
    case place => exact hx.fst
    case value => exact snd fun place => hy.needed.fst
  | .index n x y, h => by
    refine .append ?_ (Expr.codes_self _)
    have hx := x.eval_codes h.left.left
    have hy := y.eval_codes h.left.right
    unfold Expr.eval
    refine noDouble (append ?array ?position)
    case array => exact hx.needed.fst
    case position => exact snd fun array => hy.needed.fst
  | .field n x i, h => by
    refine .append ?_ (.cons nofun (Expr.codes_self _))
    have hx := x.eval_codes h.left
    unfold Expr.eval
    exact noDouble hx.needed.fst
  | .newArray n x t, h => by
    refine .append (.append ?_ (type t)) (Expr.codes_self _)
    have hx := x.eval_codes h.left.left
    unfold Expr.eval
    exact noDouble hx.needed.fst
  | .call n i args, h => by
    refine .append ?_ (.cons nofun (Expr.codes_self _))
    have hargs := Expr.eval_all_codes args h.left
    unfold Expr.eval
    refine noDouble (snd fun g => ?_)
    cases r.layout.methodSlot? g.id with
    | some slot => exact snd fun this => hargs.fst
    | none => exact hargs.fst
  | .send n x i args, h => by
    refine .append ?_ (.cons nofun (Expr.codes_self _))
    have hx := x.eval_codes h.left.left
    have hargs := Expr.eval_all_codes args h.left.right
    unfold Expr.eval
    refine noDouble ?_
    split
    next hlen =>
      -- the arguments of a length are not evaluated, but there are none
      obtain rfl : args = [] := h.last hlen
      exact append hx.needed.fst nil
    · refine snd fun g => snd fun _ => append ?receiver ?arguments
      case receiver => exact hx.needed.fst
      case arguments => exact snd fun receiver => hargs.fst

/-- The code of a place has that of its parts in it. -/
theorem Expr.target_codes : ∀ e : Expr, Part.All (PlainLength r.notes) e.parts →
    (e.target r).Codes r e.parts
  | .name _ _, _ => .cons nofun (Expr.codes_place _)
  | .field n x i, h => by
    refine .append ?_ (.cons nofun (Expr.codes_place _))
    have hx := x.eval_codes h.left
    unfold Expr.target
    exact hx.needed.fst
  | .index n x y, h => by
    refine .append ?_ (Expr.codes_place _)
    have hx := x.eval_codes h.left.left
    have hy := y.eval_codes h.left.right
    unfold Expr.target
    refine append ?array ?position
    case array => exact hx.needed.fst
    case position => exact snd fun array => hy.needed.fst
  | .int _ _, _ | .bool _ _, _ | .null _, _ | .string _ _, _ | .double _, _ | .readInteger _, _
  | .readLine _, _ | .this _, _ | .binary _ _ _ _, _ | .unary _ _ _, _ | .step _ _ _, _
  | .assign _ _ _, _ | .new _ _, _ | .newArray _ _ _, _ | .call _ _ _, _
  | .send _ _ _ _, _ => by
    unfold Expr.target
    exact .refuse

/-- The code of several expressions has that of their parts in it. -/
theorem Expr.eval_all_codes : ∀ es : List Expr, Part.All (PlainLength r.notes) (Expr.partsAll es) →
    (Expr.evalAll r es).Codes r (Expr.partsAll es)
  | [], _ => .nil
  | e :: es, h => by
    have he := e.eval_codes h.left
    have hes := Expr.eval_all_codes es h.right
    unfold Expr.evalAll
    refine append ?first ?rest
    case first => exact he.needed.fst
    case rest => exact snd fun value => hes.fst

end

end

end DecafLang
