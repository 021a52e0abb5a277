import DecafLang.Syntax.Handwritten
import DecafLang.Proofs.Fields
import DecafLang.Proofs.MissingValues

/-!
# What is assigned to

The checker gives a type to what stands in front of `=`, `++` and `--` by the rules for all
expressions. Whether anything can be assigned to it is left to the back end.

* **A name, a field and an element of an array have storage** (`Program.Stored`): the name stands
  for a global, a variable of the function or a field of the class around, the field has an offset,
  and what is indexed is an array. Their places are found once the expressions are evaluated that
  lead there (`Expr.Placed`).
* **Nothing else has,** and the back end refuses it wherever it meets it. In a program without
  nested types it says nothing else about what is assigned to.
-/

namespace DecafLang

open Code (Emit Emitted Instr Location Supply)
open Code.Emit
open Lowering

/-! ## 1. Where something is needed -/

/-- What is needed is needed of expressions among these pieces. -/
def Need.AllIn (ns : List Need) (ps : List Part) : Prop := ∀ x ∈ ns, Part.expr x.expr ∈ ps

namespace Need.AllIn

variable {ns ns' : List Need} {ps qs : List Part}

theorem nil : AllIn [] ps := nofun

theorem append (h : AllIn ns ps) (h' : AllIn ns' qs) : AllIn (ns ++ ns') (ps ++ qs) :=
  List.forall_mem_append.mpr ⟨fun x hx => List.mem_append_left _ (h x hx),
    fun x hx => List.mem_append_right _ (h' x hx)⟩

/-- Pieces behind them make no difference. -/
theorem before (h : AllIn ns ps) (qs : List Part) : AllIn ns (ps ++ qs) :=
  fun x hx => List.mem_append_left _ (h x hx)

/-- Pieces in front of them make no difference. -/
theorem behind (h : AllIn ns qs) (ps : List Part) : AllIn ns (ps ++ qs) :=
  fun x hx => List.mem_append_right _ (h x hx)

/-- Something is needed of the expression itself, too. -/
theorem self {e : Expr} {q : Purpose} (h : AllIn e.needs e.parts) :
    AllIn (⟨q, e⟩ :: e.needs) e.parts := by
  refine List.forall_mem_cons.mpr ⟨?_, h⟩
  show Part.expr e ∈ e.parts
  cases e <;> simp [Expr.parts]

end Need.AllIn

mutual

/-- What is needed in an expression is needed of its parts. -/
theorem Expr.needs_in : ∀ e : Expr, Need.AllIn e.needs e.parts
  | .binary _ _ x y => (x.needs_in.self.append y.needs_in.self).before _
  | .assign _ x y => (x.needs_in.self.append y.needs_in.self).before _
  | .index _ x y => (x.needs_in.self.append y.needs_in.self).before _
  | .unary _ _ x => x.needs_in.self.before _
  | .step _ _ x => x.needs_in.self.before _
  | .field _ x _ => x.needs_in.self.before _
  | .newArray _ x _ => (x.needs_in.self.before _).before _
  | .call _ _ args => (Expr.arg_needs_in args).before _
  | .send _ x _ args => (x.needs_in.self.append (Expr.arg_needs_in args)).before _
  | .int _ _ | .double _ | .bool _ _ | .string _ _ | .null _ | .this _ | .readInteger _
  | .readLine _ | .name _ _ | .new _ _ => .nil

theorem Expr.arg_needs_in {call : Expr} {i : Ident} {k : Nat} : ∀ es : List Expr,
    Need.AllIn (Expr.argNeeds call i k es) (Expr.partsAll es)
  | [] => .nil
  | e :: es => e.needs_in.self.append (Expr.arg_needs_in es)

end

theorem Expr.needs_opt_in : ∀ e : Option Expr, Need.AllIn (Expr.needsOpt e) (Expr.partsOpt e)
  | none => .nil
  | some e => e.needs_in

theorem Expr.return_needs_in {t : TypeExpr} : ∀ e : Option Expr,
    Need.AllIn (Expr.returnNeeds t e) (Expr.partsOpt e)
  | none => .nil
  | some e => e.needs_in.self

theorem Expr.print_needs_in : ∀ es : List Expr,
    Need.AllIn (Expr.printNeeds es) (Expr.partsAll es)
  | [] => .nil
  | e :: es => e.needs_in.self.append (Expr.print_needs_in es)

section

variable {t : TypeExpr}

mutual

/-- What is needed in a statement is needed of expressions among its parts. -/
theorem Stmt.needs_in : ∀ s : Stmt, Need.AllIn (s.needs t) s.parts
  | .block b => b.needs_in
  | .ifThen _ e s => e.needs_in.self.append s.needs_in
  | .ifElse _ e s o => (e.needs_in.self.append s.needs_in).append o.needs_in
  | .while _ e s => e.needs_in.self.append s.needs_in
  | .for _ i e u s => by
    have hie := (Expr.needs_opt_in i).append (e.needs_in.self (q := .test))
    -- the step comes before the body, and is evaluated behind it
    exact List.forall_mem_append.mpr
      ⟨List.forall_mem_append.mpr ⟨(hie.before _).before _, s.needs_in.behind _⟩,
        ((Expr.needs_opt_in u).behind _).before _⟩
  | .switch _ e cs => e.needs_in.self.append (Case.needs_all_in cs)
  | .break _ => .nil
  | .ret _ e => Expr.return_needs_in e
  | .print _ es => Expr.print_needs_in es
  | .expr e => e.needs_in

theorem Block.needs_in : ∀ b : Block, Need.AllIn (b.needs t) b.parts
  | ⟨_, _, ss⟩ => ((Stmt.needs_all_in ss).behind _).before _

theorem Stmt.needs_all_in : ∀ ss : List Stmt, Need.AllIn (Stmt.needsAll t ss) (Stmt.partsAll ss)
  | [] => .nil
  | s :: ss => s.needs_in.append (Stmt.needs_all_in ss)

theorem Case.needs_all_in : ∀ cs : List Case, Need.AllIn (Case.needsAll t cs) (Case.partsAll cs)
  | [] => .nil
  | ⟨_, ss⟩ :: cs => (Stmt.needs_all_in ss).append (Case.needs_all_in cs)

end

end

/-! ## 2. Places -/

instance : DecidablePred Expr.IsTarget
  | .name _ _ | .field _ _ _ | .index _ _ _ => .isTrue trivial
  | .int _ _ | .double _ | .bool _ _ | .string _ _ | .null _ | .this _ | .readInteger _
  | .readLine _ | .binary _ _ _ _ | .unary _ _ _ | .step _ _ _ | .assign _ _ _ | .call _ _ _
  | .send _ _ _ _ | .new _ _ | .newArray _ _ _ => .isFalse not_false

/-- The expressions that are evaluated to find a place. -/
def Expr.bases : Expr → List Expr
  | .field _ b _ => [b]
  | .index _ b k => [b, k]
  | _ => []

/-- In these surroundings a place is found, once the expressions are evaluated that lead there. -/
def Expr.Placed (r : Surroundings) (e : Expr) : Prop :=
  ∀ s x, e.target r s = .error x → ∃ b ∈ e.bases, ∃ s', b.value r s' = .error x

/-- What a bare name stands for is at hand: its slot, or the object whose field it is. -/
def Surroundings.Keeps (r : Surroundings) : Expr → Prop
  | .name _ i => ∀ v, r.notes.var? i = some v → (r.slot? v.id).isSome = true ∨
      (r.layout.fieldOffset? v.id).isSome = true ∧ r.this.isSome = true
  | _ => True

namespace Code.Emit

/-- Steps that always end with a value. -/
def Total {α : Type} (m : Emit α) : Prop := ∀ s, ∃ o, m s = .ok o

theorem Total.bind {α β : Type} {m : Emit α} {k : α → Emit β} (h : m.Total)
    (hk : ∀ a, (k a).Total) : (m >>= k).Total := by
  intro s
  obtain ⟨a, ha⟩ := h s
  obtain ⟨b, hb⟩ := hk a.value a.supply
  exact ⟨_, bind_run_ok.mpr ⟨a, ha, b, hb, rfl⟩⟩

theorem total_instr (i : Instr) : (instr i).Total := fun _ => ⟨_, rfl⟩

theorem total_toTemp (i : Location → Instr) : (toTemp i).Total := fun _ => ⟨_, rfl⟩

theorem total_abort (text : String) : (abort text).Total := by
  have print : ∀ x, (builtin .printString [x]).Total := fun _ _ => ⟨_, rfl⟩
  have halt : (builtin .halt []).Total := fun _ => ⟨_, rfl⟩
  refine (total_toTemp _).bind fun _ => ?_
  refine (print _).bind fun _ => ?_
  exact halt.bind fun _ _ => ⟨_, rfl⟩

end Code.Emit

theorem Lowering.total_elementTarget (a i : Location) : (elementTarget a i).Total := by
  have check : (checkIndex a i).Total := by
    have label : newLabel.Total := fun _ => ⟨_, rfl⟩
    unfold checkIndex haltUnlessZero
    refine (total_toTemp _).bind fun _ => ?_
    refine (total_toTemp _).bind fun _ => ?_
    refine (total_toTemp _).bind fun _ => ?_
    refine (total_toTemp _).bind fun _ => ?_
    refine (total_toTemp _).bind fun _ => ?_
    refine (total_toTemp _).bind fun _ => ?_
    refine label.bind fun _ => ?_
    refine (total_instr _).bind fun _ => ?_
    refine (total_abort _).bind fun _ => ?_
    exact total_instr _
  unfold elementTarget
  refine check.bind fun _ => ?_
  refine (total_toTemp _).bind fun _ => ?_
  refine (total_toTemp _).bind fun _ => ?_
  refine (total_toTemp _).bind fun _ => ?_
  refine (total_toTemp _).bind fun _ _ => ?_
  exact ⟨_, rfl⟩

section

variable {r : Surroundings} {e b k : Expr} {i : Ident} {v : VarDecl} {n : Node}

/-- Nothing but a name, a field or an element has a place. -/
theorem Expr.target_refused (h : ¬ e.IsTarget) (r : Surroundings) (s : Supply) :
    e.target r s = .error (.internal (.notAssignable e.span)) := by
  cases e with
  | name _ _ => exact absurd trivial h
  | field _ _ _ => exact absurd trivial h
  | index _ _ _ => exact absurd trivial h
  | _ => rfl

/-- The place of a bare name is found. -/
theorem Expr.placed_name (hv : r.notes.var? i = some v) (hk : r.Keeps (.name n i)) :
    (Expr.name n i).Placed r := by
  intro s x hx
  cases hs : r.slot? v.id with
  | some w =>
    have e : r.varOf i s = .ok ⟨v, [], s⟩ := by
      -- a local or a formal is its own place, no code is needed
      unfold Surroundings.varOf
      rw [hv]
      rfl
    unfold Expr.target Target.ofName at hx
    rw [bind_silent e, hs] at hx
    cases hx
  | none =>
    have hk := hk v hv
    rw [hs] at hk
    -- a field of `this`, whose offset the layout knows
    obtain ⟨ho, ht⟩ := hk.resolve_left nofun
    obtain ⟨o, ho⟩ := Option.isSome_iff_exists.mp ho
    obtain ⟨t, ht⟩ := Option.isSome_iff_exists.mp ht
    exact nomatch ((Surroundings.finds hv hs ho ht n).writes s).symm.trans hx

/-- The place of a field is found behind its base. -/
theorem Expr.placed_field (hv : r.notes.var? i = some v)
    (ho : (r.layout.fieldOffset? v.id).isSome = true) : (Expr.field n b i).Placed r := by
  intro s x hx
  obtain ⟨o, ho⟩ := Option.isSome_iff_exists.mp ho
  unfold Expr.target at hx
  rcases bind_run_error hx with hb | ⟨y, -, hy⟩
  · exact ⟨b, List.mem_singleton_self b, s, hb⟩
  · rw [Surroundings.ofField_run hv ho] at hy
    cases hy

/-- The place of an element is found behind the array and the subscript. -/
theorem Expr.placed_index : (Expr.index n b k).Placed r := by
  intro s x hx
  unfold Expr.target at hx
  rcases bind_run_error hx with hb | ⟨y, -, hy⟩
  · exact ⟨b, List.mem_cons_self, s, hb⟩
  · rcases bind_run_error hy with hk | ⟨z, -, hz⟩
    · exact ⟨k, List.mem_cons_of_mem _ List.mem_cons_self, y.supply, hk⟩
    · obtain ⟨o, ho⟩ := total_elementTarget y.value z.value z.supply
      exact nomatch ho.symm.trans hz

/-- What has its code has a place, if it is a target. -/
theorem Expr.Coded.place {code : List Instr} (h : e.Coded r code) (ht : e.IsTarget) :
    ∃ s o, e.target r s = .ok o ∧ o.code <:+: code := by
  obtain ⟨s, ⟨o, ho, hi⟩ | h⟩ := h
  · obtain ⟨t, d, ht, -, -, hc⟩ := Expr.eval_target ht ho
    exact ⟨s, t, ht, ((hc ▸ List.prefix_append t.code d.code).isInfix).trans hi⟩
  · exact ⟨s, h⟩

end

/-! ## 3. Storage -/

/-- What is indexed is an array. -/
theorem Expr.Checked.index_goes {r : Rules} {f : Forest} {a : Notes} {n : Node} {x y : Expr}
    (h : (Expr.index n x y).Checked r f a) : (a.typeOf x).isArray = true := by
  have harr := ((h.noted _).mpr rfl).1
  obtain ⟨c, hc, hu, hk⟩ := h
  have hx := (Report.clean_append.mp (Verdict.clean_at.mp hk).1).1
  have hux : ∀ z ∈ x.uses c.forest, z.Settled c.notes := fun z hz =>
    (hu z (List.mem_append_left _ hz)).1
  rw [← (Expr.noted hc.follows hux hx _).mp harr]
  rfl

namespace Program

variable {p : Program} {l : Layout} {cls : Option ClassDecl} {g : FnDecl} {b : Block}

/-- What the expression, which stands in a function, stands for has storage: a name stands for a
global, a variable of the function or a field of the class around, a field has an offset, and what
is indexed is an array. -/
def Stored (p : Program) (l : Layout) (cls : Option ClassDecl) (g : FnDecl) : Expr → Prop
  | .name _ i => ∃ v, p.analyze.notes.var? i = some v ∧ (Decl.var v ∈ p.decls ∨ v ∈ g.vars ∨
      cls.isSome = true ∧ (l.fieldOffset? v.id).isSome = true)
  | .field _ _ i => ∃ v, p.analyze.notes.var? i = some v ∧ (l.fieldOffset? v.id).isSome = true
  | .index _ a _ => (p.analyze.notes.typeOf a).isArray = true
  | _ => False

/-- **A checked target has storage.** -/
theorem Clean.stored (h : p.Clean) (hf : p.Flat)
    (hl : Layout.ofProgram p.analyze.hierarchy p = .ok l) (hg : (cls, g) ∈ p.functions)
    (hb : g.body = some b) {e : Expr} (he : Part.expr e ∈ b.parts) (ht : e.IsTarget) :
    p.Stored l cls g e := by
  have hk := h.named.all_checked hf h.typed.1 hg hb e he
  cases e with
  | name n i =>
    obtain ⟨v, hv⟩ := hk.name_goes
    refine ⟨v, hv, ?_⟩
    rcases h.named.name_goes hg hb he hv with hvg | hlook
    -- a formal or a local of the function
    · exact .inr (.inl hvg)
    -- a name found around the function: a global, or a field of the class
    · rcases h.named.around_member hf hg hlook with ⟨hd, -⟩ | ⟨c, rfl, hc, hm⟩
      · exact .inl hd
      · obtain ⟨k, hk, -⟩ := h.named.member_at hf hl hc hm
        exact .inr (.inr ⟨rfl, Option.isSome_of_mem hk⟩)
  | field n x i =>
    obtain ⟨o, d, w, v, -, -, hd, hm, -, hv⟩ := hk.field_goes
    obtain ⟨c, rfl, rfl⟩ := Option.map_eq_some_iff.mp hd
    obtain ⟨k, hk, -⟩ := h.named.member_at hf hl (class_of_method hg) hm
    exact ⟨v, hv, Option.isSome_of_mem hk⟩
  | index n x y => exact hk.index_goes
  | _ => exact ht

/-- **The place of a checked target is found,** where what a bare name stands for is at hand. -/
theorem Stored.has_place {r : Surroundings} {e : Expr} (h : p.Stored l cls g e)
    (hn : r.notes = p.analyze.notes) (hl : r.layout = l) (hk : r.Keeps e) : e.Placed r := by
  cases e with
  | name n i =>
    obtain ⟨v, hv, -⟩ := h
    exact Expr.placed_name (hn ▸ hv) hk
  | field n x i =>
    obtain ⟨v, hv, ho⟩ := h
    exact Expr.placed_field (hn ▸ hv) (hl ▸ ho)
  | index n x y => exact Expr.placed_index
  | _ => exact h.elim

/-! ## 4. Programs -/

/-- What a clean program without nested types may be refused for. -/
theorem Clean.refused (h : p.Clean) (hf : p.Flat)
    (hl : Layout.ofProgram p.analyze.hierarchy p = .ok l) {e : Failure}
    (he : p.lower p.analyze.notes l = .error e) : e = .diagnostic .noMain ∨
      (∃ span, e = .refusal (.double span)) ∨
      (∃ iface method span, e = .refusal (.interfaceCall iface method span)) ∨
      ∃ x ∈ p.needs, x.Unmet p.analyze.notes ∧ e = .refusal (.internal x.defect) := by
  obtain ⟨l', hl', hw⟩ := h.lower_within (A := fun d => d.aboutNeed = true) hf
    (Layout.of_ofProgram hl).1 (.inl fun _ hd => hd)
  obtain rfl : l = l' := Except.ok.inj (hl.symm.trans hl')
  refine (hw e he).imp_right fun ⟨r, e', hr⟩ => ?_
  subst e'
  cases r with
  | double span => exact .inl ⟨span, rfl⟩
  | interfaceCall iface method span => exact .inr (.inl ⟨iface, method, span, rfl⟩)
  | cyclicInheritance _ _ => exact hr.elim
  | internal d =>
    obtain ⟨x, hx, hu, rfl⟩ := (lower_meets fun x hx => (h.needs_fair hx).plain).2 d he hr
    exact .inr (.inr ⟨x, hx, hu, rfl⟩)

/-- **What is assigned to has storage, or is refused.** The place of a name, a field or an element
is found as soon as the expressions are evaluated that lead there. Nothing else has a place. The
back end refuses the program for something that is no target, for a value that is missing, or for
what it does not support, and for no other reason. Where there is code, every place was found. -/
theorem Clean.targets_stored (h : p.Clean) (hf : p.Flat)
    (hl : Layout.ofProgram p.analyze.hierarchy p = .ok l) :
    (∀ cls g b, (cls, g) ∈ p.functions → g.body = some b →
      ∀ x ∈ b.needs g.result, x.purpose.stores = true →
        (x.expr.IsTarget → p.Stored l cls g x.expr ∧ ∀ r, r.notes = p.analyze.notes →
          r.layout = l → r.Keeps x.expr → x.expr.Placed r) ∧
        (¬ x.expr.IsTarget → ∀ r s,
          x.expr.target r s = .error (.internal (.notAssignable x.expr.span)))) ∧
    (∀ e, p.lower p.analyze.notes l = .error e → e = .diagnostic .noMain ∨
      (∃ span, e = .refusal (.double span)) ∨
      (∃ iface method span, e = .refusal (.interfaceCall iface method span)) ∨
      (∃ x ∈ p.needs, x.purpose.stores = true ∧ ¬ x.expr.IsTarget ∧
        e = .refusal (.internal (.notAssignable x.expr.span))) ∨
      ∃ x ∈ p.needs, p.VoidCall x.expr ∧ e = .refusal (.internal (.noValue x.expr.span))) ∧
    ∀ code, p.lower p.analyze.notes l = .ok code → ∀ x ∈ p.needs, x.purpose.stores = true →
      x.expr.IsTarget ∧ ∃ r s o, p.Surrounds l r ∧ x.expr.target r s = .ok o ∧
        o.code <:+: code := by
  refine ⟨fun cls g b hg hb x hx _ => ⟨fun ht => ?_, Expr.target_refused⟩, fun e he => ?_,
    fun code hc x hx hq => ?_⟩
  · have hs := h.stored hf hl hg hb (b.needs_in x hx) ht
    exact ⟨hs, fun r hn hlay hk => hs.has_place hn hlay hk⟩
  · refine (h.refused hf hl he).imp_right (.imp_right (.imp_right fun ⟨x, hx, hu, e⟩ => ?_))
    cases hq : x.purpose.stores with
    | true =>
      rw [Need.defect_place hq] at e
      exact .inl ⟨x, hx, hq, (Need.unmet_place hq).mp hu, e⟩
    | false =>
      rw [Need.defect_value hq] at e
      have hvoid := h.void_call hx ((Need.unmet_value hq).mp hu)
      exact .inr ⟨x, hx, hvoid.resolve_right fun h => h.1 hf, e⟩
  · have hmet := (lower_meets fun x hx => (h.needs_fair hx).plain).1 code hc x hx
    rw [Need.unmet_place hq, not_not] at hmet
    obtain ⟨cls, g, b, hg, hb, hx⟩ := mem_needs.mp hx
    obtain ⟨r, hr, -, hcoded⟩ := h.coded hf hc ⟨g, b, hg, hb, b.needs_in x hx⟩
    obtain ⟨s, o, ho⟩ := hcoded.place hmet
    exact ⟨hmet, r, s, o, hr, ho⟩

end Program

/-- An account and a ledger. Something is assigned to a global, a formal, a local, a field of the
object at hand and of another one, and an element of an array. -/
def ledger : Program := .number [
  .var (.int "total"),
  .cls ⟨.nowhere, .called "Account", none, [], [.var (.int "balance"),
    .var (.called "log" (.array 0 (.prim 0 .int))),
    .fn ⟨.nowhere, .called "put", .prim 0 .void,
      [.called "from" (.named 0 (.called "Account")), .int "n"], some ⟨.nowhere, [],
        [.set (.use "balance") (.use "n"),
          .set (.field .nowhere (.use "from") (.called "balance")) (.use "n"),
          .set (.index .nowhere (.use "log") (.use "n")) (.use "n"),
          .expr (.step .nowhere .increment (.use "n"))]⟩⟩]⟩,
  .fn ⟨.nowhere, .called "main", .prim 0 .void, [], some ⟨.nowhere, [.int "i"],
    [.set (.use "i") (.int .nowhere 1), .set (.use "total") (.use "i"),
      .expr (.step .nowhere .decrement (.use "total"))]⟩⟩]

/-- Everything that is assigned to in the ledger has storage, and there is code. -/
theorem targets_stored_ledger : ledger.Clean ∧ ledger.Flat ∧ ∃ l code,
    Layout.ofProgram ledger.analyze.hierarchy ledger = .ok l ∧
      ledger.lower ledger.analyze.notes l = .ok code ∧
        (ledger.needs.countP fun x => x.purpose.stores) = 7 ∧
        ∀ x ∈ ledger.needs, x.purpose.stores = true → ∃ cls g, (cls, g) ∈ ledger.functions ∧
          ledger.Stored l cls g x.expr := by
  have hclean : ledger.Clean :=
    ⟨Program.number_numbered _, List.isEmpty_iff.mp (by decide +kernel)⟩
  have hflat : ledger.Flat := of_decide_eq_true rfl
  have hok : ledger.code?.isSome = true := by decide +kernel
  obtain ⟨code, hcode⟩ := Option.isSome_iff_exists.mp hok
  obtain ⟨l, hl, hc⟩ := Program.of_code? hcode
  obtain ⟨hstored, -, hplaced⟩ := hclean.targets_stored hflat hl
  refine ⟨hclean, hflat, l, code, hl, hc, by decide +kernel, fun x hx hq => ?_⟩
  obtain ⟨ht, -⟩ := hplaced code hc x hx hq
  obtain ⟨cls, g, b, hg, hb, hx⟩ := Program.mem_needs.mp hx
  exact ⟨cls, g, hg, ((hstored cls g b hg hb x hx hq).1 ht).1⟩

/-- Something is assigned to a number. -/
def muddle : Program := .number [
  .fn ⟨.nowhere, .called "main", .prim 0 .void, [], some ⟨.nowhere, [],
    [.set (.int .nowhere 5) (.int .nowhere 3)]⟩⟩]

/-- In a clean program something may be assigned to what has no storage. The back end finds no
place. -/
theorem not_targets_stored_muddle : muddle.Clean ∧
    (∃ x ∈ muddle.needs, x.purpose.stores = true ∧ ¬ x.expr.IsTarget) ∧
    (muddle.compile ⟨.threeAddress, false⟩).result =
      .error (.internal (.notAssignable .nowhere)) :=
  ⟨⟨Program.number_numbered _, List.isEmpty_iff.mp (by decide +kernel)⟩, by decide +kernel,
    Program.of_refusal? (by decide +kernel)⟩

end DecafLang
