import Mathlib.Data.List.Pairwise
import DecafLang.Proofs.ScalarStatements
import DecafLang.Proofs.Names

/-!
# Checked bodies

**A simple body of a function that the checks have nothing against is tame**
(`Program.Named.tame`): the types and the variables in the notes are the right ones at every
place.

* `Simple` is a matter of form: control flow and assignments over ints and bools, whose names
  stand for variables of the function.
* The variables of a function are found in its own scopes only (`Forest.Reveals`), since no number
  is given twice and no other scope declares them.
-/

namespace DecafLang

/-! ## 1. Functions and simple bodies -/

/-- The variables of a function: its formals and the locals of its blocks. -/
def FnDecl.vars (g : FnDecl) : List VarDecl :=
  g.openings.flatMap fun o => o.scope.decls.filterMap Decl.var?

/-- The functions that have code, each with the class whose method it is. -/
def Program.functions (p : Program) : List (Option ClassDecl × FnDecl) :=
  p.decls.flatMap fun
    | .fn g => [(none, g)]
    | .cls c => c.methods.map fun g => (some c, g)
    | _ => []

/-- A name stands for an int or bool variable of a list. -/
def Notes.Simple (a : Notes) (vs : List VarDecl) (i : Ident) : Prop :=
  ∃ v ∈ vs, a.var? i = some v ∧ (v.type.ty = .int ∨ v.type.ty = .bool)

/-- Constants, variables and operators other than `/` and `%`. -/
def Expr.Simple (a : Notes) (vs : List VarDecl) : Expr → Prop
  | .int _ _ => True
  | .bool _ _ => True
  | .name _ i => a.Simple vs i
  | .unary _ _ x => x.Simple a vs
  | .binary _ op x y => op ≠ .div ∧ op ≠ .mod ∧ x.Simple a vs ∧ y.Simple a vs
  | _ => False

/-- An assignment to a variable. -/
def Expr.SimpleSet (a : Notes) (vs : List VarDecl) : Expr → Prop
  | .assign _ (.name _ i) e => a.Simple vs i ∧ e.Simple a vs
  | _ => False

mutual

/-- Control flow over assignments. -/
def Stmt.Simple (a : Notes) (vs : List VarDecl) : Stmt → Prop
  | .block b => b.Simple a vs
  | .ifThen _ t s => t.Simple a vs ∧ s.Simple a vs
  | .ifElse _ t s o => t.Simple a vs ∧ s.Simple a vs ∧ o.Simple a vs
  | .while _ t s => t.Simple a vs ∧ s.Simple a vs
  | .for _ i t u s => (∀ e ∈ i, e.SimpleSet a vs) ∧ t.Simple a vs ∧ (∀ e ∈ u, e.SimpleSet a vs) ∧
      s.Simple a vs
  | .switch _ e cs => e.Simple a vs ∧ cs.countP (fun c => c.label.isNone) ≤ 1 ∧
      Case.SimpleAll a vs cs
  | .break _ => True
  | .ret _ e => ∀ x ∈ e, x.Simple a vs
  | .print _ _ => False
  | .expr e => e.SimpleSet a vs

/-- A block of such statements. -/
def Block.Simple (a : Notes) (vs : List VarDecl) : Block → Prop
  | ⟨_, _, ss⟩ => Stmt.SimpleAll a vs ss

/-- An arm of such statements. -/
def Case.Simple (a : Notes) (vs : List VarDecl) : Case → Prop
  | ⟨_, ss⟩ => Stmt.SimpleAll a vs ss

/-- Several such statements. -/
def Stmt.SimpleAll (a : Notes) (vs : List VarDecl) : List Stmt → Prop
  | [] => True
  | s :: r => s.Simple a vs ∧ Stmt.SimpleAll a vs r

/-- Several such arms. -/
def Case.SimpleAll (a : Notes) (vs : List VarDecl) : List Case → Prop
  | [] => True
  | c :: r => c.Simple a vs ∧ Case.SimpleAll a vs r

end

/-! ## 2. Where variables are found -/

/-- A scope of locals, without an owner. -/
def Opening.Local (o : Opening) : Prop :=
  ∃ (n : NodeId) (ls : List VarDecl), o = ⟨n, .holding none (ls.map .var)⟩

mutual

/-- The scopes inside a statement hold locals. -/
theorem Stmt.opens_locals : ∀ (s : Stmt), ∀ o ∈ s.openings, o.Local
  | .block b, o, h => b.opens_locals o h
  | .ifThen _ _ s, o, h => s.opens_locals o h
  | .ifElse _ _ s t, o, h =>
    (List.mem_append.mp h).elim (s.opens_locals o) (t.opens_locals o)
  | .while _ _ s, o, h => s.opens_locals o h
  | .for _ _ _ _ s, o, h => s.opens_locals o h
  | .switch _ _ cs, o, h => Case.opens_locals_all cs o h
  | .break _, _, h => nomatch h
  | .ret _ _, _, h => nomatch h
  | .print _ _, _, h => nomatch h
  | .expr _, _, h => nomatch h

theorem Block.opens_locals : ∀ (b : Block), ∀ o ∈ b.openings, o.Local
  | ⟨n, ls, ss⟩, o, h => by
    rcases List.mem_cons.mp h with rfl | h
    · exact ⟨n.id, ls, rfl⟩
    · exact Stmt.opens_locals_all ss o h

theorem Stmt.opens_locals_all : ∀ (ss : List Stmt), ∀ o ∈ Stmt.openingsAll ss, o.Local
  | s :: ss, o, h =>
    (List.mem_append.mp h).elim (s.opens_locals o) (Stmt.opens_locals_all ss o)

theorem Case.opens_locals_all : ∀ (cs : List Case), ∀ o ∈ Case.openingsAll cs, o.Local
  | ⟨_, ss⟩ :: cs, o, h =>
    (List.mem_append.mp h).elim (Stmt.opens_locals_all ss o) (Case.opens_locals_all cs o)

end

/-- The scopes of a function hold variables, and have no owner but the function. -/
theorem FnDecl.opens_variables (g : FnDecl) : ∀ o ∈ g.openings,
    (∃ ls : List VarDecl, o.scope.decls = ls.map .var) ∧ ∀ w ∈ o.scope.owner, w.kind = .fn := by
  intro o ho
  rcases List.mem_cons.mp ho with rfl | ho
  · refine ⟨⟨g.formals, rfl⟩, fun w hw => ?_⟩
    cases hw
    rfl
  -- the scopes of the body hold local variables and belong to nobody
  · cases hb : g.body with
    | none =>
      rw [hb] at ho
      cases ho
    | some b =>
      rw [hb] at ho
      obtain ⟨n, ls, rfl⟩ := b.opens_locals o ho
      exact ⟨⟨ls, rfl⟩, nofun⟩

theorem FnDecl.mem_vars {g : FnDecl} {v : VarDecl} :
    v ∈ g.vars ↔ ∃ o ∈ g.openings, Decl.var v ∈ o.scope.decls := by
  unfold vars
  rw [List.mem_flatMap]
  refine exists_congr fun o => and_congr Iff.rfl ⟨fun h => ?_, fun h => ?_⟩
  · obtain ⟨d, hd, e⟩ := List.mem_filterMap.mp h
    cases d <;> cases e
    exact hd
  · exact List.mem_filterMap.mpr ⟨_, h, rfl⟩

theorem FnDecl.mem_declared {g : FnDecl} {i : NodeId} :
    i ∈ Opening.declared g.openings ↔ ∃ v ∈ g.vars, v.id = i := by
  unfold Opening.declared
  rw [List.mem_flatMap]
  constructor
  · intro ⟨o, ho, hi⟩
    obtain ⟨d, hd, rfl⟩ := List.mem_map.mp hi
    obtain ⟨ls, e⟩ := (g.opens_variables o ho).1
    obtain ⟨v, hv, rfl⟩ := List.mem_map.mp (e ▸ hd)
    exact ⟨v, mem_vars.mpr ⟨o, ho, hd⟩, rfl⟩
  · intro h
    obtain ⟨v, hv, rfl⟩ := h
    obtain ⟨o, ho, hd⟩ := mem_vars.mp hv
    exact ⟨o, ho, List.mem_map.mpr ⟨_, hd, rfl⟩⟩

theorem Program.mem_functions {p : Program} {x : Option ClassDecl × FnDecl} :
    x ∈ p.functions ↔ (x.1 = none ∧ Decl.fn x.2 ∈ p.decls) ∨
      ∃ c, x.1 = some c ∧ Decl.cls c ∈ p.decls ∧ x.2 ∈ c.methods := by
  obtain ⟨m, g⟩ := x
  unfold functions
  rw [List.mem_flatMap]
  constructor
  · intro ⟨d, hd, h⟩
    cases d with
    | var _ => cases h
    | iface _ => cases h
    | fn g' =>
      -- a function at the top level stands alone, and a method in its class
      cases List.mem_singleton.mp h
      exact .inl ⟨rfl, hd⟩
    | cls c =>
      obtain ⟨g', hg, e⟩ := List.mem_map.mp h
      cases e
      exact .inr ⟨c, rfl, hd, hg⟩
  · intro h
    rcases h with ⟨rfl, hd⟩ | ⟨c, rfl, hd, hg⟩
    · exact ⟨_, hd, List.mem_singleton.mpr rfl⟩
    · exact ⟨_, hd, List.mem_map.mpr ⟨g, hg, rfl⟩⟩

theorem Program.openings_sublist {p : Program} {x : Option ClassDecl × FnDecl}
    (h : x ∈ p.functions) : x.2.openings.Sublist p.openings := by
  rcases Program.mem_functions.mp h with ⟨-, hd⟩ | ⟨c, -, hd, hg⟩
  · exact Decl.openings_sublist (d := .fn x.2) hd
  · have h₁ : (Decl.fn x.2).openings.Sublist (Decl.openingsAll c.members) :=
      Decl.openings_sublist (ClassDecl.mem_methods.mp hg)
    have h₂ : (Decl.cls c).openings.Sublist p.openings := Decl.openings_sublist hd
    have e : (Decl.cls c).openings = c.openings := rfl
    rw [e, c.openings_eq] at h₂
    exact (h₁.trans (List.sublist_cons_self _ _)).trans h₂

/-- The pieces of a body are pieces of the program. -/
theorem Program.body_subset {p : Program} {cls : Option ClassDecl} {g : FnDecl}
    (hg : (cls, g) ∈ p.functions) : Block.partsOpt g.body ⊆ p.parts := by
  have hin : Block.partsOpt g.body ⊆ g.parts := fun q hq =>
    List.mem_append_left _ (List.mem_append_right _ hq)
  refine fun q hq => List.mem_append_left _ ?_
  rcases Program.mem_functions.mp hg with ⟨-, hd⟩ | ⟨⟨n, i, b, is, ms⟩, -, hd, hm⟩
  · exact Decl.parts_subset hd (hin hq)
  · refine Decl.parts_subset hd ?_
    show q ∈ Decl.partsAll ms ++ _ ++ _ ++ _ ++ _
    simp only [List.append_assoc]
    exact List.mem_append_left _ (Decl.parts_subset (ClassDecl.mem_methods.mp hm) (hin hq))

/-- The names that stand for one of these variables stand for one in sight. -/
def Forest.Reveals (f : Forest) (vs vis : List VarDecl) : Prop :=
  ∀ name, ∀ v ∈ vs, f.lookup? name = some (.var v) → v ∈ vis

/-- Opening a scope brings what it declares into sight. -/
theorem Forest.Reveals.enter {f : Forest} {vs vis ls : List VarDecl} {n : NodeId}
    {w : Option Owner} {k : ScopeId} (hr : f.Reveals vs vis)
    (h : f.Has ⟨n, .holding w (ls.map .var)⟩ k) :
    (f.withOpen (k :: f.inner)).Reveals vs (ls ++ vis) := by
  intro name v hv hl
  rw [h.lookup?_eq] at hl
  rw [List.mem_append]
  rcases Option.or_eq_some_iff.mp hl with hl | ⟨-, hl⟩
  · obtain ⟨u, hu, e⟩ := List.mem_map.mp (List.mem_of_find?_eq_some hl)
    cases e
    exact .inl hu
  · exact .inr (hr name v hv hl)

/-- The scopes that are open around a function. -/
def Program.around (p : Program) : Option ClassDecl → Forest
  | none => p.scopes
  | some c => p.scopes.enterClass c

namespace Program.Named

variable {p : Program} {cls : Option ClassDecl} {g : FnDecl}

/-- A scope with an owner other than a function declares no variable of a function. -/
theorem not_declared (h : p.Named) (hg : (cls, g) ∈ p.functions) {o : Opening}
    (ho : o ∈ p.openings) {w : Owner} (hw : o.scope.owner = some w) (hk : w.kind ≠ .fn)
    {v : VarDecl} (hv : v ∈ g.vars) : Decl.var v ∉ o.scope.decls := by
  intro hd
  obtain ⟨o', ho', hd'⟩ := FnDecl.mem_vars.mp hv
  have hn := (List.nodup_append.mp h.numbered.nodup_declared).2.1
  have e := eq_of_mem_flatMap hn ho ((Program.openings_sublist hg).subset ho')
    (List.mem_map_of_mem hd) (List.mem_map_of_mem hd')
  exact hk ((g.opens_variables o' ho').2 w (e ▸ hw))

/-- No scope is open around a function at the top level. -/
theorem around_none (h : p.Named) : p.around none = p.scopes.withOpen [] := by
  show p.scopes = _
  rw [← h.numbered.inner_eq]
  rfl

/-- The scope of its class is open around a method. -/
theorem around_class (h : p.Named) {c : ClassDecl} (hc : Decl.cls c ∈ p.decls) :
    ∃ k, p.scopes.Has ⟨c.node.id, c.heading.addAll c.members⟩ k ∧
      p.around (some c) = p.scopes.withOpen [k] := by
  obtain ⟨k, hk, e⟩ := c.enter_eq (Program.openings_of_mem h.hasAll hc)
  refine ⟨k, hk, ?_⟩
  show p.scopes.enterClass c = _
  rw [e, h.numbered.inner_eq]

theorem around_eq (h : p.Named) (hg : (cls, g) ∈ p.functions) :
    ∃ ks, p.around cls = p.scopes.withOpen ks ∧ ∀ k ∈ ks, ∃ o ∈ p.openings, p.scopes.Has o k ∧
      ∃ w, o.scope.owner = some w ∧ w.kind ≠ .fn := by
  rcases Program.mem_functions.mp hg with ⟨rfl, -⟩ | ⟨c, rfl, hc, -⟩
  · exact ⟨[], h.around_none, nofun⟩
  · obtain ⟨k, hk, e⟩ := h.around_class hc
    refine ⟨[k], e, fun j hj => ?_⟩
    obtain rfl := List.mem_singleton.mp hj
    refine ⟨_, (Decl.openings_sublist hc).subset ?_, hk, c.owner, rfl, nofun⟩
    show _ ∈ c.openings
    rw [c.openings_eq]
    exact List.mem_cons_self

/-- The scopes of a function are there around it. -/
theorem around_hasAll (h : p.Named) (hg : (cls, g) ∈ p.functions) :
    (p.around cls).HasAll g.openings := by
  intro o ho
  obtain ⟨ks, e, -⟩ := h.around_eq hg
  rw [e]
  exact h.hasAll o ((Program.openings_sublist hg).subset ho)

/-- A function opens the scope of its formals. -/
theorem scope_of_fn (h : p.Named) (hg : (cls, g) ∈ p.functions) :
    ∃ k, (p.around cls).Has ⟨g.node.id, .holding (some g.owner) (g.formals.map .var)⟩ k ∧
      (p.around cls).enterFn g = (p.around cls).withOpen (k :: (p.around cls).inner) := by
  obtain ⟨k, hk⟩ := h.around_hasAll hg _ List.mem_cons_self
  exact ⟨k, hk, hk.enterOwned rfl⟩

/-- **Outside a function none of its variables is found.** -/
theorem reveals (h : p.Named) (hg : (cls, g) ∈ p.functions) :
    (p.around cls).Reveals g.vars [] := by
  intro name v hv hl
  obtain ⟨ks, e, hks⟩ := h.around_eq hg
  rw [e] at hl
  obtain ⟨k, hk, hd⟩ := Forest.lookup?_cases hl
  rcases hd with hd | ⟨j, hj, hd⟩
  -- what is found lies in an open scope or above one, and no variable of the function lies there
  · have hd := (Forest.mem_of_get? hd).1
    rcases List.mem_append.mp hk with hk | hk
    · obtain ⟨o, ho, hh, w, hw, hkind⟩ := hks k hk
      exact absurd (hh.decls_eq ▸ hd) (h.not_declared hg ho hw hkind hv)
    · -- the global scope
      obtain rfl := List.mem_singleton.mp hk
      have hd : Decl.var v ∈ p.decls := h.global_decls ▸ hd
      obtain ⟨o, ho, hd'⟩ := FnDecl.mem_vars.mp hv
      refine absurd rfl ((List.nodup_append.mp h.numbered.nodup_declared).2.2 _
        (List.mem_map_of_mem hd) _ (List.mem_flatMap.mpr
          ⟨o, (Program.openings_sublist hg).subset ho, List.mem_map_of_mem hd'⟩))
  · obtain ⟨-, n, hn⟩ := Forest.of_mem_parents hj
    obtain ⟨o, ho, hc⟩ := h.opened.of_ownerScope? hn
    have hm : o ∈ p.openings := (List.mem_zipIdx_iff_le_and_getElem?_sub.mp ho).2
      |> List.mem_of_getElem?
    have hd : Decl.var v ∈ o.scope.decls := by
      rw [← (h.opened.has ho).decls_eq]
      exact (Forest.mem_of_get? hd).1
    unfold Opening.claims at hc
    split at hc
    · rename_i w hw
      refine absurd hd (h.not_declared hg hm hw ?_ hv)
      simp only [Bool.and_eq_true, bne_iff_ne] at hc
      exact hc.1
    · cases hc

end Program.Named

/-! ## 3. Simple expressions -/

/-- A use that is settled before and after the types are known. -/
def Finding.Known (a₀ a : Notes) (x : Finding) : Prop := x.Settled a₀ ∧ x.Settled a

section

variable {a : Notes} {vs vis : List VarDecl} {c : Context}

theorem TypeExpr.denote_of_word {t : TypeExpr} (h : t.ty = .int ∨ t.ty = .bool) :
    a.denote t = t.ty := by
  cases t with
  | prim _ _ => rfl
  | named _ _ => rcases h with h | h <;> cases h
  | array _ _ => rcases h with h | h <;> cases h

/-- A name of a simple expression stands for a variable in sight, of the type that is found. -/
theorem Notes.Simple.knows {i : Ident} (hr : c.forest.Reveals vs vis) (h : a.Simple vs i)
    (hu : (c.forest.use i .var).Known c.notes a) : a.Knows vis (c.nameRule i).type i := by
  obtain ⟨v, hv, hi, ht⟩ := h
  obtain ⟨d, hl, -, h₀⟩ := Forest.use_settled.mp hu.1
  obtain ⟨d', hl', -, h₁⟩ := Forest.use_settled.mp hu.2
  -- what was looked up is what is noted, a variable of the function
  obtain rfl : d = d' := Option.some.inj (hl.symm.trans hl')
  obtain ⟨d', e, hd⟩ := Option.bind_eq_some_iff.mp hi
  obtain rfl : d = d' := Option.some.inj (h₁.symm.trans e)
  obtain rfl : d = .var v := by
    cases d <;> cases hd
    rfl
  have e : (c.nameRule i).type = v.type.ty := by
    unfold Context.nameRule
    rw [h₀]
    exact TypeExpr.denote_of_word ht
  rw [e]
  exact ⟨ht, v, hr i.name v hv hl, hi, rfl⟩

theorem Verdict.given_faults {t : Ty} {b : Bool} {s : Span} {f : Fault} :
    (Verdict.given t b s f).faults = [] ↔ b = true := by
  cases b
  · exact ⟨nofun, nofun⟩
  · exact ⟨fun _ => rfl, fun _ => rfl⟩

/-- An operator that breaks no rule on ints and bools takes its operands. -/
theorem Context.binary_takes {s : Span} {op : BinaryOp} {l r : Ty} (hl : l = .int ∨ l = .bool)
    (hr : r = .int ∨ r = .bool) (hd : op ≠ .div) (hm : op ≠ .mod)
    (hf : (c.binaryRule s op l r).faults = []) :
    r = l ∧ op.Takes l (c.binaryRule s op l r).type := by
  have hd : (Code.Op.ofBinary op).divides = false := by
    cases op with
    | div => exact absurd rfl hd
    | mod => exact absurd rfl hm
    | _ => rfl
  unfold binaryRule at hf ⊢
  unfold BinaryOp.Takes
  cases ho : op.opClass with
  | arithmetic =>
    rw [ho] at hf
    have := Verdict.given_faults.mp hf
    -- of the four pairs of types only those that fit are left
    rcases hl with rfl | rfl <;> rcases hr with rfl | rfl
    · exact ⟨rfl, hd, rfl, rfl⟩
    all_goals cases this
  | relational =>
    rw [ho] at hf
    have := Verdict.given_faults.mp hf
    rcases hl with rfl | rfl <;> rcases hr with rfl | rfl
    · exact ⟨rfl, rfl, rfl⟩
    all_goals cases this
  | equality =>
    rw [ho] at hf
    have := Verdict.given_faults.mp hf
    rcases hl with rfl | rfl <;> rcases hr with rfl | rfl
    · exact ⟨rfl, .inl rfl, rfl⟩
    · cases this
    · cases this
    · exact ⟨rfl, .inr rfl, rfl⟩
  | logical =>
    rw [ho] at hf
    have := Verdict.given_faults.mp hf
    rcases hl with rfl | rfl <;> rcases hr with rfl | rfl
    · cases this
    · cases this
    · cases this
    · exact ⟨rfl, rfl, rfl⟩

/-- **A simple expression without a report is tame,** at the type that was found. -/
theorem Expr.Simple.tame (hr : c.forest.Reveals vs vis) : ∀ {e : Expr}, e.Simple a vs →
    (∀ x ∈ e.uses c.forest, x.Known c.notes a) → (e.check c).report.Clean a →
      e.Tame a vis (e.check c).type
  | .int n v, _, _, hk => ⟨(Verdict.clean_at.mp hk).2.2.1, rfl⟩
  | .bool n v, _, _, hk => ⟨(Verdict.clean_at.mp hk).2.2.1, rfl⟩
  | .name n i, h, hu, hk =>
    ⟨(Verdict.clean_at.mp hk).2.2.1, Notes.Simple.knows hr h (hu _ List.mem_cons_self)⟩
  | .unary n op x, h, hu, hk => by
    obtain ⟨hx, hf, ht, -⟩ := Verdict.clean_at.mp hk
    have ih := Expr.Simple.tame hr (e := x) h hu hx
    obtain ⟨-, e⟩ := ih.type_cases
    show Expr.Tame a vis (Context.unaryRule n.span op (x.check c).type).type (.unary n op x)
    -- the operand is an int or a bool, and the rule takes one of them
    generalize (x.check c).type = t at *
    cases op with
    | neg =>
      have := Verdict.given_faults.mp hf
      rcases e with rfl | rfl
      · exact ⟨ht, rfl, ih⟩
      · cases this
    | not =>
      have := Verdict.given_faults.mp hf
      rcases e with rfl | rfl
      · cases this
      · exact ⟨ht, rfl, ih⟩
  | .binary n op x y, ⟨hd, hm, hx, hy⟩, hu, hk => by
    obtain ⟨hxy, hf, ht, -⟩ := Verdict.clean_at.mp hk
    obtain ⟨hkx, hky⟩ := Report.clean_append.mp hxy
    have ihx := Expr.Simple.tame hr hx (fun z hz => hu z (List.mem_append_left _ hz)) hkx
    have ihy := Expr.Simple.tame hr hy (fun z hz => hu z (List.mem_append_right _ hz)) hky
    obtain ⟨e, ho⟩ := Context.binary_takes ihx.type_cases.2 ihy.type_cases.2 hd hm hf
    exact ⟨ht, _, ho, ihx, e ▸ ihy⟩

theorem Expr.SimpleSet.tame (hr : c.forest.Reveals vs vis) {e : Expr} (h : e.SimpleSet a vs)
    (hu : ∀ x ∈ e.uses c.forest, x.Known c.notes a) (hk : (e.check c).report.Clean a) :
    e.TameSet a vis := by
  unfold SimpleSet at h
  split at h
  · rename_i n k i x
    obtain ⟨hi, hx⟩ := h
    obtain ⟨hkt, hf, ht, -⟩ := Verdict.clean_at.mp hk
    obtain ⟨-, hkx⟩ := Report.clean_append.mp hkt
    have hu' := fun z hz => hu z (List.mem_append_right _ hz)
    have ihx := hx.tame hr hu' hkx
    have hn := hi.knows hr (hu _ (List.mem_append_left _ List.mem_cons_self))
    refine ⟨_, ht, hn, ?_⟩
    -- an int takes only an int, and a bool only a bool
    have e : (x.check c).type = (c.nameRule i).type := by
      have := Verdict.given_faults.mp hf
      have e₁ := ihx.type_cases.2
      have e₂ := hn.1
      generalize (x.check c).type = t at *
      have hn : ((Expr.name k i).check c).type = (c.nameRule i).type := rfl
      rw [hn] at this
      generalize (c.nameRule i).type = u at *
      rcases e₁ with rfl | rfl <;> rcases e₂ with rfl | rfl
      · rfl
      · cases this
      · cases this
      · rfl
    exact e ▸ ihx
  · exact h.elim

end

/-! ## 4. Simple statements -/

/-- The bools among the variables of a function. -/
def FnDecl.bools (g : FnDecl) (i : NodeId) : Prop := ∃ v ∈ g.vars, v.id = i ∧ v.type.ty = .bool

/-- The context stands in a function with these variables in sight. -/
structure Context.Inside (c : Context) (g : FnDecl) (vis : List VarDecl) : Prop where
  hasAll : c.forest.HasAll g.openings
  reveals : c.forest.Reveals g.vars vis

section

variable {a : Notes} {g : FnDecl} {vis : List VarDecl} {c : Context}

theorem Context.Inside.inBlock (h : c.Inside g vis) {n : Node} {ls : List VarDecl}
    (ho : ⟨n.id, .holding none (ls.map .var)⟩ ∈ g.openings) :
    (c.inBlock n).Inside g (ls ++ vis) := by
  obtain ⟨k, hk⟩ := h.hasAll _ ho
  have e : c.forest.enter n.id = c.forest.withOpen (k :: c.forest.inner) := hk.enter
  refine ⟨h.hasAll.enter hk, ?_⟩
  · show (c.forest.enter n.id).Reveals _ _
    rw [e]
    exact h.reveals.enter hk

theorem Expr.Simple.tame_test (h : c.Inside g vis) {e : Expr} (he : e.Simple a g.vars)
    (hu : ∀ x ∈ e.uses c.forest, x.Known c.notes a) (hk : (e.checkTest c).Clean a) :
    e.Tame a vis .bool := by
  obtain ⟨hk, hf⟩ := Report.clean_append.mp hk
  have ht := he.tame h.reveals hu hk
  have hf : Context.testFaults e.span (e.check c).type = [] := Report.clean_ofFaults.mp hf
  have e : (e.check c).type = .bool := by
    rcases ht.type_cases.2 with e | e
    · rw [e] at hf
      cases hf
    · exact e
  exact e ▸ ht

theorem Expr.SimpleSet.tame_opt (h : c.Inside g vis) {e : Option Expr}
    (he : ∀ x ∈ e, x.SimpleSet a g.vars)
    (hu : ∀ x ∈ Expr.usesOpt c.forest e, x.Known c.notes a) (hk : (Expr.checkOpt c e).Clean a) :
    ∀ x ∈ e, x.TameSet a vis := by
  intro x hx
  obtain rfl := Option.mem_def.mp hx
  exact (he x hx).tame h.reveals hu hk

mutual

/-- **A simple statement without a report is tame.** -/
theorem Stmt.tame (hT : ∀ v ∈ g.vars, g.bools v.id ↔ v.type.ty = .bool) : ∀ (s : Stmt)
    {c : Context} {vis : List VarDecl}, c.Inside g vis → s.openings ⊆ g.openings →
      (∀ x ∈ s.uses c.forest, x.Known c.notes a) → (s.check c).Clean a → s.Simple a g.vars →
      s.Tame a g.bools vis c.breakable
  | .block b, _, _, h, ho, hu, hk, hs => b.tame hT h ho hu hk hs
  -- each part of the statement was looked up and checked on its own
  | .ifThen _ t s, _, _, h, ho, hu, hk, hs => by
    obtain ⟨hkt, hks⟩ := Report.clean_append.mp hk
    exact ⟨hs.1.tame_test h (fun x hx => hu x (List.mem_append_left _ hx)) hkt,
      s.tame hT h ho (fun x hx => hu x (List.mem_append_right _ hx)) hks hs.2⟩
  | .ifElse _ t s o, _, _, h, ho, hu, hk, hs => by
    obtain ⟨hk, hko⟩ := Report.clean_append.mp hk
    obtain ⟨hkt, hks⟩ := Report.clean_append.mp hk
    obtain ⟨hos, hoo⟩ := List.append_subset.mp ho
    obtain ⟨hu, huo⟩ := List.forall_mem_append.mp hu
    obtain ⟨hut, hus⟩ := List.forall_mem_append.mp hu
    exact ⟨hs.1.tame_test h hut hkt, s.tame hT h hos hus hks hs.2.1,
      o.tame hT h hoo huo hko hs.2.2⟩
  | .while _ t s, c, _, h, ho, hu, hk, hs => by
    obtain ⟨hkt, hks⟩ := Report.clean_append.mp hk
    obtain ⟨hut, hus⟩ := List.forall_mem_append.mp hu
    exact ⟨hs.1.tame_test h hut hkt, s.tame hT (c := c.inBreakable) ⟨h.hasAll, h.reveals⟩ ho hus
      hks hs.2⟩
  | .for _ i t u s, c, _, h, ho, hu, hk, hs => by
    obtain ⟨hk, hks⟩ := Report.clean_append.mp hk
    obtain ⟨hk, hku⟩ := Report.clean_append.mp hk
    obtain ⟨hki, hkt⟩ := Report.clean_append.mp hk
    obtain ⟨hu, hus⟩ := List.forall_mem_append.mp hu
    obtain ⟨hu, huu⟩ := List.forall_mem_append.mp hu
    obtain ⟨hui, hut⟩ := List.forall_mem_append.mp hu
    obtain ⟨hsi, hst, hsu, hss⟩ := hs
    exact ⟨Expr.SimpleSet.tame_opt h hsi hui hki, hst.tame_test h hut hkt,
      Expr.SimpleSet.tame_opt h hsu huu hku,
      s.tame hT (c := c.inBreakable) ⟨h.hasAll, h.reveals⟩ ho hus hks hss⟩
  | .switch _ e cs, c, _, h, ho, hu, hk, hs => by
    obtain ⟨hke, hkc⟩ := Report.clean_append.mp hk
    obtain ⟨hue, huc⟩ := List.forall_mem_append.mp hu
    obtain ⟨hse, hd, hsc⟩ := hs
    exact ⟨⟨_, hse.tame h.reveals hue hke⟩, hd,
      Case.tame_all hT cs (c := c.inBreakable) ⟨h.hasAll, h.reveals⟩ rfl ho huc hkc hsc⟩
  | .break s, c, _, _, _, _, hk, _ => by
    have hf : c.breakFaults s = [] := Report.clean_ofFaults.mp hk
    show c.breakable = true
    unfold Context.breakFaults at hf
    cases hb : c.breakable with
    | true => rfl
    | false =>
      rw [hb] at hf
      cases hf
  | .ret _ e, _, _, h, _, hu, hk, hs => fun x hx => by
    obtain rfl := Option.mem_def.mp hx
    obtain ⟨hk, -⟩ := Report.clean_append.mp hk
    exact ⟨_, (hs x hx).tame h.reveals hu hk⟩
  | .expr e, _, _, h, _, hu, hk, hs => hs.tame h.reveals hu hk

theorem Block.tame (hT : ∀ v ∈ g.vars, g.bools v.id ↔ v.type.ty = .bool) : ∀ (b : Block)
    {c : Context} {vis : List VarDecl}, c.Inside g vis → b.openings ⊆ g.openings →
      (∀ x ∈ b.uses c.forest, x.Known c.notes a) → (b.check c).Clean a → b.Simple a g.vars →
      b.Tame a g.bools vis c.breakable
  | ⟨n, ls, ss⟩, c, _, h, ho, hu, hk, hs => by
    obtain ⟨ho, hos⟩ := List.cons_subset.mp ho
    refine ⟨fun v hv => hT v (FnDecl.mem_vars.mpr ⟨_, ho, List.mem_map_of_mem hv⟩), ?_⟩
    exact Stmt.tame_all hT ss (c := c.inBlock n) (h.inBlock ho) hos
      (fun x hx => hu x (List.mem_append_right _ hx)) hk hs

theorem Stmt.tame_all (hT : ∀ v ∈ g.vars, g.bools v.id ↔ v.type.ty = .bool) :
    ∀ (ss : List Stmt) {c : Context} {vis : List VarDecl}, c.Inside g vis →
      Stmt.openingsAll ss ⊆ g.openings → (∀ x ∈ Stmt.usesAll ss c.forest, x.Known c.notes a) →
      (Stmt.checkAll ss c).Clean a → Stmt.SimpleAll a g.vars ss →
      Stmt.TameAll a g.bools ss vis c.breakable
  | [], _, _, _, _, _, _, _ => trivial
  | s :: ss, _, _, h, ho, hu, hk, hs => by
    obtain ⟨hks, hkr⟩ := Report.clean_append.mp hk
    obtain ⟨hos, hor⟩ := List.append_subset.mp ho
    obtain ⟨hus, hur⟩ := List.forall_mem_append.mp hu
    exact ⟨s.tame hT h hos hus hks hs.1, Stmt.tame_all hT ss h hor hur hkr hs.2⟩

theorem Case.tame_all (hT : ∀ v ∈ g.vars, g.bools v.id ↔ v.type.ty = .bool) :
    ∀ (cs : List Case) {c : Context} {vis : List VarDecl}, c.Inside g vis → c.breakable = true →
      Case.openingsAll cs ⊆ g.openings → (∀ x ∈ Case.usesAll cs c.forest, x.Known c.notes a) →
      (Case.checkAll cs c).Clean a → Case.SimpleAll a g.vars cs →
      Case.TameAll a g.bools cs vis
  | [], _, _, _, _, _, _, _, _ => trivial
  | ⟨_, ss⟩ :: cs, _, _, h, hb, ho, hu, hk, hs => by
    obtain ⟨hks, hkr⟩ := Report.clean_append.mp hk
    obtain ⟨hos, hor⟩ := List.append_subset.mp ho
    obtain ⟨hus, hur⟩ := List.forall_mem_append.mp hu
    have := Stmt.tame_all hT ss h hos hus hks hs.1
    -- inside a switch a break may stand
    rw [hb] at this
    exact ⟨this, Case.tame_all hT cs h hb hor hur hkr hs.2⟩

end

end

/-! ## 5. Clean programs -/

/-- **The pieces of the program have numbers of their own, and the checks have nothing to say.** -/
structure Program.Clean (p : Program) : Prop where
  numbered : p.Numbered
  clean : p.analyze.diagnostics = []

theorem Report.clean_check_all {h : Hierarchy} {a₀ a : Notes} {f : Forest} {ds : List Decl}
    (hk : (Decl.checkAll h a₀ f ds).Clean a) : ∀ d ∈ ds, (d.check h a₀ f).Clean a := by
  induction ds with
  | nil => exact nofun
  | cons d ds ih =>
    obtain ⟨hd, hr⟩ := Report.clean_append.mp hk
    exact List.forall_mem_cons.mpr ⟨hd, ih hr⟩

theorem Report.clean_check_fns {h : Hierarchy} {a₀ a : Notes} {f : Forest} {gs : List FnDecl}
    (hk : (FnDecl.checkAll gs h a₀ f).Clean a) : ∀ g ∈ gs, (g.check h a₀ f).Clean a := by
  induction gs with
  | nil => exact nofun
  | cons g gs ih =>
    obtain ⟨hg, hr⟩ := Report.clean_append.mp hk
    exact List.forall_mem_cons.mpr ⟨hg, ih hr⟩

namespace Program

variable {p : Program} {cls : Option ClassDecl} {g : FnDecl}

theorem Clean.named (h : p.Clean) : p.Named := by
  have := h.clean
  unfold Analysis.diagnostics at this
  simp only [List.append_eq_nil_iff] at this
  exact ⟨h.numbered, this.1.1.1, this.1.1.2⟩

theorem Clean.typed (h : p.Clean) : p.analyze.typed.report.Clean p.analyze.notes := by
  have := h.clean
  unfold Analysis.diagnostics at this
  exact ⟨(List.append_eq_nil_iff.mp this).2, h.named.numbered.kept⟩

/-- The names in a function are looked up where the function stands. -/
theorem uses_subset (hg : (cls, g) ∈ p.functions) :
    g.uses (p.around cls) ⊆ p.findings p.scopes := by
  intro x hx
  refine List.mem_flatMap.mpr ?_
  rcases mem_functions.mp hg with ⟨rfl, hd⟩ | ⟨c, rfl, hd, hm⟩
  · exact ⟨_, hd, List.mem_append_left _ hx⟩
  · exact ⟨_, hd, List.mem_append_right _
      (List.mem_flatMap.mpr ⟨_, ClassDecl.mem_methods.mp hm, hx⟩)⟩

namespace Named

/-- The body of a function is checked where the function stands. -/
theorem check_clean (h : p.Named) (hg : (cls, g) ∈ p.functions) {a : Notes}
    (hk : p.analyze.typed.report.Clean a) :
    (g.check p.analyze.hierarchy p.analyze.resolved.notes (p.around cls)).Clean a := by
  rw [h.numbered.report_eq] at hk
  have hk := Report.clean_check_all hk
  rcases mem_functions.mp hg with ⟨rfl, hd⟩ | ⟨c, rfl, hd, hm⟩
  · exact hk _ hd
  · exact Report.clean_check_fns (hk _ hd) g hm

/-- The surroundings of a body: the scope of the function, and what is around it. -/
theorem inside (h : p.Named) (hg : (cls, g) ∈ p.functions) {c : Context}
    (hc : c.forest = (p.around cls).enterFn g) : c.Inside g g.formals := by
  obtain ⟨k, hk, ef⟩ := h.scope_of_fn hg
  have hr := (h.reveals hg).enter hk
  rw [List.append_nil] at hr
  refine ⟨fun o ho => ?_, ?_⟩
  · rw [hc, ef]
    exact h.around_hasAll hg o ho
  · rw [hc, ef]
    exact hr

theorem bools_iff (h : p.Named) (hg : (cls, g) ∈ p.functions) :
    ∀ v ∈ g.vars, g.bools v.id ↔ v.type.ty = .bool := by
  intro v hv
  refine ⟨fun ⟨u, hu, e, ht⟩ => ?_, fun ht => ⟨v, hv, rfl, ht⟩⟩
  -- two variables of one number lie in one scope and are one
  have hn := (List.nodup_append.mp h.numbered.nodup_declared).2.1
  obtain ⟨o, ho, hd⟩ := FnDecl.mem_vars.mp hu
  obtain ⟨o', ho', hd'⟩ := FnDecl.mem_vars.mp hv
  have hm := (openings_sublist hg).subset ho
  have e : (Decl.var u).id = (Decl.var v).id := e
  have hi := List.mem_map_of_mem (f := Decl.id) hd'
  rw [← e] at hi
  have hm' := (openings_sublist hg).subset ho'
  obtain rfl := eq_of_mem_flatMap hn hm hm' (List.mem_map_of_mem hd) hi
  have := List.inj_on_of_nodup_map ((List.nodup_flatMap.mp hn).1 o hm) hd hd' e
  cases this
  exact ht

end Named

/-- **A simple body of a clean program is tame.** -/
theorem Clean.tame (h : p.Clean) (hg : (cls, g) ∈ p.functions) {b : Block} (hb : g.body = some b)
    (hs : b.Simple p.analyze.notes g.vars) :
    b.Tame p.analyze.notes g.bools g.formals false := by
  have hk := h.named.check_clean hg h.typed
  have hu : ∀ x ∈ Block.usesOpt g.body ((p.around cls).enterFn g),
      x.Known p.analyze.resolved.notes p.analyze.notes := fun x hx =>
    h.named.settled x (uses_subset hg (List.mem_append_right _ hx))
  unfold FnDecl.check at hk
  rw [hb] at hk hu
  -- where the body is checked
  let c : Context := ⟨(p.around cls).enterFn g, p.analyze.resolved.notes, p.analyze.hierarchy,
    p.analyze.resolved.notes.denote g.result, false⟩
  refine Block.tame (h.named.bools_iff hg) b (c := c) (h.named.inside hg rfl) (fun o ho => ?_) hu
    hk hs
  refine List.mem_cons_of_mem _ ?_
  rw [hb]
  exact ho

end Program

end DecafLang
