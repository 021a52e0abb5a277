import DecafLang.Check.Types

/-!
# The rules of types

What types the expressions of the language have, and what statements are well typed.

* The rules depend on what names stand for, on the hierarchy and on the class around
  (`Rules`). A variable has the type that is written in its declaration.
* `HasType` gives no type to an expression that breaks a rule: `Ty.error` is no type
  (`Expr.HasType.proper`).
* **A rule of the checker breaks nothing and gives a type exactly if the rule of the language does,
  as long as the parts have types.** There is one lemma for each rule.
-/

namespace DecafLang

/-! ## 1. The rules -/

/-- What the typing rules depend on. -/
structure Rules where
  /-- What the names stand for that are used without a base. -/
  notes : Notes
  hierarchy : Hierarchy
  /-- The member of a class or an interface, its own or inherited. -/
  member? : String → String → Option Decl
  /-- The name of the class around. -/
  cls? : Option String

namespace Rules

/-- A value of one type may stand where another is required. -/
def Accepts (r : Rules) (expected given : Ty) : Prop := r.hierarchy.accepts expected given = true

end Rules

/-- The types that an operator takes, and the one that it gives. -/
def BinaryOp.HasType (r : Rules) (op : BinaryOp) (u v t : Ty) : Prop :=
  match op.opClass with
  | .arithmetic => (u = .int ∧ v = .int ∧ t = .int) ∨ (u = .double ∧ v = .double ∧ t = .double)
  | .relational => ((u = .int ∧ v = .int) ∨ (u = .double ∧ v = .double)) ∧ t = .bool
  | .equality => (r.Accepts u v ∨ r.Accepts v u) ∧ t = .bool
  | .logical => u = .bool ∧ v = .bool ∧ t = .bool

/-- The type that an operator takes and gives. -/
def UnaryOp.HasType (op : UnaryOp) (u t : Ty) : Prop :=
  match op with
  | .neg => (u = .int ∨ u = .double) ∧ t = u
  | .not => u = .bool ∧ t = .bool

mutual

/-- **The type of an expression.** -/
def Expr.HasType (r : Rules) : Expr → Ty → Prop
  | .int _ _, t => t = .int
  | .double _, t => t = .double
  | .bool _ _, t => t = .bool
  | .string _ _, t => t = .string
  | .null _, t => t = .null
  | .this _, t => ∃ c, r.cls? = some c ∧ t = .named c
  | .readInteger _, t => t = .int
  | .readLine _, t => t = .string
  | .binary _ op x y, t => ∃ u v, x.HasType r u ∧ y.HasType r v ∧ op.HasType r u v t
  | .unary _ op x, t => ∃ u, x.HasType r u ∧ op.HasType u t
  | .step _ _ x, t => x.HasType r .int ∧ t = .int
  | .assign _ x y, t => ∃ v, x.HasType r t ∧ y.HasType r v ∧ r.Accepts t v
  | .index _ x y, t => x.HasType r (.array t) ∧ y.HasType r .int
  | .name _ i, t => ∃ v, r.notes.decl? i = some (.var v) ∧ t = v.type.ty
  | .field _ x i, t =>
    -- in sight only inside a related class that has a field of that name
    ∃ c d u v, x.HasType r (.named c) ∧ r.member? c i.name = some (.var u) ∧ r.cls? = some d ∧
      r.member? d i.name = some (.var v) ∧
      (r.Accepts (.named d) (.named c) ∨ r.Accepts (.named c) (.named d)) ∧ t = v.type.ty
  | .call _ i args, t =>
    ∃ g, r.notes.decl? i = some (.fn g) ∧ Expr.Fit r g.formals args ∧ t = g.result.ty
  | .send _ x i args, t => ∃ u, x.HasType r u ∧
      ((u.isArray = true ∧ i.name = "length" ∧ args = [] ∧ t = .int) ∨
        ∃ c g, u = .named c ∧ r.member? c i.name = some (.fn g) ∧ Expr.Fit r g.formals args ∧
          t = g.result.ty)
  | .new _ i, t => (∃ c, r.notes.decl? i = some (.cls c)) ∧ t = .named i.name
  | .newArray _ x e, t => x.HasType r .int ∧ t = .array e.ty

/-- The arguments fit the formals, one by one. -/
def Expr.Fit (r : Rules) : List VarDecl → List Expr → Prop
  | [], [] => True
  | v :: vs, e :: es => (∃ u, e.HasType r u ∧ r.Accepts v.type.ty u) ∧ Expr.Fit r vs es
  | _, _ => False

end

mutual

/-- A statement of a function that gives the type `res`, with something to leave by a `break`
or not. -/
def Stmt.WellTyped (r : Rules) (res : Ty) : Stmt → Bool → Prop
  | .block b, br => b.WellTyped r res br
  | .ifThen _ t s, br => t.HasType r .bool ∧ s.WellTyped r res br
  | .ifElse _ t s o, br => t.HasType r .bool ∧ s.WellTyped r res br ∧ o.WellTyped r res br
  | .while _ t s, _ => t.HasType r .bool ∧ s.WellTyped r res true
  | .for _ i t u s, _ => (∀ e ∈ i, ∃ t, e.HasType r t) ∧ t.HasType r .bool ∧
      (∀ e ∈ u, ∃ t, e.HasType r t) ∧ s.WellTyped r res true
  | .switch _ e cs, _ => (∃ t, e.HasType r t) ∧ Case.WellTypedAll r res cs
  | .break _, br => br = true
  | .ret _ none, _ => r.Accepts res .void
  | .ret _ (some e), _ => ∃ t, e.HasType r t ∧ r.Accepts res t
  | .print _ es, _ => ∀ e ∈ es, e.HasType r .int ∨ e.HasType r .bool ∨ e.HasType r .string
  | .expr e, _ => ∃ t, e.HasType r t

/-- A block of such statements. -/
def Block.WellTyped (r : Rules) (res : Ty) : Block → Bool → Prop
  | ⟨_, _, ss⟩, br => Stmt.WellTypedAll r res ss br

/-- An arm of such statements. -/
def Case.WellTyped (r : Rules) (res : Ty) : Case → Prop
  | ⟨_, ss⟩ => Stmt.WellTypedAll r res ss true

/-- Several such statements. -/
def Stmt.WellTypedAll (r : Rules) (res : Ty) : List Stmt → Bool → Prop
  | [], _ => True
  | s :: ss, br => s.WellTyped r res br ∧ Stmt.WellTypedAll r res ss br

/-- Several such arms. -/
def Case.WellTypedAll (r : Rules) (res : Ty) : List Case → Prop
  | [] => True
  | c :: cs => c.WellTyped r res ∧ Case.WellTypedAll r res cs

end

/-! ## 2. Types of values -/

/-- The type of a value: `Ty.error` stands nowhere in it. -/
def Ty.Proper : Ty → Prop
  | .error => False
  | .array t => t.Proper
  | _ => True

/-- A type of a value is no error, … -/
theorem Ty.Proper.ne_error {t : Ty} (h : t.Proper) : t ≠ .error := by
  intro e
  subst e
  exact h

/-- … and the checker does not take it for one. -/
theorem Ty.Proper.isError {t : Ty} (h : t.Proper) : t.isError = false := by
  cases t with
  | error => exact h.elim
  | _ => rfl

/-- What is written is the type of a value. -/
theorem TypeExpr.proper : ∀ t : TypeExpr, t.ty.Proper
  | .prim _ p => by cases p <;> trivial
  | .named _ _ => trivial
  | .array _ t => t.proper

/-- What an operator gives is the type of a value. -/
theorem BinaryOp.HasType.proper {r : Rules} {op : BinaryOp} {u v t : Ty}
    (h : op.HasType r u v t) : t.Proper := by
  unfold HasType at h
  split at h
  · rcases h with ⟨-, -, rfl⟩ | ⟨-, -, rfl⟩ <;> trivial
  · obtain ⟨-, rfl⟩ := h
    trivial
  · obtain ⟨-, rfl⟩ := h
    trivial
  · obtain ⟨-, -, rfl⟩ := h
    trivial

/-- So it is for operators in front of one operand. -/
theorem UnaryOp.HasType.proper {op : UnaryOp} {u t : Ty} (h : op.HasType u t) : t.Proper := by
  cases op with
  | neg =>
    obtain ⟨rfl | rfl, rfl⟩ := h <;> trivial
  | not =>
    obtain ⟨-, rfl⟩ := h
    trivial

/-- **An expression has a type only if it breaks no rule.** -/
theorem Expr.HasType.proper {r : Rules} : ∀ {e : Expr} {t : Ty}, e.HasType r t → t.Proper
  -- by cases on the expression: the type is a fixed one, is written, or comes from an operand
  | .int _ _, _, h => by obtain rfl := h; trivial
  | .double _, _, h => by obtain rfl := h; trivial
  | .bool _ _, _, h => by obtain rfl := h; trivial
  | .string _ _, _, h => by obtain rfl := h; trivial
  | .null _, _, h => by obtain rfl := h; trivial
  | .this _, _, ⟨_, _, h⟩ => by obtain rfl := h; trivial
  | .readInteger _, _, h => by obtain rfl := h; trivial
  | .readLine _, _, h => by obtain rfl := h; trivial
  | .binary _ _ _ _, _, ⟨_, _, _, _, h⟩ => h.proper
  | .unary _ _ _, _, ⟨_, _, h⟩ => h.proper
  | .step _ _ _, _, ⟨_, h⟩ => by obtain rfl := h; trivial
  | .assign _ _ _, _, ⟨_, h, _⟩ => proper h
  | .index _ _ _, t, ⟨h, _⟩ => by
    have : (Ty.array t).Proper := proper h
    exact this
  | .name _ _, _, ⟨v, _, h⟩ => h ▸ v.type.proper
  | .field _ _ _, _, ⟨_, _, _, v, _, _, _, _, _, h⟩ => h ▸ v.type.proper
  | .call _ _ _, _, ⟨g, _, _, h⟩ => h ▸ g.result.proper
  | .send _ _ _ _, _, ⟨_, _, h⟩ => by
    rcases h with ⟨-, -, -, rfl⟩ | ⟨_, g, -, -, -, rfl⟩
    · trivial
    · exact g.result.proper
  | .new _ _, _, ⟨_, h⟩ => by obtain rfl := h; trivial
  | .newArray _ _ e, _, ⟨_, h⟩ => h ▸ e.proper

/-! ## 3. The rules of the checker -/

/-- Nothing is wrong, and this is the type. -/
def Verdict.Gives (v : Verdict) (t : Ty) : Prop := v.faults = [] ∧ v.type = t

/-- Where all is well, the verdict gives its type and no other. -/
theorem Verdict.ok_gives {u t : Ty} : (Verdict.ok u).Gives t ↔ t = u :=
  ⟨fun h => h.2.symm, fun h => ⟨rfl, h.symm⟩⟩

/-- A verdict on a condition gives its type where the condition holds. -/
theorem Verdict.given_gives {u t : Ty} {b : Bool} {s : Span} {f : Fault} :
    (Verdict.given u b s f).Gives t ↔ b = true ∧ t = u := by
  unfold Gives
  cases b
  · exact ⟨nofun, nofun⟩
  · exact ⟨fun h => ⟨rfl, h.2.symm⟩, fun h => ⟨rfl, h.2.symm⟩⟩

/-- The type of the operands, which is none if they break the rule. -/
theorem Verdict.given_ite_gives {u t : Ty} {b : Bool} {s : Span} {f : Fault} :
    (Verdict.given (if b then u else .error) b s f).Gives t ↔ b = true ∧ t = u := by
  rw [given_gives]
  refine and_congr_right fun h => ?_
  rw [if_pos h]

/-- A broken rule gives no type. -/
theorem Verdict.broken_gives {s : Span} {f : Fault} {t : Ty} : ¬ (Verdict.broken s f).Gives t :=
  fun h => nomatch h.1

/-- **Numbers go with numbers of their kind.** -/
theorem Ty.numeric_iff {u v : Ty} :
    u.numeric v = true ↔ (u = .int ∧ v = .int) ∨ (u = .double ∧ v = .double) := by
  constructor
  · intro h
    unfold numeric at h
    split at h
    · exact .inl ⟨rfl, rfl⟩
    · exact .inr ⟨rfl, rfl⟩
    · cases h
  · intro h
    rcases h with ⟨rfl, rfl⟩ | ⟨rfl, rfl⟩
    · rfl
    · rfl

-- Each rule of the checker is compared with the one of the language. The parts have types, so that
-- the rule is not silent about a mistake that was reported already.
namespace Context

variable {c : Context} {r : Rules} {s : Span} {u v t : Ty}

/-- The rule of the operators between two operands. -/
theorem binary_gives {op : BinaryOp} (hc : c.hierarchy = r.hierarchy) (hu : u.Proper)
    (hv : v.Proper) : (c.binaryRule s op u v).Gives t ↔ op.HasType r u v t := by
  unfold binaryRule BinaryOp.HasType
  simp only [hu.isError, hv.isError, Bool.or_false]
  cases op.opClass with
  -- only here does the type that is given depend on the operands
  | arithmetic =>
    rw [Verdict.given_ite_gives, Ty.numeric_iff]
    constructor
    · intro h
      rcases h with ⟨⟨rfl, rfl⟩ | ⟨rfl, rfl⟩, rfl⟩
      · exact .inl ⟨rfl, rfl, rfl⟩
      · exact .inr ⟨rfl, rfl, rfl⟩
    · intro h
      rcases h with ⟨rfl, rfl, rfl⟩ | ⟨rfl, rfl, rfl⟩
      · exact ⟨.inl ⟨rfl, rfl⟩, rfl⟩
      · exact ⟨.inr ⟨rfl, rfl⟩, rfl⟩
  | relational => rw [Verdict.given_gives, Ty.numeric_iff]
  | equality =>
    rw [Verdict.given_gives, Bool.or_eq_true]
    unfold Rules.Accepts accepts
    rw [hc]
  | logical => rw [Verdict.given_gives, Bool.and_eq_true, beq_iff_eq, beq_iff_eq, and_assoc]

/-- The rule of the operators in front of one. -/
theorem unary_gives {op : UnaryOp} (hu : u.Proper) :
    (unaryRule s op u).Gives t ↔ op.HasType u t := by
  unfold unaryRule UnaryOp.HasType
  simp only [hu.isError, Bool.or_false]
  cases op with
  | neg =>
    rw [Verdict.given_ite_gives, Bool.or_eq_true, beq_iff_eq, beq_iff_eq]
  | not => rw [Verdict.given_gives, beq_iff_eq]

/-- A step is for whole numbers alone. -/
theorem step_gives {op : StepOp} (hu : u.Proper) :
    (stepRule s op u).Gives t ↔ u = .int ∧ t = .int := by
  unfold stepRule
  split
  · rw [Verdict.ok_gives]
    exact ⟨fun h => ⟨rfl, h⟩, fun h => h.2⟩
  · exact hu.elim
  · rename_i h _
    exact ⟨fun h => (Verdict.broken_gives h).elim, fun e => absurd e.1 h⟩

/-- What is assigned has to be accepted. -/
theorem assign_gives (hc : c.hierarchy = r.hierarchy) :
    (c.assignRule s u v).Gives t ↔ r.Accepts u v ∧ t = u := by
  unfold assignRule accepts Rules.Accepts
  rw [Verdict.given_gives, hc]

/-- What has to be a whole number is one. -/
theorem int_faults {f : Fault} (hu : u.Proper) : intFaults s f u = [] ↔ u = .int := by
  unfold intFaults
  rw [hu.isError, Bool.or_false]
  split
  · rename_i h
    exact ⟨fun _ => by simpa using h, fun _ => rfl⟩
  · rename_i h
    exact ⟨nofun, fun e => absurd (beq_iff_eq.mpr e) h⟩

/-- The rule of elements. -/
theorem index_gives {s' : Span} (hu : u.Proper) (hv : v.Proper) :
    (indexRule s s' u v).Gives t ↔ u = .array t ∧ v = .int := by
  unfold indexRule Verdict.Gives
  split
  · rw [int_faults hv, Ty.array.injEq]
    exact and_comm
  · exact hu.elim
  · rename_i h _
    constructor
    · intro h
      obtain ⟨h, -⟩ := h
      exact absurd h (by simp)
    · intro h
      obtain ⟨e, -⟩ := h
      exact absurd e (h t)

/-- The rule of new arrays. -/
theorem newArray_gives {e : TypeExpr} (he : c.notes.denote e = e.ty) (hu : u.Proper) :
    (c.newArrayRule s u e).Gives t ↔ u = .int ∧ t = .array e.ty := by
  unfold newArrayRule Verdict.Gives
  rw [he]
  split
  · rename_i h
    exact absurd h e.proper.ne_error
  · rw [int_faults hu, eq_comm (a := t)]

end Context

end DecafLang
