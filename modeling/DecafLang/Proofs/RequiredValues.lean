import DecafLang.Proofs.CheckedExpressions

/-!
# Required values

An operator needs the values of its operands, a test needs a truth value, and an assignment needs
something that can be assigned to. `Need` says of what expression, and what for; every place in a
program where something is needed is one of `Program.needs`.

* An expression has the type `void` without having a value if it is a call of a function without a
  result (`Expr.Valueless`). A variable of the type `void` has one.
* **The checker keeps something of the type `void` from most places where a value is needed, but
  not from all** (`Purpose.Lax`): it may be compared with something of its kind, assigned to such a
  variable, given for such a formal or by such a function, and the scrutinee of a `switch` may be
  anything.
* Where classes are nested the type of what it meets may be unknown, and then anything goes
  (`Purpose.Vague`).
-/

namespace DecafLang

/-! ## 1. Needs -/

/-- What an expression is needed for. -/
inductive Purpose where
  /-- An operand, next to another one. -/
  | operand (op : BinaryOp) (other : Expr)
  /-- The operand behind an operator. -/
  | operandOf (op : UnaryOp)
  /-- The variable in front of an operator. -/
  | stepped (op : StepOp)
  /-- The variable that a value is assigned to. -/
  | assignee (value : Expr)
  /-- The value that is assigned to a variable. -/
  | assigned (target : Expr)
  /-- The object whose field is meant. -/
  | base
  /-- The object, or the array, in front of a call. -/
  | receiver (method : Ident) (args : List Expr)
  /-- The argument of a call in a position, counted from zero. -/
  | argument (call : Expr) (callee : Ident) (k : Nat)
  | array
  | subscript
  | size
  | test
  | scrutinee
  | printed
  /-- What a function gives that is declared with this type. -/
  | returned (result : TypeExpr)

/-- An expression that something is needed of. -/
structure Need where
  purpose : Purpose
  expr : Expr

mutual

/-- What is needed inside an expression. -/
def Expr.needs : Expr → List Need
  | .binary _ op x y => (⟨.operand op y, x⟩ :: x.needs) ++ (⟨.operand op x, y⟩ :: y.needs)
  | .unary _ op x => ⟨.operandOf op, x⟩ :: x.needs
  | .step _ op x => ⟨.stepped op, x⟩ :: x.needs
  | .assign _ x y => (⟨.assignee y, x⟩ :: x.needs) ++ (⟨.assigned x, y⟩ :: y.needs)
  | .index _ x y => (⟨.array, x⟩ :: x.needs) ++ (⟨.subscript, y⟩ :: y.needs)
  | .field _ x _ => ⟨.base, x⟩ :: x.needs
  | .call n i args => Expr.argNeeds (.call n i args) i 0 args
  | .send n x i args =>
    (⟨.receiver i args, x⟩ :: x.needs) ++ Expr.argNeeds (.send n x i args) i 0 args
  | .newArray _ x _ => ⟨.size, x⟩ :: x.needs
  | _ => []

/-- What is needed for the arguments of a call, from a position on. -/
def Expr.argNeeds (call : Expr) (i : Ident) : Nat → List Expr → List Need
  | _, [] => []
  | k, e :: es => (⟨.argument call i k, e⟩ :: e.needs) ++ Expr.argNeeds call i (k + 1) es

end

/-- What is needed inside an expression that may be missing. -/
def Expr.needsOpt : Option Expr → List Need
  | none => []
  | some e => e.needs

/-- What is needed to print expressions. -/
def Expr.printNeeds : List Expr → List Need
  | [] => []
  | e :: es => (⟨.printed, e⟩ :: e.needs) ++ Expr.printNeeds es

/-- What is needed of a value that a function gives, if there is one. -/
def Expr.returnNeeds (t : TypeExpr) : Option Expr → List Need
  | none => []
  | some e => ⟨.returned t, e⟩ :: e.needs

mutual

/-- What is needed inside a statement of a function that is declared with a type. -/
def Stmt.needs (t : TypeExpr) : Stmt → List Need
  | .block b => b.needs t
  | .ifThen _ e s => (⟨.test, e⟩ :: e.needs) ++ s.needs t
  | .ifElse _ e s o => (⟨.test, e⟩ :: e.needs) ++ s.needs t ++ o.needs t
  | .while _ e s => (⟨.test, e⟩ :: e.needs) ++ s.needs t
  | .for _ i e u s => Expr.needsOpt i ++ (⟨.test, e⟩ :: e.needs) ++ s.needs t ++ Expr.needsOpt u
  | .switch _ e cs => (⟨.scrutinee, e⟩ :: e.needs) ++ Case.needsAll t cs
  | .break _ => []
  | .ret _ e => Expr.returnNeeds t e
  | .print _ es => Expr.printNeeds es
  | .expr e => e.needs

/-- What is needed inside a block. -/
def Block.needs (t : TypeExpr) : Block → List Need
  | ⟨_, _, ss⟩ => Stmt.needsAll t ss

/-- What is needed inside an arm. -/
def Case.needs (t : TypeExpr) : Case → List Need
  | ⟨_, ss⟩ => Stmt.needsAll t ss

/-- What is needed inside several statements. -/
def Stmt.needsAll (t : TypeExpr) : List Stmt → List Need
  | [] => []
  | s :: ss => s.needs t ++ Stmt.needsAll t ss

/-- What is needed inside several arms. -/
def Case.needsAll (t : TypeExpr) : List Case → List Need
  | [] => []
  | c :: cs => c.needs t ++ Case.needsAll t cs

end

/-- What is needed inside a body that may be missing. -/
def Block.needsOpt (t : TypeExpr) : Option Block → List Need
  | none => []
  | some b => b.needs t

/-- What is needed inside a function. -/
def FnDecl.needs (g : FnDecl) : List Need := Block.needsOpt g.result g.body

/-- What is needed inside the functions of a declaration. -/
def Decl.needs : Decl → List Need
  | .fn g => g.needs
  | .cls c => c.methods.flatMap FnDecl.needs
  | _ => []

/-- Everything that is needed in a program. -/
def Program.needs (p : Program) : List Need := p.decls.flatMap Decl.needs

/-- **The needs of a program are those of the bodies of its functions.** -/
theorem Program.mem_needs {p : Program} {x : Need} :
    x ∈ p.needs ↔ ∃ cls g b, (cls, g) ∈ p.functions ∧ g.body = some b ∧ x ∈ b.needs g.result := by
  have body : ∀ g : FnDecl, x ∈ g.needs ↔ ∃ b, g.body = some b ∧ x ∈ b.needs g.result := by
    intro g
    unfold FnDecl.needs
    cases g.body with
    | none => exact ⟨nofun, fun ⟨_, h, _⟩ => nomatch h⟩
    | some b => exact ⟨fun h => ⟨b, rfl, h⟩, fun ⟨_, e, h⟩ => by cases e; exact h⟩
  unfold Program.needs
  rw [List.mem_flatMap]
  constructor
  · intro ⟨d, hd, hx⟩
    cases d with
    | fn g =>
      obtain ⟨b, hb, hx⟩ := (body g).mp hx
      exact ⟨none, g, b, Program.mem_functions.mpr (.inl ⟨rfl, hd⟩), hb, hx⟩
    | cls c =>
      obtain ⟨g, hg, hx⟩ := List.mem_flatMap.mp hx
      obtain ⟨b, hb, hx⟩ := (body g).mp hx
      exact ⟨some c, g, b, Program.mem_functions.mpr (.inr ⟨c, rfl, hd, hg⟩), hb, hx⟩
    | var _ => cases hx
    | iface _ => cases hx
  · intro ⟨cls, g, b, hg, hb, hx⟩
    rcases Program.mem_functions.mp hg with ⟨-, hd⟩ | ⟨c, -, hd, hm⟩
    · exact ⟨.fn g, hd, (body g).mpr ⟨b, hb, hx⟩⟩
    · exact ⟨.cls c, hd, List.mem_flatMap.mpr ⟨g, hm, (body g).mpr ⟨b, hb, hx⟩⟩⟩

/-! ## 2. No value, and the places where the checker does not mind -/

/-- A call. -/
def Expr.IsCall : Expr → Prop
  | .call _ _ _ => True
  | .send _ _ _ _ => True
  | _ => False

instance : DecidablePred Expr.IsCall
  | .call _ _ _ | .send _ _ _ _ => .isTrue trivial
  | .int _ _ | .double _ | .bool _ _ | .string _ _ | .null _ | .this _ | .readInteger _
  | .readLine _ | .binary _ _ _ _ | .unary _ _ _ | .step _ _ _ | .assign _ _ _ | .index _ _ _
  | .name _ _ | .field _ _ _ | .new _ _ | .newArray _ _ _ => .isFalse not_false

/-- The length of an array is asked for. -/
def Expr.isLength (a : Notes) (b : Expr) (i : Ident) : Bool :=
  (a.typeOf b).isArray && i.name == "length"

/-- A name stands for a function without a result. -/
def Notes.Silent (a : Notes) (i : Ident) : Prop :=
  ∃ g, a.fn? i = some g ∧ a.denote g.result = .void

/-- An expression that has no value: a call of a function without a result. -/
def Expr.Valueless (a : Notes) : Expr → Prop
  | .call _ i _ => a.Silent i
  | .send _ b i _ => b.isLength a i = false ∧ a.Silent i
  | _ => False

/-- Where something of the type `void` is accepted. -/
def Purpose.Lax (a : Notes) : Purpose → Prop
  | .operand op other => op.opClass = .equality ∧ a.typeOf other = .void
  | .assignee value => a.typeOf value = .void
  | .assigned target => a.typeOf target = .void
  | .argument _ callee k =>
    ∃ g v, a.fn? callee = some g ∧ g.formals[k]? = some v ∧ v.type.ty = .void
  | .scrutinee => True
  | .returned result => result.ty = .void
  | _ => False

/-- What the expression meets has no known type. Declared types are read by the first notes. -/
def Purpose.Vague (a₀ a : Notes) : Purpose → Prop
  | .operand _ other => a.typeOf other = .error
  | .assignee value => a.typeOf value = .error
  | .assigned target => a.typeOf target = .error
  | .argument call callee k => a.typeOf call = .error ∨
      ∃ g v, a.fn? callee = some g ∧ g.formals[k]? = some v ∧ a₀.denote v.type = .error
  | .returned result => a₀.denote result = .error
  | _ => False

/-- The length of an array takes no arguments. -/
def Need.Plain (a : Notes) (x : Need) : Prop :=
  match x.purpose with
  | .receiver i args => x.expr.isLength a i = true → args = []
  | _ => True

/-! ## 3. Rules that meet `void` -/

/-- A type denotes `void` only where it says so. -/
theorem Notes.denote_eq_void {a : Notes} {t : TypeExpr} : a.denote t = .void ↔ t.ty = .void := by
  cases t with
  | prim _ _ => exact Iff.rfl
  | named n i =>
    have : a.denote (.named n i) ≠ .void := by
      unfold denote
      split
      · split <;> simp
      · simp
    exact ⟨fun h => absurd h this, fun h => by cases h⟩
  | array n t =>
    have : a.denote (.array n t) ≠ .void := by
      unfold denote
      split <;> simp
    exact ⟨fun h => absurd h this, fun h => by cases h⟩

/-- Only `void` takes something of the type `void`, and an unknown type takes anything. -/
theorem Hierarchy.accepts_void {h : Hierarchy} {t : Ty} :
    h.accepts t .void = true ↔ t = .void ∨ t = .error := by
  cases t <;> simp [accepts]

/-- Where `void` is asked for, nothing else is taken. -/
theorem Hierarchy.void_accepts {h : Hierarchy} {t : Ty} :
    h.accepts .void t = true ↔ t = .void ∨ t = .error := by
  cases t <;> simp [accepts]

namespace Context

variable {c : Context} {s : Span} {t u : Ty}

/-- **An operator takes `void` only to compare it with `void`,** or next to what is unknown. -/
theorem binary_void {op : BinaryOp} (h : (c.binaryRule s op t u).faults = []) :
    (t = .void → (op.opClass = .equality ∧ u = .void) ∨ u = .error) ∧
      (u = .void → (op.opClass = .equality ∧ t = .void) ∨ t = .error) := by
  unfold binaryRule at h
  cases ho : op.opClass with
  | equality =>
    rw [ho] at h
    have := Verdict.given_faults.mp h
    unfold accepts at this
    rw [Bool.or_eq_true] at this
    constructor <;> rintro rfl
    · rw [Hierarchy.accepts_void, Hierarchy.void_accepts, or_self] at this
      exact this.imp_left fun e => ⟨rfl, e⟩
    · rw [Hierarchy.accepts_void, Hierarchy.void_accepts, or_self] at this
      exact this.imp_left fun e => ⟨rfl, e⟩
  | arithmetic | relational | logical =>
    rw [ho] at h
    have := Verdict.given_faults.mp h
    constructor <;> rintro rfl
    · cases u <;> first | exact .inr rfl | cases this
    · cases t <;> first | exact .inr rfl | cases this

theorem unary_not_void {op : UnaryOp} : (unaryRule s op .void).faults ≠ [] := by
  cases op <;> exact nofun

/-- **Something of the type `void` is assigned only to a variable of that type.** -/
theorem assign_void (h : (c.assignRule s t u).faults = []) :
    (u = .void → t = .void ∨ t = .error) ∧ (t = .void → u = .void ∨ u = .error) := by
  have := Verdict.given_faults.mp h
  unfold accepts at this
  exact ⟨fun e => Hierarchy.accepts_void.mp (e ▸ this),
    fun e => Hierarchy.void_accepts.mp (e ▸ this)⟩

/-- Nothing is looked up in `void`, or at `void`. -/
theorem index_not_void {s' : Span} (h : (indexRule s s' t u).faults = []) :
    t ≠ .void ∧ u ≠ .void := by
  refine ⟨fun e => ?_, fun e => ?_⟩
  · subst e
    exact absurd (List.append_eq_nil_iff.mp h).2 nofun
  · subst e
    cases t <;> cases h

theorem new_array_not_void {e : TypeExpr} : (c.newArrayRule s .void e).faults ≠ [] := nofun

/-- Every argument is accepted for its formal. -/
theorem args_accepted {vs : List VarDecl} {as : List (Span × Ty)} {n : Nat}
    (hl : vs.length = as.length) (h : c.argFaults n vs as = []) {k : Nat}
    (hk : as[k]? = some (s, t)) :
    ∃ v, vs[k]? = some v ∧ c.accepts (c.notes.denote v.type) t = true := by
  induction vs generalizing as n k with
  | nil =>
    obtain rfl := List.eq_nil_of_length_eq_zero hl.symm
    cases hk
  | cons v vs ih =>
    cases as with
    | nil => cases hl
    | cons b as =>
      obtain ⟨hv, hvs⟩ := List.append_eq_nil_iff.mp h
      cases k with
      | zero =>
        cases hk
        refine ⟨v, rfl, ?_⟩
        -- an argument that is not accepted would have been reported
        by_contra hn
        rw [if_neg hn] at hv
        cases hv
      | succ k => exact ih (Nat.succ.inj hl) hvs hk

end Context

/-! ## 4. What the checker makes sure of -/

/-- The type of an expression tells whether it has a value. -/
structure Expr.Telling (known : Prop) (a : Notes) (e : Expr) : Prop where
  valueless : e.IsCall → a.typeOf e = .void → e.Valueless a
  void : e.Valueless a → a.typeOf e = .void ∨ ¬ known ∧ a.typeOf e = .error

/-- What the checker makes sure of for a need. Under the assumption all types are known. -/
structure Need.Fair (known : Prop) (a₀ a : Notes) (x : Need) : Prop where
  /-- Something of the type `void` stands where it is accepted. -/
  lax : a.typeOf x.expr = .void → x.purpose.Lax a ∨ ¬ known ∧ x.purpose.Vague a₀ a
  telling : x.expr.Telling known a
  plain : x.Plain a

section

variable {known : Prop} {c : Context} {r : Rules} {a : Notes}

/-- A function that is called is the one in the notes, and its arguments are accepted. -/
structure Context.Calls (c : Context) (known : Prop) (a : Notes) (i : Ident) (args : List Expr)
    (g : FnDecl) : Prop where
  found : a.fn? i = some g
  written : known → (Decl.fn g).Written c.notes
  faults : c.callFaults g i (Expr.checkAll c args).1 = []

/-- **A call that passes the check calls a function that is found,** with arguments that fit. -/
theorem Expr.call_goes (hc : known → c.Follows r) {n : Node} {i : Ident} {args : List Expr}
    (hu : (c.forest.use i .fn).Known c.notes a)
    (h : ((Expr.call n i args).check c).report.Clean a) :
    ∃ g, c.Calls known a i args g ∧ a.typeOf (.call n i args) = c.notes.denote g.result := by
  obtain ⟨d, hl, ha, hd₀⟩ := Forest.use_settled.mp hu.1
  -- the name is settled in both notes, and stands for one declaration
  obtain ⟨d', hl', -, hd⟩ := Forest.use_settled.mp hu.2
  obtain rfl : d = d' := Option.some.inj (hl.symm.trans hl')
  obtain ⟨g, rfl⟩ : ∃ g, d = .fn g := by
    cases d <;> first | exact ⟨_, rfl⟩ | cases ha
  have hf := (Verdict.clean_at.mp h).2.1
  have hfn : c.notes.fn? i = some g := by
    unfold Notes.fn?
    rw [hd₀]
    rfl
  rw [Expr.type_kept h]
  show ∃ g, _ ∧ (c.callRule i (Expr.checkAll c args).1).type = _
  unfold Context.callRule at hf ⊢
  rw [hfn] at hf ⊢
  refine ⟨g, ⟨?_, fun hk => (hc hk).written.lookup? hl, hf⟩, rfl⟩
  unfold Notes.fn?
  rw [hd]
  rfl

/-- **So does a call of a method,** unless it asks for a length or the receiver is unknown. -/
theorem Expr.send_goes (hc : known → c.Follows r) {n : Node} {x : Expr} {i : Ident}
    {args : List Expr} (hu : ∀ z ∈ x.uses c.forest, z.Known c.notes a)
    (h : ((Expr.send n x i args).check c).report.Clean a) :
    (x.isLength a i = true ∧ args = [] ∧ a.typeOf (.send n x i args) = .int) ∨
      (¬ known ∧ a.typeOf x = .error ∧ a.typeOf (.send n x i args) = .error) ∨
        ∃ o g, a.typeOf x = .named o ∧ c.Calls known a i args g ∧
          a.typeOf (.send n x i args) = c.notes.denote g.result := by
  obtain ⟨hxa, hf, -, hb⟩ := Verdict.clean_at.mp h
  have hx := (Report.clean_append.mp hxa).1
  have e : a.typeOf x = (x.check c).type := Expr.type_kept hx
  have e' : a.typeOf (.send n x i args) =
      (c.sendRule (x.check c).type i (Expr.checkAll c args).1).type := Expr.type_kept h
  rw [e, e']
  rcases Context.send_binds hf with hu' | ⟨hl, hi, has, ht⟩ | ⟨o, g, ho, hm, hg, ht, hcall⟩
  · refine .inr (.inl ⟨fun hk => ?_, hu', by rw [hu']; rfl⟩)
    exact (Expr.checked_part (s := ⟨a, .empty, [], none, none⟩) (hc hk) hu hx).1.ne_error hu'
  · refine .inl ⟨?_, ?_, ht⟩
    · unfold isLength
      rw [e, hl, hi]
      rfl
    · cases args with
      | nil => rfl
      | cons _ _ => cases has
  · have hd : a.decl? i = some (.fn g) := hb _ hg
    refine .inr (.inr ⟨o, g, ho, ⟨?_, fun hk => (hc hk).written.member? hm, hcall⟩, ht⟩)
    unfold Notes.fn?
    rw [hd]
    rfl

/-- The type of an expression without a report tells whether it has a value. -/
theorem Expr.telling (hc : known → c.Follows r) : ∀ e : Expr,
    (∀ z ∈ e.uses c.forest, z.Known c.notes a) → (e.check c).report.Clean a → e.Telling known a
  | .call n i args, hu, h => by
    obtain ⟨g, hg, e⟩ := Expr.call_goes hc (hu _ List.mem_cons_self) h
    refine ⟨fun _ hv => ⟨g, hg.found, ?_⟩, fun ⟨g', hg', hv⟩ => .inl ?_⟩
    · rw [e, Notes.denote_eq_void] at hv
      exact Notes.denote_eq_void.mpr hv
    · obtain rfl := Option.some.inj (hg.found.symm.trans hg')
      rw [e, Notes.denote_eq_void]
      exact Notes.denote_eq_void.mp hv
  -- the length of an array is a number, and what is unknown tells nothing
  | .send n x i args, hu, h => by
    rcases Expr.send_goes hc (fun z hz => hu z (List.mem_append_left _ hz)) h with
      ⟨hl, -, e⟩ | ⟨hk, -, e⟩ | ⟨o, g, ho, hg, e⟩
    · exact ⟨fun _ hv => (nomatch e.symm.trans hv), fun hv => (nomatch hl.symm.trans hv.1)⟩
    · exact ⟨fun _ hv => (nomatch e.symm.trans hv), fun _ => .inr ⟨hk, e⟩⟩
    · have hl : x.isLength a i = false := by
        unfold isLength
        rw [ho]
        rfl
      refine ⟨fun _ hv => ⟨hl, g, hg.found, ?_⟩, fun ⟨_, g', hg', hv⟩ => .inl ?_⟩
      · rw [e, Notes.denote_eq_void] at hv
        exact Notes.denote_eq_void.mpr hv
      · obtain rfl := Option.some.inj (hg.found.symm.trans hg')
        rw [e, Notes.denote_eq_void]
        exact Notes.denote_eq_void.mp hv
  | .int _ _, _, _ | .double _, _, _ | .bool _ _, _, _ | .string _ _, _, _ | .null _, _, _
  | .this _, _, _ | .readInteger _, _, _ | .readLine _, _, _ | .name _ _, _, _ | .new _ _, _, _
  | .binary _ _ _ _, _, _ | .unary _ _ _, _, _ | .step _ _ _, _, _ | .assign _ _ _, _, _
  | .index _ _ _, _, _ | .field _ _ _, _, _ | .newArray _ _ _, _, _ => ⟨nofun, nofun⟩

/-- A need and those inside are fair if the purpose is fair to something of the type `void`. -/
theorem Expr.fair (hc : known → c.Follows r) {e : Expr}
    (hu : ∀ z ∈ e.uses c.forest, z.Known c.notes a) (h : (e.check c).report.Clean a)
    {q : Purpose} (hq : (e.check c).type = .void → q.Lax a ∨ ¬ known ∧ q.Vague c.notes a)
    (hp : Need.Plain a ⟨q, e⟩) (hs : ∀ x ∈ e.needs, x.Fair known c.notes a) :
    ∀ x ∈ (⟨q, e⟩ :: e.needs : List Need), x.Fair known c.notes a := by
  refine List.forall_mem_cons.mpr ⟨⟨fun hv => hq ?_, e.telling hc hu h, hp⟩, hs⟩
  exact (Expr.type_kept h).symm.trans hv

/-- Where all types are known, that of an expression is. -/
theorem Expr.known_type (hc : known → c.Follows r) {e : Expr}
    (hu : ∀ z ∈ e.uses c.forest, z.Known c.notes a) (h : (e.check c).report.Clean a) :
    known → (e.check c).type ≠ .error := fun hk =>
  (Expr.checked_part (s := ⟨a, .empty, [], none, none⟩) (hc hk) hu h).1.ne_error

/-- A formal takes an argument of the type `void` only if it has that type. -/
theorem Context.Calls.lax {call : Expr} {i : Ident} {args : List Expr} {g : FnDecl}
    (h : c.Calls known a i args g) {k : Nat} {s : Span} {u : Ty}
    (hk : (Expr.checkAll c args).1[k]? = some (s, u)) (hu : u = .void) :
    (Purpose.argument call i k).Lax a ∨ ¬ known ∧ (Purpose.argument call i k).Vague c.notes a := by
  obtain ⟨hl, hf⟩ := Context.call_faults.mp h.faults
  obtain ⟨v, hv, hacc⟩ := Context.args_accepted hl hf hk
  rw [hu] at hacc
  rcases Hierarchy.accepts_void.mp hacc with e | e
  · exact .inl ⟨g, v, h.found, hv, Notes.denote_eq_void.mp e⟩
  · refine .inr ⟨fun hk => ?_, .inr ⟨g, v, h.found, hv, e⟩⟩
    exact v.type.ty_ne_error (((h.written hk).2 v (List.mem_of_getElem? hv)).symm.trans e)

mutual

/-- **The checker is fair to everything that is needed in an expression.** -/
theorem Expr.needs_fair (hc : known → c.Follows r) : ∀ e : Expr,
    (∀ z ∈ e.uses c.forest, z.Known c.notes a) → (e.check c).report.Clean a →
      ∀ x ∈ e.needs, x.Fair known c.notes a
  | .binary n op x y, hu, h => by
    obtain ⟨hux, huy⟩ := List.forall_mem_append.mp hu
    obtain ⟨hxy, hf, -⟩ := Verdict.clean_at.mp h
    obtain ⟨hx, hy⟩ := Report.clean_append.mp hxy
    -- each operand is of the type `void` only if the other one is, or is unknown
    have hvoid := Context.binary_void hf
    refine List.forall_mem_append.mpr
      ⟨Expr.fair hc hux hx (fun hv => ?_) trivial (x.needs_fair hc hux hx),
        Expr.fair hc huy hy (fun hv => ?_) trivial (y.needs_fair hc huy hy)⟩
    · exact (hvoid.1 hv).imp (fun e => ⟨e.1, (Expr.type_kept hy).trans e.2⟩)
        fun e => ⟨fun hk => Expr.known_type hc huy hy hk e, (Expr.type_kept hy).trans e⟩
    · exact (hvoid.2 hv).imp (fun e => ⟨e.1, (Expr.type_kept hx).trans e.2⟩)
        fun e => ⟨fun hk => Expr.known_type hc hux hx hk e, (Expr.type_kept hx).trans e⟩
  | .assign n x y, hu, h => by
    obtain ⟨hux, huy⟩ := List.forall_mem_append.mp hu
    obtain ⟨hxy, hf, -⟩ := Verdict.clean_at.mp h
    obtain ⟨hx, hy⟩ := Report.clean_append.mp hxy
    have hacc := Context.assign_void hf
    refine List.forall_mem_append.mpr
      ⟨Expr.fair hc hux hx (fun hv => ?_) trivial (x.needs_fair hc hux hx),
        Expr.fair hc huy hy (fun hv => ?_) trivial (y.needs_fair hc huy hy)⟩
    · exact (hacc.2 hv).imp (fun e => (Expr.type_kept hy).trans e)
        fun e => ⟨fun hk => Expr.known_type hc huy hy hk e, (Expr.type_kept hy).trans e⟩
    · exact (hacc.1 hv).imp (fun e => (Expr.type_kept hx).trans e)
        fun e => ⟨fun hk => Expr.known_type hc hux hx hk e, (Expr.type_kept hx).trans e⟩
  | .index n x y, hu, h => by
    obtain ⟨hux, huy⟩ := List.forall_mem_append.mp hu
    obtain ⟨hxy, hf, -⟩ := Verdict.clean_at.mp h
    obtain ⟨hx, hy⟩ := Report.clean_append.mp hxy
    have hnot := Context.index_not_void hf
    exact List.forall_mem_append.mpr
      ⟨Expr.fair hc hux hx (fun hv => absurd hv hnot.1) trivial (x.needs_fair hc hux hx),
        Expr.fair hc huy hy (fun hv => absurd hv hnot.2) trivial (y.needs_fair hc huy hy)⟩
  | .unary n op x, hu, h => by
    obtain ⟨hx, hf, -⟩ := Verdict.clean_at.mp h
    refine Expr.fair (e := x) hc hu hx (fun hv => ?_) trivial (x.needs_fair hc hu hx)
    rw [hv] at hf
    exact absurd hf Context.unary_not_void
  | .step n op x, hu, h => by
    obtain ⟨hx, hf, -⟩ := Verdict.clean_at.mp h
    refine Expr.fair (e := x) hc hu hx (fun hv => ?_) trivial (x.needs_fair hc hu hx)
    rw [hv] at hf
    cases hf
  | .field n x i, hu, h => by
    obtain ⟨hx, hf, -⟩ := Verdict.clean_at.mp h
    refine Expr.fair (e := x) hc hu hx (fun hv => ?_) trivial (x.needs_fair hc hu hx)
    rw [hv] at hf
    cases hf
  | .newArray n x t, hu, h => by
    obtain ⟨hux, -⟩ := List.forall_mem_append.mp hu
    obtain ⟨hx, hf, -⟩ := Verdict.clean_at.mp h
    refine Expr.fair hc hux hx (fun hv => ?_) trivial (x.needs_fair hc hux hx)
    rw [hv] at hf
    exact absurd hf Context.new_array_not_void
  | .call n i args, hu, h => by
    obtain ⟨hui, hua⟩ := List.forall_mem_cons.mp hu
    obtain ⟨g, hg, -⟩ := Expr.call_goes hc hui h
    exact Expr.arg_needs_fair hc args 0 hua (Verdict.clean_at.mp h).1 fun k s u hk =>
      (Nat.zero_add k).symm ▸ hg.lax hk
  | .send n x i args, hu, h => by
    obtain ⟨hux, hua⟩ := List.forall_mem_append.mp hu
    obtain ⟨hxa, hf, -⟩ := Verdict.clean_at.mp h
    obtain ⟨hx, ha⟩ := Report.clean_append.mp hxa
    have hgoes := Expr.send_goes hc hux h
    refine List.forall_mem_append.mpr
      ⟨Expr.fair hc hux hx (fun hv => ?_) (fun hl => ?_) (x.needs_fair hc hux hx),
        Expr.arg_needs_fair hc args 0 hua ha fun k s u hk hu => ?_⟩
    · rw [hv] at hf
      cases hf
    · rcases hgoes with ⟨-, e, -⟩ | ⟨-, e, -⟩ | ⟨o, g, e, -⟩
      · exact e
      all_goals
        unfold isLength at hl
        rw [e] at hl
        cases hl
    · rw [Nat.zero_add]
      rcases hgoes with ⟨-, rfl, -⟩ | ⟨hn, -, e⟩ | ⟨o, g, -, hg, -⟩
      · cases hk
      · exact .inr ⟨hn, .inl e⟩
      · exact hg.lax hk hu
  | .int _ _, _, _ | .double _, _, _ | .bool _ _, _, _ | .string _ _, _, _ | .null _, _, _
  | .this _, _, _ | .readInteger _, _, _ | .readLine _, _, _ | .name _ _, _, _
  | .new _ _, _, _ => nofun

/-- The checker is fair to the arguments of a call, if it accepts them for its formals. -/
theorem Expr.arg_needs_fair (hc : known → c.Follows r) {call : Expr} {i : Ident} :
    ∀ (es : List Expr) (j : Nat), (∀ z ∈ Expr.usesAll c.forest es, z.Known c.notes a) →
      (Expr.checkAll c es).2.Clean a →
        (∀ k s u, (Expr.checkAll c es).1[k]? = some (s, u) → u = .void →
          (Purpose.argument call i (j + k)).Lax a ∨
            ¬ known ∧ (Purpose.argument call i (j + k)).Vague c.notes a) →
          ∀ x ∈ Expr.argNeeds call i j es, x.Fair known c.notes a
  | [], _, _, _, _ => nofun
  | e :: es, j, hu, h, hacc => by
    obtain ⟨hue, hus⟩ := List.forall_mem_append.mp hu
    obtain ⟨he, hs⟩ := Report.clean_append.mp h
    refine List.forall_mem_append.mpr
      ⟨Expr.fair hc hue he (fun hv => ?_) trivial (e.needs_fair hc hue he),
        Expr.arg_needs_fair hc es (j + 1) hus hs fun k s u hk hv => ?_⟩
    · exact hacc 0 _ _ rfl hv
    -- the arguments that are left are counted from the next one on
    · rw [Nat.add_assoc, Nat.add_comm 1 k]
      exact hacc (k + 1) s u hk hv

end

/-- The needs of an expression that may be missing. -/
theorem Expr.needs_opt_fair (hc : known → c.Follows r) {e : Option Expr}
    (hu : ∀ z ∈ Expr.usesOpt c.forest e, z.Known c.notes a) (h : (Expr.checkOpt c e).Clean a) :
    ∀ x ∈ Expr.needsOpt e, x.Fair known c.notes a := by
  cases e with
  | none => exact nofun
  | some e => exact e.needs_fair hc hu h

/-- A test is never of the type `void`. -/
theorem Expr.test_fair (hc : known → c.Follows r) {e : Expr}
    (hu : ∀ z ∈ e.uses c.forest, z.Known c.notes a) (h : (e.checkTest c).Clean a) :
    ∀ x ∈ (⟨.test, e⟩ :: e.needs : List Need), x.Fair known c.notes a := by
  obtain ⟨he, hf⟩ := Report.clean_append.mp h
  have hf : Context.testFaults e.span (e.check c).type = [] := Report.clean_ofFaults.mp hf
  refine Expr.fair hc hu he (fun hv => ?_) trivial (e.needs_fair hc hu he)
  rw [hv] at hf
  cases hf

/-- Nothing of the type `void` is printed. -/
theorem Expr.print_needs_fair (hc : known → c.Follows r) : ∀ (es : List Expr) (k : Nat),
    (∀ z ∈ Expr.usesAll c.forest es, z.Known c.notes a) → (Expr.checkPrint c k es).Clean a →
      ∀ x ∈ Expr.printNeeds es, x.Fair known c.notes a
  | [], _, _, _ => nofun
  | e :: es, k, hu, h => by
    obtain ⟨hue, hus⟩ := List.forall_mem_append.mp hu
    obtain ⟨h, hs⟩ := Report.clean_append.mp h
    obtain ⟨he, hf⟩ := Report.clean_append.mp h
    have hf : Context.printFaults k e.span (e.check c).type = [] := Report.clean_ofFaults.mp hf
    refine List.forall_mem_append.mpr
      ⟨Expr.fair hc hue he (fun hv => ?_) trivial (e.needs_fair hc hue he),
        Expr.print_needs_fair hc es (k + 1) hus hs⟩
    rw [hv] at hf
    cases hf

/-- What the context has to give is what the function is declared with. -/
structure Context.Gives (c : Context) (known : Prop) (t : TypeExpr) : Prop where
  result_eq : c.result = c.notes.denote t
  written : known → c.notes.denote t = t.ty

/-- **A function gives `void` back only if that is its result type.** -/
theorem Expr.return_needs_fair (hc : known → c.Follows r) {t : TypeExpr} (ht : c.Gives known t)
    {s : Span} {e : Option Expr} (hu : ∀ z ∈ Expr.usesOpt c.forest e, z.Known c.notes a)
    (h : (Expr.checkReturn c s e).Clean a) :
    ∀ x ∈ Expr.returnNeeds t e, x.Fair known c.notes a := by
  cases e with
  | none => exact nofun
  | some e =>
    obtain ⟨he, hf⟩ := Report.clean_append.mp h
    have hf : c.returnFaults s (e.check c).type = [] := Report.clean_ofFaults.mp hf
    refine Expr.fair (e := e) hc hu he (fun hv => ?_) trivial (e.needs_fair hc hu he)
    rw [hv] at hf
    have hacc : c.accepts c.result .void = true := by
      by_contra hn
      unfold Context.returnFaults at hf
      rw [if_neg hn] at hf
      cases hf
    rw [ht.result_eq] at hacc
    refine (Hierarchy.accepts_void.mp hacc).imp Notes.denote_eq_void.mp fun e => ⟨fun hk => ?_, e⟩
    exact t.ty_ne_error ((ht.written hk).symm.trans e)

/-- What the function gives is the same inside a block. -/
theorem Context.Gives.inBlock {t : TypeExpr} (h : c.Gives known t) (n : Node) :
    (c.inBlock n).Gives known t := ⟨h.result_eq, h.written⟩

theorem Context.Gives.inBreakable {t : TypeExpr} (h : c.Gives known t) :
    c.inBreakable.Gives known t := ⟨h.result_eq, h.written⟩

end

section

variable {known : Prop} {r : Rules} {a : Notes} {t : TypeExpr}

mutual

/-- **The checker is fair to everything that is needed in a statement.** -/
theorem Stmt.needs_fair : ∀ (s : Stmt) {c : Context}, (known → c.Follows r) → c.Gives known t →
    c.forest.HasAll s.openings → (∀ z ∈ s.uses c.forest, z.Known c.notes a) →
      (s.check c).Clean a → ∀ x ∈ s.needs t, x.Fair known c.notes a
  | .block b, _, hc, ht, ho, hu, h => b.needs_fair hc ht ho hu h
  | .ifThen _ e s, _, hc, ht, ho, hu, h => by
    obtain ⟨hue, hus⟩ := List.forall_mem_append.mp hu
    obtain ⟨he, hs⟩ := Report.clean_append.mp h
    exact List.forall_mem_append.mpr ⟨Expr.test_fair hc hue he, s.needs_fair hc ht ho hus hs⟩
  | .ifElse _ e s o, _, hc, ht, ho, hu, h => by
    obtain ⟨hu, huo⟩ := List.forall_mem_append.mp hu
    obtain ⟨hue, hus⟩ := List.forall_mem_append.mp hu
    obtain ⟨h, hco⟩ := Report.clean_append.mp h
    obtain ⟨he, hs⟩ := Report.clean_append.mp h
    obtain ⟨hos, hoo⟩ := Forest.hasAll_append.mp ho
    exact List.forall_mem_append.mpr ⟨List.forall_mem_append.mpr ⟨Expr.test_fair hc hue he,
      s.needs_fair hc ht hos hus hs⟩, o.needs_fair hc ht hoo huo hco⟩
  | .while _ e s, c, hc, ht, ho, hu, h => by
    obtain ⟨hue, hus⟩ := List.forall_mem_append.mp hu
    obtain ⟨he, hs⟩ := Report.clean_append.mp h
    exact List.forall_mem_append.mpr ⟨Expr.test_fair hc hue he,
      s.needs_fair (c := c.inBreakable) (fun k => (hc k).inBreakable) ht.inBreakable ho hus hs⟩
  | .for _ i e u s, c, hc, ht, ho, hu, h => by
    obtain ⟨hu, hus⟩ := List.forall_mem_append.mp hu
    obtain ⟨hu, huu⟩ := List.forall_mem_append.mp hu
    obtain ⟨hui, hue⟩ := List.forall_mem_append.mp hu
    obtain ⟨h, hs⟩ := Report.clean_append.mp h
    obtain ⟨h, hcu⟩ := Report.clean_append.mp h
    obtain ⟨hi, he⟩ := Report.clean_append.mp h
    exact List.forall_mem_append.mpr ⟨List.forall_mem_append.mpr ⟨List.forall_mem_append.mpr
      ⟨Expr.needs_opt_fair hc hui hi, Expr.test_fair hc hue he⟩,
      s.needs_fair (c := c.inBreakable) (fun k => (hc k).inBreakable) ht.inBreakable ho hus hs⟩,
      Expr.needs_opt_fair hc huu hcu⟩
  | .switch _ e cs, c, hc, ht, ho, hu, h => by
    obtain ⟨hue, hus⟩ := List.forall_mem_append.mp hu
    obtain ⟨he, hs⟩ := Report.clean_append.mp h
    -- anything is accepted for the scrutinee
    exact List.forall_mem_append.mpr
      ⟨Expr.fair hc hue he (fun _ => .inl trivial) trivial (e.needs_fair hc hue he),
        Case.needs_all_fair cs (c := c.inBreakable) (fun k => (hc k).inBreakable) ht.inBreakable ho
          hus hs⟩
  | .break _, _, _, _, _, _, _ => nofun
  | .ret _ _, _, hc, ht, _, hu, h => Expr.return_needs_fair hc ht hu h
  | .print _ es, _, hc, _, _, hu, h => Expr.print_needs_fair hc es 1 hu h
  | .expr e, _, hc, _, _, hu, h => e.needs_fair hc hu h

/-- **The needs of a block are fair:** its scope is there to be entered. -/
theorem Block.needs_fair : ∀ (b : Block) {c : Context}, (known → c.Follows r) → c.Gives known t →
    c.forest.HasAll b.openings → (∀ z ∈ b.uses c.forest, z.Known c.notes a) →
      (b.check c).Clean a → ∀ x ∈ b.needs t, x.Fair known c.notes a
  | ⟨n, ls, ss⟩, c, hc, ht, ho, hu, h => by
    -- the scope of the block is there, so the rules still hold inside
    obtain ⟨⟨k, hk⟩, ho⟩ := Forest.hasAll_cons.mp ho
    exact Stmt.needs_all_fair ss (c := c.inBlock n) (fun hn => (hc hn).inBlock hk) (ht.inBlock n)
      (ho.enter hk) (fun z hz => hu z (List.mem_append_right _ hz)) h

/-- The same for statements in a row. -/
theorem Stmt.needs_all_fair : ∀ (ss : List Stmt) {c : Context}, (known → c.Follows r) →
    c.Gives known t → c.forest.HasAll (Stmt.openingsAll ss) →
      (∀ z ∈ Stmt.usesAll ss c.forest, z.Known c.notes a) → (Stmt.checkAll ss c).Clean a →
        ∀ x ∈ Stmt.needsAll t ss, x.Fair known c.notes a
  | [], _, _, _, _, _, _ => nofun
  | s :: ss, _, hc, ht, ho, hu, h => by
    obtain ⟨hos, hor⟩ := Forest.hasAll_append.mp ho
    obtain ⟨hus, hur⟩ := List.forall_mem_append.mp hu
    obtain ⟨hs, hr⟩ := Report.clean_append.mp h
    exact List.forall_mem_append.mpr ⟨s.needs_fair hc ht hos hus hs,
      Stmt.needs_all_fair ss hc ht hor hur hr⟩

/-- The same for the arms of a switch. -/
theorem Case.needs_all_fair : ∀ (cs : List Case) {c : Context}, (known → c.Follows r) →
    c.Gives known t → c.forest.HasAll (Case.openingsAll cs) →
      (∀ z ∈ Case.usesAll cs c.forest, z.Known c.notes a) → (Case.checkAll cs c).Clean a →
        ∀ x ∈ Case.needsAll t cs, x.Fair known c.notes a
  | [], _, _, _, _, _, _ => nofun
  | ⟨_, ss⟩ :: cs, _, hc, ht, ho, hu, h => by
    obtain ⟨hos, hor⟩ := Forest.hasAll_append.mp ho
    obtain ⟨hus, hur⟩ := List.forall_mem_append.mp hu
    obtain ⟨hs, hr⟩ := Report.clean_append.mp h
    exact List.forall_mem_append.mpr ⟨Stmt.needs_all_fair ss hc ht hos hus hs,
      Case.needs_all_fair cs hc ht hor hur hr⟩

end

end

/-- **The checker is fair to everything that is needed in a clean program,** with all types known
if no types are nested in others. -/
theorem Program.Clean.needs_fair {p : Program} (h : p.Clean) {x : Need} (hx : x ∈ p.needs) :
    x.Fair p.Flat p.analyze.resolved.notes p.analyze.notes := by
  obtain ⟨cls, g, b, hg, hb, hx⟩ := Program.mem_needs.mp hx
  obtain ⟨ho, hu⟩ := h.named.body_known hg hb
  have hk := h.named.check_clean hg h.typed
  rw [Named.check_body_eq hb] at hk
  exact b.needs_fair (c := p.context cls g) (fun hf => (h.named.follows hf hg).1)
    ⟨rfl, fun hf => (h.named.follows hf hg).2⟩ ho hu hk x hx

end DecafLang
