import DecafLang.Proofs.Layouts
import DecafLang.Proofs.Lexical
import DecafLang.Proofs.Typing

/-!
# What the checks look at

The checks of a member, of an expression or of a statement depend on little of the program around:
on what the names in it stand for, on the members behind names, on the class around, and on which
values may stand where. **If two programs agree on these, the checks say the same in both**
(`ClassDecl.faults_alike`, `Expr.check_alike`, `Stmt.check_alike`), wherever the scopes lie in their
forests.

Of the notes, the checks read what the names that are looked up stand for (`Notes.AgreeOn`), and
the types of the declarations that they come across (`Notes.AgreeIn`). What else is noted does not
matter to them.
-/

namespace DecafLang

/-! ## 1. Hierarchies -/

/-- The same types stand under the names. -/
structure Hierarchy.Alike (t t' : Hierarchy) : Prop where
  get?_eq : ∀ name, t.get? name = t'.get? name
  length_eq : t.types.length = t'.types.length

namespace Hierarchy.Alike

variable {t t' : Hierarchy}

/-- Alike hierarchies know the same classes under each name. -/
theorem class?_eq (h : t.Alike t') : t.class? = t'.class? :=
  funext fun name => congrArg (·.bind TypeDecl.cls?) (h.get?_eq name)

/-- They know the same interfaces. -/
theorem iface?_eq (h : t.Alike t') : t.iface? = t'.iface? :=
  funext fun name => congrArg (·.bind TypeDecl.iface?) (h.get?_eq name)

/-- Each class has the same base in both. -/
theorem base?_eq (h : t.Alike t') : t.base? = t'.base? := by
  funext name
  unfold base?
  rw [h.class?_eq]

/-- Each class lists the same interfaces in both. -/
theorem listed_eq (h : t.Alike t') : t.listed = t'.listed := by
  funext name
  unfold listed
  rw [h.class?_eq, h.iface?_eq]

/-- The chains of bases are the same, since both walks are cut off at the same length. -/
theorem ancestors_eq (h : t.Alike t') : t.ancestors = t'.ancestors := by
  funext name
  unfold ancestors
  rw [h.base?_eq, h.length_eq]

/-- The same values may stand for each other. -/
theorem accepts_eq (h : t.Alike t') (expected given : Ty) :
    t.accepts expected given = t'.accepts expected given := by
  unfold accepts isSubclass implements
  rw [h.ancestors_eq, h.listed_eq]

/-- Whether the bases run in a circle is a matter of the bases alone. -/
theorem acyclic_iff (h : t.Alike t') : t.Acyclic ↔ t'.Acyclic := by
  unfold Acyclic
  rw [h.base?_eq]

/-- The objects look the same. -/
theorem object_eq (h : t.Alike t') : t.object = t'.object := by
  funext c
  unfold object above
  rw [h.ancestors_eq, h.class?_eq]

end Hierarchy.Alike

/-! ## 2. Notes -/

/-- The types in the head of a function. -/
def FnDecl.headTypes (g : FnDecl) : List TypeExpr := g.result :: g.formals.map VarDecl.type

/-- The types in a declaration that is not a class; those of an interface are in its prototypes. -/
def Decl.headTypes : Decl → List TypeExpr
  | .var v => [v.type]
  | .fn g => g.headTypes
  | .iface i => i.members.flatMap FnDecl.headTypes
  | .cls _ => []

namespace Notes

/-- The names stand for the same. -/
def Alike (a b : Notes) : Prop := ∀ i, a.decl? i = b.decl? i

/-- The names that are looked up stand for the same. -/
def AgreeOn (a b : Notes) (l : List Finding) : Prop :=
  ∀ k ∈ Finding.used l, a.bindings.get? k = b.bindings.get? k

/-- The types in a declaration denote the same. -/
def SameTypes (a b : Notes) (d : Decl) : Prop := ∀ t ∈ d.headTypes, a.denote t = b.denote t

/-- **The types denote the same that a check can come across:** those in the declarations that lie
in scopes, and in those that names stand for. -/
structure AgreeIn (a b : Notes) (f : Forest) : Prop where
  declared : f.Holds (a.SameTypes b)
  known : ∀ i d, a.decl? i = some d → a.SameTypes b d

variable {a b : Notes} {f : Forest} {l l' : List Finding}

/-- Notes agree on findings in a row if they agree on each part. -/
theorem agreeOn_append : a.AgreeOn b (l ++ l') ↔ a.AgreeOn b l ∧ a.AgreeOn b l' := by
  simp only [AgreeOn, Finding.used_append, List.mem_append, or_imp, forall_and]

/-- Notes that agree on findings agree on some of them. -/
theorem AgreeOn.of_subset (h : a.AgreeOn b l) (hs : l' ⊆ l) : a.AgreeOn b l' := fun k hk =>
  h k (List.map_subset _ (List.filterMap_subset _ hs) hk)

/-- A name that is looked up stands for the same. -/
theorem AgreeOn.decl?_eq {i : Ident} {s : Sought} (h : a.AgreeOn b l) (hi : f.use i s ∈ l) :
    a.decl? i = b.decl? i :=
  h i.id (List.mem_map_of_mem (List.mem_filterMap.mpr ⟨_, hi, rfl⟩))

/-- A type denotes the same if the name in it stands for the same. -/
theorem denote_congr {t : TypeExpr} (h : ∀ i ∈ t.ident?, a.decl? i = b.decl? i) :
    a.denote t = b.denote t := by
  induction t with
  | prim _ _ => rfl
  | named _ i =>
    unfold denote
    rw [h i rfl]
  | array _ t ih =>
    unfold denote
    rw [ih h]

/-- **A type stands for the same as soon as the name in it does.** -/
theorem AgreeOn.denote_eq {t : TypeExpr} (h : a.AgreeOn b (t.uses f)) :
    a.denote t = b.denote t := by
  -- the name in a type is looked up, if there is one
  have hu : ∀ i ∈ t.ident?, f.use i .type ∈ t.uses f := by
    induction t with
    | prim _ _ => exact nofun
    | named _ _ =>
      intro i hi
      cases hi
      exact List.mem_cons_self
    | array _ _ ih => exact ih h
  exact denote_congr fun i hi => h.decl?_eq (hu i hi)

/-- The parameters and the result of a function stand for the same types. -/
theorem AgreeOn.head {g : FnDecl} (h : a.AgreeOn b (g.uses f)) : a.SameTypes b (.fn g) := by
  refine List.forall_mem_cons.mpr ⟨?_, List.forall_mem_map.mpr fun v hv => ?_⟩
  · exact (agreeOn_append.mp (agreeOn_append.mp h).1).1.denote_eq
  · exact ((agreeOn_append.mp (agreeOn_append.mp h).1).2.of_subset
      fun _ hx => List.mem_flatMap.mpr ⟨v, hv, hx⟩).denote_eq

/-- Alike notes agree on whatever is looked up. -/
theorem Alike.agreeOn (h : a.Alike b) (l : List Finding) : a.AgreeOn b l := fun k _ =>
  h ⟨"", ⟨k, .nowhere⟩⟩

/-- In alike notes each type stands for the same. -/
theorem Alike.denote_eq (h : a.Alike b) (t : TypeExpr) : a.denote t = b.denote t :=
  (h.agreeOn (t.uses .empty)).denote_eq

/-- Alike notes agree on the declarations of any forest. -/
theorem Alike.agreeIn (h : a.Alike b) (f : Forest) : a.AgreeIn b f :=
  ⟨fun _ _ _ t _ => h.denote_eq t, fun _ _ _ t _ => h.denote_eq t⟩

/-- Two functions whose types are the same have the same signature. -/
theorem SameTypes.signature?_eq {g : FnDecl} (hg : a.SameTypes b (.fn g)) :
    a.signature? g = b.signature? g := by
  obtain ⟨hr, hf⟩ := List.forall_mem_cons.mp hg
  have e : g.formals.map (fun v => a.denote v.type) = g.formals.map fun v => b.denote v.type :=
    List.map_congr_left (List.forall_mem_map.mp hf)
  unfold signature? signature
  rw [hr, e]

/-- Whether two functions have one signature is the same in both notes. -/
theorem SameTypes.sameSignature_eq {g k : FnDecl} (hg : a.SameTypes b (.fn g))
    (hk : a.SameTypes b (.fn k)) : a.sameSignature g k = b.sameSignature g k := by
  unfold sameSignature
  rw [hg.signature?_eq, hk.signature?_eq]

/-- Which scopes are open is of no account for what the declarations say. -/
theorem AgreeIn.withOpen (h : a.AgreeIn b f) (ks : List ScopeId) : a.AgreeIn b (f.withOpen ks) :=
  ⟨h.declared, h.known⟩

end Notes

/-! ## 3. Members -/

/-- The same members are found behind names, above the open class and in what it lists. -/
structure Forest.SameMembers (f f' : Forest) : Prop where
  member?_eq : ∀ owner name, f.member? owner name = f'.member? owner name
  inherited?_eq : ∀ name, f.inherited? name = f'.inherited? name
  required?_eq : ∀ name, f.required? name = f'.required? name

section

variable {f f' : Forest} {a b : Notes}

/-- **What a method overrides is judged alike,** as the member above has the same types. -/
theorem FnDecl.overrides_alike (hf : f.SameMembers f') (ha : a.AgreeIn b f) {g : FnDecl}
    (hg : a.SameTypes b (.fn g)) : g.overrideFaults f a = g.overrideFaults f' b ∧
      g.isOverride f a = g.isOverride f' b := by
  unfold FnDecl.overrideFaults FnDecl.isOverride
  rw [← hf.inherited?_eq]
  cases hi : f.inherited? g.name with
  | none => exact ⟨rfl, rfl⟩
  | some d =>
    cases d with
    | fn k =>
      simp only [hg.sameSignature_eq (ha.declared.above? hi)]
      exact ⟨trivial, trivial⟩
    | _ => exact ⟨rfl, rfl⟩

/-- What an interface requires of a method is judged alike. -/
theorem FnDecl.required_alike (hf : f.SameMembers f') (ha : a.AgreeIn b f) {g : FnDecl}
    (hg : a.SameTypes b (.fn g)) : g.requiredFaults f a = g.requiredFaults f' b := by
  unfold FnDecl.requiredFaults
  rw [← hf.required?_eq]
  cases hr : f.required? g.name with
  | none => rfl
  | some d =>
    cases d with
    | fn k => simp only [hg.sameSignature_eq (ha.declared.required? hr)]
    | _ => rfl

/-- **The check of a member says the same.** -/
theorem Decl.memberFaults_alike (hf : f.SameMembers f') (ha : a.AgreeIn b f) {h : Forest} {d : Decl}
    (hd : a.AgreeOn b (d.usesAsMember h)) : d.memberFaults f a = d.memberFaults f' b := by
  -- a nested type is no member that could override anything
  cases d with
  | var v =>
    show v.fieldFaults f = v.fieldFaults f'
    unfold VarDecl.fieldFaults
    rw [hf.inherited?_eq, hf.required?_eq]
  | fn g =>
    show _ ++ _ = _ ++ _
    rw [(g.overrides_alike hf ha hd.head).1, g.required_alike hf ha hd.head]
  | iface _ => rfl
  | cls _ => rfl

/-- Whether a class provides an interface is judged alike. -/
theorem ClassDecl.missing_alike (hf : f.SameMembers f') (ha : a.AgreeIn b f) (c : ClassDecl)
    {i : Ident} (hi : a.decl? i = b.decl? i) : c.missing? f a i = c.missing? f' b i := by
  unfold missing?
  rw [← hi]
  cases hd : a.decl? i with
  | none => rfl
  | some d =>
    cases d with
    | iface d =>
      have hh : ∀ q ∈ d.members, c.hasMethod f a q = c.hasMethod f' b q := fun q hq => by
        have hq : a.SameTypes b (.fn q) := fun t ht =>
          ha.known i _ hd t (List.mem_flatMap.mpr ⟨q, hq, ht⟩)
        unfold hasMethod
        rw [← hf.member?_eq]
        cases hm : f.member? c.name q.name with
        | none => rfl
        | some x =>
          cases x with
          | fn g => exact (ha.declared.member? hm).sameSignature_eq hq
          | _ => rfl
      have e : d.members.all (c.hasMethod f a) = d.members.all (c.hasMethod f' b) := by
        rw [Bool.eq_iff_iff, List.all_eq_true, List.all_eq_true]
        exact forall₂_congr fun q hq => by rw [hh q hq]
      simp only [e]
    | _ => rfl

/-- **The same is wrong with a class, and as many of its methods replace an inherited one.** -/
theorem ClassDecl.faults_alike (hf : f.SameMembers f') (ha : a.AgreeIn b f) (c : ClassDecl)
    {h : Forest} (hc : a.AgreeOn b (c.uses h)) : c.faults f a = c.faults f' b ∧
      c.methods.countP (FnDecl.isOverride f a) = c.methods.countP (FnDecl.isOverride f' b) := by
  obtain ⟨hhead, hmembers⟩ := Notes.agreeOn_append.mp hc
  have member : ∀ d ∈ c.members, a.AgreeOn b (d.usesAsMember (h.enterClass c)) := fun d hd =>
    hmembers.of_subset fun _ hx => List.mem_flatMap.mpr ⟨d, hd, hx⟩
  refine ⟨?_, List.countP_congr fun g hg => ?_⟩
  · unfold faults
    rw [List.flatMap_congr fun d hd => Decl.memberFaults_alike hf ha (member d hd)]
    have hm : c.interfaces.findSome? (c.missing? f a) = c.interfaces.findSome? (c.missing? f' b) :=
      findSome?_congr fun i hi => c.missing_alike hf ha
        (hhead.decl?_eq (List.mem_append_right _ (List.mem_map_of_mem hi)))
    rw [hm]
  · rw [(g.overrides_alike hf ha (member _ (ClassDecl.mem_methods.mp hg)).head).2]

end

/-! ## 4. Rules -/

namespace Context

/-- The contexts agree on all that the rules look at. -/
structure Alike (c c' : Context) : Prop where
  notes : c.notes.AgreeIn c'.notes c.forest
  accepts_eq : ∀ t u, c.accepts t u = c'.accepts t u
  member?_eq : ∀ owner name, c.forest.member? owner name = c'.forest.member? owner name
  enclosing_eq : c.forest.enclosingClass? = c'.forest.enclosingClass?
  result_eq : c.result = c'.result
  breakable_eq : c.breakable = c'.breakable

variable {c c' : Context} {n : Node} {ls : List VarDecl} {k k' : ScopeId}

namespace Alike

/-- The rule for an operator asks which values may stand where, and nothing else. -/
theorem binary_eq (h : c.Alike c') (s : Span) (op : BinaryOp) (l r : Ty) :
    c.binaryRule s op l r = c'.binaryRule s op l r := by
  unfold binaryRule
  simp only [h.accepts_eq]

/-- The rule for an assignment asks the same. -/
theorem assign_eq (h : c.Alike c') (s : Span) (t v : Ty) :
    c.assignRule s t v = c'.assignRule s t v := by
  unfold assignRule
  rw [h.accepts_eq]

/-- The rule for the object at hand asks for the class around. -/
theorem this_eq (h : c.Alike c') (s : Span) : c.thisRule s = c'.thisRule s := by
  unfold thisRule
  rw [h.enclosing_eq]

/-- The rule for a name asks what the name stands for. -/
theorem name_eq (h : c.Alike c') {i : Ident} (hi : c.notes.decl? i = c'.notes.decl? i) :
    c.nameRule i = c'.nameRule i := by
  unfold nameRule
  rw [← hi]
  cases hd : c.notes.decl? i with
  | none => rfl
  | some d =>
    cases d with
    -- what a variable is declared with stands for the same type
    | var v => exact congrArg Verdict.ok (h.notes.known i _ hd v.type List.mem_cons_self)
    | _ => rfl

/-- The rule for a field asks for the member and for the class around. -/
theorem field_eq (h : c.Alike c') (base : Ty) (i : Ident) :
    c.fieldRule base i = c'.fieldRule base i := by
  unfold fieldRule
  cases base with
  | named owner =>
    simp only [← h.member?_eq, ← h.enclosing_eq, ← h.accepts_eq]
    cases c.forest.member? owner i.name with
    | none => rfl
    | some x =>
      cases x with
      | var _ =>
        cases c.forest.enclosingClass? with
        | none => rfl
        | some d =>
          cases hm : c.forest.member? d.name i.name with
          | none => simp only [hm]
          | some y =>
            cases y with
            | var v => simp only [hm, h.notes.declared.member? hm v.type List.mem_cons_self]
            | _ => simp only [hm]
      | _ => rfl
  | _ => rfl

/-- The rule for arguments asks for the types of the parameters. -/
theorem args_eq (h : c.Alike c') (k : Nat) {vs : List VarDecl}
    (hv : ∀ v ∈ vs, c.notes.denote v.type = c'.notes.denote v.type) (as : List (Span × Ty)) :
    c.argFaults k vs as = c'.argFaults k vs as := by
  induction vs generalizing k as with
  | nil => rfl
  | cons v vs ih =>
    obtain ⟨hv, hvs⟩ := List.forall_mem_cons.mp hv
    cases as with
    | nil => rfl
    | cons a as =>
      unfold argFaults
      simp only [h.accepts_eq, hv, ih _ hvs]

/-- What is wrong with a call is judged alike. -/
theorem call_faults_eq (h : c.Alike c') {g : FnDecl} (hg : c.notes.SameTypes c'.notes (.fn g))
    (i : Ident) (as : List (Span × Ty)) : c.callFaults g i as = c'.callFaults g i as := by
  unfold callFaults
  rw [h.args_eq 1 (List.forall_mem_map.mp (List.forall_mem_cons.mp hg).2)]

/-- The rule for a call asks which function the name stands for. -/
theorem call_eq (h : c.Alike c') {i : Ident} (hi : c.notes.decl? i = c'.notes.decl? i)
    (as : List (Span × Ty)) : c.callRule i as = c'.callRule i as := by
  unfold callRule Notes.fn?
  rw [← hi]
  cases hd : c.notes.decl? i with
  | none => rfl
  | some d =>
    cases d with
    | fn g =>
      have hg := h.notes.known i _ hd
      show Verdict.mk (c.notes.denote g.result) none (c.callFaults g i as) = _
      rw [hg g.result List.mem_cons_self, h.call_faults_eq hg]
      rfl
    | _ => rfl

/-- The rule for a call of a method asks for the member. -/
theorem send_eq (h : c.Alike c') (base : Ty) (i : Ident) (as : List (Span × Ty)) :
    c.sendRule base i as = c'.sendRule base i as := by
  -- a method is found behind the name of a class or of an interface
  have hm : c.methodRule base i as = c'.methodRule base i as := by
    unfold methodRule
    simp only [← h.member?_eq]
    cases hd : base.name?.bind fun owner => c.forest.member? owner i.name with
    | none => rfl
    | some d =>
      obtain ⟨owner, -, ho⟩ := Option.bind_eq_some_iff.mp hd
      cases d with
      | fn g =>
        have hg := h.notes.declared.member? ho
        simp only [hg g.result List.mem_cons_self, h.call_faults_eq hg]
      | _ => rfl
  unfold sendRule
  rw [hm]

/-- The rule for a return asks for the result of the function around. -/
theorem return_eq (h : c.Alike c') (s : Span) (t : Ty) :
    c.returnFaults s t = c'.returnFaults s t := by
  unfold returnFaults
  rw [h.accepts_eq, h.result_eq]

/-- The rule for a break asks what is around. -/
theorem break_eq (h : c.Alike c') (s : Span) : c.breakFaults s = c'.breakFaults s := by
  unfold breakFaults
  rw [h.breakable_eq]

/-- Alike contexts are alike inside a loop. -/
theorem inBreakable (h : c.Alike c') : c.inBreakable.Alike c'.inBreakable :=
  ⟨h.notes, h.accepts_eq, h.member?_eq, h.enclosing_eq, h.result_eq, rfl⟩

/-- Blocks open scopes in which the contexts agree, wherever these scopes lie. -/
theorem inBlock (h : c.Alike c')
    (hk : c.forest.Has (⟨n.id, .holding none (ls.map .var)⟩ : Opening).kept k)
    (hk' : c'.forest.Has (⟨n.id, .holding none (ls.map .var)⟩ : Opening).kept k') :
    (c.inBlock n).Alike (c'.inBlock n) := by
  have e : (c.inBlock n).forest = c.forest.withOpen (k :: c.forest.inner) := hk.enter
  have e' : (c'.inBlock n).forest = c'.forest.withOpen (k' :: c'.forest.inner) := hk'.enter
  refine ⟨?_, h.accepts_eq, fun owner name => ?_, ?_, h.result_eq, h.breakable_eq⟩
  · rw [e]
    exact h.notes.withOpen _
  · rw [e, e']
    exact h.member?_eq owner name
  · rw [e, e', hk.enclosingClass?_eq nofun, hk'.enclosingClass?_eq nofun]
    exact h.enclosing_eq

end Alike

end Context

/-! ## 5. Expressions -/

open Notes (agreeOn_append)

section

variable {c c' : Context} {f : Forest}

mutual

/-- **An expression has the same type and the same report,** if the names in it stand for the
same. -/
theorem Expr.check_alike (h : c.Alike c') : ∀ e : Expr, c.notes.AgreeOn c'.notes (e.uses f) →
    e.check c = e.check c'
  | .int _ _, _ => rfl
  | .double _, _ => rfl
  | .bool _ _, _ => rfl
  | .string _ _, _ => rfl
  | .null _, _ => rfl
  | .this n, _ => by rw [Expr.check, Expr.check, h.this_eq]
  | .readInteger _, _ => rfl
  | .readLine _, _ => rfl
  | .binary n op l r, hu => by
    -- the operands are looked up in turn, so the notes agree on each of them
    obtain ⟨hl, hr⟩ := agreeOn_append.mp hu
    rw [Expr.check, Expr.check, l.check_alike h hl, r.check_alike h hr, h.binary_eq]
  | .unary n op x, hu => by rw [Expr.check, Expr.check, x.check_alike h hu]
  | .step n op x, hu => by rw [Expr.check, Expr.check, x.check_alike h hu]
  | .assign n t v, hu => by
    obtain ⟨ht, hv⟩ := agreeOn_append.mp hu
    rw [Expr.check, Expr.check, t.check_alike h ht, v.check_alike h hv, h.assign_eq]
  | .index n b s, hu => by
    obtain ⟨hb, hs⟩ := agreeOn_append.mp hu
    rw [Expr.check, Expr.check, b.check_alike h hb, s.check_alike h hs]
  | .name n i, hu => by
    rw [Expr.check, Expr.check, h.name_eq (hu.decl?_eq List.mem_cons_self)]
  | .field n b i, hu => by rw [Expr.check, Expr.check, b.check_alike h hu, h.field_eq]
  | .call n i args, hu => by
    obtain ⟨hi, hargs⟩ := agreeOn_append (l := [f.use i .fn]).mp hu
    rw [Expr.check, Expr.check, Expr.check_all_alike h args hargs,
      h.call_eq (hi.decl?_eq List.mem_cons_self)]
  | .send n b i args, hu => by
    obtain ⟨hb, hargs⟩ := agreeOn_append.mp hu
    rw [Expr.check, Expr.check, b.check_alike h hb, Expr.check_all_alike h args hargs, h.send_eq]
  | .new n i, hu => by
    have e : c.newRule i = c'.newRule i := by
      unfold Context.newRule
      rw [hu.decl?_eq List.mem_cons_self]
    rw [Expr.check, Expr.check, e]
  | .newArray n s t, hu => by
    obtain ⟨hs, ht⟩ := agreeOn_append.mp hu
    have e : ∀ u, c.newArrayRule s.span u t = c'.newArrayRule s.span u t := fun u => by
      unfold Context.newArrayRule
      rw [ht.denote_eq]
    rw [Expr.check, Expr.check, s.check_alike h hs, e]

/-- **The check of expressions in a row says the same.** -/
theorem Expr.check_all_alike (h : c.Alike c') : ∀ es : List Expr,
    c.notes.AgreeOn c'.notes (Expr.usesAll f es) → Expr.checkAll c es = Expr.checkAll c' es
  | [], _ => rfl
  | e :: r, hu => by
    obtain ⟨he, hr⟩ := agreeOn_append.mp hu
    rw [Expr.checkAll, Expr.checkAll, e.check_alike h he, Expr.check_all_alike h r hr]

end

theorem Expr.check_opt_alike (h : c.Alike c') : ∀ e : Option Expr,
    c.notes.AgreeOn c'.notes (Expr.usesOpt f e) → Expr.checkOpt c e = Expr.checkOpt c' e
  | none, _ => rfl
  | some e, hu => congrArg Typed.report (e.check_alike h hu)

/-- The check of a test says the same. -/
theorem Expr.check_test_alike (h : c.Alike c') (e : Expr)
    (hu : c.notes.AgreeOn c'.notes (e.uses f)) : e.checkTest c = e.checkTest c' := by
  unfold Expr.checkTest
  rw [e.check_alike h hu]

/-- The check of what is printed says the same. -/
theorem Expr.check_print_alike (h : c.Alike c') (k : Nat) (es : List Expr)
    (hu : c.notes.AgreeOn c'.notes (Expr.usesAll f es)) :
    Expr.checkPrint c k es = Expr.checkPrint c' k es := by
  induction es generalizing k with
  | nil => rfl
  | cons e es ih =>
    obtain ⟨he, hes⟩ := agreeOn_append.mp hu
    unfold Expr.checkPrint
    rw [e.check_alike h he, ih _ hes]

theorem Expr.check_return_alike (h : c.Alike c') (s : Span) : ∀ e : Option Expr,
    c.notes.AgreeOn c'.notes (Expr.usesOpt f e) → Expr.checkReturn c s e = Expr.checkReturn c' s e
  | none, _ => congrArg Report.ofFaults (h.return_eq s .void)
  | some e, hu => by
    show (e.check c).report ++ Report.ofFaults (c.returnFaults s (e.check c).type) = _
    rw [e.check_alike h hu, h.return_eq]
    rfl

end

/-! ## 6. Statements -/

mutual

/-- **A statement has the same report.** -/
theorem Stmt.check_alike : ∀ (s : Stmt) {c c' : Context} {f : Forest}, c.Alike c' →
    c.notes.AgreeOn c'.notes (s.uses f) → c.forest.Keeps s.openings →
      c'.forest.Keeps s.openings → s.check c = s.check c'
  | .block b, _, _, _, h, hu, ho, ho' => b.check_alike h hu ho ho'
  | .ifThen _ t s, _, _, _, h, hu, ho, ho' => by
    obtain ⟨ht, hs⟩ := agreeOn_append.mp hu
    rw [Stmt.check, Stmt.check, t.check_test_alike h ht, s.check_alike h hs ho ho']
  | .ifElse _ t s o, _, _, _, h, hu, ho, ho' => by
    obtain ⟨hu, huo⟩ := agreeOn_append.mp hu
    obtain ⟨ht, hus⟩ := agreeOn_append.mp hu
    -- both forests keep the scopes of both branches
    obtain ⟨hs, ho⟩ := Forest.keeps_append.mp ho
    obtain ⟨hs', ho'⟩ := Forest.keeps_append.mp ho'
    rw [Stmt.check, Stmt.check, t.check_test_alike h ht, s.check_alike h hus hs hs',
      o.check_alike h huo ho ho']
  -- the body of a loop is checked in a context where a break may stand
  | .while _ t s, _, _, _, h, hu, ho, ho' => by
    obtain ⟨ht, hs⟩ := agreeOn_append.mp hu
    rw [Stmt.check, Stmt.check, t.check_test_alike h ht, s.check_alike h.inBreakable hs ho ho']
  | .for _ i t u s, _, _, _, h, hu, ho, ho' => by
    obtain ⟨hu, hs⟩ := agreeOn_append.mp hu
    obtain ⟨hu, hstep⟩ := agreeOn_append.mp hu
    obtain ⟨hi, ht⟩ := agreeOn_append.mp hu
    rw [Stmt.check, Stmt.check, Expr.check_opt_alike h i hi, t.check_test_alike h ht,
      Expr.check_opt_alike h u hstep, s.check_alike h.inBreakable hs ho ho']
  | .switch _ e cs, _, _, _, h, hu, ho, ho' => by
    obtain ⟨he, hcs⟩ := agreeOn_append.mp hu
    rw [Stmt.check, Stmt.check, e.check_alike h he,
      Case.check_all_alike cs h.inBreakable hcs ho ho']
  | .break s, _, _, _, h, _, _, _ => congrArg Report.ofFaults (h.break_eq s)
  | .ret s e, _, _, _, h, hu, _, _ => Expr.check_return_alike h s e hu
  | .print _ es, _, _, _, h, hu, _, _ => Expr.check_print_alike h 1 es hu
  | .expr e, _, _, _, h, hu, _, _ => congrArg Typed.report (e.check_alike h hu)

/-- **The check of a block says the same:** its scope is open in both programs. -/
theorem Block.check_alike : ∀ (b : Block) {c c' : Context} {f : Forest}, c.Alike c' →
    c.notes.AgreeOn c'.notes (b.uses f) → c.forest.Keeps b.openings →
      c'.forest.Keeps b.openings → b.check c = b.check c'
  | ⟨n, ls, ss⟩, c, c', f, h, hu, ho, ho' => by
    obtain ⟨⟨k, hk⟩, hs⟩ := Forest.keeps_cons.mp ho
    obtain ⟨⟨k', hk'⟩, hs'⟩ := Forest.keeps_cons.mp ho'
    -- the scope of the block is there in both forests, under numbers of their own
    have e : (c.inBlock n).forest = c.forest.withOpen (k :: c.forest.inner) := hk.enter
    have e' : (c'.inBlock n).forest = c'.forest.withOpen (k' :: c'.forest.inner) := hk'.enter
    rw [Block.check, Block.check]
    refine Stmt.check_all_alike ss (h.inBlock hk hk') (agreeOn_append.mp hu).2 ?_ ?_
    · rw [e]
      exact hs
    · rw [e']
      exact hs'

theorem Case.check_alike : ∀ (a : Case) {c c' : Context} {f : Forest}, c.Alike c' →
    c.notes.AgreeOn c'.notes (a.uses f) → c.forest.Keeps a.openings →
      c'.forest.Keeps a.openings → a.check c = a.check c'
  | ⟨_, ss⟩, _, _, _, h, hu, ho, ho' => Stmt.check_all_alike ss h hu ho ho'

/-- The check of statements in a row says the same. -/
theorem Stmt.check_all_alike : ∀ (ss : List Stmt) {c c' : Context} {f : Forest}, c.Alike c' →
    c.notes.AgreeOn c'.notes (Stmt.usesAll ss f) → c.forest.Keeps (Stmt.openingsAll ss) →
      c'.forest.Keeps (Stmt.openingsAll ss) → Stmt.checkAll ss c = Stmt.checkAll ss c'
  | [], _, _, _, _, _, _, _ => rfl
  | s :: r, _, _, _, h, hu, ho, ho' => by
    obtain ⟨hus, hur⟩ := agreeOn_append.mp hu
    obtain ⟨hs, hr⟩ := Forest.keeps_append.mp ho
    obtain ⟨hs', hr'⟩ := Forest.keeps_append.mp ho'
    rw [Stmt.checkAll, Stmt.checkAll, s.check_alike h hus hs hs',
      Stmt.check_all_alike r h hur hr hr']

/-- The check of the arms of a switch says the same. -/
theorem Case.check_all_alike : ∀ (cs : List Case) {c c' : Context} {f : Forest}, c.Alike c' →
    c.notes.AgreeOn c'.notes (Case.usesAll cs f) → c.forest.Keeps (Case.openingsAll cs) →
      c'.forest.Keeps (Case.openingsAll cs) → Case.checkAll cs c = Case.checkAll cs c'
  | [], _, _, _, _, _, _, _ => rfl
  | a :: r, _, _, _, h, hu, ho, ho' => by
    obtain ⟨hua, hur⟩ := agreeOn_append.mp hu
    obtain ⟨ha, hr⟩ := Forest.keeps_append.mp ho
    obtain ⟨ha', hr'⟩ := Forest.keeps_append.mp ho'
    rw [Case.checkAll, Case.checkAll, a.check_alike h hua ha ha',
      Case.check_all_alike r h hur hr hr']

end

/-! ## 7. Declarations -/

section

variable {t t' : Hierarchy} {a a' : Notes} {f f' h : Forest}

/-- **A function has the same report** where the surroundings agree. -/
theorem FnDecl.check_alike (g : FnDecl) (ha : a.AgreeIn a' f) (hu : a.AgreeOn a' (g.uses h))
    (ht : ∀ u v, t.accepts u v = t'.accepts u v)
    (hm : ∀ owner name, f.member? owner name = f'.member? owner name)
    (he : f.enclosingClass? = f'.enclosingClass?) (ho : f.Keeps g.openings)
    (ho' : f'.Keeps g.openings) : g.check t a f = g.check t' a' f' := by
  obtain ⟨⟨k, hk⟩, hb⟩ := Forest.keeps_cons.mp ho
  obtain ⟨⟨k', hk'⟩, hb'⟩ := Forest.keeps_cons.mp ho'
  have e : f.enterFn g = f.withOpen (k :: f.inner) := hk.enterOwned rfl
  have e' : f'.enterFn g = f'.withOpen (k' :: f'.inner) := hk'.enterOwned rfl
  -- a function is not a class, so opening its scope leaves the class around as it is
  have hn : ∀ w ∈ some g.owner, w.kind ≠ .cls := fun w hw => by
    cases hw
    exact nofun
  -- the contexts of the body differ in nothing that its check looks at
  have hc : Context.Alike ⟨f.enterFn g, a, t, a.denote g.result, false⟩
      ⟨f'.enterFn g, a', t', a'.denote g.result, false⟩ := by
    refine ⟨?_, ht, fun owner name => ?_, ?_, hu.head g.result List.mem_cons_self, rfl⟩
    · rw [e]
      exact ha.withOpen _
    · rw [e, e']
      exact hm owner name
    · rw [e, e', hk.enclosingClass?_eq hn, hk'.enclosingClass?_eq hn]
      exact he
  have hub := (agreeOn_append.mp hu).2
  unfold FnDecl.check
  cases hg : g.body with
  | none => rfl
  | some b =>
    rw [hg] at hb hb' hub
    refine b.check_alike hc hub ?_ ?_
    · rw [e]
      exact hb
    · rw [e']
      exact hb'

theorem FnDecl.check_all_alike (gs : List FnDecl) (h : ∀ g ∈ gs, g.check t a f = g.check t' a' f') :
    FnDecl.checkAll gs t a f = FnDecl.checkAll gs t' a' f' := by
  induction gs with
  | nil => rfl
  | cons g gs ih =>
    obtain ⟨hg, hgs⟩ := List.forall_mem_cons.mp h
    rw [FnDecl.checkAll, FnDecl.checkAll, hg, ih hgs]

/-- The check of declarations in a row says the same. -/
theorem Decl.check_all_alike (ds : List Decl) (h : ∀ d ∈ ds, d.check t a f = d.check t' a' f') :
    Decl.checkAll t a f ds = Decl.checkAll t' a' f' ds := by
  induction ds with
  | nil => rfl
  | cons d ds ih =>
    obtain ⟨hd, hds⟩ := List.forall_mem_cons.mp h
    rw [Decl.checkAll, Decl.checkAll, hd, ih hds]

end

end DecafLang
