import DecafLang.Syntax.Parts
import DecafLang.Proofs.Forests

/-!
# Constructs and declarations

Which pieces of a program have scopes, and which piece each declaration stands in.

* `Part.declares?` are the declarations of a piece that has a scope. **Every declaration of a
  program stands in one such piece** (`Program.all_decls_perm`).
* `Decl.refused` are the reports of what one scope refuses, since its name is taken there.
* `Tally` compares a walk with the pieces that it passes: it opens the scopes of these pieces and
  no others, it puts each of their declarations once, and it reports what is refused in each of
  them. One step of the walk is tallied for each form of the syntax.
-/

namespace DecafLang

/-! ## 1. Pieces with scopes -/

namespace Part

/-- What a piece declares in its own scope, if it has one, in the order of the text: the top level,
members, prototypes, formals or locals. -/
def declares? : Part → Option (List Decl)
  | program p => some p.decls
  | decl (.cls c) => some c.members
  | decl (.iface i) => some (i.members.map .fn)
  | decl (.fn g) => some (g.formals.map .var)
  | block b => some (b.locals.map .var)
  | _ => none

/-- What a piece declares, which is nothing if it has no scope. -/
def declares (q : Part) : List Decl := q.declares?.getD []

/-- The scope that a piece other than the program opens. -/
def opening? : Part → Option Opening
  | decl (.cls c) => some ⟨c.node.id, c.heading.addAll c.members⟩
  | decl (.iface i) => some ⟨i.node.id, .holding (some i.owner) (i.members.map .fn)⟩
  | decl (.fn g) => some ⟨g.id, .holding (some g.owner) (g.formals.map .var)⟩
  | block b => some ⟨b.node.id, .holding none (b.locals.map .var)⟩
  | _ => none

/-- A piece that declares nothing and is no declaration. -/
def Inert : Part → Prop
  | type _ | use _ | declared _ | expr _ => True
  | block _ | decl _ | program _ => False

variable {q : Part} {ps : List Part} {o : Opening}

/-- A piece has a scope just when it has declarations to put there. -/
theorem opening?_isSome (hq : ∀ p, q ≠ program p) : q.opening?.isSome = q.declares?.isSome := by
  cases q with
  | program p => exact absurd rfl (hq p)
  | block b => rfl
  | decl d => cases d <;> rfl
  | _ => rfl

/-- **The scope of a piece holds what the piece declares.** -/
theorem declares_of_opening? (h : q.opening? = some o) :
    o.node = q.id ∧ q.declares? = some o.scope.decls := by
  cases q with
  | block b =>
    cases b
    cases h
    exact ⟨rfl, rfl⟩
  | decl d =>
    -- a variable has no scope, and each other declaration has the one it opens
    cases d <;> cases h
    · exact ⟨rfl, rfl⟩
    · exact ⟨rfl, rfl⟩
    · exact ⟨rfl, rfl⟩
  | _ => cases h

/-- Pieces that are inert come to nothing. -/
theorem of_inert (h : ∀ q ∈ ps, q.Inert) :
    ps.filterMap opening? = [] ∧ ps.filterMap decl? = [] ∧ ps.flatMap declares = [] ∧
      ∀ q ∈ ps, ∀ p, q ≠ program p := by
  refine ⟨List.filterMap_eq_nil_iff.mpr fun q hq => ?_,
    List.filterMap_eq_nil_iff.mpr fun q hq => ?_,
    List.flatMap_eq_nil_iff.mpr fun q hq => ?_, fun q hq p e => ?_⟩
  · cases q <;> first | rfl | exact (h _ hq).elim
  · cases q <;> first | rfl | exact (h _ hq).elim
  · cases q <;> first | rfl | exact (h _ hq).elim
  · subst e
    exact h _ hq

/-- Pieces without scopes in a row. -/
theorem inert_append {ps qs : List Part} (h : ∀ q ∈ ps, q.Inert) (h' : ∀ q ∈ qs, q.Inert) :
    ∀ q ∈ ps ++ qs, q.Inert := List.forall_mem_append.mpr ⟨h, h'⟩

theorem inert_declared (i : Ident) : ∀ q ∈ [Part.declared i], q.Inert :=
  List.forall_mem_singleton.mpr trivial

end Part

open DecafLang.Part (inert_append)

/-- No piece of a type has a scope. -/
theorem TypeExpr.inert : ∀ t : TypeExpr, ∀ q ∈ t.parts, q.Inert
  | .prim _ _ => by simp [TypeExpr.parts, Part.Inert]
  | .named _ _ => by simp [TypeExpr.parts, Part.Inert]
  | .array _ t => inert_append t.inert (by simp [Part.Inert])

mutual

/-- **No piece of an expression has a scope.** -/
theorem Expr.inert : ∀ e : Expr, ∀ q ∈ e.parts, q.Inert
  | .int _ _ | .double _ | .bool _ _ | .string _ _ | .null _ | .this _ | .readInteger _
  | .readLine _ => List.forall_mem_singleton.mpr trivial
  | .binary _ _ l r => inert_append (inert_append l.inert r.inert) (by simp [Part.Inert])
  | .unary _ _ x => inert_append x.inert (by simp [Part.Inert])
  | .step _ _ x => inert_append x.inert (by simp [Part.Inert])
  | .assign _ t v => inert_append (inert_append t.inert v.inert) (by simp [Part.Inert])
  | .index _ b s => inert_append (inert_append b.inert s.inert) (by simp [Part.Inert])
  | .name _ _ => by simp [Expr.parts, Part.Inert]
  | .field _ b _ => inert_append b.inert (by simp [Part.Inert])
  | .call _ _ args => inert_append (Expr.inert_all args) (by simp [Part.Inert])
  | .send _ b _ args =>
    inert_append (inert_append b.inert (Expr.inert_all args)) (by simp [Part.Inert])
  | .new _ _ => by simp [Expr.parts, Part.Inert]
  | .newArray _ s t => inert_append (inert_append s.inert t.inert) (by simp [Part.Inert])

/-- Nor has one of expressions in a row. -/
theorem Expr.inert_all : ∀ es : List Expr, ∀ q ∈ Expr.partsAll es, q.Inert
  | [] => nofun
  | e :: r => inert_append e.inert (Expr.inert_all r)

end

theorem Expr.inert_opt : ∀ e : Option Expr, ∀ q ∈ Expr.partsOpt e, q.Inert
  | none => nofun
  | some e => e.inert

/-! ## 2. What is refused in one scope -/

namespace Decl

/-- The reports of what is refused of declarations that come after others. -/
def refused : List Decl → List Decl → List Diagnostic
  | _, [] => []
  | old, d :: r => d.clash old ++ refused (old ++ admitted old [d]) r

/-- What the first declarations leave is what the later ones are refused for. -/
theorem refused_append (old ds ds' : List Decl) :
    refused old (ds ++ ds') = refused old ds ++ refused (old ++ admitted old ds) ds' := by
  induction ds generalizing old with
  | nil => rw [admitted, List.append_nil]; rfl
  | cons d ds ih =>
    have e : admitted old (d :: ds) = admitted old [d] ++ admitted (old ++ admitted old [d]) ds :=
      admitted_append old [d] ds
    rw [List.cons_append, refused, refused, ih, e, List.append_assoc, List.append_assoc]

end Decl

/-- What a walk asks for when it puts a declaration. -/
def Use.inserts : Use → Bool
  | .insert _ => true
  | _ => false

/-- Of four lists the two in the middle may change places. -/
theorem perm_interchange {α : Type} (a b c d : List α) :
    ((a ++ b) ++ (c ++ d)).Perm ((a ++ c) ++ (b ++ d)) := by
  rw [List.append_assoc, List.append_assoc]
  exact (List.perm_append_comm_assoc b c d).append_left a

/-- What comes of one element is what comes of it, if anything. -/
theorem filterMap_one {α β : Type} (f : α → Option β) (a : α) :
    [a].filterMap f = (f a).toList := by
  rw [List.filterMap_eq_flatMap_toList, List.flatMap_singleton]

/-! ## 3. The tally of a walk -/

/-- **A step passes these pieces.** What it puts in the scope that is open, the scopes that it
opens and the reports that it makes are those of the pieces. -/
structure Tally (step : Declared → Declared) (ps : List Part) (ds : List Decl)
    (os : List Opening) (clashes : List Decl → List Diagnostic) : Prop where
  asks : ∃ us, (∀ d : Declared, step d = d.run us) ∧
    us.countP Use.inserts = (ps.filterMap Part.decl?).length
  inside : ∀ q ∈ ps, ∀ p, q ≠ .program p
  openings : (ps.filterMap Part.opening?).Perm os
  decls : (ps.filterMap Part.decl?).Perm (ds ++ ps.flatMap Part.declares)
  reports : ∀ old,
    (clashes old).Perm (Decl.refused old ds ++ ps.flatMap fun q => Decl.refused [] q.declares)

namespace Tally

variable {step step' : Declared → Declared} {ps ps' : List Part} {ds ds' : List Decl}
  {os os' : List Opening} {cs cs' : List Decl → List Diagnostic}

/-- A walk that does nothing has passed pieces without scopes. -/
theorem inert (h : ∀ q ∈ ps, q.Inert) : Tally (fun d => d) ps [] [] fun _ => [] := by
  obtain ⟨ho, hd, hf, hp⟩ := Part.of_inert h
  -- a piece without declarations refuses none
  have hr : (ps.flatMap fun q => Decl.refused [] q.declares) = [] :=
    List.flatMap_eq_nil_iff.mpr fun q hq => by rw [List.flatMap_eq_nil_iff.mp hf q hq]; rfl
  constructor
  · exact ⟨[], fun _ => rfl, by rw [hd]; rfl⟩
  · exact hp
  · rw [ho]
  · rw [hd, hf]
    exact .nil
  · intro old
    rw [hr]
    exact .nil

/-- **One walk after the other passes the pieces of both.** -/
theorem andThen (h : Tally step ps ds os cs) (h' : Tally step' ps' ds' os' cs') :
    Tally (fun d => step' (step d)) (ps ++ ps') (ds ++ ds') (os ++ os')
      fun old => cs old ++ cs' (old ++ Decl.admitted old ds) where
  asks := by
    obtain ⟨us, e, hc⟩ := h.asks
    obtain ⟨us', e', hc'⟩ := h'.asks
    -- the requests of both walks, one part behind the other
    refine ⟨us ++ us', fun d => ?_, ?_⟩
    · rw [e', e, Declared.run_append]
    · rw [List.countP_append, List.filterMap_append, List.length_append, hc, hc']
  inside := List.forall_mem_append.mpr ⟨h.inside, h'.inside⟩
  openings := by
    rw [List.filterMap_append]
    exact h.openings.append h'.openings
  decls := by
    rw [List.filterMap_append, List.flatMap_append]
    exact (h.decls.append h'.decls).trans (perm_interchange ..)
  reports old := by
    rw [List.flatMap_append, Decl.refused_append]
    exact ((h.reports old).append (h'.reports _)).trans (perm_interchange ..)

/-- Inert pieces in front. -/
theorem after (h : ∀ q ∈ ps, q.Inert) (h' : Tally step ps' ds os cs) :
    Tally step (ps ++ ps') ds os cs := by
  have := (inert h).andThen h'
  simpa only [List.nil_append, List.append_nil, Decl.admitted] using this

/-- Inert pieces behind. -/
theorem before (h : Tally step ps ds os cs) (h' : ∀ q ∈ ps', q.Inert) :
    Tally step (ps ++ ps') ds os cs := by
  have := h.andThen (inert h')
  simpa only [List.append_nil] using this

/-- A variable is put, and that is all. -/
theorem put (v : VarDecl) :
    Tally (fun d => d.put (.var v)) [.decl (.var v)] [.var v] [] fun old =>
      (Decl.var v).clash old where
  asks := ⟨[.insert (.var v)], fun _ => rfl, rfl⟩
  inside := List.forall_mem_singleton.mpr nofun
  openings := .nil
  decls := .refl _
  reports old := by
    show List.Perm _ (((Decl.var v).clash old ++ []) ++ [])
    rw [List.append_nil, List.append_nil]

/-- What a step does in the scope of a piece, which is opened after the piece is put, if it is a
declaration, and closed behind the step. -/
theorem opened {enter : Declared → Declared} {q : Part} {o : Opening}
    (he : ∃ us, (∀ d : Declared, enter d = d.run us) ∧
      us.countP Use.inserts = q.decl?.toList.length)
    (ho : q.opening? = some o) (hq : ∀ p, q ≠ .program p) (h : Tally step ps q.declares os cs) :
    Tally (fun d => (step (enter d)).exit) (ps ++ [q]) q.decl?.toList (o :: os)
      fun old => Decl.refused old q.decl?.toList ++ cs [] where
  asks := by
    obtain ⟨us, e, hc⟩ := h.asks
    obtain ⟨vs, e', hc'⟩ := he
    -- entering and leaving put nothing, so only the piece itself is counted besides
    refine ⟨vs ++ (us ++ [.exit]), fun d => ?_, ?_⟩
    · rw [Declared.run_append, Declared.run_append, ← e', ← e]
      rfl
    · rw [List.countP_append, List.countP_append, hc, hc', List.filterMap_append,
        List.length_append, filterMap_one, Nat.add_comm]
      rfl
  inside := List.forall_mem_append.mpr ⟨h.inside, List.forall_mem_singleton.mpr hq⟩
  openings := by
    rw [List.filterMap_append, List.filterMap_cons_some ho]
    -- the scope is opened first, and its piece comes last
    exact (List.perm_append_singleton _ _).trans (h.openings.cons o)
  decls := by
    rw [List.filterMap_append, filterMap_one, List.flatMap_append, List.flatMap_singleton]
    exact List.perm_append_comm.trans ((h.decls.trans List.perm_append_comm).append_left _)
  reports old := by
    rw [List.flatMap_append, List.flatMap_singleton]
    exact ((h.reports []).trans List.perm_append_comm).append_left _

/-- What a step does between the opening and the closing of the scope of a block. -/
theorem within (enter : Forest → Forest) {q : Part} {o : Opening}
    (he : ∃ us, (∀ d : Declared, d.withForest enter = d.run us) ∧ us.countP Use.inserts = 0)
    (hd : q.decl? = none) (ho : q.opening? = some o) (hq : ∀ p, q ≠ .program p)
    (h : Tally step ps q.declares os cs) :
    Tally (fun d => (step (d.withForest enter)).exit) (ps ++ [q]) [] (o :: os)
      fun _ => cs [] := by
  have h := h.opened (by rw [hd]; exact he) ho hq
  rw [hd] at h
  exact h

/-- A declaration is put, and then its own scope is filled. -/
theorem own (enter : Forest → Forest) {x : Decl} {o : Opening}
    (he : ∃ us, (∀ d : Declared, d.withForest enter = d.run us) ∧ us.countP Use.inserts = 0)
    (ho : (Part.decl x).opening? = some o) (h : Tally step ps (Part.decl x).declares os cs) :
    Tally (fun d => (step ((d.put x).withForest enter)).exit) (ps ++ [.decl x]) [x] (o :: os)
      fun old => x.clash old ++ cs [] := by
  obtain ⟨us, e, hc⟩ := he
  have hone : (Use.insert x :: us).countP Use.inserts = 1 := by
    rw [List.countP_cons_of_pos rfl, hc]
  have h := h.opened (q := .decl x) ⟨.insert x :: us, fun d => e (d.put x), hone⟩ ho nofun
  have hr : ∀ old, Decl.refused old (Part.decl x).decl?.toList = x.clash old := fun old =>
    List.append_nil _
  simp only [hr] at h
  exact h

end Tally

/-! ## 4. The tally of the declarations -/

/-- A variable is put, and the pieces of its type have no scopes. -/
theorem VarDecl.tally (v : VarDecl) :
    Tally (fun d => d.put (.var v)) v.parts [.var v] [] fun old => (Decl.var v).clash old := by
  have h := ((Tally.put v).after (Part.inert_declared v.ident)).after v.type.inert
  exact h

/-- The same for variables in a row. -/
theorem VarDecl.tally_all (vs : List VarDecl) :
    Tally (fun d => d.putVars vs) (vs.flatMap VarDecl.parts) (vs.map .var) []
      fun old => VarDecl.clashesAll old vs := by
  induction vs with
  | nil => exact .inert nofun
  | cons v vs ih => exact v.tally.andThen ih

mutual

/-- **The walk of a statement is tallied with its pieces:** expressions in it have no scopes. -/
theorem Stmt.tally : ∀ s : Stmt, Tally s.declare s.parts [] s.openings fun _ => s.clashes
  | .block b => b.tally
  | .ifThen _ t s => s.tally.after t.inert
  | .ifElse _ t s o => (s.tally.after t.inert).andThen o.tally
  | .while _ t s => s.tally.after t.inert
  | .for _ i t u s => s.tally.after
      (inert_append (inert_append (Expr.inert_opt i) t.inert) (Expr.inert_opt u))
  | .switch _ e cs => (Case.tally_all cs).after e.inert
  | .break _ => .inert nofun
  | .ret _ e => .inert (Expr.inert_opt e)
  | .print _ es => .inert (Expr.inert_all es)
  | .expr e => .inert e.inert

/-- A block has a scope, where its variables are put. -/
theorem Block.tally : ∀ b : Block, Tally b.declare b.parts [] b.openings fun _ => b.clashes
  | ⟨n, ls, ss⟩ => by
    have h := (VarDecl.tally_all ls).andThen (Stmt.tally_all ss)
    rw [List.append_nil] at h
    exact h.within (fun f => f.enter n.id) (q := .block ⟨n, ls, ss⟩)
      ⟨[.enter n.id], fun _ => rfl, rfl⟩ rfl rfl nofun

theorem Case.tally : ∀ c : Case, Tally c.declare c.parts [] c.openings fun _ => c.clashes
  | ⟨_, ss⟩ => Stmt.tally_all ss

/-- The same for statements in a row. -/
theorem Stmt.tally_all : ∀ ss : List Stmt,
    Tally (Stmt.declareAll ss) (Stmt.partsAll ss) [] (Stmt.openingsAll ss)
      fun _ => Stmt.clashesAll ss
  | [] => .inert nofun
  | s :: r => s.tally.andThen (Stmt.tally_all r)

/-- The same for the arms of a switch. -/
theorem Case.tally_all : ∀ cs : List Case,
    Tally (Case.declareAll cs) (Case.partsAll cs) [] (Case.openingsAll cs)
      fun _ => Case.clashesAll cs
  | [] => .inert nofun
  | c :: r => c.tally.andThen (Case.tally_all r)

end

theorem Block.tally_opt : ∀ b : Option Block,
    Tally (Block.declareOpt b) (Block.partsOpt b) [] (Block.openingsOpt b)
      fun _ => Block.clashesOpt b
  | none => .inert nofun
  | some b => b.tally

/-- **A function is put in the open scope, and its parameters in a scope of its own.** -/
theorem FnDecl.tally (g : FnDecl) :
    Tally g.declare g.parts [.fn g] g.openings fun old => (Decl.fn g).clash old ++ g.clashes := by
  have h := (((VarDecl.tally_all g.formals).andThen (Block.tally_opt g.body)).after
    g.result.inert).before (Part.inert_declared g.ident)
  rw [List.append_nil] at h
  have h := h.own (fun f => f.enterFn g) (x := .fn g)
    ⟨[.enterOwned g.id g.owner], fun _ => rfl, rfl⟩ rfl
  -- the pieces stand in the order of the syntax, which is not that of the walk
  have e : g.parts = g.result.parts ++ (g.formals.flatMap VarDecl.parts ++
      Block.partsOpt g.body) ++ [.declared g.ident] ++ [.decl (.fn g)] := by
    simp only [FnDecl.parts, List.append_assoc, List.cons_append, List.nil_append]
  rw [e]
  exact h

/-- The same for functions in a row. -/
theorem FnDecl.tally_all (gs : List FnDecl) :
    Tally (fun d => gs.foldl (fun d g => g.declare d) d) (gs.flatMap FnDecl.parts) (gs.map .fn)
      (gs.flatMap FnDecl.openings) fun old => FnDecl.clashesAll old gs := by
  induction gs with
  | nil => exact .inert nofun
  | cons g gs ih =>
    rw [List.flatMap_cons, List.flatMap_cons]
    exact g.tally.andThen ih

/-- An interface is put in the open scope, and its methods in a scope of its own. -/
theorem IfaceDecl.tally (i : IfaceDecl) :
    Tally (fun d => i.declareInside (d.put (.iface i))) i.parts [.iface i] i.openings
      fun old => (Decl.iface i).clash old ++ i.clashes := by
  have h := ((FnDecl.tally_all i.members).before (Part.inert_declared i.ident)).own
    (fun f => f.enterIface i) (x := .iface i)
    ⟨[.enterOwned i.node.id i.owner], fun _ => rfl, rfl⟩ rfl
  have e : i.parts = i.members.flatMap FnDecl.parts ++ [.declared i.ident] ++
      [.decl (.iface i)] := by
    simp only [IfaceDecl.parts, List.append_assoc, List.cons_append, List.nil_append]
  rw [e]
  exact h

/-- What the head of a class asks for, once its scope is open. -/
theorem ClassDecl.enter_header_asks (c : ClassDecl) :
    ∃ us, (∀ d : Declared, d.withForest (·.enterHeader c) =
      (d.withForest (·.enterClass c)).run us) ∧ us.countP Use.inserts = 0 := by
  have listed : ∀ (is : List Ident) (d : Declared),
      d.withForest (fun f => is.foldl (fun f i => f.addListed i.name) f) =
        d.run (is.map fun i => .addListed i.name) := by
    intro is
    induction is with
    | nil => exact fun d => rfl
    | cons i is ih => exact fun d => ih (d.withForest (·.addListed i.name))
  refine ⟨c.base.toList.map (fun b => .setBase b.name) ++
    c.interfaces.map fun i => .addListed i.name, fun d => ?_, ?_⟩
  · rw [Declared.run_append, ← listed]
    unfold Forest.enterHeader
    cases c.base <;> rfl
  · refine List.countP_eq_zero.mpr fun u hu => ?_
    simp only [List.mem_append, List.mem_map] at hu
    obtain ⟨b, -, rfl⟩ | ⟨i, -, rfl⟩ := hu <;> exact nofun

mutual

/-- **The walk of a declaration is tallied with its pieces.** -/
theorem Decl.tally : ∀ x : Decl,
    Tally x.declare x.parts [x] x.openings fun old => x.clash old ++ x.clashes
  | .var v => by
    have h := v.tally.andThen (.inert (nofun : ∀ q ∈ [], Part.Inert q))
    rw [List.append_nil] at h
    exact h
  | .fn g => g.tally
  | .iface i => i.tally
  | .cls c => c.tally

/-- A class is put in the open scope, and its members in a scope of its own. -/
theorem ClassDecl.tally : ∀ c : ClassDecl,
    Tally (fun d => c.declareInside (d.put (.cls c))) c.parts [.cls c] c.openings
      fun old => (Decl.cls c).clash old ++ c.clashes
  | ⟨n, i, b, is, ms⟩ => by
    obtain ⟨us, he, hc⟩ := ClassDecl.enter_header_asks ⟨n, i, b, is, ms⟩
    -- the names in the head of a class have no scopes
    have hq : ∀ q ∈ Part.declared i :: (b.toList.map .use ++ is.map .use), q.Inert := by
      refine List.forall_mem_cons.mpr ⟨trivial, List.forall_mem_append.mpr ⟨?_, ?_⟩⟩ <;>
        exact List.forall_mem_map.mpr fun _ _ => trivial
    have h := ((Decl.tally_all ms).before hq).own
      (fun f => f.enterHeader ⟨n, i, b, is, ms⟩) (x := .cls ⟨n, i, b, is, ms⟩)
      ⟨.enterOwned n.id (ClassDecl.owner ⟨n, i, b, is, ms⟩) :: us, he, hc⟩ rfl
    have e : ClassDecl.parts ⟨n, i, b, is, ms⟩ = Decl.partsAll ms ++
        (.declared i :: (b.toList.map .use ++ is.map .use)) ++
        [.decl (.cls ⟨n, i, b, is, ms⟩)] := by
      simp only [ClassDecl.parts, List.append_assoc, List.cons_append, List.nil_append]
    rw [e]
    exact h

/-- The same for declarations in a row. -/
theorem Decl.tally_all : ∀ ds : List Decl,
    Tally (Decl.declareAll ds) (Decl.partsAll ds) ds (Decl.openingsAll ds)
      fun old => Decl.clashesAll old ds
  | [] => .inert nofun
  | x :: r => x.tally.andThen (Decl.tally_all r)

end

/-! ## 5. The pieces of a program -/

namespace Program

variable {p : Program}

/-- **Every declaration stands in one piece.** -/
theorem all_decls_perm (p : Program) : p.allDecls.Perm (p.parts.flatMap Part.declares) := by
  unfold allDecls parts
  rw [List.filterMap_append, List.flatMap_append]
  show (_ ++ []).Perm (_ ++ (p.decls ++ []))
  rw [List.append_nil, List.append_nil]
  exact (Decl.tally_all p.decls).decls.trans List.perm_append_comm

/-- A piece of the program is the program itself or a piece of a declaration. -/
theorem mem_parts {q : Part} (hq : q ∈ p.parts) :
    q = .program p ∨ q ∈ Decl.partsAll p.decls ∧ ∀ p', q ≠ .program p' := by
  rcases List.mem_append.mp hq with hq | hq
  · exact .inr ⟨hq, (Decl.tally_all p.decls).inside q hq⟩
  · exact .inl (List.mem_singleton.mp hq)

/-- The scopes of a program are those of its pieces. -/
theorem mem_openings {o : Opening} :
    o ∈ p.openings ↔ ∃ q ∈ p.parts, q.opening? = some o := by
  refine (Decl.tally_all p.decls).openings.mem_iff.symm.trans (List.mem_filterMap.trans ?_)
  constructor
  · intro ⟨q, hq, ho⟩
    exact ⟨q, List.mem_append_left _ hq, ho⟩
  · intro ⟨q, hq, ho⟩
    rcases mem_parts hq with rfl | ⟨hq, -⟩
    · cases ho
    · exact ⟨q, hq, ho⟩

end Program

end DecafLang
