import Mathlib.Data.List.Chain
import DecafLang.Syntax.Handwritten
import DecafLang.Session
import DecafLang.Proofs.Nesting

/-!
# Coming back to the scopes

**The later checks go through the scopes of the declarations and leave the forest as it is,**
however often and in whatever order they are run (`Program.Numbered.reentered`).

* A check is written out as a list of `Move`s: it opens the scope of a construct, closes the scope
  that is open, and looks something up. `Move.run` makes them one after the other.
* `Walks` says that moves give the forest back with all that was seen, and that **after any part
  of them the open scopes are those of the constructs that were entered and not left,** each lying
  in the next (`Forest.Stands`). It composes along the syntax, like the moves do.
-/

namespace DecafLang

/-! ## 1. Moves -/

/-- What a check does with the forest. -/
inductive Move (ω : Type) where
  /-- It opens the scope of a block. -/
  | enter (n : NodeId)
  /-- It opens the scope of a named construct. -/
  | enterOwned (n : NodeId) (o : Owner)
  /-- It closes the innermost open scope. -/
  | exit
  /-- It looks something up. -/
  | look (see : Forest → List ω)

namespace Move

variable {ω : Type}

/-- The forest after a move. -/
def act : Move ω → Forest → Forest
  | enter n, f => f.enter n
  | enterOwned n o, f => f.enterOwned n o
  | exit, f => f.exit
  | look _, f => f

/-- What a move finds. -/
def seen : Move ω → Forest → List ω
  | look see, f => see f
  | _, _ => []

/-- The forest after several moves, and what they find. -/
def run : List (Move ω) → Forest → Forest × List ω
  | [], f => (f, [])
  | m :: ms, f => ((run ms (m.act f)).1, m.seen f ++ (run ms (m.act f)).2)

/-- The constructs that are entered and not left, innermost first. -/
def inside : List NodeId → List (Move ω) → List NodeId
  | ns, [] => ns
  | ns, enter n :: ms => inside (n :: ns) ms
  | ns, enterOwned n _ :: ms => inside (n :: ns) ms
  | ns, exit :: ms => inside ns.tail ms
  | ns, look _ :: ms => inside ns ms

/-- Moves in a row are made one part after the other. -/
theorem run_append (ms ms' : List (Move ω)) (f : Forest) :
    run (ms ++ ms') f = ((run ms' (run ms f).1).1, (run ms f).2 ++ (run ms' (run ms f).1).2) := by
  induction ms generalizing f with
  | nil => rfl
  | cons m ms ih =>
    show ((run (ms ++ ms') (m.act f)).1, m.seen f ++ (run (ms ++ ms') (m.act f)).2) = _
    rw [ih, ← List.append_assoc]
    rfl

/-- The constructs that are entered and not left are those of the last part, on top of the others.
-/
theorem inside_append (ms ms' : List (Move ω)) (ns : List NodeId) :
    inside ns (ms ++ ms') = inside (inside ns ms) ms' := by
  induction ms generalizing ns with
  | nil => rfl
  | cons m ms ih => cases m <;> exact ih _

end Move

/-! ## 2. Where a check stands -/

namespace Forest

/-- **The open scopes are those of these constructs, innermost first, and below them the global
one. Each lies in the next, and the global one lies in none.** -/
structure Stands (f : Forest) (ns : List NodeId) : Prop where
  nodes : f.inner.map some = ns.map f.scopeOf?
  chain : f.active.IsChain fun k j => (f.scope k).enclosing = some j
  global : (f.scope globalId).enclosing = none

/-- The open scope is that of a construct, and what is in the construct has its scopes. -/
structure Around (f : Forest) (q : Option NodeId) (ls : List Link) : Prop where
  here : f.place? q = some f.current
  lodged : ∀ l ∈ ls, f.Lodged l

section

variable {f : Forest} {q : Option NodeId} {l : Link} {ls ls' : List Link} {n : NodeId} {k : ScopeId}
  {ns : List NodeId}

/-- A forest that stands around links stands around the first part of them. -/
theorem Around.left (h : f.Around q (ls ++ ls')) : f.Around q ls :=
  ⟨h.here, fun l hl => h.lodged l (List.mem_append_left _ hl)⟩

theorem Around.right (h : f.Around q (ls ++ ls')) : f.Around q ls' :=
  ⟨h.here, fun l hl => h.lodged l (List.mem_append_right _ hl)⟩

theorem Around.subset (h : f.Around q ls) (hs : ls' ⊆ ls) : f.Around q ls' :=
  ⟨h.here, fun l hl => h.lodged l (hs hl)⟩

/-- **Opening the scope of a construct puts it on top of the open scopes.** -/
theorem Stands.opened (h : f.Stands ns) (hk : f.scopeOf? n = some k)
    (he : (f.scope k).enclosing = some f.current) :
    (f.withOpen (k :: f.inner)).Stands (n :: ns) where
  nodes := by
    show some k :: f.inner.map some = f.scopeOf? n :: ns.map f.scopeOf?
    rw [hk, h.nodes]
  chain := by
    show List.IsChain (fun k j => (f.scope k).enclosing = some j) (k :: f.active)
    refine List.isChain_cons.mpr ⟨fun j hj => ?_, h.chain⟩
    -- the new scope lies in the one that was open
    have e : f.active.head? = some f.current := by
      unfold active current
      cases f.inner <;> rfl
    rw [he]
    exact e.symm.trans hj
  global := h.global

/-- **Coming back to a construct opens the scope that it has,** and that is all. -/
theorem Around.opens (h : f.Around q (⟨n, q, b⟩ :: ls)) :
    ∃ k, f.scopeOf? n = some k ∧ (f.scope k).enclosing = some f.current ∧
      f.enter n = f.withOpen (k :: f.inner) ∧
      (b = true → ∀ o, f.enterOwned n o = f.withOpen (k :: f.inner)) ∧
      (f.withOpen (k :: f.inner)).Around (some n) ls := by
  obtain ⟨k, j, hk, hj, he, ho⟩ := h.lodged _ List.mem_cons_self
  obtain rfl : j = f.current := Option.some.inj (hj.symm.trans h.here)
  refine ⟨k, hk, he, ?_, fun hb o => ?_, hk, fun l hl => h.lodged l (List.mem_cons_of_mem _ hl)⟩
  · unfold Forest.enter
    rw [grow_of_get? hk, slotOf_of_get? hk]
    rfl
  · obtain ⟨w, hw⟩ := Option.isSome_iff_exists.mp (ho hb)
    unfold Forest.enterOwned claim
    rw [grow_of_get? hk, slotOf_of_get? hk, hw]
    rfl

end

end Forest

/-- **Moves give the forest back and find this.** After any part of them, the open scopes are those
of the constructs that were entered and not left. -/
structure Walks {ω : Type} (f : Forest) (ms : List (Move ω)) (out : List ω) : Prop where
  run_eq : Move.run ms f = (f, out)
  inside_eq : ∀ ns, Move.inside ns ms = ns
  stands : ∀ ns, f.Stands ns → ∀ before rest, ms = before ++ rest → ∃ ks,
    (Move.run before f).1 = f.withOpen ks ∧ (f.withOpen ks).Stands (Move.inside ns before)

namespace Walks

variable {ω : Type} {f : Forest} {ms ms' : List (Move ω)} {out out' : List ω} {q : Option NodeId}
  {n : NodeId} {b : Bool} {ls : List Link}

theorem skip : Walks f ([] : List (Move ω)) [] := by
  refine ⟨rfl, fun _ => rfl, fun ns h before rest e => ⟨f.inner, ?_⟩⟩
  -- no moves have no part but themselves
  obtain ⟨rfl, -⟩ := List.append_eq_nil_iff.mp e.symm
  exact ⟨rfl, h⟩

/-- Looking something up moves nowhere. -/
theorem look (see : Forest → List ω) : Walks f [.look see] (see f) := by
  refine ⟨by simp [Move.run, Move.act, Move.seen], fun _ => rfl,
    fun ns h before rest e => ⟨f.inner, ?_⟩⟩
  -- the parts of one move are nothing and the move itself
  cases before with
  | nil => exact ⟨rfl, h⟩
  | cons m before =>
    obtain ⟨rfl, e'⟩ := List.cons.inj e
    obtain ⟨rfl, -⟩ := List.append_eq_nil_iff.mp e'.symm
    exact ⟨rfl, h⟩

/-- **Moves in a row give the forest back if each part does.** -/
theorem andThen (h : Walks f ms out) (h' : Walks f ms' out') :
    Walks f (ms ++ ms') (out ++ out') := by
  refine ⟨?_, fun ns => ?_, fun ns hs before rest e => ?_⟩
  · rw [Move.run_append, h.run_eq, h'.run_eq]
  · rw [Move.inside_append, h.inside_eq, h'.inside_eq]
  · rcases List.append_eq_append_iff.mp e with ⟨more, rfl, e'⟩ | ⟨more, e', -⟩
    · -- the first moves are over
      rw [Move.run_append, h.run_eq, Move.inside_append, h.inside_eq]
      exact h'.stands ns hs more rest e'
    · exact h.stands ns hs before more e'

/-- Moves between the opening and the closing of a scope. -/
theorem within {m : Move ω} {k : ScopeId} (hm : m.act f = f.withOpen (k :: f.inner))
    (hseen : m.seen f = []) (hin : ∀ ns (ms : List (Move ω)),
      Move.inside ns (m :: ms) = Move.inside (n :: ns) ms)
    (hs : ∀ ns, f.Stands ns → (f.withOpen (k :: f.inner)).Stands (n :: ns))
    (h : Walks (f.withOpen (k :: f.inner)) ms out) : Walks f (m :: (ms ++ [.exit])) out := by
  have hrun : Move.run (m :: (ms ++ [.exit])) f = (f, out) := by
    show ((Move.run _ (m.act f)).1, m.seen f ++ (Move.run _ (m.act f)).2) = _
    rw [hm, hseen, Move.run_append, h.run_eq]
    exact congrArg (Prod.mk f) (List.append_nil out)
  have hinside : ∀ ns, Move.inside ns (m :: (ms ++ [.exit])) = ns := fun ns => by
    rw [hin, Move.inside_append, h.inside_eq]
    rfl
  refine ⟨hrun, hinside, fun ns hst before rest e => ?_⟩
  -- The moves before are none of these, or some of those inside, or all, with or without the exit.
  cases before with
  | nil => exact ⟨f.inner, rfl, hst⟩
  | cons m' before =>
    obtain ⟨rfl, ht⟩ := List.cons.inj e
    rcases List.append_eq_append_iff.mp ht with ⟨more, rfl, hr⟩ | ⟨more, hr, -⟩
    · cases more with
      | nil =>
        obtain ⟨ks, hk, hstands⟩ := h.stands _ (hs ns hst) ms [] (List.append_nil _).symm
        refine ⟨ks, ?_, ?_⟩
        · rw [List.append_nil]
          show (Move.run ms (m.act f)).1 = _
          rw [hm]
          exact hk
        · rw [List.append_nil, hin]
          exact hstands
      | cons m' more =>
        obtain ⟨rfl, hr'⟩ := List.cons.inj hr
        obtain ⟨rfl, -⟩ := List.append_eq_nil_iff.mp hr'.symm
        refine ⟨f.inner, congrArg Prod.fst hrun, ?_⟩
        rw [hinside]
        exact hst
    · obtain ⟨ks, hk, hstands⟩ := h.stands _ (hs ns hst) before more hr
      refine ⟨ks, ?_, ?_⟩
      · show (Move.run before (m.act f)).1 = _
        rw [hm]
        exact hk
      · rw [hin]
        exact hstands

/-- Moves in a block. -/
theorem block (hf : f.Around q (⟨n, q, b⟩ :: ls))
    (h : (f.enter n).Around (some n) ls → Walks (f.enter n) ms out) :
    Walks f (.enter n :: (ms ++ [.exit])) out := by
  -- the scope of the block is there, and to enter it is to open it
  obtain ⟨k, hk, he, e, -, hin⟩ := hf.opens
  refine within (n := n) (k := k) e rfl (fun _ _ => rfl) (fun _ hs => hs.opened hk he) ?_
  rw [← e] at hin ⊢
  exact h hin

/-- Moves in a named construct. -/
theorem owned {o : Owner} (hf : f.Around q (⟨n, q, true⟩ :: ls))
    (h : (f.enterOwned n o).Around (some n) ls → Walks (f.enterOwned n o) ms out) :
    Walks f (.enterOwned n o :: (ms ++ [.exit])) out := by
  obtain ⟨k, hk, he, -, e, hin⟩ := hf.opens
  have e := e rfl o
  refine within (n := n) (k := k) e rfl (fun _ _ => rfl) (fun _ hs => hs.opened hk he) ?_
  rw [← e] at hin ⊢
  exact h hin

/-- The same for the moves of each member of a list. -/
theorem flatMap {α : Type} {xs : List α} {moves : α → List (Move ω)} {sees : α → List ω}
    (h : ∀ x ∈ xs, Walks f (moves x) (sees x)) : Walks f (xs.flatMap moves) (xs.flatMap sees) := by
  induction xs with
  | nil => exact skip
  | cons x xs ih =>
    exact (h x List.mem_cons_self).andThen (ih fun y hy => h y (List.mem_cons_of_mem _ hy))

end Walks

/-! ## 3. Bodies -/

/-- A part of a body that is looked at where it stands. -/
inductive Sight where
  | locals (vs : List VarDecl)
  | test (e : Expr)
  | value (e : Expr)
  | optional (e : Option Expr)
  | ret (s : Span) (e : Option Expr)
  | print (es : List Expr)
  | leave (s : Span)

section

variable {ω : Type}

mutual

/-- The moves through a statement, in something that a `break` leaves or not. -/
def Stmt.moves (look : Bool → Sight → Forest → List ω) : Stmt → Bool → List (Move ω)
  | .block b, br => b.moves look br
  | .ifThen _ t s, br => .look (look br (.test t)) :: s.moves look br
  | .ifElse _ t s o, br => .look (look br (.test t)) :: s.moves look br ++ o.moves look br
  | .while _ t s, br => .look (look br (.test t)) :: s.moves look true
  | .for _ i t u s, br =>
    .look (look br (.optional i)) :: .look (look br (.test t)) :: .look (look br (.optional u))
      :: s.moves look true
  | .switch _ e cs, br => .look (look br (.value e)) :: Case.movesAll look cs true
  | .break s, br => [.look (look br (.leave s))]
  | .ret s e, br => [.look (look br (.ret s e))]
  | .print _ es, br => [.look (look br (.print es))]
  | .expr e, br => [.look (look br (.value e))]

/-- The moves through a block. -/
def Block.moves (look : Bool → Sight → Forest → List ω) : Block → Bool → List (Move ω)
  | ⟨n, ls, ss⟩, br =>
    .enter n.id :: (.look (look br (.locals ls)) :: Stmt.movesAll look ss br ++ [.exit])

/-- The moves through an arm. -/
def Case.moves (look : Bool → Sight → Forest → List ω) : Case → Bool → List (Move ω)
  | ⟨_, ss⟩, br => Stmt.movesAll look ss br

/-- The moves through several statements. -/
def Stmt.movesAll (look : Bool → Sight → Forest → List ω) :
    List Stmt → Bool → List (Move ω)
  | [], _ => []
  | s :: r, br => s.moves look br ++ Stmt.movesAll look r br

/-- The moves through several arms. -/
def Case.movesAll (look : Bool → Sight → Forest → List ω) :
    List Case → Bool → List (Move ω)
  | [], _ => []
  | c :: r, br => c.moves look br ++ Case.movesAll look r br

end

/-- The moves through a body that may be missing. -/
def Block.movesOpt (look : Bool → Sight → Forest → List ω) : Option Block → List (Move ω)
  | none => []
  | some b => b.moves look false

end

/-! ## 4. The walk of the names -/

/-- The names in a part of a body. -/
def Sight.uses (_ : Bool) : Sight → Forest → List Finding
  | locals vs, f => VarDecl.usesAll f vs
  | test e, f => e.uses f
  | value e, f => e.uses f
  | optional e, f => Expr.usesOpt f e
  | ret _ e, f => Expr.usesOpt f e
  | print es, f => Expr.usesAll f es
  | leave _, _ => []

/-- The moves of the names through a function, whose result is looked at outside. -/
def FnDecl.useMoves (g : FnDecl) : List (Move Finding) :=
  .look (fun f => g.result.uses f) :: .enterOwned g.id g.owner ::
    (.look (fun f => VarDecl.usesAll f g.formals) :: Block.movesOpt Sight.uses g.body ++ [.exit])

/-- The moves of the names through a member of a class. -/
def Decl.memberUseMoves : Decl → List (Move Finding)
  | .var v => [.look fun f => v.type.uses f]
  | .fn g => g.useMoves
  | .iface _ => []
  | .cls _ => []

/-- The moves of the names through a class, whose head is looked at outside. -/
def ClassDecl.useMoves (c : ClassDecl) : List (Move Finding) :=
  .look (fun f => c.base.toList.map (fun b => f.use b .cls)
      ++ c.interfaces.map (fun i => f.use i .iface)) :: .enterOwned c.node.id c.owner ::
    (c.members.flatMap Decl.memberUseMoves ++ [.exit])

/-- The moves of the names through an interface. -/
def IfaceDecl.useMoves (i : IfaceDecl) : List (Move Finding) :=
  .enterOwned i.node.id i.owner :: (i.members.flatMap FnDecl.useMoves ++ [.exit])

/-- The moves of the names through a declaration at the top level. -/
def Decl.useMoves : Decl → List (Move Finding)
  | .var v => [.look fun f => v.type.uses f]
  | .cls c => c.useMoves
  | .iface i => i.useMoves
  | .fn g => g.useMoves ++ [.look fun _ => g.mainFaults]

/-- The moves of the names through a program. -/
def Program.useMoves (p : Program) : List (Move Finding) := p.decls.flatMap Decl.useMoves

section

variable {f : Forest} {q : Option NodeId}

mutual

/-- **The walk of the names goes through the scopes of a statement and gives the forest back.** -/
theorem Stmt.walks_uses : ∀ (s : Stmt) {f : Forest} {q : Option NodeId} (br : Bool),
    f.Around q (s.links q) → Walks f (s.moves Sight.uses br) (s.uses f)
  | .block b, _, _, br, h => b.walks_uses br h
  | .ifThen _ _ s, _, _, br, h => (Walks.look _).andThen (s.walks_uses br h)
  | .ifElse _ _ s o, _, _, br, h =>
    ((Walks.look _).andThen (s.walks_uses br h.left)).andThen (o.walks_uses br h.right)
  | .while _ _ s, _, _, _, h => (Walks.look _).andThen (s.walks_uses true h)
  | .for _ _ _ _ s, _, _, _, h =>
    -- the three parts of the head of a loop are looked up before its body
    (((Walks.look _).andThen (.look _)).andThen (.look _)).andThen (s.walks_uses true h)
  | .switch _ _ cs, _, _, _, h => (Walks.look _).andThen (Case.walks_uses_all cs true h)
  | .break _, _, _, _, _ => .look _
  | .ret _ _, _, _, _, _ => .look _
  | .print _ _, _, _, _, _ => .look _
  | .expr _, _, _, _, _ => .look _

/-- A block is entered and left again. -/
theorem Block.walks_uses : ∀ (b : Block) {f : Forest} {q : Option NodeId} (br : Bool),
    f.Around q (b.links q) → Walks f (b.moves Sight.uses br) (b.uses f)
  | ⟨_, _, ss⟩, _, _, br, h =>
    .block h fun hin => (Walks.look _).andThen (Stmt.walks_uses_all ss br hin)

theorem Case.walks_uses : ∀ (c : Case) {f : Forest} {q : Option NodeId} (br : Bool),
    f.Around q (c.links q) → Walks f (c.moves Sight.uses br) (c.uses f)
  | ⟨_, ss⟩, _, _, br, h => Stmt.walks_uses_all ss br h

/-- The same for statements in a row. -/
theorem Stmt.walks_uses_all : ∀ (ss : List Stmt) {f : Forest} {q : Option NodeId} (br : Bool),
    f.Around q (Stmt.linksAll ss q) → Walks f (Stmt.movesAll Sight.uses ss br) (Stmt.usesAll ss f)
  | [], _, _, _, _ => .skip
  | s :: r, _, _, br, h => (s.walks_uses br h.left).andThen (Stmt.walks_uses_all r br h.right)

/-- The same for the arms of a switch. -/
theorem Case.walks_uses_all : ∀ (cs : List Case) {f : Forest} {q : Option NodeId} (br : Bool),
    f.Around q (Case.linksAll cs q) → Walks f (Case.movesAll Sight.uses cs br) (Case.usesAll cs f)
  | [], _, _, _, _ => .skip
  | c :: r, _, _, br, h => (c.walks_uses br h.left).andThen (Case.walks_uses_all r br h.right)

end

theorem Block.walks_uses_opt (b : Option Block) (h : f.Around q (Block.linksOpt b q)) :
    Walks f (Block.movesOpt Sight.uses b) (Block.usesOpt b f) := by
  cases b with
  | none => exact .skip
  | some b => exact b.walks_uses false h

/-- A function is entered behind its result type, and its body is walked inside. -/
theorem FnDecl.walks_uses (g : FnDecl) (h : f.Around q (g.links q)) :
    Walks f g.useMoves (g.uses f) := by
  unfold FnDecl.uses
  rw [List.append_assoc]
  exact (Walks.look _).andThen
    (.owned h fun hin => (Walks.look _).andThen (Block.walks_uses_opt g.body hin))

/-- Fields and methods are walked with their class; nested types are not. -/
theorem Decl.walks_uses_member {d : Decl} (h : f.Around q (d.links q)) :
    Walks f d.memberUseMoves (d.usesAsMember f) := by
  cases d with
  | var v => exact .look _
  | fn g => exact g.walks_uses h
  | iface i => exact .skip
  | cls c => exact .skip

/-- A class is entered behind its head, and its members are walked inside. -/
theorem ClassDecl.walks_uses (c : ClassDecl) (h : f.Around q (c.links q)) :
    Walks f c.useMoves (c.uses f) := by
  rw [c.links_eq] at h
  -- the members hang below the class, so their links are among those inside it
  refine (Walks.look _).andThen (.owned h fun hin => .flatMap fun d hd => ?_)
  exact Decl.walks_uses_member (hin.subset fun _ hl => Decl.mem_links_all hd hl)

/-- An interface is entered, and its methods are walked inside. -/
theorem IfaceDecl.walks_uses (i : IfaceDecl) (h : f.Around q (i.links q)) :
    Walks f i.useMoves (i.uses f) :=
  .owned h fun hin => .flatMap fun g hg =>
    g.walks_uses (hin.subset fun _ hl => List.mem_flatMap.mpr ⟨g, hg, hl⟩)

/-- **The walk of the names goes through a declaration and gives the forest back.** -/
theorem Decl.walks_uses {d : Decl} (h : f.Around q (d.links q)) :
    Walks f d.useMoves (d.uses f) := by
  cases d with
  | var v => exact .look _
  | fn g => exact (g.walks_uses h).andThen (.look _)
  | iface i => exact i.walks_uses h
  | cls c => exact c.walks_uses h

/-- The look-up of the names is a walk. -/
theorem Program.walks_uses (p : Program) (h : f.Around none p.links) :
    Walks f p.useMoves (p.findings f) :=
  .flatMap fun _ hd => Decl.walks_uses (h.subset fun _ hl => Decl.mem_links_all hd hl)

end

/-! ## 5. The walk of the members -/

/-- The moves through the classes: in the scope of each class, what is wrong with it and how many
of its methods replace an inherited one. -/
def Program.conformMoves (p : Program) (a : Notes) : List (Move (List Diagnostic × Nat)) :=
  (p.decls.filterMap Decl.cls?).flatMap fun c => [.enterOwned c.node.id c.owner,
    .look fun f => [(c.faults f a, c.methods.countP (FnDecl.isOverride f a))], .exit]

/-- The comparison of the members is a walk. -/
theorem Program.walks_conform {f : Forest} (p : Program) (a : Notes) (h : f.Around none p.links) :
    Walks f (p.conformMoves a) ((p.decls.filterMap Decl.cls?).map fun c =>
      (c.faults (f.enterClass c) a, c.methods.countP (FnDecl.isOverride (f.enterClass c) a))) := by
  rw [List.map_eq_flatMap]
  refine .flatMap fun c hc => ?_
  have hin := h.subset fun _ hl => Decl.mem_links_all (Decl.mem_classes.mp hc) hl
  rw [show (Decl.cls c).links none = _ from c.links_eq none] at hin
  exact .owned hin fun _ => .look _

/-! ## 6. The walk of the types -/

namespace Report

/-- Reports in their order. -/
def join (rs : List Report) : Report := rs.foldr (· ++ ·) .empty

/-- An empty report adds nothing. -/
theorem append_empty (r : Report) : r ++ .empty = r := by
  show Report.mk (r.types ++ []) (r.bindings ++ []) (r.diagnostics ++ []) = r
  rw [List.append_nil, List.append_nil, List.append_nil]

/-- Reports in a row may be joined in any grouping. -/
theorem append_assoc (r s t : Report) : r ++ s ++ t = r ++ (s ++ t) := by
  show Report.mk (r.types ++ s.types ++ t.types) (r.bindings ++ s.bindings ++ t.bindings)
    (r.diagnostics ++ s.diagnostics ++ t.diagnostics) = _
  rw [List.append_assoc, List.append_assoc, List.append_assoc]
  rfl

/-- Reports in a row are joined part by part. -/
theorem join_append (rs ss : List Report) : join (rs ++ ss) = join rs ++ join ss := by
  induction rs with
  | nil => rfl
  | cons r rs ih =>
    show r ++ join (rs ++ ss) = r ++ join rs ++ join ss
    rw [ih, append_assoc]

end Report

/-- Moves that give the forest back and come to this report. -/
def Reads (f : Forest) (ms : List (Move Report)) (r : Report) : Prop :=
  ∃ out, Walks f ms out ∧ Report.join out = r

namespace Reads

variable {f : Forest} {ms ms' : List (Move Report)} {r r' : Report} {q : Option NodeId}
  {n : NodeId} {b : Bool} {ls : List Link}

theorem skip : Reads f [] .empty := ⟨[], .skip, rfl⟩

theorem look (see : Forest → Report) : Reads f [.look fun f => [see f]] (see f) :=
  ⟨[see f], .look _, Report.append_empty _⟩

/-- Checks in a row read one behind the other. -/
theorem andThen (h : Reads f ms r) (h' : Reads f ms' r') : Reads f (ms ++ ms') (r ++ r') := by
  obtain ⟨out, hw, rfl⟩ := h
  obtain ⟨out', hw', rfl⟩ := h'
  exact ⟨out ++ out', hw.andThen hw', Report.join_append _ _⟩

/-- The check of a block reads inside its scope. -/
theorem block (hf : f.Around q (⟨n, q, b⟩ :: ls))
    (h : (f.enter n).Around (some n) ls → Reads (f.enter n) ms r) :
    Reads f (.enter n :: (ms ++ [.exit])) r := by
  obtain ⟨k, hk, he, e, -, hin⟩ := hf.opens
  rw [← e] at hin
  obtain ⟨out, hw, hr⟩ := h hin
  exact ⟨out, .block hf fun _ => hw, hr⟩

/-- The check of a function or of a class reads inside its scope. -/
theorem owned {o : Owner} (hf : f.Around q (⟨n, q, true⟩ :: ls))
    (h : (f.enterOwned n o).Around (some n) ls → Reads (f.enterOwned n o) ms r) :
    Reads f (.enterOwned n o :: (ms ++ [.exit])) r := by
  obtain ⟨k, hk, he, -, e, hin⟩ := hf.opens
  rw [← e rfl o] at hin
  obtain ⟨out, hw, hr⟩ := h hin
  exact ⟨out, .owned hf fun _ => hw, hr⟩

end Reads

/-- The report of a part of a body. -/
def Sight.check (c : Context) : Sight → Report
  | locals _ => .empty
  | test e => e.checkTest c
  | value e => (e.check c).report
  | optional e => Expr.checkOpt c e
  | ret s e => Expr.checkReturn c s e
  | print es => Expr.checkPrint c 1 es
  | leave s => .ofFaults (c.breakFaults s)

/-- The report of a part of the body of a function with this result. -/
def Sight.report (h : Hierarchy) (a : Notes) (result : Ty) (br : Bool) (s : Sight) (f : Forest) :
    List Report := [s.check ⟨f, a, h, result, br⟩]

/-- The moves of the types through a function. -/
def FnDecl.typeMoves (h : Hierarchy) (a : Notes) (g : FnDecl) : List (Move Report) :=
  .enterOwned g.id g.owner ::
    (Block.movesOpt (Sight.report h a (a.denote g.result)) g.body ++ [.exit])

/-- The moves of the types through a declaration at the top level. -/
def Decl.typeMoves (h : Hierarchy) (a : Notes) : Decl → List (Move Report)
  | .cls c => .enterOwned c.node.id c.owner :: (c.methods.flatMap (FnDecl.typeMoves h a) ++ [.exit])
  | .fn g => g.typeMoves h a
  | .iface _ => []
  | .var _ => []

/-- The moves of the types through a program. -/
def Program.typeMoves (p : Program) (h : Hierarchy) (a : Notes) : List (Move Report) :=
  p.decls.flatMap (Decl.typeMoves h a)

section

variable {h : Hierarchy} {a : Notes} {f : Forest} {q : Option NodeId}

mutual

/-- **The check of a statement is a walk that reads its report off the forest.** -/
theorem Stmt.reads : ∀ (s : Stmt) {f : Forest} {q : Option NodeId} {t : Ty} (br : Bool),
    f.Around q (s.links q) → Reads f (s.moves (Sight.report h a t) br) (s.check ⟨f, a, h, t, br⟩)
  | .block b, _, _, _, br, hf => b.reads br hf
  | .ifThen _ _ s, _, _, _, br, hf => (Reads.look _).andThen (s.reads br hf)
  | .ifElse _ _ s o, _, _, _, br, hf =>
    ((Reads.look _).andThen (s.reads br hf.left)).andThen (o.reads br hf.right)
  | .while _ _ s, _, _, _, _, hf => (Reads.look _).andThen (s.reads true hf)
  | .for _ _ _ _ s, _, _, _, _, hf =>
    (((Reads.look _).andThen (.look _)).andThen (.look _)).andThen (s.reads true hf)
  | .switch _ _ cs, _, _, _, _, hf => (Reads.look _).andThen (Case.reads_all cs true hf)
  | .break _, _, _, _, _, _ => .look _
  | .ret _ _, _, _, _, _, _ => .look _
  | .print _ _, _, _, _, _, _ => .look _
  | .expr _, _, _, _, _, _ => .look _

/-- A block is entered, its statements are checked, and it is left. -/
theorem Block.reads : ∀ (b : Block) {f : Forest} {q : Option NodeId} {t : Ty} (br : Bool),
    f.Around q (b.links q) → Reads f (b.moves (Sight.report h a t) br) (b.check ⟨f, a, h, t, br⟩)
  | ⟨_, _, ss⟩, _, _, _, br, hf =>
    .block hf fun hin => (Reads.look _).andThen (Stmt.reads_all ss br hin)

theorem Case.reads : ∀ (c : Case) {f : Forest} {q : Option NodeId} {t : Ty} (br : Bool),
    f.Around q (c.links q) → Reads f (c.moves (Sight.report h a t) br) (c.check ⟨f, a, h, t, br⟩)
  | ⟨_, ss⟩, _, _, _, br, hf => Stmt.reads_all ss br hf

/-- The same for statements in a row. -/
theorem Stmt.reads_all : ∀ (ss : List Stmt) {f : Forest} {q : Option NodeId} {t : Ty} (br : Bool),
    f.Around q (Stmt.linksAll ss q) →
      Reads f (Stmt.movesAll (Sight.report h a t) ss br) (Stmt.checkAll ss ⟨f, a, h, t, br⟩)
  | [], _, _, _, _, _ => .skip
  | s :: r, _, _, _, br, hf => (s.reads br hf.left).andThen (Stmt.reads_all r br hf.right)

/-- The same for the arms of a switch. -/
theorem Case.reads_all : ∀ (cs : List Case) {f : Forest} {q : Option NodeId} {t : Ty} (br : Bool),
    f.Around q (Case.linksAll cs q) →
      Reads f (Case.movesAll (Sight.report h a t) cs br) (Case.checkAll cs ⟨f, a, h, t, br⟩)
  | [], _, _, _, _, _ => .skip
  | c :: r, _, _, _, br, hf => (c.reads br hf.left).andThen (Case.reads_all r br hf.right)

end

theorem Block.reads_opt {t : Ty} (b : Option Block) (hf : f.Around q (Block.linksOpt b q)) :
    Reads f (Block.movesOpt (Sight.report h a t) b) (Block.checkOpt b ⟨f, a, h, t, false⟩) := by
  cases b with
  | none => exact .skip
  | some b => exact b.reads false hf

/-- The body of a function is checked inside the scope of the function. -/
theorem FnDecl.reads (g : FnDecl) (hf : f.Around q (g.links q)) :
    Reads f (g.typeMoves h a) (g.check h a f) :=
  .owned hf fun hin => Block.reads_opt g.body hin

theorem FnDecl.reads_all (gs : List FnDecl) (hf : ∀ g ∈ gs, f.Around q (g.links q)) :
    Reads f (gs.flatMap (FnDecl.typeMoves h a)) (FnDecl.checkAll gs h a f) := by
  induction gs with
  | nil => exact .skip
  | cons g gs ih =>
    exact (g.reads (hf g List.mem_cons_self)).andThen
      (ih fun g' hg => hf g' (List.mem_cons_of_mem _ hg))

/-- **The check of a declaration is a walk that reads its report off the forest.** -/
theorem Decl.reads {d : Decl} (hf : f.Around q (d.links q)) :
    Reads f (d.typeMoves h a) (d.check h a f) := by
  cases d with
  | var v => exact .skip
  | fn g => exact g.reads hf
  | iface i => exact .skip
  | cls c =>
    have hf : f.Around q (c.links q) := hf
    rw [c.links_eq] at hf
    exact .owned hf fun hin => FnDecl.reads_all (q := some c.node.id) c.methods fun g hg =>
      hin.subset fun _ hl => Decl.mem_links_all (ClassDecl.mem_methods.mp hg) hl

/-- The same for declarations in a row. -/
theorem Decl.reads_all (ds : List Decl) (hf : ∀ d ∈ ds, f.Around q (d.links q)) :
    Reads f (ds.flatMap (Decl.typeMoves h a)) (Decl.checkAll h a f ds) := by
  induction ds with
  | nil => exact .skip
  | cons d ds ih =>
    exact (Decl.reads (hf d List.mem_cons_self)).andThen
      (ih fun d' hd => hf d' (List.mem_cons_of_mem _ hd))

/-- The check of the types is a walk. -/
theorem Program.reads (p : Program) (hf : f.Around none p.links) :
    Reads f (p.typeMoves h a) (Decl.checkAll h a f p.decls) :=
  Decl.reads_all p.decls fun _ hd => hf.subset fun _ hl => Decl.mem_links_all hd hl

end

/-! ## 7. Checks in any order -/

/-- A check that comes after the declarations. -/
inductive Check where
  | names
  | members
  | types
deriving DecidableEq, Repr

namespace Session

/-- The session after a check. -/
def after (s : Session) : Check → Session
  | .names => s.resolve.2
  | .members => s.conform.2
  | .types => s.checkTypes.2

/-- The session after several checks. -/
def afterAll (s : Session) (cs : List Check) : Session := cs.foldl after s

/-- The session of a program whose declarations are made. -/
structure Scoped (p : Program) (s : Session) : Prop where
  program : s.program = p
  hierarchy : s.hierarchy = .ofProgram p
  forest : s.forest = p.scopes

/-- **The session has the scopes of an earlier one, all of them closed, and each check goes through
them,** wherever it is the next one. -/
structure Reenters (s t : Session) : Prop where
  forest_eq : t.forest = s.forest
  active_eq : t.forest.active = [Forest.globalId]
  stands : t.forest.Stands []
  names : Walks t.forest t.program.useMoves t.resolve.1.findings
  members : ∃ out, Walks t.forest (t.program.conformMoves t.notes) out ∧
    t.conform.1.diagnostics = out.flatMap Prod.fst ∧ t.conform.1.classes = out.length ∧
    t.conform.1.overrides = out.foldl (fun n x => n + x.2) 0
  types : ∃ out, Walks t.forest (t.program.typeMoves t.hierarchy t.notes) out ∧
    t.checkTypes.1.report = Report.join out

/-- Once the declarations are made, the session holds their scopes. -/
theorem declare_scoped (p : Program) : (start p).declare.2.Scoped p := ⟨rfl, rfl, rfl⟩

end Session

namespace Program.Numbered

variable {p : Program} {s : Session}

/-- When nothing is entered, the global scope is the only one that is open. -/
theorem stands (h : p.Numbered) : p.scopes.Stands [] := by
  obtain ⟨us, e, -⟩ := p.declare_run
  have hx : Forest.empty.Extends p.scopes := by
    show Forest.empty.Extends (p.declare .empty).forest
    rw [e]
    exact (Forest.wellFormed_empty.run (s := .start) us).2
  refine ⟨by rw [h.inner_eq]; rfl, ?_, (hx.scope Forest.globalId Nat.zero_lt_one).enclosing⟩
  unfold Forest.active
  rw [h.inner_eq]
  exact List.isChain_singleton _

/-- The forest of the declarations stands around the program. -/
theorem around (h : p.Numbered) : p.scopes.Around none p.links := by
  refine ⟨?_, h.nested⟩
  unfold Forest.current
  rw [h.inner_eq]
  rfl

/-- **A check leaves the scopes as they are.** -/
theorem scoped_after (h : p.Numbered) (hs : s.Scoped p) (c : Check) : (s.after c).Scoped p := by
  have hf := h.hasAll_kept.finds_kept
  -- each of the checks visits the scopes that are there already
  cases c with
  | names =>
    refine ⟨hs.program, hs.hierarchy, ?_⟩
    show s.program.visit s.forest = p.scopes
    rw [hs.program, hs.forest]
    exact visit_eq hf h.inner_eq
  | members =>
    refine ⟨hs.program, hs.hierarchy, ?_⟩
    show s.program.visitClasses s.forest = p.scopes
    rw [hs.program, hs.forest]
    exact visit_classes_eq hf h.inner_eq
  | types =>
    refine ⟨hs.program, hs.hierarchy, ?_⟩
    show s.program.visitBodies s.forest = p.scopes
    rw [hs.program, hs.forest]
    exact visit_bodies_eq hf h.inner_eq

/-- **Checks in any order and number leave the scopes as they are,** by induction over them. -/
theorem scoped_after_all (h : p.Numbered) (hs : s.Scoped p) (cs : List Check) :
    (s.afterAll cs).Scoped p := by
  induction cs generalizing s with
  | nil => exact hs
  | cons c cs ih => exact ih (h.scoped_after hs c)

/-- What the checks of a session look at. -/
theorem findings_scoped (h : p.Numbered) (hs : s.Scoped p) :
    s.resolve.1.findings = p.findings p.scopes := by
  show s.program.findings (s.after .names).forest = _
  rw [(h.scoped_after hs .names).forest, hs.program]

/-- The check of the members says what its rules say of the scopes of the declarations. -/
theorem conform_scoped (h : p.Numbered) (hs : s.Scoped p) :
    s.conform.1.diagnostics = (p.decls.filterMap Decl.cls?).flatMap (fun c =>
        c.faults (p.scopes.enterClass c) s.notes) ∧
      s.conform.1.classes = (p.decls.filterMap Decl.cls?).length ∧
      s.conform.1.overrides = (p.decls.filterMap Decl.cls?).foldl (fun n c =>
        n + c.methods.countP (FnDecl.isOverride (p.scopes.enterClass c) s.notes)) 0 := by
  have e := (h.scoped_after hs .members).forest
  obtain ⟨rfl, -, -⟩ := hs
  refine ⟨?_, rfl, ?_⟩
  · rw [← e]
    rfl
  · rw [← e]
    rfl

/-- So does the check of the types. -/
theorem report_scoped (h : p.Numbered) (hs : s.Scoped p) :
    s.checkTypes.1.report = Decl.checkAll (.ofProgram p) s.notes p.scopes p.decls := by
  show Decl.checkAll s.hierarchy s.notes (s.after .types).forest s.program.decls = _
  rw [(h.scoped_after hs .types).forest, hs.program, hs.hierarchy]

/-- **The checks go through the scopes of the declarations and leave them as they are,** whatever
checks were run before. -/
theorem reentered (h : p.Numbered) (before : List Check) :
    (Session.start p).declare.2.Reenters ((Session.start p).declare.2.afterAll before) := by
  have hs := h.scoped_after_all (Session.declare_scoped p) before
  -- all that matters of the checks before is that they leave the scopes as they are
  generalize (Session.start p).declare.2.afterAll before = t at hs
  obtain ⟨hdiags, hclasses, hoverrides⟩ := h.conform_scoped hs
  refine ⟨hs.forest, ?_, ?_, ?_, ?_, ?_⟩
  · unfold Forest.active
    rw [hs.forest, h.inner_eq]
    rfl
  · rw [hs.forest]
    exact h.stands
  · rw [h.findings_scoped hs, hs.forest, hs.program]
    exact p.walks_uses h.around
  · rw [hs.forest, hs.program]
    refine ⟨_, p.walks_conform t.notes h.around, ?_, ?_, ?_⟩
    · rw [hdiags, List.flatMap_map]
    · rw [hclasses, List.length_map]
    · rw [hoverrides, List.foldl_map]
  · rw [hs.forest, hs.program, hs.hierarchy, h.report_scoped hs]
    obtain ⟨out, hw, e⟩ := p.reads h.around
    exact ⟨out, hw, e.symm⟩

end Program.Numbered

/-- A method with blocks in blocks, in a class with a class in it. -/
def maze : Program := .number [
  .cls ⟨.nowhere, .called "Outer", none, [], [
    .cls ⟨.nowhere, .called "Inner", none, [], [
      .fn ⟨.nowhere, .called "walk", .prim 0 .void, [], some .empty⟩]⟩,
    .fn ⟨.nowhere, .called "walk", .prim 0 .void, [.int "a"], some ⟨.nowhere, [], [
      .while .nowhere (.bool .nowhere true) (.block ⟨.nowhere, [.int "b"], [
        .block ⟨.nowhere, [], [.break .nowhere]⟩]⟩)]⟩⟩]⟩]

/-- The checks come back to the scopes of the maze, also for the second time. In the innermost
block, all scopes are open but those of the class in the class and of its method. -/
theorem reentered_maze :
    maze.Numbered ∧ (Session.start maze).declare.2.Reenters
      ((Session.start maze).declare.2.afterAll [.types, .names, .members, .types]) ∧
    (Move.run ((maze.typeMoves (.ofProgram maze) .empty).take 8)
      (Session.start maze).declare.2.forest).1.active = [8, 7, 6, 5, 1, 0] :=
  have hn : maze.Numbered := Program.number_numbered _
  ⟨hn, hn.reentered _, by decide +kernel⟩

end DecafLang
