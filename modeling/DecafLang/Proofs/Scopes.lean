import Mathlib.Data.List.Nodup
import DecafLang.Check.Declarations

/-!
# The scopes that the declarations leave

Which scopes a program has once all its declarations are made, and what lies in them.

* An `Opening` is a scope with the node that opens it. `Program.openings` lists those of a program
  **in the order in which the scopes are made**, from the syntax alone.
* Of two declarations of one name a scope keeps the first: `Decl.admitted` are those that it takes
  in, and `Decl.clash` is the report of one that it refuses.
* `Opened` says how one forest follows from another: declarations go to the scope that is open,
  and scopes come behind those that are there.
* **`Declares`: declaring does just that with what is admitted, and reports every clash.** Where
  nothing is reported, all declarations are admitted.
-/

namespace DecafLang

/-! ## 1. Openings -/

/-- A scope, and the node that opens it. -/
structure Opening where
  node : NodeId
  scope : Scope

namespace Scope

/-- A scope with an owner or without. -/
def holding (o : Option Owner) (ds : List Decl) : Scope := ⟨ds, none, o, none, []⟩

/-- The scope with more declarations. -/
def addAll (s : Scope) (ds : List Decl) : Scope := { s with decls := s.decls ++ ds }

/-- The scope, wherever it lies. -/
def bare (s : Scope) : Scope := { s with enclosing := none }

theorem addAll_nil (s : Scope) : s.addAll [] = s := by
  rw [addAll, List.append_nil]

/-- Declarations that are added in turn come behind each other. -/
theorem addAll_addAll (s : Scope) (a b : List Decl) :
    (s.addAll a).addAll b = s.addAll (a ++ b) := by
  simp only [addAll, List.append_assoc]

/-- Where a scope lies is of no account for what is added to it. -/
theorem bare_add (s : Scope) (d : Decl) : (s.add d).bare = s.bare.addAll [d] := rfl

end Scope

/-- What the scope of a class remembers from the head of the class. -/
def ClassDecl.heading (c : ClassDecl) : Scope where
  decls := []
  enclosing := none
  owner := some c.owner
  parent := c.base.map Ident.name
  interfaces := c.interfaces.map Ident.name

mutual

/-- The scopes of a statement. -/
def Stmt.openings : Stmt → List Opening
  | .block b => b.openings
  | .ifThen _ _ s => s.openings
  | .ifElse _ _ s o => s.openings ++ o.openings
  | .while _ _ s => s.openings
  | .for _ _ _ _ s => s.openings
  | .switch _ _ cs => Case.openingsAll cs
  | .break _ => []
  | .ret _ _ => []
  | .print _ _ => []
  | .expr _ => []

/-- The scopes of a block, its own first. -/
def Block.openings : Block → List Opening
  | ⟨n, ls, ss⟩ => ⟨n.id, .holding none (ls.map .var)⟩ :: Stmt.openingsAll ss

/-- The scopes of an arm. -/
def Case.openings : Case → List Opening
  | ⟨_, ss⟩ => Stmt.openingsAll ss

/-- The scopes of several statements. -/
def Stmt.openingsAll : List Stmt → List Opening
  | [] => []
  | s :: r => s.openings ++ Stmt.openingsAll r

/-- The scopes of several arms. -/
def Case.openingsAll : List Case → List Opening
  | [] => []
  | c :: r => c.openings ++ Case.openingsAll r

end

/-- The scopes of a body that may be missing. -/
def Block.openingsOpt : Option Block → List Opening
  | none => []
  | some b => b.openings

/-- The scopes of a function, its own first. -/
def FnDecl.openings (g : FnDecl) : List Opening :=
  ⟨g.id, .holding (some g.owner) (g.formals.map .var)⟩ :: Block.openingsOpt g.body

/-- The scopes of an interface, its own first. -/
def IfaceDecl.openings (i : IfaceDecl) : List Opening :=
  ⟨i.node.id, .holding (some i.owner) (i.members.map .fn)⟩ :: i.members.flatMap FnDecl.openings

mutual

/-- The scopes of a declaration. -/
def Decl.openings : Decl → List Opening
  | .var _ => []
  | .fn g => g.openings
  | .iface i => i.openings
  | .cls c => c.openings

/-- The scopes of a class, its own first. -/
def ClassDecl.openings : ClassDecl → List Opening
  | ⟨n, i, b, is, ms⟩ =>
    ⟨n.id, (ClassDecl.heading ⟨n, i, b, is, ms⟩).addAll ms⟩ :: Decl.openingsAll ms

/-- The scopes of several declarations. -/
def Decl.openingsAll : List Decl → List Opening
  | [] => []
  | d :: r => d.openings ++ Decl.openingsAll r

end

/-- The scopes of a program except the global one. -/
def Program.openings (p : Program) : List Opening := Decl.openingsAll p.decls

/-- The numbers of the declarations in scopes. -/
def Opening.declared (os : List Opening) : List NodeId :=
  os.flatMap fun o => o.scope.decls.map Decl.id

/-- The declarations of the scopes in front stand in front. -/
theorem Opening.declared_append (os os' : List Opening) :
    declared (os ++ os') = declared os ++ declared os' := List.flatMap_append

theorem Opening.declared_cons (o : Opening) (os : List Opening) :
    declared (o :: os) = o.scope.decls.map Decl.id ++ declared os := rfl

/-! ## 2. What a scope takes in -/

namespace Decl

/-- Those of the declarations that a scope takes in: **a name that is taken is refused.** -/
def admitted : List Decl → List Decl → List Decl
  | _, [] => []
  | old, d :: r =>
    match old.find? (·.name == d.name) with
    | some _ => admitted old r
    | none => d :: admitted (old ++ [d]) r

/-- The report of a declaration that is refused. -/
def clash (old : List Decl) (d : Decl) : List Diagnostic :=
  match old.find? (·.name == d.name) with
  | some previous => [.located d.ident.span (.declConflict d.name previous.ident.span.line)]
  | none => []

/-- What the first declarations leave is what the later ones find taken. -/
theorem admitted_append (old ds ds' : List Decl) :
    admitted old (ds ++ ds') = admitted old ds ++ admitted (old ++ admitted old ds) ds' := by
  induction ds generalizing old with
  | nil => rw [admitted, List.append_nil]; rfl
  | cons d ds ih =>
    rw [List.cons_append, admitted, admitted]
    split
    · exact ih old
    · rw [ih, List.cons_append, List.append_assoc]
      rfl

/-- A scope that refuses what is taken finds what one would find that takes in everything. -/
theorem find?_admitted (old ds : List Decl) (name : String) :
    (old ++ admitted old ds).find? (·.name == name) = (old ++ ds).find? (·.name == name) := by
  induction ds generalizing old with
  | nil => rfl
  | cons d ds ih =>
    rw [admitted]
    split
    · rename_i previous hp
      rw [ih, List.find?_append, List.find?_append, List.find?_cons]
      -- the name that is refused was found before
      by_cases hn : d.name = name
      · subst hn
        rw [hp, Option.some_or, Option.some_or]
      · rw [beq_eq_false_iff_ne.mpr hn]
    · rw [List.append_cons, ih, ← List.append_cons]

end Decl

/-- The reports of variables that are refused. -/
def VarDecl.clashesAll : List Decl → List VarDecl → List Diagnostic
  | _, [] => []
  | old, v :: r =>
    (Decl.var v).clash old ++ clashesAll (old ++ Decl.admitted old [.var v]) r

mutual

/-- The reports of what is refused in a statement. -/
def Stmt.clashes : Stmt → List Diagnostic
  | .block b => b.clashes
  | .ifThen _ _ s => s.clashes
  | .ifElse _ _ s o => s.clashes ++ o.clashes
  | .while _ _ s => s.clashes
  | .for _ _ _ _ s => s.clashes
  | .switch _ _ cs => Case.clashesAll cs
  | .break _ => []
  | .ret _ _ => []
  | .print _ _ => []
  | .expr _ => []

/-- The reports of what is refused in a block. -/
def Block.clashes : Block → List Diagnostic
  | ⟨_, ls, ss⟩ => VarDecl.clashesAll [] ls ++ Stmt.clashesAll ss

/-- The reports of what is refused in an arm. -/
def Case.clashes : Case → List Diagnostic
  | ⟨_, ss⟩ => Stmt.clashesAll ss

/-- The reports of what is refused in several statements. -/
def Stmt.clashesAll : List Stmt → List Diagnostic
  | [] => []
  | s :: r => s.clashes ++ Stmt.clashesAll r

/-- The reports of what is refused in several arms. -/
def Case.clashesAll : List Case → List Diagnostic
  | [] => []
  | c :: r => c.clashes ++ Case.clashesAll r

end

/-- The reports of what is refused in a body that may be missing. -/
def Block.clashesOpt : Option Block → List Diagnostic
  | none => []
  | some b => b.clashes

/-- The reports of what is refused in a function. -/
def FnDecl.clashes (g : FnDecl) : List Diagnostic :=
  VarDecl.clashesAll [] g.formals ++ Block.clashesOpt g.body

/-- The reports of functions that are refused, and of what is refused in them. -/
def FnDecl.clashesAll : List Decl → List FnDecl → List Diagnostic
  | _, [] => []
  | old, g :: r =>
    (Decl.fn g).clash old ++ g.clashes ++ clashesAll (old ++ Decl.admitted old [.fn g]) r

/-- The reports of what is refused in an interface. -/
def IfaceDecl.clashes (i : IfaceDecl) : List Diagnostic := FnDecl.clashesAll [] i.members

mutual

/-- The reports of what is refused in a declaration. -/
def Decl.clashes : Decl → List Diagnostic
  | .var _ => []
  | .fn g => g.clashes
  | .iface i => i.clashes
  | .cls c => c.clashes

/-- The reports of what is refused in a class. -/
def ClassDecl.clashes : ClassDecl → List Diagnostic
  | ⟨_, _, _, _, ms⟩ => Decl.clashesAll [] ms

/-- The reports of declarations that are refused, and of what is refused in them. -/
def Decl.clashesAll : List Decl → List Decl → List Diagnostic
  | _, [] => []
  | old, x :: r => x.clash old ++ x.clashes ++ Decl.clashesAll (old ++ Decl.admitted old [x]) r

end

/-- The opening with what its scope takes in. -/
def Opening.kept (o : Opening) : Opening :=
  { o with scope := { o.scope with decls := Decl.admitted [] o.scope.decls } }

/-! ## 3. From one forest to the next -/

namespace Forest

/-- The scopes, wherever they lie. -/
def bares (f : Forest) : List Scope := f.scopes.map Scope.bare

/-- The nodes that have a scope. -/
def nodes (f : Forest) : List NodeId := f.ofNode.entries.map Prod.fst

/-- No scope has two declarations of one name. -/
def Tidy (f : Forest) : Prop := ∀ k, ((f.scope k).decls.map Decl.name).Nodup

/-- The registered scopes with the one of an opening registered, if it is of a kind that is. -/
def register (t : Table String ScopeId) (o : Opening × ScopeId) : Table String ScopeId :=
  match o.1.scope.owner with
  | none => t
  | some w => if w.kind = .fn then t else t.insertNew w.name o.2

/-- The openings with the numbers that their scopes get. -/
def numbered (f : Forest) (os : List Opening) : List (Opening × ScopeId) := os.zipIdx f.size

/-- There is an open scope, and no node of the openings has its scope yet. -/
structure Ready (f : Forest) (os : List Opening) : Prop where
  current_lt : f.current < f.size
  nodup : (f.nodes ++ os.map Opening.node).Nodup

/-- The second forest is the first with declarations in the open scope, and with more scopes. -/
structure Opened (f f' : Forest) (ds : List Decl) (os : List Opening) : Prop where
  inner_eq : f'.inner = f.inner
  bares_eq : f'.bares = f.bares.modify f.current (·.addAll ds) ++ os.map Opening.scope
  ofNode_eq : f'.ofNode.entries = f.ofNode.entries ++ (f.numbered os).map fun o => (o.1.node, o.2)
  owners_eq : f'.owners = (f.numbered os).foldl register f.owners
  tidy : f.Tidy → f'.Tidy

/-- The second forest is the first with a new scope that is open. -/
structure Entered (f f' : Forest) (o : Opening) : Prop where
  inner_eq : f'.inner = f.size :: f.inner
  bares_eq : f'.bares = f.bares ++ [o.scope]
  ofNode_eq : f'.ofNode.entries = f.ofNode.entries ++ [(o.node, f.size)]
  owners_eq : f'.owners = register f.owners (o, f.size)
  tidy : f.Tidy → f'.Tidy

section

variable {f f' f'' : Forest} {ds ds' : List Decl} {os os' : List Opening} {o : Opening}

theorem length_bares (f : Forest) : f.bares.length = f.size := List.length_map _

/-- A change at one place commutes with a map that respects it. -/
theorem map_modify {α β : Type} {g : α → α} {g' : β → β} {m : α → β} (h : ∀ a, m (g a) = g' (m a))
    (l : List α) (k : Nat) : (l.modify k g).map m = (l.map m).modify k g' := by
  induction l generalizing k with
  | nil => simp
  | cons a l ih => cases k <;> simp [h, ih]

/-- A change at a place of the first list leaves the second one alone. -/
theorem modify_append_left {α : Type} {g : α → α} {l l' : List α} {k : Nat} (h : k < l.length) :
    (l ++ l').modify k g = l.modify k g ++ l' := by
  induction l generalizing k with
  | nil => cases h
  | cons a l ih =>
    cases k with
    | zero => rfl
    | succ k =>
      simp only [List.cons_append, List.modify_succ_cons]
      rw [ih (Nat.lt_of_succ_lt_succ h)]

/-- The place just behind a list is the first one of what follows. -/
theorem modify_length {α : Type} {g : α → α} (l : List α) (a : α) :
    (l ++ [a]).modify l.length g = l ++ [g a] := by
  induction l with
  | nil => rfl
  | cons b l ih => simp only [List.cons_append, List.length_cons, List.modify_succ_cons, ih]

/-- Nothing is declared and nothing opened. -/
theorem Opened.refl (f : Forest) : f.Opened f [] [] where
  inner_eq := rfl
  bares_eq := by
    have e : (·.addAll []) = (id : Scope → Scope) := funext Scope.addAll_nil
    rw [e, List.modify_id, List.map_nil, List.append_nil]
  ofNode_eq := (List.append_nil _).symm
  owners_eq := rfl
  tidy := id

/-- There is a scope more for each opening. -/
theorem Opened.size_eq (h : f.Opened f' ds os) : f'.size = f.size + os.length := by
  have e := congrArg List.length h.bares_eq
  rwa [length_bares, List.length_append, List.length_modify, length_bares, List.length_map] at e

/-- The scope that was open is open again. -/
theorem Opened.current_eq (h : f.Opened f' ds os) : f'.current = f.current := by
  unfold current
  rw [h.inner_eq]

/-- The nodes of the openings have scopes now, and those that had some keep them. -/
theorem Opened.nodes_eq (h : f.Opened f' ds os) : f'.nodes = f.nodes ++ os.map Opening.node := by
  -- the numbers that the openings get are of no account for their nodes
  have e : (f.numbered os).map (Prod.fst ∘ fun o => (o.1.node, o.2)) = os.map Opening.node := by
    have := congrArg (List.map Opening.node) (List.zipIdx_map_fst f.size os)
    rwa [List.map_map] at this
  unfold nodes
  rw [h.ofNode_eq, List.map_append, List.map_map, e]

/-- **One step after the other:** their declarations and openings stand behind each other. -/
theorem Opened.trans (hc : f.current < f.size) (h : f.Opened f' ds os)
    (h' : f'.Opened f'' ds' os') : f.Opened f'' (ds ++ ds') (os ++ os') where
  inner_eq := h'.inner_eq.trans h.inner_eq
  bares_eq := by
    -- the open scope is one of those that were there, so the first changes leave it in place
    have hl : f.current < (f.bares.modify f.current (·.addAll ds)).length := by
      rwa [List.length_modify, length_bares]
    have e : (fun s : Scope => (s.addAll ds).addAll ds') = (·.addAll (ds ++ ds')) :=
      funext fun s => s.addAll_addAll ds ds'
    rw [h'.bares_eq, h.current_eq, h.bares_eq, modify_append_left hl, List.modify_modify_eq,
      List.map_append, ← List.append_assoc, ← e]
    rfl
  ofNode_eq := by
    unfold numbered
    -- the later openings are numbered on from where the first ones end
    rw [h'.ofNode_eq, h.ofNode_eq, List.zipIdx_append, List.map_append, ← List.append_assoc,
      ← h.size_eq]
    rfl
  owners_eq := by
    unfold numbered
    rw [h'.owners_eq, h.owners_eq, List.zipIdx_append, List.foldl_append, ← h.size_eq]
    rfl
  tidy := h'.tidy ∘ h.tidy

/-- What the scopes take in is of no account for the nodes that open them. -/
theorem ready_kept : f.Ready (os.map Opening.kept ++ os') ↔ f.Ready (os ++ os') := by
  have e : (os.map Opening.kept ++ os').map Opening.node = (os ++ os').map Opening.node := by
    rw [List.map_append, List.map_map, List.map_append]
    rfl
  constructor
  · intro h
    exact ⟨h.current_lt, e ▸ h.nodup⟩
  · intro h
    exact ⟨h.current_lt, e.symm ▸ h.nodup⟩

/-- A forest that is ready for more is ready for the first part. -/
theorem Ready.left (h : f.Ready (os ++ os')) : f.Ready os where
  current_lt := h.current_lt
  nodup := by
    have := h.nodup
    rw [List.map_append, ← List.append_assoc] at this
    exact (List.nodup_append.mp this).1

/-- Behind the first part the forest is ready for the rest. -/
theorem Ready.right (h : f.Ready (os ++ os')) (ho : f.Opened f' ds os) : f'.Ready os' where
  current_lt := by
    rw [ho.current_eq, ho.size_eq]
    exact Nat.lt_add_right _ h.current_lt
  nodup := by
    have := h.nodup
    rwa [List.map_append, ← List.append_assoc, ← ho.nodes_eq] at this

/-- There is one scope more. -/
theorem Entered.size_eq (h : f.Entered f' o) : f'.size = f.size + 1 := by
  have e := congrArg List.length h.bares_eq
  rwa [length_bares, List.length_append, length_bares] at e

/-- The new scope is the last one, and it is open. -/
theorem Entered.current_eq (h : f.Entered f' o) : f'.current = f.size := by
  unfold current
  rw [h.inner_eq]
  rfl

/-- Inside a new scope the forest is ready for what lies in it. -/
theorem Entered.ready (h : f.Entered f' o) (hr : f.Ready (o :: os)) : f'.Ready os where
  current_lt := by
    rw [h.current_eq, h.size_eq]
    exact Nat.lt_succ_self _
  nodup := by
    have e : f'.nodes = f.nodes ++ [o.node] := by
      unfold nodes
      rw [h.ofNode_eq, List.map_append]
      rfl
    have := hr.nodup
    rw [e, List.append_assoc]
    exact this

/-- What is declared in a new scope stays in it when the scope is closed again. -/
theorem Entered.close (h : f.Entered f' o) (h' : f'.Opened f'' ds os) :
    f.Opened f''.exit [] (⟨o.node, o.scope.addAll ds⟩ :: os) where
  inner_eq := by
    show f''.inner.tail = _
    rw [h'.inner_eq, h.inner_eq]
    rfl
  bares_eq := by
    have e : (·.addAll []) = (id : Scope → Scope) := funext Scope.addAll_nil
    show f''.bares = _
    -- the declarations went to the last scope, which is the new one
    rw [h'.bares_eq, h.current_eq, h.bares_eq, ← length_bares, modify_length, e, List.modify_id,
      List.append_assoc]
    rfl
  ofNode_eq := by
    show f''.ofNode.entries = _
    unfold numbered
    rw [h'.ofNode_eq, h.ofNode_eq, List.append_assoc, numbered, h.size_eq]
    rfl
  owners_eq := by
    show f''.owners = _
    unfold numbered
    rw [h'.owners_eq, h.owners_eq, numbered, h.size_eq]
    rfl
  tidy := h'.tidy ∘ h.tidy

/-! ## 4. Single changes -/

/-- A new key goes to the end of a table. -/
theorem put_of_not_mem {κ α : Type} [DecidableEq κ] {k : κ} {a : α} {l : List (κ × α)}
    (h : k ∉ l.map Prod.fst) : Table.put k a l = l ++ [(k, a)] := by
  induction l with
  | nil => rfl
  | cons e r ih =>
    obtain ⟨hk, hr⟩ := not_or.mp (mt List.mem_cons.mpr h)
    simp only [Table.put, if_neg (Ne.symm hk), ih hr, List.cons_append]

/-- A change of the open scope is seen there and nowhere else. -/
theorem scope_modify (f : Forest) (g : Scope → Scope) (k : ScopeId) (hk : f.current < f.size) :
    ({ f with scopes := f.scopes.modify f.current g } : Forest).scope k =
      if k = f.current then g (f.scope k) else f.scope k := by
  unfold scope
  simp only [List.getD_eq_getElem?_getD, List.getElem?_modify]
  by_cases h : k = f.current
  · subst h
    simp only [if_true, List.getElem?_eq_getElem hk]
    rfl
  · simp only [if_neg h, if_neg (Ne.symm h)]
    cases f.scopes[k]? <;> rfl

/-- A change of the open scope that leaves its declarations keeps the forest tidy. -/
theorem Tidy.modify (h : f.Tidy) (hk : f.current < f.size) {g : Scope → Scope}
    (hg : ∀ s, (g s).decls = s.decls) :
    ({ f with scopes := f.scopes.modify f.current g } : Forest).Tidy := by
  intro k
  rw [scope_modify f g k hk]
  split
  · rw [hg]
    exact h k
  · exact h k

/-- **A declaration whose name is free goes to the open scope.** -/
theorem opened_add {d : Decl} (hk : f.current < f.size)
    (hd : (f.scope f.current).get? d.name = none) : f.Opened (f.add d) [d] [] where
  inner_eq := rfl
  bares_eq := by
    rw [List.map_nil, List.append_nil]
    exact map_modify (fun s => s.bare_add d) _ _
  ofNode_eq := (List.append_nil _).symm
  owners_eq := rfl
  tidy h k := by
    show ((({ f with scopes := f.scopes.modify f.current (·.add d) } : Forest).scope k).decls.map
      Decl.name).Nodup
    rw [scope_modify f _ k hk]
    split
    -- only the open scope has gained a name, and that one was free
    · rename_i e
      subst e
      have hn : d.name ∉ (f.scope f.current).decls.map Decl.name := by
        simpa [Scope.get?] using hd
      rw [Scope.add, List.map_append]
      refine List.nodup_append.mpr ⟨h _, List.nodup_singleton _, fun x hx y hy => ?_⟩
      rw [List.mem_singleton.mp hy]
      exact fun e => hn (e ▸ hx)
    · exact h k

/-- **A node that has no scope gets a new one,** which is empty. -/
theorem entered_enter {n : NodeId} (hn : n ∉ f.nodes) :
    f.Entered (f.enter n) ⟨n, .holding none []⟩ := by
  -- the node has no scope yet, so a new one grows behind the others
  have hg : f.ofNode.get? n = none := Table.find_eq_none.mpr hn
  have e : f.grow n = { f with scopes := f.scopes ++ [.inside (some f.current)]
                               ofNode := f.ofNode.insert n f.size } := by
    unfold grow
    rw [hg]
  refine ⟨?_, ?_, ?_, ?_, fun h k => ?_⟩
  · simp only [enter, e, slotOf, hg]
    rfl
  · simp only [enter, e, bares, List.map_append]
    rfl
  · simp only [enter, e, Table.insert, put_of_not_mem hn]
  · simp only [enter, e]
    rfl
  · have hs : (f.enter n).scope k =
        (f.scopes ++ [Scope.inside (some f.current)]).getD k default := by
      simp only [enter, e, scope]
    rw [hs, List.getD_eq_getElem?_getD, List.getElem?_append]
    split
    · exact h k
    · rw [List.getElem?_singleton]
      split <;> exact List.nodup_nil

/-- A change of the scope that was opened last, which is registered anew. -/
theorem Entered.modify (h : f.Entered f' o) {g d : Scope → Scope} {t : Table String ScopeId}
    (hg : ∀ s, (g s).bare = d s.bare) (hd : ∀ s, (g s).decls = s.decls)
    (ht : t = register f.owners (⟨o.node, d o.scope⟩, f.size)) :
    f.Entered { f' with scopes := f'.scopes.modify f'.current g, owners := t }
      ⟨o.node, d o.scope⟩ where
  inner_eq := h.inner_eq
  bares_eq := by
    show (f'.scopes.modify f'.current g).map Scope.bare = _
    rw [map_modify hg]
    show f'.bares.modify f'.current d = _
    rw [h.bares_eq, h.current_eq, ← length_bares, modify_length]
  ofNode_eq := h.ofNode_eq
  owners_eq := ht
  tidy ht := (h.tidy ht).modify (by rw [h.current_eq, h.size_eq]; exact Nat.lt_succ_self _) hd

/-- What a scope holds is read off the list of scopes, wherever they lie. -/
theorem scope_bare (f : Forest) (k : ScopeId) : (f.scope k).bare = f.bares.getD k default := by
  unfold scope bares
  simp only [List.getD_eq_getElem?_getD, List.getElem?_map]
  cases f.scopes[k]? <;> rfl

/-- What is declared comes behind what the open scope holds. -/
theorem Opened.here_eq (h : f.Opened f' ds os) (hc : f.current < f.size) :
    (f'.scope f'.current).decls = (f.scope f.current).decls ++ ds := by
  have e : (f'.scope f'.current).bare = (f.scope f.current).bare.addAll ds := by
    have hl : f.current < (f.bares.modify f.current (·.addAll ds)).length := by
      rwa [List.length_modify, length_bares]
    rw [scope_bare, scope_bare, h.current_eq, h.bares_eq]
    simp only [List.getD_eq_getElem?_getD]
    rw [List.getElem?_append_left hl, List.getElem?_modify,
      List.getElem?_eq_getElem (by rwa [length_bares])]
    simp only [if_true]
    rfl
  exact (congrArg Scope.decls e :)

/-- The open scope is the new one. -/
theorem Entered.scope_eq (h : f.Entered f' o) : (f'.scope f'.current).bare = o.scope := by
  rw [scope_bare, h.bares_eq, h.current_eq, ← length_bares, List.getD_eq_getElem?_getD,
    List.getElem?_concat_length]
  rfl

/-- A scope that is opened for an owner is registered under its name, unless it is a function. -/
theorem entered_owned {n : NodeId} {w : Owner} (hn : n ∉ f.nodes) :
    f.Entered (f.enterOwned n w) ⟨n, .holding (some w) []⟩ := by
  have h := entered_enter hn
  have hs : f.slotOf n = f.size := h.current_eq
  have ho : ((f.grow n).scope (f.slotOf n)).owner = none := congrArg Scope.owner h.scope_eq
  have hw : (f.grow n).owners = f.owners := h.owners_eq
  -- the scope has no owner yet, so the claim is not refused
  have e : f.enterOwned n w =
      { f.enter n with
        scopes := (f.enter n).scopes.modify (f.enter n).current (·.claim w)
        owners := if w.kind = .fn then f.owners else f.owners.insertNew w.name f.size } := by
    rw [← hs]
    simp only [enterOwned, claim, ho, hw]
    rfl
  rw [e]
  exact h.modify (d := fun s => { s with owner := some (s.owner.getD w) }) (fun _ => rfl)
    (fun _ => rfl) rfl

/-- The interfaces are remembered in the order in which they are listed. -/
theorem Entered.addListed (h : f.Entered f' o) (is : List Ident) :
    f.Entered (is.foldl (fun f i => f.addListed i.name) f')
      ⟨o.node, { o.scope with interfaces := o.scope.interfaces ++ is.map Ident.name }⟩ := by
  induction is generalizing f' o with
  | nil =>
    have e : o.scope.interfaces ++ [].map Ident.name = o.scope.interfaces := List.append_nil _
    rw [e]
    exact h
  | cons i is ih =>
    have h' := h.modify (t := f'.owners)
      (g := fun s => { s with interfaces := s.interfaces ++ [i.name] })
      (d := fun s => { s with interfaces := s.interfaces ++ [i.name] }) (fun _ => rfl)
      (fun _ => rfl) h.owners_eq
    have := ih h'
    rwa [List.append_assoc] at this

/-- The scope of a class remembers the head of the class. -/
theorem entered_header {c : ClassDecl} (hn : c.node.id ∉ f.nodes) :
    f.Entered (f.enterHeader c) ⟨c.node.id, c.heading⟩ := by
  have h : f.Entered (f.enterClass c) _ := entered_owned hn
  -- a class without a base lists its interfaces only
  cases hb : c.base with
  | none =>
    have := h.addListed c.interfaces
    unfold enterHeader ClassDecl.heading
    rw [hb]
    exact this
  | some b =>
    have h' := h.modify (t := (f.enterClass c).owners)
      (g := fun s => { s with parent := some b.name })
      (d := fun s => { s with parent := some b.name }) (fun _ => rfl) (fun _ => rfl) h.owners_eq
    have := h'.addListed c.interfaces
    unfold enterHeader ClassDecl.heading
    rw [hb]
    exact this

end

end Forest

/-! ## 5. The declarations of a program -/

open Forest (Entered Opened Ready)

/-- What the open scope holds so far. -/
def Declared.here (d : Declared) : List Decl := (d.forest.scope d.forest.current).decls

/-- **A step makes these declarations in the open scope and leaves these scopes behind,** of which
all that is admitted stays. What it reports depends on what the open scope holds before. -/
structure Declares (step : Declared → Declared) (ds : List Decl) (os : List Opening)
    (clashes : List Decl → List Diagnostic) : Prop where
  opened : ∀ d : Declared, d.forest.Ready os →
    d.forest.Opened (step d).forest (Decl.admitted d.here ds) (os.map Opening.kept)
  reported : ∀ d : Declared, d.forest.Ready os → (step d).conflicts = d.conflicts ++ clashes d.here
  clear : ∀ old, clashes old = [] → Decl.admitted old ds = ds ∧ os.map Opening.kept = os

namespace Declares

variable {step step' : Declared → Declared} {ds ds' : List Decl} {os os' : List Opening}
  {cs cs' : List Decl → List Diagnostic}

/-- Nothing is declared. -/
theorem skip : Declares (fun d => d) [] [] fun _ => [] where
  opened d _ := .refl d.forest
  reported _ _ := (List.append_nil _).symm
  clear _ _ := ⟨rfl, rfl⟩

/-- **Two steps in a row:** the second finds taken what the first has left. -/
theorem andThen (h : Declares step ds os cs) (h' : Declares step' ds' os' cs') :
    Declares (fun d => step' (step d)) (ds ++ ds') (os ++ os')
      fun old => cs old ++ cs' (old ++ Decl.admitted old ds) := by
  -- where the first step leaves the open scope, the second one goes on
  have between : ∀ d, d.forest.Ready (os ++ os') → (step d).forest.Ready os' ∧
      (step d).here = d.here ++ Decl.admitted d.here ds := fun d hr => by
    have ho := h.opened d hr.left
    exact ⟨(Forest.ready_kept.mpr hr).right ho, ho.here_eq hr.current_lt⟩
  refine ⟨fun d hr => ?_, fun d hr => ?_, fun old hc => ?_⟩
  · obtain ⟨hr', e⟩ := between d hr
    have ho' := h'.opened (step d) hr'
    rw [Decl.admitted_append, List.map_append, ← e]
    exact (h.opened d hr.left).trans hr.current_lt ho'
  · obtain ⟨hr', e⟩ := between d hr
    rw [h'.reported (step d) hr', h.reported d hr.left, e, List.append_assoc]
  · obtain ⟨hc, hc'⟩ := List.append_eq_nil_iff.mp hc
    obtain ⟨hd, ho⟩ := h.clear old hc
    obtain ⟨hd', ho'⟩ := h'.clear _ hc'
    rw [Decl.admitted_append, List.map_append, hd', hd, ho, ho']
    exact ⟨rfl, rfl⟩

/-- One declaration is taken in, or else reported. -/
theorem put (x : Decl) : Declares (fun d => d.put x) [x] [] fun old => x.clash old := by
  have hget : ∀ d : Declared, (d.forest.scope d.forest.current).get? x.name =
      d.here.find? (·.name == x.name) := fun _ => rfl
  refine ⟨fun d hr => ?_, fun d _ => ?_, fun old hc => ?_⟩
  · unfold Declared.put Forest.insert Decl.admitted
    rw [hget]
    cases hg : d.here.find? (·.name == x.name) with
    | some y => exact .refl d.forest
    | none => exact Forest.opened_add hr.current_lt hg
  · unfold Declared.put Forest.insert Decl.clash
    rw [hget]
    cases d.here.find? (·.name == x.name) with
    | some y => rfl
    | none => exact (List.append_nil _).symm
  · unfold Decl.clash at hc
    unfold Decl.admitted
    split at hc
    · cases hc
    · exact ⟨rfl, rfl⟩

/-- Variables in a row are declared like one after the other. -/
theorem putVars (vs : List VarDecl) : Declares (fun d => d.putVars vs) (vs.map .var) []
    fun old => VarDecl.clashesAll old vs := by
  induction vs with
  | nil => exact skip
  -- `clashesAll` unfolds like the walk over the variables
  | cons v vs ih => exact (put (.var v)).andThen ih

/-- What a step does between the opening and the closing of a scope. -/
theorem within {enter : Forest → Forest} {o : Opening} (hd : o.scope.decls = [])
    (he : ∀ f : Forest, o.node ∉ f.nodes → f.Entered (enter f) o) (h : Declares step ds os cs) :
    Declares (fun d => (step (d.withForest enter)).exit) [] (⟨o.node, o.scope.addAll ds⟩ :: os)
      fun _ => cs [] := by
  have inside : ∀ d : Declared, d.forest.Ready (⟨o.node, o.scope.addAll ds⟩ :: os) →
      d.forest.Entered (enter d.forest) o ∧ (enter d.forest).Ready os ∧
        (d.withForest enter).here = [] := fun d hr => by
    -- the node of the scope is the first of those that have no scope yet
    have hn : o.node ∉ d.forest.nodes := fun hm =>
      List.disjoint_of_nodup_append hr.nodup hm List.mem_cons_self
    have hin := he d.forest hn
    exact ⟨hin, hin.ready ⟨hr.current_lt, hr.nodup⟩, (congrArg Scope.decls hin.scope_eq).trans hd⟩
  have hkept : (⟨o.node, o.scope.addAll ds⟩ : Opening).kept =
      ⟨o.node, o.scope.addAll (Decl.admitted [] ds)⟩ := by
    unfold Opening.kept Scope.addAll
    rw [hd]
    rfl
  refine ⟨fun d hr => ?_, fun d hr => ?_, fun _ hc => ?_⟩
  · obtain ⟨hin, hr', e⟩ := inside d hr
    have ho := h.opened (d.withForest enter) hr'
    rw [e] at ho
    rw [List.map_cons, hkept]
    exact hin.close ho
  · obtain ⟨-, hr', e⟩ := inside d hr
    rw [← e]
    exact h.reported (d.withForest enter) hr'
  · obtain ⟨h₁, h₂⟩ := h.clear [] hc
    rw [List.map_cons, hkept, h₁, h₂]
    exact ⟨rfl, rfl⟩

end Declares

mutual

/-- **A statement declares nothing in the open scope,** and opens the scopes of its blocks. -/
theorem Stmt.declares : ∀ s : Stmt, Declares s.declare [] s.openings fun _ => s.clashes
  | .block b => b.declares
  | .ifThen _ _ s => s.declares
  | .ifElse _ _ s o => s.declares.andThen o.declares
  | .while _ _ s => s.declares
  | .for _ _ _ _ s => s.declares
  | .switch _ _ cs => Case.declares_all cs
  | .break _ => .skip
  | .ret _ _ => .skip
  | .print _ _ => .skip
  | .expr _ => .skip

/-- **A block declares its variables in a scope of its own.** -/
theorem Block.declares : ∀ b : Block, Declares b.declare [] b.openings fun _ => b.clashes
  | ⟨n, ls, ss⟩ => by
    have h := ((Declares.putVars ls).andThen (Stmt.declares_all ss)).within
      (o := ⟨n.id, .holding none []⟩) rfl fun _ => Forest.entered_enter
    rw [List.append_nil] at h
    exact h

theorem Case.declares : ∀ c : Case, Declares c.declare [] c.openings fun _ => c.clashes
  | ⟨_, ss⟩ => Stmt.declares_all ss

/-- Statements in a row open their scopes in turn. -/
theorem Stmt.declares_all : ∀ ss : List Stmt,
    Declares (Stmt.declareAll ss) [] (Stmt.openingsAll ss) fun _ => Stmt.clashesAll ss
  | [] => .skip
  | s :: r => s.declares.andThen (Stmt.declares_all r)

theorem Case.declares_all : ∀ cs : List Case,
    Declares (Case.declareAll cs) [] (Case.openingsAll cs) fun _ => Case.clashesAll cs
  | [] => .skip
  | c :: r => c.declares.andThen (Case.declares_all r)

end

theorem Block.declares_opt : ∀ b : Option Block,
    Declares (Block.declareOpt b) [] (Block.openingsOpt b) fun _ => Block.clashesOpt b
  | none => .skip
  | some b => b.declares

/-- **A function declares its parameters in a scope of its own,** and its body lies inside. -/
theorem FnDecl.declares_inside (g : FnDecl) :
    Declares g.declareInside [] g.openings fun _ => g.clashes := by
  have h := ((Declares.putVars g.formals).andThen (Block.declares_opt g.body)).within
    (o := ⟨g.id, .holding (some g.owner) []⟩) rfl fun _ => Forest.entered_owned
  rw [List.append_nil] at h
  exact h

/-- The function itself goes to the open scope first. -/
theorem FnDecl.declares (g : FnDecl) :
    Declares g.declare [.fn g] g.openings fun old => (Decl.fn g).clash old ++ g.clashes :=
  (Declares.put (.fn g)).andThen g.declares_inside

theorem FnDecl.declares_all (gs : List FnDecl) :
    Declares (fun d => gs.foldl (fun d g => g.declare d) d) (gs.map .fn)
      (gs.flatMap FnDecl.openings) fun old => FnDecl.clashesAll old gs := by
  induction gs with
  | nil => exact .skip
  | cons g gs ih =>
    rw [List.flatMap_cons]
    exact g.declares.andThen ih

/-- **An interface declares its methods in a scope of its own.** -/
theorem IfaceDecl.declares (i : IfaceDecl) :
    Declares i.declareInside [] i.openings fun _ => i.clashes :=
  (FnDecl.declares_all i.members).within (o := ⟨i.node.id, .holding (some i.owner) []⟩) rfl
    fun _ => Forest.entered_owned

mutual

/-- **A declaration goes to the open scope, and what lies in it to new ones.** -/
theorem Decl.declares : ∀ x : Decl,
    Declares x.declare [x] x.openings fun old => x.clash old ++ x.clashes
  | .var v => by
    have h := (Declares.put (.var v)).andThen .skip
    exact h
  | .fn g => g.declares
  | .iface i => (Declares.put (.iface i)).andThen i.declares
  | .cls c => (Declares.put (.cls c)).andThen c.declares

/-- **A class declares its members in a scope of its own,** which remembers its head. -/
theorem ClassDecl.declares : ∀ c : ClassDecl,
    Declares c.declareInside [] c.openings fun _ => c.clashes
  | ⟨n, i, b, is, ms⟩ =>
    (Decl.declares_all ms).within (o := ⟨n.id, ClassDecl.heading ⟨n, i, b, is, ms⟩⟩) rfl
      fun _ => Forest.entered_header (c := ⟨n, i, b, is, ms⟩)

/-- **Declarations in a row are made in turn,** each in front of the scopes inside it. -/
theorem Decl.declares_all : ∀ ds : List Decl,
    Declares (Decl.declareAll ds) ds (Decl.openingsAll ds) fun old => Decl.clashesAll old ds
  | [] => .skip
  | x :: r => x.declares.andThen (Decl.declares_all r)

end

end DecafLang
