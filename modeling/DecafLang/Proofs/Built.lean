import DecafLang.Proofs.Numbering

/-!
# Programs from the bottom up

What numbering makes of a program.

* **Nothing but the numbers changes** (`Decl.number_all_keeps`): with all numbers left out, the
  numbered program is the given one.
* What a piece is made of stands in front of it in the list of all pieces (`Part.Closed`). So where
  numbers go up along the list, **every piece has a greater number than all that it is made of**
  (`Part.Closed.inside_lt`).
* The numbers are 0, 1, 2, … without a gap, and none is given twice (`Program.number_dense`).
-/

namespace DecafLang

/-! ## 1. What is left without the numbers -/

/-- A node without its number. -/
def Node.unnumbered (n : Node) : Node := { n with id := 0 }

/-- A name without its number. -/
def Ident.unnumbered (i : Ident) : Ident := { i with node := i.node.unnumbered }

/-- A written type without its numbers. -/
def TypeExpr.unnumbered : TypeExpr → TypeExpr
  | .prim _ p => .prim 0 p
  | .named _ i => .named 0 i.unnumbered
  | .array _ t => .array 0 t.unnumbered

mutual

/-- An expression without its numbers. -/
def Expr.unnumbered : Expr → Expr
  | .int n v => .int n.unnumbered v
  | .double n => .double n.unnumbered
  | .bool n v => .bool n.unnumbered v
  | .string n v => .string n.unnumbered v
  | .null n => .null n.unnumbered
  | .this n => .this n.unnumbered
  | .readInteger n => .readInteger n.unnumbered
  | .readLine n => .readLine n.unnumbered
  | .binary n op l r => .binary n.unnumbered op l.unnumbered r.unnumbered
  | .unary n op x => .unary n.unnumbered op x.unnumbered
  | .step n op x => .step n.unnumbered op x.unnumbered
  | .assign n t v => .assign n.unnumbered t.unnumbered v.unnumbered
  | .index n b s => .index n.unnumbered b.unnumbered s.unnumbered
  | .name n i => .name n.unnumbered i.unnumbered
  | .field n b i => .field n.unnumbered b.unnumbered i.unnumbered
  | .call n i args => .call n.unnumbered i.unnumbered (Expr.unnumberedAll args)
  | .send n b i args => .send n.unnumbered b.unnumbered i.unnumbered (Expr.unnumberedAll args)
  | .new n i => .new n.unnumbered i.unnumbered
  | .newArray n s t => .newArray n.unnumbered s.unnumbered t.unnumbered

/-- Several expressions without their numbers. -/
def Expr.unnumberedAll : List Expr → List Expr
  | [] => []
  | e :: r => e.unnumbered :: Expr.unnumberedAll r

end

/-- A variable without its numbers. -/
def VarDecl.unnumbered (v : VarDecl) : VarDecl :=
  ⟨v.node.unnumbered, v.ident.unnumbered, v.type.unnumbered⟩

mutual

/-- A statement without its numbers. -/
def Stmt.unnumbered : Stmt → Stmt
  | .block b => .block b.unnumbered
  | .ifThen a t s => .ifThen a t.unnumbered s.unnumbered
  | .ifElse a t s o => .ifElse a t.unnumbered s.unnumbered o.unnumbered
  | .while a t s => .while a t.unnumbered s.unnumbered
  | .for a i t u s =>
    .for a (i.map Expr.unnumbered) t.unnumbered (u.map Expr.unnumbered) s.unnumbered
  | .switch a e cs => .switch a e.unnumbered (Case.unnumberedAll cs)
  | .break a => .break a
  | .ret a e => .ret a (e.map Expr.unnumbered)
  | .print a es => .print a (Expr.unnumberedAll es)
  | .expr e => .expr e.unnumbered

/-- A block without its numbers. -/
def Block.unnumbered : Block → Block
  | ⟨n, ls, ss⟩ => ⟨n.unnumbered, ls.map VarDecl.unnumbered, Stmt.unnumberedAll ss⟩

/-- An arm without its numbers. -/
def Case.unnumbered : Case → Case
  | ⟨v, ss⟩ => ⟨v, Stmt.unnumberedAll ss⟩

/-- Several statements without their numbers. -/
def Stmt.unnumberedAll : List Stmt → List Stmt
  | [] => []
  | s :: r => s.unnumbered :: Stmt.unnumberedAll r

/-- Several arms without their numbers. -/
def Case.unnumberedAll : List Case → List Case
  | [] => []
  | c :: r => c.unnumbered :: Case.unnumberedAll r

end

/-- A function without its numbers. -/
def FnDecl.unnumbered (g : FnDecl) : FnDecl :=
  ⟨g.node.unnumbered, g.ident.unnumbered, g.result.unnumbered, g.formals.map VarDecl.unnumbered,
    g.body.map Block.unnumbered⟩

/-- An interface without its numbers. -/
def IfaceDecl.unnumbered (i : IfaceDecl) : IfaceDecl :=
  ⟨i.node.unnumbered, i.ident.unnumbered, i.members.map FnDecl.unnumbered⟩

mutual

/-- A declaration without its numbers. -/
def Decl.unnumbered : Decl → Decl
  | .var v => .var v.unnumbered
  | .fn g => .fn g.unnumbered
  | .iface i => .iface i.unnumbered
  | .cls c => .cls c.unnumbered

/-- A class without its numbers. -/
def ClassDecl.unnumbered : ClassDecl → ClassDecl
  | ⟨n, i, b, is, ms⟩ => ⟨n.unnumbered, i.unnumbered, b.map Ident.unnumbered,
      is.map Ident.unnumbered, Decl.unnumberedAll ms⟩

/-- Several declarations without their numbers. -/
def Decl.unnumberedAll : List Decl → List Decl
  | [] => []
  | d :: r => d.unnumbered :: Decl.unnumberedAll r

end

/-! ## 2. Only the numbers change -/

/-- Steps change nothing but numbers: without them, what comes out is what went in. -/
def Numbering.Keeps {α : Type} (m : Numbering α) (strip : α → α) (a : α) : Prop :=
  ∀ k, strip (m k).1 = strip a

-- Each case says what the constructor is with and without the numbers, and then goes to the parts.

/-- A written type keeps all but its numbers. -/
theorem TypeExpr.number_keeps : ∀ t : TypeExpr, t.number.Keeps TypeExpr.unnumbered t
  | .prim _ _, _ | .named _ _, _ => rfl
  | .array _ t, k => by
    show TypeExpr.array 0 _ = TypeExpr.array 0 _
    rw [t.number_keeps]

mutual

/-- An expression keeps all but its numbers. -/
theorem Expr.number_keeps : ∀ e : Expr, e.number.Keeps Expr.unnumbered e
  | .int _ _, _ | .double _, _ | .bool _ _, _ | .string _ _, _ | .null _, _ | .this _, _
  | .readInteger _, _ | .readLine _, _ | .name _ _, _ | .new _ _, _ => rfl
  | .binary n op l r, k => by
    show Expr.binary n.unnumbered op _ _ = Expr.binary n.unnumbered op _ _
    rw [l.number_keeps, r.number_keeps]
  | .unary n op x, k => by
    show Expr.unary n.unnumbered op _ = Expr.unary n.unnumbered op _
    rw [x.number_keeps]
  | .step n op x, k => by
    show Expr.step n.unnumbered op _ = Expr.step n.unnumbered op _
    rw [x.number_keeps]
  | .assign n t v, k => by
    show Expr.assign n.unnumbered _ _ = Expr.assign n.unnumbered _ _
    rw [t.number_keeps, v.number_keeps]
  | .index n b x, k => by
    show Expr.index n.unnumbered _ _ = Expr.index n.unnumbered _ _
    rw [b.number_keeps, x.number_keeps]
  | .field n b i, k => by
    show Expr.field n.unnumbered _ i.unnumbered = Expr.field n.unnumbered _ i.unnumbered
    rw [b.number_keeps]
  | .call n i args, k => by
    show Expr.call n.unnumbered i.unnumbered _ = Expr.call n.unnumbered i.unnumbered _
    rw [Expr.number_all_keeps args]
  | .send n b i args, k => by
    show Expr.send n.unnumbered _ i.unnumbered _ = Expr.send n.unnumbered _ i.unnumbered _
    rw [b.number_keeps, Expr.number_all_keeps args]
  | .newArray n x t, k => by
    show Expr.newArray n.unnumbered _ _ = Expr.newArray n.unnumbered _ _
    rw [x.number_keeps, t.number_keeps]

/-- Several expressions keep all but their numbers. -/
theorem Expr.number_all_keeps : ∀ es : List Expr,
    (Expr.numberAll es).Keeps Expr.unnumberedAll es
  | [], _ => rfl
  | e :: es, k => by
    have he := e.number_keeps k
    have hes := Expr.number_all_keeps es (e.number k).2
    exact congrArg₂ List.cons he hes

end

/-- An expression that may be missing keeps all but its numbers. -/
theorem Expr.number_opt_keeps : ∀ e : Option Expr,
    (Expr.numberOpt e).Keeps (Option.map Expr.unnumbered) e
  | none, _ => rfl
  | some e, k => by
    have he := e.number_keeps k
    exact congrArg some he

/-- A variable keeps its name, and its type up to the numbers. -/
theorem VarDecl.number_keeps (v : VarDecl) : v.number.Keeps VarDecl.unnumbered v := by
  intro k
  have htype := v.type.number_keeps k
  exact congrArg (VarDecl.mk v.node.unnumbered v.ident.unnumbered) htype

/-- Several variables keep all but their numbers. -/
theorem VarDecl.number_all_keeps : ∀ vs : List VarDecl,
    (VarDecl.numberAll vs).Keeps (List.map VarDecl.unnumbered) vs
  | [], _ => rfl
  | v :: vs, k => by
    have hv := v.number_keeps k
    have hvs := VarDecl.number_all_keeps vs (v.number k).2
    exact congrArg₂ List.cons hv hvs

mutual

/-- A statement keeps all but its numbers. -/
theorem Stmt.number_keeps : ∀ s : Stmt, s.number.Keeps Stmt.unnumbered s
  | .break _, _ => rfl
  | .block b, k => by
    have hb := b.number_keeps k
    exact congrArg Stmt.block hb
  | .ifThen a t s, k => by
    show Stmt.ifThen a _ _ = Stmt.ifThen a _ _
    rw [t.number_keeps, s.number_keeps]
  | .ifElse a t s o, k => by
    show Stmt.ifElse a _ _ _ = Stmt.ifElse a _ _ _
    rw [t.number_keeps, s.number_keeps, o.number_keeps]
  | .while a t s, k => by
    show Stmt.while a _ _ = Stmt.while a _ _
    rw [t.number_keeps, s.number_keeps]
  | .for a i t u s, k => by
    show Stmt.for a _ _ _ _ = Stmt.for a _ _ _ _
    congr 1
    · exact Expr.number_opt_keeps i k
    · exact t.number_keeps _
    · exact Expr.number_opt_keeps u _
    · exact s.number_keeps _
  | .switch a e cs, k => by
    show Stmt.switch a _ _ = Stmt.switch a _ _
    rw [e.number_keeps, Case.number_all_keeps cs]
  | .ret a e, k => by
    have he := Expr.number_opt_keeps e k
    exact congrArg (Stmt.ret a) he
  | .print a es, k => by
    have hes := Expr.number_all_keeps es k
    exact congrArg (Stmt.print a) hes
  | .expr e, k => by
    have he := e.number_keeps k
    exact congrArg Stmt.expr he

/-- A block keeps all but its numbers. -/
theorem Block.number_keeps : ∀ b : Block, b.number.Keeps Block.unnumbered b
  | ⟨n, ls, ss⟩, k => by
    have hls := VarDecl.number_all_keeps ls k
    have hss := Stmt.number_all_keeps ss (VarDecl.numberAll ls k).2
    exact congrArg₂ (Block.mk n.unnumbered) hls hss

/-- An arm keeps its label, and its statements up to the numbers. -/
theorem Case.number_keeps : ∀ c : Case, c.number.Keeps Case.unnumbered c
  | ⟨v, ss⟩, k => by
    have hss := Stmt.number_all_keeps ss k
    exact congrArg (Case.mk v) hss

/-- Several statements keep all but their numbers. -/
theorem Stmt.number_all_keeps : ∀ ss : List Stmt,
    (Stmt.numberAll ss).Keeps Stmt.unnumberedAll ss
  | [], _ => rfl
  | s :: ss, k => by
    have hs := s.number_keeps k
    have hss := Stmt.number_all_keeps ss (s.number k).2
    exact congrArg₂ List.cons hs hss

/-- Several arms keep all but their numbers. -/
theorem Case.number_all_keeps : ∀ cs : List Case,
    (Case.numberAll cs).Keeps Case.unnumberedAll cs
  | [], _ => rfl
  | c :: cs, k => by
    have hc := c.number_keeps k
    have hcs := Case.number_all_keeps cs (c.number k).2
    exact congrArg₂ List.cons hc hcs

end

/-- A body that may be missing keeps all but its numbers. -/
theorem Block.number_opt_keeps : ∀ b : Option Block,
    (Block.numberOpt b).Keeps (Option.map Block.unnumbered) b
  | none, _ => rfl
  | some b, k => by
    have hb := b.number_keeps k
    exact congrArg some hb

/-- A function keeps all but its numbers. -/
theorem FnDecl.number_keeps (g : FnDecl) : g.number.Keeps FnDecl.unnumbered g := by
  intro k
  show FnDecl.mk _ _ _ _ _ = FnDecl.mk _ _ _ _ _
  congr 1
  · exact g.result.number_keeps k
  · exact VarDecl.number_all_keeps g.formals _
  · exact Block.number_opt_keeps g.body _

/-- Several functions keep all but their numbers. -/
theorem FnDecl.number_all_keeps : ∀ gs : List FnDecl,
    (FnDecl.numberAll gs).Keeps (List.map FnDecl.unnumbered) gs
  | [], _ => rfl
  | g :: gs, k => by
    have hg := g.number_keeps k
    have hgs := FnDecl.number_all_keeps gs (g.number k).2
    exact congrArg₂ List.cons hg hgs

/-- An interface keeps its name, and its prototypes up to the numbers. -/
theorem IfaceDecl.number_keeps (i : IfaceDecl) : i.number.Keeps IfaceDecl.unnumbered i := by
  intro k
  have hmembers := FnDecl.number_all_keeps i.members k
  exact congrArg (IfaceDecl.mk i.node.unnumbered i.ident.unnumbered) hmembers

/-- A name that may be missing keeps all but its number. -/
theorem Ident.number_opt_keeps : ∀ i : Option Ident,
    (Ident.numberOpt i).Keeps (Option.map Ident.unnumbered) i
  | none, _ => rfl
  | some _, _ => rfl

/-- Several names keep all but their numbers. -/
theorem Ident.number_all_keeps : ∀ is : List Ident,
    (Ident.numberAll is).Keeps (List.map Ident.unnumbered) is
  | [], _ => rfl
  | i :: is, k => by
    have his := Ident.number_all_keeps is (k + 1)
    exact congrArg (List.cons i.unnumbered) his

mutual

/-- A declaration keeps all but its numbers. -/
theorem Decl.number_keeps : ∀ d : Decl, d.number.Keeps Decl.unnumbered d
  | .var v, k => by
    have hv := v.number_keeps k
    exact congrArg Decl.var hv
  | .fn g, k => by
    have hg := g.number_keeps k
    exact congrArg Decl.fn hg
  | .iface i, k => by
    have hi := i.number_keeps k
    exact congrArg Decl.iface hi
  | .cls c, k => by
    have hc := c.number_keeps k
    exact congrArg Decl.cls hc

/-- A class keeps all but its numbers. -/
theorem ClassDecl.number_keeps : ∀ c : ClassDecl, c.number.Keeps ClassDecl.unnumbered c
  | ⟨n, i, b, is, ms⟩, k => by
    show ClassDecl.mk _ _ _ _ _ = ClassDecl.mk _ _ _ _ _
    congr 1
    · exact Ident.number_opt_keeps b _
    · exact Ident.number_all_keeps is _
    · exact Decl.number_all_keeps ms k

/-- **Several declarations keep all but their numbers.** -/
theorem Decl.number_all_keeps : ∀ ds : List Decl,
    (Decl.numberAll ds).Keeps Decl.unnumberedAll ds
  | [], _ => rfl
  | d :: ds, k => by
    have hd := d.number_keeps k
    have hds := Decl.number_all_keeps ds (d.number k).2
    exact congrArg₂ List.cons hd hds

end

/-! ## 3. The pieces of a piece -/

namespace Part

/-- The pieces of a piece: all that it is made of, and the piece itself at the end. -/
def pieces : Part → List Part
  | type t => t.parts
  | use i => [.use i]
  | declared i => [.declared i]
  | block b => b.parts
  | expr e => e.parts
  | decl d => d.parts
  | program p => p.parts

/-- All that a piece is made of, at any depth. -/
def inside (q : Part) : List Part := q.pieces.dropLast

/-- With each piece the list has the pieces of that piece, in order and the piece itself last. -/
def Closed (ps : List Part) : Prop :=
  ∀ q ∈ ps, ∃ front, q.pieces = front ++ [q] ∧ q.pieces.Sublist ps

namespace Closed

variable {ps qs : List Part} {q r : Part}

/-- A list without pieces. -/
theorem nil : Closed [] := fun _ hq => absurd hq List.not_mem_nil

/-- The pieces of a piece stay in order in any longer list. -/
theorem widen (h : Closed ps) (hs : ps.Sublist qs) (hq : q ∈ ps) :
    ∃ front, q.pieces = front ++ [q] ∧ q.pieces.Sublist qs := by
  obtain ⟨front, e, hps⟩ := h q hq
  exact ⟨front, e, hps.trans hs⟩

/-- Two lists that bring their pieces along do so behind each other. -/
theorem append (h : Closed ps) (h' : Closed qs) : Closed (ps ++ qs) := by
  intro q hq
  rcases List.mem_append.mp hq with hq | hq
  · exact h.widen (List.sublist_append_left ps qs) hq
  · exact h'.widen (List.sublist_append_right ps qs) hq

/-- A piece may be added behind all that it is made of. -/
theorem concat (h : Closed ps) (e : q.pieces = ps ++ [q]) : Closed (ps ++ [q]) := by
  intro r hr
  rcases List.mem_append.mp hr with hr | hr
  · exact h.widen (List.sublist_append_left ps [q]) hr
  · obtain rfl := List.mem_singleton.mp hr
    exact ⟨ps, e, by rw [e]⟩

/-- The use of a name alone. -/
theorem use (i : Ident) : Closed [.use i] := nil.concat rfl

/-- A declared name alone. -/
theorem declared (i : Ident) : Closed [.declared i] := nil.concat rfl

/-- A piece may be added with its name behind all else that it is made of. -/
theorem named (h : Closed ps) (hr : Closed [r]) (e : q.pieces = ps ++ [r, q]) :
    Closed (ps ++ [r, q]) := by
  rw [List.append_cons] at e ⊢
  exact (h.append hr).concat e

/-- Names behind each other. -/
theorem uses : ∀ is : List Ident, Closed (is.map .use)
  | [] => nil
  | i :: is => by
    have hi := use i
    exact hi.append (uses is)

/-- **Where the numbers go up, a piece has a greater number than all that it is made of.** -/
theorem inside_lt (h : Closed ps) (hup : (ps.map Part.id).Pairwise (· < ·)) :
    ∀ q ∈ ps, ∀ r ∈ q.inside, r.id < q.id := by
  intro q hq r hr
  obtain ⟨front, e, hs⟩ := h q hq
  -- the numbers go up along the pieces of `q`, and `q` is the last of them
  have hpieces : (front ++ [q]).Pairwise fun a b => a.id < b.id := by
    rw [← e]
    exact (List.pairwise_map.mp hup).sublist hs
  rw [inside, e, List.dropLast_concat] at hr
  exact (List.pairwise_append.mp hpieces).2.2 r hr q (List.mem_singleton_self q)

end Closed

end Part

open DecafLang.Part (Closed)

-- Each case lists the pieces of the parts first, and puts the piece itself behind them.

/-- A written type stands behind the name or the type that it is made of. -/
theorem TypeExpr.parts_closed : ∀ t : TypeExpr, Closed t.parts
  | .prim _ _ => Closed.nil.concat rfl
  | .named _ i => by
    have hname := Closed.use i
    exact hname.concat rfl
  | .array _ t => by
    have helem := t.parts_closed
    exact helem.concat rfl

mutual

/-- An expression stands behind all that it is put together from. -/
theorem Expr.parts_closed : ∀ e : Expr, Closed e.parts
  | .int _ _ | .double _ | .bool _ _ | .string _ _ | .null _ | .this _ | .readInteger _
  | .readLine _ => Closed.nil.concat rfl
  | .name _ i | .new _ i => by
    have hname := Closed.use i
    exact hname.concat rfl
  | .unary _ _ x | .step _ _ x => by
    have hx := x.parts_closed
    exact hx.concat rfl
  | .binary _ _ x y | .assign _ x y | .index _ x y => by
    have hxy := x.parts_closed.append y.parts_closed
    exact hxy.concat rfl
  | .newArray _ size t => by
    have hparts := size.parts_closed.append t.parts_closed
    exact hparts.concat rfl
  -- a name behind a base, or in front of arguments, stands just before the whole
  | .field _ base i => by
    have hbase := base.parts_closed
    exact hbase.named (.use i) rfl
  | .call _ i args => by
    have hargs := Expr.parts_all_closed args
    exact hargs.named (.use i) rfl
  | .send _ base i args => by
    have hparts := base.parts_closed.append (Expr.parts_all_closed args)
    exact hparts.named (.use i) rfl

/-- Several expressions bring their pieces along. -/
theorem Expr.parts_all_closed : ∀ es : List Expr, Closed (Expr.partsAll es)
  | [] => .nil
  | e :: es => by
    have he := e.parts_closed
    exact he.append (Expr.parts_all_closed es)

end

/-- An expression that may be missing brings its pieces along. -/
theorem Expr.parts_opt_closed : ∀ e : Option Expr, Closed (Expr.partsOpt e)
  | none => .nil
  | some e => e.parts_closed

/-- A variable stands behind its type and its name. -/
theorem VarDecl.parts_closed (v : VarDecl) : Closed v.parts := by
  have htype := v.type.parts_closed
  exact htype.named (.declared v.ident) rfl

/-- Several variables bring their pieces along. -/
theorem VarDecl.parts_all_closed : ∀ vs : List VarDecl, Closed (vs.flatMap VarDecl.parts)
  | [] => .nil
  | v :: vs => by
    have hv := v.parts_closed
    exact hv.append (VarDecl.parts_all_closed vs)

mutual

/-- A statement brings the pieces of its parts along. -/
theorem Stmt.parts_closed : ∀ s : Stmt, Closed s.parts
  | .block b => b.parts_closed
  | .ifThen _ test body | .while _ test body => by
    have htest := test.parts_closed
    exact htest.append body.parts_closed
  | .ifElse _ test body other => by
    have hbody := test.parts_closed.append body.parts_closed
    exact hbody.append other.parts_closed
  | .for _ init test update body => by
    have htest := (Expr.parts_opt_closed init).append test.parts_closed
    have hupdate := htest.append (Expr.parts_opt_closed update)
    exact hupdate.append body.parts_closed
  | .switch _ e arms => by
    have he := e.parts_closed
    exact he.append (Case.parts_all_closed arms)
  | .break _ => .nil
  | .ret _ e => Expr.parts_opt_closed e
  | .print _ es => Expr.parts_all_closed es
  | .expr e => e.parts_closed

/-- A block stands behind its locals and its statements. -/
theorem Block.parts_closed : ∀ b : Block, Closed b.parts
  | ⟨_, locals, stmts⟩ => by
    have hinside := (VarDecl.parts_all_closed locals).append (Stmt.parts_all_closed stmts)
    exact hinside.concat rfl

/-- An arm brings the pieces of its statements along. -/
theorem Case.parts_closed : ∀ c : Case, Closed c.parts
  | ⟨_, stmts⟩ => Stmt.parts_all_closed stmts

/-- Several statements bring their pieces along. -/
theorem Stmt.parts_all_closed : ∀ ss : List Stmt, Closed (Stmt.partsAll ss)
  | [] => .nil
  | s :: ss => by
    have hs := s.parts_closed
    exact hs.append (Stmt.parts_all_closed ss)

/-- Several arms bring their pieces along. -/
theorem Case.parts_all_closed : ∀ cs : List Case, Closed (Case.partsAll cs)
  | [] => .nil
  | c :: cs => by
    have hc := c.parts_closed
    exact hc.append (Case.parts_all_closed cs)

end

/-- A body that may be missing brings its pieces along. -/
theorem Block.parts_opt_closed : ∀ b : Option Block, Closed (Block.partsOpt b)
  | none => .nil
  | some b => b.parts_closed

/-- A function stands behind its result type, its formals, its body and its name. -/
theorem FnDecl.parts_closed (g : FnDecl) : Closed g.parts := by
  have hhead := g.result.parts_closed.append (VarDecl.parts_all_closed g.formals)
  have hbody := hhead.append (Block.parts_opt_closed g.body)
  exact hbody.named (.declared g.ident) rfl

/-- Several functions bring their pieces along. -/
theorem FnDecl.parts_all_closed : ∀ gs : List FnDecl, Closed (gs.flatMap FnDecl.parts)
  | [] => .nil
  | g :: gs => by
    have hg := g.parts_closed
    exact hg.append (FnDecl.parts_all_closed gs)

/-- An interface stands behind its prototypes and its name. -/
theorem IfaceDecl.parts_closed (i : IfaceDecl) : Closed i.parts := by
  have hmembers := FnDecl.parts_all_closed i.members
  exact hmembers.named (.declared i.ident) rfl

mutual

/-- A declaration stands behind all that it is made of. -/
theorem Decl.parts_closed : ∀ d : Decl, Closed d.parts
  | .var v => v.parts_closed
  | .fn g => g.parts_closed
  | .iface i => i.parts_closed
  | .cls c => c.parts_closed

/-- A class stands behind its members and the names of its head. -/
theorem ClassDecl.parts_closed : ∀ c : ClassDecl, Closed c.parts
  | ⟨_, i, base, interfaces, members⟩ => by
    have hname := (Decl.parts_all_closed members).append (.declared i)
    have hhead := (hname.append (.uses base.toList)).append (.uses interfaces)
    exact hhead.concat rfl

/-- Several declarations bring their pieces along. -/
theorem Decl.parts_all_closed : ∀ ds : List Decl, Closed (Decl.partsAll ds)
  | [] => .nil
  | d :: ds => by
    have hd := d.parts_closed
    exact hd.append (Decl.parts_all_closed ds)

end

/-! ## 4. Numbered programs -/

namespace Program

/-- The program stands behind all its declarations. -/
theorem parts_closed (p : Program) : Closed p.parts := by
  have hdecls := Decl.parts_all_closed p.decls
  exact hdecls.concat rfl

/-- **Numbering a program changes nothing but the numbers. These are then 0, 1, 2, … without a gap,
no two pieces have the same one, and every piece has a greater one than all that it is made of.** -/
theorem number_dense (ds : List Decl) :
    Decl.unnumberedAll (number ds).decls = Decl.unnumberedAll ds ∧
      (number ds).parts.map Part.id = List.range (number ds).size ∧ (number ds).Numbered ∧
      ∀ q ∈ (number ds).parts, ∀ r ∈ q.inside, r.id < q.id := by
  have hup : ((number ds).parts.map Part.id).Pairwise (· < ·) := by
    rw [ids_number]
    exact List.pairwise_lt_range
  exact ⟨Decl.number_all_keeps ds 0, ids_number ds, number_numbered ds,
    (number ds).parts_closed.inside_lt hup⟩

end Program

end DecafLang
