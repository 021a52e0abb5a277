import DecafLang.Notes
import DecafLang.Scope.Visit
import DecafLang.Hierarchy.Subtyping

/-!
# Types of expressions

Every expression in the body of a function or a method gets a static type, and every rule that it
breaks is reported.

* A rule looks at the types of the parts alone and gives a `Verdict`. **A part of type `Ty.error`
  breaks no rule;** the mistake in it is reported already.
* The type of an operator that is misused is `Ty.error` where it depends on the operands, and `bool`
  where it does not.
* Names behind a base are bound here, since what they stand for depends on the type of the base.
* Reports come in the order of the text, those of the parts before those of the whole.
* All scopes of the bodies are made before anything is looked up in them. To look things up while
  they are made comes to the same once the program is declared (`DecafLang.Scope.Visit`).
-/

namespace DecafLang

/-! ## 1. Results -/

/-- What the types of a part of a program come to. -/
structure Report where
  /-- The types of the expressions. -/
  types : List (NodeId × Ty)
  /-- What the names behind a base stand for. -/
  bindings : List (NodeId × Decl)
  diagnostics : List Diagnostic
deriving Inhabited

namespace Report

/-- Nothing to tell. -/
def empty : Report := ⟨[], [], []⟩

/-- One report behind the other. -/
def append (r s : Report) : Report :=
  ⟨r.types ++ s.types, r.bindings ++ s.bindings, r.diagnostics ++ s.diagnostics⟩

instance : Append Report := ⟨append⟩

/-- The report of a broken rule alone. -/
def ofFaults (ds : List Diagnostic) : Report := ⟨[], [], ds⟩

end Report

/-- What a rule says about an expression: its type, the name that it binds, and what is wrong. -/
structure Verdict where
  type : Ty
  binding : Option (Ident × Decl)
  faults : List Diagnostic

namespace Verdict

/-- All is well. -/
def ok (t : Ty) : Verdict := ⟨t, none, []⟩

/-- The expression has no type, and why is known already. -/
def silent : Verdict := ok .error

/-- The expression breaks a rule and has no type. -/
def broken (s : Span) (f : Fault) : Verdict := ⟨.error, none, [.located s f]⟩

/-- The type of an expression, whose rule is broken unless the condition holds. -/
def given (t : Ty) (holds : Bool) (s : Span) (f : Fault) : Verdict :=
  ⟨t, none, if holds then [] else [.located s f]⟩

end Verdict

/-- The type of an expression, and the report of the expression with its parts. -/
structure Typed where
  type : Ty
  report : Report

/-- An expression with the given node, after its parts. -/
def Verdict.at (v : Verdict) (n : Node) (parts : Report) : Typed :=
  ⟨v.type, parts ++ ⟨[(n.id, v.type)], (v.binding.map fun b => (b.1.id, b.2)).toList, v.faults⟩⟩

/-! ## 2. Rules -/

/-- Where an expression stands. -/
structure Context where
  /-- The scopes, with those open that the expression stands in. -/
  forest : Forest
  notes : Notes
  hierarchy : Hierarchy
  /-- What the function around it has to give. -/
  result : Ty
  /-- Whether there is a loop or a `switch` to leave. -/
  breakable : Bool

namespace Ty

/-- Whether two operands are both ints or both doubles. -/
def numeric : Ty → Ty → Bool
  | int, int => true
  | double, double => true
  | _, _ => false

end Ty

namespace Context

/-- Whether a value of one type may stand where another is required. -/
def accepts (c : Context) (expected given : Ty) : Bool := c.hierarchy.accepts expected given

/-- The rule of an operator between two operands. -/
def binaryRule (c : Context) (s : Span) (op : BinaryOp) (l r : Ty) : Verdict :=
  let unknown := l.isError || r.isError
  let fault := Fault.badOperands op.symbol l r
  match op.opClass with
  | .arithmetic => .given (if l.numeric r then l else .error) (l.numeric r || unknown) s fault
  | .relational => .given .bool (l.numeric r || unknown) s fault
  -- no kind of type is left out here: two results of type void accept each other
  | .equality => .given .bool (c.accepts l r || c.accepts r l) s fault
  | .logical => .given .bool ((l == .bool && r == .bool) || unknown) s fault

/-- The rule of an operator in front of its operand. -/
def unaryRule (s : Span) (op : UnaryOp) (t : Ty) : Verdict :=
  let fault := Fault.badOperand op.symbol t
  match op with
  | .neg =>
    let numeric := t == .int || t == .double
    .given (if numeric then t else .error) (numeric || t.isError) s fault
  | .not => .given .bool (t == .bool || t.isError) s fault

/-- The rule of an operator behind a variable. -/
def stepRule (s : Span) (op : StepOp) (t : Ty) : Verdict :=
  match t with
  | .int => .ok .int
  | .error => .silent
  | t => .broken s (.badOperand op.symbol t)

/-- The rule of an assignment. -/
def assignRule (c : Context) (s : Span) (target value : Ty) : Verdict :=
  .given target (c.accepts target value) s (.badOperands "=" target value)

/-- What is wrong with a part that has to be an int. -/
def intFaults (s : Span) (f : Fault) (t : Ty) : List Diagnostic :=
  if t == .int || t.isError then [] else [.located s f]

/-- The rule of an element of an array. -/
def indexRule (s subscriptSpan : Span) (base subscript : Ty) : Verdict :=
  let first := intFaults subscriptSpan .subscriptNotInt subscript
  match base with
  | .array t => ⟨t, none, first⟩
  | .error => ⟨.error, none, first⟩
  | _ => ⟨.error, none, first ++ [.located s .indexOfNonArray]⟩

/-- The rule of a new array. -/
def newArrayRule (c : Context) (sizeSpan : Span) (size : Ty) (elem : TypeExpr) : Verdict :=
  let type :=
    match c.notes.denote elem with
    | .error => .error
    | t => .array t
  ⟨type, none, intFaults sizeSpan .arraySizeNotInt size⟩

/-- The rule of `this`. -/
def thisRule (c : Context) (s : Span) : Verdict :=
  match c.forest.enclosingClass? with
  | some d => .ok (.named d.name)
  | none => .broken s .thisOutsideClass

/-- The rule of a new object. -/
def newRule (c : Context) (i : Ident) : Verdict :=
  match c.notes.decl? i with
  | some (.cls _) => .ok (.named i.name)
  | _ => .silent

/-- The rule of a bare name: it stands for a variable. -/
def nameRule (c : Context) (i : Ident) : Verdict :=
  match c.notes.decl? i with
  | some (.var v) => .ok (c.notes.denote v.type)
  | some _ => .broken i.span (.notDeclared i.name .var)
  -- reported when the name was looked for
  | none => .silent

/-- The rule of a field behind a base. **A field is in sight only inside a class that is related
to the type of the base and has a field of that name.** -/
def fieldRule (c : Context) (base : Ty) (i : Ident) : Verdict :=
  match base with
  | .error => .silent
  | .named owner =>
    match c.forest.member? owner i.name with
    | some (.var _) =>
      match c.forest.enclosingClass? with
      | none => .broken i.span (.hiddenField i.name base)
      | some d =>
        let current := Ty.named d.name
        match c.forest.member? d.name i.name with
        | some (.var v) =>
          if c.accepts current base || c.accepts base current then
            ⟨c.notes.denote v.type, some (i, .var v), []⟩
          else .broken i.span (.hiddenField i.name base)
        -- the field is looked for in the class around as well, and that one is named here
        | _ => .broken i.span (.noSuchField i.name current)
    | _ => .broken i.span (.noSuchField i.name base)
  | _ => .broken i.span (.noSuchField i.name base)

/-- What is wrong with arguments, counted from a number on. -/
def argFaults (c : Context) : Nat → List VarDecl → List (Span × Ty) → List Diagnostic
  | k, v :: vs, (s, given) :: as =>
    let expected := c.notes.denote v.type
    (if c.accepts expected given then [] else [.located s (.badArg k given expected)])
      ++ argFaults c (k + 1) vs as
  | _, _, _ => []

/-- What is wrong with a call of a function. **If the number of arguments is wrong, their types
are not looked at.** -/
def callFaults (c : Context) (g : FnDecl) (i : Ident) (args : List (Span × Ty)) : List Diagnostic :=
  if g.formals.length = args.length then c.argFaults 1 g.formals args
  else [.located i.span (.wrongArgCount i.name g.formals.length args.length)]

/-- The rule of a call by a bare name. -/
def callRule (c : Context) (i : Ident) (args : List (Span × Ty)) : Verdict :=
  match c.notes.fn? i with
  | some g => ⟨c.notes.denote g.result, none, c.callFaults g i args⟩
  | none => .silent

/-- The rule of the call of a method behind a base. -/
def methodRule (c : Context) (base : Ty) (i : Ident) (args : List (Span × Ty)) : Verdict :=
  match base.name?.bind fun owner => c.forest.member? owner i.name with
  | some (.fn g) => ⟨c.notes.denote g.result, some (i, .fn g), c.callFaults g i args⟩
  | _ => .broken i.span (.noSuchField i.name base)

/-- The rule of a call behind a base; an array has its length, which takes no arguments. -/
def sendRule (c : Context) (base : Ty) (i : Ident) (args : List (Span × Ty)) : Verdict :=
  match base with
  | .error => .silent
  | .array _ =>
    if i.name = "length" then
      .given .int args.isEmpty i.span (.wrongArgCount i.name 0 args.length)
    else c.methodRule base i args
  | _ => c.methodRule base i args

/-- What is wrong with the test of an `if` or a loop. -/
def testFaults (s : Span) (t : Ty) : List Diagnostic :=
  if t == .bool || t.isError then [] else [.located s .testNotBool]

/-- Whether a value can be printed. -/
def printable : Ty → Bool
  | .int => true
  | .bool => true
  | .string => true
  | .error => true
  | _ => false

/-- What is wrong with a value to be printed. -/
def printFaults (k : Nat) (s : Span) (t : Ty) : List Diagnostic :=
  if printable t then [] else [.located s (.badPrintArg k t)]

/-- What is wrong with the value that a function gives. -/
def returnFaults (c : Context) (s : Span) (given : Ty) : List Diagnostic :=
  if c.accepts c.result given then [] else [.located s (.badReturn given c.result)]

/-- What is wrong with a `break`. -/
def breakFaults (c : Context) (s : Span) : List Diagnostic :=
  if c.breakable then [] else [.located s .breakOutsideLoop]

end Context

/-! ## 3. Expressions -/

mutual

/-- The type of an expression, by the rule of its form. -/
def Expr.check (c : Context) : Expr → Typed
  | .int n _ => (Verdict.ok .int).at n .empty
  | .double n => (Verdict.ok .double).at n .empty
  | .bool n _ => (Verdict.ok .bool).at n .empty
  | .string n _ => (Verdict.ok .string).at n .empty
  | .null n => (Verdict.ok .null).at n .empty
  | .this n => (c.thisRule n.span).at n .empty
  | .readInteger n => (Verdict.ok .int).at n .empty
  | .readLine n => (Verdict.ok .string).at n .empty
  | .binary n op l r =>
    let l := l.check c
    let r := r.check c
    (c.binaryRule n.span op l.type r.type).at n (l.report ++ r.report)
  | .unary n op x =>
    let x := x.check c
    (Context.unaryRule n.span op x.type).at n x.report
  | .step n op x =>
    let x := x.check c
    (Context.stepRule n.span op x.type).at n x.report
  | .assign n t v =>
    let t := t.check c
    let v := v.check c
    (c.assignRule n.span t.type v.type).at n (t.report ++ v.report)
  | .index n b s =>
    let bt := b.check c
    let st := s.check c
    (Context.indexRule n.span s.span bt.type st.type).at n (bt.report ++ st.report)
  | .name n i => (c.nameRule i).at n .empty
  | .field n b i =>
    let b := b.check c
    (c.fieldRule b.type i).at n b.report
  | .call n i args =>
    let args := Expr.checkAll c args
    (c.callRule i args.1).at n args.2
  | .send n b i args =>
    let b := b.check c
    let args := Expr.checkAll c args
    (c.sendRule b.type i args.1).at n (b.report ++ args.2)
  | .new n i => (c.newRule i).at n .empty
  | .newArray n s t =>
    let st := s.check c
    (c.newArrayRule s.span st.type t).at n st.report

/-- The places and types of several expressions, and their reports. -/
def Expr.checkAll (c : Context) : List Expr → List (Span × Ty) × Report
  | [] => ([], .empty)
  | e :: r =>
    let t := e.check c
    let ts := Expr.checkAll c r
    ((e.span, t.type) :: ts.1, t.report ++ ts.2)

end

/-- The report of an expression that may be missing. -/
def Expr.checkOpt (c : Context) : Option Expr → Report
  | none => .empty
  | some e => (e.check c).report

/-- The report of a test. -/
def Expr.checkTest (c : Context) (e : Expr) : Report :=
  let t := e.check c
  t.report ++ .ofFaults (Context.testFaults e.span t.type)

/-- The report of values to be printed, counted from a number on. -/
def Expr.checkPrint (c : Context) : Nat → List Expr → Report
  | _, [] => .empty
  | k, e :: r =>
    let t := e.check c
    t.report ++ .ofFaults (Context.printFaults k e.span t.type) ++ Expr.checkPrint c (k + 1) r

/-- The report of a value that a function gives; without a value it gives `void`. -/
def Expr.checkReturn (c : Context) (s : Span) : Option Expr → Report
  | none => .ofFaults (c.returnFaults s .void)
  | some e =>
    let t := e.check c
    t.report ++ .ofFaults (c.returnFaults s t.type)

/-! ## 4. Statements -/

namespace Context

/-- The context inside a block. -/
def inBlock (c : Context) (n : Node) : Context := { c with forest := c.forest.enter n.id }

/-- The context inside something that a `break` leaves. -/
def inBreakable (c : Context) : Context := { c with breakable := true }

end Context

mutual

/-- The report of a statement. -/
def Stmt.check : Stmt → Context → Report
  | .block b, c => b.check c
  | .ifThen _ t s, c => t.checkTest c ++ s.check c
  | .ifElse _ t s o, c => t.checkTest c ++ s.check c ++ o.check c
  | .while _ t s, c => t.checkTest c ++ s.check c.inBreakable
  | .for _ i t u s, c =>
    Expr.checkOpt c i ++ t.checkTest c ++ Expr.checkOpt c u ++ s.check c.inBreakable
  | .switch _ e cs, c => (e.check c).report ++ Case.checkAll cs c.inBreakable
  | .break s, c => .ofFaults (c.breakFaults s)
  | .ret s e, c => Expr.checkReturn c s e
  | .print _ es, c => Expr.checkPrint c 1 es
  | .expr e, c => (e.check c).report

/-- The report of a block. -/
def Block.check : Block → Context → Report
  | ⟨n, _, ss⟩, c => Stmt.checkAll ss (c.inBlock n)

/-- The report of an arm. -/
def Case.check : Case → Context → Report
  | ⟨_, ss⟩, c => Stmt.checkAll ss c

/-- The report of several statements. -/
def Stmt.checkAll : List Stmt → Context → Report
  | [], _ => .empty
  | s :: r, c => s.check c ++ Stmt.checkAll r c

/-- The report of several arms. -/
def Case.checkAll : List Case → Context → Report
  | [], _ => .empty
  | a :: r, c => a.check c ++ Case.checkAll r c

end

/-! ## 5. Programs -/

/-- The report of a body that may be missing. -/
def Block.checkOpt : Option Block → Context → Report
  | none, _ => .empty
  | some b, c => b.check c

/-- The report of a function in a forest with its surroundings open. -/
def FnDecl.check (g : FnDecl) (h : Hierarchy) (a : Notes) (f : Forest) : Report :=
  Block.checkOpt g.body ⟨f.enterFn g, a, h, a.denote g.result, false⟩

/-- The reports of several functions. -/
def FnDecl.checkAll (gs : List FnDecl) (h : Hierarchy) (a : Notes) (f : Forest) : Report :=
  match gs with
  | [] => .empty
  | g :: r => g.check h a f ++ FnDecl.checkAll r h a f

/-- The report of a declaration at the top level. -/
def Decl.check (h : Hierarchy) (a : Notes) (f : Forest) : Decl → Report
  | .cls c => FnDecl.checkAll c.methods h a (f.enterClass c)
  | .fn g => g.check h a f
  | _ => .empty

/-- The reports of several declarations. -/
def Decl.checkAll (h : Hierarchy) (a : Notes) (f : Forest) : List Decl → Report
  | [] => .empty
  | d :: r => d.check h a f ++ Decl.checkAll h a f r

/-- What the types of a program come to. -/
structure TypeChecked where
  forest : Forest
  notes : Notes
  report : Report

namespace TypeChecked

/-- The number of expressions with a type, `Ty.error` included. -/
def exprCount (t : TypeChecked) : Nat := t.report.types.length

/-- The reports, in the order of the text. -/
def diagnostics (t : TypeChecked) : List Diagnostic := t.report.diagnostics

end TypeChecked

/-- Gives all expressions of a program their types. The bodies are visited first; where they were
visited before, a walk that enters them while it looks gives the same (`Program.reads`). -/
def Program.checkTypes (p : Program) (h : Hierarchy) (f : Forest) (a : Notes) : TypeChecked :=
  let f := p.visitBodies f
  let r := Decl.checkAll h a f p.decls
  ⟨f, ⟨a.bindings.insertAll r.bindings, a.types.insertAll r.types⟩, r⟩

end DecafLang
