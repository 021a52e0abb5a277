import DecafLang.Analysis
import DecafLang.Lowering.Program
import DecafLang.Mips.Assembly

/-!
# The compilation of a program

A program that breaks no rule is laid out, becomes three-address code, and is printed in one of
two forms.

* **What breaks a rule comes back as diagnostics;** a program without `main` breaks one.
* What the back end cannot lower comes back as a refusal.
* Each stage leaves an `Event` that tells what it did.
-/

namespace DecafLang

/-- The form in which code is printed. -/
inductive OutputForm where
  | assembly
  | threeAddress
deriving DecidableEq, Repr, Inhabited

/-- What the caller asks for. -/
structure Options where
  output : OutputForm
  /-- Whether the listing of the scopes belongs to the events. -/
  showScopes : Bool
deriving Inhabited

/-! ## 1. Events -/

/-- How much an event matters. -/
inductive Level where
  | debug
  | info
deriving DecidableEq, Repr

/-- The level as it is printed. -/
def Level.text : Level → String
  | debug => "DEBUG"
  | info => "INFO"

/-- The number of lines of a text; a line break at the end opens no line. -/
def lineCount (s : String) : Nat :=
  s.toList.count '\n' + (if s.isEmpty || s.endsWith "\n" then 0 else 1)

/-- What a stage did. -/
inductive Event where
  | declared (d : Declared)
  | resolved (r : Resolved)
  | conformed (c : Conformance)
  | typed (t : TypeChecked)
  | analyzed (a : Analysis)
  | scopes (f : Forest)
  | classLaidOut (l : ObjectLayout)
  | laidOut (l : Layout)
  | lowered (code : List Code.Instr)
  | assembled (text : String)
  | noCode (errors : Nat)
  | compiled (code : List Code.Instr) (text : String)

namespace Event

/-- How much the event matters. -/
def level : Event → Level
  | noCode _ => .info
  | compiled _ _ => .info
  | _ => .debug

/-- The event in words. -/
def text : Event → String
  | declared d =>
    s!"symbol table: {d.count} declarations, {d.conflicts.length} conflicts, {d.forest.size} scopes"
  | resolved r => s!"resolve: {r.boundCount} bound, {r.unboundCount} unresolved"
  | conformed c => s!"inheritance: {c.classes} classes, {c.overrides} overrides"
  | typed t => s!"type check: {t.exprCount} expressions, {t.diagnostics.length} errors"
  | analyzed a =>
    s!"analyze: {a.notes.bindings.size} bindings, {a.notes.types.size} typed expressions, "
      ++ s!"{a.diagnostics.length} errors"
  | scopes f => "symbol table:\n" ++ f.listing
  | classLaidOut l =>
    s!"class {l.name}: fields [" ++ ", ".intercalate (l.fields.map VarDecl.name) ++ "], vtable ["
      ++ ", ".intercalate l.labels ++ s!"], {l.size} bytes"
  | laidOut l => s!"layout: {l.classes.length} classes, {l.globalSize} bytes of globals"
  | lowered code => s!"codegen: {code.length} instructions"
  | assembled t => s!"mips: {lineCount t} lines"
  | noCode n => s!"compile: {n} errors, no code generated"
  | compiled code t => s!"compile: {code.length} instructions, {t.utf8ByteSize} bytes of output"

/-- The event on a line, behind its level. -/
def line (e : Event) : String := e.level.text ++ " " ++ e.text

end Event

/-- What the analysis did. -/
def Analysis.events (a : Analysis) (o : Options) : List Event :=
  [.declared a.declared, .resolved a.resolved, .conformed a.conformance, .typed a.typed,
    .analyzed a] ++ if o.showScopes then [.scopes a.forest] else []

/-- What laying out did. -/
def Layout.events (l : Layout) : List Event := l.classes.map .classLaidOut ++ [.laidOut l]

/-! ## 2. The compilation -/

/-- What comes of a program that was not refused. -/
structure Compiled where
  diagnostics : List Diagnostic
  /-- The printed code, unless there are diagnostics. -/
  output : Option String

/-- Whether there is code. -/
def Compiled.isSuccess (c : Compiled) : Bool := c.diagnostics.isEmpty

/-- A result, and what was done on the way. -/
structure Run where
  result : Except Refusal Compiled
  events : List Event

/-- The code in the form that is asked for. -/
def OutputForm.print (o : OutputForm) (code : List Code.Instr) : String :=
  match o with
  | assembly => Mips.assembly code
  | threeAddress => Code.text code

/-- What printing did. -/
def OutputForm.events (o : OutputForm) (text : String) : List Event :=
  match o with
  | assembly => [.assembled text]
  | threeAddress => []

/-- Checks a program and, if it is clean, prints its code. -/
def Program.compile (p : Program) (o : Options) : Run :=
  let a := p.analyze
  let events := a.events o
  if a.isClean then
    match Layout.ofProgram a.hierarchy p with
    | .error r => ⟨.error r, events⟩
    | .ok l =>
      let events := events ++ l.events
      match p.lower a.notes l with
      | .error (.refusal r) => ⟨.error r, events⟩
      | .error (.diagnostic d) => ⟨.ok ⟨[d], none⟩, events ++ [.noCode 1]⟩
      | .ok code =>
        let text := o.output.print code
        ⟨.ok ⟨[], some text⟩,
          events ++ [.lowered code] ++ o.output.events text ++ [.compiled code text]⟩
  else ⟨.ok ⟨a.diagnostics, none⟩, events ++ [.noCode a.diagnostics.length]⟩

end DecafLang
