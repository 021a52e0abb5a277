import DecafLang.Compilation

/-!
# Stages one by one

A `Session` keeps what the stages share, so that they can be run one at a time, in any order and
again. **A stage that fails leaves the session as it was.**
-/

namespace DecafLang

/-- What the stages of one program share. -/
structure Session where
  program : Program
  hierarchy : Hierarchy
  forest : Forest
  notes : Notes
  layout : Layout
  code : List Code.Instr

namespace Session

/-- Nothing has been run. -/
def start (p : Program) : Session := ⟨p, .ofProgram p, .empty, .empty, .empty, []⟩

/-- Declares everything. -/
def declare (s : Session) : Declared × Session :=
  let d := s.program.declare s.forest
  (d, { s with forest := d.forest })

/-- Looks up all names. -/
def resolve (s : Session) : Resolved × Session :=
  let r := s.program.resolve s.forest s.notes
  (r, { s with forest := r.forest, notes := r.notes })

/-- Compares all members with what they inherit. -/
def conform (s : Session) : Conformance × Session :=
  let c := s.program.conform s.forest s.notes
  (c, { s with forest := c.forest })

/-- Gives all expressions their types. -/
def checkTypes (s : Session) : TypeChecked × Session :=
  let t := s.program.checkTypes s.hierarchy s.forest s.notes
  (t, { s with forest := t.forest, notes := t.notes })

/-- Lays out the program. -/
def layOut (s : Session) : Except Refusal Layout × Session :=
  match Layout.ofProgram s.hierarchy s.program with
  | .error r => (.error r, s)
  | .ok l => (.ok l, { s with layout := l })

/-- Writes the code. -/
def lower (s : Session) : Except Failure (List Code.Instr) × Session :=
  match s.program.lower s.notes s.layout with
  | .error f => (.error f, s)
  | .ok c => (.ok c, { s with code := c })

end Session

end DecafLang
