import Mathlib
import DecafLang.Mips.Assembly

/-!
# Reading assembly

What the text of assembly spells, read back without regard to how it was written.

* A line is read up to its remark. What is left is cut into words at blanks, tabs, commas and
  brackets, and the words name one machine instruction.
* **A line with a machine instruction is read as this machine instruction**
  (`Line.readable_instr`), whatever stands in the remark behind it.
* A text is read line by line (`readText_render`).
* Names of locations stand in remarks alone. As long as they do not break a line, the lines of an
  instruction can be read (`ofInstr_readable`).
-/

namespace DecafLang.Mips

open DecafLang.Code (Label Location Op)

/-! ## 1. Words -/

/-- What stands between words. -/
def isGap (c : Char) : Bool := c == ' ' || c == '\t' || c == ',' || c == '(' || c == ')'

theorem gap_plain {c : Char} (h : isGap c = true) : c ≠ '#' ∧ c ≠ '\n' := by
  constructor
  · rintro rfl
    exact absurd h (by decide)
  · rintro rfl
    exact absurd h (by decide)

/-- The words of a piece of text. -/
def words (cs : List Char) : List String :=
  ((cs.splitOnP isGap).filter fun w => !w.isEmpty).map String.ofList

/-- Text that is one word. -/
def OneWord (w : String) : Prop :=
  w.toList ≠ [] ∧ ∀ c ∈ w.toList, isGap c = false ∧ c ≠ '#' ∧ c ≠ '\n'

theorem words_append_gap (a b : List Char) {s : Char} (hs : isGap s = true) :
    words (a ++ s :: b) = words a ++ words b := by
  unfold words
  rw [List.splitOnP_append_cons a b hs, List.filter_append, List.map_append]

theorem words_gap (b : List Char) {s : Char} (hs : isGap s = true) : words (s :: b) = words b :=
  words_append_gap [] b hs

theorem words_word {w : String} (h : OneWord w) : words w.toList = [w] := by
  have hw : w.toList.isEmpty = false := by simpa using h.1
  unfold words
  rw [List.splitOnP_eq_singleton fun c hc => (h.2 c hc).1]
  simp [hw, String.ofList_toList]

/-- Text without remark that stands on one line and has these words. -/
structure Prints (cs : List Char) (ws : List String) : Prop where
  code : ∀ c ∈ cs, c ≠ '#' ∧ c ≠ '\n'
  words_eq : words cs = ws

namespace Prints

variable {cs : List Char} {ws : List String} {w : String} {s : Char}

theorem nil : Prints [] [] := ⟨nofun, rfl⟩

theorem gap (hs : isGap s = true) (h : Prints cs ws) : Prints (s :: cs) ws :=
  ⟨List.forall_mem_cons.mpr ⟨gap_plain hs, h.code⟩, (words_gap cs hs).trans h.words_eq⟩

theorem last (hw : OneWord w) : Prints w.toList [w] :=
  ⟨fun c hc => (hw.2 c hc).2, words_word hw⟩

/-- A word in front of a gap. -/
theorem word (hw : OneWord w) (hs : isGap s = true) (h : Prints cs ws) :
    Prints (w.toList ++ s :: cs) (w :: ws) := by
  refine ⟨fun c hc => ?_, ?_⟩
  · rcases List.mem_append.mp hc with hc | hc
    · exact (hw.2 c hc).2
    · exact (h.gap hs).code c hc
  · rw [words_append_gap _ _ hs, words_word hw, h.words_eq]
    rfl

variable {m a b c : String}

/-- A mnemonic with an operand. -/
theorem one (hm : OneWord m) (ha : OneWord a) : Prints (m.toList ++ ' ' :: a.toList) [m, a] :=
  .word hm rfl (.last ha)

/-- A mnemonic with two operands. -/
theorem two (hm : OneWord m) (ha : OneWord a) (hb : OneWord b) :
    Prints (m.toList ++ ' ' :: (a.toList ++ ',' :: ' ' :: b.toList)) [m, a, b] :=
  .word hm rfl (.word ha rfl (.gap rfl (.last hb)))

/-- A mnemonic with three operands. -/
theorem three (hm : OneWord m) (ha : OneWord a) (hb : OneWord b) (hc : OneWord c) :
    Prints (m.toList ++ ' ' :: (a.toList ++ ',' :: ' ' :: (b.toList ++ ',' :: ' ' :: c.toList)))
      [m, a, b, c] :=
  .word hm rfl (.word ha rfl (.gap rfl (.word hb rfl (.gap rfl (.last hc)))))

/-- A mnemonic with an operand and a place. -/
theorem place (hm : OneWord m) (ha : OneWord a) (hb : OneWord b) (hc : OneWord c) :
    Prints (m.toList ++ ' ' :: (a.toList ++ ',' :: ' ' :: (b.toList ++ '(' :: (c.toList ++ [')']))))
      [m, a, b, c] :=
  .word hm rfl (.word ha rfl (.gap rfl (.word hb rfl (.word hc rfl .nil))))

end Prints

/-! ## 2. Registers, numbers and operations -/

/-- All registers in use. -/
def Reg.all : List Reg := [t0, t1, t2, t3, sp, fp, gp, ra, v0]

/-- The register that a word names. -/
def Reg.ofName? (w : String) : Option Reg := all.find? (·.name == w)

theorem Reg.ofName?_name (r : Reg) : ofName? r.name = some r := by
  cases r <;> decide

theorem Reg.oneWord (r : Reg) : OneWord r.name := by
  cases r <;> simp [OneWord, Reg.name, isGap]

/-- All operations. -/
def allOps : List Op :=
  [.add, .sub, .mul, .div, .mod, .eq, .ne, .lt, .le, .gt, .ge, .and, .or]

/-- The operation that a mnemonic computes. -/
def opOf? (w : String) : Option Op := allOps.find? (opName · == w)

theorem opOf?_opName (o : Op) : opOf? (opName o) = some o := by
  cases o <;> decide

theorem opName_oneWord (o : Op) : OneWord (opName o) := by
  cases o <;> simp [OneWord, opName, isGap]

/-- A digit stands in a word. -/
theorem digit_plain {c : Char} (h : c.isDigit = true) : isGap c = false ∧ c ≠ '#' ∧ c ≠ '\n' := by
  refine ⟨?_, ?_, ?_⟩
  · by_contra hg
    simp only [isGap, Bool.not_eq_false, Bool.or_eq_true, beq_iff_eq] at hg
    rcases hg with (((rfl | rfl) | rfl) | rfl) | rfl <;> exact absurd h (by decide)
  · rintro rfl
    exact absurd h (by decide)
  · rintro rfl
    exact absurd h (by decide)

/-- What a number is written with. -/
theorem int_chars (v : Int) : ∀ c ∈ (toString v).toList, c = '-' ∨ c.isDigit = true := by
  have digits : ∀ n : Nat, ∀ c ∈ n.repr.toList, c.isDigit = true := fun n c hc => by
    rw [Nat.toList_repr] at hc
    exact Nat.isDigit_of_mem_toDigits (by decide) (by decide) hc
  cases v with
  | ofNat n => exact fun c hc => .inr (digits n c hc)
  | negSucc n =>
    intro c hc
    have hc : c ∈ ("-" ++ (n + 1).repr).toList := hc
    rw [String.toList_append] at hc
    -- a negative number has its sign in front, and digits behind
    rcases List.mem_append.mp hc with hc | hc
    · exact .inl (List.mem_singleton.mp hc)
    · exact .inr (digits _ c hc)

/-- A number is written as one word. -/
theorem int_oneWord (v : Int) : OneWord (toString v) := by
  refine ⟨fun e => ?_, fun c hc => ?_⟩
  · cases v with
    | ofNat n =>
      -- there is always a digit
      have e : n.repr.toList = [] := e
      rw [Nat.toList_repr] at e
      exact Nat.toDigits_ne_nil e
    | negSucc n =>
      have e : ("-" ++ (n + 1).repr).toList = [] := e
      rw [String.toList_append] at e
      cases e
  · rcases int_chars v c hc with rfl | h
    · decide
    · exact digit_plain h

/-- No number is written like a register. -/
theorem Reg.ofName?_repr (v : Int) : ofName? v.repr = none := by
  refine List.find?_eq_none.mpr fun r _ h => ?_
  have hd : '$' ∈ r.name.toList := by cases r <;> decide
  rw [beq_iff_eq.mp h] at hd
  rcases int_chars v _ hd with e | e <;> exact absurd e (by decide)

/-! ## 3. Machine instructions -/

/-- The machine instruction that words name. -/
def readInstr : List String → Option Instr
  | [op, a] =>
    if op = "jr" then (Reg.ofName? a).map .jr
    else if op = "jalr" then (Reg.ofName? a).map .jalr
    else if op = "b" then some (.b a)
    else if op = "jal" then some (.jal a)
    else none
  | [op, a, b] => do
    let r ← Reg.ofName? a
    if op = "li" then return .li r (.ofInt (← b.toInt?))
    else if op = "move" then return .move r (← Reg.ofName? b)
    else if op = "la" then return .la r b
    else if op = "beqz" then return .beqz r b
    else none
  | [op, a, b, c] => do
    let r ← Reg.ofName? a
    if op = "lw" then return .lw r (← b.toInt?) (← Reg.ofName? c)
    else if op = "sw" then return .sw r (← b.toInt?) (← Reg.ofName? c)
    else
      let s ← Reg.ofName? b
      if op = "subu" then return .subu r s (← c.toInt?)
      else if op = "addiu" then return .addiu r s (← c.toInt?)
      else
        match Reg.ofName? c with
        | some t => return .alu (← opOf? op) r s t
        -- of the operations, only the sum is written with a number
        | none => if op = "add" then return .addi r s (← c.toInt?) else none
  | _ => none

namespace Instr

/-- The labels in the machine instruction are words. -/
def Spelled : Instr → Prop
  | la _ l => OneWord l
  | b l => OneWord l
  | beqz _ l => OneWord l
  | jal l => OneWord l
  | _ => True

/-- The words of the machine instruction. -/
def spelling : Instr → List String
  | li rd v => ["li", rd.name, toString v.toInt]
  | la rd l => ["la", rd.name, l]
  | lw rd o base => ["lw", rd.name, toString o, base.name]
  | sw rs o base => ["sw", rs.name, toString o, base.name]
  | alu op rd rs rt => [opName op, rd.name, rs.name, rt.name]
  | move rd rs => ["move", rd.name, rs.name]
  | subu rd rs v => ["subu", rd.name, rs.name, toString v]
  | addiu rd rs v => ["addiu", rd.name, rs.name, toString v]
  | addi rd rs v => ["add", rd.name, rs.name, toString v]
  | b l => ["b", l]
  | beqz rs l => ["beqz", rs.name, l]
  | jal l => ["jal", l]
  | jalr rs => ["jalr", rs.name]
  | jr rs => ["jr", rs.name]

theorem spelling_ne_nil (i : Instr) : i.spelling ≠ [] := by
  cases i <;> exact List.cons_ne_nil _ _

/-- **The words of a machine instruction name it.** -/
theorem readInstr_spelling (i : Instr) : readInstr i.spelling = some i := by
  cases i with
  | alu op rd rs rt =>
    have hop : opName op ≠ "lw" ∧ opName op ≠ "sw" ∧ opName op ≠ "subu" ∧
        opName op ≠ "addiu" := by cases op <;> decide
    simp only [spelling, readInstr, Reg.ofName?_name, if_neg hop.1, if_neg hop.2.1,
      if_neg hop.2.2.1, if_neg hop.2.2.2, opOf?_opName, Option.bind_eq_bind, Option.bind_some,
      Option.pure_def]
  | addi rd rs v => simp [spelling, readInstr, Reg.ofName?_name, Reg.ofName?_repr]
  | _ => simp [spelling, readInstr, Reg.ofName?_name]

/-- The mnemonics of the machine instructions that are no operations. -/
def mnemonics : List String :=
  ["li", "la", "lw", "sw", "move", "subu", "addiu", "add", "b", "beqz", "jal", "jalr", "jr"]

theorem mnemonic_oneWord : ∀ w ∈ mnemonics, OneWord w := by
  simp [mnemonics, OneWord, isGap]

theorem prints_access {m : String} (hm : m ∈ mnemonics) (r : Reg) (o : Int) (base : Reg) :
    Prints (access m r o base).toList [m, r.name, toString o, base.name] := by
  have h := Prints.place (mnemonic_oneWord m hm) r.oneWord (int_oneWord o) base.oneWord
  simpa [access, toString] using h

theorem prints_immediate {m : String} (hm : m ∈ mnemonics) (rd rs : Reg) (v : Int) :
    Prints (immediate m rd rs v).toList [m, rd.name, rs.name, toString v] := by
  have h := Prints.three (mnemonic_oneWord m hm) rd.oneWord rs.oneWord (int_oneWord v)
  simpa [immediate, toString] using h

/-- **A machine instruction is written with its words.** -/
theorem prints_text {i : Instr} (h : i.Spelled) : Prints i.text.toList i.spelling := by
  cases i with
  -- the words are the mnemonic and the operands, and each of them is one word
  | li rd v =>
    simpa [text, spelling, toString] using
      Prints.two (mnemonic_oneWord "li" (by decide)) rd.oneWord (int_oneWord v.toInt)
  | la rd l =>
    simpa [text, spelling] using Prints.two (mnemonic_oneWord "la" (by decide)) rd.oneWord h
  | lw rd o base => exact prints_access (by decide) rd o base
  | sw rs o base => exact prints_access (by decide) rs o base
  | alu op rd rs rt =>
    simpa [text, spelling] using Prints.three (opName_oneWord op) rd.oneWord rs.oneWord rt.oneWord
  | move rd rs =>
    simpa [text, spelling] using
      Prints.two (mnemonic_oneWord "move" (by decide)) rd.oneWord rs.oneWord
  | subu rd rs v => exact prints_immediate (by decide) rd rs v
  | addiu rd rs v => exact prints_immediate (by decide) rd rs v
  | addi rd rs v => exact prints_immediate (by decide) rd rs v
  | b l => simpa [text, spelling] using Prints.one (mnemonic_oneWord "b" (by decide)) h
  | beqz rs l =>
    simpa [text, spelling] using Prints.two (mnemonic_oneWord "beqz" (by decide)) rs.oneWord h
  | jal l => simpa [text, spelling] using Prints.one (mnemonic_oneWord "jal" (by decide)) h
  | jalr rs =>
    simpa [text, spelling] using Prints.one (mnemonic_oneWord "jalr" (by decide)) rs.oneWord
  | jr rs =>
    simpa [text, spelling] using Prints.one (mnemonic_oneWord "jr" (by decide)) rs.oneWord

end Instr

/-! ## 4. Lines and text -/

/-- What stands in front of the remark of a line. -/
def beforeRemark (cs : List Char) : List Char := cs.takeWhile (· != '#')

theorem beforeRemark_append {cs : List Char} (h : ∀ c ∈ cs, c ≠ '#') (t : List Char) :
    beforeRemark (cs ++ t) = cs ++ beforeRemark t :=
  List.takeWhile_append_of_pos fun c hc => bne_iff_ne.mpr (h c hc)

theorem beforeRemark_cons {c : Char} (h : c ≠ '#') (t : List Char) :
    beforeRemark (c :: t) = c :: beforeRemark t :=
  List.takeWhile_cons_of_pos (bne_iff_ne.mpr h)

/-- The machine instructions of a line: one, or none if there are no words in it. -/
def readLine (cs : List Char) : Option (List Instr) :=
  match words (beforeRemark cs) with
  | [] => some []
  | ws => (readInstr ws).map ([·])

/-- The machine instructions of lines. -/
def readLines : List (List Char) → Option (List Instr)
  | [] => some []
  | l :: r => do return (← readLine l) ++ (← readLines r)

/-- The machine instructions of a text. -/
def readText (t : String) : Option (List Instr) := readLines (t.toList.splitOn '\n')

/-- What may stand behind a machine instruction: blanks, and a remark. -/
def Trails : List Char → Prop
  | [] => True
  | c :: t => if c = '#' then '\n' ∉ t else isGap c = true ∧ Trails t

namespace Trails

variable {c : Char} {t : List Char}

theorem newline (h : Trails t) : '\n' ∉ t := by
  induction t with
  | nil => exact List.not_mem_nil
  | cons c t ih =>
    intro hm
    rw [Trails] at h
    split at h
    next hc => exact h ((List.mem_cons.mp hm).resolve_left (by rw [hc]; decide))
    next => exact (List.mem_cons.mp hm).elim (gap_plain h.1).2.symm (ih h.2)

/-- No words stand in front of the remark. -/
theorem words_eq (h : Trails t) : words (beforeRemark t) = [] := by
  induction t with
  | nil => rfl
  | cons c t ih =>
    rw [Trails] at h
    split at h
    next hc => rw [hc]; rfl
    next => rw [beforeRemark_cons (gap_plain h.1).1, words_gap _ h.1, ih h.2]

/-- **What stands behind a piece of text has no words.** -/
theorem words_append (h : Trails t) {cs : List Char} {ws : List String} (hp : Prints cs ws) :
    words (beforeRemark (cs ++ t)) = ws := by
  rw [beforeRemark_append fun c hc => (hp.code c hc).1]
  cases t with
  | nil => exact (congrArg words (List.append_nil cs)).trans hp.words_eq
  | cons c t =>
    rw [Trails] at h
    -- what trails is a remark, which is cut off, or a gap before one
    split at h
    next hc =>
      rw [hc]
      exact (congrArg words (List.append_nil cs)).trans hp.words_eq
    next =>
      rw [beforeRemark_cons (gap_plain h.1).1, words_append_gap _ _ h.1, hp.words_eq,
        words_eq h.2, List.append_nil]

end Trails

namespace Line

/-- The machine instruction of a line, if it holds one. -/
def instrs : Line → List Instr
  | .instr i _ => [i]
  | _ => []

/-- The printed line is one line, and read as the machine instruction it holds. -/
structure Readable (l : Line) : Prop where
  newline : '\n' ∉ (indented l.text).toList
  reads : readLine (indented l.text).toList = some l.instrs

/-- What a line starts with has no words. -/
theorem exists_indentation (t : String) :
    ∃ g : List Char, (∀ c ∈ g, isGap c = true) ∧ (indented t).toList = g ++ t.toList := by
  refine ⟨(if t.endsWith ":" then "" else "\t").toList ++
    (if t.startsWith "#" then "" else "  ").toList, ?_, ?_⟩
  · split <;> split <;> simp [isGap]
  · rw [indented, String.toList_append, String.toList_append]

theorem words_indentation {g : List Char} (h : ∀ c ∈ g, isGap c = true) (t : List Char) :
    words (beforeRemark (g ++ t)) = words (beforeRemark t) := by
  induction g with
  | nil => rfl
  | cons c g ih =>
    have hc := h c List.mem_cons_self
    rw [List.cons_append, beforeRemark_cons (gap_plain hc).1, words_gap _ hc]
    exact ih fun d hd => h d (List.mem_cons_of_mem c hd)

/-- Where a line starts does not matter. -/
theorem readable_of_text {l : Line} (hn : '\n' ∉ l.text.toList)
    (h : readLine l.text.toList = some l.instrs) : l.Readable := by
  obtain ⟨g, hg, e⟩ := exists_indentation l.text
  refine ⟨?_, ?_⟩
  · rw [e]
    exact fun hm => (List.mem_append.mp hm).elim (fun hc => (gap_plain (hg _ hc)).2 rfl) hn
  · rw [e, readLine, words_indentation hg]
    exact h

/-- **A line with a machine instruction is read as this machine instruction.** -/
theorem readable_instr {i : Instr} {t : String} (hi : i.Spelled) (ht : Trails t.toList) :
    (instr i t).Readable := by
  have hp := Instr.prints_text hi
  have e : (instr i t).text.toList = i.text.toList ++ t.toList := String.toList_append
  refine readable_of_text ?_ ?_
  · rw [e]
    exact fun hm => (List.mem_append.mp hm).elim (fun hc => (hp.code _ hc).2 rfl) ht.newline
  · rw [e, readLine, ht.words_append hp]
    have hr := i.readInstr_spelling
    cases hs : i.spelling with
    | nil => exact absurd hs i.spelling_ne_nil
    | cons w ws =>
      rw [hs] at hr
      exact congrArg (Option.map ([·])) hr

/-- A remark holds no machine instruction. -/
theorem readable_remark {t : String} (ht : '\n' ∉ t.toList) : (remark t).Readable := by
  have e : (remark t).text.toList = '#' :: t.toList := by simp [text]
  refine readable_of_text ?_ ?_
  · rw [e]
    exact fun hm => ht ((List.mem_cons.mp hm).resolve_left (by decide))
  · rw [e]
    rfl

end Line

/-- **Printed lines are read as the machine instructions they hold.** -/
theorem readText_render {ls : List Line} (h : ∀ l ∈ ls, l.Readable) :
    readText (String.join (ls.map Line.render)) = some (ls.flatMap Line.instrs) := by
  induction ls with
  | nil => rfl
  | cons l r ih =>
    obtain ⟨hl, hr⟩ := List.forall_mem_cons.mp h
    have e : (String.join ((l :: r).map Line.render)).toList =
        (Line.indented l.text).toList ++ '\n' :: (String.join (r.map Line.render)).toList := by
      simp [Line.render, String.join_cons]
    rw [readText, e, List.splitOn_append_cons_self_of_not_mem hl.newline, readLines, hl.reads,
      show readLines _ = _ from ih hr]
    rfl

end DecafLang.Mips

/-! ## 5. The lines of an instruction -/

/-- No name in the location, of itself or of what it is based on, breaks a line. -/
def DecafLang.Code.Location.Plain : DecafLang.Code.Location → Prop
  | .direct _ _ n => '\n' ∉ n.toList
  | .based b _ n => b.Plain ∧ '\n' ∉ n.toList

namespace DecafLang.Mips

open DecafLang.Code (Location)

theorem OneWord.newline {w : String} (h : OneWord w) : '\n' ∉ w.toList :=
  fun hc => (h.2 _ hc).2.2 rfl

theorem signed_newline (o : Int) : '\n' ∉ (signed o).toList := by
  have ho := (int_oneWord o).newline
  unfold signed
  split
  · simpa [toString] using ho
  · simpa [toString] using ho

theorem fillLine_readable (o : Int) {n : String} (h : '\n' ∉ n.toList) (r base : Reg) :
    (fill.line o n r base).Readable := by
  refine Line.readable_instr trivial ?_
  simp [toString, Trails, isGap, h, r.oneWord.newline, base.oneWord.newline, signed_newline]

theorem spillLine_readable (o : Int) {n : String} (h : '\n' ∉ n.toList) (r base : Reg) :
    (spill.line o n r base).Readable := by
  refine Line.readable_instr trivial ?_
  simp [toString, Trails, isGap, h, r.oneWord.newline, base.oneWord.newline, signed_newline]

theorem fill_readable {l : Location} (h : l.Plain) (r : Reg) : ∀ x ∈ fill l r, x.Readable := by
  induction l generalizing r with
  | direct s o n => exact List.forall_mem_singleton.mpr (fillLine_readable o h r _)
  | based b o n ih =>
    exact List.forall_mem_append.mpr
      ⟨ih h.1 .t3, List.forall_mem_singleton.mpr (fillLine_readable o h.2 r .t3)⟩

theorem spill_readable {l : Location} (h : l.Plain) (r : Reg) : ∀ x ∈ spill l r, x.Readable := by
  cases l with
  | direct s o n => exact List.forall_mem_singleton.mpr (spillLine_readable o h r _)
  | based b o n =>
    exact List.forall_mem_append.mpr
      ⟨fill_readable h.1 .t3, List.forall_mem_singleton.mpr (spillLine_readable o h.2 r .t3)⟩

theorem prologue_readable (n : Int) : ∀ x ∈ prologue n, x.Readable := by
  have open_ : ∀ x ∈ prologue 0, x.Readable := by
    simp only [prologue, if_pos, List.append_nil, List.forall_mem_cons]
    refine ⟨?_, ?_, ?_, ?_, List.forall_mem_nil _⟩ <;>
      exact Line.readable_instr trivial (by simp [Trails, isGap])
  have room : (Line.instr (.subu .sp .sp n)
      "\t# decrement sp to make space for locals/temps").Readable :=
    Line.readable_instr trivial (by simp [Trails, isGap])
  unfold prologue at open_ ⊢
  rw [if_pos rfl, List.append_nil] at open_
  -- room is made only where there are words to put
  split
  · exact List.forall_mem_append.mpr ⟨open_, List.forall_mem_nil _⟩
  · exact List.forall_mem_append.mpr ⟨open_, List.forall_mem_singleton.mpr room⟩

theorem epilogue_readable : ∀ x ∈ epilogue, x.Readable := by
  simp only [epilogue, List.forall_mem_cons]
  refine ⟨?_, ?_, ?_, ?_, List.forall_mem_nil _⟩ <;>
    exact Line.readable_instr trivial (by simp [Trails, isGap])

theorem ret_readable {v : Option Location} (h : ∀ l ∈ v, l.Plain) :
    ∀ x ∈ ret v, x.Readable := by
  cases v with
  | none => exact epilogue_readable
  | some l =>
    refine List.forall_mem_append.mpr ⟨fill_readable (h l rfl) .t2, List.forall_mem_cons.mpr
      ⟨Line.readable_instr trivial ?_, epilogue_readable⟩⟩
    simp [Trails, isGap]

end DecafLang.Mips

namespace DecafLang.Code.Instr

/-- The locations that stand in an instruction. -/
def operands : Instr → List Location
  | const d _ => [d]
  | str d _ => [d]
  | addr d _ => [d]
  | copy d s => [d, s]
  | load d s _ => [d, s]
  | store d s _ => [d, s]
  | op _ d l r => [d, l, r]
  | jumpIfZero t _ => [t]
  | ret v => v.toList
  | push p => [p]
  | call _ d => d.toList
  | callVia a d => a :: d.toList
  | _ => []

/-- The instruction only computes a word from others. -/
def Computes : Instr → Prop
  | const _ _ => True
  | copy _ _ => True
  | load _ _ _ => True
  | store _ _ _ => True
  | op _ _ _ _ => True
  | push _ => True
  | _ => False

end DecafLang.Code.Instr

namespace DecafLang.Mips

open DecafLang.Code (Location)

theorem ofInstr_readable (k : Nat) {i : Code.Instr} (hi : i.Computes)
    (h : ∀ l ∈ i.operands, l.Plain) : ∀ x ∈ ofInstr k i, x.Readable := by
  cases i with
  | const d v =>
    have hd : d.Plain := h d (by simp [Code.Instr.operands])
    refine List.forall_mem_cons.mpr ⟨Line.readable_instr trivial ?_, spill_readable hd .t2⟩
    -- the remark shows the number, which has no line break in it
    have hv := (int_oneWord v.toInt).newline
    simp [toString] at hv
    simp [toString, Trails, isGap, hv, Reg.t2.oneWord.newline]
  | copy d s =>
    have hd : d.Plain := h d (by simp [Code.Instr.operands])
    have hs : s.Plain := h s (by simp [Code.Instr.operands])
    exact List.forall_mem_append.mpr ⟨fill_readable hs .t2, spill_readable hd .t2⟩
  | load d s o =>
    have hd : d.Plain := h d (by simp [Code.Instr.operands])
    have hs : s.Plain := h s (by simp [Code.Instr.operands])
    refine List.forall_mem_append.mpr ⟨fill_readable hs .t0, List.forall_mem_cons.mpr
      ⟨Line.readable_instr trivial ?_, spill_readable hd .t2⟩⟩
    simp [Trails, isGap]
  | store d s o =>
    have hd : d.Plain := h d (by simp [Code.Instr.operands])
    have hs : s.Plain := h s (by simp [Code.Instr.operands])
    refine List.forall_mem_append.mpr ⟨List.forall_mem_append.mpr
      ⟨fill_readable hs .t0, fill_readable hd .t2⟩, List.forall_mem_singleton.mpr
        (Line.readable_instr trivial ?_)⟩
    simp [Trails, isGap]
  | op o d l r =>
    have hd : d.Plain := h d (by simp [Code.Instr.operands])
    have hl : l.Plain := h l (by simp [Code.Instr.operands])
    have hr : r.Plain := h r (by simp [Code.Instr.operands])
    refine List.forall_mem_append.mpr ⟨List.forall_mem_append.mpr
      ⟨fill_readable hl .t0, fill_readable hr .t1⟩, List.forall_mem_cons.mpr
        ⟨Line.readable_instr trivial ?_, spill_readable hd .t2⟩⟩
    simp [Trails, isGap]
  | push p =>
    have hp : p.Plain := h p (by simp [Code.Instr.operands])
    refine List.forall_mem_cons.mpr ⟨Line.readable_instr trivial ?_, List.forall_mem_append.mpr
      ⟨fill_readable hp .t0, List.forall_mem_singleton.mpr (Line.readable_instr trivial ?_)⟩⟩
    · simp [Trails, isGap]
    · simp [Trails, isGap]
  | _ => cases hi

end DecafLang.Mips
