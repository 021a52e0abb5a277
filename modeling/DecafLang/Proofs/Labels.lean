import Mathlib.Order.Interval.Multiset
import Mathlib.Order.Interval.Finset.Nat
import DecafLang.Syntax.Handwritten
import DecafLang.Proofs.Accounts
import DecafLang.Proofs.Faithful
import DecafLang.Proofs.Inherited

/-!
# The labels of a program

Which labels the code of a program defines, and how often.

* `Emit.Settles m due left` is the account of steps that write code: **the labels that the code
  defines, and those that are left to be placed, are those that were due and those that were handed
  out.** Steps in a row settle what the first of them leaves.
* The steps for an expression or a statement place all labels that are handed out on the way, and
  none twice. So a program defines its own labels, those of its functions and tables, and besides
  each label that was handed out once (`Program.lower_defined`).
-/

namespace DecafLang

open Code (Builtin Emit Emitted Instr Label Location Supply)

namespace Code

/-! ## 1. Accounts -/

/-- The label that an instruction defines; a table is defined under the name of its class. -/
def Instr.defined? : Instr → Option Label
  | .label l => some l
  | .table c _ => some c
  | _ => none

/-- The labels that code defines, in order. -/
def defined (code : List Instr) : List Label := code.filterMap Instr.defined?

/-- The labels of code behind code. -/
theorem defined_append (a b : List Instr) : defined (a ++ b) = defined a ++ defined b :=
  List.filterMap_append

/-- The label of the first instruction, if it has one, and those of the rest. -/
theorem defined_cons (i : Instr) (code : List Instr) :
    defined (i :: code) = i.defined?.toList ++ defined code := by
  unfold defined
  rw [List.filterMap_eq_flatMap_toList, List.filterMap_eq_flatMap_toList, List.flatMap_cons]

/-- The labels that are handed out from one number to another. -/
def handedOut (a b : Nat) : Multiset Label := (Multiset.Ico a b).map Supply.labelName

/-- From a number to itself nothing is handed out. -/
theorem handedOut_self (a : Nat) : handedOut a a = 0 := by
  unfold handedOut
  rw [Multiset.Ico_self, Multiset.map_zero]

/-- One label is handed out with each number. -/
theorem handedOut_succ (n : Nat) : handedOut n (n + 1) = {Supply.labelName n} := by
  show ((Finset.Ico n (n + 1)).val).map Supply.labelName = _
  rw [Nat.Ico_succ_singleton]
  rfl

/-- The labels that are handed out from the start. -/
theorem handedOut_zero (n : Nat) :
    handedOut 0 n = ((List.range n).map Supply.labelName : List Label) := by
  show ((Finset.Ico 0 n).val).map Supply.labelName = _
  rw [Nat.Ico_zero_eq_range]
  rfl

/-- What is handed out in a row adds up. -/
theorem handedOut_add {a b c : Nat} (h : a ≤ b) (h' : b ≤ c) :
    handedOut a b + handedOut b c = handedOut a c := by
  unfold handedOut
  rw [← Multiset.map_add, Multiset.Ico_add_Ico_eq_Ico h h']

namespace Emit

variable {α β : Type} {m : Emit α} {k : α → Emit β} {due x : Multiset Label}
  {left : α → Multiset Label} {after : β → Multiset Label}

/-- What steps have written is in order: the labels that their code defines, and those that are
left to be placed, are those that were due and those that were handed out. -/
def Settled (due : Multiset Label) (left : α → Multiset Label) (s : Supply) (r : Emitted α) :
    Prop :=
  s.labels ≤ r.supply.labels ∧
    (defined r.code : Multiset Label) + left r.value = due + handedOut s.labels r.supply.labels

/-- Steps that place the labels that are due, or leave them to be placed, and likewise those that
they are handed. -/
def Settles (m : Emit α) (due : Multiset Label) (left : α → Multiset Label) : Prop :=
  ∀ s r, m s = .ok r → Settled due left s r

/-- Steps that place all labels that they are handed, and no others. -/
def Balanced (m : Emit α) : Prop := m.Settles 0 fun _ => 0

/-- Nothing defines nothing. -/
theorem settles_done (left : α → Multiset Label) (a : α) :
    (pure a : Emit α).Settles (left a) left := by
  intro s r h
  cases h
  exact ⟨Nat.le_refl _, by rw [handedOut_self, add_zero]; exact zero_add _⟩

/-- What is refused defines nothing. -/
theorem settles_refuse {r : Refusal} : (refuse r : Emit α).Settles due left := by
  intro _ _ h
  cases h

/-- What one step leaves is due to the next, which knows that it came of the first. -/
theorem Settles.bind_of (h : m.Settles due left)
    (hk : ∀ s a, m s = .ok a → (k a.value).Settles (left a.value) after) :
    (m >>= k).Settles due after := by
  intro s r hr
  obtain ⟨a, ha, b, hb, rfl⟩ := bind_run_ok.mp hr
  obtain ⟨hle, e⟩ := h s a ha
  obtain ⟨hle', e'⟩ := hk s a ha a.supply b hb
  refine ⟨Nat.le_trans hle hle', ?_⟩
  calc (defined (a.code ++ b.code) : Multiset Label) + after b.value
      = defined a.code + (defined b.code + after b.value) := by
        rw [defined_append, ← Multiset.coe_add, add_assoc]
    _ = (defined a.code + left a.value) + handedOut a.supply.labels b.supply.labels := by
        rw [e', add_assoc]
    _ = due + handedOut s.labels b.supply.labels := by
        rw [e, add_assoc, handedOut_add hle hle']

/-- **Steps in a row settle what the first of them leaves.** -/
theorem Settles.bind (h : m.Settles due left) (hk : ∀ a, (k a).Settles (left a) after) :
    (m >>= k).Settles due after :=
  h.bind_of fun _ a _ => hk a.value

/-- More that is due is left. -/
theorem Balanced.keep (h : m.Balanced) : Account.Keeps @Settles m := by
  intro x s r hr
  obtain ⟨hle, e⟩ := h s r hr
  rw [add_zero, zero_add] at e
  exact ⟨hle, by rw [e, add_comm]⟩

theorem Balanced.bind (h : m.Balanced) (hk : ∀ a, (k a).Balanced) : (m >>= k).Balanced :=
  Settles.bind h hk

/-- Nothing is balanced. -/
theorem balanced_done (a : α) : (pure a : Emit α).Balanced :=
  settles_done (fun _ => 0) a

/-- A new label is left to be placed. -/
theorem settles_newLabel : newLabel.Settles x fun l => l ::ₘ x := by
  intro s r h
  cases h
  refine ⟨Nat.le_succ _, ?_⟩
  show (0 : Multiset Label) + Supply.labelName s.labels ::ₘ x =
    x + handedOut s.labels (s.labels + 1)
  rw [zero_add, handedOut_succ, add_comm, Multiset.singleton_add]

/-- What an instruction defines was due. -/
theorem settles_instr (i : Instr) :
    (instr i).Settles ((i.defined?.toList : Multiset Label) + x) fun _ => x := by
  intro s r h
  cases h
  refine ⟨Nat.le_refl _, ?_⟩
  show ((defined [i] : List Label) : Multiset Label) + x = _
  rw [handedOut_self, add_zero, defined_cons]
  exact congrArg (· + x) (congrArg _ (List.append_nil _))

/-- An instruction that is no label is balanced. -/
theorem balanced_instr {i : Instr} (h : i.defined? = none) : (instr i).Balanced := by
  have hi := settles_instr (x := 0) i
  rw [h] at hi
  exact hi

/-- Steps that write nothing and hand out no label. -/
theorem balanced_silent (h : ∀ s, ∃ a s', m s = .ok ⟨a, [], s'⟩ ∧ s'.labels = s.labels) :
    m.Balanced := by
  intro s r hr
  obtain ⟨a, s', e, hl⟩ := h s
  obtain rfl := Except.ok.inj (e.symm.trans hr)
  refine ⟨Nat.le_of_eq hl.symm, ?_⟩
  dsimp only
  rw [hl, handedOut_self]
  rfl

/-! ## 2. Calls -/

/-- Room in the frame defines no label. -/
theorem balanced_newLocal (n : String) : (newLocal n).Balanced :=
  balanced_silent fun _ => ⟨_, _, rfl, rfl⟩

theorem balanced_temp : temp.Balanced := balanced_silent fun _ => ⟨_, _, rfl, rfl⟩

theorem balanced_newParam (n : String) : (newParam n).Balanced :=
  balanced_silent fun _ => ⟨_, _, rfl, rfl⟩

theorem balanced_resultSlot (b : Bool) : (resultSlot b).Balanced := by
  cases b with
  | false => exact balanced_done _
  | true => exact balanced_silent fun _ => ⟨_, _, rfl, rfl⟩

/-- A call defines no label. -/
theorem balanced_call (l : Label) (b : Bool) : (call l b).Balanced := by
  refine (balanced_resultSlot b).bind fun _ => ?_
  refine (balanced_instr rfl).bind fun _ => ?_
  exact balanced_done _

theorem balanced_callVia (a : Location) (b : Bool) : (callVia a b).Balanced := by
  refine (balanced_resultSlot b).bind fun _ => ?_
  refine (balanced_instr rfl).bind fun _ => ?_
  exact balanced_done _

/-- Neither do the parameters that are pushed. -/
theorem balanced_pushAll (ps : List Location) : (pushAll ps).Balanced := by
  induction ps with
  | nil => exact balanced_done _
  | cons p ps ih => exact (balanced_instr rfl).bind fun _ => ih

/-- Nor does taking them off. -/
theorem balanced_pop (n : Int) : (pop n).Balanced := by
  unfold pop
  split
  · exact balanced_instr rfl
  · exact balanced_done _

/-- A call of the runtime defines no label. -/
theorem balanced_builtin (b : Builtin) (args : List Location) : (builtin b args).Balanced := by
  unfold builtin
  split
  · exact settles_refuse
  · refine (balanced_resultSlot _).bind fun _ => ?_
    refine (balanced_pushAll _).bind fun _ => ?_
    refine (balanced_instr rfl).bind fun _ => ?_
    refine (balanced_pop _).bind fun _ => ?_
    exact balanced_done _

/-- The labels of steps in a row are settled as soon as those of each of them are. -/
theorem settles_lawful : Account.Lawful @Settles where
  done := settles_done
  refuse _ := settles_refuse
  bind_of := .bind_of
  newLocal n := (balanced_newLocal n).keep
  temp := balanced_temp.keep
  newLabel _ := settles_newLabel
  label l _ := settles_instr (.label l)
  instr i hi := (balanced_instr (by cases i <;> first | rfl | cases hi)).keep
  builtin b args := (balanced_builtin b args).keep

/-- A function defines its label, and balances what its body does. -/
theorem settles_function {l : Label} {body : Emit Unit} (h : body.Balanced) :
    (function l body).Settles (l ::ₘ x) fun _ => x := by
  intro s r hr
  unfold function at hr
  cases hb : body s.newFrame with
  | error e =>
    rw [hb] at hr
    cases hr
  | ok b =>
    rw [hb] at hr
    cases hr
    obtain ⟨hle, e⟩ := h.keep x s.newFrame b hb
    refine ⟨hle, ?_⟩
    -- the function has its own label in front, and those of its body behind
    have hd : defined (.label l :: .enter b.supply.frameSize :: b.code ++ [.leave]) =
        l :: defined b.code := by
      show defined (([.label l, .enter b.supply.frameSize] ++ b.code) ++ [.leave]) = _
      rw [defined_append, defined_append]
      exact List.append_nil _
    rw [hd, ← Multiset.cons_coe, Multiset.cons_add, Multiset.cons_add]
    exact congrArg _ e

end Emit

end Code

open Code.Emit
open Lowering

/-- A method is called by an address, without a label. -/
theorem Lowering.balanced_callMethod (x : Location) (slot : Nat) (args : List Location)
    (b : Bool) : (callMethod x slot args b).Balanced := by
  refine .bind (settles_lawful.load _ _ 0) fun _ => ?_
  refine .bind (settles_lawful.load _ _ 0) fun _ => ?_
  refine (balanced_pushAll _).bind fun _ => ?_
  refine (balanced_instr rfl).bind fun _ => ?_
  refine (balanced_callVia _ b).bind fun _ => ?_
  refine (balanced_pop _).bind fun _ => ?_
  exact balanced_done _

/-- A function is called by its label, which is defined elsewhere. -/
theorem Lowering.balanced_callFunction (n : String) (args : List Location) (b : Bool) :
    (callFunction n args b).Balanced := by
  refine (balanced_pushAll _).bind fun _ => ?_
  refine (balanced_call _ b).bind fun _ => ?_
  refine (balanced_pop _).bind fun _ => ?_
  exact balanced_done _

/-- A call places no label besides those of its operands. -/
theorem Expr.settles_calls (e : Expr) (r : Surroundings) : e.CallKeeps @Settles r := by
  intro r' _
  have hP := settles_lawful
  cases e with
  | call n i args =>
    intro hargs
    unfold Expr.eval
    refine hP.noDouble n ?_
    refine hP.row (hP.required _ (r'.notes.fn? i)) fun g => ?_
    cases r'.layout.methodSlot? g.id with
    | some slot =>
      refine hP.row (hP.required _ _) fun _ => ?_
      refine hP.row hargs fun _ => ?_
      exact (balanced_callMethod _ _ _ _).keep
    | none =>
      refine hP.row hargs fun _ => ?_
      exact (balanced_callFunction _ _ _).keep
  | send n x i args =>
    intro hx hargs
    unfold Expr.eval
    refine hP.noDouble n ?_
    split
    · refine hP.row (hP.needed hx) fun _ => ?_
      exact hP.valued (hP.load _ _) _
    · refine hP.row (hP.required _ (r'.notes.fn? i)) fun _ => ?_
      refine hP.row (hP.noInterfaceCall n _ i) fun _ => ?_
      refine hP.row (hP.needed hx) fun _ => ?_
      refine hP.row hargs fun _ => ?_
      refine hP.row (hP.required _ _) fun _ => ?_
      exact (balanced_callMethod _ _ _ _).keep
  | _ => trivial

/-- **The code of a block places the labels that are handed out for it.** -/
theorem Block.lower_balanced (b : Block) (r : Surroundings) : (b.lower r).Balanced :=
  b.lower_keeps settles_lawful r (fun e _ => e.settles_calls r) 0

/-! ## 3. Programs -/

/-- The labels of the functions of a class, and the one of its table. -/
def ClassDecl.labels (c : ClassDecl) : List Label :=
  c.methods.map (fun g => qualifiedLabel c.name g.name) ++ [c.name]

/-- The labels of a declaration at the top level. -/
def Decl.labels : Decl → List Label
  | .fn g => [plainLabel g.name]
  | .cls c => c.labels
  | _ => []

/-- The labels that a program has from its own names: those of its functions, its methods and the
tables of its classes. -/
def Program.labels (p : Program) : List Label := p.decls.flatMap Decl.labels

/-- **The body of a function places all labels that are handed out in it.** -/
theorem FnDecl.balanced_lowerBody (g : FnDecl) (r : Surroundings) (m : Bool) :
    (g.lowerBody r m).Balanced := by
  have hthis : (withThis r m).Balanced := by
    cases m with
    | false => exact balanced_done _
    | true => exact (balanced_newParam _).bind fun _ => balanced_done _
  have hformals : ∀ (vs : List VarDecl) (r : Surroundings), (withFormals r vs).Balanced := by
    intro vs
    induction vs with
    | nil => exact fun r => balanced_done r
    | cons v vs ih => exact fun r => (balanced_newParam _).bind fun _ => ih _
  refine hthis.bind fun r => ?_
  refine (hformals g.formals r).bind fun r => ?_
  refine ?_
  cases g.body with
  | none => exact balanced_done _
  | some b => exact b.lower_balanced r

section

variable {x : Multiset Label}

/-- The methods of a class define their labels. -/
theorem FnDecl.settles_lowerMethods (cls : String) (r : Surroundings) (gs : List FnDecl) :
    (FnDecl.lowerMethods cls r gs).Settles
      (((gs.map fun g => qualifiedLabel cls g.name : List Label) : Multiset Label) + x)
      fun _ => x := by
  induction gs with
  | nil =>
    rw [List.map_nil, Multiset.coe_nil, zero_add]
    exact settles_done (fun _ => x) ()
  | cons g gs ih =>
    rw [List.map_cons, ← Multiset.cons_coe, Multiset.cons_add]
    exact (settles_function (g.balanced_lowerBody r true)).bind fun _ => ih

/-- **A class defines the labels of its methods and that of its table.** -/
theorem ClassDecl.settles_lower (c : ClassDecl) (r : Surroundings) :
    (c.lower r).Settles ((c.labels : Multiset Label) + x) fun _ => x := by
  unfold ClassDecl.labels
  rw [← Multiset.coe_add, add_assoc]
  refine (FnDecl.settles_lowerMethods c.name r c.methods).bind fun _ => ?_
  refine Settles.bind (settles_lawful.required _ _ _) fun l => ?_
  exact settles_instr (.table c.name l.labels)

/-- The code of declarations defines their labels. -/
theorem Decl.settles_lowerAll (r : Surroundings) (ds : List Decl) :
    (Decl.lowerAll r ds).Settles (ds.flatMap Decl.labels : List Label) fun _ => 0 := by
  induction ds with
  | nil => exact settles_done (fun _ => 0) ()
  | cons d ds ih =>
    rw [List.flatMap_cons, ← Multiset.coe_add]
    cases d with
    | var _ => exact ih
    | iface _ => exact ih
    | fn g => exact (settles_function (g.balanced_lowerBody r false)).bind fun _ => ih
    | cls c => exact (c.settles_lower r).bind fun _ => ih

end

namespace Program

variable {p : Program} {a : Notes} {l : Layout} {code : List Instr}

/-- **A program defines its own labels, and besides each label that was handed out, once.** -/
theorem lower_defined (h : p.lower a l = .ok code) :
    ∃ n, (Code.defined code).Perm (p.labels ++ (List.range n).map Supply.labelName) := by
  obtain ⟨r, x, -, hx, rfl⟩ := lower_eq_ok h
  obtain ⟨-, e⟩ := Decl.settles_lowerAll r p.decls .empty x hx
  refine ⟨x.supply.labels, Multiset.coe_eq_coe.mp ?_⟩
  rw [← Multiset.coe_add, ← Code.handedOut_zero]
  exact (add_zero _).symm.trans e

end Program

/-! ## 4. Names that clash -/

/-- The labels of the code are told apart: no label is defined twice, and none is one of the
runtime. -/
def Code.Unambiguous (code : List Instr) : Prop :=
  (Code.defined code).Nodup ∧ ∀ b : Builtin, b.label ∉ Code.defined code

/-- The names have no dots in them, and those of classes do not begin with an underscore. -/
structure Program.Spelled (p : Program) : Prop where
  fns : ∀ g, Decl.fn g ∈ p.decls → '.' ∉ g.name.toList
  classes : ∀ c, Decl.cls c ∈ p.decls → '.' ∉ c.name.toList ∧ c.name.toList.head? ≠ some '_'

/-- The part of a label that is the name of a declaration at the top level. -/
def Code.ownerName (l : Label) : List Char :=
  match l.toList with
  | '_' :: cs => cs.takeWhile (· != '.')
  | cs => cs

namespace Code

/-- Behind the underscore stands the name, up to the first dot. -/
theorem ownerName_underscore {name : String} {rest : List Char} {l : Label}
    (h : '.' ∉ name.toList) (hr : rest.head?.all (· == '.') = true)
    (hl : l.toList = '_' :: (name.toList ++ rest)) : ownerName l = name.toList := by
  unfold ownerName
  rw [hl]
  show (name.toList ++ rest).takeWhile _ = _
  have hall : ∀ c ∈ name.toList, (c != '.') = true := fun c hc =>
    bne_iff_ne.mpr fun e => h (e ▸ hc)
  rw [List.takeWhile_append_of_pos hall]
  cases rest with
  | nil => exact List.append_nil _
  | cons c rest =>
    have hc : (c != '.') = false := by simpa using hr
    rw [List.takeWhile_cons, hc]
    exact List.append_nil _

/-- Without one the label is the name. -/
theorem ownerName_other {l : Label} (h : l.toList.head? ≠ some '_') :
    ownerName l = l.toList := by
  unfold ownerName
  split
  · rename_i cs e
    rw [e] at h
    exact absurd rfl h
  · rfl

end Code

/-- The label of a function is its name behind an underscore. -/
theorem Lowering.plainLabel_toList {name : String} (h : name ≠ "main") :
    (plainLabel name).toList = '_' :: name.toList := by
  unfold plainLabel
  rw [if_neg h, String.toList_append]
  rfl

/-- That of a method has the class in front. -/
theorem qualifiedLabel_toList (cls method : String) :
    (qualifiedLabel cls method).toList = '_' :: (cls.toList ++ '.' :: method.toList) := by
  show ("_" ++ cls ++ "." ++ method).toList = _
  simp [String.toList_append]

/-- The labels of a class are those of its methods and its own. -/
theorem ClassDecl.mem_labels {c : ClassDecl} {l : Label} :
    l ∈ c.labels ↔ (∃ g ∈ c.methods, qualifiedLabel c.name g.name = l) ∨ l = c.name := by
  unfold ClassDecl.labels
  rw [List.mem_append, List.mem_map, List.mem_singleton]

namespace Program.Spelled

variable {p : Program} (h : p.Spelled)

include h

/-- A label tells the declaration that it belongs to. -/
theorem ownerName_eq {d : Decl} (hd : d ∈ p.decls) {l : Label} (hl : l ∈ d.labels) :
    Code.ownerName l = d.name.toList := by
  cases d with
  | var _ => cases hl
  | iface _ => cases hl
  | fn g =>
    obtain rfl := List.mem_singleton.mp hl
    -- only `main` has its name as it stands
    by_cases hm : g.name = "main"
    · show Code.ownerName (plainLabel g.name) = g.name.toList
      rw [hm]
      rfl
    · have hl : (plainLabel g.name).toList = '_' :: (g.name.toList ++ []) := by
        rw [plainLabel_toList hm, List.append_nil]
      exact Code.ownerName_underscore (h.fns g hd) rfl hl
  | cls c =>
    obtain ⟨hdot, hstart⟩ := h.classes c hd
    rcases ClassDecl.mem_labels.mp hl with ⟨g, -, rfl⟩ | rfl
    · exact Code.ownerName_underscore hdot rfl (qualifiedLabel_toList c.name g.name)
    · exact Code.ownerName_other hstart

/-- **The labels of one class are distinct.** -/
theorem nodup_class_labels {c : ClassDecl} (hc : Decl.cls c ∈ p.decls)
    (hm : (c.methods.map FnDecl.name).Nodup) : c.labels.Nodup := by
  unfold ClassDecl.labels
  refine List.nodup_append.mpr ⟨?_, List.nodup_singleton _, fun l hl k hk e => ?_⟩
  · have e : c.methods.map (fun g => qualifiedLabel c.name g.name) =
        (c.methods.map FnDecl.name).map (qualifiedLabel c.name) := by
      rw [List.map_map]
      rfl
    rw [e]
    refine hm.map fun m m' e => String.toList_inj.mp ?_
    have e := congrArg String.toList e
    rw [qualifiedLabel_toList, qualifiedLabel_toList] at e
    exact (List.cons.inj (List.append_cancel_left (List.cons.inj e).2)).2
  · obtain ⟨g, -, rfl⟩ := List.mem_map.mp hl
    obtain rfl := List.mem_singleton.mp hk
    refine (h.classes c hc).2 ?_
    rw [← e, qualifiedLabel_toList]
    rfl

/-- **The labels that a program has from its own names are distinct.** -/
theorem nodup_labels (hn : p.Named) : p.labels.Nodup := by
  unfold labels
  refine List.nodup_flatMap.mpr ⟨fun d hd => ?_, ?_⟩
  · cases d with
    | var _ => exact List.nodup_nil
    | iface _ => exact List.nodup_nil
    | fn g => exact List.nodup_singleton _
    | cls c => exact h.nodup_class_labels hd (hn.nodup_methods hd)
  · refine (List.pairwise_map.mp hn.nodup_names).imp_of_mem fun hd hd' hne l hl hl' => ?_
    refine hne (String.toList_inj.mp ?_)
    rw [← h.ownerName_eq hd hl, h.ownerName_eq hd' hl']

/-- A label that might be that of a function is one of the program only if it is. -/
theorem mem_labels_iff {l : Label} (hu : l.toList.head? = some '_') (hd : '.' ∉ l.toList)
    (hm : l ≠ "_main") : l ∈ p.labels ↔ ∃ g, Decl.fn g ∈ p.decls ∧ "_" ++ g.name = l := by
  -- the label of `main` is excluded, so any other is a name behind an underscore
  have plain : ∀ g : FnDecl, plainLabel g.name = l ↔ "_" ++ g.name = l := by
    intro g
    unfold plainLabel
    split
    · rename_i e
      rw [e]
      refine ⟨fun e => ?_, fun e => absurd e.symm hm⟩
      rw [← e] at hu
      exact absurd hu (by decide)
    · rfl
  unfold labels
  rw [List.mem_flatMap]
  constructor
  · rintro ⟨d, hdecl, hl⟩
    cases d with
    | var _ => cases hl
    | iface _ => cases hl
    | fn g => exact ⟨g, hdecl, (plain g).mp (List.mem_singleton.mp hl).symm⟩
    | cls c =>
      rcases ClassDecl.mem_labels.mp hl with ⟨g, -, rfl⟩ | rfl
      -- the label of a method has a dot in it
      · rw [qualifiedLabel_toList] at hd
        exact absurd (List.mem_cons_of_mem _ (List.mem_append_right _ List.mem_cons_self)) hd
      · exact absurd hu (h.classes c hdecl).2
  · rintro ⟨g, hdecl, e⟩
    exact ⟨.fn g, hdecl, List.mem_singleton.mpr ((plain g).mpr e).symm⟩

end Program.Spelled

namespace Code

/-- A label that is handed out is a number behind `_L`. -/
theorem labelName_toList (n : Nat) :
    (Supply.labelName n).toList = '_' :: 'L' :: Nat.toDigits 10 n := by
  show ("_L" ++ n.repr).toList = _
  rw [String.toList_append, Nat.toList_repr]
  rfl

/-- There is no dot in it. -/
theorem no_dot_labelName (n : Nat) : '.' ∉ (Supply.labelName n).toList := by
  rw [labelName_toList]
  intro h
  rcases List.mem_cons.mp h with e | h
  · exact absurd e (by decide)
  · rcases List.mem_cons.mp h with e | h
    · exact absurd e (by decide)
    · have hd : Char.isDigit '.' = true := Nat.isDigit_of_mem_toDigits (by decide) (by decide) h
      exact absurd hd (by decide)

/-- No label of the runtime is handed out. -/
theorem labelName_ne_builtin (n : Nat) (b : Builtin) : Supply.labelName n ≠ b.label := by
  have hb : b.label.toList.tail.head? ≠ some 'L' := by cases b <;> decide
  intro e
  refine hb ?_
  rw [← e, labelName_toList]
  rfl

/-- Labels of which some are handed out are told apart unless the other ones clash. -/
theorem unambiguous_iff_of_perm {code : List Instr} {ls : List Label} {n : Nat}
    (hperm : (defined code).Perm (ls ++ (List.range n).map Supply.labelName)) :
    Unambiguous code ↔ ls.Nodup ∧ (∀ b : Builtin, b.label ∉ ls) ∧
      ∀ i < n, Supply.labelName i ∉ ls := by
  unfold Unambiguous
  rw [hperm.nodup_iff, List.nodup_append]
  have hrange : ((List.range n).map Supply.labelName).Nodup :=
    List.nodup_range.map fun _ _ => labelName_inj
  constructor
  -- labels that are handed out are distinct, and none is one of the runtime
  · rintro ⟨⟨hn, -, hd⟩, hb⟩
    refine ⟨hn, fun b hm => hb b (hperm.mem_iff.mpr (List.mem_append_left _ hm)),
      fun i hi hm => ?_⟩
    exact hd _ hm _ (List.mem_map_of_mem (List.mem_range.mpr hi)) rfl
  · rintro ⟨hn, hb, hl⟩
    refine ⟨⟨hn, hrange, fun a ha b hb' e => ?_⟩, fun b hm => ?_⟩
    · obtain ⟨i, hi, rfl⟩ := List.mem_map.mp hb'
      exact hl i (List.mem_range.mp hi) (e ▸ ha)
    · rcases List.mem_append.mp (hperm.mem_iff.mp hm) with hm | hm
      · exact hb b hm
      · obtain ⟨i, -, e⟩ := List.mem_map.mp hm
        exact labelName_ne_builtin i b e

end Code

namespace Program.Spelled

variable {p : Program} (h : p.Spelled)

include h

/-- **A function of the runtime has its label taken only by a function of its name.** -/
theorem builtin_mem_labels (b : Builtin) :
    b.label ∈ p.labels ↔ ∃ g, Decl.fn g ∈ p.decls ∧ "_" ++ g.name = b.label :=
  h.mem_labels_iff (by cases b <;> decide) (by cases b <;> decide) (by cases b <;> decide)

/-- **A label that is handed out is taken only by a function of that name.** -/
theorem labelName_mem_labels (i : Nat) : Supply.labelName i ∈ p.labels ↔
    ∃ g, Decl.fn g ∈ p.decls ∧ "_" ++ g.name = Supply.labelName i := by
  have hl := Code.labelName_toList i
  refine h.mem_labels_iff (by rw [hl]; rfl) (Code.no_dot_labelName i) fun e => ?_
  rw [e] at hl
  exact absurd (List.cons.inj (List.cons.inj hl).2).1 (by decide)

end Program.Spelled

namespace Program

variable {p : Program} {l : Layout} {code : List Instr}

/-- **The labels of a clean program are told apart just if none of its names clashes.** Its code
defines the labels of the program's own names, and each label that was handed out once. So the
labels are told apart unless the own ones are not, or one of them is handed out or is one of the
runtime; if the names have no dots and classes do not begin with an underscore, that can only be the
label of a function at the top level. -/
theorem Clean.unambiguous_iff (h : p.Clean) (hc : p.lower p.analyze.notes l = .ok code) :
    ∃ n, (Code.defined code).Perm (p.labels ++ (List.range n).map Supply.labelName) ∧
      (Code.Unambiguous code ↔ p.labels.Nodup ∧ (∀ b : Builtin, b.label ∉ p.labels) ∧
        ∀ i < n, Supply.labelName i ∉ p.labels) ∧
      (p.Spelled → (Code.Unambiguous code ↔ ∀ g, Decl.fn g ∈ p.decls →
        (∀ b : Builtin, "_" ++ g.name ≠ b.label) ∧
          ∀ i < n, "_" ++ g.name ≠ Supply.labelName i)) := by
  obtain ⟨n, hperm⟩ := lower_defined hc
  have hown := Code.unambiguous_iff_of_perm hperm
  refine ⟨n, hperm, hown, fun hs => hown.trans ?_⟩
  constructor
  · rintro ⟨-, hb, hl⟩ g hg
    exact ⟨fun b e => hb b ((hs.builtin_mem_labels b).mpr ⟨g, hg, e⟩),
      fun i hi e => hl i hi ((hs.labelName_mem_labels i).mpr ⟨g, hg, e⟩)⟩
  · intro hg
    -- well spelled names never clash among themselves
    refine ⟨hs.nodup_labels h.named, fun b hm => ?_, fun i hi hm => ?_⟩
    · obtain ⟨g, hd, e⟩ := (hs.builtin_mem_labels b).mp hm
      exact (hg g hd).1 b e
    · obtain ⟨g, hd, e⟩ := (hs.labelName_mem_labels i).mp hm
      exact (hg g hd).2 i hi e

end Program

/-- The labels of the loop are told apart. -/
theorem unambiguous_iff_counting : ∃ code,
    counting.lower counting.analyze.notes .empty = .ok code ∧ Code.Unambiguous code := by
  have hok : (counting.lower counting.analyze.notes .empty).isOk = true := by decide +kernel
  cases hc : counting.lower counting.analyze.notes .empty with
  | error e =>
    rw [hc] at hok
    cases hok
  | ok code =>
    obtain ⟨n, -, -, hiff⟩ := counting_clean.unambiguous_iff hc
    have hmain : ∀ g, Decl.fn g ∈ counting.decls → g.name = "main" := by
      intro g hg
      obtain rfl := Decl.fn.inj (List.mem_singleton.mp hg)
      rfl
    have hspelled : counting.Spelled :=
      ⟨fun g hg => by rw [hmain g hg]; decide, fun c hc => by cases List.mem_singleton.mp hc⟩
    refine ⟨code, rfl, (hiff hspelled).mpr fun g hg => ⟨fun b => ?_, fun i _ e => ?_⟩⟩
    · rw [hmain g hg]
      cases b <;> decide
    · rw [hmain g hg] at e
      have e := congrArg String.toList e
      rw [Code.labelName_toList] at e
      exact absurd (List.cons.inj (List.cons.inj e).2).1 (by decide)

/-- A function has the name of a label that is handed out for the test in `main`. -/
def clashing : Program := .number [
  .fn ⟨.nowhere, .called "L0", .prim 0 .void, [], some .empty⟩,
  .fn ⟨.nowhere, .called "main", .prim 0 .void, [], some ⟨.nowhere, [], [
    .ifThen .nowhere (.bool .nowhere true) (.expr (.call .nowhere (.called "L0") []))]⟩⟩]

/-- The code of a clean program may define a label twice. -/
theorem not_unambiguous_clashing : clashing.Clean ∧
    ∃ code, clashing.lower clashing.analyze.notes .empty = .ok code ∧
      Code.defined code = ["_L0", "main", "_L0"] ∧ ¬ Code.Unambiguous code := by
  have hd : (clashing.lower clashing.analyze.notes .empty).toOption.map Code.defined =
      some ["_L0", "main", "_L0"] := by decide +kernel
  refine ⟨⟨Program.number_numbered _, List.isEmpty_iff.mp (by decide +kernel)⟩, ?_⟩
  cases hc : clashing.lower clashing.analyze.notes .empty with
  | error e =>
    rw [hc] at hd
    cases hd
  | ok code =>
    rw [hc] at hd
    have hd : Code.defined code = ["_L0", "main", "_L0"] := Option.some.inj hd
    refine ⟨code, rfl, hd, fun h => ?_⟩
    have hn := h.1
    rw [hd] at hn
    exact absurd hn (by decide)

end DecafLang
