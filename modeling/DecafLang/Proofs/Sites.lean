import DecafLang.Proofs.Accounts

/-!
# Call sites

What stands around the calls in code.

* In front of a call its parameters are pushed, the first of them last, and nothing else comes
  between; behind it they are taken off. Such a piece of code is a site.
* `Code.Orderly K pre code` says that **all calls in the code stand in sites,** and that `K` holds
  of the code in front of each site, of what is pushed and of the call. Code is orderly behind other
  code, since what stands in front of a site goes back beyond the piece in which it stands.
* The steps for a block write orderly code as soon as each call in it fulfils `K`
  (`Block.lower_obeys`).
-/

namespace DecafLang

open Code (Builtin Emit Emitted Instr Label Location Op Store Supply World effectAll)

namespace Code

/-! ## 1. Sites -/

/-- The instruction is a call. -/
def Instr.Calls : Instr → Prop
  | .call _ _ => True
  | .callVia _ _ => True
  | _ => False

/-- The instruction is no call and leaves the parameters on the stack alone. -/
def Instr.quiet : Instr → Bool
  | .call _ _ => false
  | .callVia _ _ => false
  | .push _ => false
  | .pop _ => false
  | _ => true

/-- Pushes parameters such that the first of them ends on top. -/
def pushes (ps : List Location) : List Instr := ps.reverse.map .push

/-- Takes so many parameters off the stack. -/
def pops (n : Nat) : List Instr := if n = 0 then [] else [.pop (wordSize * n : Nat)]

/-- What may be known of a call: the code in front of its site, what is pushed, and the call. -/
abbrev Contract := List Instr → List Location → Instr → Prop

/-- The code does not end with a push. -/
def EndsQuiet (code : List Instr) : Prop := ∀ p r, code ≠ r ++ [.push p]

/-- The code does not start by taking parameters off the stack. -/
def StartsQuiet (code : List Instr) : Prop := ∀ n r, code ≠ .pop n :: r

/-- Behind other code, every call stands in a site of its own and fulfils the contract. -/
structure Orderly (K : Contract) (pre code : List Instr) : Prop where
  starts : StartsQuiet code
  ends : EndsQuiet code
  sites : ∀ before c after, code = before ++ c :: after → c.Calls → ∃ first ps rest,
    before = first ++ pushes ps ∧ EndsQuiet first ∧ after = pops ps.length ++ rest ∧
      StartsQuiet rest ∧ K (pre ++ first) ps c

/-- How code ends is seen from its last piece. -/
theorem EndsQuiet.behind {b : List Instr} (hb : EndsQuiet b) (hne : b ≠ []) (a : List Instr) :
    EndsQuiet (a ++ b) := by
  intro p r e
  rcases List.eq_nil_or_concat b with rfl | ⟨b', i, rfl⟩
  · exact hne rfl
  · rw [List.concat_eq_append] at hb
    rw [List.concat_eq_append, ← List.append_assoc] at e
    obtain ⟨-, e⟩ := List.append_inj' e rfl
    obtain rfl := List.singleton_inj.mp e
    exact hb p b' rfl

/-- Code behind code ends without a parameter pushed if both parts do. -/
theorem EndsQuiet.append {a b : List Instr} (ha : EndsQuiet a) (hb : EndsQuiet b) :
    EndsQuiet (a ++ b) := by
  by_cases hne : b = []
  · rw [hne, List.append_nil]
    exact ha
  · exact hb.behind hne a

/-- It starts without taking any off if both parts do. -/
theorem StartsQuiet.append {a b : List Instr} (ha : StartsQuiet a) (hb : StartsQuiet b) :
    StartsQuiet (a ++ b) := by
  intro n r e
  cases a with
  | nil => exact hb n r e
  | cons i a =>
    obtain rfl := (List.cons.inj e).1
    exact ha n a rfl

/-- The only call in a piece of code with one call. -/
theorem only_call {a b x y : List Instr} {c d : Instr} (ha : ∀ i ∈ a, ¬ i.Calls)
    (hb : ∀ i ∈ b, ¬ i.Calls) (hd : d.Calls) (e : a ++ c :: b = x ++ d :: y) :
    x = a ∧ d = c ∧ y = b := by
  -- the call stands in front of ours, at it, or behind; only one place is left
  rcases List.append_eq_append_iff.mp e with ⟨z, rfl, hz⟩ | ⟨z, rfl, hz⟩
  · cases z with
    | nil =>
      obtain ⟨rfl, rfl⟩ := List.cons.inj hz
      exact ⟨List.append_nil a, rfl, rfl⟩
    | cons i z =>
      obtain ⟨-, rfl⟩ := List.cons.inj hz
      exact absurd hd (hb d (by simp))
  · cases z with
    | nil =>
      obtain ⟨rfl, rfl⟩ := List.cons.inj hz
      exact ⟨(List.append_nil x).symm, rfl, rfl⟩
    | cons i z =>
      obtain ⟨rfl, -⟩ := List.cons.inj hz
      exact absurd hd (ha d (by simp))

/-- Pushing is no call. -/
theorem pushes_not_calls (ps : List Location) : ∀ i ∈ pushes ps, ¬ i.Calls := by
  intro i hi
  obtain ⟨p, -, rfl⟩ := List.mem_map.mp hi
  exact id

/-- Nor is taking off. -/
theorem pops_not_calls (n : Nat) : ∀ i ∈ pops n, ¬ i.Calls := by
  intro i hi
  unfold pops at hi
  split at hi
  · cases hi
  · obtain rfl := List.mem_singleton.mp hi
    exact id

namespace Orderly

variable {K : Contract} {pre a b : List Instr} {ps : List Location} {c : Instr}

/-- Code without calls and parameters is orderly. -/
theorem quiet (h : ∀ i ∈ a, i.quiet = true) : Orderly K pre a := by
  refine ⟨fun n r e => ?_, fun p r e => ?_, fun before c after e hc => ?_⟩
  · exact absurd (h (.pop n) (by simp [e])) nofun
  · exact absurd (h (.push p) (by simp [e])) nofun
  · have hq : c.quiet = true := h c (by simp [e])
    cases c <;> first | exact absurd hc id | exact absurd hq nofun

/-- **Orderly code behind orderly code is orderly.** -/
theorem append (ha : Orderly K pre a) (hb : Orderly K (pre ++ a) b) : Orderly K pre (a ++ b) := by
  refine ⟨ha.starts.append hb.starts, ha.ends.append hb.ends, fun before c after e hc => ?_⟩
  -- a call in the second part has all of the first part in front
  have inside : ∀ z, before = a ++ z → b = z ++ c :: after → ∃ first ps rest,
      before = first ++ pushes ps ∧ EndsQuiet first ∧ after = pops ps.length ++ rest ∧
        StartsQuiet rest ∧ K (pre ++ first) ps c := by
    rintro z rfl hz
    obtain ⟨first, ps, rest, rfl, hf, hr, hs, hk⟩ := hb.sites z c after hz hc
    exact ⟨a ++ first, ps, rest, (List.append_assoc ..).symm, ha.ends.append hf, hr, hs,
      List.append_assoc .. ▸ hk⟩
  rcases List.append_eq_append_iff.mp e with ⟨z, hz, hz'⟩ | ⟨z, hz, hz'⟩
  · exact inside z hz hz'
  · cases z with
    | nil => exact inside [] (by simpa using hz.symm) hz'.symm
    | cons i z =>
      obtain ⟨rfl, rfl⟩ := List.cons.inj hz'
      obtain ⟨first, ps, rest, hf, hfq, rfl, hs, hk⟩ := ha.sites before c z hz hc
      exact ⟨first, ps, rest ++ b, hf, hfq, List.append_assoc .., hs.append hb.starts, hk⟩

/-- A site is in order if its call fulfils the contract. -/
theorem site (hc : c.Calls) (hk : K pre ps c) :
    Orderly K pre (pushes ps ++ c :: pops ps.length) := by
  -- the site begins with pushing and ends with taking off
  have starts : StartsQuiet (pushes ps) := fun n r e => by
    have hm : Instr.pop n ∈ pushes ps := by rw [e]; exact List.mem_cons_self
    obtain ⟨p, -, hp⟩ := List.mem_map.mp hm
    cases hp
  have calls : StartsQuiet (c :: pops ps.length) := fun n r e => by
    obtain rfl := (List.cons.inj e).1
    exact hc
  have ends : EndsQuiet (c :: pops ps.length) := fun p r e => by
    have hm : Instr.push p ∈ c :: pops ps.length := by rw [e]; simp
    rcases List.mem_cons.mp hm with rfl | hm
    · exact hc
    · unfold pops at hm
      split at hm
      · cases hm
      · cases List.mem_singleton.mp hm
  refine ⟨starts.append calls, ends.behind nofun _, fun before d after e hd => ?_⟩
  · obtain ⟨rfl, rfl, rfl⟩ := only_call (pushes_not_calls ps) (pops_not_calls _) hd e
    exact ⟨[], ps, [], rfl, by simp [EndsQuiet], (List.append_nil _).symm, nofun,
      (List.append_nil pre).symm ▸ hk⟩

end Orderly

/-! ## 2. Steps that write orderly code -/

namespace Emit

variable {α β : Type} {K : Contract} {m : Emit α} {k : α → Emit β} {pre : List Instr} {s : Supply}

/-- Behind this code and with this supply, the steps write orderly code. -/
def ObeysAt (K : Contract) (pre : List Instr) (s : Supply) (m : Emit α) : Prop :=
  ∀ r, m s = .ok r → Orderly K pre r.code

/-- The steps write orderly code. -/
def Obeys (K : Contract) (m : Emit α) : Prop := ∀ pre s, ObeysAt K pre s m

/-- The steps write nothing that has to do with calls. -/
def Quiet (m : Emit α) : Prop := ∀ s r, m s = .ok r → ∀ i ∈ r.code, i.quiet = true

/-- Steps without calls and parameters obey any contract. -/
theorem Quiet.obeys (h : m.Quiet) : m.Obeys K := fun _ s r hr => .quiet (h s r hr)

/-- What comes next stands behind the code of what comes first. -/
theorem ObeysAt.bind (h : ObeysAt K pre s m)
    (hk : ∀ a, m s = .ok a → ObeysAt K (pre ++ a.code) a.supply (k a.value)) :
    ObeysAt K pre s (m >>= k) := by
  intro r hr
  obtain ⟨a, ha, b, hb, rfl⟩ := bind_run_ok.mp hr
  exact (h a ha).append (hk a ha b hb)

/-- Steps that write nothing only hand on their value. -/
theorem bind_silent {t : Supply} {x : α} (h : m s = .ok ⟨x, [], t⟩) : (m >>= k) s = k x t := by
  show andThen m k s = _
  unfold andThen
  rw [h]
  dsimp only
  cases k x t <;> rfl

/-- What comes next stands where it would without steps that write nothing. -/
theorem ObeysAt.silent {t : Supply} {x : α} (h : m s = .ok ⟨x, [], t⟩)
    (hk : ObeysAt K pre t (k x)) : ObeysAt K pre s (m >>= k) := by
  unfold ObeysAt
  rw [bind_silent h]
  exact hk

/-- What is required is there, and costs nothing. -/
theorem ObeysAt.required {d : Defect} {o : Option α}
    (hk : ∀ a, o = some a → ObeysAt K pre s (k a)) : ObeysAt K pre s (required d o >>= k) := by
  cases o with
  | none =>
    intro r hr
    cases hr
  | some a => exact .silent rfl (hk a rfl)

/-- **Steps in a row obey a contract if each of them does.** -/
theorem Obeys.bind (h : m.Obeys K) (hk : ∀ a, (k a).Obeys K) : (m >>= k).Obeys K :=
  fun pre s => (h pre s).bind fun a _ => hk a.value _ _

/-- What writes nothing is quiet. -/
theorem quiet_silent (h : ∀ s r, m s = .ok r → r.code = []) : m.Quiet := by
  intro s r hr i hi
  rw [h s r hr] at hi
  cases hi

theorem quiet_done (a : α) : (pure a : Emit α).Quiet := quiet_silent fun _ _ h => by
  cases h
  rfl

theorem quiet_refuse {r : Refusal} : (refuse r : Emit α).Quiet := fun _ _ h => by cases h

/-- What is required is what is there, and costs nothing. -/
theorem required_run {d : Defect} {o : Option α} {r : Emitted α} (h : required d o s = .ok r) :
    o = some r.value ∧ r.code = [] ∧ r.supply = s := by
  cases o with
  | none => cases h
  | some a =>
    cases h
    exact ⟨rfl, rfl, rfl⟩

/-- What is required writes nothing. -/
theorem quiet_required {d : Defect} {o : Option α} : (required d o).Quiet := by
  cases o with
  | none => exact quiet_refuse
  | some a => exact quiet_done a

/-- A value that is needed is the one that the steps leave. -/
theorem needed_from {d : Defect} {m : Emit (Option α)} {y : Emitted α}
    (h : needed d m s = .ok y) :
    ∃ a, m s = .ok a ∧ a.value = some y.value ∧ y.code = a.code ∧ y.supply = a.supply := by
  obtain ⟨a, ha, b, hb, rfl⟩ := bind_run_ok.mp h
  obtain ⟨hv, hc, hs⟩ := required_run hb
  exact ⟨a, ha, hv, by simp [hc], hs⟩

/-- A value that is needed is checked without any code. -/
theorem Obeys.needed {d : Defect} {m : Emit (Option α)} (h : m.Obeys K) : (needed d m).Obeys K := by
  refine h.bind fun _ => ?_
  exact quiet_required.obeys

/-- An instruction that has nothing to do with calls is quiet. -/
theorem quiet_instr {i : Instr} (h : i.quiet = true) : (instr i).Quiet := by
  intro _ _ hr j hj
  cases hr
  obtain rfl := List.mem_singleton.mp hj
  exact h

theorem quiet_temp : temp.Quiet := quiet_silent fun _ _ h => by
  cases h
  rfl

theorem quiet_newLabel : newLabel.Quiet := quiet_silent fun _ _ h => by
  cases h
  rfl

/-! ## 3. Steps that call -/

theorem done_code {a : α} {r : Emitted α} (h : (pure a : Emit α) s = .ok r) : r.code = [] := by
  cases h
  rfl

theorem instr_code {i : Instr} {r : Emitted Unit} (h : instr i s = .ok r) : r.code = [i] := by
  cases h
  rfl

theorem toTemp_code {i : Location → Instr} {r : Emitted Location} (h : toTemp i s = .ok r) :
    r.code = [i r.value] := by
  cases h
  rfl

theorem resultSlot_code {b : Bool} {r : Emitted (Option Location)} (h : resultSlot b s = .ok r) :
    r.code = [] := by
  cases b <;> cases h <;> rfl

/-- The parameters are pushed in their order. -/
theorem pushAll_code {ps : List Location} {r : Emitted Unit} (h : pushAll ps s = .ok r) :
    r.code = ps.map .push := by
  induction ps generalizing s r with
  | nil =>
    cases h
    rfl
  | cons p ps ih =>
    obtain ⟨a, ha, b, hb, rfl⟩ := bind_run_ok.mp h
    cases ha
    exact congrArg _ (ih hb)

/-- As many words are taken off as were pushed. -/
theorem pop_code {n : Nat} {r : Emitted Unit} (h : pop (wordSize * n : Nat) s = .ok r) :
    r.code = pops n := by
  unfold pop at h
  unfold pops
  split at h
  next hn =>
    cases h
    rw [if_neg]
    rintro rfl
    exact absurd hn (by decide)
  next hn =>
    cases h
    rw [if_pos]
    unfold wordSize at hn
    omega

/-- A call is one instruction. -/
theorem call_code {l : Label} {b : Bool} {r : Emitted (Option Location)}
    (h : call l b s = .ok r) : r.code = [.call l r.value] := by
  obtain ⟨d, hd, x, hx, rfl⟩ := bind_run_ok.mp h
  obtain ⟨u, hu, y, hy, rfl⟩ := bind_run_ok.mp hx
  cases hu
  cases hy
  simp [resultSlot_code hd]

/-- So is one by an address. -/
theorem callVia_code {a : Location} {b : Bool} {r : Emitted (Option Location)}
    (h : callVia a b s = .ok r) : r.code = [.callVia a r.value] := by
  obtain ⟨d, hd, x, hx, rfl⟩ := bind_run_ok.mp h
  obtain ⟨u, hu, y, hy, rfl⟩ := bind_run_ok.mp hx
  cases hu
  cases hy
  simp [resultSlot_code hd]

/-- What a call of a function of the runtime writes. -/
theorem builtin_code {b : Builtin} {args : List Location} {r : Emitted (Option Location)}
    (h : builtin b args s = .ok r) : args.length = b.argCount ∧
      ∃ dst, r.code = pushes args ++ .call b.label dst :: pops args.length := by
  unfold builtin at h
  split at h
  · cases h
  · rename_i hn
    obtain ⟨d, hd, x, hx, rfl⟩ := bind_run_ok.mp h
    obtain ⟨u, hu, y, hy, rfl⟩ := bind_run_ok.mp hx
    obtain ⟨v, hv, z, hz, rfl⟩ := bind_run_ok.mp hy
    obtain ⟨w, hw, t, ht, rfl⟩ := bind_run_ok.mp hz
    refine ⟨not_not.mp hn, d.value, ?_⟩
    simp [resultSlot_code hd, pushAll_code hu, instr_code hv, pop_code hw, done_code ht, pushes]

end Emit

/-- A call of a function of the runtime fulfils the contract if it has as many parameters as the
function takes. -/
def Contract.AllowsRuntime (K : Contract) : Prop :=
  ∀ pre ps (b : Builtin) dst, ps.length = b.argCount → K pre ps (.call b.label dst)

end Code

open Code.Emit

section

variable {K : Code.Contract} {pre : List Instr} {s : Supply}

/-- **A call of the runtime stands in a site.** -/
theorem Code.Emit.builtin_obeys (hK : K.AllowsRuntime) (b : Builtin) (args : List Location) :
    (builtin b args).Obeys K := by
  intro pre s r hr
  obtain ⟨hn, dst, e⟩ := builtin_code hr
  rw [e]
  exact .site trivial (hK pre args b dst hn)

theorem Code.Emit.quiet_newLocal (n : String) : (newLocal n).Quiet := quiet_silent fun _ _ h => by
  cases h
  rfl

/-- Steps in a row write orderly code as soon as each of them does. -/
theorem Code.Emit.obeys_lawful (hK : K.AllowsRuntime) :
    Account.Lawful fun _ m _ _ => m.Obeys K where
  done _ a := (quiet_done a).obeys
  refuse _ := quiet_refuse.obeys
  bind_of h hk pre s := (h pre s).bind fun a ha => hk s a ha _ _
  newLocal n _ := (quiet_newLocal n).obeys
  temp _ := quiet_temp.obeys
  newLabel _ := quiet_newLabel.obeys
  label _ _ := (quiet_instr rfl).obeys
  instr i hi _ := (quiet_instr (by cases i <;> first | rfl | cases hi)).obeys
  builtin b args _ := builtin_obeys hK b args

namespace Lowering

/-- What a call of a function by its label writes. -/
theorem callFunction_code {name : String} {args : List Location} {b : Bool}
    {r : Emitted (Option Location)} (h : callFunction name args b s = .ok r) :
    ∃ dst, r.code = Code.pushes args ++ .call (plainLabel name) dst :: Code.pops args.length := by
  obtain ⟨u, hu, x, hx, rfl⟩ := bind_run_ok.mp h
  obtain ⟨d, hd, y, hy, rfl⟩ := bind_run_ok.mp hx
  obtain ⟨w, hw, z, hz, rfl⟩ := bind_run_ok.mp hy
  refine ⟨d.value, ?_⟩
  simp [pushAll_code hu, call_code hd, pop_code hw, done_code hz, Code.pushes]

/-- Reads the table of an object, and in it the address of the method in a slot. -/
def tableLoads (x : Location) (slot : Nat) (table addr : Location) : List Instr :=
  [.load table x 0, .load addr table (wordSize * slot : Nat)]

/-- What a call through the table of an object writes. -/
theorem callMethod_code {x : Location} {slot : Nat} {args : List Location} {b : Bool}
    {r : Emitted (Option Location)} (h : callMethod x slot args b s = .ok r) :
    ∃ table addr dst, r.code = tableLoads x slot table addr ++
      (Code.pushes (x :: args) ++ .callVia addr dst :: Code.pops (x :: args).length) := by
  obtain ⟨table, ht, r₁, h₁, rfl⟩ := bind_run_ok.mp h
  obtain ⟨addr, ha, r₂, h₂, rfl⟩ := bind_run_ok.mp h₁
  obtain ⟨u, hu, r₃, h₃, rfl⟩ := bind_run_ok.mp h₂
  obtain ⟨v, hv, r₄, h₄, rfl⟩ := bind_run_ok.mp h₃
  obtain ⟨d, hd, r₅, h₅, rfl⟩ := bind_run_ok.mp h₄
  obtain ⟨w, hw, r₆, h₆, rfl⟩ := bind_run_ok.mp h₅
  refine ⟨table.value, addr.value, d.value, ?_⟩
  simp [tableLoads, toTemp_code ht, toTemp_code ha, pushAll_code hu, instr_code hv, callVia_code hd,
    pop_code hw, done_code h₆, Code.pushes]

/-- A base whose type is a name is of a class that is laid out. -/
theorem noInterfaceCall_run {r : Surroundings} {n : Node} {t : Ty} {i : Ident}
    {u : Emitted Unit} (h : noInterfaceCall r n t i s = .ok u) :
    (∀ c, t = .named c → (r.layout.class? c).isSome = true) ∧ u.code = [] ∧ u.supply = s := by
  have silent : (pure () : Emit Unit) s = .ok u → u.code = [] ∧ u.supply = s := fun e => by
    cases e
    exact ⟨rfl, rfl⟩
  cases t with
  -- only on an object it matters whether the name is that of a class
  | named c =>
    unfold noInterfaceCall at h
    cases hl : r.layout.class? c with
    | none =>
      simp only [hl] at h
      cases h
    | some o =>
      simp only [hl] at h
      refine ⟨fun d hd => ?_, silent h⟩
      obtain rfl := Ty.named.inj hd
      rw [hl]
      rfl
  | _ => exact ⟨fun _ hc => absurd hc nofun, silent h⟩

end Lowering

/-! ## 4. Calls of functions and methods -/

end

open Lowering

section

variable {K : Code.Contract} {r : Surroundings}

/-- In these surroundings the call, if the expression is one, fulfils the contract. -/
def Expr.Fulfils (K : Code.Contract) (r : Surroundings) : Expr → Prop
  | .call _ i args => ∀ g, r.notes.fn? i = some g → ∀ pre s o, Expr.evalAll r args s = .ok o →
      match r.layout.methodSlot? g.id with
      | none => ∀ dst, K (pre ++ o.code) o.value (.call (plainLabel i.name) dst)
      | some slot => ∀ x, r.this = some x → ∀ table addr dst,
          K (pre ++ o.code ++ tableLoads x slot table addr) (x :: o.value) (.callVia addr dst)
  | .send _ b i args => ∀ g, r.notes.fn? i = some g → ∀ pre s a x o slot,
      ¬ ((r.typeAt b.node).isArray && i.name == "length") = true →
      (∀ c, r.typeAt b.node = .named c → (r.layout.class? c).isSome = true) →
      b.eval r s = .ok a → a.value = some x → Expr.evalAll r args a.supply = .ok o →
      r.layout.methodSlot? g.id = some slot → ∀ table addr dst,
        K (pre ++ a.code ++ o.code ++ tableLoads x slot table addr) (x :: o.value)
          (.callVia addr dst)
  | _ => True

variable {pre : List Instr} {s : Supply}

/-- A method is called in order if the call fulfils the contract. -/
theorem Lowering.callMethod_obeys {x : Location} {slot : Nat} {xs : List Location} {b : Bool}
    (h : ∀ table addr dst, K (pre ++ tableLoads x slot table addr) (x :: xs)
      (.callVia addr dst)) : ObeysAt K pre s (callMethod x slot xs b) := by
  intro y hy
  obtain ⟨table, addr, dst, e⟩ := callMethod_code hy
  rw [e]
  refine .append (.quiet ?_) (.site trivial (h table addr dst))
  simp [tableLoads, Instr.quiet]

/-- **A call of a function stands in a site.** -/
theorem Lowering.callFunction_obeys {name : String} {xs : List Location} {b : Bool}
    (h : ∀ dst, K pre xs (.call (plainLabel name) dst)) :
    ObeysAt K pre s (callFunction name xs b) := by
  intro y hy
  obtain ⟨dst, e⟩ := callFunction_code hy
  rw [e]
  exact .site trivial (h dst)

/-- A call by a bare name. -/
theorem Expr.call_obeys (hK : K.AllowsRuntime) {n : Node} {i : Ident} {args : List Expr}
    (ha : (Expr.evalAll r args).Obeys K) (h : (Expr.call n i args).Fulfils K r) :
    ((Expr.call n i args).eval r).Obeys K := by
  unfold Expr.eval
  refine (obeys_lawful hK).noDouble n (fun _ pre s => .required fun g hg => ?_) 0
  have h := h g hg pre s
  cases hm : r.layout.methodSlot? g.id with
  | none =>
    rw [hm] at h
    exact (ha pre s).bind fun o ho => callFunction_obeys (h o ho)
  | some slot =>
    rw [hm] at h
    exact .required fun x hx => (ha pre s).bind fun o ho => callMethod_obeys (h o ho x hx)

/-- A call behind a base. -/
theorem Expr.send_obeys (hK : K.AllowsRuntime) {n : Node} {b : Expr} {i : Ident}
    {args : List Expr} (hb : (b.eval r).Obeys K) (ha : (Expr.evalAll r args).Obeys K)
    (h : (Expr.send n b i args).Fulfils K r) : ((Expr.send n b i args).eval r).Obeys K := by
  have hP := obeys_lawful hK
  unfold Expr.eval
  refine hP.noDouble n (fun _ => ?_) 0
  split
  · -- the length of an array is loaded, and nothing is called
    refine hP.row (hP.needed fun _ => hb) (fun _ => ?_) 0
    exact hP.valued (hP.load _ _) _
  next hlen =>
    refine fun pre s => .required fun g hg => ?_
    refine (hP.noInterfaceCall n _ i 0 pre s).bind fun u hu => ?_
    obtain ⟨hcls, hc, hs⟩ := noInterfaceCall_run hu
    rw [hc, List.append_nil, hs]
    refine (hb.needed pre s).bind fun y hy => ?_
    obtain ⟨a, ha', hx, hc, hs⟩ := needed_from hy
    -- the receiver is in its place before the arguments are evaluated
    rw [hc, hs]
    refine (ha (pre ++ a.code) a.supply).bind fun o ho => ?_
    refine .required fun slot hslot => ?_
    exact callMethod_obeys (h g hg pre s a y.value o slot hlen hcls ha' hx ho hslot)

/-- A call that fulfils the contract is written in order. -/
theorem Expr.Fulfils.kept (hK : K.AllowsRuntime) {e : Expr} (h : e.Fulfils K r) :
    e.CallKept (fun _ m _ _ => m.Obeys K) r := by
  cases e with
  | call n i args => exact fun ha _ => Expr.call_obeys hK (ha 0) h
  | send n b i args => exact fun hb ha _ => Expr.send_obeys hK (hb 0) (ha 0) h
  | _ => trivial

/-- Wherever the variables lie, the call, if the expression is one, fulfils the contract. -/
def Expr.Complies (K : Code.Contract) (r : Surroundings) (e : Expr) : Prop :=
  ∀ r', r'.Within r → e.Fulfils K r'

/-- **The code of a block is orderly if its calls fulfil the contract.** -/
theorem Block.lower_obeys (hK : K.AllowsRuntime) (b : Block)
    (h : Part.All (Expr.Complies K r) b.parts) : (b.lower r).Obeys K :=
  b.lower_keeps (obeys_lawful hK) r (fun e he r' hw => (h e he r' hw).kept hK) 0

end

/-! ## 5. Programs -/

/-- Where a method has the object that it is called for: it is the first of its parameters. -/
def thisParam : Location := .frame (Supply.paramOffset 0) "this"

/-- In every surroundings with these notes and this layout, the calls in the body of a function
fulfil the contract. -/
def FnDecl.Complies (K : Code.Contract) (a : Notes) (l : Layout) (g : FnDecl) : Prop :=
  ∀ r : Surroundings, r.notes = a → r.layout = l → (∀ x, r.this = some x → x = thisParam) →
    Part.All (Expr.Fulfils K r) (Block.partsOpt g.body)

section

variable {K : Code.Contract} {r : Surroundings}

/-- Around its body, a function has nothing to do with calls. -/
theorem Code.Emit.function_obeys {m : Emit Unit}
    (h : ∀ pre (s : Supply), ObeysAt K pre s.newFrame m) (l : Label) :
    (Emit.function l m).Obeys K := by
  intro pre s x hx
  unfold Emit.function at hx
  cases hb : m s.newFrame with
  | error e =>
    rw [hb] at hx
    cases hx
  | ok b =>
    rw [hb] at hx
    cases hx
    have hin : Code.Orderly K pre [.label l, .enter b.supply.frameSize] :=
      .quiet (by simp [Instr.quiet])
    exact (hin.append (h _ s b hb)).append (.quiet (by simp [Instr.quiet]))

/-- The object that a method is called for is the first of its parameters. -/
theorem withThis_newFrame (r : Surroundings) (m : Bool) (s : Supply) : ∃ r',
    withThis r m s.newFrame = .ok ⟨r', [], { s with locals := 0, params := m.toNat }⟩ ∧
      r'.notes = r.notes ∧ r'.layout = r.layout ∧
        r'.this = if m = true then some thisParam else none := by
  cases m with
  | false => exact ⟨_, rfl, rfl, rfl, rfl⟩
  | true => exact ⟨_, rfl, rfl, rfl, rfl⟩

/-- **The body of a function is orderly if all its calls comply.** -/
theorem FnDecl.lowerBody_obeys (hK : K.AllowsRuntime) {g : FnDecl}
    (h : g.Complies K r.notes r.layout) (m : Bool) (pre : List Instr) (s : Supply) :
    ObeysAt K pre s.newFrame (g.lowerBody r m) := by
  -- the object and the parameters are in the frame before the body
  obtain ⟨r₁, e₁, hn, hl, ht⟩ := withThis_newFrame r m s
  obtain ⟨r₂, e₂, hg⟩ := withFormals_run g.formals r₁ { s with locals := 0, params := m.toNat }
  have h : Part.All (Expr.Complies K r₂) (Block.partsOpt g.body) := fun e he y hw => by
    refine h y (hw.notes_eq.trans (hg.notes_eq.trans hn))
      (hw.layout_eq.trans (hg.layout_eq.trans hl)) (fun q hq => ?_) e he
    rw [hw.this_eq, hg.this_eq, ht] at hq
    split at hq
    · exact (Option.some.inj hq).symm
    · cases hq
  unfold lowerBody
  refine .silent e₁ (.silent e₂ ?_)
  cases hb : g.body with
  | none => exact (quiet_done ()).obeys _ _
  | some b =>
    rw [hb] at h
    exact b.lower_obeys hK h _ _

/-- The same for the methods of a class. -/
theorem FnDecl.lowerMethods_obeys (hK : K.AllowsRuntime) (cls : String) {gs : List FnDecl}
    (h : ∀ g ∈ gs, g.Complies K r.notes r.layout) : (FnDecl.lowerMethods cls r gs).Obeys K := by
  induction gs with
  | nil => exact (quiet_done ()).obeys
  | cons g gs ih =>
    exact (function_obeys (g.lowerBody_obeys hK (h g List.mem_cons_self) true) _).bind fun _ =>
      ih fun x hx => h x (List.mem_cons_of_mem _ hx)

/-- **The code of declarations is orderly if all calls in them comply.** -/
theorem Decl.lowerAll_obeys (hK : K.AllowsRuntime) {ds : List Decl}
    (hf : ∀ g, Decl.fn g ∈ ds → g.Complies K r.notes r.layout)
    (hc : ∀ c, Decl.cls c ∈ ds → ∀ g ∈ c.methods, g.Complies K r.notes r.layout) :
    (Decl.lowerAll r ds).Obeys K := by
  induction ds with
  | nil => exact (quiet_done ()).obeys
  | cons d ds ih =>
    have ih := ih (fun g hg => hf g (List.mem_cons_of_mem _ hg))
      fun c hm => hc c (List.mem_cons_of_mem _ hm)
    cases d with
    | var _ => exact ih
    | iface _ => exact ih
    | fn g =>
      have hg := g.lowerBody_obeys hK (hf g List.mem_cons_self) false
      exact (function_obeys hg _).bind fun _ => ih
    | cls c =>
      have hcls : (c.lower r).Obeys K := by
        refine (FnDecl.lowerMethods_obeys hK c.name (hc c List.mem_cons_self)).bind fun _ => ?_
        refine quiet_required.obeys.bind fun _ => ?_
        exact (quiet_instr rfl).obeys
      exact hcls.bind fun _ => ih

/-- Global variables change nothing but the slots. -/
theorem withGlobals_within {vs : List VarDecl} {r' : Surroundings}
    (h : withGlobals r vs = .ok r') : r'.Within r := by
  induction vs generalizing r with
  | nil =>
    cases h
    exact .refl _
  | cons v vs ih =>
    unfold withGlobals at h
    split at h
    · have hw := ih h
      exact ⟨hw.notes_eq, hw.layout_eq, hw.this_eq⟩
    · cases h

end

/-- **The calls in the code of a program stand in sites, and fulfil what the calls in its bodies
do.** -/
theorem Program.lower_orderly {K : Code.Contract} {p : Program} {a : Notes} {l : Layout}
    {code : List Instr} (hK : K.AllowsRuntime)
    (hf : ∀ cls g, (cls, g) ∈ p.functions → g.Complies K a l) (h : p.lower a l = .ok code) :
    Code.Orderly K [] code := by
  obtain ⟨r, x, hr, hx, rfl⟩ := lower_eq_ok h
  obtain ⟨hn, hl, -⟩ := withGlobals_within hr
  refine Decl.lowerAll_obeys hK (fun g hg => ?_) (fun c hc g hg => ?_) [] .empty x hx
  · rw [hn, hl]
    exact hf none g (mem_functions.mpr (.inl ⟨rfl, hg⟩))
  · rw [hn, hl]
    exact hf (some c) g (mem_functions.mpr (.inr ⟨c, rfl, hc, hg⟩))

end DecafLang
