import DecafLang.Proofs.Ways
import DecafLang.Proofs.MissingValues

/-!
# Definite assignment

The way that control takes through the code of an expression or a statement, and what it finds
written there.

* `Course` is the account of code that was written: besides what `Tenancy` says of its words, **each
  temporary that moved in is written once, and what is read was given or written before**
  (`Code.Flows`). The words of variables need not be written; a list of labels says what control
  has at hand where they stand.
* Behind a label that was handed out on the way, control has at hand what it had when the label was
  handed out, and no more. So the locations that steps hold are stated as a whole, and not added to
  what they were given (`Emit.Steers`).
* **The code of an expression holds what it was given, and its value** (`Expr.eval_grows`): where
  it places a label itself, it had all that before.
-/

namespace DecafLang

open Code (Builtin Emit Emitted Flows Instr Label Location Op Supply offsets touched written)
open Code.Supply (labelName localOffset tempName)
open Code.Emit
open Lowering

/-! ## 1. Temporaries and variables among tenants -/

namespace Tenant

/-- The words of the temporaries among tenants who move in from a position on, by their offsets. -/
def tempOffsets (a : Nat) : List Tenant → List Int
  | [] => []
  | temp _ :: ts => localOffset a :: tempOffsets (a + 1) ts
  | _ :: ts => tempOffsets (a + 1) ts

/-- The words of the variables among them. -/
def varOffsets (a : Nat) (ts : List Tenant) : Set Int :=
  {o | ∃ i v, ts[i]? = some (var v) ∧ o = localOffset (a + i)}

variable {a : Nat} {ts ts' : List Tenant} {vs : List VarDecl}

/-- Of tenants behind each other, the later ones start where the earlier ones end. -/
theorem tempOffsets_append :
    tempOffsets a (ts ++ ts') = tempOffsets a ts ++ tempOffsets (a + ts.length) ts' := by
  induction ts generalizing a with
  | nil => rfl
  | cons t ts ih =>
    -- the position is told in front of the list, so that the case of the first tenant is a step
    have e : a + (t :: ts).length = a + 1 + ts.length := by
      rw [List.length_cons]
      omega
    rw [e]
    cases t with
    | temp n => exact congrArg (localOffset a :: ·) ih
    | this => exact ih
    | var v => exact ih

/-- Variables alone have no words of temporaries. -/
theorem tempOffsets_map_var : tempOffsets a (vs.map var) = [] := by
  induction vs generalizing a with
  | nil => rfl
  | cons v vs ih => exact ih

/-- **A word is one of a temporary exactly if the tenant at its position is one.** -/
theorem mem_tempOffsets {o : Int} :
    o ∈ tempOffsets a ts ↔ ∃ i n, ts[i]? = some (temp n) ∧ o = localOffset (a + i) := by
  induction ts generalizing a with
  | nil => simp [tempOffsets]
  | cons t ts ih =>
    -- behind the first tenant, the positions are one off
    have shift : (∃ i n, ts[i]? = some (temp n) ∧ o = localOffset (a + 1 + i)) ↔
        ∃ i n, (t :: ts)[i + 1]? = some (temp n) ∧ o = localOffset (a + (i + 1)) := by
      simp only [List.getElem?_cons_succ, Nat.add_assoc, Nat.add_comm 1]
    constructor
    · intro h
      -- whoever stands first, what is found behind it is found in the whole
      have head : o ∈ tempOffsets (a + 1) ts → ∃ i n, (t :: ts)[i]? = some (temp n) ∧
          o = localOffset (a + i) := fun h => by
        obtain ⟨i, n, h⟩ := shift.mp (ih.mp h)
        exact ⟨i + 1, n, h⟩
      cases t with
      | temp n =>
        rcases List.mem_cons.mp h with rfl | h
        · exact ⟨0, n, rfl, rfl⟩
        · exact head h
      | this => exact head h
      | var v => exact head h
    · rintro ⟨i, n, hi, e⟩
      cases i with
      | zero =>
        obtain rfl := Option.some.inj hi
        exact List.mem_cons.mpr (.inl e)
      | succ i =>
        have hm := ih.mpr (shift.mpr ⟨i, n, hi, e⟩)
        cases t with
        | temp n => exact List.mem_cons_of_mem _ hm
        | this => exact hm
        | var v => exact hm

/-- A variable among the first tenants keeps its word when others move in. -/
theorem varOffsets_left (ts ts' : List Tenant) : varOffsets a ts ⊆ varOffsets a (ts ++ ts') :=
  fun _ ⟨i, v, hi, e⟩ =>
    ⟨i, v, by rw [List.getElem?_append_left (List.getElem?_eq_some_iff.mp hi).1, hi], e⟩

/-- A variable among the later tenants has its word behind those of the first ones. -/
theorem varOffsets_right (ts ts' : List Tenant) :
    varOffsets (a + ts.length) ts' ⊆ varOffsets a (ts ++ ts') :=
  fun _ ⟨i, v, hi, e⟩ => ⟨ts.length + i, v, by
    rw [List.getElem?_append_right (Nat.le_add_right ..), Nat.add_sub_cancel_left, hi],
    by rw [e, Nat.add_assoc]⟩

/-- Words of tenants that are all variables are words of variables. -/
theorem offsets_words : offsets (words a (vs.map var)) ⊆ varOffsets a (vs.map var) := by
  rintro o ⟨x, hx, e⟩
  obtain ⟨i, t, hi, rfl⟩ := mem_words.mp hx
  obtain ⟨v, hv, rfl⟩ := Option.map_eq_some_iff.mp (List.getElem?_map.symm.trans hi)
  exact ⟨i, v, hi, (Option.some.inj e).symm⟩

end Tenant

/-! ## 2. Accounts -/

section

variable {l : Layout} {given given' held held' : List Location} {s t u : Supply}
  {a b : List Instr} {vs vs' : List VarDecl} {ts ts' : List Tenant}

/-- Locations that count from what is at hand are at hand. -/
theorem Code.offsets_roots {xs ys : List Location}
    (h : ∀ x ∈ xs, x.root ∈ ys.map Location.root) : offsets xs ⊆ offsets ys := by
  intro _ ⟨x, hx, e⟩
  obtain ⟨y, hy, e'⟩ := List.mem_map.mp (h x hx)
  exact ⟨y, hy, e' ▸ e⟩

/-- More may be given, and less held. -/
theorem Tenancy.weaken (h : Tenancy l given s a t held vs ts) (hg : given ⊆ given')
    (hh : ∀ x ∈ held', x.root ∈ held.map Location.root) :
    Tenancy l given' s a t held' vs ts where
  params := h.params
  locals := h.locals
  temps_le := h.temps_le
  temps := h.temps
  vars := h.vars
  no_this := h.no_this
  used := h.used
  inner := h.inner
  reach x hx := by
    have reached : ∀ y ∈ touched a ++ held, y.root ∈ given'.map Location.root ++
        Tenant.words s.locals ts := fun y hy =>
      (List.mem_append.mp (h.reach y hy)).elim
        (fun hy => List.mem_append_left _ (List.map_subset _ hg hy)) (List.mem_append_right _)
    rcases List.mem_append.mp hx with hx | hx
    · exact reached x (List.mem_append_left _ hx)
    · obtain ⟨y, hy, e⟩ := List.mem_map.mp (hh x hx)
      exact e ▸ reached y (List.mem_append_right _ hy)

/-- What comes next is given what comes first holds, and no more. -/
theorem Tenancy.chain (h : Tenancy l given s a t held vs ts)
    (h' : Tenancy l held t b u held' vs' ts') :
    Tenancy l given s (a ++ b) u held' (vs ++ vs') (ts ++ ts') :=
  h.append (h'.weaken (List.subset_append_left _ _) fun _ hx => List.mem_map_of_mem hx)

end

/-- Labels, with the locations that control has at hand where they stand. -/
abbrev Aims := List (Label × List Location)

/-- Where these labels stand, their locations are written, and these words, too. -/
def Aims.Known (known : Label → Option (Set Int)) (U : Set Int) (aims : Aims) : Prop :=
  ∀ x ∈ aims, known x.1 = some (offsets x.2 ∪ U)

/-- Leaving out some words, code from one supply to another writes each temporary among the tenants
once, and has a certificate that needs nothing but what is given. -/
structure Orderly (U : Set Int) (aims : Aims) (given : List Location) (s : Supply)
    (code : List Instr) (t : Supply) (held : List Location) (ts : List Tenant) : Prop where
  writes : ∃ us, (written code).Perm (Tenant.tempOffsets s.locals ts ++ us) ∧ ∀ o ∈ us, o ∈ U
  flows : ∃ place : Nat → Set Int, ∀ known : Label → Option (Set Int),
    (∀ n, s.labels ≤ n → n < t.labels → known (labelName n) = some (place n)) →
      aims.Known known U → Flows known (offsets given ∪ U) code (offsets held ∪ U)

/-- The account of code that was written from one supply to another by steps that were given some
locations, may jump to some labels, and hold other locations afterwards. These tenants moved in, and
the words of variables are vouched for. -/
structure Course (l : Layout) (own : List Location) (aims : Aims) (given : List Location)
    (s : Supply) (code : List Instr) (t : Supply) (held : List Location) (vs : List VarDecl)
    (ts : List Tenant) : Prop extends Tenancy l given s code t held vs ts where
  numbers : ∃ n, t.temps = s.temps + n ∧ Tenant.temps ts = List.range' s.temps n
  labels_le : s.labels ≤ t.labels
  orderly : ∀ U, offsets own ⊆ U → Tenant.varOffsets s.locals ts ⊆ U →
    Orderly U aims given s code t held ts

namespace Orderly

variable {U : Set Int} {aims aims' : Aims} {given given' held held' : List Location}
  {s t u : Supply} {a b : List Instr} {ts ts' : List Tenant}

/-- **Orderly code in front of orderly code is orderly.** The later part is given what the earlier
part holds. -/
theorem append (h : Orderly U aims given s a t held ts) (h' : Orderly U aims held t b u held' ts')
    (hn : t.locals = s.locals + ts.length) (hs : s.labels ≤ t.labels) (ht : t.labels ≤ u.labels) :
    Orderly U aims given s (a ++ b) u held' (ts ++ ts') where
  writes := by
    obtain ⟨us, hp, hu⟩ := h.writes
    obtain ⟨us', hp', hu'⟩ := h'.writes
    refine ⟨us ++ us', ?_, fun o ho => (List.mem_append.mp ho).elim (hu o) (hu' o)⟩
    rw [Code.written_append, Tenant.tempOffsets_append, ← hn, List.append_assoc]
    -- the temporaries of both parts come first, and then the words of variables that both write
    refine (hp.append hp').trans ?_
    rw [List.append_assoc]
    refine List.Perm.append_left _ ?_
    rw [← List.append_assoc, ← List.append_assoc]
    exact List.perm_append_comm.append_right _
  flows := by
    obtain ⟨place, h⟩ := h.flows
    obtain ⟨place', h'⟩ := h'.flows
    -- a label is handed out in one of the two parts, and that part says what is written where it
    -- stands
    refine ⟨fun n => if n < t.labels then place n else place' n, fun known hk ha => ?_⟩
    refine (h known (fun n hn hlt => ?_) ha).append (h' known (fun n hge hlt => ?_) ha)
    · exact (hk n hn (Nat.lt_of_lt_of_le hlt ht)).trans (congrArg some (if_pos hlt))
    · exact (hk n (Nat.le_trans hs hge) hlt).trans (congrArg some (if_neg (Nat.not_lt.mpr hge)))

/-- More labels may be known and more be given, and less held. -/
theorem weaken (h : Orderly U aims given s a t held ts) (ha : aims ⊆ aims')
    (hg : offsets given ⊆ offsets given' ∪ U) (hh : offsets held' ⊆ offsets held) :
    Orderly U aims' given' s a t held' ts where
  writes := h.writes
  flows := by
    obtain ⟨place, h⟩ := h.flows
    refine ⟨place, fun known hk haims => ?_⟩
    exact ((h known hk fun x hx => haims x (ha hx)).mono
      (Set.union_subset hg Set.subset_union_right)).weaken (Set.union_subset_union_left _ hh)

/-- Nothing is written, and nobody moves in. -/
theorem silent (h : offsets held ⊆ offsets given) : Orderly U aims given s [] t held [] where
  writes := ⟨[], .refl _, nofun⟩
  flows := ⟨fun _ => ∅, fun _ _ _ => Set.union_subset_union_left _ h⟩

end Orderly

namespace Course

variable {l : Layout} {own own' : List Location} {aims aims' : Aims}
  {given given' held held' : List Location} {s t u : Supply} {a b : List Instr}
  {vs vs' : List VarDecl} {ts ts' : List Tenant}

/-- **Courses that follow each other are one course.** -/
theorem append (h : Course l own aims given s a t held vs ts)
    (h' : Course l own aims held t b u held' vs' ts') :
    Course l own aims given s (a ++ b) u held' (vs ++ vs') (ts ++ ts') where
  toTenancy := h.toTenancy.chain h'.toTenancy
  numbers := by
    obtain ⟨m, hm, e⟩ := h.numbers
    obtain ⟨n, hn, e'⟩ := h'.numbers
    refine ⟨m + n, by rw [hn, hm, Nat.add_assoc], ?_⟩
    rw [Tenant.temps_append, e, e', hm, List.range'_append_1]
  labels_le := Nat.le_trans h.labels_le h'.labels_le
  orderly U ho hv := by
    -- the tenants of the later part stand behind those of the earlier part
    have hv' : Tenant.varOffsets t.locals ts' ⊆ U := h.locals ▸
      Set.Subset.trans (Tenant.varOffsets_right ts ts') hv
    exact (h.orderly U ho (Set.Subset.trans (Tenant.varOffsets_left ts ts') hv)).append
      (h'.orderly U ho hv') h.locals h.labels_le h'.labels_le

/-- More labels may be known and more be given, and less held. -/
theorem weaken (h : Course l own aims given s a t held vs ts) (ha : aims ⊆ aims')
    (hg : given ⊆ given') (hh : ∀ x ∈ held', x.root ∈ held.map Location.root) :
    Course l own aims' given' s a t held' vs ts where
  toTenancy := h.toTenancy.weaken hg hh
  numbers := h.numbers
  labels_le := h.labels_le
  orderly U ho hv := (h.orderly U ho hv).weaken ha
    (Set.Subset.trans (Code.offsets_mono hg) Set.subset_union_left) (Code.offsets_roots hh)

/-- Nothing is written, and nobody moves in. -/
theorem silent (h : ∀ x ∈ held, x.root ∈ given.map Location.root) :
    Course l own aims given s [] s held [] [] where
  toTenancy := .silent h
  numbers := ⟨0, rfl, rfl⟩
  labels_le := Nat.le_refl _
  orderly _ _ _ := .silent (Code.offsets_roots h)

/-- One instruction that touches what is given, with what control has at hand behind it. -/
theorem instr {i : Instr} (ho : i.operands ⊆ given) (hi : i.Inner l)
    (hs : ∀ o, i.sets? = some o → o ∈ offsets own) (hh : held ⊆ given)
    (hf : ∀ U known, aims.Known known U →
      (∀ m, i.aim? = some m → ∃ S, known m = some S ∧ S ⊆ offsets given ∪ U) ∧
        offsets held ∪ U ⊆ i.leaves known (offsets given ∪ U)) :
    Course l own aims given s [i] s held [] [] where
  toTenancy := by
    have h := (Tenancy.instr (s := s) ho hi).append
      (.silent (n := s.labels) fun x hx => List.mem_map_of_mem (hh hx))
    rwa [List.append_nil] at h
  numbers := ⟨0, rfl, rfl⟩
  labels_le := Nat.le_refl _
  -- the one word that may be written is vouched for, and what is read is given
  orderly U hU _ :=
    { writes := by
        refine ⟨written [i], .refl _, fun o h => ?_⟩
        obtain ⟨j, hj, e⟩ := List.mem_filterMap.mp h
        exact hU (hs o (List.mem_singleton.mp hj ▸ e))
      flows := ⟨fun _ => ∅, fun known _ ha => by
        obtain ⟨haim, hheld⟩ := hf U known ha
        exact ⟨⟨fun o h => .inl (Code.Instr.gets_of_operands ho h), haim⟩, hheld⟩⟩ }

/-- A temporary moves in, and the first instruction writes it. -/
theorem temp {i : Instr} (hd : i.result? = some (.frame (localOffset s.locals) (tempName s.temps)))
    (hx : i.sources ⊆ given) (hi : i.Inner l)
    (h : Course l own aims (.frame (localOffset s.locals) (tempName s.temps) :: given)
      { s with locals := s.locals + 1, temps := s.temps + 1 } b u held vs ts) :
    Course l own aims given s (i :: b) u held vs (.temp s.temps :: ts) where
  toTenancy := by
    have ho : i.operands ⊆ .frame (localOffset s.locals) (tempName s.temps) :: given := by
      refine List.Subset.trans i.operands_subset ?_
      rw [hd]
      exact List.cons_subset_cons _ hx
    refine ((Tenancy.instr ho hi).append h.toTenancy).temp (List.mem_flatMap.mpr ⟨i, ?_, ?_⟩)
    · exact List.mem_cons_self
    · cases i <;> simp_all [Instr.result?, Instr.operands]
  numbers := by
    obtain ⟨n, hn, e⟩ := h.numbers
    refine ⟨n + 1, by rw [hn]; show s.temps + 1 + n = _; omega, ?_⟩
    exact congrArg (s.temps :: ·) e
  labels_le := h.labels_le
  orderly U hU hv := by
    -- the instruction writes the word of the new tenant, and nothing else
    have hsets : i.sets? = some (localOffset s.locals) := by
      unfold Instr.sets?
      rw [hd]
      rfl
    have hv' : Tenant.varOffsets (s.locals + 1) ts ⊆ U :=
      Set.Subset.trans (Tenant.varOffsets_right [.temp s.temps] ts) hv
    obtain ⟨⟨us, hp, hu⟩, place, hflows⟩ := h.orderly U hU hv'
    refine ⟨⟨us, ?_, hu⟩, place, fun known hk ha => ⟨⟨fun o ho => .inl ?_, fun m hm => ?_⟩, ?_⟩⟩
    · unfold written
      rw [List.filterMap_cons_some hsets]
      exact hp.cons _
    · refine Code.Instr.gets_of_sources ?_ hx ho
      rw [hd]
      rfl
    · cases i <;> cases hd <;> cases hm
    -- it neither jumps nor places a label, so that control has its word at hand behind it
    · have hleaves : i.leaves known (offsets given ∪ U) =
          offsets given ∪ U ∪ {o | i.sets? = some o} := by cases i <;> first | rfl | cases hd
      refine (hflows known hk ha).mono ?_
      rw [hleaves]
      rintro o (⟨x, hx, e⟩ | ho)
      · rcases List.mem_cons.mp hx with rfl | hx
        · exact .inr (hsets.trans e)
        · exact .inl (.inl ⟨x, hx, e⟩)
      · exact .inl (.inr ho)

/-- A label is handed out, and control will have some locations at hand where it stands. -/
theorem newLabel (S : List Location)
    (h : Course l own ((labelName s.labels, S) :: aims) given
      { s with labels := s.labels + 1 } a u held vs ts) :
    Course l own aims given s a u held vs ts where
  toTenancy :=
    ⟨h.params, h.locals, h.temps_le, h.temps, h.vars, h.no_this, h.used, h.inner, h.reach⟩
  numbers := h.numbers
  labels_le := Nat.le_of_succ_le h.labels_le
  orderly U hU hv := by
    obtain ⟨hw, place, hflows⟩ := h.orderly U hU hv
    -- the new label stands for the locations that are announced, the others for what they stood for
    refine ⟨hw, fun n => if n = s.labels then offsets S ∪ U else place n, fun known hk ha => ?_⟩
    refine hflows known (fun n hn hlt => ?_) fun x hx => ?_
    · exact (hk n (Nat.le_of_succ_le hn) hlt).trans (congrArg some (if_neg (Nat.ne_of_gt hn)))
    · rcases List.mem_cons.mp hx with rfl | hx
      · exact (hk s.labels (Nat.le_refl _) h.labels_le).trans (congrArg some (if_pos rfl))
      · exact ha x hx

/-- Variables move in, and what comes next may do what it likes with their words. -/
theorem moveIn {ls : List VarDecl} (ho : own' ⊆ Tenant.words s.locals (ls.map .var) ++ own)
    (h : Course l own' aims (Tenant.words s.locals (ls.map .var) ++ given)
      { s with locals := s.locals + ls.length } b u held vs ts) :
    Course l own aims given s b u held (ls ++ vs) (ls.map .var ++ ts) where
  toTenancy := .moveIn h.toTenancy
  numbers := by
    rw [Tenant.temps_append, Tenant.temps_map_var]
    exact h.numbers
  labels_le := h.labels_le
  orderly U hU hv := by
    -- the words of the new variables are vouched for, since `U` has all words of variables
    have hwords : offsets (Tenant.words s.locals (ls.map .var)) ⊆ U :=
      Set.Subset.trans Tenant.offsets_words (Set.Subset.trans (Tenant.varOffsets_left _ ts) hv)
    have hown : offsets own' ⊆ U := fun o h => by
      rcases Code.offsets_append ▸ Code.offsets_mono ho h with h | h
      · exact hwords h
      · exact hU h
    have hlen : s.locals + (ls.map Tenant.var).length = s.locals + ls.length := by
      rw [List.length_map]
    have hv' : Tenant.varOffsets (s.locals + ls.length) ts ⊆ U :=
      Set.Subset.trans (hlen ▸ Tenant.varOffsets_right (ls.map .var) ts) hv
    have hgiven : offsets (Tenant.words s.locals (ls.map .var) ++ given) ⊆ offsets given ∪ U := by
      rw [Code.offsets_append]
      exact Set.union_subset (Set.Subset.trans hwords Set.subset_union_right) Set.subset_union_left
    obtain ⟨hw, hf⟩ := (h.orderly U hown hv').weaken (List.Subset.refl _) hgiven (Set.Subset.refl _)
    refine ⟨?_, hf⟩
    rw [Tenant.tempOffsets_append, Tenant.tempOffsets_map_var, hlen]
    exact hw

end Course

/-! ## 3. Steps -/

/-- The place takes no word of the frame but that of a variable. -/
def Target.Owned (own : List Location) : Target → Prop
  | .word w => ∀ o, w.frame? = some o → o ∈ offsets own
  | .behind _ _ => True

namespace Code.Emit

variable {α β γ : Type} {r : Surroundings} {aims aims' : Aims} {given given' S : List Location}
  {m : Emit α} {k : α → Emit β} {mid : α → List Location} {held held' : β → List Location}
  {vs vs' : List VarDecl} {Q : α → Prop} {x y : Location}

/-- Steps may be grouped in any way. -/
theorem bind_assoc (k' : β → Emit γ) : (m >>= k) >>= k' = m >>= fun a => k a >>= k' := by
  funext s
  show andThen (andThen m k) k' s = andThen m (fun a => andThen (k a) k') s
  unfold andThen
  cases m s with
  | error e => rfl
  | ok a =>
    dsimp only
    cases k a.value a.supply with
    | error e => rfl
    | ok b =>
      dsimp only
      cases k' b.value b.supply with
      | error e => rfl
      | ok c => simp only [List.append_assoc]

/-- One location that is given is a list of given ones. -/
theorem given_one (h : x ∈ given) : [x] ⊆ given := List.cons_subset.mpr ⟨h, List.nil_subset _⟩

/-- Steps that are given some locations and may jump to some labels, and hold other locations
afterwards. -/
def Steers (r : Surroundings) (aims : Aims) (given : List Location) (m : Emit α)
    (held : α → List Location) (vs : List VarDecl) : Prop :=
  ∀ s o, m s = .ok o →
    ∃ ts, Course r.layout r.words aims given s o.code o.supply (held o.value) vs ts

/-- More labels may be known and more be given, and less held. -/
theorem Steers.weaken (h : m.Steers r aims given mid vs) (ha : aims ⊆ aims') (hg : given ⊆ given')
    {mid' : α → List Location}
    (hh : ∀ a, ∀ x ∈ mid' a, x.root ∈ (mid a).map Location.root) :
    m.Steers r aims' given' mid' vs := by
  intro s o ho
  obtain ⟨ts, h⟩ := h s o ho
  exact ⟨ts, h.weaken ha hg (hh _)⟩

/-- Less is held. -/
theorem Steers.drop (h : m.Steers r aims given mid vs) {mid' : α → List Location}
    (hh : ∀ a, mid' a ⊆ mid a) : m.Steers r aims given mid' vs :=
  h.weaken (List.Subset.refl _) (List.Subset.refl _) fun a _ hx => List.mem_map_of_mem (hh a hx)

/-- What comes next is given what comes first holds, and knows that it came of the first. -/
theorem Steers.bind_of (h : m.Steers r aims given mid vs) (hq : m.Ends Q)
    (hk : ∀ a, Q a → (k a).Steers r aims (mid a) held vs') :
    (m >>= k).Steers r aims given held (vs ++ vs') := by
  intro s o ho
  obtain ⟨a, ha, b, hb, rfl⟩ := bind_run_ok.mp ho
  obtain ⟨ts, h⟩ := h s a ha
  obtain ⟨ts', h'⟩ := hk a.value (hq s a ha) a.supply b hb
  exact ⟨ts ++ ts', h.append h'⟩

/-- What comes next is given what comes first holds. -/
theorem Steers.bind (h : m.Steers r aims given mid vs)
    (hk : ∀ a, (k a).Steers r aims (mid a) held vs') :
    (m >>= k).Steers r aims given held (vs ++ vs') :=
  h.bind_of (Q := fun _ => True) (fun _ _ _ => trivial) fun a _ => hk a

/-- Steps in which no variable moves in come first. -/
theorem Steers.before (h : m.Steers r aims given mid [])
    (hk : ∀ a, (k a).Steers r aims (mid a) held vs) : (m >>= k).Steers r aims given held vs :=
  h.bind hk

/-- Steps that hold what they were given, and more. Only temporaries move in. -/
def Grows (r : Surroundings) (aims : Aims) (given : List Location) (m : Emit α)
    (held : α → List Location) : Prop := m.Steers r aims given (fun a => held a ++ given) []

/-- Who asks only for the words that are touched may forget the course. -/
theorem Grows.uses (h : m.Grows r aims given mid) : m.Uses r.layout given mid := by
  intro s o ho
  obtain ⟨ts, h⟩ := h s o ho
  exact ⟨ts, h.toTenancy.weaken (List.Subset.refl _) fun _ hx =>
    List.mem_map_of_mem (List.mem_append_left _ hx)⟩

/-- Steps that grow may come first. -/
theorem Grows.before (h : m.Grows r aims given mid)
    (hk : ∀ a, (k a).Steers r aims (mid a ++ given) held vs) :
    (m >>= k).Steers r aims given held vs := Steers.before h hk

/-- Of two steps that grow, the later one is given what the earlier one holds besides what both are
given; it knows that it came of the earlier one. -/
theorem Grows.bind_of (h : m.Grows r aims given mid) (hq : m.Ends Q)
    (hk : ∀ a, Q a → (k a).Grows r aims (mid a ++ given) held) :
    (m >>= k).Grows r aims given held :=
  Steers.bind_of h hq fun a ha => (hk a ha).drop fun _ =>
    List.append_subset.mpr ⟨List.subset_append_left _ _,
      List.subset_append_of_subset_right _ (List.subset_append_right _ _)⟩

/-- Of two steps that grow, the later one is given what the earlier one holds. -/
theorem Grows.bind (h : m.Grows r aims given mid)
    (hk : ∀ a, (k a).Grows r aims (mid a ++ given) held) : (m >>= k).Grows r aims given held :=
  h.bind_of (Q := fun _ => True) (fun _ _ _ => trivial) fun a _ => hk a

/-- What is held counts from what is given. -/
theorem grows_silent {a : α} (h : ∀ x ∈ mid a, x.root ∈ given.map Location.root) :
    (pure a : Emit α).Grows r aims given mid := by
  intro s o ho
  cases ho
  refine ⟨[], .silent fun x hx => ?_⟩
  exact (List.mem_append.mp hx).elim (h x) fun hx => List.mem_map_of_mem hx

/-- What is held was given. -/
theorem grows_done {a : α} (h : mid a ⊆ given) : (pure a : Emit α).Grows r aims given mid :=
  grows_silent fun _ hx => List.mem_map_of_mem (h hx)

/-- Nothing is written, and nothing new is held. -/
theorem grows_nothing {a : α} : (pure a : Emit α).Grows r aims given fun _ => [] :=
  grows_done (List.nil_subset _)

/-- Steps that are refused leave no code to speak of. -/
theorem grows_refuse {e : Refusal} : (refuse e : Emit α).Grows r aims given mid :=
  fun _ _ h => by cases h

/-- What is required was given, if it is there. -/
theorem grows_required {d : Defect} {o : Option α} (h : ∀ a, o = some a → mid a ⊆ given) :
    (required d o).Grows r aims given mid := by
  cases o with
  | none => exact grows_refuse
  | some a => exact grows_done (h a rfl)

/-- What is required is there, and costs nothing. -/
theorem steers_given {d : Defect} {o : Option α}
    (hk : ∀ a, o = some a → (k a).Steers r aims given held vs) :
    (required d o >>= k).Steers r aims given held vs := by
  cases o with
  | none => exact fun _ _ h => by cases h
  | some a =>
    intro s o ho
    rw [bind_silent (k := k) (m := required d (some a)) rfl] at ho
    exact hk a rfl s o ho

/-- A value that is needed is held. -/
theorem Grows.needed {d : Defect} {m : Emit (Option Location)}
    (h : m.Grows r aims given Option.toList) : (needed d m).Grows r aims given fun x => [x] := by
  refine h.bind fun _ => ?_
  exact grows_required fun a ha => by simp [ha]

/-- An instruction that has nothing to do with labels and writes no word of the frame but that of a
variable. -/
theorem grows_instr {i : Instr} (ho : i.operands ⊆ given) (hi : i.Inner r.layout)
    (ha : i.aim? = none) (hs : ∀ o, i.sets? = some o → o ∈ offsets r.words) :
    (instr i).Grows r aims given fun _ => [] := by
  intro s o h
  cases h
  refine ⟨[], .instr ho hi hs (List.Subset.refl _) fun U known _ => ⟨fun m hm => ?_, ?_⟩⟩
  · cases ha.symm.trans hm
  -- an instruction without an aim is followed by the next one
  · cases i <;> first | exact Set.subset_union_left | cases ha

/-- An instruction that writes no word of the frame at all. -/
theorem grows_quiet {i : Instr} (ho : i.operands ⊆ given) (hi : i.Inner r.layout)
    (ha : i.aim? = none) (hs : i.sets? = none) : (instr i).Grows r aims given fun _ => [] := by
  refine grows_instr ho hi ha fun o h => ?_
  cases hs.symm.trans h

/-- A jump to a label where control needs nothing that is not at hand. -/
theorem grows_jump {i : Instr} {l : Label} (ht : i.target? = some l) (ho : i.operands ⊆ given)
    (hm : (l, S) ∈ aims) (hS : S ⊆ given) : (instr i).Grows r aims given fun _ => [] :=
  fun s o h => by
    cases h
    have hjump : (∃ t, i = .jumpIfZero t l) ∨ i = .jump l := by
      cases i <;> cases ht
      · exact .inr rfl
      · exact .inl ⟨_, rfl⟩
    -- where the label stands, its locations are known to be written, and they are given here
    have asked : ∀ U (known : Label → Option (Set Int)), aims.Known known U →
        ∃ S, known l = some S ∧ S ⊆ offsets given ∪ U := fun U known ha =>
      ⟨_, ha _ hm, Set.union_subset_union_left _ (Code.offsets_mono hS)⟩
    refine ⟨[], ?_⟩
    rcases hjump with ⟨t, rfl⟩ | rfl
    all_goals
      refine .instr ho trivial nofun (List.Subset.refl _) fun U known ha => ⟨fun m hm => ?_, ?_⟩
      · cases hm
        exact asked U known ha
      · exact Set.subset_union_left

/-- Where a label stands, control has its locations at hand, and no more. -/
theorem steers_label {l : Label} (hm : (l, S) ∈ aims) (hS : S ⊆ given) :
    (instr (.label l)).Steers r aims given (fun _ => S) [] := by
  intro s o h
  cases h
  refine ⟨[], .instr (List.nil_subset _) trivial nofun hS fun U known ha => ⟨fun m h => ?_, ?_⟩⟩
  · cases h
    exact ⟨_, ha _ hm, Set.union_subset_union_left _ (Code.offsets_mono hS)⟩
  · show _ ⊆ (known l).getD ∅
    rw [show known l = some (offsets S ∪ U) from ha _ hm]
    exact Set.Subset.refl _

/-- A label is handed out, with what control shall have at hand where it stands. -/
theorem steers_newLabel {k : Label → Emit β} (S : List Location)
    (hk : ∀ l, (k l).Steers r ((l, S) :: aims) given held vs) :
    (newLabel >>= k).Steers r aims given held vs := by
  intro s o ho
  rw [bind_silent (k := k) (m := newLabel) rfl] at ho
  obtain ⟨ts, h⟩ := hk _ _ o ho
  exact ⟨ts, .newLabel S h⟩

/-- A temporary is handed out, and the next instruction writes it. -/
theorem grows_temp {i : Location → Instr} {k : Location → Emit β}
    (hd : ∀ d, (i d).result? = some d) (hx : ∀ d, (i d).sources ⊆ given)
    (hi : ∀ d, (i d).Inner r.layout) (hk : ∀ d, (k d).Grows r aims (d :: given) held) :
    (temp >>= fun d => instr (i d) >>= fun _ => k d).Grows r aims given held := by
  intro s o ho
  rw [bind_silent (m := temp) rfl] at ho
  obtain ⟨a, ha, b, hb, rfl⟩ := bind_run_ok.mp ho
  cases ha
  obtain ⟨ts, h⟩ := hk _ _ b hb
  -- what the rest holds, it holds with the temporary left out as well
  refine ⟨_, .temp (hd _) (hx _) (hi _) (h.weaken (List.Subset.refl _) (List.Subset.refl _) ?_)⟩
  intro x hx
  refine List.mem_map_of_mem ((List.mem_append.mp hx).elim (List.mem_append_left _) fun hx => ?_)
  exact List.mem_append_right _ (List.mem_cons_of_mem _ hx)

/-- So is a temporary for the result of a call that has one. -/
theorem grows_resultSlot {i : Option Location → Instr} {k : Option Location → Emit β} {b : Bool}
    (hd : ∀ d, (i d).result? = d) (hx : ∀ d, (i d).sources ⊆ given)
    (hi : ∀ d, (i d).Inner r.layout) (ha : (i none).aim? = none)
    (hk : ∀ d, (k d).Grows r aims (d.toList ++ given) held) :
    (resultSlot b >>= fun d => instr (i d) >>= fun _ => k d).Grows r aims given held := by
  intro s o ho
  cases b with
  | false =>
    rw [bind_silent (m := resultSlot false) rfl] at ho
    -- a call without a result writes no word of the frame
    have hops : (i none).operands ⊆ given := by
      refine List.Subset.trans (Code.Instr.operands_subset _) ?_
      rw [hd none]
      exact hx none
    have hsets : ∀ o, (i none).sets? = some o → o ∈ offsets r.words := fun o ho => by
      unfold Code.Instr.sets? at ho
      rw [hd none] at ho
      cases ho
    exact (grows_instr hops (hi none) ha hsets).bind (fun _ => hk none) s o ho
  -- one with a result writes the word that was handed out for it
  | true =>
    rw [bind_silent (m := resultSlot true) rfl] at ho
    refine grows_temp (i := fun d => i (some d)) (k := fun d => k (some d)) (fun d => hd (some d))
      (fun d => hx (some d)) (fun d => hi (some d)) (fun d => hk (some d)) s o ?_
    rw [bind_silent (m := temp) rfl]
    exact ho

/-! ## 4. Values and calls -/

/-- One instruction that writes a temporary of its own. -/
theorem grows_toTemp {i : Location → Instr} (hd : ∀ d, (i d).result? = some d)
    (hx : ∀ d, (i d).sources ⊆ given) (hi : ∀ d, (i d).Inner r.layout) :
    (toTemp i).Grows r aims given fun d => [d] :=
  grows_temp hd hx hi fun _ => grows_done (by simp)

/-- A constant reads nothing. -/
theorem grows_constant (v : Int32) : (constant v).Grows r aims given fun d => [d] :=
  grows_toTemp (fun _ => rfl) (fun _ => List.nil_subset _) fun _ => trivial

/-- A text reads nothing. -/
theorem grows_string (v : String) : (string v).Grows r aims given fun d => [d] :=
  grows_toTemp (fun _ => rfl) (fun _ => List.nil_subset _) fun _ => trivial

/-- The address of a table reads nothing; the class has to be laid out. -/
theorem grows_address {c : String} (h : (r.layout.class? c).isSome = true) :
    (address c).Grows r aims given fun d => [d] :=
  grows_toTemp (fun _ => rfl) (fun _ => List.nil_subset _) fun _ => h

/-- A word behind an address reads the address. -/
theorem grows_load {o : Int} (h : x ∈ given) : (load x o).Grows r aims given fun d => [d] :=
  grows_toTemp (fun _ => rfl) (fun _ => given_one h) fun _ => trivial

/-- An operator reads its two operands. -/
theorem grows_op {o : Op} (hx : x ∈ given) (hy : y ∈ given) :
    (op o x y).Grows r aims given fun d => [d] := by
  have hread : [x, y] ⊆ given := List.cons_subset.mpr ⟨hx, given_one hy⟩
  exact grows_toTemp (fun _ => rfl) (fun _ => hread) fun _ => trivial

/-- Arguments are pushed one by one, and leave nothing in the frame. -/
theorem grows_pushAll {ps : List Location} (h : ps ⊆ given) :
    (pushAll ps).Grows r aims given fun _ => [] := by
  induction ps with
  | nil => exact grows_nothing
  | cons p ps ih =>
    obtain ⟨hp, hps⟩ := List.cons_subset.mp h
    refine (grows_quiet (given_one hp) (by trivial) rfl rfl).bind fun _ => ?_
    exact ih hps

/-- To take arguments back touches no word of the frame. -/
theorem grows_pop (n : Int) : (pop n).Grows r aims given fun _ => [] := by
  unfold pop
  split
  · exact grows_quiet (List.nil_subset _) trivial rfl rfl
  · exact grows_nothing

/-- A call writes the word of its result, if it has one. -/
theorem grows_call (lab : Label) (b : Bool) : (call lab b).Grows r aims given Option.toList := by
  refine grows_resultSlot (fun _ => rfl) (fun _ => List.nil_subset _) (fun _ => trivial) rfl
    fun result => ?_
  exact grows_done (by simp)

/-- So does a call through an address, which it reads. -/
theorem grows_callVia (b : Bool) (h : x ∈ given) :
    (callVia x b).Grows r aims given Option.toList := by
  refine grows_resultSlot (fun _ => rfl) (fun _ => given_one h) (fun _ => trivial) rfl
    fun result => ?_
  exact grows_done (by simp)

/-- To push arguments hands out nothing. -/
theorem pushAll_run (ps : List Location) (s : Supply) :
    pushAll ps s = .ok ⟨(), ps.map .push, s⟩ := by
  induction ps with
  | nil => rfl
  | cons p ps ih => exact bind_run_ok.mpr ⟨_, rfl, _, ih, rfl⟩

/-- It does not matter that the result has its word before the arguments are pushed. -/
theorem resultSlot_pushAll (b : Bool) (ps : List Location) (k : Option Location → Emit β) :
    (resultSlot b >>= fun d => pushAll ps >>= fun _ => k d) =
      pushAll ps >>= fun _ => resultSlot b >>= k := by
  funext s
  obtain ⟨d, t, hd⟩ : ∃ d t, resultSlot b s = .ok ⟨d, [], t⟩ := by cases b <;> exact ⟨_, _, rfl⟩
  rw [bind_silent hd]
  show andThen (pushAll ps) _ t = andThen (pushAll ps) _ s
  unfold andThen
  rw [pushAll_run, pushAll_run]
  dsimp only
  rw [bind_silent hd]

/-- A call of the runtime reads its arguments, and writes the word of its result if it has one. -/
theorem grows_builtin {b : Builtin} {args : List Location} (h : args ⊆ given) :
    (builtin b args).Grows r aims given Option.toList := by
  unfold builtin
  split
  · exact grows_refuse
  · -- the word of the result has to be handed out just before the call that writes it
    rw [resultSlot_pushAll]
    refine (grows_pushAll fun y hy => h (List.mem_reverse.mp hy)).bind fun _ => ?_
    refine grows_resultSlot (i := .call b.label) (fun _ => rfl) (fun _ => List.nil_subset _)
      (fun _ => trivial) rfl fun result => ?_
    refine (grows_pop _).bind fun _ => ?_
    exact grows_done (by simp)

/-- To end the program with a message needs nothing. -/
theorem grows_abort (t : String) : (abort t).Grows r aims given fun _ => [] := by
  refine (grows_string t).bind fun text => ?_
  refine (grows_builtin (by simp)).bind fun _ => ?_
  refine (grows_builtin (List.nil_subset _)).bind fun _ => ?_
  exact grows_nothing

end Code.Emit

section

variable {r : Surroundings} {aims : Aims} {given : List Location} {x y : Location}

/-- What lies at a place is read from the location that the place is told by. -/
theorem Target.grows_load {t : Target} (h : t.location ∈ given) :
    t.load.Grows r aims given fun d => [d] := by
  cases t with
  | word w => exact grows_done (given_one h)
  | behind p o => exact Code.Emit.grows_load h

/-- To store at a place touches its location and the value. Only the word of a variable is written
in the frame. -/
theorem Target.grows_store {t : Target} (ht : t.Owned r.words) (h : t.location ∈ given)
    (hx : x ∈ given) : (t.store x).Grows r aims given fun _ => [] := by
  have htouched : [t.location, x] ⊆ given := List.cons_subset.mpr ⟨h, given_one hx⟩
  cases t with
  | word w => exact grows_instr htouched trivial rfl ht
  | behind p o => exact grows_quiet htouched trivial rfl rfl

namespace Lowering

-- The steps below are gone through in the order in which they are written. What a step reads is
-- given, or held by a step before it.

/-- A function of the runtime that gives a value. -/
theorem grows_builtinValue {b : Builtin} {args : List Location} (h : args ⊆ given) :
    (builtinValue b args).Grows r aims given fun d => [d] := by
  refine (grows_builtin h).bind fun result => ?_
  exact grows_required fun a ha => by simp [ha]

/-- Behind the message control has at hand what it had in front of the test. -/
theorem grows_haltUnlessZero (m : String) (h : x ∈ given) :
    (haltUnlessZero x m).Grows r aims given fun _ => [] := by
  refine steers_newLabel given fun ok => ?_
  refine (grows_jump rfl (given_one h) List.mem_cons_self (List.Subset.refl _)).before fun _ => ?_
  refine (grows_abort m).before fun _ => ?_
  exact steers_label List.mem_cons_self (List.Subset.refl _)

/-- The check of an index reads the array and the index. -/
theorem grows_checkIndex (hx : x ∈ given) (hy : y ∈ given) :
    (checkIndex x y).Grows r aims given fun _ => [] := by
  unfold checkIndex
  refine (grows_constant 0).bind fun zero => ?_
  refine (grows_op (by simp [hy]) (by simp)).bind fun negative => ?_
  refine (grows_load (by simp [hx])).bind fun length => ?_
  refine (grows_op (by simp [hy]) (by simp)).bind fun below => ?_
  refine (grows_op (by simp) (by simp)).bind fun pastEnd => ?_
  refine (grows_op (by simp) (by simp)).bind fun invalid => ?_
  exact grows_haltUnlessZero _ (by simp)

/-- The place of an element is told by the temporary that holds its address. -/
theorem grows_elementTarget (hx : x ∈ given) (hy : y ∈ given) :
    (elementTarget x y).Grows r aims given fun t => [t.location] := by
  unfold elementTarget
  refine (grows_checkIndex hx hy).bind fun _ => ?_
  refine (grows_constant _).bind fun word => ?_
  refine (grows_op (by simp [hy]) (by simp)).bind fun scaled => ?_
  refine (grows_op (by simp) (by simp)).bind fun offset => ?_
  refine (grows_op (by simp [hx]) (by simp)).bind fun pointer => ?_
  exact grows_done (by simp [Target.location])

/-- A new array reads its length. -/
theorem grows_allocArray (h : x ∈ given) : (allocArray x).Grows r aims given fun d => [d] := by
  unfold allocArray
  refine (grows_constant 1).bind fun one => ?_
  refine (grows_op (by simp [h]) (by simp)).bind fun tooSmall => ?_
  refine (grows_haltUnlessZero _ (by simp)).bind fun _ => ?_
  refine (grows_op (by simp [h]) (by simp)).bind fun words => ?_
  refine (grows_constant _).bind fun word => ?_
  refine (grows_op (by simp) (by simp)).bind fun bytes => ?_
  refine (grows_builtinValue (by simp)).bind fun array => ?_
  -- the length goes to the array and not to the frame
  refine (grows_quiet (by simp [h, Code.Instr.operands]) (by trivial) rfl rfl).bind fun _ => ?_
  exact grows_done (by simp)

/-- A new object reads nothing. -/
theorem grows_allocObject (i : Ident) :
    (allocObject r i).Grows r aims given fun d => [d] := by
  unfold allocObject
  refine steers_given fun o ho => ?_
  have hclass : (r.layout.class? i.name).isSome = true := by
    rw [ho]
    rfl
  refine (grows_constant _).bind fun size => ?_
  refine (grows_builtinValue (by simp)).bind fun object => ?_
  refine (grows_address hclass).bind fun table => ?_
  refine (grows_quiet (by simp [Code.Instr.operands]) (by trivial) rfl rfl).bind fun _ => ?_
  exact grows_done (by simp)

/-- A call of a method reads the receiver and the arguments. -/
theorem grows_callMethod {slot : Nat} {args : List Location} (b : Bool) (hx : x ∈ given)
    (h : args ⊆ given) : (callMethod x slot args b).Grows r aims given Option.toList := by
  unfold callMethod
  refine (grows_load hx).bind fun table => ?_
  refine (grows_load (by simp)).bind fun addr => ?_
  refine (grows_pushAll fun z hz => by simp [h (List.mem_reverse.mp hz)]).bind fun _ => ?_
  refine (grows_quiet (by simp [hx, Code.Instr.operands]) (by trivial) rfl rfl).bind fun _ => ?_
  refine (grows_callVia b (by simp)).bind fun result => ?_
  refine (grows_pop _).bind fun _ => ?_
  exact grows_done (by simp)

/-- A call of a function reads the arguments. -/
theorem grows_callFunction (n : String) {args : List Location} (b : Bool) (h : args ⊆ given) :
    (callFunction n args b).Grows r aims given Option.toList := by
  unfold callFunction
  refine (grows_pushAll fun z hz => h (List.mem_reverse.mp hz)).bind fun _ => ?_
  refine (grows_call _ b).bind fun result => ?_
  refine (grows_pop _).bind fun _ => ?_
  exact grows_done (by simp)

/-- The test for calls through an interface writes nothing. -/
theorem grows_noInterfaceCall (n : Node) (t : Ty) (i : Ident) :
    (noInterfaceCall r n t i).Grows r aims given fun _ => [] := by
  unfold noInterfaceCall
  split
  · split
    · exact grows_nothing
    · exact grows_refuse
  · exact grows_nothing

/-- An operator between two operands reads both. -/
theorem grows_binaryOp (op : BinaryOp) (strings : Bool) (hx : x ∈ given) (hy : y ∈ given) :
    (binaryOp op strings x y).Grows r aims given fun d => [d] := by
  unfold binaryOp
  have hxy : [x, y] ⊆ given := List.cons_subset.mpr ⟨hx, given_one hy⟩
  split
  · exact grows_builtinValue hxy
  · refine (grows_builtinValue hxy).bind fun equal => ?_
    refine (grows_constant 0).bind fun zero => ?_
    exact grows_op (by simp) (by simp)
  · exact grows_op hx hy

/-- An operator in front of an operand reads it. -/
theorem grows_unaryOp (op : UnaryOp) (h : x ∈ given) :
    (unaryOp op x).Grows r aims given fun d => [d] := by
  refine (grows_constant 0).bind fun zero => ?_
  cases op with
  | neg => exact grows_op (by simp) (by simp [h])
  | not => exact grows_op (by simp) (by simp [h])

/-- A step keeps the value from before in a temporary of its own. -/
theorem grows_stepTarget (op : StepOp) {t : Target} (ht : t.Owned r.words)
    (h : t.location ∈ given) : (stepTarget op t).Grows r aims given fun d => [d] := by
  unfold stepTarget
  refine (t.grows_load h).bind fun current => ?_
  refine grows_temp (fun _ => rfl) (fun _ => by simp [Code.Instr.sources]) (fun _ => trivial)
    fun before => ?_
  refine (grows_constant 1).bind fun one => ?_
  refine (grows_op (by simp) (by simp)).bind fun updated => ?_
  refine (t.grows_store ht (by simp [h]) (by simp)).bind fun _ => ?_
  exact grows_done (by simp)

end Lowering

/-! ## 5. Expressions -/

/-- To refuse floating point numbers changes nothing about the steps that go on. -/
theorem Surroundings.grows_noDouble {α : Type} {m : Emit α} {held : α → List Location} (n : Node)
    (h : m.Grows r aims given held) : (r.noDouble n m).Grows r aims given held := by
  intro s o ho
  exact h s o (noDouble_ok ho)

/-- The steps of an expression, with the value that they leave. -/
theorem Surroundings.grows_value {m : Emit Location} (n : Node)
    (h : m.Grows r aims given fun x => [x]) :
    (r.noDouble n do return some (← m)).Grows r aims given Option.toList := by
  refine r.grows_noDouble n ?_
  refine h.bind fun value => ?_
  exact grows_done (by simp)

/-- The object at hand is one of the words of the surroundings. -/
theorem Surroundings.grows_thisLocation (h : r.words ⊆ given) :
    r.thisLocation.Grows r aims given fun x => [x] :=
  grows_required fun _ ha => given_one (h (this_mem ha))

/-- To look up the offset of a field writes nothing. -/
theorem Surroundings.grows_fieldOffset (i : Ident) :
    (r.fieldOffset i).Grows r aims given fun _ => [] := by
  refine steers_given fun v hv => ?_
  exact grows_required fun _ _ => List.nil_subset _

/-- What a name stands for is told by its slot, or by the object at hand. -/
theorem Target.grows_ofName (h : r.words ⊆ given) (i : Ident) :
    (Target.ofName r i).Grows r aims given fun t => [t.location] := by
  unfold ofName
  refine steers_given fun v hv => ?_
  cases hs : r.slot? v.id with
  | some w => exact grows_done (given_one (h (Surroundings.slot_mem hs)))
  | none =>
    -- a field of the object at hand counts from where the object lies
    refine (Surroundings.grows_fieldOffset i).bind fun o => ?_
    refine (Surroundings.grows_thisLocation h).bind fun t => grows_silent fun x hx => ?_
    obtain rfl := List.mem_singleton.mp hx
    exact List.mem_map.mpr ⟨t, List.mem_cons_self, rfl⟩

/-- A field behind a base is told by the word that holds the base. -/
theorem Target.grows_ofField (h : x ∈ given) (i : Ident) :
    (Target.ofField r i x).Grows r aims given fun t => [t.location] := by
  refine (Surroundings.grows_fieldOffset i).bind fun o => ?_
  exact grows_done (given_one (List.mem_append_right _ h))

/-- **What is assigned to takes no word of a temporary.** -/
theorem Expr.target_owned (e : Expr) : (e.target r).Ends (Target.Owned r.words) := by
  cases e with
  | name _ i =>
    unfold Expr.target Target.ofName
    refine .bind fun v => ?_
    cases hs : r.slot? v.id with
    | some w =>
      exact .done fun o ho => ⟨w, Surroundings.slot_mem hs, Code.Location.root_of_frame? ho⟩
    | none => exact .bind fun _ => .bind fun _ => .done nofun
  | field _ x i =>
    unfold Expr.target Target.ofField
    refine .bind fun _ => ?_
    refine .bind fun _ => ?_
    exact .done trivial
  | index _ x y =>
    unfold Expr.target elementTarget
    refine .bind fun _ => ?_
    refine .bind fun _ => ?_
    refine .bind fun _ => ?_
    refine .bind fun _ => ?_
    refine .bind fun _ => ?_
    refine .bind fun _ => ?_
    refine .bind fun _ => ?_
    exact .done trivial
  | _ =>
    unfold Expr.target
    exact fun _ _ h => by cases h

mutual

-- By induction on the expression. Operands are evaluated one after the other, and what the first
-- ones hold is still at hand behind the later ones; so the words of the surroundings stay given.

/-- **The code of an expression writes its temporaries before it reads them**, and may jump to the
labels that it places itself. -/
theorem Expr.eval_grows : ∀ (e : Expr) {given : List Location}, r.words ⊆ given →
    (e.eval r).Grows r aims given Option.toList
  | .int n v, _, _ => by
    unfold Expr.eval
    exact r.grows_value n (grows_constant v)
  | .bool n v, _, _ => by
    unfold Expr.eval
    exact r.grows_value n (grows_constant _)
  | .null n, _, _ => by
    unfold Expr.eval
    exact r.grows_value n (grows_constant 0)
  | .string n v, _, _ => by
    unfold Expr.eval
    exact r.grows_value n (grows_string v)
  | .double n, _, _ => by
    unfold Expr.eval
    exact grows_refuse
  | .readInteger n, _, _ => by
    unfold Expr.eval
    exact r.grows_value n (grows_builtinValue (List.nil_subset _))
  | .readLine n, _, _ => by
    unfold Expr.eval
    exact r.grows_value n (grows_builtinValue (List.nil_subset _))
  | .this n, _, h => by
    unfold Expr.eval
    exact r.grows_value n (r.grows_thisLocation h)
  | .binary n op x y, _, h => by
    unfold Expr.eval
    refine r.grows_noDouble n ?_
    refine (x.eval_grows h).needed.bind fun left => ?_
    refine (y.eval_grows (List.subset_append_of_subset_right _ h)).needed.bind fun right => ?_
    refine (grows_binaryOp _ _ (by simp) (by simp)).bind fun value => ?_
    exact grows_done (by simp)
  | .unary n op x, _, h => by
    unfold Expr.eval
    refine r.grows_noDouble n ?_
    refine (x.eval_grows h).needed.bind fun operand => ?_
    refine (grows_unaryOp _ (by simp)).bind fun value => ?_
    exact grows_done (by simp)
  | .step n op x, _, h => by
    unfold Expr.eval
    refine r.grows_noDouble n ?_
    refine (x.target_grows h).bind_of x.target_owned fun place howned => ?_
    refine (grows_stepTarget _ howned (by simp)).bind fun before => ?_
    exact grows_done (by simp)
  | .assign n x y, _, h => by
    unfold Expr.eval
    refine r.grows_noDouble n ?_
    refine (x.target_grows h).bind_of x.target_owned fun place howned => ?_
    refine (y.eval_grows (List.subset_append_of_subset_right _ h)).needed.bind fun value => ?_
    refine (place.grows_store howned (by simp) (by simp)).bind fun _ => ?_
    exact grows_done (by simp)
  | .index n x y, _, h => by
    unfold Expr.eval
    refine r.grows_noDouble n ?_
    refine (x.eval_grows h).needed.bind fun array => ?_
    refine (y.eval_grows (List.subset_append_of_subset_right _ h)).needed.bind fun index => ?_
    refine (grows_elementTarget (by simp) (by simp)).bind fun place => ?_
    refine (place.grows_load (by simp)).bind fun value => ?_
    exact grows_done (by simp)
  | .name n i, _, h => by
    unfold Expr.eval
    refine r.grows_noDouble n ?_
    refine (Target.grows_ofName h i).bind fun place => ?_
    refine (place.grows_load (by simp)).bind fun value => ?_
    exact grows_done (by simp)
  | .field n x i, _, h => by
    unfold Expr.eval
    refine r.grows_noDouble n ?_
    refine (x.eval_grows h).needed.bind fun base => ?_
    refine (Target.grows_ofField (by simp) i).bind fun place => ?_
    refine (place.grows_load (by simp)).bind fun value => ?_
    exact grows_done (by simp)
  | .new n i, _, _ => by
    unfold Expr.eval
    exact r.grows_value n (grows_allocObject i)
  | .newArray n x t, _, h => by
    unfold Expr.eval
    refine r.grows_noDouble n ?_
    refine (x.eval_grows h).needed.bind fun length => ?_
    refine (grows_allocArray (by simp)).bind fun array => ?_
    exact grows_done (by simp)
  | .call n i args, _, h => by
    unfold Expr.eval
    refine r.grows_noDouble n (steers_given fun g _ => ?_)
    cases r.layout.methodSlot? g.id with
    | some slot =>
      refine (r.grows_thisLocation h).bind fun this => ?_
      refine (Expr.eval_all_grows args (List.subset_append_of_subset_right _ h)).bind
        fun values => ?_
      exact grows_callMethod _ (by simp) (List.subset_append_left _ _)
    | none =>
      refine (Expr.eval_all_grows args h).bind fun values => ?_
      exact grows_callFunction _ _ (List.subset_append_left _ _)
  | .send n x i args, _, h => by
    unfold Expr.eval
    refine r.grows_noDouble n ?_
    split
    · -- the length of an array is its first word
      refine (x.eval_grows h).needed.bind fun array => ?_
      refine (grows_load (by simp)).bind fun length => ?_
      exact grows_done (by simp)
    · refine steers_given fun g _ => ?_
      refine (grows_noInterfaceCall n _ i).bind fun _ => ?_
      refine (x.eval_grows h).needed.bind fun receiver => ?_
      refine (Expr.eval_all_grows args (List.subset_append_of_subset_right _ h)).bind
        fun values => ?_
      refine steers_given fun slot _ => ?_
      exact grows_callMethod _ (by simp) (List.subset_append_left _ _)

/-- So does the code of what is assigned to. -/
theorem Expr.target_grows : ∀ (e : Expr) {given : List Location}, r.words ⊆ given →
    (e.target r).Grows r aims given fun t => [t.location]
  | .name _ i, _, h => by
    unfold Expr.target
    exact Target.grows_ofName h i
  | .field _ x i, _, h => by
    unfold Expr.target
    refine (x.eval_grows h).needed.bind fun base => ?_
    exact Target.grows_ofField (by simp) i
  | .index _ x y, _, h => by
    unfold Expr.target
    refine (x.eval_grows h).needed.bind fun array => ?_
    refine (y.eval_grows (List.subset_append_of_subset_right _ h)).needed.bind fun index => ?_
    exact grows_elementTarget (by simp) (by simp)
  | .int _ _, _, _ | .bool _ _, _, _ | .null _, _, _ | .string _ _, _, _ | .double _, _, _
  | .readInteger _, _, _ | .readLine _, _, _ | .this _, _, _ | .binary _ _ _ _, _, _
  | .unary _ _ _, _, _ | .step _ _ _, _, _ | .assign _ _ _, _, _ | .new _ _, _, _
  | .newArray _ _ _, _, _ | .call _ _ _, _, _ | .send _ _ _ _, _, _ => by
    unfold Expr.target
    exact grows_refuse

/-- So does the code of several expressions, which holds all their values. -/
theorem Expr.eval_all_grows : ∀ (es : List Expr) {given : List Location}, r.words ⊆ given →
    (Expr.evalAll r es).Grows r aims given fun xs => xs
  | [], _, _ => by
    unfold Expr.evalAll
    exact grows_done (List.nil_subset _)
  | e :: es, _, h => by
    unfold Expr.evalAll
    refine (e.eval_grows h).needed.bind fun value => ?_
    refine (Expr.eval_all_grows es (List.subset_append_of_subset_right _ h)).bind fun values => ?_
    exact grows_done (by simp)

end

/-- **The code of an expression touches what is at hand, and its own temporaries.** -/
theorem Expr.eval_uses (e : Expr) (h : r.words ⊆ given) :
    (e.eval r).Uses r.layout given Option.toList := by
  have hgrows : (e.eval r).Grows r [] given Option.toList := e.eval_grows h
  exact hgrows.uses

end

end DecafLang
