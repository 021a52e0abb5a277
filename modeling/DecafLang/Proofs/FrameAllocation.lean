import DecafLang.Proofs.Pieces
import DecafLang.Proofs.Spelling

/-!
# Allocation in a frame

Who has the words below the frame pointer.

* A local or a temporary that gets a word is a tenant. Tenants move in one behind the other, so a
  position says whose the word is (`Tenant.words`).
* `Tenancy` is the account of code that was written: **all words that it touches were given to the
  steps that wrote it, or belong to tenants who moved in meanwhile.** The temporaries among them
  are used, and the variables are those of the blocks.
* Accounts compose along steps in a row (`Tenancy.append`), so that of an expression follows from
  those of its parts (`Emit.Uses`).
-/

namespace DecafLang

open Code (Emit Instr Location Supply)

/-! ## 1. Words that code touches -/

namespace Code

/-- The location that the others count from in the end. -/
def Location.root : Location → Location
  | .direct s o n => .direct s o n
  | .based b _ _ => b.root

/-- The locations that code reads or writes. -/
def touched (code : List Instr) : List Location := code.flatMap Instr.operands

theorem touched_append (a b : List Instr) : touched (a ++ b) = touched a ++ touched b :=
  List.flatMap_append

/-- The instruction may stand inside a function: it takes no addresses but those of tables of
classes that are laid out. -/
def Instr.Inner (l : Layout) : Instr → Prop
  | .enter _ => False
  | .leave => False
  | .table _ _ => False
  | .addr _ c => (l.class? c).isSome = true
  | _ => True

end Code

open Code (touched)
open Code.Supply (localOffset paramOffset tempName)

/-! ## 2. Tenants -/

/-- Who has a word of a frame. -/
inductive Tenant where
  /-- The object whose method it is. -/
  | this
  | var (v : VarDecl)
  | temp (n : Nat)

namespace Tenant

/-- The name of the word. -/
def name : Tenant → String
  | this => "this"
  | var v => v.name
  | temp n => tempName n

/-- The variable, if the tenant is one. -/
def var? : Tenant → Option VarDecl
  | var v => some v
  | _ => none

/-- The number, if the tenant is a temporary. -/
def temp? : Tenant → Option Nat
  | temp n => some n
  | _ => none

/-- The word at a position below the frame pointer. -/
def belowAt (t : Tenant) (i : Nat) : Location := .frame (localOffset i) t.name

/-- The word at a position above the frame pointer. -/
def aboveAt (t : Tenant) (i : Nat) : Location := .frame (paramOffset i) t.name

/-- The words of tenants who move in from a position on. -/
def words (a : Nat) : List Tenant → List Location
  | [] => []
  | t :: ts => t.belowAt a :: words (a + 1) ts

/-- The variables among tenants. -/
def vars (ts : List Tenant) : List VarDecl := ts.filterMap var?

/-- The numbers of the temporaries among tenants. -/
def temps (ts : List Tenant) : List Nat := ts.filterMap temp?

variable {a : Nat} {ts ts' : List Tenant}

theorem words_append : words a (ts ++ ts') = words a ts ++ words (a + ts.length) ts' := by
  induction ts generalizing a with
  | nil => rfl
  | cons t ts ih =>
    have e : a + 1 + ts.length = a + (t :: ts).length := by
      rw [List.length_cons]
      omega
    show t.belowAt a :: words (a + 1) (ts ++ ts') = _
    rw [ih, e]
    rfl

theorem mem_words {x : Location} :
    x ∈ words a ts ↔ ∃ i, ∃ t : Tenant, ts[i]? = some t ∧ x = t.belowAt (a + i) := by
  induction ts generalizing a with
  | nil => simp [words]
  | cons t ts ih =>
    refine List.mem_cons.trans ⟨fun h => ?_, fun ⟨i, u, hi, e⟩ => ?_⟩
    · rcases h with rfl | h
      · exact ⟨0, t, rfl, rfl⟩
      · obtain ⟨i, u, hi, rfl⟩ := ih.mp h
        exact ⟨i + 1, u, hi, by rw [Nat.add_right_comm, Nat.add_assoc]⟩
    · cases i with
      | zero =>
        obtain rfl := Option.some.inj hi
        exact .inl e
      | succ i => exact .inr (ih.mpr ⟨i, u, hi, by rw [e, Nat.add_right_comm, Nat.add_assoc]⟩)

theorem vars_append : vars (ts ++ ts') = vars ts ++ vars ts' := List.filterMap_append

theorem vars_map_var (vs : List VarDecl) : vars (vs.map var) = vs := by
  induction vs with
  | nil => rfl
  | cons v vs ih => exact congrArg (v :: ·) ih

theorem temps_map_var (vs : List VarDecl) : temps (vs.map var) = [] := by
  induction vs with
  | nil => rfl
  | cons v vs ih => exact ih

/-- Below the frame pointer lie variables and temporaries. -/
theorem length_eq (h : this ∉ ts) : ts.length = (vars ts).length + (temps ts).length := by
  induction ts with
  | nil => rfl
  | cons t ts ih =>
    obtain ⟨ht, h⟩ := not_or.mp (mt List.mem_cons.mpr h)
    have ih := ih h
    cases t with
    | this => exact absurd rfl ht
    | var v =>
      show ts.length + 1 = (vars ts).length + 1 + (temps ts).length
      omega
    | temp n =>
      show ts.length + 1 = (vars ts).length + ((temps ts).length + 1)
      omega

theorem mem_vars {v : VarDecl} : v ∈ vars ts ↔ var v ∈ ts := by
  refine List.mem_filterMap.trans ⟨fun ⟨t, ht, e⟩ => ?_, fun h => ⟨_, h, rfl⟩⟩
  cases t with
  | var u =>
    obtain rfl := Option.some.inj e
    exact ht
  | _ => cases e

theorem mem_temps {n : Nat} : n ∈ temps ts ↔ temp n ∈ ts := by
  refine List.mem_filterMap.trans ⟨fun ⟨t, ht, e⟩ => ?_, fun h => ⟨_, h, rfl⟩⟩
  cases t with
  | temp k =>
    obtain rfl := Option.some.inj e
    exact ht
  | _ => cases e

/-- Tenants are different if the variables are, and the temporaries. -/
theorem nodup (h : this ∉ ts) (hv : (vars ts).Nodup) (ht : (temps ts).Nodup) : ts.Nodup := by
  induction ts with
  | nil => exact .nil
  | cons t ts ih =>
    obtain ⟨hne, hts⟩ := not_or.mp (mt List.mem_cons.mpr h)
    cases t with
    | this => exact absurd rfl hne
    | var v =>
      obtain ⟨hm, hv⟩ := List.nodup_cons.mp (show (v :: vars ts).Nodup from hv)
      exact List.nodup_cons.mpr ⟨fun h => hm (mem_vars.mpr h), ih hts hv ht⟩
    | temp n =>
      obtain ⟨hm, ht⟩ := List.nodup_cons.mp (show (n :: temps ts).Nodup from ht)
      exact List.nodup_cons.mpr ⟨fun h => hm (mem_temps.mpr h), ih hts hv ht⟩

theorem temps_append : temps (ts ++ ts') = temps ts ++ temps ts' := List.filterMap_append

end Tenant

/-! ## 3. Accounts -/

/-- The account of code that was written from one supply to another by steps that were given some
locations and hold others afterwards. These tenants moved in meanwhile, the variables among them
being those of the list. -/
structure Tenancy (l : Layout) (given : List Location) (s : Supply) (code : List Instr) (t : Supply)
    (held : List Location) (vs : List VarDecl) (ts : List Tenant) : Prop where
  params : t.params = s.params
  locals : t.locals = s.locals + ts.length
  temps_le : s.temps ≤ t.temps
  temps : Fills (Tenant.temps ts) s.temps t.temps
  vars : Tenant.vars ts = vs
  no_this : Tenant.this ∉ ts
  used : ∀ i n, ts[i]? = some (.temp n) → (Tenant.temp n).belowAt (s.locals + i) ∈ touched code
  inner : ∀ i ∈ code, i.Inner l
  reach : ∀ x ∈ touched code ++ held, x.root ∈ given.map Location.root ++ Tenant.words s.locals ts

namespace Tenancy

variable {l : Layout} {given held held' : List Location} {s t u : Supply} {a b : List Instr}
  {vs vs' : List VarDecl} {ts ts' : List Tenant}

/-- Nothing is written, and nobody moves in. -/
theorem silent (h : ∀ x ∈ held, x.root ∈ given.map Location.root) {n : Nat} :
    Tenancy l given s [] { s with labels := n } held [] [] where
  params := rfl
  locals := rfl
  temps_le := Nat.le_refl _
  temps := .nil
  vars := rfl
  no_this := List.not_mem_nil
  used _ _ h := by cases h
  inner := nofun
  reach x hx := List.mem_append_left _ (h x hx)

/-- One instruction that touches what is given. -/
theorem instr {i : Instr} (h : i.operands ⊆ given) (hi : i.Inner l) :
    Tenancy l given s [i] s [] [] [] where
  params := rfl
  locals := rfl
  temps_le := Nat.le_refl _
  temps := .nil
  vars := rfl
  no_this := List.not_mem_nil
  used _ _ h := by cases h
  inner j hj := by
    obtain rfl := List.mem_singleton.mp hj
    exact hi
  reach x hx := by
    have hx : x ∈ i.operands := by simpa [touched] using hx
    exact List.mem_append_left _ (List.mem_map_of_mem (h hx))

/-- What comes next is given what comes first holds. -/
theorem append (h : Tenancy l given s a t held vs ts)
    (h' : Tenancy l (held ++ given) t b u held' vs' ts') :
    Tenancy l given s (a ++ b) u held' (vs ++ vs') (ts ++ ts') where
  params := h'.params.trans h.params
  locals := by rw [h'.locals, h.locals, List.length_append, Nat.add_assoc]
  temps_le := Nat.le_trans h.temps_le h'.temps_le
  temps := by
    rw [Tenant.temps_append]
    exact h.temps.append h'.temps h.temps_le h'.temps_le
  vars := by rw [Tenant.vars_append, h.vars, h'.vars]
  no_this hm := (List.mem_append.mp hm).elim h.no_this h'.no_this
  used i n hi := by
    rw [Code.touched_append, List.mem_append]
    -- The position tells whose tenant it is.
    rcases Nat.lt_or_ge i ts.length with hlt | hge
    · rw [List.getElem?_append_left hlt] at hi
      exact .inl (h.used i n hi)
    · rw [List.getElem?_append_right hge] at hi
      have e : t.locals + (i - ts.length) = s.locals + i := by
        rw [h.locals]
        omega
      exact .inr (e ▸ h'.used _ n hi)
  inner i hi := (List.mem_append.mp hi).elim (h.inner i) (h'.inner i)
  reach x hx := by
    rw [Tenant.words_append, ← List.append_assoc, ← h.locals]
    rw [Code.touched_append, List.append_assoc] at hx
    rcases List.mem_append.mp hx with hx | hx
    · exact List.mem_append_left _ (h.reach x (List.mem_append_left _ hx))
    · rcases List.mem_append.mp (h'.reach x hx) with hx | hx
      · obtain ⟨y, hy, e⟩ := List.mem_map.mp hx
        rw [← e]
        rcases List.mem_append.mp hy with hy | hy
        · exact List.mem_append_left _ (h.reach y (List.mem_append_right _ hy))
        · exact List.mem_append_left _ (List.mem_append_left _ (List.mem_map_of_mem hy))
      · exact List.mem_append_right _ hx

/-- A temporary moves in, and what comes next touches it. -/
theorem temp (h : Tenancy l (.frame (localOffset s.locals) (tempName s.temps) :: given)
      { s with locals := s.locals + 1, temps := s.temps + 1 } b u held vs ts)
    (hu : .frame (localOffset s.locals) (tempName s.temps) ∈ touched b) :
    Tenancy l given s b u held vs (.temp s.temps :: ts) where
  params := h.params
  locals := by
    rw [h.locals, List.length_cons]
    dsimp only
    omega
  temps_le := Nat.le_of_succ_le h.temps_le
  temps := h.temps.cons h.temps_le
  vars := h.vars
  no_this hm := (List.mem_cons.mp hm).elim nofun h.no_this
  used i n hi := by
    -- position 0 is the new temporary, the others are those of the rest
    cases i with
    | zero =>
      obtain rfl := Tenant.temp.inj (Option.some.inj hi)
      exact hu
    | succ i =>
      have e : s.locals + 1 + i = s.locals + (i + 1) := by omega
      exact e ▸ h.used i n hi
  inner := h.inner
  reach x hx := by
    rcases List.mem_append.mp (h.reach x hx) with hx | hx
    · rcases List.mem_cons.mp hx with e | hx
      · rw [e]
        exact List.mem_append_right _ List.mem_cons_self
      · exact List.mem_append_left _ hx
    · exact List.mem_append_right _ (List.mem_cons_of_mem _ hx)

/-- Variables move in, and what comes next is given their words. -/
theorem moveIn {ls : List VarDecl} (h : Tenancy l (Tenant.words s.locals (ls.map .var) ++ given)
      { s with locals := s.locals + ls.length } b u held vs ts) :
    Tenancy l given s b u held (ls ++ vs) (ls.map .var ++ ts) where
  params := h.params
  locals := by
    rw [h.locals, List.length_append, List.length_map]
    exact Nat.add_assoc ..
  temps_le := h.temps_le
  temps := by
    rw [Tenant.temps_append, Tenant.temps_map_var]
    exact h.temps
  vars := by rw [Tenant.vars_append, Tenant.vars_map_var, h.vars]
  no_this hm := (List.mem_append.mp hm).elim (fun hm => by
    obtain ⟨v, -, e⟩ := List.mem_map.mp hm
    cases e) h.no_this
  used i n hi := by
    -- no position among the declared variables holds a temporary
    rcases Nat.lt_or_ge i (ls.map Tenant.var).length with hlt | hge
    · rw [List.getElem?_append_left hlt, List.getElem?_map] at hi
      obtain ⟨v, -, e⟩ := Option.map_eq_some_iff.mp hi
      cases e
    · rw [List.getElem?_append_right hge] at hi
      rw [List.length_map] at hi hge
      have e : s.locals + ls.length + (i - ls.length) = s.locals + i := by omega
      exact e ▸ h.used _ n hi
  inner := h.inner
  reach x hx := by
    rw [Tenant.words_append, List.length_map, ← List.append_assoc]
    rcases List.mem_append.mp (h.reach x hx) with hx | hx
    · refine List.mem_append_left _ ?_
      obtain ⟨y, hy, e⟩ := List.mem_map.mp hx
      rcases List.mem_append.mp hy with hy | hy
      · obtain ⟨i, t, -, rfl⟩ := Tenant.mem_words.mp hy
        exact List.mem_append_right _ (e ▸ hy)
      · exact List.mem_append_left _ (e ▸ List.mem_map_of_mem hy)
    · exact List.mem_append_right _ hx

/-- The frame is as large as the tenants need. -/
theorem frameSize_eq (h : Tenancy l given s a t held vs ts) (hs : s.locals = 0) :
    t.frameSize = 4 * ts.length := by
  unfold Supply.frameSize wordSize
  rw [h.locals, hs, Nat.zero_add]
  exact Int.natCast_mul 4 _

end Tenancy

/-! ## 4. Steps -/

namespace Code.Emit

variable {α : Type}

/-- Steps that are given some locations and hold others afterwards. Only temporaries move in. -/
def Uses (l : Layout) (given : List Location) (m : Emit α) (held : α → List Location) : Prop :=
  ∀ s o, m s = .ok o → ∃ ts, Tenancy l given s o.code o.supply (held o.value) [] ts

end Code.Emit

/-- The location that the place needs. -/
def Target.location : Target → Location
  | .word w => w
  | .behind p _ => p

namespace Surroundings

variable {r : Surroundings}

/-- The locations that are at hand. -/
def words (r : Surroundings) : List Location := r.slots.map Prod.snd ++ r.this.toList

theorem slot_mem {i : NodeId} {x : Location} (h : r.slot? i = some x) : x ∈ r.words :=
  List.mem_append_left _ (List.mem_map.mpr ⟨_, Table.mem_of_find h, rfl⟩)

theorem this_mem {x : Location} (h : r.this = some x) : x ∈ r.words :=
  List.mem_append_right _ (by rw [h]; exact List.mem_cons_self)

end Surroundings

end DecafLang
