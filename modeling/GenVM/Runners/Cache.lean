import Mathlib

/-!
# The shared cache of archives (`executor/src/runners/cache.rs`, `executor/crates/common/src/sync.rs`)

The VMs of a run load their archives through one map of `OnceCell`s, at the same
time. A call finds the cell of its name or makes an empty one; the first call to
get the cell's permit runs its loader, the others wait for the value or for the
permit. A loader may charge the limiter of its call itself, as the one of chain
runners does; a call then charges the size of the archive, before the value is
stored if it loaded it and once it has the value if it did not.

**Results.**
* `local_sound`, `local_frame`: what one step keeps for its call and the others.
* `inv_step`, `inv_reachable`: what holds in every interleaving.
* `calls_as_alone`: every call ends as it would without the cache, but for what
  only a loader is charged.
-/
namespace GenVM.Runners.Cache

/-- What a limiter was asked for and what it answered. -/
abbrev Charge := Nat × Bool

variable {Key Archive Err : Type}

/-- A cell of the map; `permit` is set while a call computes the value. -/
structure Cell (Key Archive : Type) where
  name : Key
  value : Option Archive
  permit : Bool

/-- Where a call is. -/
inductive Stage (Archive Err : Type) where
  /-- for the value or the permit -/
  | waiting
  /-- inside the loader -/
  | creating
  /-- the loader returned -/
  | made (a : Archive)
  /-- and the size is charged -/
  | paid (a : Archive)
  /-- the loader failed or the charge was refused -/
  | failed (e : Err)
  /-- the value of another call -/
  | found (a : Archive)
  | done (r : Except Err Archive)
  | cancelled

/-- `called` is the flag of the call, `charges` what its limiter was asked for. -/
structure Call (Key Archive Err : Type) where
  name : Key
  cell : Nat
  called : Bool
  charges : List Charge
  stage : Stage Archive Err

/-- Has the permit of its cell. -/
def Stage.holder : Stage Archive Err → Bool
  | .creating | .made _ | .paid _ | .failed _ => true
  | .waiting | .found _ | .done _ | .cancelled => false

def Stage.ended : Stage Archive Err → Bool
  | .done _ | .cancelled => true
  | _ => false

def Stage.succeeded : Stage Archive Err → Bool
  | .done (.ok _) => true
  | _ => false

/-- The cells in the order they were made, and the one of each name. -/
structure State (Key Archive Err : Type) where
  cells : List (Cell Key Archive)
  map : Key → Option Nat
  calls : Multiset (Call Key Archive Err)

section
variable (size : Archive → Nat) (oom : Err) (Loads : Key → List Charge → Except Err Archive → Prop)
  (Puts : Key → Archive → Prop)

/-- One step of a call on its cell. A loader of `Loads` ends after some charges.
mirrors runners/cache.rs:114-145 and sync.rs:445-466 -/
inductive Local : Cell Key Archive → Call Key Archive Err → Cell Key Archive → Call Key Archive Err → Prop
  | see {cell : Cell Key Archive} {n : Key} {i : Nat} {called : Bool} {cs : List Charge} {a : Archive}
      (h : cell.value = some a) : Local cell ⟨n, i, called, cs, .waiting⟩ cell ⟨n, i, called, cs, .found a⟩
  | acquire {cell : Cell Key Archive} {n : Key} {i : Nat} {called : Bool} {cs : List Charge}
      (h : cell.value = none) (hp : cell.permit = false) :
      Local cell ⟨n, i, called, cs, .waiting⟩ ⟨cell.name, cell.value, true⟩ ⟨n, i, true, cs, .creating⟩
  | charge {cell : Cell Key Archive} {n : Key} {i : Nat} {called : Bool} {cs : List Charge} (c : Charge) :
      Local cell ⟨n, i, called, cs, .creating⟩ cell ⟨n, i, called, cs ++ [c], .creating⟩
  | provide {cell : Cell Key Archive} {n : Key} {i : Nat} {called : Bool} {cs : List Charge} {a : Archive}
      (h : Loads n cs (.ok a)) : Local cell ⟨n, i, called, cs, .creating⟩ cell ⟨n, i, called, cs, .made a⟩
  | fail {cell : Cell Key Archive} {n : Key} {i : Nat} {called : Bool} {cs : List Charge} {e : Err}
      (h : Loads n cs (.error e)) : Local cell ⟨n, i, called, cs, .creating⟩ cell ⟨n, i, called, cs, .failed e⟩
  | pay {cell : Cell Key Archive} {n : Key} {i : Nat} {called : Bool} {cs : List Charge} (a : Archive) :
      Local cell ⟨n, i, called, cs, .made a⟩ cell ⟨n, i, called, cs ++ [(size a, true)], .paid a⟩
  | refuse {cell : Cell Key Archive} {n : Key} {i : Nat} {called : Bool} {cs : List Charge} (a : Archive) :
      Local cell ⟨n, i, called, cs, .made a⟩ cell ⟨n, i, called, cs ++ [(size a, false)], .failed oom⟩
  | store {cell : Cell Key Archive} {n : Key} {i : Nat} {called : Bool} {cs : List Charge} (a : Archive) :
      Local cell ⟨n, i, called, cs, .paid a⟩ ⟨cell.name, some a, false⟩ ⟨n, i, called, cs, .done (.ok a)⟩
  | release {cell : Cell Key Archive} {n : Key} {i : Nat} {called : Bool} {cs : List Charge} (e : Err) :
      Local cell ⟨n, i, called, cs, .failed e⟩ ⟨cell.name, cell.value, false⟩ ⟨n, i, called, cs, .done (.error e)⟩
  | share {cell : Cell Key Archive} {n : Key} {i : Nat} {called : Bool} {cs : List Charge} (a : Archive) :
      Local cell ⟨n, i, called, cs, .found a⟩ cell ⟨n, i, called, cs ++ [(size a, true)], .done (.ok a)⟩
  | deny {cell : Cell Key Archive} {n : Key} {i : Nat} {called : Bool} {cs : List Charge} (a : Archive) :
      Local cell ⟨n, i, called, cs, .found a⟩ cell ⟨n, i, called, cs ++ [(size a, false)], .done (.error oom)⟩

/-- A call is dropped where it waits. -/
inductive Cancel : Cell Key Archive → Call Key Archive Err → Cell Key Archive → Call Key Archive Err → Prop
  | waiting {cell : Cell Key Archive} {n : Key} {i : Nat} {called : Bool} {cs : List Charge} :
      Cancel cell ⟨n, i, called, cs, .waiting⟩ cell ⟨n, i, called, cs, .cancelled⟩
  | creating {cell : Cell Key Archive} {n : Key} {i : Nat} {called : Bool} {cs : List Charge} :
      Cancel cell ⟨n, i, called, cs, .creating⟩ ⟨cell.name, cell.value, false⟩ ⟨n, i, called, cs, .cancelled⟩

/-- A call goes on. -/
inductive Goes (s : State Key Archive Err) : State Key Archive Err → Prop
  | mk {c c' : Call Key Archive Err} {cs : Multiset (Call Key Archive Err)} {cell cell' : Cell Key Archive}
      (hs : s.calls = c ::ₘ cs) (hcell : s.cells[c.cell]? = some cell) (h : Local size oom Loads cell c cell' c') :
      Goes s ⟨s.cells.set c.cell cell', s.map, c' ::ₘ cs⟩

inductive Step [DecidableEq Key] (s : State Key Archive Err) : State Key Archive Err → Prop
  | goes {s' : State Key Archive Err} (h : Goes size oom Loads s s') : Step s s'
  | cancel {c c' : Call Key Archive Err} {cs : Multiset (Call Key Archive Err)} {cell cell' : Cell Key Archive}
      (hs : s.calls = c ::ₘ cs) (hcell : s.cells[c.cell]? = some cell) (h : Cancel cell c cell' c') :
      Step s ⟨s.cells.set c.cell cell', s.map, c' ::ₘ cs⟩
  /-- a call whose name has a cell -/
  | occupied {n : Key} {i : Nat} (h : s.map n = some i) :
      Step s ⟨s.cells, s.map, ⟨n, i, false, [], .waiting⟩ ::ₘ s.calls⟩
  | vacant {n : Key} (h : s.map n = none) :
      Step s ⟨s.cells ++ [⟨n, none, false⟩], Function.update s.map n (some s.cells.length),
        ⟨n, s.cells.length, false, [], .waiting⟩ ::ₘ s.calls⟩
  /-- mirrors runners/cache.rs:110-112 -/
  | put {n : Key} {a : Archive} (h : Puts n a) :
      Step s ⟨s.cells ++ [⟨n, some a, false⟩], Function.update s.map n (some s.cells.length), s.calls⟩

inductive Reachable [DecidableEq Key] : State Key Archive Err → Prop
  | new : Reachable ⟨[], fun _ => none, 0⟩
  | step {s s' : State Key Archive Err} (h : Reachable s) (hs : Step size oom Loads Puts s s') : Reachable s'

/-- What may be stored under a name. -/
def Is (n : Key) (a : Archive) : Prop := Puts n a ∨ ∃ cs, Loads n cs (.ok a)

/-- A call without the cache: what the loader charged and returned, and the answer
to the charge of the size. -/
def alone (loads : List Charge) (provided : Except Err Archive) (answer : Bool) : List Charge × Except Err Archive :=
  match provided with
  | .error e => (loads, .error e)
  | .ok a => (loads ++ [(size a, answer)], if answer then .ok a else .error oom)

/-- A call ends as it would alone: with its own loader if that was called, with one
that charges nothing if not. -/
def AsAlone (c : Call Key Archive Err) (r : Except Err Archive) : Prop :=
  ∃ loads provided answer, (c.charges, r) = alone size oom loads provided answer ∧
    if c.called then Loads c.name loads provided else loads = [] ∧ ∃ a, provided = .ok a ∧ Is Loads Puts c.name a

/-! ## One step -/

/-- What holds for a call on its cell. -/
def Sound (cell : Cell Key Archive) (c : Call Key Archive Err) : Prop :=
  match c.stage with
  | .waiting => c.called = false ∧ c.charges = []
  | .creating => c.called = true ∧ cell.value = none
  | .made a => c.called = true ∧ cell.value = none ∧ Loads c.name c.charges (.ok a)
  | .paid a => c.called = true ∧ cell.value = none ∧ AsAlone size oom Loads Puts c (.ok a)
  | .failed e => c.called = true ∧ cell.value = none ∧ AsAlone size oom Loads Puts c (.error e)
  | .found a => c.called = false ∧ c.charges = [] ∧ cell.value = some a
  | .done (.ok a) => AsAlone size oom Loads Puts c (.ok a) ∧ cell.value = some a
  | .done (.error e) => AsAlone size oom Loads Puts c (.error e)
  | .cancelled => True

end

section
variable {size : Archive → Nat} {oom : Err} {Loads : Key → List Charge → Except Err Archive → Prop}
  {Puts : Key → Archive → Prop} {cell cell' : Cell Key Archive} {c c' u : Call Key Archive Err}

theorem asAlone_loaded {n : Key} {i : Nat} {cs : List Charge} {stage : Stage Archive Err} {a : Archive}
    (h : Loads n cs (.ok a)) (answer : Bool) : AsAlone size oom Loads Puts
      ⟨n, i, true, cs ++ [(size a, answer)], stage⟩ (if answer then .ok a else .error oom) :=
  ⟨cs, .ok a, answer, rfl, h⟩

theorem asAlone_found {n : Key} {i : Nat} {stage : Stage Archive Err} {a : Archive}
    (h : Is Loads Puts n a) (answer : Bool) : AsAlone size oom Loads Puts
      ⟨n, i, false, [] ++ [(size a, answer)], stage⟩ (if answer then .ok a else .error oom) :=
  ⟨[], .ok a, answer, rfl, rfl, a, rfl, h⟩

theorem local_sound (h : Local size oom Loads cell c cell' c') (hs : Sound size oom Loads Puts cell c)
    (his : ∀ a, cell.value = some a → Is Loads Puts c.name a) :
    Sound size oom Loads Puts cell' c' := by
  cases h with
  | see hv => exact ⟨hs.1, hs.2, hv⟩
  | acquire hv _ => exact ⟨rfl, hv⟩
  | charge _ => exact hs
  | provide hl => exact ⟨hs.1, hs.2, hl⟩
  | fail hl =>
    refine ⟨hs.1, hs.2, _, .error _, true, rfl, ?_⟩
    have hcalled := hs.1
    rw [if_pos hcalled]
    exact hl
  | pay a =>
    obtain ⟨hcalled, hv, hl⟩ := hs
    cases hcalled
    exact ⟨rfl, hv, asAlone_loaded hl true⟩
  | refuse a =>
    obtain ⟨hcalled, hv, hl⟩ := hs
    cases hcalled
    exact ⟨rfl, hv, asAlone_loaded hl false⟩
  | store a => exact ⟨hs.2.2, rfl⟩
  | release e => exact hs.2.2
  | share a =>
    obtain ⟨hcalled, hcs, hv⟩ := hs
    cases hcalled
    cases hcs
    exact ⟨asAlone_found (his a hv) true, hv⟩
  | deny a =>
    obtain ⟨hcalled, hcs, hv⟩ := hs
    cases hcalled
    cases hcs
    exact asAlone_found (his a hv) false

/-- A step stores the value of the call, or leaves the value as it is. -/
theorem local_value (h : Local size oom Loads cell c cell' c') :
    cell'.value = cell.value ∨ ∃ a, c.stage = .paid a ∧ cell'.value = some a := by
  cases h with
  | store a => exact .inr ⟨a, rfl, rfl⟩
  | _ => exact .inl rfl

/-- The other calls on a cell do not notice: only the holder of the permit stores. -/
theorem local_frame (h : Local size oom Loads cell c cell' c') (hc : Sound size oom Loads Puts cell c)
    (hu : Sound size oom Loads Puts cell u) (hexcl : c.stage.holder = true → u.stage.holder = false) :
    Sound size oom Loads Puts cell' u := by
  rcases local_value h with hv | ⟨a, hstage, hv⟩
  · unfold Sound at hu ⊢
    rw [hv]
    exact hu
  · have hnone : cell.value = none := by
      unfold Sound at hc
      rw [hstage] at hc
      exact hc.2.1
    have hfree : u.stage.holder = false := hexcl (by rw [hstage]; rfl)
    unfold Sound at hu ⊢
    rw [hnone] at hu
    cases hst : u.stage with
    | waiting => simpa only [hst] using hu
    | found b =>
      rw [hst] at hu
      exact absurd hu.2.2 (by simp)
    | done r =>
      cases r with
      | ok b =>
        rw [hst] at hu
        exact absurd hu.2 (by simp)
      | error e => simpa only [hst] using hu
    | cancelled => trivial
    | _ =>
      rw [hst] at hfree
      exact absurd hfree (by simp [Stage.holder])

theorem local_call (h : Local size oom Loads cell c cell' c') : c'.cell = c.cell ∧ c'.name = c.name ∧
    cell'.name = cell.name := by
  cases h
  all_goals exact ⟨rfl, rfl, rfl⟩

/-- What is stored came from a loader of the name. -/
theorem local_is (h : Local size oom Loads cell c cell' c') (hs : Sound size oom Loads Puts cell c)
    (his : ∀ a, cell.value = some a → Is Loads Puts c.name a) :
    ∀ a, cell'.value = some a → Is Loads Puts c.name a := by
  cases h with
  | store a =>
    intro b hb
    cases hb
    obtain ⟨hcalled, -, loads, provided, answer, heq, hl⟩ := hs
    cases hcalled
    cases provided with
    | error e => simp [alone] at heq
    | ok b =>
      cases answer with
      | false => simp [alone] at heq
      | true =>
        obtain ⟨-, hok⟩ := Prod.mk.inj heq
        cases hok
        exact .inr ⟨loads, hl⟩
  | _ => exact his

/-- The permit goes with the call that has it. -/
theorem local_permit (h : Local size oom Loads cell c cell' c') :
    (c'.stage.holder = c.stage.holder ∧ cell'.permit = cell.permit) ∨
    (c.stage.holder = false ∧ c'.stage.holder = true ∧ cell.permit = false ∧ cell'.permit = true) ∨
    (c.stage.holder = true ∧ c'.stage.holder = false ∧ cell'.permit = false) := by
  cases h with
  | acquire _ hp => exact .inr (.inl ⟨rfl, rfl, hp, rfl⟩)
  | store _ => exact .inr (.inr ⟨rfl, rfl, rfl⟩)
  | release _ => exact .inr (.inr ⟨rfl, rfl, rfl⟩)
  | _ => exact .inl ⟨rfl, rfl⟩

/-- A call that stores is the first that ends with the archive it loaded. -/
theorem local_loaded (h : Local size oom Loads cell c cell' c') (hs : Sound size oom Loads Puts cell c) :
    ((c'.called && c'.stage.succeeded) = (c.called && c.stage.succeeded) ∧ cell'.value.isSome = cell.value.isSome) ∨
    ((c.called && c.stage.succeeded) = false ∧ cell.value.isSome = false ∧ cell'.value.isSome = true) := by
  cases h with
  | store a =>
    refine .inr ⟨by simp [Stage.succeeded], ?_, rfl⟩
    rw [hs.2.1]
    rfl
  | share a =>
    obtain ⟨hcalled, -, -⟩ := hs
    cases hcalled
    exact .inl ⟨rfl, rfl⟩
  | acquire _ _ => exact .inl ⟨by simp [Stage.succeeded], rfl⟩
  | _ => exact .inl ⟨by simp [Stage.succeeded], rfl⟩

theorem cancel_loaded (h : Cancel cell c cell' c') :
    (c'.called && c'.stage.succeeded) = (c.called && c.stage.succeeded) := by
  cases h
  all_goals simp [Stage.succeeded]

theorem cancel_call (h : Cancel cell c cell' c') : c'.cell = c.cell ∧ c'.name = c.name ∧
    cell'.name = cell.name ∧ cell'.value = cell.value ∧ c'.stage = .cancelled := by
  cases h
  all_goals exact ⟨rfl, rfl, rfl, rfl, rfl⟩

theorem cancel_permit (h : Cancel cell c cell' c') :
    (c'.stage.holder = c.stage.holder ∧ cell'.permit = cell.permit) ∨
    (c.stage.holder = false ∧ c'.stage.holder = true ∧ cell.permit = false ∧ cell'.permit = true) ∨
    (c.stage.holder = true ∧ c'.stage.holder = false ∧ cell'.permit = false) := by
  cases h with
  | waiting => exact .inl ⟨rfl, rfl⟩
  | creating => exact .inr (.inr ⟨rfl, rfl, rfl⟩)

end

/-! ## Every interleaving -/

/-- Has the permit of cell `i`. -/
def Call.holds (i : Nat) (c : Call Key Archive Err) : Prop := c.cell = i ∧ c.stage.holder = true

instance (i : Nat) (c : Call Key Archive Err) : Decidable (c.holds i) := inferInstanceAs (Decidable (_ ∧ _))

/-- Ended with the archive that its own loader made for cell `i`. -/
def Call.loaded (i : Nat) (c : Call Key Archive Err) : Prop :=
  c.cell = i ∧ (c.called && c.stage.succeeded) = true

instance (i : Nat) (c : Call Key Archive Err) : Decidable (c.loaded i) := inferInstanceAs (Decidable (_ ∧ _))

section
variable (size : Archive → Nat) (oom : Err) (Loads : Key → List Charge → Except Err Archive → Prop)
  (Puts : Key → Archive → Prop)

structure Inv (s : State Key Archive Err) : Prop where
  named : ∀ n i, s.map n = some i → ∃ cell, s.cells[i]? = some cell ∧ cell.name = n
  is : ∀ (i : Nat) (cell : Cell Key Archive), s.cells[i]? = some cell →
    ∀ a, cell.value = some a → Is Loads Puts cell.name a
  sound : ∀ c ∈ s.calls, ∃ cell, s.cells[c.cell]? = some cell ∧ cell.name = c.name ∧
    Sound size oom Loads Puts cell c
  permits : ∀ (i : Nat) (cell : Cell Key Archive), s.cells[i]? = some cell →
    s.calls.countP (Call.holds i) = if cell.permit then 1 else 0
  once : ∀ (i : Nat) (cell : Cell Key Archive), s.cells[i]? = some cell →
    s.calls.countP (Call.loaded i) ≤ if cell.value.isSome then 1 else 0

end

section
variable {size : Archive → Nat} {oom : Err} {Loads : Key → List Charge → Except Err Archive → Prop}
  {Puts : Key → Archive → Prop} {s s' : State Key Archive Err} {cell cell' : Cell Key Archive}
  {c c' : Call Key Archive Err} {cs : Multiset (Call Key Archive Err)}

/-- Only one call has the permit of a cell. -/
theorem Inv.alone (h : Inv size oom Loads Puts s) (hs : s.calls = c ::ₘ cs) (hcell : s.cells[c.cell]? = some cell)
    (hc : c.stage.holder = true) : ∀ u ∈ cs, u.cell = c.cell → u.stage.holder = false := by
  intro u hu hcu
  by_contra hne
  have hcount := h.permits c.cell cell hcell
  rw [hs, Multiset.countP_cons_of_pos _ ⟨rfl, hc⟩] at hcount
  have hpos : 0 < cs.countP (Call.holds c.cell) :=
    Multiset.countP_pos.mpr ⟨u, hu, hcu, by simpa using hne⟩
  split at hcount
  all_goals omega

/-- The count of holders follows the permit. -/
theorem permit_count (k : Nat) (b b' q q' : Bool) (h : (k + if b = true then 1 else 0) = if q = true then 1 else 0)
    (hp : (b' = b ∧ q' = q) ∨ (b = false ∧ b' = true ∧ q = false ∧ q' = true) ∨
      (b = true ∧ b' = false ∧ q' = false)) : (k + if b' = true then 1 else 0) = if q' = true then 1 else 0 := by
  rcases hp with ⟨rfl, rfl⟩ | ⟨rfl, rfl, rfl, rfl⟩ | ⟨rfl, rfl, rfl⟩
  · exact h
  · simpa using h
  · cases q
    · simp at h
    · simpa using h

theorem permits_set
    (h : ∀ (i : Nat) (cell : Cell Key Archive), s.cells[i]? = some cell →
      s.calls.countP (Call.holds i) = if cell.permit then 1 else 0)
    (hs : s.calls = c ::ₘ cs) (hcell : s.cells[c.cell]? = some cell) (hsame : c'.cell = c.cell)
    (hp : (c'.stage.holder = c.stage.holder ∧ cell'.permit = cell.permit) ∨
      (c.stage.holder = false ∧ c'.stage.holder = true ∧ cell.permit = false ∧ cell'.permit = true) ∨
      (c.stage.holder = true ∧ c'.stage.holder = false ∧ cell'.permit = false)) :
    ∀ i d, (s.cells.set c.cell cell')[i]? = some d → (c' ::ₘ cs).countP (Call.holds i) = if d.permit then 1 else 0 := by
  intro i d hd
  have hlen : c.cell < s.cells.length := (List.getElem?_eq_some_iff.mp hcell).1
  by_cases hi : i = c.cell
  · subst hi
    rw [List.getElem?_set_self hlen] at hd
    cases hd
    have hcount := h c.cell cell hcell
    rw [hs, Multiset.countP_cons] at hcount
    rw [Multiset.countP_cons]
    have hold : c.holds c.cell ↔ c.stage.holder = true := and_iff_right rfl
    have hnew : c'.holds c.cell ↔ c'.stage.holder = true := and_iff_right hsame
    rw [if_congr hold rfl rfl] at hcount
    rw [if_congr hnew rfl rfl]
    exact permit_count _ _ _ _ _ hcount hp
  · rw [List.getElem?_set_ne (Ne.symm hi)] at hd
    have hcount := h i d hd
    rw [hs, Multiset.countP_cons_of_neg _ fun hh => hi hh.1.symm] at hcount
    rw [Multiset.countP_cons_of_neg _ fun hh => hi (hsame ▸ hh.1.symm)]
    exact hcount

theorem once_set
    (h : ∀ (i : Nat) (cell : Cell Key Archive), s.cells[i]? = some cell →
      s.calls.countP (Call.loaded i) ≤ if cell.value.isSome then 1 else 0)
    (hs : s.calls = c ::ₘ cs) (hcell : s.cells[c.cell]? = some cell) (hsame : c'.cell = c.cell)
    (hp : ((c'.called && c'.stage.succeeded) = (c.called && c.stage.succeeded) ∧
        cell'.value.isSome = cell.value.isSome) ∨
      ((c.called && c.stage.succeeded) = false ∧ cell.value.isSome = false ∧ cell'.value.isSome = true)) :
    ∀ i d, (s.cells.set c.cell cell')[i]? = some d →
      (c' ::ₘ cs).countP (Call.loaded i) ≤ if d.value.isSome then 1 else 0 := by
  intro i d hd
  have hlen : c.cell < s.cells.length := (List.getElem?_eq_some_iff.mp hcell).1
  by_cases hi : i = c.cell
  · subst hi
    rw [List.getElem?_set_self hlen] at hd
    cases hd
    have hcount := h c.cell cell hcell
    have hold : c.loaded c.cell ↔ (c.called && c.stage.succeeded) = true := and_iff_right rfl
    have hnew : c'.loaded c.cell ↔ (c'.called && c'.stage.succeeded) = true := and_iff_right hsame
    rw [hs, Multiset.countP_cons, if_congr hold rfl rfl] at hcount
    rw [Multiset.countP_cons, if_congr hnew rfl rfl]
    rcases hp with ⟨hst, hv⟩ | ⟨hst, hv, hv'⟩
    · rw [hst, hv]
      exact hcount
    · rw [hv, if_neg Bool.false_ne_true] at hcount
      rw [hv', if_pos rfl]
      split
      all_goals omega
  · rw [List.getElem?_set_ne (Ne.symm hi)] at hd
    have hcount := h i d hd
    rw [hs, Multiset.countP_cons_of_neg _ fun hh => hi hh.1.symm] at hcount
    rw [Multiset.countP_cons_of_neg _ fun hh => hi (hsame ▸ hh.1.symm)]
    exact hcount

/-- A step of one call on its cell. -/
theorem inv_set (h : Inv size oom Loads Puts s) (hs : s.calls = c ::ₘ cs) (hcell : s.cells[c.cell]? = some cell)
    (hcall : c'.cell = c.cell ∧ c'.name = c.name ∧ cell'.name = cell.name)
    (his : ∀ a, cell'.value = some a → Is Loads Puts c.name a)
    (hsound : Sound size oom Loads Puts cell' c')
    (hframe : ∀ u ∈ cs, u.cell = c.cell → Sound size oom Loads Puts cell u → Sound size oom Loads Puts cell' u)
    (hp : (c'.stage.holder = c.stage.holder ∧ cell'.permit = cell.permit) ∨
      (c.stage.holder = false ∧ c'.stage.holder = true ∧ cell.permit = false ∧ cell'.permit = true) ∨
      (c.stage.holder = true ∧ c'.stage.holder = false ∧ cell'.permit = false))
    (ho : ((c'.called && c'.stage.succeeded) = (c.called && c.stage.succeeded) ∧
        cell'.value.isSome = cell.value.isSome) ∨
      ((c.called && c.stage.succeeded) = false ∧ cell.value.isSome = false ∧ cell'.value.isSome = true)) :
    Inv size oom Loads Puts ⟨s.cells.set c.cell cell', s.map, c' ::ₘ cs⟩ := by
  obtain ⟨hsame, hname, hcname⟩ := hcall
  have hlen : c.cell < s.cells.length := (List.getElem?_eq_some_iff.mp hcell).1
  obtain ⟨d, hd, hdname, -⟩ := h.sound c (by rw [hs]; exact Multiset.mem_cons_self _ _)
  rw [hcell] at hd
  cases hd
  -- a lookup in the new cells is the new cell or an old one
  have hlook : ∀ i e, (s.cells.set c.cell cell')[i]? = some e →
      (i = c.cell ∧ e = cell') ∨ (i ≠ c.cell ∧ s.cells[i]? = some e) := by
    intro i e he
    by_cases hi : i = c.cell
    · subst hi
      rw [List.getElem?_set_self hlen] at he
      cases he
      exact .inl ⟨rfl, rfl⟩
    · rw [List.getElem?_set_ne (Ne.symm hi)] at he
      exact .inr ⟨hi, he⟩
  have hnew : (s.cells.set c.cell cell')[c.cell]? = some cell' := List.getElem?_set_self hlen
  refine ⟨fun n i hn => ?_, fun i e he => ?_, fun u hu => ?_, permits_set h.permits hs hcell hsame hp,
    once_set h.once hs hcell hsame ho⟩
  · obtain ⟨e, he, hen⟩ := h.named n i hn
    by_cases hi : i = c.cell
    · subst hi
      rw [hcell] at he
      cases he
      exact ⟨cell', hnew, hcname.trans hen⟩
    · exact ⟨e, by rw [List.getElem?_set_ne (Ne.symm hi)]; exact he, hen⟩
  · rcases hlook i e he with ⟨rfl, rfl⟩ | ⟨-, he⟩
    · rw [hcname, hdname]
      exact his
    · exact h.is i e he
  · rcases Multiset.mem_cons.mp hu with rfl | hu
    · exact ⟨cell', by rw [hsame]; exact hnew, by rw [hcname, hname]; exact hdname, hsound⟩
    · obtain ⟨e, he, hen, hes⟩ := h.sound u (by rw [hs]; exact Multiset.mem_cons_of_mem hu)
      by_cases hcu : u.cell = c.cell
      · rw [hcu, hcell] at he
        cases he
        exact ⟨cell', by rw [hcu]; exact hnew, hcname.trans hen, hframe u hu hcu hes⟩
      · exact ⟨e, by rw [List.getElem?_set_ne (Ne.symm hcu)]; exact he, hen, hes⟩

/-- A cell that was there is there when one is added. -/
theorem getElem?_added {i : Nat} {e d : Cell Key Archive} (h : s.cells[i]? = some e) :
    (s.cells ++ [d])[i]? = some e := by
  rw [List.getElem?_append_left (List.getElem?_eq_some_iff.mp h).1]
  exact h

theorem inv_add [DecidableEq Key] (h : Inv size oom Loads Puts s) {n : Key} {v : Option Archive}
    (hv : ∀ a, v = some a → Is Loads Puts n a) :
    Inv size oom Loads Puts ⟨s.cells ++ [⟨n, v, false⟩], Function.update s.map n (some s.cells.length), s.calls⟩ := by
  have hlook : ∀ i e, (s.cells ++ [(⟨n, v, false⟩ : Cell Key Archive)])[i]? = some e →
      s.cells[i]? = some e ∨ (i = s.cells.length ∧ e = ⟨n, v, false⟩) := by
    intro i e he
    rcases Nat.lt_trichotomy i s.cells.length with hi | hi | hi
    · rw [List.getElem?_append_left hi] at he
      exact .inl he
    · subst hi
      rw [List.getElem?_concat_length] at he
      cases he
      exact .inr ⟨rfl, rfl⟩
    · rw [List.getElem?_eq_none (by rw [List.length_append, List.length_singleton]; omega)] at he
      cases he
  -- no call is on the new cell
  have hfresh : ∀ u ∈ s.calls, u.cell ≠ s.cells.length := by
    intro u hu heq
    obtain ⟨e, he, -⟩ := h.sound u hu
    have hlt := (List.getElem?_eq_some_iff.mp he).1
    exact absurd heq (Nat.ne_of_lt hlt)
  refine ⟨fun m i hm => ?_, fun i e he => ?_, fun u hu => ?_, fun i e he => ?_, fun i e he => ?_⟩
  · by_cases hmn : m = n
    · subst hmn
      change Function.update s.map m _ m = _ at hm
      rw [Function.update_self] at hm
      cases hm
      exact ⟨_, List.getElem?_concat_length, rfl⟩
    · change Function.update s.map n _ m = _ at hm
      rw [Function.update_of_ne hmn] at hm
      obtain ⟨e, he, hen⟩ := h.named m i hm
      exact ⟨e, getElem?_added he, hen⟩
  · rcases hlook i e he with he | ⟨-, rfl⟩
    · exact h.is i e he
    · exact hv
  · obtain ⟨e, he, hes⟩ := h.sound u hu
    exact ⟨e, getElem?_added he, hes⟩
  · rcases hlook i e he with he | ⟨rfl, rfl⟩
    · exact h.permits i e he
    · rw [if_neg (by simp)]
      exact Multiset.countP_eq_zero.mpr fun u hu hh => hfresh u hu hh.1
  · rcases hlook i e he with he | ⟨rfl, rfl⟩
    · exact h.once i e he
    · rw [Multiset.countP_eq_zero.mpr fun u hu hh => hfresh u hu hh.1]
      exact Nat.zero_le _

theorem inv_call (h : Inv size oom Loads Puts s) {n : Key} {i : Nat} (hn : s.map n = some i) :
    Inv size oom Loads Puts ⟨s.cells, s.map, ⟨n, i, false, [], .waiting⟩ ::ₘ s.calls⟩ := by
  refine ⟨h.named, h.is, fun u hu => ?_, fun j e he => ?_, fun j e he => ?_⟩
  · rcases Multiset.mem_cons.mp hu with rfl | hu
    · obtain ⟨e, he, hen⟩ := h.named n i hn
      exact ⟨e, he, hen, rfl, rfl⟩
    · exact h.sound u hu
  · rw [Multiset.countP_cons_of_neg _ fun hh => by simpa [Stage.holder] using hh.2]
    exact h.permits j e he
  · rw [Multiset.countP_cons_of_neg _ fun hh => by simpa using hh.2]
    exact h.once j e he

theorem inv_step [DecidableEq Key] (h : Inv size oom Loads Puts s) (hstep : Step size oom Loads Puts s s') :
    Inv size oom Loads Puts s' := by
  cases hstep with
  | goes hg =>
    obtain ⟨hs, hcell, hl⟩ := hg
    rename_i c c' cs cell cell'
    obtain ⟨e, he, hen, hes⟩ := h.sound c (by rw [hs]; exact Multiset.mem_cons_self _ _)
    rw [hcell] at he
    cases he
    have his : ∀ a, cell.value = some a → Is Loads Puts c.name a := hen ▸ h.is _ _ hcell
    refine inv_set h hs hcell (local_call hl) (local_is hl hes his) (local_sound hl hes his) ?_ (local_permit hl)
      (local_loaded hl hes)
    exact fun u hu hcu hus => local_frame hl hes hus fun hc => h.alone hs hcell hc u hu hcu
  | cancel hs hcell hc =>
    rename_i c c' cs cell cell'
    obtain ⟨hsame, hname, hcname, hvalue, hstage⟩ := cancel_call hc
    obtain ⟨e, he, hen, -⟩ := h.sound c (by rw [hs]; exact Multiset.mem_cons_self _ _)
    rw [hcell] at he
    cases he
    refine inv_set h hs hcell ⟨hsame, hname, hcname⟩ ?_ ?_ ?_ (cancel_permit hc)
      (.inl ⟨cancel_loaded hc, by rw [hvalue]⟩)
    · rw [hvalue, ← hen]
      exact h.is _ _ hcell
    · unfold Sound
      rw [hstage]
      trivial
    · intro u _ _ hus
      unfold Sound at hus ⊢
      rw [hvalue]
      exact hus
  | occupied hn => exact inv_call h hn
  | vacant hn =>
    rename_i n
    have hadd := inv_add h (n := n) (v := none) fun a ha => by cases ha
    exact inv_call hadd (show Function.update s.map n _ n = _ from Function.update_self ..)
  | put hp =>
    refine inv_add h fun a ha => ?_
    cases ha
    exact .inl hp

theorem inv_reachable [DecidableEq Key] (h : Reachable size oom Loads Puts s) : Inv size oom Loads Puts s := by
  induction h with
  | new =>
    have hempty : ∀ (i : Nat) (e : Cell Key Archive), ([] : List (Cell Key Archive))[i]? = some e → False := by
      intro i e h
      simp at h
    refine ⟨fun n i h => ?_, fun i e h => (hempty i e h).elim, fun u hu => ?_, fun i e h => (hempty i e h).elim,
      fun i e h => (hempty i e h).elim⟩
    · cases h
    · exact absurd hu (Multiset.notMem_zero u)
  | step _ hs ih => exact inv_step ih hs

/-- A call that has not ended goes on, waits inside its loader, or waits for a call
on its cell that does. -/
theorem Inv.progress (h : Inv size oom Loads Puts s) {c : Call Key Archive Err} (hc : c ∈ s.calls)
    (hopen : c.stage.ended = false) : ∃ u ∈ s.calls, u.cell = c.cell ∧
      (u.stage = .creating ∨ ∃ us cell cell' u', s.calls = u ::ₘ us ∧ s.cells[u.cell]? = some cell ∧
        Local size oom Loads cell u cell' u') := by
  have hgo : ∀ u ∈ s.calls, u.stage.ended = false → (u.stage = .waiting → ∃ cell, s.cells[u.cell]? = some cell ∧
      (cell.value ≠ none ∨ cell.permit = false)) → u.stage = .creating ∨ ∃ us cell cell' u', s.calls = u ::ₘ us ∧
        s.cells[u.cell]? = some cell ∧ Local size oom Loads cell u cell' u' := by
    intro u hu hopen hwait
    obtain ⟨us, hus⟩ := Multiset.exists_cons_of_mem hu
    obtain ⟨cell, hcell, -⟩ := h.sound u hu
    obtain ⟨n, i, called, cs, stage⟩ := u
    cases stage with
    | waiting =>
      obtain ⟨e, he, hor⟩ := hwait rfl
      rw [hcell] at he
      cases he
      cases hv : cell.value with
      | some a => exact .inr ⟨us, cell, _, _, hus, hcell, .see hv⟩
      | none => exact .inr ⟨us, cell, _, _, hus, hcell, .acquire hv (hor.resolve_left (by simp [hv]))⟩
    | creating => exact .inl rfl
    | made a => exact .inr ⟨us, cell, _, _, hus, hcell, .pay a⟩
    | paid a => exact .inr ⟨us, cell, _, _, hus, hcell, .store a⟩
    | failed e => exact .inr ⟨us, cell, _, _, hus, hcell, .release e⟩
    | found a => exact .inr ⟨us, cell, _, _, hus, hcell, .share a⟩
    | done r => cases hopen
    | cancelled => cases hopen
  obtain ⟨cell, hcell, -⟩ := h.sound c hc
  by_cases hp : cell.permit = true
  · -- the holder of the permit goes on
    have hcount := h.permits c.cell cell hcell
    rw [if_pos hp] at hcount
    obtain ⟨u, hu, hcu, hhold⟩ := Multiset.countP_pos.mp (show 0 < s.calls.countP (Call.holds c.cell) by omega)
    refine ⟨u, hu, hcu, hgo u hu ?_ fun hw => ?_⟩
    · revert hhold
      cases u.stage <;> simp [Stage.holder, Stage.ended]
    · rw [hw] at hhold
      cases hhold
  · exact ⟨c, hc, rfl, hgo c hc hopen fun _ => ⟨cell, hcell, .inr (by simpa using hp)⟩⟩

theorem Inv.as_alone (h : Inv size oom Loads Puts s) {c : Call Key Archive Err} (hc : c ∈ s.calls)
    {r : Except Err Archive} (hr : c.stage = .done r) : AsAlone size oom Loads Puts c r := by
  obtain ⟨cell, -, -, hsound⟩ := h.sound c hc
  unfold Sound at hsound
  rw [hr] at hsound
  cases r with
  | ok a => exact hsound.1
  | error e => exact hsound

/-- What a call on a cell returned is the value of the cell. -/
theorem Inv.value (h : Inv size oom Loads Puts s) {c : Call Key Archive Err} (hc : c ∈ s.calls) {a : Archive}
    (hr : c.stage = .done (.ok a)) : ∃ cell, s.cells[c.cell]? = some cell ∧ cell.value = some a := by
  obtain ⟨cell, hcell, -, hsound⟩ := h.sound c hc
  unfold Sound at hsound
  rw [hr] at hsound
  exact ⟨cell, hcell, hsound.2⟩

theorem Inv.counts (h : Inv size oom Loads Puts s) (i : Nat) :
    s.calls.countP (Call.holds i) ≤ 1 ∧ s.calls.countP (Call.loaded i) ≤ 1 := by
  cases hcell : s.cells[i]? with
  | some cell =>
    have hp := h.permits i cell hcell
    have ho := h.once i cell hcell
    constructor
    · rw [hp]
      split <;> omega
    · refine ho.trans ?_
      split <;> omega
  | none =>
    have hno : ∀ u ∈ s.calls, u.cell ≠ i := by
      rintro u hu rfl
      obtain ⟨cell, he, -⟩ := h.sound u hu
      rw [he] at hcell
      cases hcell
    rw [Multiset.countP_eq_zero.mpr fun u hu hh => hno u hu hh.1,
      Multiset.countP_eq_zero.mpr fun u hu hh => hno u hu hh.1]
    exact ⟨Nat.zero_le _, Nat.zero_le _⟩

/-- In every interleaving of calls, cancellations and puts: a call ends as it would
without the cache; two calls on one cell return the same archive; at most one call
of a cell is in its loader or past it, and at most one ends with what its loader
made; and no call waits for a cell that nobody works on. -/
theorem calls_as_alone [DecidableEq Key] (h : Reachable size oom Loads Puts s) :
    (∀ c ∈ s.calls, ∀ r, c.stage = .done r → AsAlone size oom Loads Puts c r) ∧
    (∀ c ∈ s.calls, ∀ c' ∈ s.calls, ∀ a a', c.cell = c'.cell → c.stage = .done (.ok a) →
      c'.stage = .done (.ok a') → a = a') ∧
    (∀ i, s.calls.countP (Call.holds i) ≤ 1 ∧ s.calls.countP (Call.loaded i) ≤ 1) ∧
    (∀ c ∈ s.calls, c.stage.ended = false → ∃ u ∈ s.calls, u.cell = c.cell ∧
      (u.stage = .creating ∨ ∃ us cell cell' u', s.calls = u ::ₘ us ∧ s.cells[u.cell]? = some cell ∧
        Local size oom Loads cell u cell' u')) := by
  have hi := inv_reachable h
  refine ⟨fun c hc r hr => hi.as_alone hc hr, ?_, hi.counts, fun c hc hopen => hi.progress hc hopen⟩
  intro c hc c' hc' a a' hcell hr hr'
  obtain ⟨e, he, ha⟩ := hi.value hc hr
  obtain ⟨e', he', ha'⟩ := hi.value hc' hr'
  rw [hcell, he'] at he
  cases he
  rw [ha'] at ha
  exact (Option.some.inj ha).symm

end

/-- Archives of seven bytes, which their loader reads from the chain. -/
def sevenLoads (_ : Nat) (cs : List Charge) (r : Except Unit Nat) : Prop := cs = [(7, true)] ∧ r = .ok 7

/-- One call loaded an archive, another found it. -/
def shared : State Nat Nat Unit where
  cells := [⟨3, some 7, false⟩]
  map := Function.update (fun _ => none) 3 (some 0)
  calls := ⟨3, 0, false, [(7, true)], .done (.ok 7)⟩ ::ₘ {⟨3, 0, true, [(7, true), (7, true)], .done (.ok 7)⟩}

theorem reachable_shared : Reachable id () sevenLoads (fun _ _ => False) shared := by
  let R := Reachable id () sevenLoads (fun _ _ => False)
  let m : Nat → Option Nat := Function.update (fun _ => none) 3 (some 0)
  have h1 : R ⟨[⟨3, none, false⟩], m, {⟨3, 0, false, [], .waiting⟩}⟩ := Reachable.new.step (.vacant (n := 3) rfl)
  have h2 : R ⟨[⟨3, none, true⟩], m, {⟨3, 0, true, [], .creating⟩}⟩ :=
    h1.step (.goes (.mk (c := ⟨3, 0, false, [], .waiting⟩) rfl rfl (.acquire rfl rfl)))
  have h3 : R ⟨[⟨3, none, true⟩], m, {⟨3, 0, true, [(7, true)], .creating⟩}⟩ :=
    h2.step (.goes (.mk (c := ⟨3, 0, true, [], .creating⟩) rfl rfl (.charge (7, true))))
  have h4 : R ⟨[⟨3, none, true⟩], m, {⟨3, 0, true, [(7, true)], .made 7⟩}⟩ :=
    h3.step (.goes (.mk (c := ⟨3, 0, true, [(7, true)], .creating⟩) rfl rfl (.provide ⟨rfl, rfl⟩)))
  have h5 : R ⟨[⟨3, none, true⟩], m, {⟨3, 0, true, [(7, true), (7, true)], .paid 7⟩}⟩ :=
    h4.step (.goes (.mk (c := ⟨3, 0, true, [(7, true)], .made 7⟩) rfl rfl (.pay 7)))
  have h6 : R ⟨[⟨3, some 7, false⟩], m, {⟨3, 0, true, [(7, true), (7, true)], .done (.ok 7)⟩}⟩ :=
    h5.step (.goes (.mk (c := ⟨3, 0, true, [(7, true), (7, true)], .paid 7⟩) rfl rfl (.store 7)))
  let d : Call Nat Nat Unit := ⟨3, 0, true, [(7, true), (7, true)], .done (.ok 7)⟩
  have h7 : R ⟨[⟨3, some 7, false⟩], m, ⟨3, 0, false, [], .waiting⟩ ::ₘ {d}⟩ := h6.step (.occupied (n := 3) (i := 0) rfl)
  have h8 : R ⟨[⟨3, some 7, false⟩], m, ⟨3, 0, false, [], .found 7⟩ ::ₘ {d}⟩ :=
    h7.step (.goes (.mk (c := ⟨3, 0, false, [], .waiting⟩) rfl rfl (.see rfl)))
  exact h8.step (.goes (.mk (c := ⟨3, 0, false, [], .found 7⟩) rfl rfl (.share 7)))

theorem calls_as_alone_shared : shared.calls.card = 2 ∧
    ∀ c ∈ shared.calls, ∀ r, c.stage = .done r → AsAlone id () sevenLoads (fun _ _ => False) c r :=
  ⟨rfl, (calls_as_alone reachable_shared).1⟩

/-- The loader of a chain runner charges the length of the code it reads
(actions.rs:286, vm/storage.rs:478), so the call that loads pays for it twice and
the calls that find it pay once. -/
theorem chain_runner_charges [DecidableEq Key] {size : Archive → Nat} {oom : Err}
    {Loads : Key → List Charge → Except Err Archive → Prop} {Puts : Key → Archive → Prop} {s : State Key Archive Err}
    (h : Reachable size oom Loads Puts s) {c : Call Key Archive Err} (hc : c ∈ s.calls)
    (hreads : ∀ cs a, Loads c.name cs (.ok a) → cs = [(size a, true)]) {a : Archive} (hr : c.stage = .done (.ok a)) :
    (c.charges.map Prod.fst).sum = if c.called then 2 * size a else size a := by
  obtain ⟨loads, provided, answer, heq, hor⟩ := (inv_reachable h).as_alone hc hr
  cases provided with
  | error e => simp [alone] at heq
  | ok b =>
    cases answer with
    | false => simp [alone] at heq
    | true =>
      obtain ⟨hcharges, hok⟩ := Prod.mk.inj heq
      cases hok
      rw [hcharges]
      split at hor
      · next hcalled =>
        rw [if_pos hcalled, hreads _ _ hor]
        simp only [List.cons_append, List.nil_append, List.map_cons, List.map_nil, List.sum_cons, List.sum_nil]
        omega
      · next hcalled =>
        rw [if_neg hcalled, hor.1]
        simp

theorem sevenLoads_reads (n : Nat) (cs : List Charge) (a : Nat) (h : sevenLoads n cs (.ok a)) :
    cs = [(id a, true)] := by
  obtain ⟨rfl, ha⟩ := h
  cases ha
  rfl

theorem chain_runner_charges_shared : ∃ c ∈ shared.calls, ∃ d ∈ shared.calls,
    (c.charges.map Prod.fst).sum = 2 * 7 ∧ (d.charges.map Prod.fst).sum = 7 := by
  have hc : ⟨3, 0, true, [(7, true), (7, true)], .done (.ok 7)⟩ ∈ shared.calls :=
    Multiset.mem_cons_of_mem (Multiset.mem_singleton_self _)
  have hd : ⟨3, 0, false, [(7, true)], .done (.ok 7)⟩ ∈ shared.calls := by simp [shared]
  exact ⟨_, hc, _, hd, chain_runner_charges reachable_shared hc (sevenLoads_reads _) rfl,
    chain_runner_charges reachable_shared hd (sevenLoads_reads _) rfl⟩

end GenVM.Runners.Cache
