import GenVM.Wasi.Vfs

/-!
# The shared memory limiter (`executor/src/rt/memlimiter.rs`, `executor/src/wasi/vfs.rs`)

Limiters derived from one another share what remains; each counts what it took
itself and gives that back when it is dropped. Tasks use them at the same time,
one atomic access of a counter after the other: a load, a compare-exchange, an
addition or subtraction that wraps at `2^32`.

A task is the wasm hooks and the file table of a VM, or anything else that only
consumes. It releases what the table charged for a file, once: when the file is
closed, or when no descriptor is left for it.

**Results.**
* `consume_alone`, `release_alone`: without other tasks in between, the accesses
  of a call are `Limiter.consume` and `Limiter.release`.
* `local_inv`: what one access keeps.
* `limiters_account`: the accounts add up between calls and no release fails, in
  every interleaving; what a limiter counts does not wrap where calls on that
  limiter do not overlap.
-/
namespace GenVM.Wasi

/-! ## Accesses -/

/-- What success or refusal of a consumption leads to. -/
inductive After where
  /-- the wasm hooks, an archive, a mapped name: nothing -/
  | plain
  /-- `place_content`, the bytes of the file -/
  | file
  /-- `alloc_fd` inside `place_content`, with what the file was charged -/
  | fd (charge : Option Nat)

/-- Where a task is. -/
inductive Pc where
  | idle
  /-- the remaining memory was read -/
  | loaded (delta remaining : Nat) (after : After)
  /-- it was exchanged for `left`, which is to be recorded as the least -/
  | record (delta left : Nat) (after : After)
  /-- `delta` is to be added to what the limiter counts -/
  | count (delta : Nat) (after : After)
  /-- between the two consumptions of `place_content` -/
  | placed (charge : Option Nat)
  /-- `delta` is to be added to the remaining memory -/
  | give (delta : Nat)
  /-- and then subtracted from what the limiter counts -/
  | uncount (delta : Nat)

structure Shared where
  remaining_memory : Nat
  least_remaining_memory : Nat

/-- What a limiter counts, and what it holds: the amount its calls took and did
not give back, which no counter of the program stores. -/
structure Account where
  consumed_memory : Nat
  held : Nat

/-- `files` has the charges of the open files that give memory back. -/
structure Task where
  files : Multiset Nat
  pc : Pc

/-- What the file table does once it can or cannot have a descriptor. -/
def opened (files : Multiset Nat) : Option Nat → Task
  | some charge => ⟨charge ::ₘ files, .idle⟩
  | none => ⟨files, .idle⟩

def refused (files : Multiset Nat) : Option Nat → Task
  | some charge => ⟨files, .give charge⟩
  | none => ⟨files, .idle⟩

def After.success (files : Multiset Nat) (delta : Nat) : After → Task
  | .plain => ⟨files, .idle⟩
  | .file => ⟨files, .placed (some delta)⟩
  | .fd charge => opened files charge

def After.refusal (files : Multiset Nat) : After → Task
  | .plain => ⟨files, .idle⟩
  | .file => ⟨files, .idle⟩
  | .fd charge => refused files charge

/-- One access, or a step of the file table between accesses.
mirrors executor/src/rt/memlimiter.rs:31-41, 90-134, executor/src/wasi/vfs.rs:97-157 -/
inductive Local : Shared → Account → Task → Shared → Account → Task → Prop
  | plain (s : Shared) (a : Account) (files : Multiset Nat) (delta : Nat) :
      Local s a ⟨files, .idle⟩ s a ⟨files, .loaded delta s.remaining_memory .plain⟩
  | file (s : Shared) (a : Account) (files : Multiset Nat) (delta : Nat) :
      Local s a ⟨files, .idle⟩ s a ⟨files, .loaded delta s.remaining_memory .file⟩
  | refuse {s : Shared} {a : Account} {files : Multiset Nat} {delta read : Nat} {after : After}
      (h : read < delta) : Local s a ⟨files, .loaded delta read after⟩ s a (after.refusal files)
  | exchange {s : Shared} {a : Account} {files : Multiset Nat} {delta read : Nat} {after : After}
      (h : ¬ read < delta) (hread : s.remaining_memory = read) :
      Local s a ⟨files, .loaded delta read after⟩ ⟨read - delta, s.least_remaining_memory⟩ a
        ⟨files, .record delta (read - delta) after⟩
  | retry {s : Shared} {a : Account} {files : Multiset Nat} {delta read : Nat} {after : After}
      (h : ¬ read < delta) (hread : s.remaining_memory ≠ read) :
      Local s a ⟨files, .loaded delta read after⟩ s a
        ⟨files, .loaded delta s.remaining_memory after⟩
  | record (s : Shared) (a : Account) (files : Multiset Nat) (delta left : Nat) (after : After) :
      Local s a ⟨files, .record delta left after⟩
        ⟨s.remaining_memory, min s.least_remaining_memory left⟩ a ⟨files, .count delta after⟩
  | count (s : Shared) (a : Account) (files : Multiset Nat) (delta : Nat) (after : After) :
      Local s a ⟨files, .count delta after⟩ s
        ⟨(a.consumed_memory + delta) % 2 ^ 32, a.held + delta⟩ (after.success files delta)
  | placeFree (s : Shared) (a : Account) (files : Multiset Nat) :
      Local s a ⟨files, .idle⟩ s a ⟨files, .placed none⟩
  | reuse (s : Shared) (a : Account) (files : Multiset Nat) (charge : Option Nat) :
      Local s a ⟨files, .placed charge⟩ s a (opened files charge)
  | full (s : Shared) (a : Account) (files : Multiset Nat) (charge : Option Nat) :
      Local s a ⟨files, .placed charge⟩ s a (refused files charge)
  | alloc (s : Shared) (a : Account) (files : Multiset Nat) (charge : Option Nat) :
      Local s a ⟨files, .placed charge⟩ s a
        ⟨files, .loaded FD_ALLOCATION s.remaining_memory (.fd charge)⟩
  | pop (s : Shared) (a : Account) (files : Multiset Nat) (charge : Nat) :
      Local s a ⟨charge ::ₘ files, .idle⟩ s a ⟨files, .give charge⟩
  | give (s : Shared) (a : Account) (files : Multiset Nat) (delta : Nat) :
      Local s a ⟨files, .give delta⟩
        ⟨(s.remaining_memory + delta) % 2 ^ 32, s.least_remaining_memory⟩ a ⟨files, .uncount delta⟩
  | uncount (s : Shared) (a : Account) (files : Multiset Nat) (delta : Nat) :
      Local s a ⟨files, .uncount delta⟩ s
        ⟨(a.consumed_memory + (2 ^ 32 - delta % 2 ^ 32)) % 2 ^ 32, a.held - delta⟩ ⟨files, .idle⟩

/-! ## Limiters and their tasks -/

/-- Between two calls of the limiter. -/
def Task.Quiet (t : Task) : Prop := t.pc = .idle ∨ ∃ charge, t.pc = .placed charge

/-- At most one of the tasks is in a call. -/
def OneCall (tasks : Multiset Task) : Prop :=
  ∀ t ts, tasks = t ::ₘ ts → ¬ t.Quiet → ∀ t' ∈ ts, t'.Quiet

/-- `apart` says that the calls on this limiter never overlapped so far. -/
structure Lim where
  account : Account
  tasks : Multiset Task
  apart : Prop

/-- `dropping` has what the limiters being dropped are about to give back. -/
structure Sys where
  shared : Shared
  lims : Multiset Lim
  dropping : Multiset Nat

def MAX : Nat := 2 ^ 32 - 1

/-- mirrors executor/src/rt/memlimiter.rs:53-62 -/
def Sys.new : Sys := ⟨⟨MAX, MAX⟩, {⟨⟨0, 0⟩, 0, True⟩}, 0⟩

inductive SysStep : Sys → Sys → Prop
  | task {s : Sys} {shared : Shared} {a a' : Account} {t t' : Task} {ts : Multiset Task}
      {apart : Prop} {rest : Multiset Lim} (hs : s.lims = ⟨a, t ::ₘ ts, apart⟩ ::ₘ rest)
      (h : Local s.shared a t shared a' t') :
      SysStep s ⟨shared, ⟨a', t' ::ₘ ts, apart ∧ OneCall (t' ::ₘ ts)⟩ ::ₘ rest, s.dropping⟩
  /-- mirrors executor/src/rt/memlimiter.rs:64-73 -/
  | derived {s : Sys} (h : s.lims ≠ 0) :
      SysStep s ⟨s.shared, ⟨⟨0, 0⟩, 0, True⟩ ::ₘ s.lims, s.dropping⟩
  | start {s : Sys} {a : Account} {ts : Multiset Task} {apart : Prop} {rest : Multiset Lim}
      (hs : s.lims = ⟨a, ts, apart⟩ ::ₘ rest) :
      SysStep s ⟨s.shared, ⟨a, ⟨0, .idle⟩ ::ₘ ts, apart⟩ ::ₘ rest, s.dropping⟩
  | finish {s : Sys} {a : Account} {t : Task} {ts : Multiset Task} {apart : Prop}
      {rest : Multiset Lim} (hs : s.lims = ⟨a, t ::ₘ ts, apart⟩ ::ₘ rest) (hquiet : t.Quiet) :
      SysStep s ⟨s.shared, ⟨a, ts, apart⟩ ::ₘ rest, s.dropping⟩
  /-- mirrors executor/src/rt/memlimiter.rs:19-27 -/
  | drop {s : Sys} {a : Account} {apart : Prop} {rest : Multiset Lim}
      (hs : s.lims = ⟨a, 0, apart⟩ ::ₘ rest) :
      SysStep s ⟨s.shared, rest, a.consumed_memory ::ₘ s.dropping⟩
  | dropped {s : Sys} {c : Nat} {rest : Multiset Nat} (hs : s.dropping = c ::ₘ rest) :
      SysStep s ⟨⟨(s.shared.remaining_memory + c) % 2 ^ 32, s.shared.least_remaining_memory⟩,
        s.lims, rest⟩

/-- A run, and every value the remaining memory had. -/
inductive Run : Sys → List Nat → Prop
  | new : Run Sys.new [MAX]
  | step {s s' : Sys} {seen : List Nat} (h : Run s seen) (hstep : SysStep s s') :
      Run s' (s'.shared.remaining_memory :: seen)

/-! ## One call on its own -/

inductive Locals : Shared → Account → Task → Shared → Account → Task → Prop
  | refl (s : Shared) (a : Account) (t : Task) : Locals s a t s a t
  | step {s s1 s' : Shared} {a a1 a' : Account} {t t1 t' : Task} (h : Local s a t s1 a1 t1)
      (hrest : Locals s1 a1 t1 s' a' t') : Locals s a t s' a' t'

/-- The counters as one limiter sees them. -/
def limiterOf (s : Shared) (a : Account) : Limiter :=
  ⟨s.remaining_memory, s.least_remaining_memory, a.consumed_memory⟩

theorem consume_alone (s : Shared) (a : Account) (files : Multiset Nat) (delta : Nat) :
    ∃ s' a', Locals s a ⟨files, .idle⟩ s' a' ⟨files, .idle⟩ ∧
      limiterOf s' a' = ((limiterOf s a).consume delta).2 := by
  unfold Limiter.consume
  by_cases h : s.remaining_memory < delta
  · refine ⟨s, a, .step (.plain s a files delta) (.step (.refuse h) (.refl _ _ _)), ?_⟩
    have h' : (limiterOf s a).remaining_memory < delta := h
    rw [if_pos h']
  · refine ⟨_, _, .step (.plain s a files delta) (.step (.exchange h rfl)
      (.step (.record _ _ _ _ _ _) (.step (.count _ _ _ _ _) (.refl _ _ _)))), ?_⟩
    have h' : ¬ (limiterOf s a).remaining_memory < delta := h
    rw [if_neg h']
    rfl

theorem release_alone {s : Shared} {a : Account} {delta : Nat} {l : Limiter} (files : Multiset Nat)
    (hd : delta < 2 ^ 32) (h : (limiterOf s a).release delta = some l) :
    ∃ s' a', Locals s a ⟨delta ::ₘ files, .idle⟩ s' a' ⟨files, .idle⟩ ∧ limiterOf s' a' = l := by
  unfold Limiter.release at h
  split at h
  · rename_i hfits
    refine ⟨_, _, .step (.pop s a files delta) (.step (.give _ _ _ _)
      (.step (.uncount _ _ _ _) (.refl _ _ _))), ?_⟩
    obtain rfl := Option.some.inj h
    unfold limiterOf at hfits ⊢
    dsimp only at hfits ⊢
    rw [Nat.mod_eq_of_lt hfits, Nat.mod_eq_of_lt hd]
  · cases h

/-! ## The invariant -/

/-- Taken from the remaining memory and not yet counted. -/
def Pc.pend : Pc → Nat
  | .record delta _ _ => delta
  | .count delta _ => delta
  | _ => 0

/-- Given back and still counted. -/
def Pc.over : Pc → Nat
  | .uncount delta => delta
  | _ => 0

def After.hand : After → Nat
  | .fd (some charge) => charge
  | _ => 0

/-- Counted, for a file that is not open yet or no longer. -/
def Pc.hand : Pc → Nat
  | .loaded _ _ after => after.hand
  | .record _ _ after => after.hand
  | .count _ after => after.hand
  | .placed (some charge) => charge
  | .give delta => delta
  | .uncount delta => delta
  | _ => 0

/-- What a task may still release. -/
def Task.owed (t : Task) : Nat := t.files.sum + t.pc.hand

theorem over_le_owed (t : Task) : t.pc.over ≤ t.owed := by
  unfold Task.owed
  cases t.pc <;> simp [Pc.over, Pc.hand]

theorem owed_opened (files : Multiset Nat) (charge : Option Nat) :
    (opened files charge).owed = files.sum + (After.fd charge).hand ∧
      (opened files charge).pc = .idle := by
  cases charge <;> simp [opened, Task.owed, Pc.hand, After.hand, Nat.add_comm]

theorem owed_refused (files : Multiset Nat) (charge : Option Nat) :
    (refused files charge).owed = files.sum + (After.fd charge).hand ∧
      (refused files charge).pc.pend = 0 ∧ (refused files charge).pc.over = 0 := by
  cases charge <;> simp [refused, Task.owed, Pc.hand, After.hand, Pc.pend, Pc.over]

/-- One access keeps the account, given what the other tasks hold (`k`), have
given back (`o`) and may release on the same limiter (`x`). -/
theorem local_inv {s s' : Shared} {a a' : Account} {t t' : Task} (h : Local s a t s' a' t')
    {k o x : Nat} (htotal : s.remaining_memory + a.held + t.pc.pend + k = MAX + t.pc.over + o)
    (howed : t.owed + x ≤ a.held) (hover : o ≤ x + k)
    (hcount : a.consumed_memory = a.held % 2 ^ 32) :
    s'.remaining_memory + a'.held + t'.pc.pend + k = MAX + t'.pc.over + o ∧
      t'.owed + x ≤ a'.held ∧ a'.consumed_memory = a'.held % 2 ^ 32 := by
  have hmax : MAX = 2 ^ 32 - 1 := rfl
  cases h with
  | plain => exact ⟨htotal, howed, hcount⟩
  | file => exact ⟨htotal, howed, hcount⟩
  | @refuse files delta read after h =>
    cases after with
    | plain => exact ⟨htotal, howed, hcount⟩
    | file => exact ⟨htotal, howed, hcount⟩
    | fd charge =>
      obtain ⟨h1, h2, h3⟩ := owed_refused files charge
      unfold After.refusal
      rw [h1, h2, h3]
      exact ⟨htotal, howed, hcount⟩
  | exchange h hread =>
    unfold Pc.pend Pc.over at htotal ⊢
    dsimp only at htotal ⊢
    refine ⟨by omega, howed, hcount⟩
  | retry h hread => exact ⟨htotal, howed, hcount⟩
  | record => exact ⟨htotal, howed, hcount⟩
  | count files delta after =>
    have hcount' : (a.consumed_memory + delta) % 2 ^ 32 = (a.held + delta) % 2 ^ 32 := by
      rw [hcount]
      omega
    have htotal' : s.remaining_memory + a.held + delta + k = MAX + 0 + o := htotal
    cases after with
    | plain =>
      have howed' : files.sum + 0 + x ≤ a.held := howed
      show s.remaining_memory + (a.held + delta) + 0 + k = MAX + 0 + o ∧
        files.sum + 0 + x ≤ a.held + delta ∧ _
      exact ⟨by omega, by omega, hcount'⟩
    | file =>
      have howed' : files.sum + 0 + x ≤ a.held := howed
      show s.remaining_memory + (a.held + delta) + 0 + k = MAX + 0 + o ∧
        files.sum + delta + x ≤ a.held + delta ∧ _
      exact ⟨by omega, by omega, hcount'⟩
    | fd charge =>
      have howed' : files.sum + (After.fd charge).hand + x ≤ a.held := howed
      obtain ⟨h1, h2⟩ := owed_opened files charge
      unfold After.success
      rw [h1, h2]
      show s.remaining_memory + (a.held + delta) + 0 + k = MAX + 0 + o ∧
        files.sum + (After.fd charge).hand + x ≤ a.held + delta ∧ _
      exact ⟨by omega, by omega, hcount'⟩
  | placeFree => exact ⟨htotal, howed, hcount⟩
  | reuse files charge =>
    obtain ⟨h1, h2⟩ := owed_opened files charge
    rw [h1, h2]
    cases charge <;> exact ⟨htotal, howed, hcount⟩
  | full files charge =>
    obtain ⟨h1, h2, h3⟩ := owed_refused files charge
    rw [h1, h2, h3]
    cases charge <;> exact ⟨htotal, howed, hcount⟩
  | alloc files charge => cases charge <;> exact ⟨htotal, howed, hcount⟩
  | pop files charge =>
    refine ⟨htotal, ?_, hcount⟩
    unfold Task.owed at howed ⊢
    rw [Multiset.sum_cons] at howed
    dsimp only [Pc.hand] at howed ⊢
    omega
  | give files delta =>
    have howed' : files.sum + delta + x ≤ a.held := howed
    have htotal' : s.remaining_memory + a.held + 0 + k = MAX + 0 + o := htotal
    show (s.remaining_memory + delta) % 2 ^ 32 + a.held + 0 + k = MAX + delta + o ∧ _
    refine ⟨?_, howed, hcount⟩
    rw [Nat.mod_eq_of_lt (by omega)]
    omega
  | uncount files delta =>
    have howed' : files.sum + delta + x ≤ a.held := howed
    have htotal' : s.remaining_memory + a.held + 0 + k = MAX + delta + o := htotal
    show s.remaining_memory + (a.held - delta) + 0 + k = MAX + 0 + o ∧
      files.sum + 0 + x ≤ a.held - delta ∧ _
    refine ⟨by omega, by omega, ?_⟩
    dsimp only
    rw [hcount]
    omega

/-! ## The least remaining memory -/

/-- `left` is about to be recorded, and at most `r`. -/
def Task.Records (t : Task) (r : Nat) : Prop :=
  ∃ delta left after, t.pc = .record delta left after ∧ left ≤ r

theorem Task.Records.mono {t : Task} {r r' : Nat} (h : t.Records r) (hr : r ≤ r') : t.Records r' := by
  obtain ⟨delta, left, after, hpc, hle⟩ := h
  exact ⟨delta, left, after, hpc, hle.trans hr⟩

/-- The next access of a task about to record something records it. -/
theorem local_records {s s' : Shared} {a a' : Account} {t t' : Task} (h : Local s a t s' a' t')
    {r : Nat} (hrec : t.Records r) : s'.least_remaining_memory ≤ r := by
  obtain ⟨delta, left, after, hpc, hle⟩ := hrec
  cases h <;> cases hpc
  exact (Nat.min_le_right _ _).trans hle

theorem local_least {s s' : Shared} {a a' : Account} {t t' : Task} (h : Local s a t s' a' t') :
    s'.least_remaining_memory ≤ s.least_remaining_memory := by
  cases h <;> first | exact le_refl _ | exact Nat.min_le_left _ _

/-- A new low is about to be recorded. -/
theorem local_low {s s' : Shared} {a a' : Account} {t t' : Task} (h : Local s a t s' a' t') :
    s.remaining_memory ≤ s'.remaining_memory ∨ t'.Records s'.remaining_memory ∨
      ∃ delta, t.pc = .give delta := by
  cases h <;> first
    | exact .inl (le_refl _)
    | exact .inr (.inl ⟨_, _, _, rfl, le_refl _⟩)
    | exact .inr (.inr ⟨_, rfl⟩)

/-! ## All limiters -/

def Lim.pend (l : Lim) : Nat := (l.tasks.map fun t => t.pc.pend).sum

def Lim.over (l : Lim) : Nat := (l.tasks.map fun t => t.pc.over).sum

def Lim.owed (l : Lim) : Nat := (l.tasks.map Task.owed).sum

def heldSum (ls : Multiset Lim) : Nat := (ls.map fun l => l.account.held).sum

def pendSum (ls : Multiset Lim) : Nat := (ls.map Lim.pend).sum

def overSum (ls : Multiset Lim) : Nat := (ls.map Lim.over).sum

theorem heldSum_cons (l : Lim) (ls : Multiset Lim) :
    heldSum (l ::ₘ ls) = l.account.held + heldSum ls := by simp [heldSum]

theorem pendSum_cons (l : Lim) (ls : Multiset Lim) : pendSum (l ::ₘ ls) = l.pend + pendSum ls := by
  simp [pendSum]

theorem overSum_cons (l : Lim) (ls : Multiset Lim) : overSum (l ::ₘ ls) = l.over + overSum ls := by
  simp [overSum]

theorem pend_cons (a : Account) (t : Task) (ts : Multiset Task) (apart : Prop) :
    Lim.pend ⟨a, t ::ₘ ts, apart⟩ = t.pc.pend + Lim.pend ⟨a, ts, apart⟩ := by simp [Lim.pend]

theorem over_cons (a : Account) (t : Task) (ts : Multiset Task) (apart : Prop) :
    Lim.over ⟨a, t ::ₘ ts, apart⟩ = t.pc.over + Lim.over ⟨a, ts, apart⟩ := by simp [Lim.over]

theorem owed_cons (a : Account) (t : Task) (ts : Multiset Task) (apart : Prop) :
    Lim.owed ⟨a, t ::ₘ ts, apart⟩ = t.owed + Lim.owed ⟨a, ts, apart⟩ := by simp [Lim.owed]

theorem Lim.over_le_owed (l : Lim) : l.over ≤ l.owed :=
  Multiset.sum_map_le_sum_map _ _ fun t _ => Wasi.over_le_owed t

structure Inv (s : Sys) : Prop where
  total : s.shared.remaining_memory + heldSum s.lims + s.dropping.sum + pendSum s.lims =
    MAX + overSum s.lims
  owed : ∀ l ∈ s.lims, l.owed ≤ l.account.held
  count : ∀ l ∈ s.lims, l.account.consumed_memory = l.account.held % 2 ^ 32

theorem over_le_held {ls : Multiset Lim} (h : ∀ l ∈ ls, l.owed ≤ l.account.held) :
    overSum ls ≤ heldSum ls :=
  Multiset.sum_map_le_sum_map _ _ fun l hl => l.over_le_owed.trans (h l hl)

/-- What can be given back fits. -/
theorem Inv.give_fits {s : Sys} (h : Inv s) {l : Lim} (hl : l ∈ s.lims) {t : Task} (ht : t ∈ l.tasks)
    {delta : Nat} (hpc : t.pc = .give delta) : s.shared.remaining_memory + delta ≤ MAX := by
  obtain ⟨htotal, howed, -⟩ := h
  obtain ⟨rest, hrest⟩ := Multiset.exists_cons_of_mem hl
  obtain ⟨ts, hts⟩ := Multiset.exists_cons_of_mem ht
  obtain ⟨a, tasks, apart⟩ := l
  dsimp only at hts
  subst hts
  rw [hrest, heldSum_cons, pendSum_cons, overSum_cons, over_cons] at htotal
  have hl' := howed _ hl
  rw [owed_cons] at hl'
  have hothers : overSum rest ≤ heldSum rest := over_le_held fun x hx =>
    howed x (hrest ▸ Multiset.mem_cons_of_mem hx)
  have hts' := Lim.over_le_owed ⟨a, ts, apart⟩
  have h1 : t.pc.over = 0 := by rw [hpc]; rfl
  have h2 : delta ≤ t.owed := by
    unfold Task.owed
    rw [hpc]
    exact Nat.le_add_left _ _
  dsimp only at htotal hl'
  omega

theorem Inv.drop_fits {s : Sys} (h : Inv s) {c : Nat} (hc : c ∈ s.dropping) :
    s.shared.remaining_memory + c ≤ MAX := by
  obtain ⟨htotal, howed, -⟩ := h
  have hle := Multiset.single_le_sum (fun x _ => Nat.zero_le x) c hc
  have hover := over_le_held howed
  omega

theorem Inv.step {s s' : Sys} (h : Inv s) (hstep : SysStep s s') : Inv s' := by
  cases hstep with
  | @task shared a a' t t' ts apart rest hs hlocal =>
    obtain ⟨htotal, howed, hcount⟩ := h
    rw [hs] at htotal howed hcount
    have hl := howed _ (Multiset.mem_cons_self _ _)
    have hc := hcount _ (Multiset.mem_cons_self _ _)
    have hothers : overSum rest ≤ heldSum rest := over_le_held fun x hx =>
      howed x (Multiset.mem_cons_of_mem hx)
    have hts := Lim.over_le_owed ⟨a, ts, apart⟩
    rw [heldSum_cons, pendSum_cons, overSum_cons, over_cons, pend_cons] at htotal
    rw [owed_cons] at hl
    dsimp only at htotal hl hc
    obtain ⟨h1, h2, h3⟩ := local_inv hlocal
      (k := heldSum rest + s.dropping.sum + Lim.pend ⟨a, ts, apart⟩ + pendSum rest)
      (o := Lim.over ⟨a, ts, apart⟩ + overSum rest) (x := Lim.owed ⟨a, ts, apart⟩) (by omega) hl
      (by omega) hc
    refine ⟨?_, ?_, ?_⟩
    · dsimp only
      rw [heldSum_cons, pendSum_cons, overSum_cons, over_cons, pend_cons]
      have hp : Lim.pend ⟨a', ts, apart ∧ OneCall (t' ::ₘ ts)⟩ = Lim.pend ⟨a, ts, apart⟩ := rfl
      have ho : Lim.over ⟨a', ts, apart ∧ OneCall (t' ::ₘ ts)⟩ = Lim.over ⟨a, ts, apart⟩ := rfl
      rw [hp, ho]
      dsimp only
      omega
    · intro l hlmem
      rcases Multiset.mem_cons.mp hlmem with rfl | hlmem
      · rw [owed_cons]
        exact h2
      · exact howed l (Multiset.mem_cons_of_mem hlmem)
    · intro l hlmem
      rcases Multiset.mem_cons.mp hlmem with rfl | hlmem
      · exact h3
      · exact hcount l (Multiset.mem_cons_of_mem hlmem)
  | derived hne =>
    obtain ⟨htotal, howed, hcount⟩ := h
    refine ⟨?_, ?_, ?_⟩
    · dsimp only
      rw [heldSum_cons, pendSum_cons, overSum_cons]
      have hp : Lim.pend ⟨⟨0, 0⟩, 0, True⟩ = 0 := rfl
      have ho : Lim.over ⟨⟨0, 0⟩, 0, True⟩ = 0 := rfl
      rw [hp, ho]
      dsimp only
      omega
    · intro l hlmem
      rcases Multiset.mem_cons.mp hlmem with rfl | hlmem
      · exact le_refl _
      · exact howed l hlmem
    · intro l hlmem
      rcases Multiset.mem_cons.mp hlmem with rfl | hlmem
      · rfl
      · exact hcount l hlmem
  | @start a ts apart rest hs =>
    obtain ⟨htotal, howed, hcount⟩ := h
    rw [hs] at htotal howed hcount
    refine ⟨?_, ?_, ?_⟩
    · dsimp only
      rw [heldSum_cons, pendSum_cons, overSum_cons] at htotal ⊢
      rw [over_cons, pend_cons]
      dsimp only [Pc.pend, Pc.over] at htotal ⊢
      omega
    · intro l hlmem
      rcases Multiset.mem_cons.mp hlmem with rfl | hlmem
      · rw [owed_cons]
        have := howed _ (Multiset.mem_cons_self _ _)
        show (0 : Multiset Nat).sum + 0 + _ ≤ _
        rw [Multiset.sum_zero]
        dsimp only at this ⊢
        omega
      · exact howed l (Multiset.mem_cons_of_mem hlmem)
    · intro l hlmem
      rcases Multiset.mem_cons.mp hlmem with rfl | hlmem
      · exact hcount ⟨a, ts, apart⟩ (Multiset.mem_cons_self _ _)
      · exact hcount l (Multiset.mem_cons_of_mem hlmem)
  | @finish a t ts apart rest hs hquiet =>
    obtain ⟨htotal, howed, hcount⟩ := h
    rw [hs] at htotal howed hcount
    have hpc : t.pc.pend = 0 ∧ t.pc.over = 0 := by
      rcases hquiet with hq | ⟨charge, hq⟩ <;> rw [hq] <;> exact ⟨rfl, rfl⟩
    refine ⟨?_, ?_, ?_⟩
    · dsimp only
      rw [heldSum_cons, pendSum_cons, overSum_cons] at htotal ⊢
      rw [over_cons, pend_cons, hpc.1, hpc.2] at htotal
      dsimp only at htotal ⊢
      omega
    · intro l hlmem
      rcases Multiset.mem_cons.mp hlmem with rfl | hlmem
      · have := howed _ (Multiset.mem_cons_self _ _)
        rw [owed_cons] at this
        dsimp only at this ⊢
        omega
      · exact howed l (Multiset.mem_cons_of_mem hlmem)
    · intro l hlmem
      rcases Multiset.mem_cons.mp hlmem with rfl | hlmem
      · exact hcount ⟨a, t ::ₘ ts, apart⟩ (Multiset.mem_cons_self _ _)
      · exact hcount l (Multiset.mem_cons_of_mem hlmem)
  | @drop a apart rest hs =>
    obtain ⟨htotal, howed, hcount⟩ := h
    rw [hs] at htotal howed hcount
    rw [heldSum_cons, pendSum_cons, overSum_cons] at htotal
    have hothers : overSum rest ≤ heldSum rest := over_le_held fun x hx =>
      howed x (Multiset.mem_cons_of_mem hx)
    have hp : Lim.pend ⟨a, 0, apart⟩ = 0 := rfl
    have ho : Lim.over ⟨a, 0, apart⟩ = 0 := rfl
    have hmax : MAX = 2 ^ 32 - 1 := rfl
    have hc := hcount _ (Multiset.mem_cons_self _ _)
    dsimp only at hc htotal
    rw [Nat.mod_eq_of_lt (by omega)] at hc
    refine ⟨?_, fun l hl => howed l (Multiset.mem_cons_of_mem hl),
      fun l hl => hcount l (Multiset.mem_cons_of_mem hl)⟩
    dsimp only
    rw [Multiset.sum_cons, hc]
    omega
  | @dropped c rest hs =>
    have hfits := h.drop_fits (c := c) (hs ▸ Multiset.mem_cons_self _ _)
    obtain ⟨htotal, howed, hcount⟩ := h
    have hmax : MAX = 2 ^ 32 - 1 := rfl
    rw [hs, Multiset.sum_cons] at htotal
    refine ⟨?_, howed, hcount⟩
    dsimp only
    rw [Nat.mod_eq_of_lt (by omega)]
    omega

theorem new_inv : Inv Sys.new := by
  constructor
  · rfl
  · intro l hl
    rw [Multiset.mem_singleton.mp hl]
    exact le_refl _
  · intro l hl
    rw [Multiset.mem_singleton.mp hl]
    rfl

theorem Run.inv {s : Sys} {seen : List Nat} (h : Run s seen) : Inv s := by
  induction h with
  | new => exact new_inv
  | step h hstep ih => exact ih.step hstep

/-! ## The least of a run -/

/-- Recorded, or about to be by some task. -/
def Low (s : Sys) (r : Nat) : Prop :=
  s.shared.least_remaining_memory ≤ r ∨ ∃ l ∈ s.lims, ∃ t ∈ l.tasks, t.Records r

theorem Low.mono {s : Sys} {r r' : Nat} (h : Low s r) (hr : r ≤ r') : Low s r' := by
  rcases h with h | ⟨l, hl, t, ht, hrec⟩
  · exact .inl (h.trans hr)
  · exact .inr ⟨l, hl, t, ht, hrec.mono hr⟩

/-- A task about to record something stays where its limiter stays. -/
theorem Low.step {s s' : Sys} (hinv : Inv s) (hstep : SysStep s s') :
    (∀ r, Low s r → Low s' r) ∧
      (s.shared.remaining_memory ≤ s'.shared.remaining_memory ∨
        Low s' s'.shared.remaining_memory) := by
  cases hstep with
  | @task shared a a' t t' ts apart rest hs hlocal =>
    constructor
    · intro r hlow
      rcases hlow with hlow | ⟨l, hl, u, hu, hur⟩
      · exact .inl ((local_least hlocal).trans hlow)
      · rw [hs] at hl
        rcases Multiset.mem_cons.mp hl with rfl | hl
        · rcases Multiset.mem_cons.mp hu with rfl | hu
          · exact .inl (local_records hlocal hur)
          · exact .inr ⟨_, Multiset.mem_cons_self _ _, u, Multiset.mem_cons_of_mem hu, hur⟩
        · exact .inr ⟨l, Multiset.mem_cons_of_mem hl, u, hu, hur⟩
    · rcases local_low hlocal with h | h | ⟨delta, hpc⟩
      · exact .inl h
      · exact .inr (.inr ⟨_, Multiset.mem_cons_self _ _, t', Multiset.mem_cons_self _ _, h⟩)
      · left
        have hfits := hinv.give_fits (l := ⟨a, t ::ₘ ts, apart⟩) (hs ▸ Multiset.mem_cons_self _ _)
          (Multiset.mem_cons_self _ _) hpc
        have hmax : MAX = 2 ^ 32 - 1 := rfl
        cases hlocal <;> cases hpc
        dsimp only
        rw [Nat.mod_eq_of_lt (by omega)]
        omega
  | derived hne =>
    refine ⟨fun r hlow => ?_, .inl (le_refl _)⟩
    rcases hlow with hlow | ⟨l, hl, u, hu, hur⟩
    · exact .inl hlow
    · exact .inr ⟨l, Multiset.mem_cons_of_mem hl, u, hu, hur⟩
  | @start a ts apart rest hs =>
    refine ⟨fun r hlow => ?_, .inl (le_refl _)⟩
    rcases hlow with hlow | ⟨l, hl, u, hu, hur⟩
    · exact .inl hlow
    · rw [hs] at hl
      rcases Multiset.mem_cons.mp hl with rfl | hl
      · exact .inr ⟨_, Multiset.mem_cons_self _ _, u, Multiset.mem_cons_of_mem hu, hur⟩
      · exact .inr ⟨l, Multiset.mem_cons_of_mem hl, u, hu, hur⟩
  | @finish a t ts apart rest hs hquiet =>
    refine ⟨fun r hlow => ?_, .inl (le_refl _)⟩
    rcases hlow with hlow | ⟨l, hl, u, hu, hur⟩
    · exact .inl hlow
    · rw [hs] at hl
      rcases Multiset.mem_cons.mp hl with rfl | hl
      · rcases Multiset.mem_cons.mp hu with rfl | hu
        · obtain ⟨d, left, after, hpc, -⟩ := hur
          rcases hquiet with hq | ⟨charge, hq⟩ <;> rw [hq] at hpc <;> cases hpc
        · exact .inr ⟨_, Multiset.mem_cons_self _ _, u, hu, hur⟩
      · exact .inr ⟨l, Multiset.mem_cons_of_mem hl, u, hu, hur⟩
  | @drop a apart rest hs =>
    refine ⟨fun r hlow => ?_, .inl (le_refl _)⟩
    rcases hlow with hlow | ⟨l, hl, u, hu, hur⟩
    · exact .inl hlow
    · rw [hs] at hl
      rcases Multiset.mem_cons.mp hl with rfl | hl
      · exact absurd hu (Multiset.notMem_zero u)
      · exact .inr ⟨l, hl, u, hu, hur⟩
  | @dropped c rest hs =>
    have hfits := hinv.drop_fits (c := c) (hs ▸ Multiset.mem_cons_self _ _)
    have hmax : MAX = 2 ^ 32 - 1 := rfl
    refine ⟨fun r hlow => hlow, .inl ?_⟩
    dsimp only
    rw [Nat.mod_eq_of_lt (by omega)]
    omega

theorem Run.low {s : Sys} {seen : List Nat} (h : Run s seen) :
    Low s s.shared.remaining_memory ∧ ∀ r ∈ seen, Low s r := by
  induction h with
  | new =>
    refine ⟨.inl (le_refl _), fun r hr => .inl ?_⟩
    rw [List.mem_singleton.mp hr]
    exact le_refl _
  | @step s s' seen h hstep ih =>
    obtain ⟨hold, hnew⟩ := Low.step h.inv hstep
    have hcur : Low s' s'.shared.remaining_memory := by
      rcases hnew with hle | hlow
      · exact (hold _ ih.1).mono hle
      · exact hlow
    refine ⟨hcur, fun r hr => ?_⟩
    rcases List.mem_cons.mp hr with rfl | hr
    · exact hcur
    · exact hold r (ih.2 r hr)

/-! ## Calls that do not overlap -/

theorem quiet_over {ts : Multiset Task} (h : ∀ t ∈ ts, t.Quiet) (a : Account) (apart : Prop) :
    Lim.over ⟨a, ts, apart⟩ = 0 := by
  unfold Lim.over
  apply Multiset.sum_eq_zero
  intro n hn
  obtain ⟨t, ht, rfl⟩ := Multiset.mem_map.mp hn
  rcases h t ht with hq | ⟨charge, hq⟩ <;> rw [hq] <;> rfl

/-- A task that is between calls overlaps with none. -/
theorem OneCall.cons {ts : Multiset Task} (h : OneCall ts) {t : Task} (ht : t.Quiet) :
    OneCall (t ::ₘ ts) := by
  intro u us heq hnot
  rcases Multiset.cons_eq_cons.mp heq with ⟨rfl, -⟩ | ⟨-, vs, hts, hus⟩
  · exact absurd ht hnot
  · intro t' ht'
    rw [hus] at ht'
    rcases Multiset.mem_cons.mp ht' with rfl | ht'
    · exact ht
    · exact h u vs hts hnot t' ht'

theorem OneCall.tail {t : Task} {ts : Multiset Task} (h : OneCall (t ::ₘ ts)) : OneCall ts := by
  intro u us heq hnot t' ht'
  apply h u (t ::ₘ us) ?_ hnot t' (Multiset.mem_cons_of_mem ht')
  rw [heq, Multiset.cons_swap]

theorem oneCall_one (t : Task) : OneCall (t ::ₘ 0) := by
  intro u us heq _
  rcases Multiset.cons_eq_cons.mp heq with ⟨-, rfl⟩ | ⟨-, vs, hzero, -⟩
  · exact fun t' ht' => absurd ht' (Multiset.notMem_zero t')
  · exact absurd hzero.symm Multiset.cons_ne_zero

/-- While the other tasks of a limiter are between calls, what it counts has room
for what is being added. -/
theorem Inv.count_fits {s : Sys} (h : Inv s) {a : Account} {t : Task} {ts : Multiset Task}
    {apart : Prop} (hl : (⟨a, t ::ₘ ts, apart⟩ : Lim) ∈ s.lims) (hone : OneCall (t ::ₘ ts))
    {delta : Nat} {after : After} (hpc : t.pc = .count delta after) : a.held + delta ≤ MAX := by
  obtain ⟨htotal, howed, -⟩ := h
  have hnot : ¬ t.Quiet := by
    intro hq
    rcases hq with hq | ⟨charge, hq⟩ <;> rw [hpc] at hq <;> cases hq
  have hquiet := quiet_over (hone t ts rfl hnot) a apart
  obtain ⟨rest, hrest⟩ := Multiset.exists_cons_of_mem hl
  rw [hrest, heldSum_cons, pendSum_cons, overSum_cons, over_cons, pend_cons, hquiet, hpc] at htotal
  have hothers : overSum rest ≤ heldSum rest := over_le_held fun x hx =>
    howed x (hrest ▸ Multiset.mem_cons_of_mem hx)
  dsimp only [Pc.pend, Pc.over] at htotal
  omega

/-- Only the last access of a consumption makes a limiter hold more. -/
theorem local_held {s s' : Shared} {a a' : Account} {t t' : Task} (h : Local s a t s' a' t') :
    a'.held ≤ a.held ∨ ∃ delta after, t.pc = .count delta after ∧ a'.held = a.held + delta := by
  cases h <;> first
    | exact .inl (le_refl _)
    | exact .inl (Nat.sub_le _ _)
    | exact .inr ⟨_, _, rfl, rfl⟩

/-- What a limiter holds, where its calls never overlapped. -/
def Lim.Fits (l : Lim) : Prop := l.apart → OneCall l.tasks ∧ l.account.held ≤ MAX

theorem fits_new : Lim.Fits ⟨⟨0, 0⟩, 0, True⟩ := by
  intro _
  refine ⟨?_, Nat.zero_le _⟩
  intro t ts hts
  exact absurd hts.symm Multiset.cons_ne_zero

theorem Run.fits {s : Sys} {seen : List Nat} (h : Run s seen) : ∀ l ∈ s.lims, l.Fits := by
  induction h with
  | new =>
    intro l hl
    rw [Multiset.mem_singleton.mp hl]
    exact fits_new
  | @step s s' seen h hstep ih =>
    cases hstep with
    | @task shared a a' t t' ts apart rest hlims hlocal =>
      intro l hl
      rcases Multiset.mem_cons.mp hl with rfl | hl
      · have hmem : (⟨a, t ::ₘ ts, apart⟩ : Lim) ∈ s.lims := hlims ▸ Multiset.mem_cons_self _ _
        intro hapart
        obtain ⟨hone, hheld⟩ := ih _ hmem hapart.1
        refine ⟨hapart.2, ?_⟩
        rcases local_held hlocal with hle | ⟨delta, after, hpc, heq⟩
        · exact hle.trans hheld
        · dsimp only
          rw [heq]
          exact h.inv.count_fits hmem hone hpc
      · exact ih l (hlims ▸ Multiset.mem_cons_of_mem hl)
    | derived hne =>
      intro l hl
      rcases Multiset.mem_cons.mp hl with rfl | hl
      · exact fits_new
      · exact ih l hl
    | @start a ts apart rest hlims =>
      intro l hl
      rcases Multiset.mem_cons.mp hl with rfl | hl
      · intro hapart
        obtain ⟨hone, hheld⟩ := ih ⟨a, ts, apart⟩ (hlims ▸ Multiset.mem_cons_self _ _) hapart
        exact ⟨hone.cons (.inl rfl), hheld⟩
      · exact ih l (hlims ▸ Multiset.mem_cons_of_mem hl)
    | @finish a t ts apart rest hlims hquiet =>
      intro l hl
      rcases Multiset.mem_cons.mp hl with rfl | hl
      · intro hapart
        obtain ⟨hone, hheld⟩ := ih ⟨a, t ::ₘ ts, apart⟩ (hlims ▸ Multiset.mem_cons_self _ _) hapart
        exact ⟨hone.tail, hheld⟩
      · exact ih l (hlims ▸ Multiset.mem_cons_of_mem hl)
    | @drop a apart rest hlims => exact fun l hl => ih l (hlims ▸ Multiset.mem_cons_of_mem hl)
    | dropped hd => exact ih

/-- In every run, with calls interleaved access by access: between calls the
remaining memory and what the limiters count add up to `u32::MAX`, and the least
remaining memory is at most every value that was reached; no release and no drop
fails its assertion. What a limiter counts does not wrap either, where calls on
that limiter never overlapped. -/
theorem limiters_account {s : Sys} {seen : List Nat} (h : Run s seen) :
    ((∀ l ∈ s.lims, ∀ t ∈ l.tasks, t.Quiet) → s.dropping = 0 →
      s.shared.remaining_memory + (s.lims.map fun l => l.account.consumed_memory).sum = MAX ∧
        ∀ r ∈ seen, s.shared.least_remaining_memory ≤ r) ∧
    (∀ l ∈ s.lims, ∀ t ∈ l.tasks, ∀ delta, t.pc = .give delta →
      s.shared.remaining_memory + delta ≤ MAX) ∧
    (∀ c ∈ s.dropping, s.shared.remaining_memory + c ≤ MAX) ∧
    (∀ l ∈ s.lims, l.apart → ∀ t ∈ l.tasks,
      (∀ delta after, t.pc = .count delta after → l.account.consumed_memory + delta ≤ MAX) ∧
        ∀ delta, t.pc = .uncount delta → delta ≤ l.account.consumed_memory) := by
  have hinv := h.inv
  have hmax : MAX = 2 ^ 32 - 1 := rfl
  refine ⟨fun hquiet hdrop => ⟨?_, fun r hr => ?_⟩, fun l hl t ht delta hpc => hinv.give_fits hl ht hpc,
    fun c hc => hinv.drop_fits hc, fun l hl hap t ht => ?_⟩
  · obtain ⟨htotal, howed, hcount⟩ := hinv
    have hover : overSum s.lims = 0 := by
      apply Multiset.sum_eq_zero
      intro n hn
      obtain ⟨l, hl, rfl⟩ := Multiset.mem_map.mp hn
      exact quiet_over (hquiet l hl) l.account l.apart
    have hpend : pendSum s.lims = 0 := by
      apply Multiset.sum_eq_zero
      intro n hn
      obtain ⟨l, hl, rfl⟩ := Multiset.mem_map.mp hn
      apply Multiset.sum_eq_zero
      intro m hm
      obtain ⟨t, ht, rfl⟩ := Multiset.mem_map.mp hm
      rcases hquiet l hl t ht with hq | ⟨charge, hq⟩ <;> rw [hq] <;> rfl
    rw [hover, hpend, hdrop, Multiset.sum_zero] at htotal
    have hsame : (s.lims.map fun l => l.account.consumed_memory).sum = heldSum s.lims := by
      unfold heldSum
      congr 1
      apply Multiset.map_congr rfl
      intro l hl
      have hle : l.account.held ≤ heldSum s.lims :=
        Multiset.single_le_sum (fun x _ => Nat.zero_le x) _ (Multiset.mem_map_of_mem _ hl)
      rw [hcount l hl, Nat.mod_eq_of_lt (by omega)]
    rw [hsame]
    omega
  · rcases h.low.2 r hr with hlow | ⟨l, hl, t, ht, hrec⟩
    · exact hlow
    · obtain ⟨d, left, after, hpc, -⟩ := hrec
      rcases hquiet l hl t ht with hq | ⟨charge, hq⟩ <;> rw [hq] at hpc <;> cases hpc
  · obtain ⟨hone, hheld⟩ := h.fits l hl hap
    have hc := hinv.count l hl
    rw [Nat.mod_eq_of_lt (by omega)] at hc
    rw [hc]
    constructor
    · intro delta after hpc
      obtain ⟨ts, hts⟩ := Multiset.exists_cons_of_mem ht
      obtain ⟨a, tasks, apart⟩ := l
      dsimp only at hts
      subst hts
      exact hinv.count_fits hl hone hpc
    · intro delta hpc
      have howed := hinv.owed l hl
      have hle : t.owed ≤ l.owed :=
        Multiset.single_le_sum (fun x _ => Nat.zero_le x) _ (Multiset.mem_map_of_mem _ ht)
      have hdelta : delta ≤ t.owed := by
        unfold Task.owed
        rw [hpc]
        exact Nat.le_add_left _ _
      omega

theorem Run.task {shared shared' : Shared} {a a' : Account} {t t' : Task} {ts : Multiset Task}
    {apart : Prop} {rest : Multiset Lim} {dropping : Multiset Nat} {seen : List Nat}
    (h : Run ⟨shared, ⟨a, t ::ₘ ts, apart⟩ ::ₘ rest, dropping⟩ seen)
    (hlocal : Local shared a t shared' a' t') :
    Run ⟨shared', ⟨a', t' ::ₘ ts, apart ∧ OneCall (t' ::ₘ ts)⟩ ::ₘ rest, dropping⟩
      (shared'.remaining_memory :: seen) :=
  .step h (.task rfl hlocal)

theorem Run.begin {shared : Shared} {a : Account} {ts : Multiset Task} {apart : Prop}
    {rest : Multiset Lim} {dropping : Multiset Nat} {seen : List Nat}
    (h : Run ⟨shared, ⟨a, ts, apart⟩ ::ₘ rest, dropping⟩ seen) :
    Run ⟨shared, ⟨a, ⟨0, .idle⟩ ::ₘ ts, apart⟩ ::ₘ rest, dropping⟩
      (shared.remaining_memory :: seen) :=
  .step h (.start rfl)

/-- A file of ten bytes is opened through a derived limiter and closed again: while
the bytes are added the counter has room for them, while they are given back the
remaining memory has, and in the end all is as before but the least that remained. -/
theorem limiters_account_file :
    (∃ s seen, Run s seen ∧ ∃ l ∈ s.lims, l.apart ∧ (∃ t ∈ l.tasks, t.pc = .count 10 .file) ∧
      l.account.consumed_memory + 10 ≤ MAX) ∧
    (∃ s seen, Run s seen ∧ (∃ l ∈ s.lims, ∃ t ∈ l.tasks, t.pc = .give 10) ∧
      s.shared.remaining_memory = MAX - 10 ∧ s.shared.remaining_memory + 10 ≤ MAX) ∧
    ∃ s seen, Run s seen ∧ MAX - 10 ∈ seen ∧ s.shared.least_remaining_memory ≤ MAX - 10 ∧
      s.shared.remaining_memory + (s.lims.map fun l => l.account.consumed_memory).sum = MAX := by
  have r0 : Run ⟨⟨MAX, MAX⟩, ⟨⟨0, 0⟩, 0, True⟩ ::ₘ Sys.new.lims, 0⟩ _ :=
    .step .new (.derived (Multiset.singleton_ne_zero _))
  have r1 := r0.begin.task (.file _ _ _ 10)
  have r2 := r1.task (.exchange (by decide) rfl)
  have r3 := r2.task (.record _ _ _ _ _ _)
  have r4 := r3.task (.count _ _ _ _ _)
  have r5 := r4.task (.reuse _ _ _ _)
  have r6 := r5.task (.pop _ _ _ _)
  have r7 := r6.task (.give _ _ _ _)
  have r8 := r7.task (.uncount _ _ _ _)
  obtain ⟨-, -, -, hcount⟩ := limiters_account r3
  obtain ⟨-, hgive, -⟩ := limiters_account r6
  obtain ⟨hsum, -⟩ := limiters_account r8
  dsimp only at hcount hgive hsum
  refine ⟨⟨_, _, r3, ?_⟩, ⟨_, _, r6, ?_, rfl, ?_⟩, ⟨_, _, r8, ?_, le_refl _, ?_⟩⟩
  · have hapart : (True ∧ OneCall (⟨0, .loaded 10 MAX .file⟩ ::ₘ 0)) ∧
        OneCall (⟨0, .record 10 (MAX - 10) .file⟩ ::ₘ 0) := ⟨⟨trivial, oneCall_one _⟩, oneCall_one _⟩
    have hfits := hcount _ (Multiset.mem_cons_self _ _) ⟨hapart, oneCall_one _⟩
    dsimp only at hfits ⊢
    refine ⟨_, Multiset.mem_cons_self _ _, ⟨hapart, oneCall_one _⟩, ?_⟩
    dsimp only
    exact ⟨⟨_, Multiset.mem_cons_self _ _, rfl⟩, (hfits _ (Multiset.mem_cons_self _ _)).1 10 .file rfl⟩
  · dsimp only
    refine ⟨_, Multiset.mem_cons_self _ _, ?_⟩
    dsimp only
    exact ⟨_, Multiset.mem_cons_self _ _, rfl⟩
  · have hfits := hgive _ (Multiset.mem_cons_self _ _)
    dsimp only at hfits
    exact hfits _ (Multiset.mem_cons_self _ _) 10 rfl
  · simp
  · refine (hsum (fun l hl t ht => ?_) rfl).1
    rcases Multiset.mem_cons.mp hl with rfl | hl
    · rw [(Multiset.mem_cons.mp ht).resolve_right (Multiset.notMem_zero t)]
      exact .inl rfl
    · rw [Multiset.mem_singleton.mp hl] at ht
      exact absurd ht (Multiset.notMem_zero t)

/-- Two tasks on one limiter: while the one is giving a file of `u32::MAX` bytes
back, the other takes them, and adds them to what the limiter still counts. -/
theorem consumed_wraps : ∃ s seen, Run s seen ∧ ∃ l ∈ s.lims, ∃ t ∈ l.tasks,
    ∃ delta after, t.pc = .count delta after ∧ ¬ l.account.consumed_memory + delta < 2 ^ 32 := by
  have r1 : Run ⟨⟨MAX, MAX⟩, ⟨⟨0, 0⟩, ⟨0, .idle⟩ ::ₘ 0, True⟩ ::ₘ 0, 0⟩ _ :=
    .step .new (.start (a := ⟨0, 0⟩) (Multiset.cons_zero _).symm)
  have r2 := r1.task (.file _ _ _ MAX)
  have r3 := r2.task (.exchange (by decide) rfl)
  have r4 := r3.task (.record _ _ _ _ _ _)
  have r5 := r4.task (.count _ _ _ _ _)
  have r6 := r5.task (.reuse _ _ _ _)
  have r7 := r6.task (.pop _ _ _ _)
  have r8 := r7.task (.give _ _ _ _)
  have r9 := r8.begin
  have r10 := r9.task (.plain _ _ _ MAX)
  have r11 := r10.task (.exchange (by decide) rfl)
  have r12 := r11.task (.record _ _ _ _ _ _)
  refine ⟨_, _, r12, ?_⟩
  dsimp only
  refine ⟨_, Multiset.mem_cons_self _ _, ?_⟩
  dsimp only
  refine ⟨_, Multiset.mem_cons_self _ _, ?_⟩
  exact ⟨MAX, .plain, rfl, by decide⟩

end GenVM.Wasi
