import GenVM.Lib.MinRace
import GenVM.Vm.Types

/-!
# The queue of validator tasks (`executor/src/rt/supervisor/mod.rs`)

On a validator each `run_nondet` of the contract submits a task to a channel.
One loop takes tasks from it while the contract runs, a second one may join when
the contract is over. The least number of a call the validator disagrees with is
kept in an atomic; a loop that finds something there skips its task. The contract
itself marks a call whose leader result is empty.

`Queue.step` is one atomic step of the contract, of a loop, or of
`await_nondet_vms`. `calls` is a record of all calls made, which no step reads.

* `await_nondet_vms_iff`: the wait ends, and it reports the earliest call just
  when no disagreement was recorded while the earliest one still waited for its
  check, and no task that ran ended in an error of the executor.
* `marked_call_hides_earlier`: a direct mark makes the loop skip an earlier task.
-/
namespace GenVM.Vm
open GenVM.Lib GenVM.Lib.MinRace GenVM.Calldata

/-- mirrors executor/crates/calldata/src/codec/de/unparsed.rs:138-148 -/
def as_bool : Maybe Calldata.Tree → Option Bool
  | .materialized (.bool b) => some b
  | .materialized _ => none
  | .checked raw =>
    match raw.head? with
    | some b =>
      if b = UInt8.ofNat SPECIAL_TRUE then some true
      else if b = UInt8.ofNat SPECIAL_FALSE then some false
      else none
    | none => none

/-- `res` is what the validator of the task ends with, nothing for an error of
the executor.
mirrors executor/src/rt/supervisor/mod.rs:24-28 -/
structure NonDetVMTask where
  call_no : Nat
  res : Option RunOk

/-- mirrors executor/src/rt/supervisor/mod.rs:556-575 -/
def NonDetVMTask.do_disagree (task : NonDetVMTask) : Option Bool :=
  match task.res with
  | some (.Return v) =>
    match as_bool v with
    | none => some true
    | some b => some !b
  | some _ => some true
  | none => none

def NonDetVMTask.item (task : NonDetVMTask) : MinRace.Item := ⟨task.call_no, task.do_disagree⟩

/-! ## State -/

/-- A loop of `nondet_vm_processor`: it waits, took a task, runs it, is about to
drop its token, or is over. -/
inductive Worker where
  | idle
  | received (task : NonDetVMTask)
  | running (task : NonDetVMTask)
  | dropping
  | stopped

inductive Side where
  | primary | secondary
  deriving DecidableEq

/-- The contract, and then `await_nondet_vms`. -/
inductive Phase where
  | executing
  | closed
  | counted
  | waiting
  | returned (res : Except Unit (Option Nat))

/-- mirrors executor/src/rt/supervisor/mod.rs:44-51 -/
structure Queue where
  main : Phase
  nondet_call_no : Nat
  channel : List NonDetVMTask
  workers : Side → Worker
  nondet_call_disagree : Nat
  vm_countdown : Nat
  encountered_error : Bool
  calls : List (Nat × Bool)

def U32_MAX : Nat := 2 ^ 32 - 1
def CHANNEL_SIZE : Nat := 100

/-- mirrors executor/src/rt/supervisor/mod.rs:311-345 -/
def Queue.start : Queue :=
  { main := .executing
    nondet_call_no := 0
    channel := []
    workers := fun side => if side = .primary then .idle else .stopped
    nondet_call_disagree := U32_MAX
    vm_countdown := 1
    encountered_error := false
    calls := [] }

/-! ## Steps -/

inductive Act where
  /-- A call of the contract: with a task, with an empty leader result, or without either. -/
  | submit (res : Option RunOk) | mark | pass
  /-- `await_nondet_vms`. -/
  | close | decrement | join | wait
  /-- A loop. -/
  | recv (side : Side) | check (side : Side) | finish (side : Side) | drop (side : Side)
  | stop (side : Side)

def Queue.setWorker (q : Queue) (side : Side) (worker : Worker) : Queue :=
  { q with workers := fun s => if s = side then worker else q.workers s }

/-- Token of a task.
mirrors executor/src/rt/supervisor/mod.rs:36-42 -/
def Queue.decrement (q : Queue) : Queue := { q with vm_countdown := q.vm_countdown - 1 }

/-- mirrors executor/src/rt/supervisor/mod.rs:186-222, wasi/genlayer_sdk.rs:1700-1757 -/
def Queue.call (q : Queue) : Act → Option Queue
  | .submit res =>
    -- `send` waits while the channel is full
    if q.nondet_call_no < NONDET_BLOCKS ∧ q.channel.length < CHANNEL_SIZE then
      some { q with
        nondet_call_no := q.nondet_call_no + 1
        vm_countdown := q.vm_countdown + 1
        channel := q.channel ++ [⟨q.nondet_call_no, res⟩]
        calls := q.calls ++ [(q.nondet_call_no, (NonDetVMTask.item ⟨q.nondet_call_no, res⟩).bad)] }
    else none
  | .mark =>
    if q.nondet_call_no < NONDET_BLOCKS then
      some { q with
        nondet_call_no := q.nondet_call_no + 1
        nondet_call_disagree := min q.nondet_call_disagree q.nondet_call_no
        calls := q.calls ++ [(q.nondet_call_no, true)] }
    else none
  | .pass => some { q with nondet_call_no := q.nondet_call_no + 1 }
  | _ => none

/-- mirrors executor/src/rt/supervisor/mod.rs:164-177 -/
def Queue.answer (q : Queue) : Except Unit (Option Nat) :=
  if q.encountered_error then .error ()
  else if q.nondet_call_disagree = U32_MAX then .ok none
  else .ok (some q.nondet_call_disagree)

/-- mirrors executor/src/rt/supervisor/mod.rs:140-180 -/
def Queue.await_nondet_vms (q : Queue) : Act → Option Queue
  | .close =>
    match q.main with
    | .executing => some { q with main := .closed }
    | _ => none
  | .decrement =>
    match q.main with
    | .closed => some { q.decrement with main := .counted }
    | _ => none
  | .join =>
    match q.main with
    | .counted =>
      some { (if q.channel.isEmpty then q else q.setWorker .secondary .idle) with main := .waiting }
    | _ => none
  | .wait =>
    match q.main, q.workers .primary, q.workers .secondary with
    | .waiting, .stopped, .stopped => some { q with main := .returned q.answer }
    | _, _, _ => none
  | _ => none

/-- A disagreement is recorded.
mirrors executor/src/rt/supervisor/mod.rs:579-582 -/
def Queue.record (q : Queue) (task : NonDetVMTask) : Queue :=
  match task.do_disagree with
  | some true => { q with nondet_call_disagree := min q.nondet_call_disagree task.call_no }
  | some false => q
  | none => { q with encountered_error := true }

def Queue.is_closed (q : Queue) : Bool :=
  match q.main with
  | .executing => false
  | _ => true

/-- mirrors executor/src/rt/supervisor/mod.rs:518-591 -/
def Queue.nondet_vm_processor (q : Queue) : Act → Option Queue
  | .recv side =>
    match q.workers side, q.channel with
    | .idle, task :: rest => some { q.setWorker side (.received task) with channel := rest }
    | _, _ => none
  | .check side =>
    match q.workers side with
    | .received task =>
      some (q.setWorker side
        (if q.nondet_call_disagree = U32_MAX then .running task else .dropping))
    | _ => none
  | .finish side =>
    match q.workers side with
    | .running task => some ((q.record task).setWorker side .dropping)
    | _ => none
  | .drop side =>
    match q.workers side with
    | .dropping => some (q.decrement.setWorker side .idle)
    | _ => none
  | .stop side =>
    match q.workers side with
    | .idle =>
      if q.vm_countdown = 0 ∨ (q.is_closed = true ∧ q.channel = []) then
        some (q.setWorker side .stopped)
      else none
    | _ => none
  | _ => none

def Queue.step (q : Queue) (a : Act) : Option Queue :=
  match a with
  | .submit _ | .mark | .pass =>
    match q.main with
    | .executing => q.call a
    | _ => none
  | .close | .decrement | .join | .wait => q.await_nondet_vms a
  | .recv _ | .check _ | .finish _ | .drop _ | .stop _ => q.nondet_vm_processor a

def Queue.run (q : Queue) : List Act → Option Queue
  | [] => some q
  | a :: acts => (q.step a).bind fun q' => q'.run acts

/-! ## The condition -/

/-- The task waits for its check: it is in the channel, or a loop just took it. -/
def Queue.Unchecked (q : Queue) (task : NonDetVMTask) : Prop :=
  task ∈ q.channel ∨ ∃ side, q.workers side = .received task

/-- The earliest call the validator disagrees with still waits for its check. -/
def Queue.EarliestUnchecked (q : Queue) : Prop :=
  ∃ task, q.Unchecked task ∧ Earliest q.calls (some task.call_no)

/-- A step neither records a disagreement while an earlier one still waits, nor
ends a task with an error of the executor. -/
def Queue.Fine (q : Queue) : Act → Prop
  | .mark => ¬ q.EarliestUnchecked
  | .finish side => ∀ task, q.workers side = .running task →
    task.res.isSome = true ∧ (task.do_disagree = some true → ¬ q.EarliestUnchecked)
  | _ => True

def Queue.AllFine (q : Queue) : List Act → Prop
  | [] => True
  | a :: acts => q.Fine a ∧ ∀ q', q.step a = some q' → q'.AllFine acts

/-! ## Workers -/

/-- A sum over both loops. -/
def Queue.total {M : Type} [Add M] (q : Queue) (f : Worker → M) : M :=
  f (q.workers .primary) + f (q.workers .secondary)

theorem total_setWorker {M : Type} [AddCommMonoid M] (q : Queue) (f : Worker → M) (side : Side)
    (worker : Worker) :
    (q.setWorker side worker).total f + f (q.workers side) = q.total f + f worker := by
  cases side with
  | primary =>
    show f worker + f (q.workers .secondary) + f (q.workers .primary) =
      f (q.workers .primary) + f (q.workers .secondary) + f worker
    abel
  | secondary =>
    show f (q.workers .primary) + f worker + f (q.workers .secondary) =
      f (q.workers .primary) + f (q.workers .secondary) + f worker
    abel

section
variable {M : Type} [AddCancelCommMonoid M] (q : Queue) (f : Worker → M) (side : Side)
  (worker : Worker)

theorem total_gain (h : f (q.workers side) = 0) :
    (q.setWorker side worker).total f = q.total f + f worker := by
  rw [← total_setWorker, h, add_zero]

theorem total_lose (h : f worker = 0) :
    q.total f = (q.setWorker side worker).total f + f (q.workers side) := by
  rw [total_setWorker, h, add_zero]

theorem total_same (h : f (q.workers side) = f worker) :
    (q.setWorker side worker).total f = q.total f := by
  have hsum := total_setWorker q f side worker
  rw [h] at hsum
  exact add_right_cancel hsum

end

def Worker.taken : Worker → Multiset MinRace.Item
  | .received task => {task.item}
  | _ => 0

def Worker.checked : Worker → Multiset MinRace.Item
  | .running task => {task.item}
  | _ => 0

/-- A loop holds the token of a task. -/
def Worker.busy : Worker → Nat
  | .received _ | .running _ | .dropping => 1
  | _ => 0

theorem mem_total {q : Queue} {f : Worker → Multiset MinRace.Item} {i : MinRace.Item} :
    i ∈ q.total f ↔ ∃ side, i ∈ f (q.workers side) := by
  unfold Queue.total
  rw [Multiset.mem_add]
  constructor
  · intro h
    rcases h with h | h
    · exact ⟨.primary, h⟩
    · exact ⟨.secondary, h⟩
  · intro h
    obtain ⟨side, h⟩ := h
    cases side with
    | primary => exact .inl h
    | secondary => exact .inr h

/-! ## The race -/

/-- Nothing is recorded at `u32::MAX`. -/
def Queue.recorded (q : Queue) : Option Nat :=
  if q.nondet_call_disagree = U32_MAX then none else some q.nondet_call_disagree

/-- The queue as a race to the least call: which loop takes what, and in which
order, does not matter. -/
def Queue.pool (q : Queue) : Pool :=
  { calls := q.calls
    next := q.nondet_call_no
    waiting := q.total Worker.taken + (q.channel.map NonDetVMTask.item : Multiset MinRace.Item)
    running := q.total Worker.checked
    recorded := q.recorded
    failed := q.encountered_error }

/-- What the contract still holds of the countdown. -/
def Phase.open : Phase → Nat
  | .executing | .closed => 1
  | _ => 0

/-- The second loop may run. -/
def Phase.joined : Phase → Bool
  | .waiting | .returned _ => true
  | _ => false

/-- mirrors executor/crates/common/src/sync.rs:384-436 -/
structure Queue.Inv (q : Queue) : Prop where
  pool : MinRace.Inv q.pool
  small : ∀ c ∈ q.calls, c.1 < NONDET_BLOCKS
  countdown : q.vm_countdown = q.main.open + q.channel.length + q.total Worker.busy
  stopped : q.workers .primary = .stopped → q.is_closed = true ∧ q.channel = []
  alone : q.main.joined = false → q.workers .secondary = .stopped
  returned : ∀ r, q.main = .returned r → q.workers .primary = .stopped ∧
    q.workers .secondary = .stopped ∧ r = q.answer

theorem recorded_min {d c : Nat} (hc : c < NONDET_BLOCKS) :
    (if min d c = U32_MAX then none else some (min d c)) =
      some (least (if d = U32_MAX then none else some d) c) := by
  have hlt : c < U32_MAX := lt_trans hc (by decide)
  rw [if_neg (Nat.ne_of_lt (lt_of_le_of_lt (min_le_right d c) hlt))]
  split
  · next h =>
    rw [h]
    exact congrArg some (min_eq_right (Nat.le_of_lt hlt))
  · rfl

/-- The record of a task. -/
theorem record_pool (q : Queue) {task : NonDetVMTask} (hc : task.call_no < NONDET_BLOCKS) :
    (q.record task).recorded =
      (if task.item.bad then some (least q.recorded task.item.key) else q.recorded) ∧
    (q.record task).encountered_error = (q.encountered_error || task.item.verdict.isNone) := by
  unfold Queue.record MinRace.Item.bad NonDetVMTask.item
  dsimp only
  cases task.do_disagree with
  | none => exact ⟨rfl, (Bool.or_true _).symm⟩
  | some b =>
    cases b with
    | false => exact ⟨rfl, (Bool.or_false _).symm⟩
    | true => exact ⟨recorded_min hc, (Bool.or_false _).symm⟩

@[simp] theorem record_main (q : Queue) (task : NonDetVMTask) : (q.record task).main = q.main := by
  unfold Queue.record
  split <;> rfl

@[simp] theorem record_channel (q : Queue) (task : NonDetVMTask) :
    (q.record task).channel = q.channel := by
  unfold Queue.record
  split <;> rfl

@[simp] theorem record_workers (q : Queue) (task : NonDetVMTask) :
    (q.record task).workers = q.workers := by
  unfold Queue.record
  split <;> rfl

@[simp] theorem record_countdown (q : Queue) (task : NonDetVMTask) :
    (q.record task).vm_countdown = q.vm_countdown := by
  unfold Queue.record
  split <;> rfl

@[simp] theorem record_calls (q : Queue) (task : NonDetVMTask) : (q.record task).calls = q.calls := by
  unfold Queue.record
  split <;> rfl

@[simp] theorem record_call_no (q : Queue) (task : NonDetVMTask) :
    (q.record task).nondet_call_no = q.nondet_call_no := by
  unfold Queue.record
  split <;> rfl

/-! ## What a step does -/

/-- The cases of `Queue.step`. -/
inductive Steps (q : Queue) : Act → Queue → Prop
  | submit (res : Option RunOk) : q.main = .executing → q.nondet_call_no < NONDET_BLOCKS →
      Steps q (.submit res) { q with
        nondet_call_no := q.nondet_call_no + 1
        vm_countdown := q.vm_countdown + 1
        channel := q.channel ++ [⟨q.nondet_call_no, res⟩]
        calls := q.calls ++ [(q.nondet_call_no, (NonDetVMTask.item ⟨q.nondet_call_no, res⟩).bad)] }
  | mark : q.main = .executing → q.nondet_call_no < NONDET_BLOCKS →
      Steps q .mark { q with
        nondet_call_no := q.nondet_call_no + 1
        nondet_call_disagree := min q.nondet_call_disagree q.nondet_call_no
        calls := q.calls ++ [(q.nondet_call_no, true)] }
  | pass : q.main = .executing → Steps q .pass { q with nondet_call_no := q.nondet_call_no + 1 }
  | close : q.main = .executing → Steps q .close { q with main := .closed }
  | decrement : q.main = .closed → Steps q .decrement { q.decrement with main := .counted }
  | join : q.main = .counted →
      Steps q .join
        { (if q.channel.isEmpty then q else q.setWorker .secondary .idle) with main := .waiting }
  | wait : q.main = .waiting → q.workers .primary = .stopped → q.workers .secondary = .stopped →
      Steps q .wait { q with main := .returned q.answer }
  | recv (side : Side) {task : NonDetVMTask} {rest : List NonDetVMTask} :
      q.workers side = .idle → q.channel = task :: rest →
      Steps q (.recv side) { q.setWorker side (.received task) with channel := rest }
  | check (side : Side) {task : NonDetVMTask} : q.workers side = .received task →
      Steps q (.check side) (q.setWorker side
        (if q.nondet_call_disagree = U32_MAX then .running task else .dropping))
  | finish (side : Side) {task : NonDetVMTask} : q.workers side = .running task →
      Steps q (.finish side) ((q.record task).setWorker side .dropping)
  | drop (side : Side) : q.workers side = .dropping →
      Steps q (.drop side) (q.decrement.setWorker side .idle)
  | stop (side : Side) : q.workers side = .idle →
      q.vm_countdown = 0 ∨ (q.is_closed = true ∧ q.channel = []) →
      Steps q (.stop side) (q.setWorker side .stopped)

theorem step_cases {q q' : Queue} {a : Act} (h : q.step a = some q') : Steps q a q' := by
  cases a with
  | submit res =>
    unfold Queue.step at h
    dsimp only at h
    split at h
    · next hm =>
      unfold Queue.call at h
      dsimp only at h
      split at h
      · next hg =>
        cases h
        exact .submit res hm hg.1
      · cases h
    · cases h
  | mark =>
    unfold Queue.step at h
    dsimp only at h
    split at h
    · next hm =>
      unfold Queue.call at h
      dsimp only at h
      split at h
      · next hg =>
        cases h
        exact .mark hm hg
      · cases h
    · cases h
  | pass =>
    unfold Queue.step at h
    dsimp only at h
    split at h
    · next hm =>
      cases h
      exact .pass hm
    · cases h
  | close =>
    change q.await_nondet_vms .close = some q' at h
    unfold Queue.await_nondet_vms at h
    dsimp only at h
    split at h
    · next hm =>
      cases h
      exact .close hm
    · cases h
  | decrement =>
    change q.await_nondet_vms .decrement = some q' at h
    unfold Queue.await_nondet_vms at h
    dsimp only at h
    split at h
    · next hm =>
      cases h
      exact .decrement hm
    · cases h
  | join =>
    change q.await_nondet_vms .join = some q' at h
    unfold Queue.await_nondet_vms at h
    dsimp only at h
    split at h
    · next hm =>
      cases h
      exact .join hm
    · cases h
  | wait =>
    change q.await_nondet_vms .wait = some q' at h
    unfold Queue.await_nondet_vms at h
    dsimp only at h
    split at h
    · next hm hp hs =>
      cases h
      exact .wait hm hp hs
    · cases h
  | recv side =>
    change q.nondet_vm_processor (.recv side) = some q' at h
    unfold Queue.nondet_vm_processor at h
    dsimp only at h
    split at h
    · next hw hc =>
      cases h
      exact .recv side hw hc
    · cases h
  | check side =>
    change q.nondet_vm_processor (.check side) = some q' at h
    unfold Queue.nondet_vm_processor at h
    dsimp only at h
    split at h
    · next hw =>
      cases h
      exact .check side hw
    · cases h
  | finish side =>
    change q.nondet_vm_processor (.finish side) = some q' at h
    unfold Queue.nondet_vm_processor at h
    dsimp only at h
    split at h
    · next hw =>
      cases h
      exact .finish side hw
    · cases h
  | drop side =>
    change q.nondet_vm_processor (.drop side) = some q' at h
    unfold Queue.nondet_vm_processor at h
    dsimp only at h
    split at h
    · next hw =>
      cases h
      exact .drop side hw
    · cases h
  | stop side =>
    change q.nondet_vm_processor (.stop side) = some q' at h
    unfold Queue.nondet_vm_processor at h
    dsimp only at h
    split at h
    · next hw =>
      split at h
      · next hg =>
        cases h
        exact .stop side hw hg
      · cases h
    · cases h

/-! ## A step of the queue is a step of the race -/

theorem mem_waiting {q : Queue} {i : MinRace.Item} :
    i ∈ q.pool.waiting ↔ ∃ task, q.Unchecked task ∧ task.item = i := by
  show i ∈ q.total Worker.taken + _ ↔ _
  rw [Multiset.mem_add, mem_total, Multiset.mem_coe, List.mem_map]
  constructor
  · intro h
    rcases h with ⟨side, h⟩ | ⟨task, ht, rfl⟩
    · cases hw : q.workers side with
      | received task =>
        rw [hw] at h
        exact ⟨task, .inr ⟨side, hw⟩, (Multiset.mem_singleton.mp h).symm⟩
      | _ =>
        rw [hw] at h
        exact absurd h (Multiset.notMem_zero i)
    · exact ⟨task, .inl ht, rfl⟩
  · intro h
    obtain ⟨task, ht | ⟨side, hw⟩, rfl⟩ := h
    · exact .inr ⟨task, ht, rfl⟩
    · refine .inl ⟨side, ?_⟩
      rw [hw]
      exact Multiset.mem_singleton_self _

theorem earliestUnchecked_iff {q : Queue} : q.EarliestUnchecked ↔
    ∃ n, Earliest q.pool.calls (some n) ∧ ∃ i ∈ q.pool.waiting, i.key = n := by
  constructor
  · intro h
    obtain ⟨task, ht, hn⟩ := h
    exact ⟨_, hn, task.item, mem_waiting.mpr ⟨task, ht, rfl⟩, rfl⟩
  · intro h
    obtain ⟨n, hn, i, hi, rfl⟩ := h
    obtain ⟨task, ht, rfl⟩ := mem_waiting.mp hi
    exact ⟨task, ht, hn⟩

theorem timely_iff {q : Queue} {l : Label} (hl : l.Records) :
    MinRace.Timely q.pool l ↔ ¬ q.EarliestUnchecked := by
  rw [earliestUnchecked_iff]
  constructor
  · intro h hu
    obtain ⟨n, hn, i, hi, hkey⟩ := hu
    exact h hl n hn i hi hkey
  · intro h _ n hn i hi hkey
    exact h ⟨n, hn, i, hi, hkey⟩

/-- The verdict is missing just where the executor failed. -/
theorem do_disagree_isSome (task : NonDetVMTask) :
    task.do_disagree ≠ none ↔ task.res.isSome = true := by
  unfold NonDetVMTask.do_disagree
  cases hres : task.res with
  | none => exact ⟨fun h => absurd rfl h, fun h => nomatch h⟩
  | some res =>
    refine ⟨fun _ => rfl, fun _ h => ?_⟩
    split at h
    · next v _ => cases hb : as_bool v <;> rw [hb] at h <;> cases h
    · cases h
    · next hn => cases hn

theorem add_singleton (a : Multiset MinRace.Item) (x : MinRace.Item) : a + {x} = x ::ₘ a := by
  rw [add_comm, Multiset.singleton_add]

theorem add_singleton_add (a c : Multiset MinRace.Item) (x : MinRace.Item) :
    a + {x} + c = x ::ₘ (a + c) := by
  rw [add_singleton, Multiset.cons_add]

theorem sound_quiet (p : Pool) {l : Label} (hr : ¬ l.Records) (hf : ∀ i, l ≠ .finish i) : Sound p l :=
  ⟨fun h => absurd h hr, fun i h => absurd h (hf i)⟩

theorem Steps.simulates {q q' : Queue} {a : Act} (h : Steps q a q') (hi : q.Inv) :
    ∃ l, MinRace.Step q.pool l q'.pool ∧ (Sound q.pool l ↔ q.Fine a) := by
  have hquiet : ∀ {q' : Queue}, q'.pool = q.pool → MinRace.Step q.pool .quiet q'.pool := by
    intro q' heq
    rw [heq]
    exact .quiet q.pool
  have hsound : ∀ {l : Label}, ¬ l.Records → (∀ i, l ≠ .finish i) → q.Fine a →
      (Sound q.pool l ↔ q.Fine a) := fun hr hf ha => iff_of_true (sound_quiet _ hr hf) ha
  cases h with
  | submit res hm hg =>
    have hstep := MinRace.Step.submit q.pool (NonDetVMTask.item ⟨q.nondet_call_no, res⟩).verdict
    refine ⟨.submit, ?_, hsound id (fun _ h => nomatch h) trivial⟩
    convert hstep using 1
    refine Pool.ext rfl rfl ?_ rfl rfl rfl
    show q.total Worker.taken + ((q.channel ++ [_]).map NonDetVMTask.item : Multiset MinRace.Item) =
      _ ::ₘ (q.total Worker.taken + (q.channel.map NonDetVMTask.item : Multiset MinRace.Item))
    rw [List.map_append, ← Multiset.coe_add, List.map_singleton, Multiset.coe_singleton,
      ← add_assoc, add_singleton]
    rfl
  | mark hm hg =>
    have hstep := MinRace.Step.mark q.pool
    refine ⟨.mark, ?_, ?_⟩
    · convert hstep using 1
      exact Pool.ext rfl rfl rfl rfl (recorded_min hg) rfl
    · refine Iff.trans ?_ (timely_iff (l := .mark) trivial)
      exact ⟨fun h => h.1, fun h => ⟨h, fun i hi => nomatch hi⟩⟩
  | pass hm => exact ⟨.pass, .pass q.pool, hsound id (fun _ h => nomatch h) trivial⟩
  | close hm => exact ⟨.quiet, hquiet rfl, hsound id (fun _ h => nomatch h) trivial⟩
  | decrement hm => exact ⟨.quiet, hquiet rfl, hsound id (fun _ h => nomatch h) trivial⟩
  | join hm =>
    refine ⟨.quiet, hquiet ?_, hsound id (fun _ h => nomatch h) trivial⟩
    by_cases hc : q.channel.isEmpty = true
    · rw [if_pos hc]
      rfl
    · rw [if_neg hc]
      have hw : q.workers .secondary = .stopped := hi.alone (by rw [hm]; rfl)
      have htaken := total_same q Worker.taken .secondary .idle (by rw [hw]; rfl)
      have hchecked := total_same q Worker.checked .secondary .idle (by rw [hw]; rfl)
      exact Pool.ext rfl rfl (congrArg (· + _) htaken) hchecked rfl rfl
  | wait hm hp hs => exact ⟨.quiet, hquiet rfl, hsound id (fun _ h => nomatch h) trivial⟩
  | @recv side task rest hw hc =>
    refine ⟨.quiet, hquiet ?_, hsound id (fun _ h => nomatch h) trivial⟩
    have hgain := total_gain q Worker.taken side (.received task) (by rw [hw]; rfl)
    have hsame := total_same q Worker.checked side (.received task) (by rw [hw]; rfl)
    refine Pool.ext rfl rfl ?_ hsame rfl rfl
    show (q.setWorker side (.received task)).total Worker.taken +
      (rest.map NonDetVMTask.item : Multiset MinRace.Item) =
      q.total Worker.taken + (q.channel.map NonDetVMTask.item : Multiset MinRace.Item)
    rw [hgain, hc, add_assoc]
    rfl
  | @check side task hw =>
    by_cases hmax : q.nondet_call_disagree = U32_MAX
    · refine ⟨.pick, ?_, hsound id (fun _ h => nomatch h) trivial⟩
      rw [if_pos hmax]
      have hlose := total_lose q Worker.taken side (.running task) rfl
      have hgain := total_gain q Worker.checked side (.running task) (by rw [hw]; rfl)
      rw [hw] at hlose
      have hwait : q.pool.waiting = task.item ::ₘ (q.setWorker side (.running task)).pool.waiting :=
        (congrArg (· + _) hlose).trans (add_singleton_add _ _ _)
      convert MinRace.Step.pick hwait (if_pos hmax) using 1
      exact Pool.ext rfl rfl rfl (hgain.trans (add_singleton _ _)) rfl rfl
    · refine ⟨.skip, ?_, hsound id (fun _ h => nomatch h) trivial⟩
      rw [if_neg hmax]
      have hlose := total_lose q Worker.taken side .dropping rfl
      have hsame := total_same q Worker.checked side .dropping (by rw [hw]; rfl)
      rw [hw] at hlose
      have hwait : q.pool.waiting = task.item ::ₘ (q.setWorker side .dropping).pool.waiting :=
        (congrArg (· + _) hlose).trans (add_singleton_add _ _ _)
      have hrec : q.pool.recorded ≠ none := by
        show q.recorded ≠ none
        unfold Queue.recorded
        rw [if_neg hmax]
        exact fun h => nomatch h
      convert MinRace.Step.skip hwait hrec using 1
      exact Pool.ext rfl rfl rfl hsame rfl rfl
  | @finish side task hw =>
    have hlose := total_lose q Worker.checked side .dropping rfl
    have hsame := total_same q Worker.taken side .dropping (by rw [hw]; rfl)
    rw [hw] at hlose
    have hrun : q.pool.running = task.item ::ₘ (q.setWorker side .dropping).total Worker.checked :=
      hlose.trans (add_singleton _ _)
    have hmem : task.item ∈ q.pool.waiting + q.pool.running := by
      rw [hrun, Multiset.add_cons]
      exact Multiset.mem_cons_self _ _
    have hsmall : task.call_no < NONDET_BLOCKS := hi.small _ (hi.pool.known _ hmem)
    obtain ⟨hrecorded, herror⟩ := record_pool q hsmall
    refine ⟨.finish task.item, ?_, ?_⟩
    · convert MinRace.Step.finish hrun using 1
      refine Pool.ext (record_calls q task) (record_call_no q task) ?_ ?_ hrecorded herror
      · show ((q.record task).setWorker side .dropping).total Worker.taken +
          ((q.record task).channel.map NonDetVMTask.item : Multiset MinRace.Item) =
          q.total Worker.taken + (q.channel.map NonDetVMTask.item : Multiset MinRace.Item)
        rw [record_channel, ← hsame]
        unfold Queue.total Queue.setWorker
        rw [record_workers]
      · show ((q.record task).setWorker side .dropping).total Worker.checked =
          (q.setWorker side .dropping).total Worker.checked
        unfold Queue.total Queue.setWorker
        rw [record_workers]
    · have hfine : q.Fine (.finish side) ↔
          task.res.isSome = true ∧ (task.do_disagree = some true → ¬ q.EarliestUnchecked) := by
        constructor
        · exact fun h => h task hw
        · intro h task' hw'
          rw [hw] at hw'
          cases hw'
          exact h
      rw [hfine, ← do_disagree_isSome, and_comm]
      have hbad : (Label.finish task.item).Records ↔ task.do_disagree = some true := by
        show (task.do_disagree == some true) = true ↔ _
        exact beq_iff_eq
      refine and_congr ?_ ?_
      · constructor
        · exact fun h hd => (timely_iff (hbad.mpr hd)).mp h
        · exact fun h hr => (timely_iff hr).mpr (h (hbad.mp hr)) hr
      · constructor
        · exact fun h => h task.item rfl
        · intro h i heq
          cases heq
          exact h
  | drop side hw =>
    refine ⟨.quiet, hquiet ?_, hsound id (fun _ h => nomatch h) trivial⟩
    have htaken := total_same q Worker.taken side .idle (by rw [hw]; rfl)
    have hchecked := total_same q Worker.checked side .idle (by rw [hw]; rfl)
    exact Pool.ext rfl rfl (congrArg (· + _) htaken) hchecked rfl rfl
  | stop side hw hg =>
    refine ⟨.quiet, hquiet ?_, hsound id (fun _ h => nomatch h) trivial⟩
    have htaken := total_same q Worker.taken side .stopped (by rw [hw]; rfl)
    have hchecked := total_same q Worker.checked side .stopped (by rw [hw]; rfl)
    exact Pool.ext rfl rfl (congrArg (· + _) htaken) hchecked rfl rfl

/-! ## What every run keeps -/

theorem inv_start : Queue.start.Inv := by
  refine ⟨?_, fun _ h => (nomatch h), rfl, fun h => (nomatch h), fun _ => rfl, fun _ h => (nomatch h)⟩
  exact MinRace.inv_start

/-- A loop that is not stopped is not the one that was. -/
theorem setWorker_stopped (q : Queue) (side : Side) (worker : Worker) {s : Side}
    (hne : worker ≠ .stopped) (h : (q.setWorker side worker).workers s = .stopped) : q.workers s = .stopped := by
  have h : (if s = side then worker else q.workers s) = .stopped := h
  split at h
  · exact absurd h hne
  · exact h

theorem setWorker_other {q : Queue} {side s : Side} {worker : Worker} (h : q.workers s = .stopped)
    (hne : q.workers side ≠ .stopped) : (q.setWorker side worker).workers s = .stopped := by
  show (if s = side then worker else q.workers s) = .stopped
  have hs : s ≠ side := fun heq => hne (heq ▸ h)
  rw [if_neg hs]
  exact h

theorem Steps.inv {q q' : Queue} {a : Act} (h : Steps q a q') (hi : q.Inv) : q'.Inv := by
  obtain ⟨l, hsim, -⟩ := h.simulates hi
  have hpool := hi.pool.step hsim
  have hcount := hi.countdown
  -- what holds of the loops while the contract is in some phase
  have hnot : ∀ {p : Phase}, q.main = p → (∀ r, p ≠ .returned r) → ∀ r, q.main ≠ .returned r :=
    fun hm hp r h => hp r (hm.symm.trans h)
  have hlive : ∀ {side : Side}, q.workers side ≠ .stopped → ∀ r, q.main ≠ .returned r := by
    intro side hne r hr
    obtain ⟨hp, hs, -⟩ := hi.returned r hr
    cases side with
    | primary => exact hne hp
    | secondary => exact hne hs
  cases h with
  | submit res hm hg =>
    refine ⟨hpool, fun c hc => ?_, ?_, fun hp => ?_, hi.alone, fun r hr => ?_⟩
    · rcases List.mem_append.mp hc with hc | hc
      · exact hi.small c hc
      · rw [List.mem_singleton.mp hc]
        exact hg
    · show q.vm_countdown + 1 = q.main.open + (q.channel ++ [_]).length + q.total Worker.busy
      rw [hcount, List.length_append, List.length_singleton]
      omega
    · have hc := (hi.stopped hp).1
      unfold Queue.is_closed at hc
      rw [hm] at hc
      cases hc
    · exact absurd hr (hnot hm (fun _ h => nomatch h) r)
  | mark hm hg =>
    refine ⟨hpool, fun c hc => ?_, hcount, hi.stopped, hi.alone, fun r hr => ?_⟩
    · rcases List.mem_append.mp hc with hc | hc
      · exact hi.small c hc
      · rw [List.mem_singleton.mp hc]
        exact hg
    · exact absurd hr (hnot hm (fun _ h => nomatch h) r)
  | pass hm =>
    exact ⟨hpool, hi.small, hcount, hi.stopped, hi.alone,
      fun r hr => absurd hr (hnot hm (fun _ h => nomatch h) r)⟩
  | close hm =>
    refine ⟨hpool, hi.small, ?_, fun hp => ⟨rfl, (hi.stopped hp).2⟩, fun _ => hi.alone ?_,
      fun r hr => (nomatch hr)⟩
    · rw [hm] at hcount
      exact hcount
    · rw [hm]
      rfl
  | decrement hm =>
    refine ⟨hpool, hi.small, ?_, fun hp => ⟨rfl, (hi.stopped hp).2⟩, fun _ => hi.alone ?_,
      fun r hr => (nomatch hr)⟩
    · rw [hm] at hcount
      have hcount : q.vm_countdown = 1 + q.channel.length + q.total Worker.busy := hcount
      show q.vm_countdown - 1 = 0 + q.channel.length + q.total Worker.busy
      omega
    · rw [hm]
      rfl
  | join hm =>
    rw [hm] at hcount
    have hw : q.workers .secondary = .stopped := hi.alone (by rw [hm]; rfl)
    by_cases hc : q.channel.isEmpty = true
    · rw [if_pos hc] at hpool ⊢
      exact ⟨hpool, hi.small, hcount, fun hp => ⟨rfl, (hi.stopped hp).2⟩, fun h => (nomatch h),
        fun r hr => (nomatch hr)⟩
    · rw [if_neg hc] at hpool ⊢
      have hbusy := total_same q Worker.busy .secondary .idle (by rw [hw]; rfl)
      refine ⟨hpool, hi.small, ?_, fun hp => ⟨rfl, (hi.stopped hp).2⟩, fun h => (nomatch h),
        fun r hr => (nomatch hr)⟩
      show q.vm_countdown = 0 + q.channel.length + (q.setWorker .secondary .idle).total Worker.busy
      rw [hbusy]
      exact hcount
  | wait hm hp hs =>
    rw [hm] at hcount
    refine ⟨hpool, hi.small, hcount, fun _ => ⟨rfl, (hi.stopped hp).2⟩, fun h => (nomatch h),
      fun r hr => ?_⟩
    cases hr
    exact ⟨hp, hs, rfl⟩
  | @recv side task rest hw hc =>
    have hne : q.workers side ≠ .stopped := by
      rw [hw]
      exact fun h => nomatch h
    have hbusy := total_gain q Worker.busy side (.received task) (by rw [hw]; rfl)
    refine ⟨hpool, hi.small, ?_, fun hp => ?_, fun hj => setWorker_other (hi.alone hj) hne,
      fun r hr => absurd hr (hlive hne r)⟩
    · show q.vm_countdown = q.main.open + rest.length +
        (q.setWorker side (.received task)).total Worker.busy
      rw [hbusy, hcount, hc, List.length_cons]
      show q.main.open + (rest.length + 1) + q.total Worker.busy =
        q.main.open + rest.length + (q.total Worker.busy + 1)
      omega
    · obtain ⟨-, hempty⟩ := hi.stopped (setWorker_stopped q side (.received task) (fun h => nomatch h) hp)
      rw [hc] at hempty
      cases hempty
  | @check side task hw =>
    have hne : q.workers side ≠ .stopped := by
      rw [hw]
      exact fun h => nomatch h
    have hbusy := total_same q Worker.busy side
      (if q.nondet_call_disagree = U32_MAX then .running task else .dropping) (by
        rw [hw]
        split <;> rfl)
    refine ⟨hpool, hi.small, ?_, fun hp => ?_, fun hj => setWorker_other (hi.alone hj) hne,
      fun r hr => absurd hr (hlive hne r)⟩
    · show q.vm_countdown = q.main.open + q.channel.length + (q.setWorker side _).total Worker.busy
      rw [hbusy]
      exact hcount
    · exact hi.stopped (setWorker_stopped q side _ (by split <;> exact fun h => nomatch h) hp)
  | @finish side task hw =>
    have hne : q.workers side ≠ .stopped := by
      rw [hw]
      exact fun h => nomatch h
    have hbusy := total_same q Worker.busy side .dropping (by rw [hw]; rfl)
    have hworkers : ((q.record task).setWorker side .dropping).workers =
        (q.setWorker side .dropping).workers := by
      unfold Queue.setWorker
      rw [record_workers]
    have hclosed : ((q.record task).setWorker side .dropping).is_closed = q.is_closed := by
      unfold Queue.is_closed Queue.setWorker
      rw [record_main]
    refine ⟨hpool, ?_, ?_, fun hp => ?_, fun hj => ?_, fun r hr => ?_⟩
    · show ∀ c ∈ (q.record task).calls, c.1 < NONDET_BLOCKS
      rw [record_calls]
      exact hi.small
    · show (q.record task).vm_countdown = (q.record task).main.open + (q.record task).channel.length +
        ((q.record task).setWorker side .dropping).total Worker.busy
      unfold Queue.total at hbusy ⊢
      rw [record_countdown, record_main, record_channel, hworkers, hbusy]
      exact hcount
    · rw [hworkers] at hp
      rw [hclosed]
      show _ ∧ (q.record task).channel = []
      rw [record_channel]
      exact hi.stopped (setWorker_stopped q side .dropping (fun h => nomatch h) hp)
    · rw [hworkers]
      have hj : (q.record task).main.joined = false := hj
      rw [record_main] at hj
      exact setWorker_other (hi.alone hj) hne
    · have hr : (q.record task).main = .returned r := hr
      rw [record_main] at hr
      exact absurd hr (hlive hne r)
  | drop side hw =>
    have hne : q.workers side ≠ .stopped := by
      rw [hw]
      exact fun h => nomatch h
    have hbusy := total_lose q Worker.busy side .idle rfl
    rw [hw] at hbusy
    refine ⟨hpool, hi.small, ?_, fun hp => ?_, fun hj => setWorker_other (hi.alone hj) hne,
      fun r hr => absurd hr (hlive hne r)⟩
    · have hbusy : q.total Worker.busy = (q.setWorker side .idle).total Worker.busy + 1 := hbusy
      show q.vm_countdown - 1 = q.main.open + q.channel.length + (q.setWorker side .idle).total Worker.busy
      omega
    · exact hi.stopped (setWorker_stopped q side .idle (fun h => nomatch h) hp)
  | stop side hw hg =>
    have hne : q.workers side ≠ .stopped := by
      rw [hw]
      exact fun h => nomatch h
    have hbusy := total_same q Worker.busy side .stopped (by rw [hw]; rfl)
    have hclosed : q.is_closed = true ∧ q.channel = [] := by
      rcases hg with hzero | hg
      · rw [hzero] at hcount
        have hopen : q.main.open = 0 := by omega
        refine ⟨?_, List.length_eq_zero_iff.mp (by omega)⟩
        unfold Queue.is_closed
        unfold Phase.open at hopen
        split
        · next hm =>
          rw [hm] at hopen
          cases hopen
        · rfl
      · exact hg
    refine ⟨hpool, hi.small, ?_, fun _ => hclosed, fun hj => setWorker_other (hi.alone hj) hne,
      fun r hr => absurd hr (hlive hne r)⟩
    show q.vm_countdown = q.main.open + q.channel.length + (q.setWorker side .stopped).total Worker.busy
    rw [hbusy]
    exact hcount

theorem run_cons {q q' : Queue} {a : Act} {acts : List Act} (h : q.run (a :: acts) = some q') :
    ∃ q1, q.step a = some q1 ∧ q1.run acts = some q' := Option.bind_eq_some_iff.mp h

/-- A run of the queue is a run of the race, sound where the queue is fine. -/
theorem run_simulates {p : Pool} {q' : Queue} : ∀ {acts : List Act} {q : Queue} {sound : Prop},
    q.run acts = some q' → q.Inv → Run p sound q.pool →
    q'.Inv ∧ ∃ sound', Run p sound' q'.pool ∧ (sound' ↔ sound ∧ q.AllFine acts)
  | [], q, sound, h, hi, hr => by
    cases h
    exact ⟨hi, sound, hr, ⟨fun h => ⟨h, trivial⟩, fun h => h.1⟩⟩
  | a :: acts, q, sound, h, hi, hr => by
    obtain ⟨q1, hstep, hrun⟩ := run_cons h
    have hcases := step_cases hstep
    obtain ⟨l, hsim, hfine⟩ := hcases.simulates hi
    obtain ⟨hinv, sound', hr', hiff⟩ := run_simulates hrun (hcases.inv hi) (hr.step hsim)
    refine ⟨hinv, sound', hr', hiff.trans ?_⟩
    rw [hfine, and_assoc]
    refine and_congr_right fun _ => and_congr_right fun _ => ?_
    constructor
    · intro hall q2 hq2
      rw [hstep] at hq2
      cases hq2
      exact hall
    · exact fun hall => hall q1 hstep

/-! ## The wait ends -/

theorem worker_progress {q : Queue} {side : Side} (hc : q.is_closed = true)
    (hw : q.workers side ≠ .stopped) : ∃ a q', q.step a = some q' := by
  cases h : q.workers side with
  | idle =>
    cases hch : q.channel with
    | nil =>
      refine ⟨.stop side, q.setWorker side .stopped, ?_⟩
      show q.nondet_vm_processor (.stop side) = _
      unfold Queue.nondet_vm_processor
      dsimp only
      rw [h]
      exact if_pos (.inr ⟨hc, hch⟩)
    | cons task rest =>
      refine ⟨.recv side, { q.setWorker side (.received task) with channel := rest }, ?_⟩
      show q.nondet_vm_processor (.recv side) = _
      unfold Queue.nondet_vm_processor
      dsimp only
      rw [h, hch]
  | received task =>
    refine ⟨.check side, q.setWorker side
      (if q.nondet_call_disagree = U32_MAX then .running task else .dropping), ?_⟩
    show q.nondet_vm_processor (.check side) = _
    unfold Queue.nondet_vm_processor
    dsimp only
    rw [h]
  | running task =>
    refine ⟨.finish side, (q.record task).setWorker side .dropping, ?_⟩
    show q.nondet_vm_processor (.finish side) = _
    unfold Queue.nondet_vm_processor
    dsimp only
    rw [h]
  | dropping =>
    refine ⟨.drop side, q.decrement.setWorker side .idle, ?_⟩
    show q.nondet_vm_processor (.drop side) = _
    unfold Queue.nondet_vm_processor
    dsimp only
    rw [h]
  | stopped => exact absurd h hw

/-- Until the wait is over, something can go on. -/
theorem progress {q : Queue} (h : ∀ r, q.main ≠ .returned r) : ∃ a q', q.step a = some q' := by
  cases hm : q.main with
  | executing =>
    refine ⟨.close, { q with main := .closed }, ?_⟩
    show q.await_nondet_vms .close = _
    unfold Queue.await_nondet_vms
    dsimp only
    rw [hm]
  | closed =>
    refine ⟨.decrement, { q.decrement with main := .counted }, ?_⟩
    show q.await_nondet_vms .decrement = _
    unfold Queue.await_nondet_vms
    dsimp only
    rw [hm]
  | counted =>
    refine ⟨.join, { (if q.channel.isEmpty then q else q.setWorker .secondary .idle) with
      main := .waiting }, ?_⟩
    show q.await_nondet_vms .join = _
    unfold Queue.await_nondet_vms
    dsimp only
    rw [hm]
  | waiting =>
    have hc : q.is_closed = true := by
      unfold Queue.is_closed
      rw [hm]
    by_cases hp : q.workers .primary = .stopped
    · by_cases hs : q.workers .secondary = .stopped
      · refine ⟨.wait, { q with main := .returned q.answer }, ?_⟩
        show q.await_nondet_vms .wait = _
        unfold Queue.await_nondet_vms
        dsimp only
        rw [hm, hp, hs]
      · exact worker_progress hc hs
    · exact worker_progress hc hp
  | returned r => exact absurd hm (h r)

def Worker.work : Worker → Nat
  | .received _ => 4
  | .running _ => 3
  | .dropping => 2
  | .idle => 1
  | .stopped => 0

def Phase.work : Phase → Nat
  | .executing | .closed => 5
  | .counted => 4
  | .waiting => 1
  | .returned _ => 0

/-- How many steps are left at most, once the contract is over. -/
def Queue.work (q : Queue) : Nat := q.main.work + 4 * q.channel.length + q.total Worker.work

theorem Steps.work {q q' : Queue} {a : Act} (h : Steps q a q') (hm : q.main ≠ .executing) :
    q'.main ≠ .executing ∧ q'.work < q.work := by
  unfold Queue.work
  cases h with
  | submit res he hg => exact absurd he hm
  | mark he hg => exact absurd he hm
  | pass he => exact absurd he hm
  | close he => exact absurd he hm
  | decrement hc =>
    refine ⟨fun h => (nomatch h), ?_⟩
    rw [hc]
    show 4 + 4 * q.channel.length + q.total Worker.work < 5 + 4 * q.channel.length + q.total Worker.work
    omega
  | join hc =>
    refine ⟨fun h => (nomatch h), ?_⟩
    rw [hc]
    by_cases he : q.channel.isEmpty = true
    · rw [if_pos he]
      show 1 + 4 * q.channel.length + q.total Worker.work <
        4 + 4 * q.channel.length + q.total Worker.work
      omega
    · rw [if_neg he]
      have hw : (q.setWorker .secondary .idle).total Worker.work + Worker.work (q.workers .secondary) =
        q.total Worker.work + 1 := total_setWorker q Worker.work .secondary .idle
      show 1 + 4 * q.channel.length + (q.setWorker .secondary .idle).total Worker.work <
        4 + 4 * q.channel.length + q.total Worker.work
      omega
  | wait hc _ _ =>
    refine ⟨fun h => (nomatch h), ?_⟩
    rw [hc]
    show 0 + 4 * q.channel.length + q.total Worker.work < 1 + 4 * q.channel.length + q.total Worker.work
    omega
  | @recv side task rest hw hc =>
    refine ⟨hm, ?_⟩
    have hsum := total_setWorker q Worker.work side (.received task)
    rw [hw] at hsum
    have hsum : (q.setWorker side (.received task)).total Worker.work + 1 =
      q.total Worker.work + 4 := hsum
    rw [hc, List.length_cons]
    show q.main.work + 4 * rest.length + (q.setWorker side (.received task)).total Worker.work < _
    omega
  | @check side task hw =>
    refine ⟨hm, ?_⟩
    have hsum := total_setWorker q Worker.work side
      (if q.nondet_call_disagree = U32_MAX then .running task else .dropping)
    rw [hw] at hsum
    have hle : Worker.work (if q.nondet_call_disagree = U32_MAX then .running task else .dropping) ≤ 3 := by
      split
      · exact le_refl 3
      · exact Nat.le_succ 2
    have hsum : (q.setWorker side _).total Worker.work + 4 = q.total Worker.work + _ := hsum
    show q.main.work + 4 * q.channel.length + (q.setWorker side _).total Worker.work < _
    omega
  | @finish side task hw =>
    have hworkers : ((q.record task).setWorker side .dropping).total Worker.work =
        (q.setWorker side .dropping).total Worker.work := by
      unfold Queue.total Queue.setWorker
      rw [record_workers]
    have hsum := total_setWorker q Worker.work side .dropping
    rw [hw] at hsum
    have hsum : (q.setWorker side .dropping).total Worker.work + 3 = q.total Worker.work + 2 := hsum
    rw [hworkers]
    show (q.record task).main ≠ _ ∧ (q.record task).main.work + 4 * (q.record task).channel.length +
      (q.setWorker side .dropping).total Worker.work < _
    rw [record_main, record_channel]
    exact ⟨hm, by omega⟩
  | drop side hw =>
    refine ⟨hm, ?_⟩
    have hsum := total_setWorker q Worker.work side .idle
    rw [hw] at hsum
    have hsum : (q.setWorker side .idle).total Worker.work + 2 = q.total Worker.work + 1 := hsum
    show q.main.work + 4 * q.channel.length + (q.setWorker side .idle).total Worker.work < _
    omega
  | stop side hw hg =>
    refine ⟨hm, ?_⟩
    have hsum := total_setWorker q Worker.work side .stopped
    rw [hw] at hsum
    have hsum : (q.setWorker side .stopped).total Worker.work + 1 = q.total Worker.work + 0 := hsum
    show q.main.work + 4 * q.channel.length + (q.setWorker side .stopped).total Worker.work < _
    omega

theorem run_length {q' : Queue} : ∀ {acts : List Act} {q : Queue}, q.run acts = some q' →
    q.main ≠ .executing → acts.length + q'.work ≤ q.work
  | [], q, h, _ => by
    cases h
    exact (Nat.zero_add _).le
  | a :: acts, q, h, hm => by
    obtain ⟨q1, hstep, hrun⟩ := run_cons h
    obtain ⟨hm1, hlt⟩ := (step_cases hstep).work hm
    have hle := run_length hrun hm1
    rw [List.length_cons]
    omega

/-! ## The earliest disagreement -/

/-- **The earliest disagreement.** Something can go on until `await_nondet_vms`
returns, which it does after a bounded number of steps; and it returns the
earliest call the validator disagrees with just when every step was fine. -/
theorem await_nondet_vms_iff {acts : List Act} {q : Queue} (hrun : Queue.start.run acts = some q) :
    ((∀ r, q.main ≠ .returned r) → ∃ a q', q.step a = some q') ∧
    (q.main ≠ .executing → ∀ acts' q', q.run acts' = some q' → acts'.length ≤ q.work) ∧
    ∀ r, q.main = .returned r →
      ((∃ n, r = .ok n ∧ Earliest q.calls n) ↔ Queue.start.AllFine acts) := by
  refine ⟨progress, fun hm acts' q' h => ?_, fun r hr => ?_⟩
  · have hle := run_length h hm
    omega
  · obtain ⟨hi, sound, hpool, hiff⟩ := run_simulates hrun inv_start (.refl _)
    rw [true_and] at hiff
    obtain ⟨hp, hs, rfl⟩ := hi.returned r hr
    have hchannel := (hi.stopped hp).2
    have hwait : q.pool.waiting = 0 := by
      show q.total Worker.taken + (q.channel.map NonDetVMTask.item : Multiset MinRace.Item) = 0
      unfold Queue.total
      rw [hp, hs, hchannel]
      rfl
    have hnone : q.pool.running = 0 := by
      show q.total Worker.checked = 0
      unfold Queue.total
      rw [hp, hs]
      rfl
    rw [← hiff, ← least_iff hpool hwait hnone]
    show _ ↔ q.encountered_error = false ∧ Earliest q.calls q.recorded
    unfold Queue.answer Queue.recorded
    cases q.encountered_error with
    | true =>
      refine iff_of_false (fun h => ?_) (fun h => nomatch h.1)
      obtain ⟨n, hn, -⟩ := h
      cases hn
    | false =>
      rw [if_neg Bool.false_ne_true]
      constructor
      · intro h
        obtain ⟨n, hn, he⟩ := h
        refine ⟨rfl, ?_⟩
        split at hn
        · next hmax =>
          cases hn
          rw [if_pos hmax]
          exact he
        · next hmax =>
          cases hn
          rw [if_neg hmax]
          exact he
      · intro h
        refine ⟨_, ?_, h.2⟩
        split <;> rfl

/-- One task the validator disagrees with, run while the contract runs. -/
def one_task : List Act :=
  [.submit (some (.Return (.materialized (.bool false)))), .recv .primary, .check .primary,
    .finish .primary, .drop .primary, .close, .decrement, .join, .stop .primary, .wait]

theorem await_nondet_vms_one : ∃ q, Queue.start.run one_task = some q ∧
    q.main = .returned (.ok (some 0)) ∧
    ((∃ n, (Except.ok (some 0) : Except Unit (Option Nat)) = .ok n ∧ Earliest q.calls n) ↔
      Queue.start.AllFine one_task) := by
  have hrun : Queue.start.run one_task = some _ := rfl
  exact ⟨_, hrun, rfl, (await_nondet_vms_iff hrun).2.2 _ rfl⟩

/-- The first call has a task the validator disagrees with, the second one an
empty leader result: the loop finds the mark and skips the task. -/
theorem marked_call_hides_earlier : ∃ q,
    Queue.start.run [.submit (some (.Return (.materialized (.bool false)))), .mark, .recv .primary,
      .check .primary, .drop .primary, .close, .decrement, .join, .stop .primary, .wait] = some q ∧
    q.main = .returned (.ok (some 1)) ∧ Earliest q.calls (some 0) := by
  refine ⟨_, rfl, rfl, ?_, ?_⟩
  · exact List.mem_cons_self
  · exact fun c _ _ => Nat.zero_le c.1

end GenVM.Vm
