import GenVM.Runners.Actions
import GenVM.Runners.Ids

/-!
# The scope of custom runners

A runner registered at runtime is kept by the supervisor, once for all VMs of
an execution, and its archive is cached like any other. Which VM may load it is
kept in a set of hashes that a VM hands on to the VMs it starts: calls and
sandboxes get a copy, a non-deterministic VM starts with none, and a VM takes
the set of a sandbox over when that has ended
(executor/src/rt/supervisor/{actions,mod}.rs, executor/src/wasi/genlayer_sdk.rs).

`Step` is one step of any of the VMs, which run in any order: what a guest asks
for is free, and a VM may end at any time. Archives are found by `Env`; the log
has what was registered, loaded, started and returned, the last one first.

**Results.**
* `inv_reachable`: the set of a VM is what the log says is in its scope.
* `loads_isolated`: every load of a custom runner is in scope exactly when those
  of the actions `With` and `Depends` are of hashes in the set of their VM.
-/
namespace GenVM.RunnerScope

open GenVM.Lib GenVM.Calldata
open GenVM.RunnerIds (Id Bytes32Hash)
open GenVM.Runners (InitAction WasmMode)
open GenVM.Store (SlotID)
open GenVM.Vm (ChainState)

/-! ## Loading -/

/-- What is found outside: how ids resolve, how code is hashed and parsed, the
archives of packaged runners and of contracts, and what an archive has to do. -/
structure Env (Archive ε : Type) where
  keccak : Bytes → Bytes
  resolve_runner_id : Id → List Char → Except ε Id
  custom_runner_hash : Bytes → Bytes32Hash
  parse : Bytes → Except ε Archive
  provide : Id → Except ε Archive
  get_actions : Archive → Except ε InitAction
  not_found : ε
  malformed_runner : ε

/-- mirrors executor/src/rt/supervisor/mod.rs:64-87, runners/cache.rs -/
structure Supervisor (Archive : Type) where
  custom_runners : Bytes32Hash → Option Archive
  runner_cache : List Char → Option Archive

variable {Archive ε : Type} (env : Env Archive ε)

def Supervisor.put (sup : Supervisor Archive) (id : List Char) (archive : Archive) :
    Supervisor Archive :=
  { sup with runner_cache := Function.update sup.runner_cache id (some archive) }

/-- mirrors executor/src/rt/supervisor/actions.rs:206-305 -/
def get_arch (sup : Supervisor Archive) (id : Id) : Except ε (Archive × Supervisor Archive) :=
  match sup.runner_cache (id.canonical env.keccak) with
  | some archive => .ok (archive, sup)
  | none =>
    match id with
    | .Custom hash =>
      match sup.custom_runners hash with
      | none => .error env.not_found
      | some archive => .ok (archive, sup.put (id.canonical env.keccak) archive)
    | _ => (env.provide id).map fun archive => (archive, sup.put (id.canonical env.keccak) archive)

/-- mirrors executor/src/rt/supervisor/actions.rs:311-334 -/
def load_runner (sup : Supervisor Archive) (id : Id) (available_custom : List Bytes32Hash) :
    Except ε (Archive × Supervisor Archive) :=
  match id with
  | .Custom hash =>
    if hash ∈ available_custom then get_arch env sup id else .error env.malformed_runner
  | _ => get_arch env sup id

/-- mirrors executor/src/rt/supervisor/mod.rs:595-613 -/
def register_custom_runner (sup : Supervisor Archive) (code : Bytes) :
    Except ε (Bytes32Hash × Supervisor Archive) :=
  let hash := env.custom_runner_hash code
  match sup.custom_runners hash with
  | some _ => .ok (hash, sup)
  | none => (env.parse code).map fun archive =>
      (hash, { sup with custom_runners := Function.update sup.custom_runners hash (some archive) })

/-! ## The VMs -/

/-- mirrors executor/src/wasi/base.rs:6-17 -/
structure Config where
  is_deterministic : Bool
  can_read_storage : Bool
  can_call_others : Bool
  can_spawn_nondet : Bool
  can_register_runners : Bool
  topmost_runner_id : Id

inductive Kind where
  | main | call_contract | sandbox | nondet
  deriving DecidableEq

/-- A VM waits for a VM it has started; a validator's non-deterministic VM runs
beside it. -/
inductive Status where
  | spawned
  | running
  | waiting (child : Nat)
  | ended

/-- `todo` are the actions still to apply, `visited` the runners that were a
dependency. -/
structure VM where
  kind : Kind
  conf : Config
  custom_runners : List Bytes32Hash
  status : Status
  todo : List InitAction
  visited : List (List Char)

def VM.spawn (kind : Kind) (conf : Config) (custom_runners : List Bytes32Hash) : VM :=
  ⟨kind, conf, custom_runners, .spawned, [], []⟩

/-- mirrors executor/src/wasi/genlayer_sdk.rs:754-802 -/
def contract_child (vm : VM) (address : Address) (on : ChainState) (code_slot : SlotID) : VM :=
  VM.spawn .call_contract
    { is_deterministic := true
      can_read_storage := vm.conf.can_read_storage
      can_spawn_nondet := vm.conf.can_spawn_nondet
      can_call_others := vm.conf.can_call_others
      can_register_runners := vm.conf.can_register_runners
      topmost_runner_id := .Chain address on code_slot }
    vm.custom_runners

/-- mirrors executor/src/wasi/genlayer_sdk.rs:1828-1862 -/
def nondet_child (vm : VM) : VM :=
  VM.spawn .nondet
    { is_deterministic := false
      can_read_storage := vm.conf.can_read_storage
      can_spawn_nondet := false
      can_call_others := false
      can_register_runners := false
      topmost_runner_id := vm.conf.topmost_runner_id }
    []

/-- mirrors executor/src/wasi/genlayer_sdk.rs:1932-1965 -/
def sandbox_child (vm : VM) (topmost_runner_id : Id) (allow_register_runners : Bool) : VM :=
  VM.spawn .sandbox
    { is_deterministic := vm.conf.is_deterministic
      can_read_storage := vm.conf.can_read_storage
      can_spawn_nondet := false
      can_call_others := false
      can_register_runners := vm.conf.can_register_runners && allow_register_runners
      topmost_runner_id := topmost_runner_id }
    vm.custom_runners

/-- How an archive came to be loaded: the first one of a VM, by `With` or
`Depends`, by a `MapFile` request. -/
inductive Cause where
  | start | action | map_file
  deriving DecidableEq

/-- `available` is the set of the VM at that time. -/
inductive Event where
  | registered (vm : Nat) (hash : Bytes32Hash)
  | spawned (parent child : Nat) (kind : Kind)
  | returned (child parent : Nat)
  | loaded (vm : Nat) (id : Id) (cause : Cause) (available : List Bytes32Hash)

def VM.fail (vm : VM) : VM := { vm with status := .ended }

/-- The VM goes on with the actions of an archive. -/
def VM.go (vm : VM) (rest : List InitAction) : Except ε InitAction → VM
  | .ok actions => { vm with status := .running, todo := actions :: rest }
  | .error _ => vm.fail

/-- The next of the actions of a VM; files, arguments and modules are left out.
mirrors executor/src/rt/supervisor/actions.rs:522-680 -/
def apply (v : Nat) (vm : VM) (sup : Supervisor Archive) (rest : List InitAction) :
    InitAction → VM × Supervisor Archive × Option Event
  | .when cond action =>
    if decide (cond = .det) ≠ vm.conf.is_deterministic then ({ vm with todo := rest }, sup, none)
    else ({ vm with todo := action :: rest }, sup, none)
  | .seq acts => ({ vm with todo := acts ++ rest }, sup, none)
  | .withRunner runner action =>
    match env.resolve_runner_id vm.conf.topmost_runner_id runner.toList with
    | .error _ => (vm.fail, sup, none)
    | .ok id =>
      match get_arch env sup id with
      | .error _ => (vm.fail, sup, none)
      | .ok (_, sup) =>
        ({ vm with todo := action :: rest }, sup, some (.loaded v id .action vm.custom_runners))
  | .depends uid =>
    match env.resolve_runner_id vm.conf.topmost_runner_id uid.toList with
    | .error _ => (vm.fail, sup, none)
    | .ok id =>
      if id.canonical env.keccak ∈ vm.visited then ({ vm with todo := rest }, sup, none)
      else
        match get_arch env sup id with
        | .error _ => (vm.fail, sup, none)
        | .ok (archive, sup) =>
          ({ vm with visited := id.canonical env.keccak :: vm.visited }.go rest
            (env.get_actions archive), sup, some (.loaded v id .action vm.custom_runners))
  -- the instance that was started ends the actions
  | .startWasm _ => ({ vm with todo := [] }, sup, none)
  | _ => ({ vm with todo := rest }, sup, none)

/-- What a VM does on its own. -/
inductive Own (v : Nat) (vm : VM) (sup : Supervisor Archive) :
    VM → Supervisor Archive → Option Event → Prop
  /-- mirrors executor/src/rt/supervisor/mod.rs:448-477 -/
  | start {archive : Archive} {sup' : Supervisor Archive} (spawned : vm.status = .spawned)
      (loads : load_runner env sup vm.conf.topmost_runner_id vm.custom_runners
        = .ok (archive, sup')) :
      Own v vm sup (vm.go [] (env.get_actions archive)) sup'
        (some (.loaded v vm.conf.topmost_runner_id .start vm.custom_runners))
  | action {action : InitAction} {rest : List InitAction} (running : vm.status = .running)
      (todo : vm.todo = action :: rest) :
      Own v vm sup (apply env v vm sup rest action).1 (apply env v vm sup rest action).2.1
        (apply env v vm sup rest action).2.2
  /-- mirrors executor/src/wasi/genlayer_sdk.rs:1630-1656 -/
  | register_runner {code : Bytes} {hash : Bytes32Hash} {sup' : Supervisor Archive}
      (running : vm.status = .running) (deterministic : vm.conf.is_deterministic = true)
      (permitted : vm.conf.can_register_runners = true)
      (registers : register_custom_runner env sup code = .ok (hash, sup')) :
      Own v vm sup { vm with custom_runners := hash :: vm.custom_runners } sup'
        (some (.registered v hash))
  /-- mirrors executor/src/wasi/genlayer_sdk.rs:1658-1694 -/
  | map_file {runner : List Char} {id : Id} {archive : Archive} {sup' : Supervisor Archive}
      (running : vm.status = .running) (permitted : vm.conf.can_read_storage = true)
      (resolves : env.resolve_runner_id vm.conf.topmost_runner_id runner = .ok id)
      (loads : load_runner env sup id vm.custom_runners = .ok (archive, sup')) :
      Own v vm sup vm sup' (some (.loaded v id .map_file vm.custom_runners))
  | finish (own : vm.status = .spawned ∨ vm.status = .running) : Own v vm sup vm.fail sup none

/-- What a VM starts, and whether it waits for it. -/
inductive Starts (vm : VM) : VM → Bool → Prop
  /-- mirrors executor/src/wasi/genlayer_sdk.rs:700-804 -/
  | call_contract (address : Address) (on : ChainState) (code_slot : SlotID)
      (deterministic : vm.conf.is_deterministic = true)
      (permitted : vm.conf.can_call_others = true) :
      Starts vm (contract_child vm address on code_slot) true
  /-- mirrors executor/src/wasi/genlayer_sdk.rs:1697-1895 -/
  | run_nondet (leader : Bool) (permitted : vm.conf.can_spawn_nondet = true) :
      Starts vm (nondet_child vm) leader
  /-- mirrors executor/src/wasi/genlayer_sdk.rs:1907-1967 -/
  | sandbox (runner : List Char) (id : Id) (allow_register_runners : Bool)
      (resolves : env.resolve_runner_id vm.conf.topmost_runner_id runner = .ok id) :
      Starts vm (sandbox_child vm id allow_register_runners) true

structure State (Archive : Type) where
  sup : Supervisor Archive
  vms : Nat → Option VM
  log : List Event

/-- The VM that waited goes on; a sandbox gives back its accumulator.
mirrors executor/src/wasi/genlayer_sdk.rs:1967-1978 -/
def State.resume (s : State Archive) (v : Nat) (vm : VM) (c : Nat) (child : VM) : State Archive :=
  if child.kind = .sandbox then
    { s with
      vms := Function.update s.vms v
        (some { vm with status := .running, custom_runners := child.custom_runners })
      log := .returned c v :: s.log }
  else { s with vms := Function.update s.vms v (some { vm with status := .running }) }

def VM.started (vm : VM) (c : Nat) (waits : Bool) : VM :=
  { vm with status := if waits then .waiting c else .running }

def State.spawned (s : State Archive) (v : Nat) (vm : VM) (c : Nat) (child : VM) (waits : Bool) :
    State Archive :=
  { s with
    vms := Function.update (Function.update s.vms v (some (vm.started c waits))) c (some child)
    log := .spawned v c child.kind :: s.log }

/-- One step of one of the VMs. -/
inductive Step (s : State Archive) : State Archive → Prop
  | own {v : Nat} {vm vm' : VM} {sup' : Supervisor Archive} {e : Option Event}
      (here : s.vms v = some vm) (does : Own env v vm s.sup vm' sup' e) :
      Step s ⟨sup', Function.update s.vms v (some vm'), e.toList ++ s.log⟩
  | spawn {v c : Nat} {vm child : VM} {waits : Bool} (here : s.vms v = some vm)
      (running : vm.status = .running) (starts : Starts env vm child waits)
      (fresh : s.vms c = none) : Step s (s.spawned v vm c child waits)
  | resume {v c : Nat} {vm child : VM} (here : s.vms v = some vm)
      (waits : vm.status = .waiting c) (started : s.vms c = some child)
      (ended : child.status = .ended) : Step s (s.resume v vm c child)
  /-- an error that is no result goes through the parent -/
  | abort {v c : Nat} {vm child : VM} (here : s.vms v = some vm)
      (waits : vm.status = .waiting c) (started : s.vms c = some child)
      (ended : child.status = .ended) :
      Step s { s with vms := Function.update s.vms v (some vm.fail) }

/-- The topmost VM before it starts, mirrors executor/src/lib.rs:221-257. -/
structure Initial (s : State Archive) : Prop where
  registry : ∀ hash, s.sup.custom_runners hash = none
  log : s.log = []
  main : ∃ conf, conf.is_deterministic = true ∧
    s.vms = Function.update (fun _ => none) 0 (some (VM.spawn .main conf []))

inductive Reachable : State Archive → Prop
  | initial {s : State Archive} : Initial s → Reachable s
  | step {s s' : State Archive} : Reachable s → Step env s s' → Reachable s'

/-! ## What is in scope -/

/-- By the log, a hash is in the scope of a VM: the VM registered it, or it was in
the scope of the VM that started it, other than as a non-deterministic one, at that
time, or it was in the scope of a sandbox of the VM that has returned. -/
def InScope : List Event → Nat → Bytes32Hash → Prop
  | [], _, _ => False
  | .registered w hash :: log, v, h => InScope log v h ∨ (w = v ∧ hash = h)
  | .spawned p c kind :: log, v, h => InScope log v h ∨ (c = v ∧ kind ≠ .nondet ∧ InScope log p h)
  | .returned c p :: log, v, h => InScope log v h ∨ (p = v ∧ InScope log c h)
  | .loaded _ _ _ _ :: log, v, h => InScope log v h

/-- By the log, a VM is non-deterministic or below one that is. -/
def BelowNondet : List Event → Nat → Prop
  | [], _ => False
  | .spawned p c kind :: log, v => BelowNondet log v ∨ (c = v ∧ (kind = .nondet ∨ BelowNondet log p))
  | _ :: log, v => BelowNondet log v

/-- Every custom runner that was loaded was in scope before, and none of the VMs
that loaded one is below a non-deterministic one. -/
def Isolated : List Event → Prop
  | [] => True
  | .loaded v (.Custom hash) _ _ :: log => (InScope log v hash ∧ ¬ BelowNondet log v) ∧ Isolated log
  | _ :: log => Isolated log

/-- The custom runners that actions loaded were in the set of their VM. -/
def ActionsInScope (log : List Event) : Prop :=
  ∀ v hash available, .loaded v (.Custom hash) .action available ∈ log → hash ∈ available

/-! ## What a VM does on its own -/

/-- The set of a VM after something it did, and what the log has of it. -/
inductive Effect (v : Nat) (vm : VM) : List Bytes32Hash → Option Event → Prop
  | quiet : Effect v vm vm.custom_runners none
  | registered (hash : Bytes32Hash) (deterministic : vm.conf.is_deterministic = true) :
      Effect v vm (hash :: vm.custom_runners) (some (.registered v hash))
  | loaded (id : Id) (cause : Cause)
      (checked : cause ≠ .action → ∀ hash, id = .Custom hash → hash ∈ vm.custom_runners) :
      Effect v vm vm.custom_runners (some (.loaded v id cause vm.custom_runners))

structure Does (v : Nat) (vm vm' : VM) (e : Option Event) : Prop where
  conf : vm'.conf = vm.conf
  kind : vm'.kind = vm.kind
  waits : ∀ c, vm'.status ≠ .waiting c
  effect : Effect v vm vm'.custom_runners e

theorem load_runner_checked {sup sup' : Supervisor Archive} {id : Id} {set : List Bytes32Hash}
    {archive : Archive} (h : load_runner env sup id set = .ok (archive, sup')) :
    ∀ hash, id = .Custom hash → hash ∈ set := by
  rintro hash rfl
  rw [load_runner] at h
  split at h
  · assumption
  · cases h

theorem go_does {v : Nat} {vm vm1 : VM} {rest : List InitAction} {actions : Except ε InitAction}
    {e : Option Event} (hconf : vm1.conf = vm.conf)
    (hkind : vm1.kind = vm.kind) (heffect : Effect v vm vm1.custom_runners e) :
    Does v vm (vm1.go rest actions) e := by
  cases actions with
  | error _ => exact ⟨hconf, hkind, fun _ => nofun, heffect⟩
  | ok _ => exact ⟨hconf, hkind, fun _ => nofun, heffect⟩

theorem apply_does {v : Nat} {vm : VM} {sup : Supervisor Archive} {rest : List InitAction}
    (action : InitAction) (hrun : vm.status = .running) :
    Does v vm (apply env v vm sup rest action).1 (apply env v vm sup rest action).2.2 := by
  have hwait : ∀ c, vm.status ≠ .waiting c := fun c hc => by
    rw [hrun] at hc
    cases hc
  have hloaded : ∀ id, Effect v vm vm.custom_runners (some (.loaded v id .action vm.custom_runners)) :=
    fun id => .loaded id .action fun hne => absurd rfl hne
  cases action with
  | mapFile _ _ => exact ⟨rfl, rfl, hwait, .quiet⟩
  | addEnv _ _ => exact ⟨rfl, rfl, hwait, .quiet⟩
  | setArgs _ => exact ⟨rfl, rfl, hwait, .quiet⟩
  | linkWasm _ => exact ⟨rfl, rfl, hwait, .quiet⟩
  | startWasm _ => exact ⟨rfl, rfl, hwait, .quiet⟩
  | seq _ => exact ⟨rfl, rfl, hwait, .quiet⟩
  | when cond action =>
    rw [apply]
    split
    · exact ⟨rfl, rfl, hwait, .quiet⟩
    · exact ⟨rfl, rfl, hwait, .quiet⟩
  | withRunner runner action =>
    rw [apply]
    split
    · exact ⟨rfl, rfl, fun _ => nofun, .quiet⟩
    · split
      · exact ⟨rfl, rfl, fun _ => nofun, .quiet⟩
      · exact ⟨rfl, rfl, hwait, hloaded _⟩
  | depends uid =>
    rw [apply]
    split
    · exact ⟨rfl, rfl, fun _ => nofun, .quiet⟩
    · split
      · exact ⟨rfl, rfl, hwait, .quiet⟩
      · split
        · exact ⟨rfl, rfl, fun _ => nofun, .quiet⟩
        · exact go_does rfl rfl (hloaded _)

theorem own_does {v : Nat} {vm vm' : VM} {sup sup' : Supervisor Archive} {e : Option Event}
    (h : Own env v vm sup vm' sup' e) : Does v vm vm' e := by
  have hwait : vm.status = .running → ∀ c, vm.status ≠ .waiting c := fun hrun c hc => by
    rw [hrun] at hc
    cases hc
  cases h with
  | start _ hload => exact go_does rfl rfl (.loaded _ _ fun _ => load_runner_checked env hload)
  | action hrun _ => exact apply_does env _ hrun
  | register_runner hrun hdet _ _ => exact ⟨rfl, rfl, hwait hrun, .registered _ hdet⟩
  | map_file hrun _ _ hload =>
    exact ⟨rfl, rfl, hwait hrun, .loaded _ _ fun _ => load_runner_checked env hload⟩
  | finish _ => exact ⟨rfl, rfl, fun _ => nofun, .quiet⟩

/-! ## The invariant -/

/-- A sandbox has at least the set of the VM that waits for it. -/
def Hands (vm child : VM) : Prop := child.kind = .sandbox →
  vm.custom_runners ⊆ child.custom_runners ∧ child.conf.is_deterministic = vm.conf.is_deterministic

/-- What holds of a VM: its set is its scope. -/
structure Holds (s : State Archive) (v : Nat) (vm : VM) : Prop where
  scope : ∀ hash, hash ∈ vm.custom_runners ↔ InScope s.log v hash
  below : BelowNondet s.log v ↔ vm.conf.is_deterministic = false
  bare : vm.conf.is_deterministic = false → vm.custom_runners = []
  waits : ∀ c, vm.status = .waiting c → ∃ child, s.vms c = some child ∧ Hands vm child

structure Inv (s : State Archive) : Prop where
  holds : ∀ v vm, s.vms v = some vm → Holds s v vm
  fresh : ∀ v, s.vms v = none → (∀ hash, ¬ InScope s.log v hash) ∧ ¬ BelowNondet s.log v
  isolated : Isolated s.log ↔ ActionsInScope s.log

theorem inv_initial {s : State Archive} (h : Initial s) : Inv s := by
  obtain ⟨-, hlog, conf, hdet, hvms⟩ := h
  refine ⟨fun v vm hv => ?_, fun v _ => ?_, ?_⟩
  · rw [hvms] at hv
    have hvm : vm = VM.spawn .main conf [] := by
      by_cases h0 : v = 0
      · rw [h0, Function.update_self] at hv
        exact (Option.some.inj hv).symm
      · rw [Function.update_of_ne h0] at hv
        cases hv
    subst hvm
    refine ⟨fun hash => ?_, ?_, fun _ => rfl, fun c hc => nomatch hc⟩
    · rw [hlog]
      exact iff_of_false List.not_mem_nil id
    · rw [hlog]
      refine iff_of_false id fun hf => ?_
      rw [show (VM.spawn .main conf []).conf = conf from rfl, hdet] at hf
      cases hf
  · rw [hlog]
    exact ⟨fun _ => id, id⟩
  · rw [hlog]
    exact iff_of_true trivial fun _ _ _ hm => absurd hm List.not_mem_nil

/-- A hash is in the set of a VM exactly when the VM may load it. -/
theorem Holds.may_load {s : State Archive} {v : Nat} {vm : VM} (h : Holds s v vm) (hash : Bytes32Hash) :
    hash ∈ vm.custom_runners ↔ InScope s.log v hash ∧ ¬ BelowNondet s.log v := by
  refine ⟨fun hmem => ⟨(h.scope hash).mp hmem, fun hbelow => ?_⟩, fun hs => (h.scope hash).mpr hs.1⟩
  rw [h.bare (h.below.mp hbelow)] at hmem
  exact List.not_mem_nil hmem

theorem actionsInScope_cons {e : Event} {log : List Event} : ActionsInScope (e :: log) ↔
    (∀ v hash available, e = .loaded v (.Custom hash) .action available → hash ∈ available) ∧
      ActionsInScope log := by
  constructor
  · intro h
    refine ⟨fun v hash available he => h v hash available ?_, fun v hash available hm =>
      h v hash available (List.mem_cons_of_mem _ hm)⟩
    rw [he]
    exact List.mem_cons_self
  · intro h v hash available hm
    rcases List.mem_cons.mp hm with he | hm
    · exact h.1 v hash available he.symm
    · exact h.2 v hash available hm

/-- An event other than such a load leaves the condition as it is. -/
theorem actionsInScope_other {e : Event} {log : List Event}
    (h : ∀ v hash available, e ≠ .loaded v (.Custom hash) .action available) :
    ActionsInScope (e :: log) ↔ ActionsInScope log :=
  actionsInScope_cons.trans (and_iff_right fun v hash available he =>
    absurd he (h v hash available))

/-- What the log says after something a VM did on its own. -/
structure Recorded (log log' : List Event) (v : Nat) (vm : VM) (set : List Bytes32Hash) : Prop where
  others : ∀ w hash, w ≠ v → (InScope log' w hash ↔ InScope log w hash)
  scope : ∀ hash, hash ∈ set ↔ InScope log' v hash
  below : ∀ w, BelowNondet log' w ↔ BelowNondet log w
  grows : vm.custom_runners ⊆ set
  bare : vm.conf.is_deterministic = false → set = []
  isolated : Isolated log' ↔ ActionsInScope log'

theorem recorded {s : State Archive} (hi : Inv s) {v : Nat} {vm : VM} (hv : s.vms v = some vm)
    {set : List Bytes32Hash} {e : Option Event} (h : Effect v vm set e) :
    Recorded s.log (e.toList ++ s.log) v vm set := by
  have hvm := hi.holds v vm hv
  cases h with
  | quiet =>
    exact ⟨fun _ _ _ => Iff.rfl, hvm.scope, fun _ => Iff.rfl, fun _ h => h, hvm.bare, hi.isolated⟩
  | registered hash hdet =>
    refine ⟨fun w h hw => or_iff_left fun hf => hw hf.1.symm, fun h => ?_, fun _ => Iff.rfl,
      fun _ hm => List.mem_cons_of_mem _ hm, fun hf => ?_, ?_⟩
    · change h ∈ hash :: vm.custom_runners ↔ InScope s.log v h ∨ (v = v ∧ hash = h)
      rw [List.mem_cons, hvm.scope, or_comm, eq_comm]
      exact or_congr_right ⟨fun he => ⟨rfl, he⟩, fun he => he.2⟩
    · rw [hdet] at hf
      cases hf
    · exact hi.isolated.trans (actionsInScope_other (by intro _ _ _ he; cases he)).symm
  | loaded id cause hchecked =>
    refine ⟨fun _ _ _ => Iff.rfl, hvm.scope, fun _ => Iff.rfl, fun _ h => h, hvm.bare, ?_⟩
    have hrest : Isolated s.log ↔ ActionsInScope s.log := hi.isolated
    cases id with
    | Builtin name hash => exact hrest.trans (actionsInScope_other (by intro _ _ _ he; cases he)).symm
    | Chain address on slot => exact hrest.trans (actionsInScope_other (by intro _ _ _ he; cases he)).symm
    | Custom hash =>
      refine (and_congr (hvm.may_load hash).symm hrest).trans (Iff.trans ?_ actionsInScope_cons.symm)
      refine and_congr_left fun _ => ⟨fun hmem v' hash' set' he => ?_, fun hall => ?_⟩
      · obtain ⟨-, hid, -, rfl⟩ := Event.loaded.inj he
        obtain rfl := Id.Custom.inj hid
        exact hmem
      · by_cases hcause : cause = .action
        · rw [hcause] at hall
          exact hall v hash _ rfl
        · exact hchecked hcause hash rfl

/-- Two cases of a table with one entry replaced. -/
theorem update_cases {vms : Nat → Option VM} {v w : Nat} {vm wm : VM}
    (h : Function.update vms v (some vm) w = some wm) : (w = v ∧ wm = vm) ∨ (w ≠ v ∧ vms w = some wm) := by
  by_cases hw : w = v
  · rw [hw, Function.update_self] at h
    exact .inl ⟨hw, (Option.some.inj h).symm⟩
  · rw [Function.update_of_ne hw] at h
    exact .inr ⟨hw, h⟩

theorem update_none {vms : Nat → Option VM} {v w : Nat} {vm : VM}
    (h : Function.update vms v (some vm) w = none) : w ≠ v ∧ vms w = none := by
  by_cases hw : w = v
  · rw [hw, Function.update_self] at h
    cases h
  · rw [Function.update_of_ne hw] at h
    exact ⟨hw, h⟩

/-- The entries that are waited for keep their kind and lose nothing. -/
theorem waits_kept {vms : Nat → Option VM} {v c : Nat} {vm wm : VM} (vm' : VM) (hv : vms v = some vm)
    (hkind : vm'.kind = vm.kind) (hconf : vm'.conf = vm.conf)
    (hgrows : vm.custom_runners ⊆ vm'.custom_runners)
    (h : ∃ child, vms c = some child ∧ Hands wm child) :
    ∃ child, Function.update vms v (some vm') c = some child ∧ Hands wm child := by
  obtain ⟨child, hc, hset⟩ := h
  by_cases hcv : c = v
  · subst hcv
    obtain rfl := Option.some.inj (hv.symm.trans hc)
    refine ⟨vm', Function.update_self .., fun hk => ?_⟩
    obtain ⟨hsub, hdet⟩ := hset (hkind ▸ hk)
    exact ⟨List.Subset.trans hsub hgrows, hconf ▸ hdet⟩
  · exact ⟨child, by rw [Function.update_of_ne hcv]; exact hc, hset⟩

theorem inv_own {s : State Archive} (hi : Inv s) {v : Nat} {vm vm' : VM} {sup' : Supervisor Archive}
    {e : Option Event} (hv : s.vms v = some vm) (h : Does v vm vm' e) :
    Inv (⟨sup', Function.update s.vms v (some vm'), e.toList ++ s.log⟩ : State Archive) := by
  have hr := recorded hi hv h.effect
  have hvm := hi.holds v vm hv
  refine ⟨fun w wm hw => ?_, fun w hw => ?_, hr.isolated⟩
  · rcases update_cases hw with ⟨rfl, rfl⟩ | ⟨hne, hw⟩
    · refine ⟨hr.scope, (hr.below w).trans ?_, fun hdet => ?_, fun c hc => absurd hc (h.waits c)⟩
      · rw [h.conf]
        exact hvm.below
      · rw [h.conf] at hdet
        exact hr.bare hdet
    · have hwm := hi.holds w wm hw
      refine ⟨fun hash => (hwm.scope hash).trans (hr.others w hash hne).symm,
        (hr.below w).trans hwm.below, hwm.bare, fun c hc => ?_⟩
      exact waits_kept vm' hv h.kind h.conf hr.grows (hwm.waits c hc)
  · obtain ⟨hne, hw⟩ := update_none hw
    obtain ⟨hscope, hbelow⟩ := hi.fresh w hw
    exact ⟨fun hash hs => hscope hash ((hr.others w hash hne).mp hs), fun hb => hbelow ((hr.below w).mp hb)⟩

/-- Another status leaves the rest of the invariant. -/
theorem inv_status {s : State Archive} (hi : Inv s) {v : Nat} {vm : VM} (hv : s.vms v = some vm)
    {status : Status} (hstatus : ∀ c, status ≠ .waiting c) :
    Inv { s with vms := Function.update s.vms v (some { vm with status := status }) } :=
  inv_own hi hv (show Does v vm { vm with status := status } none from ⟨rfl, rfl, hstatus, .quiet⟩)

/-- A child starts with the set of its parent, or without one and non-deterministic. -/
structure Started (vm child : VM) : Prop where
  status : child.status = .spawned
  scope : (child.kind = .nondet ∧ child.custom_runners = [] ∧ child.conf.is_deterministic = false) ∨
    (child.kind ≠ .nondet ∧ child.custom_runners = vm.custom_runners ∧
      child.conf.is_deterministic = vm.conf.is_deterministic)

theorem starts_started {vm child : VM} {waits : Bool} (h : Starts env vm child waits) :
    Started vm child := by
  cases h with
  | call_contract _ _ _ hdet _ => exact ⟨rfl, .inr ⟨nofun, rfl, hdet.symm⟩⟩
  | run_nondet _ _ => exact ⟨rfl, .inl ⟨rfl, rfl, rfl⟩⟩
  | sandbox _ _ _ _ => exact ⟨rfl, .inr ⟨nofun, rfl, rfl⟩⟩

/-- A new VM changes nothing for the others. -/
theorem inScope_spawned {log : List Event} {v c w : Nat} {kind : Kind} (hash : Bytes32Hash)
    (hw : w ≠ c) : InScope (.spawned v c kind :: log) w hash ↔ InScope log w hash :=
  or_iff_left fun hf => hw hf.1.symm

theorem belowNondet_spawned {log : List Event} {v c w : Nat} {kind : Kind} (hw : w ≠ c) :
    BelowNondet (.spawned v c kind :: log) w ↔ BelowNondet log w :=
  or_iff_left fun hf => hw hf.1.symm

/-- A new VM takes the scope of its parent, unless it is non-deterministic. -/
theorem holds_child {s : State Archive} {v c : Nat} {vm child : VM} {waits : Bool}
    (hvm : Holds s v vm) (hstart : Started vm child)
    (hnone : (∀ hash, ¬ InScope s.log c hash) ∧ ¬ BelowNondet s.log c) :
    Holds (s.spawned v vm c child waits) c child := by
  have hchild : ∀ hash, InScope (.spawned v c child.kind :: s.log) c hash ↔
      child.kind ≠ .nondet ∧ InScope s.log v hash := fun hash =>
    (or_iff_right (hnone.1 hash)).trans (and_iff_right rfl)
  have hbelow : BelowNondet (.spawned v c child.kind :: s.log) c ↔
      child.kind = .nondet ∨ BelowNondet s.log v := (or_iff_right hnone.2).trans (and_iff_right rfl)
  have hwaits : ∀ c', child.status = .waiting c' →
      ∃ child', (s.spawned v vm c child waits).vms c' = some child' ∧ Hands child child' := by
    intro c' hc'
    rw [hstart.status] at hc'
    cases hc'
  rcases hstart.scope with ⟨hkind, hset, hdet⟩ | ⟨hkind, hset, hdet⟩
  · refine ⟨fun hash => ?_, ?_, fun _ => hset, hwaits⟩
    · rw [hset]
      exact iff_of_false List.not_mem_nil fun hs => ((hchild hash).mp hs).1 hkind
    · exact iff_of_true (hbelow.mpr (.inl hkind)) hdet
  · refine ⟨fun hash => ?_, ?_, fun hf => ?_, hwaits⟩
    · rw [hset]
      exact (hvm.scope hash).trans ((hchild hash).trans (and_iff_right hkind)).symm
    · rw [hdet]
      exact (hbelow.trans (or_iff_right hkind)).trans hvm.below
    · rw [hset]
      exact hvm.bare (hdet ▸ hf)

theorem inv_spawn {s : State Archive} (hi : Inv s) {v c : Nat} {vm child : VM} {waits : Bool}
    (hv : s.vms v = some vm) (hstart : Started vm child) (hfresh : s.vms c = none) :
    Inv (s.spawned v vm c child waits) := by
  have hvm := hi.holds v vm hv
  have hcv : v ≠ c := fun he => by
    rw [he, hfresh] at hv
    cases hv
  -- the entries that are waited for are older than the child
  have hwaits : ∀ {wm : VM} {c' : Nat}, (∃ child, s.vms c' = some child ∧ Hands wm child) →
      ∃ child', (s.spawned v vm c child waits).vms c' = some child' ∧ Hands wm child' := by
    intro wm c' h
    obtain ⟨child', hc', hhands⟩ := waits_kept (vm.started c waits) hv rfl rfl
      (fun _ h => h) h
    have hne : c' ≠ c := fun he => by
      obtain ⟨_, hc, -⟩ := h
      rw [he, hfresh] at hc
      cases hc
    exact ⟨child', (Function.update_of_ne hne ..).trans hc', hhands⟩
  refine ⟨fun w wm hw => ?_, fun w hw => ?_, ?_⟩
  · rcases update_cases hw with ⟨rfl, rfl⟩ | ⟨hne, hw⟩
    · exact holds_child hvm hstart (hi.fresh _ hfresh)
    · rcases update_cases hw with ⟨rfl, rfl⟩ | ⟨hnv, hw⟩
      · refine ⟨fun hash => (hvm.scope hash).trans (inScope_spawned hash hne).symm,
          (belowNondet_spawned hne).trans hvm.below, hvm.bare, fun c' hc' => ?_⟩
        -- the parent waits for the child, if for anything
        cases waits with
        | false => cases hc'
        | true =>
          obtain rfl := Status.waiting.inj hc'
          refine ⟨child, Function.update_self .., fun hsandbox => ?_⟩
          rcases hstart.scope with ⟨hkind, -, -⟩ | ⟨-, hset, hdet⟩
          · rw [hkind] at hsandbox
            cases hsandbox
          · exact ⟨fun _ h => hset ▸ h, hdet⟩
      · have hwm := hi.holds w wm hw
        exact ⟨fun hash => (hwm.scope hash).trans (inScope_spawned hash hne).symm,
          (belowNondet_spawned hne).trans hwm.below, hwm.bare, fun c' hc' => hwaits (hwm.waits c' hc')⟩
  · obtain ⟨hne, hw⟩ := update_none hw
    obtain ⟨-, hw⟩ := update_none hw
    obtain ⟨hscope, hb⟩ := hi.fresh w hw
    exact ⟨fun hash hs => hscope hash ((inScope_spawned hash hne).mp hs), fun h => hb ((belowNondet_spawned hne).mp h)⟩
  · exact hi.isolated.trans (actionsInScope_other (by intro _ _ _ he; cases he)).symm

theorem inv_resume {s : State Archive} (hi : Inv s) {v c : Nat} {vm child : VM}
    (hv : s.vms v = some vm) (hwait : vm.status = .waiting c) (hc : s.vms c = some child) :
    Inv (s.resume v vm c child) := by
  have hvm := hi.holds v vm hv
  have hcm := hi.holds c child hc
  unfold State.resume
  split
  · rename_i hsandbox
    obtain ⟨child', hc', hhands⟩ := hvm.waits c hwait
    obtain rfl := Option.some.inj (hc.symm.trans hc')
    obtain ⟨hsub, hdet⟩ := hhands hsandbox
    have hothers : ∀ w hash, w ≠ v → (InScope (.returned c v :: s.log) w hash ↔
        InScope s.log w hash) := fun w hash hw => or_iff_left fun hf => hw hf.1.symm
    refine ⟨fun w wm hw => ?_, fun w hw => ?_, ?_⟩
    · rcases update_cases hw with ⟨rfl, rfl⟩ | ⟨hne, hw⟩
      · refine ⟨fun hash => ?_, hvm.below, fun hf => hcm.bare (hdet.trans hf), fun c' hc' => nomatch hc'⟩
        change hash ∈ child.custom_runners ↔ InScope s.log w hash ∨ (w = w ∧ InScope s.log c hash)
        constructor
        · exact fun hm => .inr ⟨rfl, (hcm.scope hash).mp hm⟩
        · intro hs
          rcases hs with hs | ⟨-, hs⟩
          · exact hsub ((hvm.scope hash).mpr hs)
          · exact (hcm.scope hash).mpr hs
      · have hwm := hi.holds w wm hw
        refine ⟨fun hash => (hwm.scope hash).trans (hothers w hash hne).symm, hwm.below, hwm.bare,
          fun c' hc' => ?_⟩
        exact waits_kept _ hv rfl rfl hsub (hwm.waits c' hc')
    · obtain ⟨hne, hw⟩ := update_none hw
      obtain ⟨hscope, hb⟩ := hi.fresh w hw
      exact ⟨fun hash hs => hscope hash ((hothers w hash hne).mp hs), hb⟩
    · exact hi.isolated.trans (actionsInScope_other (by intro _ _ _ he; cases he)).symm
  · exact inv_status hi hv fun _ => nofun

theorem inv_step {s s' : State Archive} (hi : Inv s) (h : Step env s s') : Inv s' := by
  cases h with
  | own hv hdoes => exact inv_own hi hv (own_does env hdoes)
  | spawn hv _ hstarts hfresh => exact inv_spawn hi hv (starts_started env hstarts) hfresh
  | resume hv hwait hc _ => exact inv_resume hi hv hwait hc
  | abort hv _ _ _ => exact inv_status hi hv fun _ => nofun

theorem inv_reachable {s : State Archive} (h : Reachable env s) : Inv s := by
  induction h with
  | initial h => exact inv_initial h
  | step _ hstep ih => exact inv_step env ih hstep

/-- **Scopes of custom runners.** In every run, every custom runner that a VM loads
is in the scope of the VM, and the VM not below a non-deterministic one, exactly
when those that `With` and `Depends` load are in the set of their VM. -/
theorem loads_isolated {s : State Archive} (h : Reachable env s) :
    Isolated s.log ↔ ActionsInScope s.log :=
  (inv_reachable env h).isolated

/-! ## An action that is not checked -/

section Leak

def registered_hash : Bytes32Hash := ⟨List.replicate 32 1, rfl⟩

def registered_id : Id := .Custom registered_hash

/-- A contract whose non-deterministic VMs depend on a runner it has to register. -/
def contract_actions : InitAction :=
  .seq [.when .nondet (.depends (String.ofList (registered_id.canonical id))), .startWasm "main.wasm"]

def contract_id : Id := .Chain ⟨List.replicate 20 0, Calldata.length_zeros_20⟩ .Accepted SlotID.ZERO

def contract_env : Env InitAction Unit where
  keccak := id
  resolve_runner_id topmost text := (RunnerIds.resolve_runner_id RunnerIds.full
    (fun _ _ => .error ()) topmost text).mapError fun _ => ()
  custom_runner_hash _ := registered_hash
  parse _ := .ok (.seq [])
  provide _ := .ok contract_actions
  get_actions archive := .ok archive
  not_found := ()
  malformed_runner := ()

def contract_conf : Config := ⟨true, true, true, true, true, contract_id⟩

def contract_start : State InitAction where
  sup := ⟨fun _ => none, fun _ => none⟩
  vms := Function.update (fun _ => none) 0 (some (VM.spawn .main contract_conf []))
  log := []

theorem resolve_registered (topmost : Id) :
    contract_env.resolve_runner_id topmost (String.ofList (registered_id.canonical id)).toList
      = .ok registered_id := by
  have h := RunnerIds.resolve_canonical id (show RunnerIds.Known RunnerIds.full registered_id from trivial)
    (fun _ _ h => Id.noConfusion h) (fun _ _ => Except.error ()) topmost
  unfold contract_env
  dsimp only
  rw [String.toList_ofList, h]
  rfl

/-- The supervisor once the contract is cached and the runner registered. -/
def contract_sup : Supervisor InitAction where
  custom_runners := Function.update (fun _ => none) registered_hash (some (.seq []))
  runner_cache := Function.update (fun _ => none) (contract_id.canonical id) (some contract_actions)

theorem load_contract : load_runner contract_env contract_sup contract_id []
    = .ok (contract_actions, contract_sup) := by
  change get_arch contract_env contract_sup contract_id = _
  unfold get_arch contract_sup
  dsimp only
  rw [show contract_env.keccak = id from rfl, Function.update_self]

theorem canonical_ne : registered_id.canonical id ≠ contract_id.canonical id := by
  intro h
  have hsecond := congrArg (fun text : List Char => text[1]?) h
  change some 'u' = some 'h' at hsecond
  exact absurd hsecond (by decide)

theorem get_arch_registered : ∃ sup, get_arch contract_env contract_sup registered_id
    = .ok (.seq [], sup) := by
  refine ⟨contract_sup.put (registered_id.canonical id) (.seq []), ?_⟩
  unfold get_arch contract_sup
  dsimp only
  rw [show contract_env.keccak = id from rfl, Function.update_of_ne canonical_ne]
  rfl

/-- The contract registers the runner and starts a non-deterministic VM. -/
theorem contract_registers : ∃ s : State InitAction, Reachable contract_env s ∧ s.sup = contract_sup ∧
    s.vms 1 = some (nondet_child (VM.spawn .main contract_conf [])) := by
  have h0 : Reachable contract_env contract_start :=
    .initial ⟨fun _ => rfl, rfl, contract_conf, rfl, rfl⟩
  have h1 := h0.step (.own (v := 0) rfl (.start rfl rfl))
  have h2 := h1.step (.own (v := 0) rfl (.action rfl rfl))
  have h3 := h2.step (.own (v := 0) rfl (.action rfl rfl))
  have h4 := h3.step (.own (v := 0) rfl (.action rfl rfl))
  have h5 := h4.step (.own (v := 0) rfl (.register_runner rfl rfl rfl (show register_custom_runner _ _ [] = _ from rfl)))
  have h6 := h5.step (.spawn (v := 0) (c := 1) rfl rfl (.run_nondet true rfl) rfl)
  exact ⟨_, h6, rfl, rfl⟩

/-- It applies the contract's actions, up to the dependency. -/
def leaking : VM where
  kind := .nondet
  conf := (nondet_child (VM.spawn .main contract_conf [])).conf
  custom_runners := []
  status := .running
  todo := [.depends (String.ofList (registered_id.canonical id)), .startWasm "main.wasm"]
  visited := []

theorem leaking_loads : (apply contract_env 1 leaking contract_sup [.startWasm "main.wasm"]
    (.depends (String.ofList (registered_id.canonical id)))).2.2
      = some (.loaded 1 registered_id .action []) := by
  obtain ⟨sup, hload⟩ := get_arch_registered
  rw [apply, resolve_registered]
  dsimp only
  rw [if_neg (show _ ∉ leaking.visited from List.not_mem_nil), hload]
  rfl

theorem contract_leaks : ∃ s : State InitAction, Reachable contract_env s ∧
    s.log.head? = some (.loaded 1 registered_id .action []) := by
  obtain ⟨⟨sup, vms, log⟩, hs, hsup, hvm⟩ := contract_registers
  obtain rfl : sup = contract_sup := hsup
  have h1 := hs.step (.own (v := 1) hvm (.start rfl load_contract))
  have h2 := h1.step (.own (v := 1) rfl (.action rfl rfl))
  have h3 := h2.step (.own (v := 1) rfl (.action rfl rfl))
  have h4 := h3.step (.own (v := 1) (show _ = some leaking from rfl) (.action rfl rfl))
  exact ⟨_, h4, congrArg (fun e : Option Event => (e.toList ++ _).head?) leaking_loads⟩

theorem contract_not_isolated : ¬ ∀ s : State InitAction, Reachable contract_env s → Isolated s.log := by
  intro hall
  obtain ⟨s, hs, hlog⟩ := contract_leaks
  have hactions := (inv_reachable contract_env hs).isolated.mp (hall s hs)
  exact List.not_mem_nil (hactions 1 registered_hash [] (List.mem_of_head? hlog))

theorem loads_isolated_contract : ∃ s : State InitAction, Reachable contract_env s ∧
    (Isolated s.log ↔ ActionsInScope s.log) := by
  obtain ⟨s, hs, -⟩ := contract_leaks
  exact ⟨s, hs, loads_isolated contract_env hs⟩

end Leak

end GenVM.RunnerScope
