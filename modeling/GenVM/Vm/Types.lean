import GenVM.Lib.Effect
import GenVM.Store.Types
import GenVM.Fees.Allocation

/-!
# Virtual machines (`executor/src/wasi/genlayer_sdk.rs`, `rt/vm/mod.rs`, `rt/errors.rs`)

`SingleVMData` is the state of one VM, `Shared` what all VMs of an execution
work on, `Env` what stays fixed. Fields the modelled functions neither read nor
return are left out.

A `Guest` is the behaviour of the program a VM runs, as the tree of its host
calls: a node is one call with what the program does on each answer. A call that
spawns a VM also has the program of that VM, given the data it starts with. What
modules and the host answer to requests that leave the executor is part of the
node. So a tree is one run, with any nesting, and every run is such a tree.
-/
namespace GenVM.Vm
open GenVM.Lib GenVM.Calldata GenVM.Fees
open GenVM.Store (SlotID Storage Content)

/-! ## Errors -/

/-- An error in flight: a `wasmtime::Trap`, a `GuestError`, an executor `Error`
of each kind, a `ContractReturn`, or anything else. -/
inductive Fault where
  | wasm_trap (code : String)
  | guest_error
  | vm (code : String)
  | user (value : Maybe Tree)
  | internal
  | contract_return (value : Maybe Tree)
  | other

/-- mirrors executor/src/rt/vm/mod.rs:10-15 -/
inductive RunOk where
  | Return (data : Maybe Tree)
  | UserError (value : Maybe Tree)
  | VMError (code : String) (cause : Option Fault)

/-- The texts an executor `Error` collects are left out, and with them the cause
that is folded from them.
mirrors executor/src/rt/errors.rs:12-55, 271-288 -/
def unwrap_vm_errors : Fault → Option RunOk
  | .wasm_trap code => some (.VMError ("wasm_trap " ++ code) (some (.wasm_trap code)))
  | .guest_error => some (.VMError "wasm_trap fault" (some .guest_error))
  | .vm code => some (.VMError code none)
  | .user value => some (.UserError value)
  | .internal => none
  | .contract_return value => some (.Return value)
  | .other => none

/-- `Error::from(anyhow)` keeps a carried `Error`, all else is internal.
mirrors executor/src/rt/errors.rs:309-325 -/
def Fault.into_error : Fault → Fault
  | .vm code => .vm code
  | .user value => .user value
  | _ => .internal

/-- mirrors executor/src/rt/errors.rs:211-217 -/
def wrap (code : String) (cause : Fault) : Fault :=
  match cause.into_error with
  | .vm inner => .vm inner
  | .user value => .user value
  | _ => .vm code

/-- mirrors executor/src/rt/errors.rs:222-227 -/
def vm_cause (code : String) : Option Fault → Fault
  | some cause => wrap code cause
  | none => .vm code

/-- mirrors executor/src/rt/vm/mod.rs:79-81 -/
def RunOk.empty_return : RunOk := .Return (.materialized .null)

/-- mirrors executor/crates/sdk-rs/src/abi/consts.rs:20-25 -/
inductive ResultCode where
  | Return | UserError | VmError | InternalError
  deriving DecidableEq

def ResultCode.value : ResultCode → UInt8
  | Return => 0
  | UserError => 1
  | VmError => 2
  | InternalError => 3

/-- mirrors executor/crates/calldata/src/codec/de/unparsed.rs:35-43 -/
def encode_maybe : Maybe Tree → Bytes
  | .materialized t => encode t
  | .checked raw => raw

/-- mirrors executor/src/rt/vm/mod.rs:83-111 -/
def RunOk.as_bytes : RunOk → Bytes
  | .Return data => ResultCode.Return.value :: encode_maybe data
  | .UserError value => ResultCode.UserError.value :: encode_maybe value
  | .VMError code _ => ResultCode.VmError.value :: Utf8.bytes code

/-- The errors a host call gives back to the program. -/
inductive Errno where
  | Inval | Forbidden | Inbalance
  deriving DecidableEq

/-- mirrors the generated `Error` of executor/src/wasi/genlayer_sdk.rs:287-300 -/
inductive HostError where
  | errno (e : Errno)
  | trap (f : Fault)

/-- Only a request of the contract puts a value into an error; a program that
exits with 0 returns null.
mirrors executor/src/wasi/genlayer_sdk.rs:1333-1341, wasi/preview1.rs:1188-1195 -/
def Fault.Plain : Fault → Prop
  | .user _ => False
  | .contract_return value => value = .materialized .null
  | _ => True

/-- An error from anywhere else. -/
abbrev Raised := {f : Fault // f.Plain}

def Raised.vm (code : String) : Raised := ⟨.vm code, trivial⟩

def Raised.internal : Raised := ⟨.internal, trivial⟩

/-- No value gets into a wrapped error. -/
theorem wrap_plain (code : String) {f : Fault} (h : f.Plain) : (wrap code f).Plain := by
  cases f with
  | user value => exact h.elim
  | _ => trivial

def Raised.wrap (code : String) (cause : Raised) : Raised :=
  ⟨Vm.wrap code cause.1, wrap_plain code cause.2⟩

/-- A host call refused outside the executor. -/
inductive Refusal where
  | errno (e : Errno)
  | trap (f : Raised)

/-- Why there is no result at all. -/
inductive Stop where
  | internal
  | panic

/-! ## Codes -/

def OOM_STORAGE : String := "OOM storage"
def OOM_FEES_INTERNAL : String := "OOM fees internal"
def OOM_FEES_EXTERNAL : String := "OOM fees external"
def OOM_RAM_LIMIT : String := "OOM RAM limit"
def OOM_NONDET_OUTPUT : String := "OOM receipt nondet_output"
def ABSENT_LEADER_NONDET_OUTPUT : String := "absent_leader_nondet_output"
def INVALID_CONTRACT : String := "invalid_contract"
def INVALID_CONTRACT_MAJOR_MISMATCH : String := "invalid_contract major_mismatch"

def EVENT_MAX_TOPICS : Nat := 4
def NONDET_BLOCKS : Nat := 4096
def VM_RECURSION : Nat := 512

/-! ## Emissions -/

/-- mirrors executor/crates/common/src/domain.rs:8-47 -/
inductive ExecutionEmission where
  | EthSend (address : Address) (calldata : Bytes) (value message_fee receipt_fee : Nat)
      (fee_params : ExternalMessageParams)
  | PostMessage (call_key : CallKey) (address : Address) (calldata : Maybe Tree) (value : Nat)
      (on : On) (message_fee receipt_fee : Nat) (fee_params : InternalMessageParams)
      (subtree : Bytes)
  | DeployContract (calldata : Maybe Tree) (code : Bytes) (value : Nat) (on : On) (salt_nonce : Nat)
      (message_fee receipt_fee : Nat) (fee_params : InternalMessageParams) (subtree : Bytes)
  | EmitEvent (topics : List Bytes) (blob : Maybe (List (String × Tree))) (storage_fee : Nat)

/-! ## A virtual machine -/

/-- mirrors executor/src/runners/mod.rs:28-32 -/
inductive ChainState where
  | Accepted | Finalized | Deploy
  deriving DecidableEq

/-- mirrors executor/src/runners/mod.rs:93-106 -/
inductive RunnerId where
  | Builtin (name : String) (hash : Bytes)
  | Chain (address : Address) (on : ChainState) (slot : SlotID)
  | Custom (hash : Bytes)

/-- mirrors executor/src/wasi/base.rs:6-17 -/
structure Config where
  needs_error_fingerprint : Bool
  is_deterministic : Bool
  can_read_storage : Bool
  can_write_storage : Bool
  can_spawn_nondet : Bool
  can_send_messages : Bool
  can_call_others : Bool
  can_register_runners : Bool
  state_mode : StorageType
  topmost_runner_id : RunnerId

/-- mirrors executor/src/wasi/base.rs:19-23 -/
def Config.is_main (conf : Config) : Bool := decide (conf.state_mode = .Default)

/-- mirrors executor/crates/sdk-rs/src/abi/consts.rs:118-122 -/
inductive EntryKind where
  | Main | Sandbox | ConsensusStage
  deriving DecidableEq

/-- `datetime` is in seconds.
mirrors executor/crates/sdk-rs/src/abi/entry.rs:122-145 -/
structure MessageData where
  contract_address : Address
  sender_address : Address
  origin_address : Address
  stack : List Address
  chain_id : Int
  value : Int
  is_init : Bool
  datetime : Int

/-- mirrors executor/crates/sdk-rs/src/abi/entry.rs:261-270 -/
structure ExtendedMessage where
  message : MessageData
  entry_kind : EntryKind
  entry_data : Bytes
  entry_stage_data : Tree

/-- mirrors executor/src/wasi/genlayer_sdk.rs:219-223 -/
structure ReadToken where
  mode : StorageType
  account : Address

/-- The limiter of the source is shared by all VMs, see `Shared`.
mirrors executor/src/wasi/genlayer_sdk.rs:247-256 -/
structure VMDataAccumulator where
  messages_value_decremented : Nat
  emissions : List ExecutionEmission
  message_fee_allocation : List MessageAllocationNode
  custom_runners : List Bytes

/-- mirrors executor/src/wasi/genlayer_sdk.rs:258-272 -/
def VMDataAccumulator.check_empty (acc : VMDataAccumulator) : Bool :=
  acc.emissions.isEmpty && acc.message_fee_allocation.isEmpty

/-- `det_subvm_hashes` is what the digest was fed so far.
mirrors executor/src/wasi/genlayer_sdk.rs:274-282 -/
structure SingleVMData where
  conf : Config
  depth : Nat
  message_data : ExtendedMessage
  read_token : ReadToken
  storage : Storage
  accumulator : VMDataAccumulator
  det_subvm_hashes : Bytes

/-! ## What the VMs share -/

/-- The fee limiter, with a count of the storage pages it was charged for, which
no function reads. -/
structure Limits where
  data_fees : DataLimit
  page_charges : Nat

/-- mirrors executor/src/rt/supervisor/mod.rs:64-87 -/
structure Shared where
  limits : Limits
  nondet_call_no : Nat
  nondet_results : List Bytes
  nondet_call_disagree : Option Nat
  nondet_tasks : List (Nat × Except Stop RunOk)

/-- `sha3_256`, `keccak256` and the parsing of an archive come from outside; an
error of the last one is given to `wrap`. -/
structure Env where
  is_sync : Bool
  leader_nondet_results : Option (List Bytes)
  locked_slots : SlotID → Bool
  content : StorageType → Address → Content
  balance : Address → {n : Nat // n < U256_BOUND}
  node_major : Nat
  sha3_256 : Bytes → {b : Bytes // b.length = 32}
  keccak256 : Bytes → {b : Bytes // b.length = 32}
  parse : Bytes → Except Raised Unit
  resolve_runner_id : RunnerId → String → Except Raised RunnerId

/-- mirrors executor/src/rt/supervisor/mod.rs:250-252 -/
def Env.is_leader (env : Env) : Bool := env.leader_nondet_results.isNone

/-- mirrors executor/src/rt/supervisor/mod.rs:237-241 -/
def Env.get_leader_nondet_result (env : Env) (call_no : Nat) : Option Bytes :=
  env.leader_nondet_results.bind fun v => v[call_no]?

/-- The state a host call works on. -/
structure Machine where
  vm : SingleVMData
  shared : Shared

/-- A host call of the VM. -/
abbrev HostM := EffectM Stop HostError Machine

/-! ## Programs -/

/-- mirrors executor/src/rt/errors.rs:373-377 -/
structure Frame where
  module_name : String
  func : Nat

/-- The call stack and the hashes of the memories when a program ends.
mirrors executor/src/rt/errors.rs:394-407 -/
structure Snapshot where
  backtrace : Option (List Frame)
  wasm_store_hashes : List (String × List Bytes)

/-- What a host call leaves in the file it returns, if it returns one. -/
abbrev Reply := Option Bytes

inductive Guest where
  /-- The program is over: it returned, or an error got out of it. -/
  | halt (outcome : Except Raised Unit) (at_end : Snapshot)
  | gl_call (request : Bytes) (outside : Except Refusal Reply) (at_trap : Snapshot)
      (child : SingleVMData → Guest) (k : Except Errno Reply → Guest)
  | storage_read (slot : SlotID) (index : Nat) (buf : Bytes) (at_trap : Snapshot)
      (k : Except Errno Bytes → Guest)
  | storage_write (slot : SlotID) (index : Nat) (buf : Bytes) (at_trap : Snapshot)
      (k : Except Errno Unit → Guest)
  | get_balance (account : Address) (at_trap : Snapshot) (k : Except Errno Nat → Guest)
  | get_self_balance (at_trap : Snapshot) (k : Except Errno Nat → Guest)

end GenVM.Vm
