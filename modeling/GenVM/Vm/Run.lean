import GenVM.Vm.Host
import GenVM.Calldata.Parser
import GenVM.Store.Root
import GenVM.Store.Delta

/-!
# Runs (`executor/src/wasi/genlayer_sdk.rs`, `rt/mod.rs`, `lib.rs`)

The requests that start another VM, the run of a program, and a whole execution.

A child of `CallContract` works on its own storage and accumulator, which are
dropped; a sandbox gets the storage and the accumulator of its parent, and the
parent takes them back however the sandbox ends; a non-deterministic child works
on copies. A validator's child runs beside the contract and only its verdict is
kept.
-/
namespace GenVM.Vm
open GenVM.Lib GenVM.Calldata GenVM.Fees
open GenVM.Lib.EffectM
open GenVM.Store (SlotID Storage Delta)

/-! ## Results of a child -/

/-- mirrors executor/src/rt/vm/mod.rs:17-22 -/
structure RunResult where
  run_ok : RunOk
  backtrace : Option (List Frame)
  wasm_store_hashes : List (String × List Bytes)
  vm_data : SingleVMData

/-- mirrors executor/src/rt/errors.rs:422-437 -/
def encode_module_fingerprint (memories : List Bytes) : Bytes :=
  Encoder.startMap 1 ++ Encoder.pushMapK "memories" ++
    Encoder.startArray memories.length ++ memories.flatMap Encoder.pushBytes

/-- mirrors executor/src/rt/errors.rs:409-420 -/
def encode_wasm_store_hashes (hashes : List (String × List Bytes)) : Bytes :=
  Encoder.startMap hashes.length ++
    hashes.flatMap fun kv => Encoder.pushMapK kv.1 ++ encode_module_fingerprint kv.2

/-- mirrors executor/src/rt/vm/mod.rs:288-330 -/
def RunResult.small_hash (env : Env) (res : RunResult) : Bytes :=
  let (kind, result) := match res.run_ok with
    | .Return buf => ("Return", encode_maybe buf)
    | .UserError buf => ("UserError", encode_maybe buf)
    | .VMError data _ => ("VMError", Encoder.pushStr data)
  (env.sha3_256 (Encoder.startMap 4 ++
    Encoder.pushMapK "kind" ++ Encoder.pushStr kind ++
    Encoder.pushMapK "result" ++ result ++
    Encoder.pushMapK "subvm_hashes" ++
      Encoder.pushBytes (env.sha3_256 res.vm_data.det_subvm_hashes).1 ++
    Encoder.pushMapK "wasm_store_hashes" ++ encode_wasm_store_hashes res.wasm_store_hashes)).1

/-- `det_subvm_hashes.update(&hash)` -/
def Machine.addHash (m : Machine) (hash : Bytes) : Machine :=
  { m with vm := { m.vm with det_subvm_hashes := m.vm.det_subvm_hashes ++ hash } }

/-- A VM error of the child traps its parent, all else becomes a file.
mirrors executor/src/wasi/genlayer_sdk.rs:485-503 -/
def set_vm_run_result : RunOk → HostM Reply
  | .VMError code cause => fail (.trap (vm_cause code cause))
  | data => pure (some data.as_bytes)

/-! ## What a child starts with -/

/-- mirrors executor/src/wasi/genlayer_sdk.rs:168-208 -/
def fork_leader (message : ExtendedMessage) (entry_kind : EntryKind) (entry_data : Bytes)
    (entry_leader_data : Option RunOk) : ExtendedMessage :=
  { message := { message.message with is_init := false }
    entry_kind := entry_kind
    entry_data := entry_data
    entry_stage_data := match entry_leader_data with
      | none => .null
      | some data => .map [("leaders_result", .bytes data.as_bytes)] }

def fork (message : ExtendedMessage) (entry_kind : EntryKind) (entry_data : Bytes) :
    ExtendedMessage := fork_leader message entry_kind entry_data none

/-- mirrors executor/src/wasi/genlayer_sdk.rs:741-802 -/
def contract_child (vm : SingleVMData) (address : Address) (calldata : Maybe Tree)
    (state : StorageType) (storage : Storage) (code_slot : SlotID) : SingleVMData :=
  let forked := fork vm.message_data .Main (encode_maybe calldata)
  { depth := vm.depth + 1
    conf :=
      { needs_error_fingerprint := true
        is_deterministic := true
        can_read_storage := vm.conf.can_read_storage
        can_write_storage := false
        can_spawn_nondet := vm.conf.can_spawn_nondet
        can_call_others := vm.conf.can_call_others
        can_send_messages := false
        can_register_runners := vm.conf.can_register_runners
        state_mode := state
        topmost_runner_id :=
          .Chain address (if state = .LatestFinal then .Finalized else .Accepted) code_slot }
    message_data :=
      { message :=
          { contract_address := address
            sender_address := forked.message.sender_address
            origin_address := forked.message.origin_address
            value := 0
            is_init := false
            datetime := forked.message.datetime
            chain_id := forked.message.chain_id
            stack := forked.message.stack ++ [forked.message.contract_address] }
        entry_kind := forked.entry_kind
        entry_data := forked.entry_data
        entry_stage_data := .null }
    read_token := ⟨state, address⟩
    storage := storage
    accumulator :=
      { messages_value_decremented := vm.accumulator.messages_value_decremented
        emissions := []
        message_fee_allocation := []
        custom_runners := vm.accumulator.custom_runners }
    det_subvm_hashes := [] }

/-- mirrors executor/src/wasi/genlayer_sdk.rs:1924-1965 -/
def sandbox_child (vm : SingleVMData) (data : Bytes) (runner_id : RunnerId)
    (allow_write_storage allow_send_messages allow_register_runners : Bool) : SingleVMData :=
  { depth := vm.depth + 1
    conf :=
      { needs_error_fingerprint := false
        is_deterministic := vm.conf.is_deterministic
        can_read_storage := vm.conf.can_read_storage
        can_write_storage := vm.conf.can_write_storage && allow_write_storage
        can_spawn_nondet := false
        can_call_others := false
        can_send_messages := vm.conf.can_send_messages && allow_send_messages
        can_register_runners := vm.conf.can_register_runners && allow_register_runners
        state_mode := vm.conf.state_mode
        topmost_runner_id := runner_id }
    message_data := fork vm.message_data .Sandbox data
    read_token := vm.read_token
    storage := vm.storage
    accumulator := vm.accumulator
    det_subvm_hashes := [] }

/-- mirrors executor/src/wasi/genlayer_sdk.rs:1808-1862 -/
def nondet_child (vm : SingleVMData) (data : Bytes) (leaders_res : Option RunOk) : SingleVMData :=
  { depth := vm.depth + 1
    conf :=
      { needs_error_fingerprint := false
        is_deterministic := false
        can_read_storage := vm.conf.can_read_storage
        can_write_storage := false
        can_spawn_nondet := false
        can_call_others := false
        can_send_messages := false
        can_register_runners := false
        state_mode := .Default
        topmost_runner_id := vm.conf.topmost_runner_id }
    message_data := fork_leader vm.message_data .ConsensusStage data leaders_res
    read_token := vm.read_token
    storage := vm.storage
    accumulator :=
      { messages_value_decremented := vm.accumulator.messages_value_decremented
        emissions := []
        message_fee_allocation := []
        custom_runners := [] }
    det_subvm_hashes := [] }

/-! ## Requests -/

/-- How a request goes on: it is answered, or a VM has to run first. -/
inductive Next where
  | reply (reply : Reply)
  | call_contract (child : SingleVMData)
  | sandbox (child : SingleVMData)
  | nondet_leader (call_no : Nat) (child : SingleVMData)
  | nondet_validator (call_no : Nat) (child : SingleVMData) (leaders_res : RunOk)

/-- mirrors executor/src/wasi/genlayer_sdk.rs:700-802 -/
def call_contract (env : Env) (address : Address) (calldata : Maybe Tree) (state : StorageType) :
    HostM Next := do
  let m ← read
  require m.vm.conf.is_deterministic forbidden
  require m.vm.conf.can_call_others forbidden
  let state := if state = .Default then .LatestNonFinal else state
  match Store.check_major_and_resolve_code_slot env.sha3_256 env.node_major
    (Raised.vm INVALID_CONTRACT_MAJOR_MISMATCH) (env.content state address) Storage.new with
  | (.error f, _) => fail (.trap f.1)
  | (.ok code_slot, storage) =>
    pure (.call_contract (contract_child m.vm address calldata state storage code_slot))

/-- mirrors executor/src/wasi/genlayer_sdk.rs:1907-1965 -/
def sandbox (env : Env) (data : Bytes) (runner : String)
    (allow_write_storage allow_send_messages allow_register_runners : Bool) : HostM Next := do
  let m ← read
  match env.resolve_runner_id m.vm.conf.topmost_runner_id runner with
  | .error f => fail (.trap f.1)
  | .ok runner_id => pure (.sandbox (sandbox_child m.vm data runner_id
      allow_write_storage allow_send_messages allow_register_runners))

/-- mirrors executor/src/wasi/genlayer_sdk.rs:150-166 -/
def consume_nondet_output (output_length : Nat) : HostM Unit := do
  let m ← read
  let (charged, data_fees) ← orPanic (Fees.consume_nondet_output m.data_fees output_length)
  update (·.setDataFees data_fees)
  match charged with
  | none => fail (.trap .other)
  | some charged => require charged (oom_trap OOM_NONDET_OUTPUT)

/-- Charge the result and hand it to the contract.
mirrors executor/src/wasi/genlayer_sdk.rs:1897-1904 -/
def give_nondet_result (result : RunOk) : HostM Reply := do
  consume_nondet_output result.as_bytes.length
  set_vm_run_result result

/-- A result as the leader pushed it.
mirrors executor/src/wasi/genlayer_sdk.rs:1759-1793 -/
def decode_leader_result (code : UInt8) (rest : Bytes) : Except HostError RunOk :=
  if code = ResultCode.Return.value then .ok (.Return (.checked rest))
  else if code = ResultCode.UserError.value then
    match decode rest with
    | .ok val => .ok (.UserError (.materialized val))
    | .error _ => .error (.trap .other)
  else if code = ResultCode.VmError.value then
    match fromUtf8 rest with
    | .ok code => .ok (.VMError code none)
    | .error _ => .error (.trap .other)
  else .error (.trap .other)

/-- mirrors executor/src/rt/supervisor/mod.rs:243-248 -/
def Machine.mark_nondet_disagreement (m : Machine) (call_no : Nat) : Machine :=
  { m with shared := { m.shared with
      nondet_call_disagree := some ((m.shared.nondet_call_disagree.map (min call_no)).getD call_no) } }

/-- `nondet_call_no.fetch_add(1)` -/
def Machine.nextCallNo (m : Machine) : Machine :=
  { m with shared := { m.shared with nondet_call_no := m.shared.nondet_call_no + 1 } }

/-- mirrors executor/src/wasi/genlayer_sdk.rs:1718-1895 -/
def run_nondet (env : Env) (data_leader data_validator : Bytes) : HostM Next := do
  let m ← read
  require m.vm.conf.can_spawn_nondet forbidden
  let call_no := m.shared.nondet_call_no
  update Machine.nextCallNo
  require (decide (call_no < NONDET_BLOCKS)) (oom_trap OOM_RAM_LIMIT)
  match env.get_leader_nondet_result call_no with
  | none =>
    if env.is_leader then
      if env.is_sync then fail (.trap .other)
      else pure (.nondet_leader call_no (nondet_child m.vm data_leader none))
    else fail (oom_trap ABSENT_LEADER_NONDET_OUTPUT)
  | some [] => do
    if env.is_sync then pure () else update (·.mark_nondet_disagreement call_no)
    let reply ← give_nondet_result (.VMError ABSENT_LEADER_NONDET_OUTPUT none)
    pure (.reply reply)
  | some (code :: rest) =>
    match decode_leader_result code rest with
    | .error e => fail e
    | .ok leaders_res =>
      if env.is_sync then do
        let reply ← give_nondet_result leaders_res
        pure (.reply reply)
      else pure (.nondet_validator call_no
        (nondet_child m.vm data_validator (some leaders_res)) leaders_res)

/-- mirrors executor/src/wasi/genlayer_sdk.rs:593-1382 -/
def dispatch (env : Env) (outside : Except Refusal Reply) : Message → HostM Next
  | .EthCall _ _ => .reply <$> eth_call outside
  | .CallContract address calldata state => call_contract env address calldata state
  | .EthSend address calldata value => .reply <$> eth_send env address calldata value
  | .PostMessage address calldata value on => .reply <$> post_message env address calldata value on
  | .DeployContract calldata code value on salt_nonce =>
    .reply <$> deploy_contract env calldata code value on salt_nonce
  | .EmitEvent topics blob => .reply <$> emit_event topics blob
  | .RunNondet data_leader data_validator => run_nondet env data_leader data_validator
  | .Sandbox data runner w s r => sandbox env data runner w s r
  | .RegisterRunner code => .reply <$> register_runner env code outside
  | .MapFile _ _ _ => .reply <$> map_file outside
  | .WebRender _ | .WebRequest _ | .ExecPrompt _ | .ExecPromptTemplate _ =>
    .reply <$> module_request outside
  | .UserError value => fail (.trap (.user value))
  | .Return value => fail (.trap (.contract_return value))
  | .Trace _ => .reply <$> answer outside
  | .Yield => pure (.reply none)
  | .GetTimestamp => .reply <$> get_timestamp outside

/-- mirrors executor/src/wasi/genlayer_sdk.rs:564-592 -/
def gl_call (env : Env) (request : Bytes) (outside : Except Refusal Reply) : HostM Next :=
  match decode request with
  | .error _ => fail (.errno .Inval)
  | .ok value =>
    match Message.from_value value with
    | none => fail (.errno .Inval)
    | some message => dispatch env outside message

/-! ## After the child -/

/-- mirrors executor/src/wasi/genlayer_sdk.rs:804-823 -/
def after_call_contract (env : Env) (res : RunResult) : HostM Reply := do
  require res.vm_data.accumulator.check_empty (.trap .other)
  update (·.addHash (res.small_hash env))
  set_vm_run_result res.run_ok

/-- mirrors executor/src/wasi/genlayer_sdk.rs:1967-1981 -/
def after_sandbox (env : Env) (res : RunResult) : HostM Reply := do
  let m ← read
  if m.vm.conf.is_deterministic then update (·.addHash (res.small_hash env)) else pure ()
  update (·.setAccumulator res.vm_data.accumulator)
  update (·.setStorage res.vm_data.storage)
  pure (some res.run_ok.as_bytes)

/-- mirrors executor/src/rt/supervisor/mod.rs:225-233 -/
def Machine.push_nondet_result (m : Machine) (call_no : Nat) (result : Bytes) : Machine :=
  let padded := m.shared.nondet_results ++
    List.replicate (call_no + 1 - m.shared.nondet_results.length) []
  { m with shared := { m.shared with nondet_results := padded.set call_no result } }

/-- mirrors executor/src/rt/supervisor/mod.rs:186-204 -/
def Machine.submit_nondet_vm_task (m : Machine) (call_no : Nat) (outcome : Except Stop RunOk) :
    Machine :=
  { m with shared := { m.shared with nondet_tasks := m.shared.nondet_tasks ++ [(call_no, outcome)] } }

def Machine.setShared (m : Machine) (shared : Shared) : Machine := { m with shared := shared }

/-- A child runs on what the VMs share. -/
abbrev Spawn := SingleVMData → Shared → Except Stop (RunResult × Shared)

/-- Run a child, then go on with what it leaves. -/
def after (spawn : Spawn) (child : SingleVMData) (k : RunResult → HostM Reply) : HostM Reply :=
  fun m => match spawn child m.shared with
  | .error t => .error t
  | .ok (res, shared) => k res (m.setShared shared)

/-- mirrors executor/src/wasi/genlayer_sdk.rs:1872-1893 -/
def complete (env : Env) (spawn : Spawn) : Next → HostM Reply
  | .reply reply => pure reply
  | .call_contract child => after spawn child (after_call_contract env)
  | .sandbox child => after spawn child (after_sandbox env)
  | .nondet_leader call_no child => after spawn child fun res => do
    update (·.push_nondet_result call_no res.run_ok.as_bytes)
    give_nondet_result res.run_ok
  | .nondet_validator call_no child leaders_res => do
    -- the task runs beside the contract: only its outcome is kept
    update fun m => m.submit_nondet_vm_task call_no ((spawn child m.shared).map fun r => r.1.run_ok)
    give_nondet_result leaders_res

/-! ## The run of a program -/

/-- The end of a VM. An error that is no result is internal.
mirrors executor/src/rt/vm/mod.rs:160-262, rt/mod.rs:68-96 -/
def finish (outcome : Except Fault Unit) (at_end : Snapshot) (m : Machine) :
    Except Stop (RunResult × Shared) :=
  match outcome with
  | .ok () => .ok (⟨RunOk.empty_return, none, at_end.wasm_store_hashes, m.vm⟩, m.shared)
  | .error f =>
    match unwrap_vm_errors f with
    | none => .error .internal
    | some run_ok =>
      let backtrace := if m.vm.conf.needs_error_fingerprint then at_end.backtrace else none
      .ok (⟨run_ok, backtrace, at_end.wasm_store_hashes, m.vm⟩, m.shared)

def Snapshot.empty : Snapshot := ⟨none, []⟩

/-- A VM below the depth limit starts with the check of the contract's major version.
mirrors executor/src/rt/mod.rs:98-108, rt/supervisor/mod.rs:350-360, 427-446 -/
def spawn_apply_run (env : Env) (run : Machine → Except Stop (RunResult × Shared)) : Machine →
    Except Stop (RunResult × Shared) := fun m =>
  if VM_RECURSION ≤ m.vm.depth then finish (.error (.vm OOM_RAM_LIMIT)) Snapshot.empty m
  else
    let (contract_major, storage) :=
      Store.read_major (env.content m.vm.read_token.mode m.vm.read_token.account) m.vm.storage
    if contract_major.toNat ≠ env.node_major then
      finish (.error (.vm INVALID_CONTRACT_MAJOR_MISMATCH)) Snapshot.empty (m.setStorage storage)
    else run (m.setStorage storage)

/-- The program goes on with the answer of a host call, unless the call traps. -/
def proceed {α : Type} (at_trap : Snapshot)
    (k : Except Errno α → Machine → Except Stop (RunResult × Shared)) :
    Except Stop (Except HostError α × Machine) → Except Stop (RunResult × Shared)
  | .error t => .error t
  | .ok (.ok a, m) => k (.ok a) m
  | .ok (.error (.errno e), m) => k (.error e) m
  | .ok (.error (.trap f), m) => finish (.error f) at_trap m

/-- The run of a VM on a program. -/
def vm_run (env : Env) : Guest → Machine → Except Stop (RunResult × Shared)
  | .halt outcome at_end, m => finish (outcome.mapError Subtype.val) at_end m
  | .gl_call request outside at_trap child k, m =>
    proceed at_trap (fun r m => vm_run env (k r) m)
      ((gl_call env request outside >>= complete env fun data shared =>
        spawn_apply_run env (fun m => vm_run env (child data) m) ⟨data, shared⟩) m)
  | .storage_read slot index buf at_trap k, m =>
    proceed at_trap (fun r m => vm_run env (k r) m) (storage_read env slot index buf m)
  | .storage_write slot index buf at_trap k, m =>
    proceed at_trap (fun r m => vm_run env (k r) m) (storage_write env slot index buf m)
  | .get_balance account at_trap k, m =>
    proceed at_trap (fun r m => vm_run env (k r) m) (get_balance env account m)
  | .get_self_balance at_trap k, m =>
    proceed at_trap (fun r m => vm_run env (k r) m) (get_self_balance env m)

/-! ## An execution -/

/-- mirrors executor/crates/common/src/domain.rs:54-75 -/
structure ExecutionData where
  calldata : Bytes
  message : MessageData
  code : Option Bytes
  message_fee_allocation : List MessageAllocationNode

/-- The letters of the permission string.
mirrors executor/src/lib.rs:240-246 -/
structure Permissions where
  r : Bool
  w : Bool
  s : Bool
  c : Bool
  n : Bool
  u : Bool

/-- mirrors executor/src/rt/vm/mod.rs:24-35 -/
structure FullResult where
  kind : ResultCode
  data : Maybe Tree
  backtrace : Option (List Frame)
  wasm_store_hashes : List (String × List Bytes)
  subvm_hashes : Bytes
  storage_changes : List Delta
  emissions : List ExecutionEmission

/-- mirrors executor/src/lib.rs:279-283 -/
def RunOk.kind : RunOk → ResultCode
  | .Return _ => .Return
  | .UserError _ => .UserError
  | .VMError _ _ => .VmError

/-- mirrors executor/src/lib.rs:284-288 -/
def RunOk.data : RunOk → Maybe Tree
  | .Return buf => buf
  | .UserError val => val
  | .VMError msg _ => .materialized (.str msg)

/-- mirrors executor/src/rt/vm/mod.rs:44-62 -/
def FullResult.empty_from (env : Env) (run_ok : RunOk) : FullResult :=
  ⟨run_ok.kind, run_ok.data, none, [], (env.sha3_256 []).1, [], []⟩

/-- The storage of the contract before its VM starts, and its runner: a deploy
writes the code first.
mirrors executor/src/lib.rs:138-205 -/
def prepare (env : Env) (entry_data : ExecutionData) : Store.WriteM (Sum Stop Raised) Limits RunnerId :=
  let address := entry_data.message.contract_address
  let host := env.content .LatestNonFinal address
  match entry_data.code with
  | some code => do
    Store.write_code env.sha3_256 host Limits.consume (.inr (Raised.vm OOM_STORAGE)) code
    Store.write_major host Limits.consume (UInt8.ofNat env.node_major)
    match env.parse code with
    | .error e => throw (.inr (Raised.wrap INVALID_CONTRACT e))
    | .ok () => pure (.Chain address .Deploy (Store.default_code_slot env.sha3_256))
  | none => fun (s, l) =>
    match Store.check_major_and_resolve_code_slot env.sha3_256 env.node_major
      (Raised.vm INVALID_CONTRACT_MAJOR_MISMATCH) host s with
    | (.error f, s) => (.error (.inr f), (s, l))
    | (.ok slot, s) => (.ok (.Chain address .Accepted slot), (s, l))

/-- mirrors executor/src/lib.rs:230-271 -/
def essential_data (entry_data : ExecutionData) (permissions : Permissions)
    (topmost_runner_id : RunnerId) (topmost_storage : Storage) : SingleVMData :=
  { depth := 0
    conf :=
      { needs_error_fingerprint := true
        is_deterministic := true
        can_read_storage := permissions.r
        can_write_storage := permissions.w
        can_send_messages := permissions.s
        can_call_others := permissions.c
        can_spawn_nondet := permissions.n
        can_register_runners := permissions.u
        state_mode := .Default
        topmost_runner_id := topmost_runner_id }
    message_data := ⟨entry_data.message, .Main, entry_data.calldata, .null⟩
    read_token := ⟨.LatestNonFinal, entry_data.message.contract_address⟩
    storage := topmost_storage
    accumulator := ⟨0, [], entry_data.message_fee_allocation, []⟩
    det_subvm_hashes := [] }

/-- The result of the topmost VM; `make_delta` may panic.
mirrors executor/src/lib.rs:277-299 -/
def full_result (env : Env) (res : RunResult) : Except Stop FullResult :=
  match Store.make_delta res.vm_data.storage with
  | none => .error .panic
  | some storage_changes =>
    .ok ⟨res.run_ok.kind, res.run_ok.data, res.backtrace, res.wasm_store_hashes,
      (env.sha3_256 res.vm_data.det_subvm_hashes).1, storage_changes,
      res.vm_data.accumulator.emissions⟩

/-- `program` is what the topmost VM runs, given the data it starts with.
mirrors executor/src/lib.rs:131-299 -/
def run_with_impl (env : Env) (entry_data : ExecutionData) (permissions : Permissions)
    (program : SingleVMData → Guest) (shared : Shared) : Except Stop (FullResult × Shared) :=
  match prepare env entry_data (Storage.new, shared.limits) with
  | (.error (.inl t), _, _) => .error t
  | (.error (.inr f), _, limits) =>
    match unwrap_vm_errors f.1 with
    | none => .error .internal
    | some run_ok => .ok (FullResult.empty_from env run_ok, { shared with limits := limits })
  | (.ok topmost_runner_id, topmost_storage, limits) =>
    let data := essential_data entry_data permissions topmost_runner_id topmost_storage
    match spawn_apply_run env (fun m => vm_run env (program data) m)
      ⟨data, { shared with limits := limits }⟩ with
    | .error t => .error t
    | .ok (res, shared) =>
      match full_result env res with
      | .error t => .error t
      | .ok result => .ok (result, shared)

end GenVM.Vm
