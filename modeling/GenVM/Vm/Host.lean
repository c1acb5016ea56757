import GenVM.Vm.Types

/-!
# Host calls of one VM (`executor/src/wasi/genlayer_sdk.rs`)

The requests that are answered without starting another VM: storage, balances,
messages, events, results. Each is a host call that checks the permissions of
the VM first. What a request costs is charged just before its effect.
-/
namespace GenVM.Vm
open GenVM.Lib GenVM.Calldata GenVM.Fees
open GenVM.Lib.EffectM
open GenVM.Store (SlotID Storage)

/-! ## State updates -/

namespace Machine

def acc (m : Machine) : VMDataAccumulator := m.vm.accumulator

def data_fees (m : Machine) : DataLimit := m.shared.limits.data_fees

def setAccumulator (m : Machine) (acc : VMDataAccumulator) : Machine :=
  { m with vm := { m.vm with accumulator := acc } }

def setStorage (m : Machine) (storage : Storage) : Machine :=
  { m with vm := { m.vm with storage := storage } }

def setLimits (m : Machine) (limits : Limits) : Machine :=
  { m with shared := { m.shared with limits := limits } }

def setDataFees (m : Machine) (data_fees : DataLimit) : Machine :=
  m.setLimits { m.shared.limits with data_fees := data_fees }

/-- `emissions.push(e)` -/
def pushEmission (m : Machine) (e : ExecutionEmission) : Machine :=
  m.setAccumulator { m.acc with emissions := m.acc.emissions ++ [e] }

/-- `messages_value_decremented.saturating_add(value)` -/
def addValue (m : Machine) (value : Nat) : Machine :=
  m.setAccumulator { m.acc with
    messages_value_decremented := min (m.acc.messages_value_decremented + value) (U256_BOUND - 1) }

def setNodeBudget (m : Machine) (i budget : Nat) : Machine :=
  m.setAccumulator { m.acc with
    message_fee_allocation := m.acc.message_fee_allocation.modify i (·.setBudget budget) }

end Machine

/-! ## Errors -/

def forbidden : HostError := .errno .Forbidden

/-- mirrors executor/src/wasi/genlayer_sdk.rs:24-28 -/
def oom_trap (code : String) : HostError := .trap (.vm code)

/-- A panic of the function called stops everything. -/
def orPanic {α : Type} : Option α → HostM α
  | some a => pure a
  | none => stop .panic

/-- A failed fee expression is an ordinary error, with no code. -/
def orTrap {α : Type} : Option α → HostM α
  | some a => pure a
  | none => fail (.trap .other)

/-! ## Storage -/

/-- Charge one page.
mirrors executor/src/rt/vm/storage.rs:76-84 -/
def Limits.consume (l : Limits) : Except (Sum Stop Raised) Limits :=
  match consume_storage_pages l.data_fees 1 with
  | none => .error (.inl .panic)
  | some (none, _) => .error (.inr Raised.internal)
  | some (some false, _) => .error (.inr (Raised.vm OOM_STORAGE))
  | some (some true, data_fees) => .ok ⟨data_fees, l.page_charges + 1⟩

/-- Run a step of the storage; a failure leaves it as it is at that point. -/
def onStorage {α : Type} (x : Store.WriteM (Sum Stop Raised) Limits α) : HostM α := fun m =>
  match x (m.vm.storage, m.shared.limits) with
  | (.ok a, s, l) => .ok (.ok a, (m.setStorage s).setLimits l)
  | (.error (.inl t), _, _) => .error t
  | (.error (.inr f), s, l) => .ok (.error (.trap f.1), (m.setStorage s).setLimits l)

/-- mirrors executor/src/wasi/genlayer_sdk.rs:1386-1441 -/
def storage_read (env : Env) (slot : SlotID) (index : Nat) (buf : Bytes) : HostM Bytes := do
  let m ← read
  require m.vm.conf.can_read_storage forbidden
  require (decide (index + buf.length < 2 ^ 32)) (.errno .Inval)
  if m.vm.conf.is_main then do
    let (buf, s) := Store.read (env.content m.vm.read_token.mode m.vm.read_token.account)
      m.vm.storage slot index buf
    update (·.setStorage s)
    pure buf
  else
    pure (Store.storage_read
      (env.content m.vm.conf.state_mode m.vm.message_data.message.contract_address)
      slot index buf.length)

/-- mirrors executor/src/wasi/genlayer_sdk.rs:1443-1483 -/
def storage_write (env : Env) (slot : SlotID) (index : Nat) (buf : Bytes) : HostM Unit := do
  let m ← read
  require m.vm.conf.is_deterministic forbidden
  require m.vm.conf.can_write_storage forbidden
  require (decide (index + buf.length < 2 ^ 32)) (.errno .Inval)
  require (!env.locked_slots slot) forbidden
  onStorage (Store.write (env.content m.vm.read_token.mode m.vm.read_token.account)
    Limits.consume slot index buf)

/-! ## Balances -/

/-- mirrors executor/src/wasi/genlayer_sdk.rs:550-560 -/
def checked_sum_le (a b c : Nat) : Bool := if b > c then false else decide (a ≤ c - b)

/-- mirrors executor/src/wasi/genlayer_sdk.rs:1485-1495 -/
def get_balance (env : Env) (account : Address) : HostM Nat := pure (env.balance account).1

/-- mirrors executor/src/wasi/genlayer_sdk.rs:1497-1515, 1518-1537 -/
def get_self_balance (env : Env) : HostM Nat := do
  let m ← read
  require m.vm.conf.is_deterministic forbidden
  let res := (env.balance m.vm.message_data.message.contract_address).1
  if m.vm.conf.is_main then orPanic (sub res m.acc.messages_value_decremented) else pure res

/-- A value can be sent when the balance covers it and what was sent before.
mirrors executor/src/wasi/genlayer_sdk.rs:608-621, 950-963, 1033-1046 -/
def check_balance (env : Env) (value : Nat) : HostM Unit := do
  let m ← read
  if value = 0 then pure ()
  else require (checked_sum_le value m.acc.messages_value_decremented
    (env.balance m.vm.message_data.message.contract_address).1) (.errno .Inbalance)

/-! ## Message fees -/

/-- The first node that matches, with its position. -/
def findMatch {α : Type} (f : MessageAllocationNode → Option α) :
    List MessageAllocationNode → Option (Nat × MessageAllocationNode × α)
  | [] => none
  | node :: nodes =>
    match f node with
    | some params => some (0, node, params)
    | none => (findMatch f nodes).map fun r => (r.1 + 1, r.2)

/-- mirrors executor/src/rt/fees.rs:221-225 -/
structure MessageFeeConsumption where
  message_fee : List Nat
  receipt_fee : List Nat

/-- `oom` is the code of a refusal.
mirrors executor/src/wasi/genlayer_sdk.rs:38-94, 102-148 -/
def consume_message_fee (oom : String) (fee_cost : DataLimit → Option (List Nat)) (i : Nat)
    (node : MessageAllocationNode) (receipt : MessageReceiptParams) :
    HostM MessageFeeConsumption := do
  let m ← read
  let fee_cost ← orTrap (fee_cost m.data_fees)
  let fee_total ← orPanic (CostVec.sum fee_cost)
  require (decide (fee_total ≤ node.budget)) (oom_trap oom)
  let receipt_cost ← orTrap (calculate_message_receipt m.data_fees receipt)
  let (charged, data_fees) ← orPanic (Fees.consume_message_fee m.data_fees fee_cost receipt_cost)
  update (·.setDataFees data_fees)
  require charged (oom_trap oom)
  let budget ← orPanic (sub node.budget fee_total)
  update (·.setNodeBudget i budget)
  pure ⟨fee_cost, receipt_cost⟩

/-- mirrors executor/src/wasi/genlayer_sdk.rs:38-94 -/
def consume_message_fee_internal (i : Nat) (node : MessageAllocationNode)
    (params : InternalMessageParams) (on : On) (is_deploy : Bool)
    (calldata_length code_length subtree_length : Nat) : HostM MessageFeeConsumption :=
  consume_message_fee OOM_FEES_INTERNAL (calculate_message_fee_internal · on params) i node
    ⟨true, is_deploy, calldata_length, code_length, subtree_length⟩

/-- mirrors executor/src/wasi/genlayer_sdk.rs:102-148 -/
def consume_message_fee_external (i : Nat) (node : MessageAllocationNode)
    (params : ExternalMessageParams) (is_deploy : Bool) (calldata_length : Nat) :
    HostM MessageFeeConsumption :=
  consume_message_fee OOM_FEES_EXTERNAL (calculate_message_fee_external · params) i node
    ⟨false, is_deploy, calldata_length, 0, 0⟩

/-- Record the message with what it cost.
mirrors executor/src/wasi/genlayer_sdk.rs:657-677, 990-1014, 1093-1117 -/
def push_message (value : Nat) (emission : Nat → Nat → ExecutionEmission)
    (fees : MessageFeeConsumption) : HostM Reply := do
  let message_fee ← orPanic (CostVec.sum fees.message_fee)
  let receipt_fee ← orPanic (CostVec.sum fees.receipt_fee)
  update fun m => (m.pushEmission (emission message_fee receipt_fee)).addValue value
  pure none

/-! ## Messages and events -/

/-- mirrors executor/src/wasi/genlayer_sdk.rs:623-628 -/
def selector_key (calldata : Bytes) : CallKey :=
  if h : calldata.length < 4 then ⟨List.replicate 32 0, Calldata.length_zeros_32⟩
  else ⟨calldata.take 4 ++ List.replicate 28 0, by
    rw [List.length_append, List.length_take, List.length_replicate]
    omega⟩

/-- mirrors executor/src/wasi/genlayer_sdk.rs:595-680 -/
def eth_send (env : Env) (address : Address) (calldata : Bytes) (value : Nat) : HostM Reply := do
  let m ← read
  require m.vm.conf.is_deterministic forbidden
  require m.vm.conf.can_send_messages forbidden
  check_balance env value
  match findMatch (·.matches_external address (selector_key calldata))
    m.acc.message_fee_allocation with
  | none => fail (oom_trap OOM_FEES_EXTERNAL)
  | some (i, node, params) =>
    consume_message_fee_external i node params false calldata.length >>=
      push_message value fun message_fee receipt_fee =>
        .EthSend address calldata value message_fee receipt_fee params

/-- The method a calldata value names.
mirrors executor/src/wasi/genlayer_sdk.rs:936-946 -/
def call_key (env : Env) (calldata : Maybe Tree) : CallKey :=
  match calldata.materialize Decode.value with
  | .ok (.map kvs) =>
    match kvs.lookup "" with
    | some (.str method_name) => CallKey.for_method env.keccak256 (Utf8.bytes method_name)
    | _ => CallKey.UNNAMED
  | _ => CallKey.UNNAMED

/-- mirrors executor/src/wasi/genlayer_sdk.rs:914-1017 -/
def post_message (env : Env) (address : Address) (calldata : Maybe Tree) (value : Nat) (on : On) :
    HostM Reply := do
  let m ← read
  require m.vm.conf.is_deterministic forbidden
  require m.vm.conf.can_send_messages forbidden
  let key := call_key env calldata
  check_balance env value
  match findMatch (·.matches_internal on address key) m.acc.message_fee_allocation with
  | none => fail (oom_trap OOM_FEES_INTERNAL)
  | some (i, node, params) =>
    let subtree := abi_encode node.children
    consume_message_fee_internal i node params on false (encode_maybe calldata).length 0
        subtree.length >>=
      push_message value fun message_fee receipt_fee =>
        .PostMessage key address calldata value on message_fee receipt_fee params subtree

/-- mirrors executor/crates/calldata/src/types.rs -/
def Address.zero : Address := ⟨List.replicate 20 0, Calldata.length_zeros_20⟩

/-- mirrors executor/src/wasi/genlayer_sdk.rs:1019-1119 -/
def deploy_contract (env : Env) (calldata : Maybe Tree) (code : Bytes) (value : Nat) (on : On)
    (salt_nonce : Nat) : HostM Reply := do
  let m ← read
  require m.vm.conf.is_deterministic forbidden
  require m.vm.conf.can_send_messages forbidden
  check_balance env value
  match findMatch (·.matches_internal on Address.zero CallKey.DEPLOY)
    m.acc.message_fee_allocation with
  | none => fail (oom_trap OOM_FEES_INTERNAL)
  | some (i, node, params) =>
    let subtree := abi_encode node.children
    consume_message_fee_internal i node params on true (encode_maybe calldata).length code.length
        subtree.length >>=
      push_message value fun message_fee receipt_fee =>
        .DeployContract calldata code value on salt_nonce message_fee receipt_fee params subtree

/-- mirrors executor/crates/calldata/src/codec/se.rs -/
def encode_map (kvs : List (String × Tree)) : Bytes :=
  Encoder.startMap kvs.length ++ kvs.flatMap fun kv => Encoder.pushMapK kv.1 ++ encode kv.2

def encode_maybe_map : Maybe (List (String × Tree)) → Bytes
  | .materialized kvs => encode_map kvs
  | .checked raw => raw

/-- The charge of an event and its emission.
mirrors executor/src/wasi/genlayer_sdk.rs:881-900 -/
def charge_event (topics : List Bytes) (blob : Maybe (List (String × Tree))) : HostM Reply := do
  let m ← read
  let (paid, data_fees) ←
    orPanic (consume_event m.data_fees (encode_maybe_map blob).length topics.length)
  update (·.setDataFees data_fees)
  match paid with
  | none => fail (.trap .other)
  | some none => fail (oom_trap OOM_STORAGE)
  | some (some storage_fee) => do
    update (·.pushEmission (.EmitEvent topics blob storage_fee))
    pure none

/-- mirrors executor/src/wasi/genlayer_sdk.rs:825-903 -/
def emit_event (topics : List Bytes) (blob : Maybe (List (String × Tree))) : HostM Reply := do
  let m ← read
  require m.vm.conf.is_deterministic forbidden
  require m.vm.conf.can_write_storage forbidden
  require (decide (topics.length ≤ EVENT_MAX_TOPICS)) (.errno .Inval)
  require (topics.all fun t => decide (t.length = 32)) (.errno .Inval)
  charge_event topics blob

/-! ## The rest -/

/-- An answer from outside. -/
def answer : Except Refusal Reply → HostM Reply
  | .ok reply => pure reply
  | .error (.errno e) => fail (.errno e)
  | .error (.trap f) => fail (.trap f.1)

/-- mirrors executor/src/wasi/genlayer_sdk.rs:1612-1643 -/
def register_runner (env : Env) (code : Bytes) (outside : Except Refusal Reply) :
    HostM Reply := do
  let m ← read
  require m.vm.conf.is_deterministic forbidden
  require m.vm.conf.can_register_runners forbidden
  let id ← answer outside
  update fun m => m.setAccumulator { m.acc with
    custom_runners := (env.sha3_256 code).1 :: m.acc.custom_runners }
  pure id

/-- mirrors executor/src/wasi/genlayer_sdk.rs:1595-1610 -/
def get_timestamp (outside : Except Refusal Reply) : HostM Reply := do
  let m ← read
  if m.vm.conf.is_deterministic then
    pure (some (encode (.number m.vm.message_data.message.datetime)))
  else answer outside

/-- A request to a module, only in non-deterministic mode. -/
def module_request (outside : Except Refusal Reply) : HostM Reply := do
  let m ← read
  require (!m.vm.conf.is_deterministic) forbidden
  answer outside

/-- mirrors executor/src/wasi/genlayer_sdk.rs:681-699 -/
def eth_call (outside : Except Refusal Reply) : HostM Reply := do
  let m ← read
  require m.vm.conf.is_deterministic forbidden
  require m.vm.conf.can_call_others forbidden
  answer outside

/-- mirrors executor/src/wasi/genlayer_sdk.rs:1645-1685 -/
def map_file (outside : Except Refusal Reply) : HostM Reply := do
  let m ← read
  require m.vm.conf.can_read_storage forbidden
  answer outside

end GenVM.Vm
