import GenVM.Fees.Types
import GenVM.Vm.Message

/-!
# Message-fee allocations (`common/src/domain/fees.rs`, `domain/fees/abi.rs`)

A forest of allocation nodes says what messages a contract may send and how much
each may cost. `abi_encode` is its flat form for the chain, in pre-order, with
the index of the parent in each element.
-/
namespace GenVM.Fees
open GenVM.Calldata (Address Bytes)
open GenVM.Vm (On)

/-- mirrors executor/crates/common/src/domain/fees.rs:16-43 -/
structure InternalMessageParams where
  leader_timeunits_allocation : Nat
  validator_timeunits_allocation : Nat
  execution_budget_per_round : Nat
  rotations : List Nat
  max_price_gen_per_time_unit : Nat
  storage_fee_max_gas_price : Nat
  receipt_fee_max_gas_price : Nat
  deriving DecidableEq

/-- mirrors executor/crates/common/src/domain/fees.rs:56-59 -/
structure ExternalMessageParams where
  gas_limit : Nat
  max_gas_price : Nat
  deriving DecidableEq

/-- mirrors executor/crates/common/src/domain/fees.rs:69-72 -/
inductive MessageAllocationNodeParams where
  | Internal (params : InternalMessageParams)
  | External (params : ExternalMessageParams)

/-- mirrors executor/crates/sdk-rs/src/abi/mod.rs:34-40 -/
@[ext]
structure CallKey where
  raw : Bytes
  size : raw.length = 32

instance instDecidableEqCallKey : DecidableEq CallKey := fun _ _ =>
  decidable_of_iff _ CallKey.ext_iff.symm

/-- mirrors executor/crates/common/src/domain/fees.rs:83-95 -/
inductive MessageAllocationNode where
  | mk (recipient : Option Address) (call_key : Option CallKey) (budget : Nat) (on : On)
      (fee_params : MessageAllocationNodeParams) (children : List MessageAllocationNode)

namespace MessageAllocationNode

def recipient : MessageAllocationNode → Option Address | mk r _ _ _ _ _ => r
def call_key : MessageAllocationNode → Option CallKey | mk _ k _ _ _ _ => k
def budget : MessageAllocationNode → Nat | mk _ _ b _ _ _ => b
def on : MessageAllocationNode → On | mk _ _ _ o _ _ => o
def fee_params : MessageAllocationNode → MessageAllocationNodeParams | mk _ _ _ _ p _ => p
def children : MessageAllocationNode → List MessageAllocationNode | mk _ _ _ _ _ c => c

def setBudget (budget : Nat) : MessageAllocationNode → MessageAllocationNode
  | mk r k _ o p c => mk r k budget o p c

@[simp] theorem setBudget_budget (b : Nat) (node : MessageAllocationNode) :
    (node.setBudget b).budget = b := by cases node; rfl

/-- mirrors executor/crates/common/src/domain/fees.rs:106-124 -/
def matches_internal (node : MessageAllocationNode) (on : On) (recipient : Address)
    (call_key : CallKey) : Option InternalMessageParams :=
  match node.fee_params with
  | .Internal params =>
    if on ≠ node.on then none
    else if node.recipient.any (· ≠ recipient) then none
    else if node.call_key.any (· ≠ call_key) then none
    else some params
  | .External _ => none

/-- mirrors executor/crates/common/src/domain/fees.rs:126-141 -/
def matches_external (node : MessageAllocationNode) (recipient : Address) (call_key : CallKey) :
    Option ExternalMessageParams :=
  match node.fee_params with
  | .Internal _ => none
  | .External params =>
    if node.recipient.any (· ≠ recipient) then none
    else if node.call_key.any (· ≠ call_key) then none
    else some params

end MessageAllocationNode

/-! ## Call keys -/

/-- mirrors executor/crates/sdk-rs/src/abi/mod.rs:43-44 -/
def CallKey.DEPLOY : CallKey := ⟨List.replicate 32 0, Calldata.length_zeros_32⟩
def CallKey.UNNAMED : CallKey := ⟨List.replicate 32 0, Calldata.length_zeros_32⟩

/-- `keccak256` is the hash of the `sha3` crate.
mirrors executor/crates/sdk-rs/src/abi/mod.rs:46-62 -/
def CallKey.for_method (keccak256 : Bytes → {b : Bytes // b.length = 32}) (name : Bytes) : CallKey :=
  if h : name.length < 32 then
    ⟨name ++ List.replicate (32 - name.length) 0, by
      rw [List.length_append, List.length_replicate]
      omega⟩
  else
    let digest := keccak256 name
    ⟨digest.1.modify 31 (· ||| 1), (List.length_modify ..).trans digest.2⟩

/-! ## The ABI form -/

/-- `U256::to_big_endian` -/
def to_big_endian (value : Nat) : Bytes :=
  (List.range 32).map fun i => UInt8.ofNat (value / 256 ^ (31 - i))

/-- mirrors executor/crates/common/src/domain/fees/abi.rs:15 -/
def NODE_ROOT_SENTINEL : Nat := U256_BOUND - 1

def MESSAGE_TYPE_EXTERNAL : Nat := 0
def MESSAGE_TYPE_INTERNAL : Nat := 1
def NODE_HEAD_WORDS : Nat := 7
def INTERNAL_PARAMS_HEAD_WORDS : Nat := 8

/-- mirrors executor/crates/common/src/domain/fees/abi.rs:45-51 -/
def abi_address (addr : Option Address) : Bytes :=
  List.replicate 12 0 ++ (addr.map Address.raw).getD (List.replicate 20 0)

/-- mirrors executor/crates/common/src/domain/fees/abi.rs:54-59 -/
def abi_call_key (call_key : Option CallKey) : Bytes :=
  (call_key.map CallKey.raw).getD (List.replicate 32 0)

/-- mirrors executor/crates/common/src/domain/fees/abi.rs:152-177 -/
def encode_internal_params (params : InternalMessageParams) : Bytes :=
  to_big_endian 0x20 ++
  to_big_endian params.leader_timeunits_allocation ++
  to_big_endian params.validator_timeunits_allocation ++
  to_big_endian (params.rotations.length - 1) ++
  to_big_endian params.execution_budget_per_round ++
  to_big_endian (INTERNAL_PARAMS_HEAD_WORDS * 32) ++
  to_big_endian params.max_price_gen_per_time_unit ++
  to_big_endian params.storage_fee_max_gas_price ++
  to_big_endian params.receipt_fee_max_gas_price ++
  to_big_endian params.rotations.length ++
  params.rotations.flatMap to_big_endian

/-- mirrors executor/crates/common/src/domain/fees/abi.rs:181-187 -/
def encode_external_params (params : ExternalMessageParams) : Bytes :=
  to_big_endian params.gas_limit ++ to_big_endian params.max_gas_price

/-- mirrors executor/crates/common/src/domain/fees/abi.rs:108-140 -/
def encode_node (node : MessageAllocationNode) (parent_index : Nat) : Bytes :=
  let (message_type, on_acceptance, fee_params) := match node.fee_params with
    | .Internal params =>
      (MESSAGE_TYPE_INTERNAL, decide (node.on = On.Accepted), encode_internal_params params)
    | .External params => (MESSAGE_TYPE_EXTERNAL, false, encode_external_params params)
  let pad := (fee_params.length + 31) / 32 * 32 - fee_params.length
  to_big_endian message_type ++
  to_big_endian on_acceptance.toNat ++
  to_big_endian parent_index ++
  abi_address node.recipient ++
  abi_call_key node.call_key ++
  to_big_endian node.budget ++
  to_big_endian (NODE_HEAD_WORDS * 32) ++
  to_big_endian fee_params.length ++
  fee_params ++
  List.replicate pad 0

mutual
/-- mirrors executor/crates/common/src/domain/fees/abi.rs:67-77 -/
def flattenNode (parent : Nat) (out : List (MessageAllocationNode × Nat)) :
    MessageAllocationNode → List (MessageAllocationNode × Nat)
  | .mk r k b o p children =>
    flatten out.length (out ++ [(.mk r k b o p children, parent)]) children
def flatten (parent : Nat) (out : List (MessageAllocationNode × Nat)) :
    List MessageAllocationNode → List (MessageAllocationNode × Nat)
  | [] => out
  | node :: nodes => flatten parent (flattenNode parent out node) nodes
end

/-- The head offsets of the elements.
mirrors executor/crates/common/src/domain/fees/abi.rs:93-98 -/
def elementOffsets : Nat → List Bytes → Bytes
  | _, [] => []
  | offset, element :: elements =>
    to_big_endian offset ++ elementOffsets (offset + element.length) elements

/-- mirrors executor/crates/common/src/domain/fees/abi.rs:63-104 -/
def abi_encode (roots : List MessageAllocationNode) : Bytes :=
  let flat := flatten NODE_ROOT_SENTINEL [] roots
  let elements := flat.map fun p => encode_node p.1 p.2
  to_big_endian 0x20 ++ to_big_endian elements.length ++
  elementOffsets (elements.length * 32) elements ++ elements.flatten

/-! ## What a message costs -/

/-- mirrors executor/src/rt/fees.rs:41-75 -/
def fee_params_value_internal (p : InternalMessageParams) : Value :=
  .object [("executionBudgetPerRound", num p.execution_budget_per_round),
    ("leaderTimeunitsAllocation", num p.leader_timeunits_allocation),
    ("maxPriceGenPerTimeUnit", num p.max_price_gen_per_time_unit),
    ("receiptFeeMaxGasPrice", num p.receipt_fee_max_gas_price),
    ("rotations", .array (p.rotations.map num)),
    ("storageFeeMaxGasPrice", num p.storage_fee_max_gas_price),
    ("validatorTimeunitsAllocation", num p.validator_timeunits_allocation)]

/-- mirrors executor/src/rt/fees.rs:77-85 -/
def fee_params_value_external (p : ExternalMessageParams) : Value :=
  .object [("gasLimit", num p.gas_limit), ("maxGasPrice", num p.max_gas_price)]

/-- mirrors executor/src/rt/fees.rs:236-243 -/
structure MessageReceiptParams where
  is_internal : Bool
  is_deploy : Bool
  calldata_length : Nat
  code_length : Nat
  subtree_length : Nat

/-- mirrors executor/src/rt/fees.rs:449-464 -/
def calculate_message_receipt (s : DataLimit) (params : MessageReceiptParams) : Option (List Nat) :=
  calculate_bucket (s.category .message_receipt)
    [("isInternal", .bool params.is_internal), ("isDeploy", .bool params.is_deploy),
      ("calldataLength", num params.calldata_length), ("codeLength", num params.code_length),
      ("subtreeLength", num params.subtree_length)]

/-- mirrors executor/src/rt/fees.rs:494-511 -/
def calculate_message_fee_internal (s : DataLimit) (on : On) (params : InternalMessageParams) :
    Option (List Nat) :=
  calculate_bucket (s.category .message_fee)
    [("isInternal", .bool true), ("onAcceptance", .bool (decide (on = On.Accepted))),
      ("matchedFeeParams", fee_params_value_internal params)]

/-- mirrors executor/src/rt/fees.rs:567-582 -/
def calculate_message_fee_external (s : DataLimit) (params : ExternalMessageParams) :
    Option (List Nat) :=
  calculate_bucket (s.category .message_fee)
    [("isInternal", .bool false), ("matchedFeeParams", fee_params_value_external params)]

/-- `CostVec::sum` -/
def CostVec.sum (costs : List Nat) : Option Nat := Fees.sum costs 0

end GenVM.Fees
