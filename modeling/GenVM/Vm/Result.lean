import GenVM.Vm.Encode

/-!
# The result of an execution (`executor/src/host/mod.rs`)

`HostResult` is what the executor hands to the host, with a hash over its
deterministic part. Both the hash and the message to the host go through
`to_value`, which encodes, decodes again and panics where the decoding fails.

* `encode_result_iff`: a result reaches the host just when no calldata it emits
  nests more than 125 containers, and everything in it is shorter than `2 ^ 32`.
* `deep_event_panics`: an event that nests one more is accepted and recorded,
  and the execution ends in a panic.

An emission is three containers deep in the result, the calldata of a request
only two: a request of the full depth of 128 is one too deep for the result.
-/
namespace GenVM.Vm
open GenVM.Lib GenVM.Calldata GenVM.Calldata.Encoder GenVM.Fees
open GenVM.Store (SlotID Storage Delta)

/-! ## Encoders -/

/-- mirrors executor/crates/sdk-rs/src/abi/gl_call.rs:462-471 -/
def On.encode : On → Bytes
  | .Finalized => pushStr "finalized"
  | .Accepted => pushStr "accepted"

/-- mirrors executor/crates/sdk-rs/src/abi/consts.rs:7-25 -/
def ResultCode.encode : ResultCode → Bytes
  | .Return => pushStr "Return"
  | .UserError => pushStr "UserError"
  | .VmError => pushStr "VmError"
  | .InternalError => pushStr "InternalError"

/-- mirrors executor/crates/common/src/domain/fees.rs:6-41 -/
def InternalMessageParams.encode (p : InternalMessageParams) : Bytes :=
  encode_entries [("execution_budget_per_round", encode_u256 p.execution_budget_per_round),
    ("leader_timeunits_allocation", encode_u256 p.leader_timeunits_allocation),
    ("max_price_gen_per_time_unit", encode_u256 p.max_price_gen_per_time_unit),
    ("receipt_fee_max_gas_price", encode_u256 p.receipt_fee_max_gas_price),
    ("rotations", encode_vec encode_u256 p.rotations),
    ("storage_fee_max_gas_price", encode_u256 p.storage_fee_max_gas_price),
    ("validator_timeunits_allocation", encode_u256 p.validator_timeunits_allocation)]

/-- mirrors executor/crates/common/src/domain/fees.rs:43-59 -/
def ExternalMessageParams.encode (p : ExternalMessageParams) : Bytes :=
  encode_entries [("gas_limit", encode_u256 p.gas_limit),
    ("max_gas_price", encode_u256 p.max_gas_price)]

/-- mirrors executor/crates/common/src/domain.rs:8-47 -/
def ExecutionEmission.encode : ExecutionEmission → Bytes
  | .EthSend address calldata value message_fee receipt_fee fee_params =>
    encode_entries [("address", pushAddress address), ("calldata", pushBytes calldata),
      ("fee_params", ExternalMessageParams.encode fee_params),
      ("message_fee", encode_u256 message_fee), ("receipt_fee", encode_u256 receipt_fee),
      ("type", pushStr "EthSend"), ("value", encode_u256 value)]
  | .PostMessage call_key address calldata value on message_fee receipt_fee fee_params subtree =>
    encode_entries [("address", pushAddress address), ("call_key", pushBytes call_key.raw),
      ("calldata", encode_maybe calldata), ("fee_params", InternalMessageParams.encode fee_params),
      ("message_fee", encode_u256 message_fee), ("on", on.encode),
      ("receipt_fee", encode_u256 receipt_fee), ("subtree", pushBytes subtree),
      ("type", pushStr "PostMessage"), ("value", encode_u256 value)]
  | .DeployContract calldata code value on salt_nonce message_fee receipt_fee fee_params subtree =>
    encode_entries [("calldata", encode_maybe calldata), ("code", pushBytes code),
      ("fee_params", InternalMessageParams.encode fee_params),
      ("message_fee", encode_u256 message_fee), ("on", on.encode),
      ("receipt_fee", encode_u256 receipt_fee), ("salt_nonce", encode_u256 salt_nonce),
      ("subtree", pushBytes subtree), ("type", pushStr "DeployContract"),
      ("value", encode_u256 value)]
  | .EmitEvent topics blob storage_fee =>
    encode_entries [("blob", encode_maybe_map blob), ("storage_fee", encode_u256 storage_fee),
      ("topics", encode_vec pushBytes topics), ("type", pushStr "EmitEvent")]

/-- mirrors executor/src/rt/vm/storage.rs:39-47 -/
def Delta.encode (d : Delta) : Bytes := encode_vec pushBytes [d.key.1, d.data]

/-- mirrors executor/src/rt/errors.rs:373-377 -/
def Frame.encode (f : Frame) : Bytes :=
  encode_entries [("func", pushU64 f.func), ("module_name", pushStr f.module_name)]

/-- mirrors executor/src/rt/fees.rs:227-234 -/
def encode_consumed (consumed : Category → Nat) : Bytes :=
  encode_entries [("event", encode_u256 (consumed .event)),
    ("message_fee", encode_u256 (consumed .message_fee)),
    ("message_receipt", encode_u256 (consumed .message_receipt)),
    ("nondet_output", encode_u256 (consumed .nondet_output)),
    ("storage", encode_u256 (consumed .storage))]

/-! ## The result -/

/-- What is reported beside the result of the main VM. -/
structure Accounts where
  nondet_disagreement : Option Nat
  nondet_results : List Bytes
  data_fees_remaining : List Nat
  data_fees_consumed : Category → Nat
  llm_consumption : Nat

/-- mirrors executor/src/host/mod.rs:135-153 -/
structure HostResult where
  execution_hash : Bytes
  result : FullResult
  accounts : Accounts

/-- mirrors executor/src/host/mod.rs:135-153 -/
def HostResult.encode (r : HostResult) : Bytes :=
  encode_entries [("backtrace", encode_option (encode_vec Frame.encode) r.result.backtrace),
    ("data", encode_maybe r.result.data),
    ("data_fees_consumed", encode_consumed r.accounts.data_fees_consumed),
    ("data_fees_remaining", encode_vec encode_u256 r.accounts.data_fees_remaining),
    ("emissions", encode_vec ExecutionEmission.encode r.result.emissions),
    ("execution_hash", pushBytes r.execution_hash),
    ("kind", r.result.kind.encode),
    ("llm_consumption", encode_u256 r.accounts.llm_consumption),
    ("nondet_disagreement", encode_option pushU64 r.accounts.nondet_disagreement),
    ("nondet_results", encode_vec pushBytes r.accounts.nondet_results),
    ("storage_changes", encode_vec Delta.encode r.result.storage_changes),
    ("wasm_store_hashes", encode_wasm_store_hashes r.result.wasm_store_hashes)]

/-- What the hash of an execution is over.
mirrors executor/src/host/mod.rs:182-225 -/
def encode_hashable (result : FullResult) (accounts : Accounts) : Bytes :=
  encode_entries [("backtrace", encode_option (encode_vec Frame.encode) result.backtrace),
    ("data", encode_maybe result.data),
    ("data_fees_consumed", encode_consumed accounts.data_fees_consumed),
    ("data_fees_remaining", encode_vec encode_u256 accounts.data_fees_remaining),
    ("kind", result.kind.encode),
    ("storage_changes", encode_vec Delta.encode result.storage_changes),
    ("subvm_hashes", pushBytes result.subvm_hashes),
    ("wasm_store_hashes", encode_wasm_store_hashes result.wasm_store_hashes)]

/-- The decoding is expected to succeed: it panics where it does not.
mirrors executor/crates/calldata/src/lib.rs:29-38 -/
def to_value (encoded : Bytes) : Option Tree :=
  match decode encoded with
  | .ok value => some value
  | .error _ => none

/-- mirrors executor/src/host/mod.rs:173-262 -/
def HostResult.new (sha3_256 : Bytes → {b : Bytes // b.length = 32}) (result : FullResult)
    (accounts : Accounts) : Option HostResult := do
  let as_value ← to_value (encode_hashable result accounts)
  some ⟨(sha3_256 (Calldata.encode as_value)).1, result, accounts⟩

/-- mirrors executor/src/host/mod.rs:109-125 -/
def encode_result (d : HostResult) : Option Bytes := do
  let as_value ← to_value d.encode
  some (d.result.kind.value :: Calldata.encode as_value)

/-- From the end of the main VM to the message for the host.
mirrors executor/src/lib.rs:328-346 -/
def report (env : Env) (result : FullResult) (accounts : Accounts) : Option Bytes := do
  encode_result (← HostResult.new env.sha3_256 result accounts)

/-! ## What the types of the source say -/

def InternalMessageParams.Amounts (p : InternalMessageParams) : Prop :=
  p.leader_timeunits_allocation < U256_BOUND ∧ p.validator_timeunits_allocation < U256_BOUND ∧
  p.execution_budget_per_round < U256_BOUND ∧ (∀ n ∈ p.rotations, n < U256_BOUND) ∧
  p.max_price_gen_per_time_unit < U256_BOUND ∧ p.storage_fee_max_gas_price < U256_BOUND ∧
  p.receipt_fee_max_gas_price < U256_BOUND

/-- The amounts of an emission are `U256`s. -/
def ExecutionEmission.Amounts : ExecutionEmission → Prop
  | .EthSend _ _ value message_fee receipt_fee p =>
    value < U256_BOUND ∧ message_fee < U256_BOUND ∧ receipt_fee < U256_BOUND ∧
      p.gas_limit < U256_BOUND ∧ p.max_gas_price < U256_BOUND
  | .PostMessage _ _ _ value _ message_fee receipt_fee p _ =>
    value < U256_BOUND ∧ message_fee < U256_BOUND ∧ receipt_fee < U256_BOUND ∧
      InternalMessageParams.Amounts p
  | .DeployContract _ _ value _ salt_nonce message_fee receipt_fee p _ =>
    value < U256_BOUND ∧ salt_nonce < U256_BOUND ∧ message_fee < U256_BOUND ∧
      receipt_fee < U256_BOUND ∧ InternalMessageParams.Amounts p
  | .EmitEvent _ _ storage_fee => storage_fee < U256_BOUND

/-- The hashes of the memories are a `BTreeMap`, amounts are `U256`s, the index of
a function and the number of a call are `u32`s. -/
structure Typed (result : FullResult) (accounts : Accounts) : Prop where
  wasm_store_hashes : SortedMap.Sorted keyLt result.wasm_store_hashes
  emissions : ∀ e ∈ result.emissions, e.Amounts
  frames : ∀ frames ∈ result.backtrace, ∀ f ∈ frames, f.func < 2 ^ 32
  nondet_disagreement : ∀ n ∈ accounts.nondet_disagreement, n < 2 ^ 32
  data_fees_remaining : ∀ n ∈ accounts.data_fees_remaining, n < U256_BOUND
  data_fees_consumed : ∀ cat, accounts.data_fees_consumed cat < U256_BOUND
  llm_consumption : accounts.llm_consumption < U256_BOUND

/-! ## Sizes -/

def ExecutionEmission.SizesFit : ExecutionEmission → Prop
  | .EthSend _ calldata _ _ _ _ => SizeFits calldata.length
  | .PostMessage _ _ _ _ _ _ _ p subtree =>
    SizeFits p.rotations.length ∧ SizeFits subtree.length
  | .DeployContract _ code _ _ _ _ _ p subtree =>
    SizeFits code.length ∧ SizeFits p.rotations.length ∧ SizeFits subtree.length
  | .EmitEvent topics _ _ => SizeFits topics.length ∧ ∀ t ∈ topics, SizeFits t.length

/-- Lists, strings and byte strings of the deterministic part are shorter than
`2 ^ 32`. What a contract returns or raises always is, so only the text of
another error counts. -/
structure HashableFits (result : FullResult) (accounts : Accounts) : Prop where
  data : ∀ s, result.data = .materialized (.str s) → SizeFits (Utf8.bytes s).length
  backtrace : ∀ frames ∈ result.backtrace, SizeFits frames.length ∧
    ∀ f ∈ frames, SizeFits (Utf8.bytes f.module_name).length
  wasm_store_hashes : SizeFits result.wasm_store_hashes.length ∧
    ∀ h ∈ result.wasm_store_hashes, SizeFits (Utf8.bytes h.1).length ∧ SizeFits h.2.length ∧
      ∀ m ∈ h.2, SizeFits m.length
  storage_changes : SizeFits result.storage_changes.length ∧
    ∀ d ∈ result.storage_changes, SizeFits d.data.length
  subvm_hashes : SizeFits result.subvm_hashes.length
  data_fees_remaining : SizeFits accounts.data_fees_remaining.length

/-- And those of the rest. -/
structure SizesFit (result : FullResult) (accounts : Accounts) : Prop
    extends HashableFits result accounts where
  emissions : SizeFits result.emissions.length ∧ ∀ e ∈ result.emissions, e.SizesFit
  nondet_results : SizeFits accounts.nondet_results.length ∧
    ∀ r ∈ accounts.nondet_results, SizeFits r.length

def maybe_depth : Maybe Tree → Nat
  | .materialized t => t.depth
  | .checked _ => 0

/-- How deep the calldata of an emission nests. -/
def ExecutionEmission.depth : ExecutionEmission → Nat
  | .EthSend _ _ _ _ _ _ => 0
  | .PostMessage _ _ calldata _ _ _ _ _ _ => maybe_depth calldata
  | .DeployContract calldata _ _ _ _ _ _ _ _ => maybe_depth calldata
  | .EmitEvent _ (.materialized kvs) _ => Tree.depth (.map kvs)
  | .EmitEvent _ (.checked _) _ => 0

/-! ## What is readable -/

theorem isWire_maybe {b : Nat} {m : Maybe Tree} (h : Carries b m) : IsWire (encode_maybe m) := by
  obtain ⟨t, rfl, -⟩ := h
  exact ⟨t, encode_eq_wire t⟩

/-- Accepted calldata is readable just when it is not too deep. -/
theorem readable_maybe {b b' : Nat} {m : Maybe Tree} (h : Carries b m) :
    Readable b' (encode_maybe m) ↔ maybe_depth m ≤ b' := by
  obtain ⟨t, rfl, hok⟩ := h
  show Readable b' (Calldata.encode t) ↔ t.depth ≤ b'
  rw [encode_eq_wire, readable_wire]
  exact ⟨fun h => h.depth, fun h => ⟨h, hok.sorted, hok.fits⟩⟩

theorem encode_map_wire (kvs : List (String × Calldata.Tree)) : encode_map kvs = wire (.map kvs) := by
  have he : encode_map kvs = encode_entries (kvs.map fun kv => (kv.1, wire kv.2)) := by
    rw [encode_map, encode_entries, List.length_map, List.flatMap_map]
    simp only [encode_eq_wire]
  rw [he, map_wire]

theorem readable_option {α : Type} {elem : α → Bytes} {b : Nat} {o : Option α} :
    Readable b (encode_option elem o) ↔ ∀ x ∈ o, Readable b (elem x) := by
  cases o with
  | none => exact iff_of_true readable_null (fun _ h => nomatch h)
  | some x =>
    show Readable b (elem x) ↔ _
    simp

theorem isWire_option {α : Type} {elem : α → Bytes} {o : Option α} (h : ∀ x ∈ o, IsWire (elem x)) :
    IsWire (encode_option elem o) := by
  cases o with
  | none => exact ⟨.null, rfl⟩
  | some x => exact h x rfl

theorem isWire_bytes (x : Bytes) : IsWire (pushBytes x) := ⟨_, pushBytes_wire x⟩
theorem isWire_str (s : String) : IsWire (pushStr s) := ⟨_, pushStr_wire s⟩
theorem isWire_u256 (n : Nat) : IsWire (encode_u256 n) := ⟨_, encode_u256_wire n⟩
theorem isWire_u64 (n : Nat) : IsWire (pushU64 n) := ⟨_, pushU64_wire n⟩

theorem readable_on (b : Nat) (on : On) : Readable b on.encode := by
  cases on <;> exact readable_str.mpr (by unfold SizeFits; decide)

theorem readable_kind (b : Nat) (kind : ResultCode) : Readable b kind.encode := by
  cases kind <;> exact readable_str.mpr (by unfold SizeFits; decide)

theorem readable_rotations {b : Nat} {xs : List Nat} (hb : 0 < b) (h : ∀ n ∈ xs, n < U256_BOUND) :
    Readable b (encode_vec encode_u256 xs) ↔ SizeFits xs.length := by
  rw [readable_vec fun n _ => isWire_u256 n]
  exact ⟨fun hr => hr.2.1, fun hl => ⟨hb, hl, fun n hn => readable_u256 (h n hn)⟩⟩

theorem readable_byte_vec {b : Nat} {xs : List Bytes} (hb : 0 < b) :
    Readable b (encode_vec pushBytes xs) ↔ SizeFits xs.length ∧ ∀ x ∈ xs, SizeFits x.length := by
  rw [readable_vec fun x _ => isWire_bytes x]
  simp only [hb, true_and, readable_bytes]

theorem isWire_internal (p : InternalMessageParams) : IsWire (InternalMessageParams.encode p) := by
  refine isWire_map ?_
  simp only [List.forall_mem_cons, List.not_mem_nil, isWire_u256, true_and]
  simp [isWire_vec, isWire_u256]

theorem readable_internal {b : Nat} {p : InternalMessageParams} (hb : 1 < b)
    (hp : InternalMessageParams.Amounts p) :
    Readable b (InternalMessageParams.encode p) ↔ SizeFits p.rotations.length := by
  obtain ⟨h1, h2, h3, h4, h5, h6, h7⟩ := hp
  refine (readable_struct ["execution_budget_per_round", "leader_timeunits_allocation",
    "max_price_gen_per_time_unit", "receipt_fee_max_gas_price", "rotations",
    "storage_fee_max_gas_price", "validator_timeunits_allocation"] (by decide) rfl ?_).trans ?_
  · simp only [List.forall_mem_cons, List.not_mem_nil, isWire_u256, true_and]
    simp [isWire_vec, isWire_u256]
  · simp only [List.forall_mem_cons, readable_u256, readable_rotations (b := b - 1) (by omega) h4,
      h1, h2, h3, h5, h6, h7, true_and]
    simp
    omega

theorem readable_external {b : Nat} {p : ExternalMessageParams} (hb : 0 < b)
    (hg : p.gas_limit < U256_BOUND) (hm : p.max_gas_price < U256_BOUND) :
    Readable b (ExternalMessageParams.encode p) := by
  refine (readable_struct ["gas_limit", "max_gas_price"] (by decide) rfl ?_).mpr ⟨hb, ?_⟩
  · simp [isWire_u256]
  · simp [readable_u256, hg, hm]

/-- A recorded emission is the bytes of one value. -/
theorem isWire_emission {e : ExecutionEmission} (ha : e.Accepted) : IsWire e.encode := by
  cases e with
  | EthSend address calldata value message_fee receipt_fee p =>
    have hp : IsWire (ExternalMessageParams.encode p) := isWire_map (by simp [isWire_u256])
    refine isWire_map ?_
    simp [isWire_u256, isWire_bytes, isWire_str, hp, (readable_address (b := 0) address).isWire]
  | PostMessage call_key address calldata value on message_fee receipt_fee p subtree =>
    refine isWire_map ?_
    simp [isWire_u256, isWire_bytes, isWire_str, isWire_internal, isWire_maybe ha,
      (readable_address (b := 0) address).isWire, (readable_on 0 on).isWire]
  | DeployContract calldata code value on salt_nonce message_fee receipt_fee p subtree =>
    refine isWire_map ?_
    simp [isWire_u256, isWire_bytes, isWire_str, isWire_internal, isWire_maybe ha,
      (readable_on 0 on).isWire]
  | EmitEvent topics blob storage_fee =>
    obtain ⟨kvs, rfl, -⟩ := ha
    refine isWire_map ?_
    have hblob : IsWire (encode_maybe_map (.materialized kvs)) := ⟨_, encode_map_wire kvs⟩
    simp [isWire_u256, isWire_str, hblob, isWire_vec, isWire_bytes]

/-- An emission is one container around its calldata. -/
theorem readable_emission {b : Nat} {e : ExecutionEmission} (hb : 2 < b) (ha : e.Accepted)
    (hm : e.Amounts) : Readable b e.encode ↔ e.depth ≤ b - 1 ∧ e.SizesFit := by
  have hstr : ∀ {s : String}, (Utf8.bytes s).length < 2 ^ 32 → Readable (b - 1) (pushStr s) :=
    fun h => readable_str.mpr h
  cases e with
  | EthSend address calldata value message_fee receipt_fee p =>
    obtain ⟨h1, h2, h3, h4, h5⟩ := hm
    have hp := readable_external (b := b - 1) (by omega) h4 h5
    refine (readable_struct ["address", "calldata", "fee_params", "message_fee", "receipt_fee",
      "type", "value"] (by decide) rfl ?_).trans ?_
    · simp [isWire_u256, isWire_bytes, isWire_str, hp.isWire,
        (readable_address (b := 0) address).isWire]
    · have ht := hstr (s := "EthSend") (by decide)
      simp only [List.forall_mem_cons, readable_u256, readable_bytes, readable_address, ht, hp, h1,
        h2, h3, true_and]
      simp [ExecutionEmission.depth, ExecutionEmission.SizesFit]
      omega
  | PostMessage call_key address calldata value on message_fee receipt_fee p subtree =>
    obtain ⟨h1, h2, h3, h4⟩ := hm
    have ht := hstr (s := "PostMessage") (by decide)
    have hkey : SizeFits call_key.raw.length := by
      rw [call_key.size]
      unfold SizeFits
      decide
    refine (readable_struct ["address", "call_key", "calldata", "fee_params", "message_fee", "on",
      "receipt_fee", "subtree", "type", "value"] (by decide) rfl ?_).trans ?_
    · simp [isWire_u256, isWire_bytes, isWire_str, isWire_internal, isWire_maybe ha,
        (readable_address (b := 0) address).isWire, (readable_on 0 on).isWire]
    · simp only [List.forall_mem_cons, readable_u256, readable_bytes, readable_address,
        readable_on, readable_internal (b := b - 1) (by omega) h4, readable_maybe ha, hkey, ht, h1,
        h2, h3, true_and]
      simp only [ExecutionEmission.depth, ExecutionEmission.SizesFit]
      simp
      omega
  | DeployContract calldata code value on salt_nonce message_fee receipt_fee p subtree =>
    obtain ⟨h1, h2, h3, h4, h5⟩ := hm
    have ht := hstr (s := "DeployContract") (by decide)
    refine (readable_struct ["calldata", "code", "fee_params", "message_fee", "on", "receipt_fee",
      "salt_nonce", "subtree", "type", "value"] (by decide) rfl ?_).trans ?_
    · simp [isWire_u256, isWire_bytes, isWire_str, isWire_internal, isWire_maybe ha,
        (readable_on 0 on).isWire]
    · simp only [List.forall_mem_cons, readable_u256, readable_bytes, readable_on,
        readable_internal (b := b - 1) (by omega) h5, readable_maybe ha, ht, h1, h2, h3, h4,
        true_and]
      simp only [ExecutionEmission.depth, ExecutionEmission.SizesFit]
      simp
      omega
  | EmitEvent topics blob storage_fee =>
    obtain ⟨kvs, rfl, hok⟩ := ha
    have ht := hstr (s := "EmitEvent") (by decide)
    have hm : storage_fee < U256_BOUND := hm
    have hblob : Readable (b - 1) (encode_maybe_map (.materialized kvs)) ↔
        Tree.depth (.map kvs) ≤ b - 1 := by
      rw [show encode_maybe_map (.materialized kvs) = _ from encode_map_wire kvs, readable_wire]
      exact ⟨fun h => h.depth, fun h => ⟨h, hok.sorted, hok.fits⟩⟩
    refine (readable_struct ["blob", "storage_fee", "topics", "type"] (by decide) rfl ?_).trans ?_
    · have hw : IsWire (encode_maybe_map (.materialized kvs)) := ⟨_, encode_map_wire kvs⟩
      simp [isWire_u256, isWire_str, hw, isWire_vec, isWire_bytes]
    · simp only [List.forall_mem_cons, readable_u256, hm, hblob, ht,
        readable_byte_vec (b := b - 1) (by omega), true_and]
      simp only [ExecutionEmission.depth, ExecutionEmission.SizesFit]
      simp
      omega

theorem readable_delta {b : Nat} (hb : 0 < b) (d : Delta) :
    Readable b (Delta.encode d) ↔ SizeFits d.data.length := by
  have hk : SizeFits d.key.1.length := by
    rw [d.key.2]
    unfold SizeFits
    decide
  have h2 : SizeFits 2 := by
    unfold SizeFits
    decide
  rw [Delta.encode, readable_byte_vec hb]
  simp [hk, h2]

theorem isWire_delta (d : Delta) : IsWire (Delta.encode d) := isWire_vec fun x _ => isWire_bytes x

theorem isWire_frame (f : Frame) : IsWire f.encode :=
  isWire_map (by simp [isWire_u64, isWire_str])

theorem readable_frame {b : Nat} (hb : 0 < b) {f : Frame} (hf : f.func < 2 ^ 32) :
    Readable b f.encode ↔ SizeFits (Utf8.bytes f.module_name).length := by
  refine (readable_struct ["func", "module_name"] (by decide) rfl ?_).trans ?_
  · simp [isWire_u64, isWire_str]
  · have h64 : f.func < 2 ^ 64 := lt_trans hf (by decide)
    simp [readable_u64 h64, readable_str, hb]

theorem isWire_consumed (consumed : Category → Nat) : IsWire (encode_consumed consumed) :=
  isWire_map (by simp [isWire_u256])

theorem readable_consumed {b : Nat} (hb : 0 < b) {consumed : Category → Nat}
    (h : ∀ cat, consumed cat < U256_BOUND) : Readable b (encode_consumed consumed) := by
  refine (readable_struct ["event", "message_fee", "message_receipt", "nondet_output", "storage"]
    (by decide) rfl ?_).mpr ⟨hb, ?_⟩
  · simp [isWire_u256]
  · simp [readable_u256, h]

theorem module_fingerprint_eq (memories : List Bytes) : encode_module_fingerprint memories =
    encode_entries [("memories", encode_vec pushBytes memories)] := by
  simp [encode_module_fingerprint, encode_entries, encode_vec]

theorem wasm_store_hashes_eq (hashes : List (String × List Bytes)) :
    encode_wasm_store_hashes hashes =
      encode_entries (hashes.map fun h => (h.1, encode_module_fingerprint h.2)) := by
  rw [encode_wasm_store_hashes, encode_entries, List.length_map, List.flatMap_map]

theorem isWire_module_fingerprint (memories : List Bytes) :
    IsWire (encode_module_fingerprint memories) := by
  rw [module_fingerprint_eq]
  exact isWire_map (by simp [isWire_vec, isWire_bytes])

theorem readable_module_fingerprint {b : Nat} (hb : 1 < b) (memories : List Bytes) :
    Readable b (encode_module_fingerprint memories) ↔
      SizeFits memories.length ∧ ∀ m ∈ memories, SizeFits m.length := by
  rw [module_fingerprint_eq]
  refine (readable_struct ["memories"] (by decide) rfl ?_).trans ?_
  · simp [isWire_vec, isWire_bytes]
  · simp [readable_byte_vec (b := b - 1) (by omega)]
    omega

theorem isWire_wasm_store_hashes (hashes : List (String × List Bytes)) :
    IsWire (encode_wasm_store_hashes hashes) := by
  rw [wasm_store_hashes_eq]
  exact isWire_map (List.forall_mem_map.mpr fun h _ => isWire_module_fingerprint h.2)

theorem readable_wasm_store_hashes {b : Nat} (hb : 2 < b) {hashes : List (String × List Bytes)}
    (hs : SortedMap.Sorted keyLt hashes) :
    Readable b (encode_wasm_store_hashes hashes) ↔ SizeFits hashes.length ∧
      ∀ h ∈ hashes, SizeFits (Utf8.bytes h.1).length ∧ SizeFits h.2.length ∧
        ∀ m ∈ h.2, SizeFits m.length := by
  have hsorted : SortedMap.Sorted keyLt
      (hashes.map fun h => (h.1, encode_module_fingerprint h.2)) := List.pairwise_map.mpr hs
  rw [wasm_store_hashes_eq, readable_map (List.forall_mem_map.mpr fun h _ =>
    isWire_module_fingerprint h.2), List.length_map, List.forall_mem_map]
  simp only [readable_module_fingerprint (b := b - 1) (by omega), hsorted, true_and]
  exact ⟨fun h => h.2, fun h => ⟨by omega, h⟩⟩

/-! ## The whole result -/

/-- The data of a result: what an accepted request carried, or the text of an
error. -/
def AcceptedData (data : Maybe Calldata.Tree) : Prop :=
  Carries 127 data ∨ ∃ s, data = .materialized (.str s)

theorem RunOk.Accepted.data {run_ok : RunOk} (h : run_ok.Accepted) : AcceptedData run_ok.data := by
  cases run_ok with
  | Return data => exact .inl h
  | UserError value => exact .inl h
  | VMError code cause => exact .inr ⟨code, rfl⟩

theorem isWire_data {data : Maybe Calldata.Tree} (h : AcceptedData data) :
    IsWire (encode_maybe data) := by
  rcases h with h | ⟨s, rfl⟩
  · exact isWire_maybe h
  · exact ⟨_, encode_eq_wire _⟩

theorem readable_data {data : Maybe Calldata.Tree} (h : AcceptedData data) :
    Readable 127 (encode_maybe data) ↔
      ∀ s, data = .materialized (.str s) → SizeFits (Utf8.bytes s).length := by
  rcases h with h | ⟨s, rfl⟩
  · have hd : Readable 127 (encode_maybe data) := by
      obtain ⟨t, rfl, hok⟩ := h
      exact ⟨t, encode_eq_wire t, hok⟩
    refine iff_of_true hd fun s hs => ?_
    subst hs
    obtain ⟨t, ht, hok⟩ := h
    cases ht
    exact hok.fits
  · rw [show encode_maybe (.materialized (.str s)) = _ from encode_eq_wire _,
      readable_scalar (t := .str s) rfl trivial]
    constructor
    · intro hf s' hs'
      cases hs'
      exact hf
    · exact fun hf => hf s rfl

theorem readable_backtrace {b : Nat} (hb : 1 < b) {backtrace : Option (List Frame)}
    (hf : ∀ frames ∈ backtrace, ∀ f ∈ frames, f.func < 2 ^ 32) :
    Readable b (encode_option (encode_vec Frame.encode) backtrace) ↔
      ∀ frames ∈ backtrace, SizeFits frames.length ∧
        ∀ f ∈ frames, SizeFits (Utf8.bytes f.module_name).length := by
  rw [readable_option]
  refine forall_congr' fun frames => forall_congr' fun hframes => ?_
  rw [readable_vec fun f _ => isWire_frame f]
  have hall : (∀ f ∈ frames, Readable (b - 1) f.encode) ↔
      ∀ f ∈ frames, SizeFits (Utf8.bytes f.module_name).length :=
    forall_congr' fun f => forall_congr' fun hmem =>
      readable_frame (by omega) (hf frames hframes f hmem)
  rw [hall]
  exact ⟨fun h => h.2, fun h => ⟨by omega, h⟩⟩

theorem isWire_backtrace (backtrace : Option (List Frame)) :
    IsWire (encode_option (encode_vec Frame.encode) backtrace) :=
  isWire_option fun _ _ => isWire_vec fun f _ => isWire_frame f

section
variable {result : FullResult} {accounts : Accounts} (ht : Typed result accounts)
  (hd : AcceptedData result.data)
include ht hd

theorem readable_hashable :
    Readable 128 (encode_hashable result accounts) ↔ HashableFits result accounts := by
  refine (readable_struct ["backtrace", "data", "data_fees_consumed", "data_fees_remaining", "kind",
    "storage_changes", "subvm_hashes", "wasm_store_hashes"] (by decide) rfl ?_).trans ?_
  · simp [isWire_backtrace, isWire_data hd, isWire_consumed, isWire_vec, isWire_u256, isWire_delta,
      isWire_bytes, isWire_wasm_store_hashes, (readable_kind 0 result.kind).isWire]
  · simp only [List.forall_mem_cons, readable_backtrace (b := 128 - 1) (by omega) ht.frames,
      readable_data hd, readable_consumed (b := 128 - 1) (by omega) ht.data_fees_consumed,
      readable_rotations (b := 128 - 1) (by omega) ht.data_fees_remaining, readable_kind,
      readable_vec fun d _ => isWire_delta d, readable_delta (b := 128 - 1 - 1) (by omega),
      readable_bytes, readable_wasm_store_hashes (b := 128 - 1) (by omega) ht.wasm_store_hashes]
    constructor
    · intro h
      obtain ⟨-, h1, h2, -, h3, -, h4, h5, h6, -⟩ := h
      exact ⟨h2, h1, h6, h4.2, h5, h3⟩
    · intro h
      exact ⟨by omega, h.backtrace, h.data, trivial, h.data_fees_remaining, trivial,
        ⟨by omega, h.storage_changes⟩, h.subvm_hashes, h.wasm_store_hashes, fun _ h => nomatch h⟩

theorem readable_host_result (ha : ∀ e ∈ result.emissions, e.Accepted) {hash : Bytes}
    (hh : hash.length = 32) (hf : HashableFits result accounts) :
    Readable 128 (HostResult.encode ⟨hash, result, accounts⟩) ↔
      (∀ e ∈ result.emissions, e.depth ≤ 125) ∧ SizesFit result accounts := by
  have hhash : SizeFits hash.length := by
    rw [hh]
    unfold SizeFits
    decide
  have hno : Readable (128 - 1) (encode_option pushU64 accounts.nondet_disagreement) :=
    readable_option.mpr fun n hn =>
      readable_u64 (lt_trans (ht.nondet_disagreement n hn) (by decide))
  have hem : (∀ e ∈ result.emissions, Readable (128 - 1 - 1) e.encode) ↔
      (∀ e ∈ result.emissions, e.depth ≤ 125) ∧ ∀ e ∈ result.emissions, e.SizesFit := by
    rw [← forall₂_and]
    refine forall_congr' fun e => forall_congr' fun he => ?_
    exact readable_emission (by omega) (ha e he) (ht.emissions e he)
  refine (readable_struct ["backtrace", "data", "data_fees_consumed", "data_fees_remaining",
    "emissions", "execution_hash", "kind", "llm_consumption", "nondet_disagreement",
    "nondet_results", "storage_changes", "wasm_store_hashes"] (by decide) rfl ?_).trans ?_
  · have hw : IsWire (encode_vec ExecutionEmission.encode result.emissions) :=
      isWire_vec fun e he => isWire_emission (ha e he)
    simp [isWire_backtrace, isWire_data hd, isWire_consumed, isWire_vec, isWire_u256, isWire_delta,
      isWire_bytes, isWire_wasm_store_hashes, (readable_kind 0 result.kind).isWire, hw, hno.isWire]
  · simp only [List.forall_mem_cons, readable_backtrace (b := 128 - 1) (by omega) ht.frames,
      readable_data hd, readable_consumed (b := 128 - 1) (by omega) ht.data_fees_consumed,
      readable_rotations (b := 128 - 1) (by omega) ht.data_fees_remaining, readable_kind,
      readable_vec fun e he => isWire_emission (ha e he), hem, hno,
      readable_u256 ht.llm_consumption, readable_byte_vec (b := 128 - 1) (by omega),
      readable_vec fun d _ => isWire_delta d, readable_delta (b := 128 - 1 - 1) (by omega),
      readable_bytes, readable_wasm_store_hashes (b := 128 - 1) (by omega) ht.wasm_store_hashes]
    constructor
    · intro h
      obtain ⟨-, -, -, -, -, h1, -, -, -, -, h2, -⟩ := h
      exact ⟨h1.2.2.1, hf, ⟨h1.2.1, h1.2.2.2⟩, h2⟩
    · intro h
      obtain ⟨hdepth, hs⟩ := h
      exact ⟨by omega, hf.backtrace, hf.data, trivial, hf.data_fees_remaining,
        ⟨by omega, hs.emissions.1, hdepth, hs.emissions.2⟩, hhash, trivial, trivial, trivial,
        hs.nondet_results, ⟨by omega, hf.storage_changes⟩, hf.wasm_store_hashes,
        fun _ h => nomatch h⟩

end

/-! ## Reporting -/

theorem to_value_iff {bytes : Bytes} : (∃ v, to_value bytes = some v) ↔ Readable 128 bytes := by
  unfold to_value
  constructor
  · intro h
    obtain ⟨v, hv⟩ := h
    split at hv
    · next t ht => exact ⟨t, decode_iff.mp ht⟩
    · cases hv
  · intro h
    obtain ⟨t, ht⟩ := h
    rw [decode_iff.mpr ht]
    exact ⟨t, rfl⟩

/-- A result of accepted parts reaches the host just when it is not too deep and
not too long. -/
theorem report_iff {env : Env} {result : FullResult} {accounts : Accounts}
    (ht : Typed result accounts) (hd : AcceptedData result.data)
    (ha : ∀ e ∈ result.emissions, e.Accepted) :
    (∃ message, report env result accounts = some message) ↔
      (∀ e ∈ result.emissions, e.depth ≤ 125) ∧ SizesFit result accounts := by
  constructor
  · intro h
    obtain ⟨message, h⟩ := h
    obtain ⟨r, hr, hmsg⟩ := Option.bind_eq_some_iff.mp h
    obtain ⟨v, hv, hnew⟩ := Option.bind_eq_some_iff.mp hr
    obtain ⟨w, hw, -⟩ := Option.bind_eq_some_iff.mp hmsg
    obtain rfl := Option.some.inj hnew
    have hf := (readable_hashable ht hd).mp (to_value_iff.mp ⟨v, hv⟩)
    exact (readable_host_result ht hd ha (env.sha3_256 _).2 hf).mp (to_value_iff.mp ⟨w, hw⟩)
  · intro h
    have hf := h.2.toHashableFits
    obtain ⟨v, hv⟩ := to_value_iff.mpr ((readable_hashable ht hd).mpr hf)
    have hhost := (readable_host_result ht hd ha (env.sha3_256 (Calldata.encode v)).2 hf).mpr h
    obtain ⟨w, hw⟩ := to_value_iff.mpr hhost
    refine ⟨_, Option.bind_eq_some_iff.mpr ⟨_, Option.bind_eq_some_iff.mpr ⟨v, hv, rfl⟩,
      Option.bind_eq_some_iff.mpr ⟨w, hw, rfl⟩⟩⟩

/-! ## Every emission was accepted -/

theorem Trace.accepted {env : Env} {m m' : Machine} (h : Trace env m m')
    (ha : ∀ e ∈ m.acc.emissions, e.Accepted) : ∀ e ∈ m'.acc.emissions, e.Accepted := by
  have hpush : ∀ {es : List ExecutionEmission} {e : ExecutionEmission}, e.Accepted →
      (∀ x ∈ es, x.Accepted) → ∀ x ∈ es ++ [e], x.Accepted := by
    intro es e he hes x hx
    rcases List.mem_append.mp hx with hx | hx
    · exact hes x hx
    · rw [List.mem_singleton.mp hx]
      exact he
  induction h with
  | refl m => exact ha
  | trans _ _ ih1 ih2 => exact ih2 (ih1 ha)
  | quiet h =>
    rw [h.emissions]
    exact ha
  | message e h =>
    obtain ⟨i, node, data_fees, -, -, -, -, rfl⟩ := h.paid
    exact hpush h.payload ha
  | event e h =>
    obtain ⟨data_fees, -, rfl⟩ := h.paid
    exact hpush h.payload ha
  | write h =>
    obtain ⟨storage, limits, -, rfl⟩ := h.paid
    exact ha
  | nondet_output => exact ha
  | sandbox _ _ _ _ _ _ ih => exact ih ha
  | beside => exact ha

theorem accepted_depth {e : ExecutionEmission} (h : e.Accepted) : e.depth ≤ 126 := by
  have hmaybe : ∀ {m : Maybe Calldata.Tree}, Carries 126 m → maybe_depth m ≤ 126 := by
    intro m hm
    obtain ⟨t, rfl, hok⟩ := hm
    exact hok.depth
  cases e with
  | EthSend => exact Nat.zero_le _
  | PostMessage => exact hmaybe h
  | DeployContract => exact hmaybe h
  | EmitEvent topics blob storage_fee =>
    obtain ⟨kvs, rfl, hok⟩ := h
    exact hok.depth

/-- What the main VM leaves is made of accepted parts. -/
theorem run_accepted {env : Env} {entry_data : ExecutionData} {permissions : Permissions}
    {program : SingleVMData → Guest} {d : DataLimit} (hs : Shaped d) {result : FullResult}
    {shared' : Shared} (hrun : run_with_impl env entry_data permissions program (Shared.new d) =
      .ok (result, shared')) :
    AcceptedData result.data ∧ ∀ e ∈ result.emissions, e.Accepted := by
  rcases run_with_impl_cases hs hrun with ⟨f, _, _, run_ok, -, hok, rfl, -⟩ |
    ⟨_, _, _, res, -, -, ht, hok, hres⟩
  · exact ⟨(f.2.accepted.run_ok hok).data, fun _ h => nomatch h⟩
  · have ha := ht.accepted fun _ h => nomatch h
    unfold full_result at hres
    split at hres
    · cases hres
    · cases hres
      exact ⟨hok.data, ha⟩

/-! ## Results -/

/-- **Reporting.** Recorded calldata nests at most 126 containers, and the result
of an execution reaches the host just when none nests that many and everything
in it is shorter than `2 ^ 32`. -/
theorem encode_result_iff {env : Env} {entry_data : ExecutionData} {permissions : Permissions}
    {program : SingleVMData → Guest} {d : DataLimit} {bucket_totals : List Nat}
    {fees : Category → FeesBucketConfig} (hstart : DataLimit.start bucket_totals fees = some d)
    {result : FullResult} {shared' : Shared}
    (hrun : run_with_impl env entry_data permissions program (Shared.new d) = .ok (result, shared'))
    {accounts : Accounts} (ht : Typed result accounts) :
    (∀ e ∈ result.emissions, e.depth ≤ 126) ∧
    ((∃ message, report env result accounts = some message) ↔
      (∀ e ∈ result.emissions, e.depth ≠ 126) ∧ SizesFit result accounts) := by
  obtain ⟨hd, ha⟩ := run_accepted (start_consumed hstart).1 hrun
  refine ⟨fun e he => accepted_depth (ha e he), (report_iff ht hd ha).trans ?_⟩
  constructor
  · intro h
    exact ⟨fun e he => Nat.ne_of_lt (Nat.lt_succ_of_le (h.1 e he)), h.2⟩
  · intro h
    refine ⟨fun e he => ?_, h.2⟩
    have hle := accepted_depth (ha e he)
    have hne := h.1 e he
    omega

/-- Nothing besides the result, and one unit consumed. -/
def small_accounts (cat : Category) : Accounts :=
  ⟨none, [], [9], fun c => if c = cat then 1 else 0, 0⟩

theorem small_accounts_typed (cat : Category) (result : FullResult)
    (hh : result.wasm_store_hashes = []) (hb : result.backtrace = none)
    (he : ∀ e ∈ result.emissions, e.Amounts) : Typed result (small_accounts cat) := by
  refine ⟨hh ▸ List.Pairwise.nil, he, fun _ h => ?_, fun _ h => (nomatch h), ?_, fun c => ?_, ?_⟩
  · rw [hb] at h
    cases h
  · intro n hn
    rw [List.mem_singleton.mp hn]
    decide
  · show (if c = cat then 1 else 0) < U256_BOUND
    split <;> decide
  · exact (by decide : 0 < U256_BOUND)

/-- `n` arrays around a null. -/
def nested : Nat → Calldata.Tree
  | 0 => .null
  | n + 1 => .array [nested n]

theorem nested_ok (n : Nat) : (nested n).Ok n := by
  induction n with
  | zero => exact ⟨le_refl 0, trivial, trivial⟩
  | succ n ih =>
    refine Tree.ok_array.mpr ⟨Nat.succ_pos n, ?_, fun x hx => ?_⟩
    · unfold SizeFits
      exact (by decide : 1 < 2 ^ 32)
    · rw [List.mem_singleton.mp hx]
      exact ih

theorem nested_depth (n : Nat) : (nested n).depth = n := by
  induction n with
  | zero => rfl
  | succ n ih =>
    show max (nested n).depth 0 + 1 = n + 1
    rw [ih, Nat.max_zero]

/-- A map of one entry. -/
def one_entry (key : String) (t : Calldata.Tree) : List (String × Calldata.Tree) := [(key, t)]

def nested_blob (n : Nat) : List (String × Calldata.Tree) := one_entry "a" (nested n)

/-- A request that nests `n + 3` containers. -/
def event_request (n : Nat) : Calldata.Tree :=
  .map (one_entry "EmitEvent" (.map [("blob", .map (nested_blob n)), ("topics", .array [])]))

theorem event_request_ok {n : Nat} (hn : n ≤ 125) : (event_request n).Ok 128 := by
  have hkey : ∀ {key : String} {t : Calldata.Tree} {b : Nat}, SizeFits (Utf8.bytes key).length →
      t.Ok b → Tree.Ok (b + 1) (.map (one_entry key t)) := by
    intro key t b hk ht
    refine Tree.ok_map.mpr ⟨Nat.succ_pos b, small_size (by decide : 1 < 100),
      List.pairwise_singleton _ _, fun kv hkv => ?_⟩
    rw [List.mem_singleton.mp hkv]
    exact ⟨hk, ht⟩
  have hblob : Tree.Ok 126 (.map (nested_blob n)) :=
    hkey (small_size (by decide)) ((nested_ok n).mono hn)
  have hlt : keyLt "blob" "topics" := by decide
  refine hkey (small_size (by decide)) (Tree.ok_map.mpr
    ⟨by omega, small_size (by decide : 2 < 100), List.pairwise_pair.mpr hlt, fun kv hkv => ?_⟩)
  rcases List.mem_cons.mp hkv with rfl | hkv
  · exact ⟨small_size (by decide : (Utf8.bytes "blob").length < 100), hblob⟩
  · rw [List.mem_singleton.mp hkv]
    exact ⟨small_size (by decide), Tree.ok_array.mpr
      ⟨by omega, small_size (by decide : 0 < 100), fun _ h => nomatch h⟩⟩

/-- Emits an event and returns. -/
def emitter (n : Nat) : SingleVMData → Guest := fun _ =>
  .gl_call (wire (event_request n)) (.ok none) Snapshot.empty
    (fun _ => .halt (.ok ()) Snapshot.empty) fun _ => .halt (.ok ()) Snapshot.empty

theorem event_call {n : Nat} (hn : n ≤ 125) (env : Env) (outside : Except Refusal Reply) :
    gl_call env (wire (event_request n)) outside =
      .reply <$> emit_event [] (.materialized (nested_blob n)) :=
  have hm : Message.from_value (event_request n) =
      some (.EmitEvent [] (.materialized (nested_blob n))) := rfl
  gl_call_wire (event_request_ok hn) hm env outside

/-- What the emitter ends with. -/
def event_result (n : Nat) : FullResult :=
  ⟨.Return, .materialized .null, none, [], empty_digest.1, [],
    [.EmitEvent [] (.materialized (nested_blob n)) 1]⟩

theorem event_run {n : Nat} (hn : n ≤ 125) : ∃ shared',
    run_with_impl small_env (small_entry none) all_permissions (emitter n) (Shared.new small_limit) =
      .ok (event_result n, shared') := by
  have hrun : ∀ data m, vm_run small_env (emitter n data) m =
      proceed Snapshot.empty (fun _ m => vm_run small_env (.halt (.ok ()) Snapshot.empty) m)
        ((Next.reply <$> emit_event [] (.materialized (nested_blob n)) >>= complete small_env
          fun data shared => spawn_apply_run small_env
            (fun m => vm_run small_env (.halt (.ok ()) Snapshot.empty) m) ⟨data, shared⟩) m) := by
    intro data m
    rw [← event_call hn small_env (.ok none)]
    rfl
  unfold run_with_impl
  simp only [hrun]
  exact ⟨_, rfl⟩

theorem event_typed (n : Nat) : Typed (event_result n) (small_accounts .event) :=
  small_accounts_typed .event (event_result n) rfl rfl fun e he => by
    rw [List.mem_singleton.mp he]
    exact (by decide : 1 < U256_BOUND)

theorem event_depth (n : Nat) : Tree.depth (.map (nested_blob n)) = n + 1 := by
  have hblob : Tree.depth (.map (nested_blob n)) = max (nested n).depth 0 + 1 := rfl
  rw [hblob, nested_depth, Nat.max_zero]

/-- An event whose blob nests 125 containers is emitted and reported. -/
theorem encode_result_event : ∃ result shared',
    run_with_impl small_env (small_entry none) all_permissions (emitter 124) (Shared.new small_limit) =
      .ok (result, shared') ∧
    result.emissions = [.EmitEvent [] (.materialized (nested_blob 124)) 1] ∧
    ∃ message, report small_env result (small_accounts .event) = some message := by
  obtain ⟨shared', hrun⟩ := event_run (n := 124) (by decide)
  refine ⟨_, shared', hrun, rfl, (encode_result_iff small_start hrun (event_typed 124)).2.mpr ⟨?_, ?_⟩⟩
  · intro e he
    rw [List.mem_singleton.mp he]
    have hdepth : Tree.depth (.map (nested_blob 124)) ≠ 126 := by
      rw [event_depth]
      decide
    exact hdepth
  · refine ⟨⟨fun s hs => (nomatch hs), fun _ h => (nomatch h), ⟨small_size (by decide), fun _ h => (nomatch h)⟩,
      ⟨small_size (by decide), fun _ h => (nomatch h)⟩, small_size (by decide), small_size (by decide)⟩,
      ⟨small_size (by decide), fun e he => ?_⟩, small_size (by decide), fun _ h => (nomatch h)⟩
    rw [List.mem_singleton.mp he]
    exact ⟨small_size (by decide), fun _ h => (nomatch h)⟩

/-- With one container more the event is accepted and recorded, and its execution
never reports. -/
theorem deep_event_panics : decode (wire (event_request 125)) = .ok (event_request 125) ∧
    ∃ result shared',
      run_with_impl small_env (small_entry none) all_permissions (emitter 125) (Shared.new small_limit) =
        .ok (result, shared') ∧
      result.emissions = [.EmitEvent [] (.materialized (nested_blob 125)) 1] ∧
      report small_env result (small_accounts .event) = none := by
  obtain ⟨shared', hrun⟩ := event_run (le_refl 125)
  refine ⟨decode_iff.mpr ⟨rfl, event_request_ok (le_refl 125)⟩, _, shared', hrun, rfl, ?_⟩
  obtain ⟨hd, ha⟩ := run_accepted (start_consumed small_start).1 hrun
  refine Option.eq_none_iff_forall_ne_some.mpr fun message h => ?_
  have hdepth : Tree.depth (.map (nested_blob 125)) ≤ 125 :=
    ((report_iff (event_typed 125) hd ha).mp ⟨message, h⟩).1 _ (List.mem_singleton_self _)
  rw [event_depth] at hdepth
  omega

end GenVM.Vm
