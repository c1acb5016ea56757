import GenVM.Calldata.Codec
import GenVM.Calldata.Grammar
import GenVM.Fees.Types

/-!
# Requests of a contract (`sdk-rs/src/abi/gl_call.rs`)

`Message` is what `gl_call` dispatches on, and `Message.from_value` the derived
decoder of it over an in-memory value: an externally tagged enum, whose struct
variants take a map with exactly their fields. Decoding from a value never
defers, so `Maybe` fields are materialized there.

A request that fails to decode is answered with `Inval` whatever the reason, so
the decoder returns nothing then.
-/
namespace GenVM.Vm
open GenVM.Calldata
open GenVM.Fees (U256_BOUND)

/-- mirrors executor/crates/sdk-rs/src/abi/consts.rs:71-75 -/
inductive StorageType where
  | Default | LatestFinal | LatestNonFinal
  deriving DecidableEq

/-- mirrors executor/crates/sdk-rs/src/abi/gl_call.rs:525-532 -/
inductive On where
  | Finalized | Accepted
  deriving DecidableEq

/-- mirrors executor/crates/sdk-rs/src/abi/gl_call.rs:577-677 -/
inductive Message where
  | EthCall (address : Address) (calldata : Bytes)
  | CallContract (address : Address) (calldata : Maybe Tree) (state : StorageType)
  | EthSend (address : Address) (calldata : Bytes) (value : Nat)
  | PostMessage (address : Address) (calldata : Maybe Tree) (value : Nat) (on : On)
  | DeployContract (calldata : Maybe Tree) (code : Bytes) (value : Nat) (on : On) (salt_nonce : Nat)
  | EmitEvent (topics : List Bytes) (blob : Maybe (List (String × Tree)))
  | RunNondet (data_leader data_validator : Bytes)
  | Sandbox (data : Bytes) (runner : String)
      (allow_write_storage allow_send_messages allow_register_runners : Bool)
  | RegisterRunner (code : Bytes)
  | MapFile (runner path_in_runner path_in_vfs : String)
  | WebRender (payload : Tree)
  | WebRequest (payload : Tree)
  | ExecPrompt (payload : Tree)
  | ExecPromptTemplate (payload : Tree)
  | UserError (value : Maybe Tree)
  | Return (value : Maybe Tree)
  | Trace (payload : Tree)
  | Yield
  | GetTimestamp

/-! ## Fields -/

/-- mirrors executor/crates/calldata/src/codec/de/builtin.rs:91-101 -/
def bytes_from_value : Tree → Option Bytes
  | .bytes b => some b
  | _ => none

/-- mirrors executor/crates/calldata/src/codec/de/builtin.rs:65-76 -/
def string_from_value : Tree → Option String
  | .str s => some s
  | _ => none

/-- mirrors executor/crates/calldata/src/codec/de/builtin.rs:12-23 -/
def bool_from_value : Tree → Option Bool
  | .bool b => some b
  | _ => none

/-- mirrors executor/crates/calldata/src/codec/de/builtin.rs:174-185 -/
def address_from_value : Tree → Option Address
  | .address a => some a
  | _ => none

/-- mirrors executor/crates/calldata/src/codec/de/builtin.rs:141-170 -/
def u256_from_value : Tree → Option Nat
  | .number n => if n < 0 then none else if U256_BOUND ≤ n.toNat then none else some n.toNat
  | _ => none

/-- mirrors executor/crates/calldata/src/codec/de/builtin.rs:312-326 -/
def vec_from_value {α : Type} (elem : Tree → Option α) : Tree → Option (List α)
  | .array xs => xs.mapM elem
  | _ => none

/-- `Maybe<Value>` over an in-memory value.
mirrors executor/crates/calldata/src/codec/de/mod.rs:104-106 -/
def maybe_from_value (t : Tree) : Option (Maybe Tree) := some (.materialized t)

/-- `Maybe<Map<Value>>` over an in-memory value.
mirrors executor/crates/calldata/src/codec/de/builtin.rs:344-362 -/
def maybe_map_from_value : Tree → Option (Maybe (List (String × Tree)))
  | .map kvs => some (.materialized kvs)
  | _ => none

/-- mirrors executor/crates/sdk-rs/src/abi/gl_call.rs:523-532 -/
def On.from_value : Tree → Option On
  | .str s =>
    if s = "finalized" then some .Finalized
    else if s = "accepted" then some .Accepted
    else none
  | _ => none

/-- mirrors executor/crates/sdk-rs/src/abi/gl_call.rs:541-557 -/
def decode_storage_type : Tree → Option StorageType
  | .number n =>
    if n = 0 then some .Default
    else if n = 1 then some .LatestFinal
    else if n = 2 then some .LatestNonFinal
    else none
  | _ => none

/-! ## The derived decoder -/

/-- The entries of a struct variant: every key names a field.
mirrors executor/crates/calldata-derive/src/decode.rs:662-690 -/
def structEntries (fields : List String) : Tree → Option (List (String × Tree))
  | .map kvs => if kvs.all fun kv => fields.contains kv.1 then some kvs else none
  | _ => none

/-- A required field.
mirrors executor/crates/calldata-derive/src/decode.rs:639-655 -/
def field {α : Type} (entries : List (String × Tree)) (name : String) (decode : Tree → Option α) :
    Option α := do decode (← entries.lookup name)

/-- The payload of the variant `key` names.
mirrors executor/crates/calldata-derive/src/decode.rs:541-700 -/
def Message.from_payload (key : String) (payload : Tree) : Option Message :=
  match key with
  | "EthCall" => do
    let m ← structEntries ["address", "calldata"] payload
    some (.EthCall (← field m "address" address_from_value) (← field m "calldata" bytes_from_value))
  | "CallContract" => do
    let m ← structEntries ["address", "calldata", "state"] payload
    some (.CallContract (← field m "address" address_from_value)
      (← field m "calldata" maybe_from_value) (← field m "state" decode_storage_type))
  | "EthSend" => do
    let m ← structEntries ["address", "calldata", "value"] payload
    some (.EthSend (← field m "address" address_from_value)
      (← field m "calldata" bytes_from_value) (← field m "value" u256_from_value))
  | "PostMessage" => do
    let m ← structEntries ["address", "calldata", "value", "on"] payload
    some (.PostMessage (← field m "address" address_from_value)
      (← field m "calldata" maybe_from_value) (← field m "value" u256_from_value)
      (← field m "on" On.from_value))
  | "DeployContract" => do
    let m ← structEntries ["calldata", "code", "value", "on", "salt_nonce"] payload
    some (.DeployContract (← field m "calldata" maybe_from_value)
      (← field m "code" bytes_from_value) (← field m "value" u256_from_value)
      (← field m "on" On.from_value) (← field m "salt_nonce" u256_from_value))
  | "EmitEvent" => do
    let m ← structEntries ["topics", "blob"] payload
    some (.EmitEvent (← field m "topics" (vec_from_value bytes_from_value))
      (← field m "blob" maybe_map_from_value))
  | "RunNondet" => do
    let m ← structEntries ["data_leader", "data_validator"] payload
    some (.RunNondet (← field m "data_leader" bytes_from_value)
      (← field m "data_validator" bytes_from_value))
  | "Sandbox" => do
    let m ← structEntries ["data", "runner", "allow_write_storage", "allow_send_messages",
      "allow_register_runners"] payload
    some (.Sandbox (← field m "data" bytes_from_value) (← field m "runner" string_from_value)
      (← field m "allow_write_storage" bool_from_value)
      (← field m "allow_send_messages" bool_from_value)
      (← field m "allow_register_runners" bool_from_value))
  | "RegisterRunner" => do
    let m ← structEntries ["code"] payload
    some (.RegisterRunner (← field m "code" bytes_from_value))
  | "MapFile" => do
    let m ← structEntries ["runner", "path_in_runner", "path_in_vfs"] payload
    some (.MapFile (← field m "runner" string_from_value)
      (← field m "path_in_runner" string_from_value) (← field m "path_in_vfs" string_from_value))
  | "WebRender" => some (.WebRender payload)
  | "WebRequest" => some (.WebRequest payload)
  | "ExecPrompt" => some (.ExecPrompt payload)
  | "ExecPromptTemplate" => some (.ExecPromptTemplate payload)
  | "UserError" => Message.UserError <$> maybe_from_value payload
  | "Return" => Message.Return <$> maybe_from_value payload
  | "Trace" => some (.Trace payload)
  | _ => none

/-- mirrors executor/crates/calldata-derive/src/decode.rs:418-539 -/
def Message.from_value : Tree → Option Message
  | .str "Yield" => some .Yield
  | .str "GetTimestamp" => some .GetTimestamp
  | .map [(key, payload)] => Message.from_payload key payload
  | _ => none

/-! ## What an accepted request carries -/

/-- A materialized value inside `budget` containers. -/
def Carries (budget : Nat) (m : Maybe Tree) : Prop := ∃ t, m = .materialized t ∧ t.Ok budget

/-- The values in a message of an accepted request: a result is the payload of
its variant, one container deep, the rest are fields of the payload. -/
def Message.Accepted : Message → Prop
  | .CallContract _ calldata _ => Carries 126 calldata
  | .PostMessage _ calldata _ _ => Carries 126 calldata
  | .DeployContract calldata _ _ _ _ => Carries 126 calldata
  | .EmitEvent _ blob => ∃ kvs, blob = .materialized kvs ∧ Tree.Ok 126 (.map kvs)
  | .UserError value => Carries 127 value
  | .Return value => Carries 127 value
  | _ => True

theorem structEntries_some {fields : List String} {payload : Tree} {m : List (String × Tree)}
    (h : structEntries fields payload = some m) : payload = .map m := by
  unfold structEntries at h
  split at h
  · split at h
    · rw [Option.some.inj h]
    · cases h
  · cases h

theorem mem_of_lookup {name : String} {t : Tree} : ∀ {m : List (String × Tree)},
    m.lookup name = some t → (name, t) ∈ m
  | [], h => nomatch h
  | (k, u) :: m, h => by
    rw [List.lookup_cons] at h
    split at h
    · next hk =>
      obtain rfl := Option.some.inj h
      exact beq_iff_eq.mp hk ▸ List.mem_cons_self ..
    · exact List.mem_cons_of_mem _ (mem_of_lookup h)

/-- The field of a struct variant is one container further in than its payload. -/
theorem field_ok {α : Type} {b : Nat} {fields : List String} {payload : Tree}
    {m : List (String × Tree)} (hm : structEntries fields payload = some m) (hp : payload.Ok b)
    {name : String} {decode : Tree → Option α} {a : α} (h : field m name decode = some a) :
    ∃ t, decode t = some a ∧ t.Ok (b - 1) := by
  obtain ⟨t, ht, ha⟩ := Option.bind_eq_some_iff.mp h
  rw [structEntries_some hm] at hp
  exact ⟨t, ha, ((Tree.ok_map.mp hp).2.2.2 _ (mem_of_lookup ht)).2⟩

theorem maybe_field_ok {b : Nat} {fields : List String} {payload : Tree}
    {m : List (String × Tree)} (hm : structEntries fields payload = some m) (hp : payload.Ok b)
    {name : String} {v : Maybe Tree} (h : field m name maybe_from_value = some v) :
    Carries (b - 1) v := by
  obtain ⟨t, hv, hok⟩ := field_ok hm hp h
  exact ⟨t, (Option.some.inj hv).symm, hok⟩

theorem maybe_map_field_ok {b : Nat} {fields : List String} {payload : Tree}
    {m : List (String × Tree)} (hm : structEntries fields payload = some m) (hp : payload.Ok b)
    {name : String} {v : Maybe (List (String × Tree))}
    (h : field m name maybe_map_from_value = some v) :
    ∃ kvs, v = .materialized kvs ∧ Tree.Ok (b - 1) (.map kvs) := by
  obtain ⟨t, hv, hok⟩ := field_ok hm hp h
  cases t with
  | map kvs => exact ⟨kvs, (Option.some.inj hv).symm, hok⟩
  | _ => cases hv

/-- Each step of a decoder that reads one field after the other. -/
theorem bind_field {α β : Type} {x : Option α} {f : α → Option β} {b : β}
    (h : (do f (← x)) = some b) : ∃ a, x = some a ∧ f a = some b := Option.bind_eq_some_iff.mp h

theorem from_payload_accepted {key : String} {payload : Tree} {m : Message} (hp : payload.Ok 127)
    (h : Message.from_payload key payload = some m) : m.Accepted := by
  unfold Message.from_payload at h
  split at h
  case h_2 =>
    obtain ⟨kvs, hm, h⟩ := bind_field h
    obtain ⟨_, -, h⟩ := bind_field h
    obtain ⟨v, hv, h⟩ := bind_field h
    obtain ⟨_, -, h⟩ := bind_field h
    obtain rfl := Option.some.inj h
    exact maybe_field_ok hm hp hv
  case h_4 =>
    obtain ⟨kvs, hm, h⟩ := bind_field h
    obtain ⟨_, -, h⟩ := bind_field h
    obtain ⟨v, hv, h⟩ := bind_field h
    obtain ⟨_, -, h⟩ := bind_field h
    obtain ⟨_, -, h⟩ := bind_field h
    obtain rfl := Option.some.inj h
    exact maybe_field_ok hm hp hv
  case h_5 =>
    obtain ⟨kvs, hm, h⟩ := bind_field h
    obtain ⟨v, hv, h⟩ := bind_field h
    obtain ⟨_, -, h⟩ := bind_field h
    obtain ⟨_, -, h⟩ := bind_field h
    obtain ⟨_, -, h⟩ := bind_field h
    obtain ⟨_, -, h⟩ := bind_field h
    obtain rfl := Option.some.inj h
    exact maybe_field_ok hm hp hv
  case h_6 =>
    obtain ⟨kvs, hm, h⟩ := bind_field h
    obtain ⟨_, -, h⟩ := bind_field h
    obtain ⟨v, hv, h⟩ := bind_field h
    obtain rfl := Option.some.inj h
    exact maybe_map_field_ok hm hp hv
  case h_15 => exact Option.some.inj h ▸ ⟨payload, rfl, hp⟩
  case h_16 => exact Option.some.inj h ▸ ⟨payload, rfl, hp⟩
  case h_18 => cases h
  -- the other variants carry nothing
  all_goals
    repeat obtain ⟨_, _, h⟩ := bind_field h
    exact Option.some.inj h ▸ trivial

theorem from_value_accepted {t : Tree} {m : Message} (ht : t.Ok 128)
    (h : Message.from_value t = some m) : m.Accepted := by
  unfold Message.from_value at h
  split at h
  · exact Option.some.inj h ▸ trivial
  · exact Option.some.inj h ▸ trivial
  · next key payload =>
    have hp := (Tree.ok_map.mp ht).2.2.2 (key, payload) (List.mem_singleton.mpr rfl)
    exact from_payload_accepted hp.2 h
  · cases h

end GenVM.Vm
