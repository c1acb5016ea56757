import GenVM.Calldata.Grammar

/-!
# The trait decoder (`calldata/src/codec/de`)

A `Decode` implementation is a pair of functions over a deserializer. The
deserializers that read bytes are a `Source`: a `BinaryDeserializer` on the wire
(`bin`), or one of the `Wrap`s in which `Option<T>` hands an event it has
already seen to `T` (`wrap`). `budget` is `max_depth - depth`: the deserializer
adds one to `depth` around the elements of a container.

Each `impl Decode` below is a value of `Decode α`, and `Ty.codec` assembles the
implementation of every type built from them as the trait resolution does.
`validate` is its own traversal where the source writes one, and the trait's
default (decode and drop) elsewhere.
-/
namespace GenVM.Calldata
open GenVM.Lib GenVM.Lib.Except

/-- mirrors executor/crates/calldata/src/types.rs:85-94 -/
inductive ValueKind where
  | null
  | bool
  | address
  | number
  | str
  | bytes
  | array
  | map
  deriving DecidableEq, Repr

def Event.kind : Event → ValueKind
  | .null => .null
  | .bool _ => .bool
  | .address _ => .address
  | .bigint _ => .number
  | .bytes _ => .bytes
  | .str _ => .str
  | .seq _ => .array
  | .map _ => .map

/-- mirrors executor/crates/calldata/src/codec/de/mod.rs:12-33 (the variants
raised by the types below) -/
inductive DecodeError where
  | unexpectedKind (kind : ValueKind)
  | outOfRange (value target : String)
  | binDecodeError (e : BinDecodeError)
  deriving DecidableEq, Repr

namespace BinaryDeserializer

def raises : Raises where
  ulebEnd := .unexpectedEnd 1 0
  badSpecial := .invalidTag

/-- mirrors executor/crates/calldata/src/codec/de/bin.rs:109-199 -/
def deserializeOne (budget : Nat) (data : Bytes) : Except DecodeError (Event × Bytes) :=
  (headWith raises budget data).mapError .binDecodeError

/-- mirrors executor/crates/calldata/src/codec/de/bin.rs:100-107 -/
def fetchMapKey (data : Bytes) : Except DecodeError (String × Bytes) :=
  (fetchKeyWith raises data).mapError .binDecodeError

end BinaryDeserializer

open BinaryDeserializer

/-! ## Deserializers -/

inductive Source where
  | bin (budget : Nat) (data : Bytes)
  | wrap (budget : Nat) (ev : Event) (data : Bytes)

def Source.budget : Source → Nat
  | .bin budget _ => budget
  | .wrap budget _ _ => budget

/-- The visitor call `deserialize` makes, and what is left of the data. -/
def Source.event : Source → Except DecodeError (Event × Bytes)
  | .bin budget data => deserializeOne budget data
  | .wrap _ ev data => .ok (ev, data)

/-- mirrors executor/crates/calldata/src/codec/de/mod.rs:87-93 -/
structure Decode (α : Type) where
  decode : Source → Except DecodeError (α × Bytes)
  validate : Source → Except DecodeError (Unit × Bytes)

/-- The trait's own `validate`. -/
def defaultValidate {α : Type} (decode : Source → Except DecodeError (α × Bytes)) (src : Source) :
    Except DecodeError (Unit × Bytes) :=
  (fun p => ((), p.2)) <$> decode src

/-! ## Containers -/

/-- `prev_key` is `Some(prev)` and `prev >= key`. -/
def keyNotAbove (prev : Option String) (key : String) : Option String :=
  match prev with
  | some p => if keyLt p key then none else some p
  | none => none

/-- `while let Some((key, value)) = map.next_element()?`, inserting into a `BTreeMap`.
mirrors executor/crates/calldata/src/codec/de/bin.rs:275-317 -/
def mapLoop {α : Type} (next : Bytes → Except DecodeError (α × Bytes)) :
    Nat → Option String → List (String × α) → Bytes → Except DecodeError (List (String × α) × Bytes)
  | 0, _, result, data => .ok (result, data)
  | remaining + 1, prevKey, result, data => do
    let (key, data) ← fetchMapKey data
    match keyNotAbove prevKey key with
    | some prev => .error (.binDecodeError (.invalidMapOrdering prev key))
    | none =>
      let (value, data) ← next data
      mapLoop next remaining (some key) (SortedMap.insert keyLt key value result) data

/-! ## Scalars -/

/-- A visitor with scalar methods only. -/
def leaf {α : Type} (visit : Event → Except DecodeError α) (src : Source) :
    Except DecodeError (α × Bytes) := do
  let (ev, data) ← src.event
  let v ← visit ev
  .ok (v, data)

def visitBool : Event → Except DecodeError Bool
  | .bool value => .ok value
  | ev => .error (.unexpectedKind ev.kind)

/-- mirrors executor/crates/calldata/src/codec/de/builtin.rs:13-24 -/
def Decode.bool : Decode Bool where
  decode := leaf visitBool
  validate := defaultValidate (leaf visitBool)

inductive IntTy where
  | i8
  | i16
  | i32
  | i64
  | u8
  | u16
  | u32
  | u64
  deriving DecidableEq, Repr

def IntTy.name : IntTy → String
  | i8 => "i8"
  | i16 => "i16"
  | i32 => "i32"
  | i64 => "i64"
  | u8 => "u8"
  | u16 => "u16"
  | u32 => "u32"
  | u64 => "u64"

/-- `<$ty>::try_from(value)` succeeds. -/
def IntTy.holds (t : IntTy) (n : Int) : Bool :=
  match t with
  | i8 => -2 ^ 7 ≤ n ∧ n < 2 ^ 7
  | i16 => -2 ^ 15 ≤ n ∧ n < 2 ^ 15
  | i32 => -2 ^ 31 ≤ n ∧ n < 2 ^ 31
  | i64 => -2 ^ 63 ≤ n ∧ n < 2 ^ 63
  | u8 => 0 ≤ n ∧ n < 2 ^ 8
  | u16 => 0 ≤ n ∧ n < 2 ^ 16
  | u32 => 0 ≤ n ∧ n < 2 ^ 32
  | u64 => 0 ≤ n ∧ n < 2 ^ 64

def visitInt (t : IntTy) : Event → Except DecodeError Int
  | .bigint value => if t.holds value then .ok value else .error (.outOfRange (toString value) t.name)
  | ev => .error (.unexpectedKind ev.kind)

/-- mirrors executor/crates/calldata/src/codec/de/builtin.rs:28-62 -/
def Decode.int (t : IntTy) : Decode Int where
  decode := leaf (visitInt t)
  validate := defaultValidate (leaf (visitInt t))

def visitStr : Event → Except DecodeError String
  | .str value => .ok value
  | ev => .error (.unexpectedKind ev.kind)

/-- `visit_str` of the validating visitor. -/
def checkStr : Event → Except DecodeError Unit
  | .str _ => .ok ()
  | ev => .error (.unexpectedKind ev.kind)

/-- mirrors executor/crates/calldata/src/codec/de/builtin.rs:66-88 -/
def Decode.string : Decode String where
  decode := leaf visitStr
  validate := leaf checkStr

def visitBytes : Event → Except DecodeError Bytes
  | .bytes value => .ok value
  | ev => .error (.unexpectedKind ev.kind)

def checkBytes : Event → Except DecodeError Unit
  | .bytes _ => .ok ()
  | ev => .error (.unexpectedKind ev.kind)

/-- mirrors executor/crates/calldata/src/codec/de/builtin.rs:92-114 -/
def Decode.bytes : Decode Bytes where
  decode := leaf visitBytes
  validate := leaf checkBytes

def visitBigint : Event → Except DecodeError Int
  | .bigint value => .ok value
  | ev => .error (.unexpectedKind ev.kind)

/-- mirrors executor/crates/calldata/src/codec/de/builtin.rs:118-138 -/
def Decode.bigint : Decode Int where
  decode := leaf visitBigint
  validate := defaultValidate (leaf visitBigint)

/-- `to_bytes_le` is at most 32 bytes long. -/
def visitU256 : Event → Except DecodeError Nat
  | .bigint value =>
    if value < 0 then .error (.outOfRange (toString value) "U256")
    else if (bits value.natAbs + 7) / 8 > 32 then .error (.outOfRange (toString value) "U256")
    else .ok value.natAbs
  | ev => .error (.unexpectedKind ev.kind)

/-- mirrors executor/crates/calldata/src/codec/de/builtin.rs:142-173 -/
def Decode.u256 : Decode Nat where
  decode := leaf visitU256
  validate := defaultValidate (leaf visitU256)

def visitAddress : Event → Except DecodeError Address
  | .address value => .ok value
  | ev => .error (.unexpectedKind ev.kind)

/-- mirrors executor/crates/calldata/src/codec/de/builtin.rs:177-188 -/
def Decode.address : Decode Address where
  decode := leaf visitAddress
  validate := defaultValidate (leaf visitAddress)

/-! ## `Value` -/

/-- The decoding visitor of `Value`. A container at `budget` 0 is refused before
its visitor method is called.
mirrors executor/crates/calldata/src/codec/de/value.rs:57-114 -/
def visitValue : Nat → Event → Bytes → Except DecodeError (Tree × Bytes)
  | _, .null, data => .ok (.null, data)
  | _, .bool value, data => .ok (.bool value, data)
  | _, .address value, data => .ok (.address value, data)
  | _, .bigint value, data => .ok (.number value, data)
  | _, .str value, data => .ok (.str value, data)
  | _, .bytes value, data => .ok (.bytes value, data)
  | 0, .seq _, _ | 0, .map _, _ => .error (.binDecodeError .maxDepthExceeded)
  | budget + 1, .seq len, data => do
    let next := fun data => do
      let (ev, data) ← deserializeOne budget data
      visitValue budget ev data
    let (result, data) ← seqLoop next len data
    .ok (.array result, data)
  | budget + 1, .map len, data => do
    let next := fun data => do
      let (ev, data) ← deserializeOne budget data
      visitValue budget ev data
    let (result, data) ← mapLoop next len none [] data
    .ok (.map result, data)

/-- The validating visitor of `Value`.
mirrors executor/crates/calldata/src/codec/de/value.rs:116-169 -/
def checkValue : Nat → Event → Bytes → Except DecodeError (Unit × Bytes)
  | 0, .seq _, _ | 0, .map _, _ => .error (.binDecodeError .maxDepthExceeded)
  | budget + 1, .seq len, data => do
    let next := fun data => do
      let (ev, data) ← deserializeOne budget data
      checkValue budget ev data
    let (_, data) ← seqLoop next len data
    .ok ((), data)
  | budget + 1, .map len, data => do
    let next := fun data => do
      let (ev, data) ← deserializeOne budget data
      checkValue budget ev data
    let (_, data) ← mapLoop next len none [] data
    .ok ((), data)
  | _, _, data => .ok ((), data)

def Decode.value : Decode Tree where
  decode src := do
    let (ev, data) ← src.event
    visitValue src.budget ev data
  validate src := do
    let (ev, data) ← src.event
    checkValue src.budget ev data

/-! ## Containers of other types -/

section
variable {α : Type}

/-- Any event but null is handed on in a `Wrap`.
mirrors executor/crates/calldata/src/codec/de/builtin.rs:192-312 -/
def decodeOption (t : Decode α) (src : Source) : Except DecodeError (Option α × Bytes) := do
  let (ev, data) ← src.event
  match ev with
  | .null => .ok (none, data)
  | ev => (fun p => (some p.1, p.2)) <$> t.decode (.wrap src.budget ev data)

def Decode.option (t : Decode α) : Decode (Option α) where
  decode := decodeOption t
  validate := defaultValidate (decodeOption t)

def visitVec {β : Type} (next : Source → Except DecodeError (β × Bytes)) (src : Source) :
    Except DecodeError (List β × Bytes) := do
  let (ev, data) ← src.event
  match ev with
  | .seq len => seqLoop (fun data => next (.bin (src.budget - 1) data)) len data
  | ev => .error (.unexpectedKind ev.kind)

/-- mirrors executor/crates/calldata/src/codec/de/builtin.rs:314-342 -/
def Decode.vec (t : Decode α) : Decode (List α) where
  decode := visitVec t.decode
  validate src := (fun p => ((), p.2)) <$> visitVec t.validate src

def visitMap {β : Type} (next : Source → Except DecodeError (β × Bytes)) (src : Source) :
    Except DecodeError (List (String × β) × Bytes) := do
  let (ev, data) ← src.event
  match ev with
  | .map len => mapLoop (fun data => next (.bin (src.budget - 1) data)) len none [] data
  | ev => .error (.unexpectedKind ev.kind)

/-- mirrors executor/crates/calldata/src/codec/de/builtin.rs:346-382 -/
def Decode.btreemap (t : Decode α) : Decode (List (String × α)) where
  decode := visitMap t.decode
  validate src := (fun p => ((), p.2)) <$> visitMap t.validate src

/-- `Box<T>`, `Arc<T>`, `Rc<T>`.
mirrors executor/crates/calldata/src/codec/de/builtin.rs:386-414 -/
def Decode.transparent (t : Decode α) : Decode α where
  decode := t.decode
  validate := t.validate

/-! ## Deferred values -/

/-- mirrors executor/crates/calldata/src/codec/de/unparsed.rs:28-32 -/
inductive Maybe (α : Type) where
  | materialized (value : α)
  | checked (raw : Bytes)

/-- On the wire: validate and keep the bytes walked over. Elsewhere: decode.
mirrors executor/crates/calldata/src/codec/de/bin.rs:206-213, codec/de/mod.rs:104-106 -/
def deserializeMaybe (t : Decode α) : Source → Except DecodeError (Maybe α × Bytes)
  | .bin budget data => do
    let (_, rest) ← t.validate (.bin budget data)
    .ok (.checked (data.take (data.length - rest.length)), rest)
  | .wrap budget ev data => (fun p => (.materialized p.1, p.2)) <$> t.decode (.wrap budget ev data)

/-- mirrors executor/crates/calldata/src/codec/de/unparsed.rs:151-159 -/
def Decode.maybe (t : Decode α) : Decode (Maybe α) where
  decode := deserializeMaybe t
  validate := t.validate

/-- mirrors executor/crates/calldata/src/codec/de/unparsed.rs:93-104 -/
def Decode.raw : Decode Bytes where
  decode src := do
    let (m, rest) ← deserializeMaybe Decode.value src
    match m with
    | .checked raw => .ok (raw, rest)
    | .materialized value => .ok (encode value, rest)
  validate := Decode.value.validate

/-- mirrors executor/crates/calldata/src/lib.rs:54-65, codec/de/unparsed.rs:47-58 -/
def decodeObj (t : Decode α) (data : Bytes) : Except DecodeError α := do
  let (result, rest) ← t.decode (.bin 128 data)
  if rest ≠ [] then .error (.binDecodeError (.unexpectedEnd 0 rest.length))
  else .ok result

/-- mirrors executor/crates/calldata/src/codec/de/unparsed.rs:106-114 -/
def Maybe.materialize (t : Decode α) : Maybe α → Except DecodeError α
  | .materialized value => .ok value
  | .checked raw => decodeObj t raw

end

/-! ## Every type -/

inductive Ty where
  | bool
  | int (t : IntTy)
  | string
  | bytes
  | bigint
  | u256
  | address
  | value
  | raw
  | option (t : Ty)
  | vec (t : Ty)
  | btreemap (t : Ty)
  | box (t : Ty)
  | arc (t : Ty)
  | rc (t : Ty)
  | maybe (t : Ty)

/-- The values of a type. -/
def Ty.den : Ty → Type
  | bool => Bool
  | int _ => Int
  | string => String
  | bytes => Bytes
  | bigint => Int
  | u256 => Nat
  | address => Address
  | value => Tree
  | raw => Bytes
  | option t => Option t.den
  | vec t => List t.den
  | btreemap t => List (String × t.den)
  | box t | arc t | rc t => t.den
  | maybe t => Maybe t.den

/-- The implementation the trait resolves to. -/
def Ty.codec : (ty : Ty) → Decode ty.den
  | bool => .bool
  | int t => .int t
  | string => .string
  | bytes => .bytes
  | bigint => .bigint
  | u256 => .u256
  | address => .address
  | value => .value
  | raw => .raw
  | option t => .option t.codec
  | vec t => .vec t.codec
  | btreemap t => .btreemap t.codec
  | box t | arc t | rc t => .transparent t.codec
  | maybe t => .maybe t.codec

end GenVM.Calldata
