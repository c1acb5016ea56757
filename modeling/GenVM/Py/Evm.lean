import GenVM.Lib.Abi

/-!
# The Solidity ABI codecs of the Python library (`genlayer/evm/_internal/codecs.py`)

The codecs are built from types, so `Ty` stands for the codec tree; `is_dynamic` is
`Ty.dynamic`, and a tuple built with `force_inplace` is only the argument tuple of
a call (`MethodEncoder`). An encoder writes to a shared `result` and leaves
closures in `tails`; `run_tails` calls them round by round, and each may leave
closures for the next round.

Python raises `OverflowError` where a length or an offset does not fit 32 bytes;
this and running out of `fuel` are `none`. A decoder checks no range and no
padding, so it returns untyped values.
-/
namespace GenVM.Py.Evm
open GenVM.Abi

abbrev Bytes := List UInt8

/-! ## Encoding -/

/-- An argument with its codec, as `partial(p.encode, val=a)` binds them. -/
abbrev Arg := Σ t : Ty, t.Val

/-- What `tails` holds. -/
inductive Delayed where
  | putter (put_at off0 : Nat)
  | encode (arg : Arg)
  | put_bytes (as_bytes : Bytes)
  | encode_now (arg : Arg)

/-- mirrors runners/genlayer-py-std/src/genlayer/evm/_internal/codecs.py:12-16 -/
structure EncodeState where
  current_off : Nat
  result : Bytes
  tails : List Delayed

namespace EncodeState

def extend (s : EncodeState) (b : Bytes) : EncodeState := { s with result := s.result ++ b }

def delay (s : EncodeState) (ds : List Delayed) : EncodeState := { s with tails := s.tails ++ ds }

/-- mirrors runners/genlayer-py-std/src/genlayer/evm/_internal/codecs.py:18-28 -/
def put_iloc (s : EncodeState) : EncodeState :=
  (s.extend (List.replicate 32 0)).delay [.putter s.result.length s.current_off]

/-- mirrors runners/genlayer-py-std/src/genlayer/evm/_internal/codecs.py:30-35 -/
def derived (s : EncodeState) : EncodeState := ⟨s.result.length, s.result, []⟩

end EncodeState

/-- `int.to_bytes(n, 32, 'big')` -/
def to_bytes (n : Nat) : Option Bytes := if n < 2 ^ 256 then some (word n) else none

/-- `zip(self.elem_encoders, val)` -/
def components : (ts : List Ty) → Ty.Vals ts → List Arg
  | [], _ => []
  | t :: ts, vs => ⟨t, vs.1⟩ :: components ts vs.2

/-- `encode` of each codec. A static composite goes on with `_encode_now` at once: an array encodes
its elements, but a tuple leaves its components in the `tails` of the same state.
mirrors runners/genlayer-py-std/src/genlayer/evm/_internal/codecs.py:108-109, 129-130, 157-159,
182-185, 209-222, 255-257, 292-297, 346-361 -/
def encode : (t : Ty) → t.Val → EncodeState → EncodeState
  | .uint _, n, s => s.extend (word n.val)
  | .int _, i, s => s.extend (word (i.val % 2 ^ 256).toNat)
  | .bool, b, s => s.extend (word (Bool.toNat b))
  | .address, b, s => (s.extend (List.replicate 12 0)).extend b.val
  | .fixedBytes _, b, s => (s.extend b.val).extend (List.replicate (32 - b.val.length) 0)
  | .bytes, b, s => s.put_iloc.delay [.put_bytes b]
  | .string, x, s => s.put_iloc.delay [.put_bytes (String.toUTF8 x).data.toList]
  | .array t, vs, s => s.put_iloc.delay [.encode_now ⟨.array t, vs⟩]
  | .fixed size t, vs, s =>
    if t.dynamic then s.put_iloc.delay [.encode_now ⟨.fixed size t, vs⟩]
    else vs.val.foldl (fun s v => encode t v s) s
  | .tuple ts, vs, s =>
    if Ty.anyDynamic ts then s.put_iloc.delay [.encode_now ⟨.tuple ts, vs⟩]
    else s.delay ((components ts vs).map .encode)

section Run
variable (run_tails : EncodeState → Option EncodeState)

/-- `_encode_now` of a dynamic composite, on a state derived from this one; `result` is shared.
mirrors runners/genlayer-py-std/src/genlayer/evm/_internal/codecs.py:241-249, 284-290, 346-353 -/
def encode_now : Arg → EncodeState → Option EncodeState
  | ⟨.array t, vs⟩, s =>
    (to_bytes vs.val.length).bind fun w =>
    let s := s.extend w
    (run_tails (s.derived.delay (vs.val.map fun v => .encode ⟨t, v⟩))).map fun der =>
      { s with result := der.result }
  | ⟨.fixed _ t, vs⟩, s =>
    (run_tails (vs.val.foldl (fun s v => encode t v s) s.derived)).map fun der =>
      { s with result := der.result }
  | ⟨.tuple ts, vs⟩, s =>
    (run_tails (s.derived.delay ((components ts vs).map .encode))).map fun der =>
      { s with result := der.result }
  | _, _ => none

/-- mirrors runners/genlayer-py-std/src/genlayer/evm/_internal/codecs.py:24-26, 217-220 -/
def call : Delayed → EncodeState → Option EncodeState
  | .putter put_at off0, s => (to_bytes (s.result.length - off0)).map fun w =>
    { s with result := s.result.take put_at ++ w ++ s.result.drop (put_at + 32) }
  | .encode arg, s => some (encode arg.1 arg.2 s)
  | .put_bytes as_bytes, s => (to_bytes as_bytes.length).map fun w =>
    ((s.extend w).extend as_bytes).extend (List.replicate ((32 - as_bytes.length % 32) % 32) 0)
  | .encode_now arg, s => encode_now run_tails arg s

end Run

/-- mirrors runners/genlayer-py-std/src/genlayer/evm/_internal/codecs.py:37-44 -/
def run_tails : Nat → EncodeState → Option EncodeState
  | 0, _ => none
  | fuel + 1, s =>
    if s.tails.isEmpty then some s
    else
      (s.tails.foldlM (fun s d => call (run_tails fuel) d s) { s with tails := [] }).bind
        (run_tails fuel)

/-- The argument tuple is built with `force_inplace`, so its components go to the tails of the
state itself.
mirrors runners/genlayer-py-std/src/genlayer/evm/calldata.py:64-68 -/
def encode_call (fuel : Nat) (selector : Bytes) (params : List Ty) (args : Ty.Vals params) :
    Option Bytes :=
  let state : EncodeState := ⟨4, selector, []⟩
  (run_tails fuel (state.delay ((components params args).map .encode))).map EncodeState.result

/-! ## Decoding -/

inductive PyVal where
  | int (i : Int)
  | bool (b : Bool)
  | address (b : Bytes)
  | bytes (b : Bytes)
  | str (s : String)
  | seq (vs : List PyVal)

/-- mirrors runners/genlayer-py-std/src/genlayer/evm/_internal/codecs.py:47-51 -/
structure DecoderState where
  mem : Bytes
  current_off : Nat
  current_off_0 : Nat

namespace DecoderState

/-- A slice ends where the memory ends.
mirrors runners/genlayer-py-std/src/genlayer/evm/_internal/codecs.py:53-56 -/
def fetch_head (s : DecoderState) (le : Nat) : Bytes × DecoderState :=
  ((s.mem.drop s.current_off).take le, { s with current_off := s.current_off + le })

/-- The state behind the offset, and this one after it.
mirrors runners/genlayer-py-std/src/genlayer/evm/_internal/codecs.py:58-66 -/
def indirected (s : DecoderState) : DecoderState × DecoderState :=
  let (b, s) := s.fetch_head 32
  let new_off_0 := s.current_off_0 + ofBytes b
  (⟨s.mem, new_off_0, new_off_0⟩, s)

end DecoderState

/-- `int.from_bytes(b, 'big', signed=True)` -/
def from_bytes_signed (b : Bytes) : Int :=
  if 2 * ofBytes b < 256 ^ b.length then ofBytes b else (ofBytes b : Int) - 256 ^ b.length

/-- `for i in range(n): res.append(decode(state))` -/
def decodeN (decode : DecoderState → Option (PyVal × DecoderState)) :
    Nat → DecoderState → Option (List PyVal × DecoderState)
  | 0, s => some ([], s)
  | n + 1, s => do
    let (v, s) ← decode s
    let (vs, s) ← decodeN decode n s
    some (v :: vs, s)

/-- A dynamic value is read behind its offset; the outer state stands after the offset. -/
def behind (dynamic : Bool) (s : DecoderState)
    (read : DecoderState → Option (PyVal × DecoderState)) : Option (PyVal × DecoderState) :=
  if dynamic then (read s.indirected.1).map fun p => (p.1, s.indirected.2) else read s

mutual
/-- mirrors runners/genlayer-py-std/src/genlayer/evm/_internal/codecs.py:111-112, 132-133, 161-163,
187-190, 224-232, 259-266, 304-310, 363-371 -/
def decode : (t : Ty) → DecoderState → Option (PyVal × DecoderState)
  | .uint _, s =>
    let (b, s) := s.fetch_head 32
    some (.int (ofBytes b), s)
  | .int _, s =>
    let (b, s) := s.fetch_head 32
    some (.int (from_bytes_signed b), s)
  | .bool, s =>
    let (b, s) := s.fetch_head 32
    some (.bool (b ≠ List.replicate 32 0), s)
  | .address, s =>
    let (_, s) := s.fetch_head 12
    let (b, s) := s.fetch_head 20
    if b.length = 20 then some (.address b, s) else none
  | .fixedBytes w, s =>
    let (b, s) := s.fetch_head (w.val + 1)
    let (_, s) := s.fetch_head (32 - (w.val + 1))
    some (.bytes b, s)
  | .bytes, s => behind true s fun s =>
    let (le, s) := s.fetch_head 32
    let (b, s) := s.fetch_head (ofBytes le)
    some (.bytes b, s)
  | .string, s => behind true s fun s =>
    let (le, s) := s.fetch_head 32
    let (b, s) := s.fetch_head (ofBytes le)
    (String.fromUTF8? ⟨⟨b⟩⟩).map fun x => (.str x, s)
  | .array t, s => behind true s fun s =>
    let (le, s) := s.fetch_head 32
    (decodeN (decode t) (ofBytes le) { s with current_off_0 := s.current_off_0 + 32 }).map fun p =>
      (.seq p.1, p.2)
  | .fixed size t, s => behind t.dynamic s fun s =>
    (decodeN (decode t) size s).map fun p => (.seq p.1, p.2)
  | .tuple ts, s => behind (Ty.anyDynamic ts) s fun s =>
    (decodeAll ts s).map fun p => (.seq p.1, p.2)
/-- `for enc in self.elem_encoders: res.append(enc.decode(state))` -/
def decodeAll : List Ty → DecoderState → Option (List PyVal × DecoderState)
  | [], s => some ([], s)
  | t :: ts, s => do
    let (v, s) ← decode t s
    let (vs, s) ← decodeAll ts s
    some (v :: vs, s)
end

/-- The argument tuple back, with the codec of `encode_call`. -/
def decode_args (params : List Ty) (mem : Bytes) : Option (List PyVal) :=
  (decodeAll params ⟨mem, 0, 0⟩).map Prod.fst

mutual
/-- A value in its type's range as the Python object it is. -/
def toPy : (t : Ty) → t.Val → PyVal
  | .uint _, n => .int n.val
  | .int _, i => .int i.val
  | .bool, b => .bool b
  | .address, b => .address b.val
  | .fixedBytes _, b => .bytes b.val
  | .bytes, b => .bytes b
  | .string, x => .str x
  | .array t, vs => .seq (vs.val.map (toPy t))
  | .fixed _ t, vs => .seq (vs.val.map (toPy t))
  | .tuple ts, vs => .seq (toPyAll ts vs)
def toPyAll : (ts : List Ty) → Ty.Vals ts → List PyVal
  | [], _ => []
  | t :: ts, vs => toPy t vs.1 :: toPyAll ts vs.2
end

end GenVM.Py.Evm
