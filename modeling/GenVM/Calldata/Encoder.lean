import GenVM.Lib.Uleb
import GenVM.Calldata.Types

/-!
# The calldata encoder (`calldata/src/encoder.rs`, `bin.rs`)

The writer is a `Vec<u8>`: an encoder method is the bytes it appends. `encodeTo`
mirrors `encode_to`, an explicit stack of values and map keys still to be
written; the entries of a container are pushed in reverse, so that they are
popped in order.

`wire` is the format the encoder is meant to produce, by recursion on the tree,
and `encode_eq_wire` shows the stack machine produces it.
-/
namespace GenVM.Calldata
open GenVM.Lib

namespace Encoder

/-- The loop shared by `write_uleb` and its `u64` and `u128` versions: low seven
bits, shift, continuation bit while something is left. -/
def writeUlebLoop (num : Nat) : Bytes :=
  let cur := num % 128
  let num' := num >>> 7
  if num' ≠ 0 then UInt8.ofNat (cur ||| 0x80) :: writeUlebLoop num' else [UInt8.ofNat cur]
termination_by num
decreasing_by
  simp only [Nat.shiftRight_eq_div_pow] at *
  omega

/-- mirrors executor/crates/calldata/src/encoder.rs:4-24 -/
def writeUleb (num : Nat) : Bytes := if num = 0 then [0] else writeUlebLoop num

/-- mirrors executor/crates/calldata/src/encoder.rs:26-45 -/
def writeUlebU64 (num : Nat) : Bytes := if num = 0 then [0] else writeUlebLoop num

/-- mirrors executor/crates/calldata/src/encoder.rs:47-66 -/
def writeUlebU128 (num : Nat) : Bytes := if num = 0 then [0] else writeUlebLoop num

/-- mirrors executor/crates/calldata/src/encoder.rs:68-71 (`val` is a `u64`, so the
`u128` sum does not wrap) -/
def writeUlebTaggedU64 (tag val : Nat) : Bytes := writeUlebU128 (val <<< BITS_IN_TYPE + tag)

/-- mirrors executor/crates/calldata/src/encoder.rs:73-79 -/
def writeTaggedUleb (tag val : Nat) : Bytes := writeUleb (val <<< BITS_IN_TYPE + tag)

/-- mirrors executor/crates/calldata/src/encoder.rs:152-154 -/
def startArray (len : Nat) : Bytes := writeUlebTaggedU64 TYPE_ARR len

/-- mirrors executor/crates/calldata/src/encoder.rs:164-166 -/
def startMap (len : Nat) : Bytes := writeUlebTaggedU64 TYPE_MAP len

/-- mirrors executor/crates/calldata/src/encoder.rs:176-178 -/
def pushNull : Bytes := [UInt8.ofNat SPECIAL_NULL]

/-- mirrors executor/crates/calldata/src/encoder.rs:180-183 -/
def pushBool (value : Bool) : Bytes :=
  [UInt8.ofNat (if value then SPECIAL_TRUE else SPECIAL_FALSE)]

/-- mirrors executor/crates/calldata/src/encoder.rs:193-195 -/
def pushU64 (value : Nat) : Bytes := writeUlebTaggedU64 TYPE_PINT value

/-- mirrors executor/crates/calldata/src/encoder.rs:197-205 -/
def pushBigint (value : Int) : Bytes :=
  if value < 0 then writeTaggedUleb TYPE_NINT (value.natAbs - 1)
  else writeTaggedUleb TYPE_PINT value.natAbs

/-- mirrors executor/crates/calldata/src/encoder.rs:207-210 -/
def pushStr (value : String) : Bytes :=
  writeUlebTaggedU64 TYPE_STR (Utf8.bytes value).length ++ Utf8.bytes value

/-- mirrors executor/crates/calldata/src/encoder.rs:212-215 -/
def pushBytes (value : Bytes) : Bytes := writeUlebTaggedU64 TYPE_BYTES value.length ++ value

/-- mirrors executor/crates/calldata/src/encoder.rs:221-224 -/
def pushAddress (addr : Address) : Bytes := UInt8.ofNat SPECIAL_ADDR :: addr.raw

/-- mirrors executor/crates/calldata/src/encoder.rs:226-229 -/
def pushMapK (key : String) : Bytes := writeUlebU64 (Utf8.bytes key).length ++ Utf8.bytes key

end Encoder

open Encoder

/-! ## The stack machine -/

/-- mirrors executor/crates/calldata/src/bin.rs:341-344 -/
inductive Item where
  | value (v : Tree)
  | mapKey (k : String)

mutual
/-- Number of items a tree still puts on the stack. -/
def Tree.weight : Tree → Nat
  | .array xs => weightList xs + 1
  | .map kvs => weightEntries kvs + 1
  | _ => 1
def Tree.weightList : List Tree → Nat
  | [] => 0
  | x :: xs => x.weight + weightList xs
def Tree.weightEntries : List (String × Tree) → Nat
  | [] => 0
  | (_, x) :: kvs => 1 + x.weight + weightEntries kvs
end

def Item.weight : Item → Nat
  | .value v => v.weight
  | .mapKey _ => 1

/-- `for x in values.iter().rev() { stack.push(Item::Value(x)) }` -/
def pushValues (xs : List Tree) (stack : List Item) : List Item :=
  xs.reverse.foldl (fun st x => .value x :: st) stack

/-- `for (k, v) in values.iter().rev() { stack.push(Item::Value(v)); stack.push(Item::MapKey(k)) }` -/
def pushEntries (kvs : List (String × Tree)) (stack : List Item) : List Item :=
  kvs.reverse.foldl (fun st kv => .mapKey kv.1 :: .value kv.2 :: st) stack

theorem pushValues_eq (xs : List Tree) (stack : List Item) :
    pushValues xs stack = xs.map .value ++ stack := by
  unfold pushValues
  rw [List.foldl_reverse]
  induction xs with
  | nil => rfl
  | cons x xs ih => rw [List.foldr_cons, ih, List.map_cons, List.cons_append]

theorem pushEntries_eq (kvs : List (String × Tree)) (stack : List Item) :
    pushEntries kvs stack = kvs.flatMap (fun kv => [.mapKey kv.1, .value kv.2]) ++ stack := by
  unfold pushEntries
  rw [List.foldl_reverse]
  induction kvs with
  | nil => rfl
  | cons kv kvs ih => rw [List.foldr_cons, ih, List.flatMap_cons]; rfl

theorem weight_values (xs : List Tree) :
    ((xs.map Item.value).map Item.weight).sum = Tree.weightList xs := by
  induction xs with
  | nil => rfl
  | cons x xs ih => simpa [Tree.weightList, Item.weight] using ih

theorem weight_entries (kvs : List (String × Tree)) :
    ((kvs.flatMap fun kv => [Item.mapKey kv.1, .value kv.2]).map Item.weight).sum =
      Tree.weightEntries kvs := by
  induction kvs with
  | nil => rfl
  | cons kv kvs ih =>
    obtain ⟨k, v⟩ := kv
    simp only [List.flatMap_cons, List.map_append, List.sum_append, ih, Tree.weightEntries]
    simp [Item.weight]

/-- mirrors executor/crates/calldata/src/bin.rs:340-378 -/
def encodeTo : List Item → Bytes
  | [] => []
  | .mapKey key :: stack => pushMapK key ++ encodeTo stack
  | .value .null :: stack => pushNull ++ encodeTo stack
  | .value (.bool v) :: stack => pushBool v ++ encodeTo stack
  | .value (.address address) :: stack => pushAddress address ++ encodeTo stack
  | .value (.str data) :: stack => pushStr data ++ encodeTo stack
  | .value (.bytes data) :: stack => pushBytes data ++ encodeTo stack
  | .value (.number bigInt) :: stack => pushBigint bigInt ++ encodeTo stack
  | .value (.map values) :: stack => startMap values.length ++ encodeTo (pushEntries values stack)
  | .value (.array values) :: stack => startArray values.length ++ encodeTo (pushValues values stack)
termination_by stack => (stack.map Item.weight).sum
decreasing_by
  all_goals
    simp only [List.map_cons, List.sum_cons, Item.weight, Tree.weight, pushEntries_eq, pushValues_eq,
      List.map_append, List.sum_append, weight_entries, weight_values]
    omega

/-- mirrors executor/crates/calldata/src/bin.rs:398-408 -/
def encode (value : Tree) : Bytes := encodeTo [.value value]

/-! ## The format -/

theorem writeUlebLoop_eq (n : Nat) : writeUlebLoop n = Uleb.encode n := by
  induction n using Nat.strongRecOn with
  | ind n ih =>
    have hor : n % 128 ||| 128 = n % 128 + 128 := by
      have h := Nat.two_pow_add_eq_or_of_lt (i := 7) (b := n % 128) (by omega) 1
      simp only [Nat.reducePow, Nat.mul_one] at h
      rw [Nat.or_comm, ← h, Nat.add_comm]
    rw [writeUlebLoop]
    simp only [Nat.shiftRight_eq_div_pow, Nat.reducePow, hor]
    by_cases h : n < 128
    · rw [Uleb.encode_small h, if_neg (by omega), Nat.mod_eq_of_lt h]
    · rw [Uleb.encode_big (by omega), if_pos (by omega), ih (n / 128) (by omega)]

theorem zero_or_loop (n : Nat) : (if n = 0 then [0] else writeUlebLoop n) = Uleb.encode n := by
  split
  · next h => rw [h, Uleb.encode_small (by omega)]; rfl
  · exact writeUlebLoop_eq n

@[simp] theorem writeUleb_eq (n : Nat) : writeUleb n = Uleb.encode n := zero_or_loop n
@[simp] theorem writeUlebU64_eq (n : Nat) : writeUlebU64 n = Uleb.encode n := zero_or_loop n
@[simp] theorem writeUlebU128_eq (n : Nat) : writeUlebU128 n = Uleb.encode n := zero_or_loop n

/-- A tagged number: the payload over the three type bits. -/
def tagged (tag val : Nat) : Bytes := Uleb.encode (val * 8 + tag)

@[simp] theorem writeUlebTaggedU64_eq (tag val : Nat) : writeUlebTaggedU64 tag val = tagged tag val := by
  simp [writeUlebTaggedU64, tagged, BITS_IN_TYPE, Nat.shiftLeft_eq]

@[simp] theorem writeTaggedUleb_eq (tag val : Nat) : writeTaggedUleb tag val = tagged tag val := by
  simp [writeTaggedUleb, tagged, BITS_IN_TYPE, Nat.shiftLeft_eq]

/-- The payload of an integer: `n` for `n ≥ 0`, `-n - 1` for `n < 0`. -/
def intPayload (n : Int) : Nat := if n < 0 then n.natAbs - 1 else n.natAbs

def intTag (n : Int) : Nat := if n < 0 then TYPE_NINT else TYPE_PINT

/-- A map key: its length, untagged, and its bytes. -/
def wireKey (k : String) : Bytes := Uleb.encode (Utf8.bytes k).length ++ Utf8.bytes k

mutual
/-- The calldata wire format. -/
def wire : Tree → Bytes
  | .null => pushNull
  | .bool b => pushBool b
  | .address a => pushAddress a
  | .str s => tagged TYPE_STR (Utf8.bytes s).length ++ Utf8.bytes s
  | .bytes b => tagged TYPE_BYTES b.length ++ b
  | .number n => tagged (intTag n) (intPayload n)
  | .map kvs => tagged TYPE_MAP kvs.length ++ wireEntries kvs
  | .array xs => tagged TYPE_ARR xs.length ++ wireList xs
def wireList : List Tree → Bytes
  | [] => []
  | x :: xs => wire x ++ wireList xs
def wireEntries : List (String × Tree) → Bytes
  | [] => []
  | (k, x) :: kvs => wireKey k ++ (wire x ++ wireEntries kvs)
end

theorem pushBigint_eq (n : Int) : pushBigint n = tagged (intTag n) (intPayload n) := by
  unfold pushBigint intTag intPayload
  split <;> rw [writeTaggedUleb_eq]

def Item.wire : Item → Bytes
  | .value v => Calldata.wire v
  | .mapKey k => wireKey k

theorem flatMap_values (xs : List Tree) : (xs.map Item.value).flatMap Item.wire = wireList xs := by
  induction xs with
  | nil => rfl
  | cons x xs ih => rw [List.map_cons, List.flatMap_cons, ih]; rfl

theorem flatMap_entries (kvs : List (String × Tree)) :
    (kvs.flatMap fun kv => [Item.mapKey kv.1, .value kv.2]).flatMap Item.wire = wireEntries kvs := by
  induction kvs with
  | nil => rfl
  | cons kv kvs ih =>
    rw [List.flatMap_cons, List.flatMap_append, ih]
    simp [Item.wire, wireEntries]

theorem encodeTo_eq (stack : List Item) : encodeTo stack = stack.flatMap Item.wire := by
  fun_induction encodeTo stack with
  | case1 => rfl
  | case2 key stack ih => rw [ih, List.flatMap_cons]; simp [Item.wire, wireKey, pushMapK]
  | case3 stack ih => rw [ih]; rfl
  | case4 v stack ih => rw [ih]; rfl
  | case5 a stack ih => rw [ih]; rfl
  | case6 s stack ih => rw [ih, List.flatMap_cons]; simp [Item.wire, wire, pushStr]
  | case7 b stack ih => rw [ih, List.flatMap_cons]; simp [Item.wire, wire, pushBytes]
  | case8 n stack ih => rw [ih, List.flatMap_cons, pushBigint_eq]; rfl
  | case9 kvs stack ih =>
    rw [ih, pushEntries_eq, List.flatMap_append, flatMap_entries, List.flatMap_cons]
    simp [Item.wire, wire, startMap]
  | case10 xs stack ih =>
    rw [ih, pushValues_eq, List.flatMap_append, flatMap_values, List.flatMap_cons]
    simp [Item.wire, wire, startArray]

/-- **The encoder's output.** The stack machine writes the recursive format. -/
theorem encode_eq_wire (v : Tree) : encode v = wire v := by
  rw [encode, encodeTo_eq, List.flatMap_cons, List.flatMap_nil, List.append_nil]; rfl

end GenVM.Calldata
