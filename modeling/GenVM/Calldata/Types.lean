import GenVM.Lib.SortedMap
import GenVM.Lib.Utf8

/-!
# Calldata values (`calldata/src/types.rs`, `consts.rs`)

`Tree` is the shape of a calldata value with a map given by its entries in
iteration order. A `Value` is a tree all of whose maps are in the strictly
ascending byte order of a `BTreeMap<String, _>`.

`Tree.depth` counts nested containers, an empty one included: the decoders
refuse a container inside `max_depth` open ones before they look at its size.
-/
namespace GenVM.Calldata
open GenVM.Lib

abbrev Bytes := List UInt8

/-! ## Constants -/

def BITS_IN_TYPE : Nat := 3

def TYPE_SPECIAL : Nat := 0
def TYPE_PINT : Nat := 1
def TYPE_NINT : Nat := 2
def TYPE_BYTES : Nat := 3
def TYPE_STR : Nat := 4
def TYPE_ARR : Nat := 5
def TYPE_MAP : Nat := 6

def SPECIAL_NULL : Nat := 0
def SPECIAL_FALSE : Nat := 8
def SPECIAL_TRUE : Nat := 16
def SPECIAL_ADDR : Nat := 24

def ADDRESS_SIZE : Nat := 20

/-- mirrors executor/crates/calldata/src/types.rs:6 -/
structure Address where
  raw : Bytes
  size : raw.length = ADDRESS_SIZE
  deriving DecidableEq

theorem length_zeros_20 : (List.replicate 20 (0 : UInt8)).length = ADDRESS_SIZE := rfl

theorem length_zeros_32 : (List.replicate 32 (0 : UInt8)).length = 32 := rfl

/-! ## Trees -/

/-- mirrors executor/crates/calldata/src/types.rs:119-128 -/
inductive Tree where
  | null
  | address (a : Address)
  | bool (b : Bool)
  | str (s : String)
  | bytes (b : Bytes)
  | number (n : Int)
  | map (kvs : List (String × Tree))
  | array (xs : List Tree)

/-- The order of `String` keys: `str` compares its UTF-8 bytes. -/
def keyLt (a b : String) : Prop := Utf8.bytes a < Utf8.bytes b

instance : DecidableRel keyLt := fun a b => by unfold keyLt; infer_instance

theorem keyLt_iff (a b : String) : keyLt a b ↔ a < b := Utf8.bytes_lt_iff a b

theorem keyLt_order : SortedMap.StrictOrder keyLt where
  irrefl a := by rw [keyLt_iff]; exact lt_irrefl a
  trans a b c := by simp only [keyLt_iff]; exact lt_trans
  tri a b h1 h2 := by
    rw [keyLt_iff] at h1 h2
    exact le_antisymm (not_lt.mp h2) (not_lt.mp h1)

namespace Tree

mutual
def depth : Tree → Nat
  | array xs => depthList xs + 1
  | map kvs => depthEntries kvs + 1
  | _ => 0
def depthList : List Tree → Nat
  | [] => 0
  | x :: xs => max (depth x) (depthList xs)
def depthEntries : List (String × Tree) → Nat
  | [] => 0
  | (_, x) :: kvs => max (depth x) (depthEntries kvs)
end

mutual
/-- Every map is in ascending key order, without duplicates. -/
def Sorted : Tree → Prop
  | array xs => SortedList xs
  | map kvs => SortedMap.Sorted keyLt kvs ∧ SortedEntries kvs
  | _ => True
def SortedList : List Tree → Prop
  | [] => True
  | x :: xs => Sorted x ∧ SortedList xs
def SortedEntries : List (String × Tree) → Prop
  | [] => True
  | (_, x) :: kvs => Sorted x ∧ SortedEntries kvs
end

/-- Induction over the children of a container. -/
@[elab_as_elim]
theorem inductOn {P : Tree → Prop} (t : Tree) (null : P .null) (address : ∀ a, P (.address a))
    (bool : ∀ b, P (.bool b)) (str : ∀ s, P (.str s)) (bytes : ∀ b, P (.bytes b))
    (number : ∀ n, P (.number n)) (map : ∀ kvs, (∀ kv ∈ kvs, P kv.2) → P (.map kvs))
    (array : ∀ xs, (∀ x ∈ xs, P x) → P (.array xs)) : P t := by
  refine Tree.rec (motive_1 := P) (motive_2 := fun kvs => ∀ kv ∈ kvs, P kv.2)
    (motive_3 := fun xs => ∀ x ∈ xs, P x) (motive_4 := fun kv => P kv.2)
    null address bool str bytes number map array ?_ ?_ ?_ ?_ ?_ t
  · simp
  · intro kv kvs h hs; simpa using ⟨h, fun a b hab => hs (a, b) hab⟩
  · simp
  · intro x xs h hs; simpa using ⟨h, hs⟩
  · intro k x h; exact h

theorem depthList_le {n : Nat} : ∀ {xs : List Tree}, depthList xs ≤ n ↔ ∀ x ∈ xs, depth x ≤ n
  | [] => by simp [depthList]
  | x :: xs => by simp [depthList, @depthList_le n xs]

theorem depthEntries_le {n : Nat} :
    ∀ {kvs : List (String × Tree)}, depthEntries kvs ≤ n ↔ ∀ kv ∈ kvs, depth kv.2 ≤ n
  | [] => by simp [depthEntries]
  | (k, x) :: kvs => by simp [depthEntries, @depthEntries_le n kvs]

theorem sortedList_iff : ∀ {xs : List Tree}, SortedList xs ↔ ∀ x ∈ xs, Sorted x
  | [] => by simp [SortedList]
  | x :: xs => by simp [SortedList, @sortedList_iff xs]

theorem sortedEntries_iff :
    ∀ {kvs : List (String × Tree)}, SortedEntries kvs ↔ ∀ kv ∈ kvs, Sorted kv.2
  | [] => by simp [SortedEntries]
  | (k, x) :: kvs => by simp [SortedEntries, @sortedEntries_iff kvs]

end Tree

/-- A calldata value: the maps inside are `BTreeMap`s.
mirrors executor/crates/calldata/src/types.rs:116-128 -/
structure Value where
  tree : Tree
  sorted : tree.Sorted

end GenVM.Calldata
