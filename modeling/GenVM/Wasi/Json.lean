import Mathlib
import GenVM.Calldata.Types

/-!
# JSON answers as calldata (`executor/src/wasi/json_to_calldata.rs`)

`json_map_to_calldata` converts a JSON object without recursion: a stack of
frames holds the containers that are open, each with the items that are still to
come, what is built so far, and the key under which its own parent will keep it.
`Json.toCalldata` is the conversion by structural recursion.

**Results.**
* `value_steps`: the loop takes one item of the top frame, with its whole subtree.
* `json_map_to_calldata_eq`: the loop ends with the recursive conversion, and
  reaches no `expect` and no `unreachable!` on the way.
-/
namespace GenVM.JsonCalldata

open GenVM.Lib
open GenVM.Calldata (Tree keyLt keyLt_order)

/-- `serde_json::Number`: an integer of the `u64` or the `i64` range, or a float, of
which only the text is used. -/
inductive Number where
  | posInt (n : Nat) (h : n < 2 ^ 64)
  | negInt (n : Int) (h : -2 ^ 63 ≤ n ∧ n < 0)
  | float (text : String)

namespace Number

def as_i64 : Number → Option Int
  | posInt n _ => if n < 2 ^ 63 then some n else none
  | negInt n _ => some n
  | float _ => none

def as_u64 : Number → Option Nat
  | posInt n _ => some n
  | _ => none

def to_string : Number → String
  | posInt n _ => toString n
  | negInt n _ => toString n
  | float text => text

end Number

/-- `serde_json::Value`; an object by its entries in the order of iteration. -/
inductive Json where
  | null
  | bool (b : Bool)
  | number (n : Number)
  | string (s : String)
  | array (xs : List Json)
  | object (kvs : List (String × Json))

abbrev Entries := List (String × Tree)

/-- mirrors json_to_calldata.rs:5-16 -/
inductive Frame where
  | map (key_in_parent : String) (iter : List (String × Json)) (built : Entries)
  | array (key_in_parent : String) (iter : List Json) (built : List Tree)

/-- mirrors json_to_calldata.rs:18-33; a container is not a leaf -/
def leaf_to_calldata : Json → Option Tree
  | .null => some .null
  | .bool b => some (.bool b)
  | .string s => some (.str s)
  | .number n =>
    match n.as_i64 with
    | some i => some (.number i)
    | none =>
      match n.as_u64 with
      | some u => some (.number u)
      | none => some (.str n.to_string)
  | .array _ | .object _ => none

/-- mirrors json_to_calldata.rs:35-44 -/
def insert_into_parent (parent : Frame) (key : String) (value : Tree) : Frame :=
  match parent with
  | .map k iter built => .map k iter (SortedMap.insert keyLt key value built)
  | .array k iter built => .array k iter (built ++ [value])

/-- The next item of a frame, with its key in a map, and the frame behind it. -/
def Frame.next : Frame → Option ((Option String × Json) × Frame)
  | .map _ [] _ | .array _ [] _ => none
  | .map k ((key, v) :: iter) built => some ((some key, v), .map k iter built)
  | .array k (v :: iter) built => some ((none, v), .array k iter built)

/-- The key under which a frame is kept, and what it was built to. -/
def Frame.finish : Frame → String × Tree
  | .map k _ built => (k, .map built)
  | .array k _ built => (k, .array built)

/-- The loop with its stack, the top first; or its end. -/
inductive Loop where
  | running (stack : List Frame)
  | returned (m : Entries)
  | panicked

/-- One round of the loop, mirrors json_to_calldata.rs:57-111 -/
def round : List Frame → Loop
  | [] => .panicked
  | frame :: rest =>
    match frame.next with
    | none =>
      match rest with
      | [] =>
        match frame.finish.2 with
        | .map m => .returned m
        | _ => .panicked
      | parent :: rest =>
        .running (insert_into_parent parent frame.finish.1 frame.finish.2 :: rest)
    | some ((key_opt, value), frame) =>
      let key_in_parent := key_opt.getD ""
      match value with
      | .object m => .running (.map key_in_parent m [] :: frame :: rest)
      | .array a => .running (.array key_in_parent a [] :: frame :: rest)
      | leaf =>
        match leaf_to_calldata leaf with
        | some converted => .running (insert_into_parent frame key_in_parent converted :: rest)
        | none => .panicked

def Loop.round : Loop → Loop
  | .running stack => JsonCalldata.round stack
  | ended => ended

/-- mirrors json_to_calldata.rs:47-112, after a number of rounds -/
def json_map_to_calldata (rounds : Nat) (input : List (String × Json)) : Loop :=
  Loop.round^[rounds] (.running [.map "" input []])

/-! ## By recursion -/

/-- Integers are kept exactly, other numbers as their text. -/
def Number.toCalldata : Number → Tree
  | .posInt n _ => .number n
  | .negInt n _ => .number n
  | .float text => .str text

mutual

def Json.toCalldata : Json → Tree
  | .null => .null
  | .bool b => .bool b
  | .number n => n.toCalldata
  | .string s => .str s
  | .array xs => .array (toCalldatas xs)
  | .object kvs => .map (SortedMap.ofList keyLt (toEntries kvs))

def toCalldatas : List Json → List Tree
  | [] => []
  | x :: xs => x.toCalldata :: toCalldatas xs

def toEntries : List (String × Json) → Entries
  | [] => []
  | (k, v) :: kvs => (k, v.toCalldata) :: toEntries kvs

end

theorem leaf_number (n : Number) : leaf_to_calldata (.number n) = some n.toCalldata := by
  cases n with
  | posInt n h =>
    by_cases hn : n < 2 ^ 63
    · simp only [leaf_to_calldata, Number.as_i64, if_pos hn, Number.toCalldata]
    · simp only [leaf_to_calldata, Number.as_i64, Number.as_u64, if_neg hn, Number.toCalldata]
  | negInt n h => rfl
  | float text => rfl

/-! ## Rounds of the loop -/

/-- The loop comes from one state to another. -/
def Steps (a b : Loop) : Prop := ∃ n, Loop.round^[n] a = b

theorem Steps.refl (a : Loop) : Steps a a := ⟨0, rfl⟩

theorem Steps.trans {a b c : Loop} : Steps a b → Steps b c → Steps a c := by
  rintro ⟨n, rfl⟩ ⟨m, rfl⟩
  exact ⟨m + n, Function.iterate_add_apply _ m n a⟩

theorem Steps.one {a b : Loop} (h : a.round = b) : Steps a b := ⟨1, h⟩

/-- A finished frame is kept by its parent. -/
theorem finish_step {frame parent : Frame} (hn : frame.next = none) (rest : List Frame) :
    Steps (.running (frame :: parent :: rest))
      (.running (insert_into_parent parent frame.finish.1 frame.finish.2 :: rest)) := by
  refine .one ?_
  simp only [Loop.round, round, hn]

mutual

/-- The next item of a frame is taken with its whole subtree. -/
theorem value_steps (v : Json) {frame frame' : Frame} {key : Option String}
    (hn : frame.next = some ((key, v), frame')) (rest : List Frame) :
    Steps (.running (frame :: rest))
      (.running (insert_into_parent frame' (key.getD "") v.toCalldata :: rest)) := by
  match v, hn with
  | .null, hn | .bool _, hn | .string _, hn =>
    refine .one ?_
    simp only [Loop.round, round, hn, leaf_to_calldata, Json.toCalldata]
  | .number n, hn =>
    refine .one ?_
    simp only [Loop.round, round, hn, leaf_number, Json.toCalldata]
  | .array xs, hn =>
    have opened : Steps (.running (frame :: rest))
        (.running (.array (key.getD "") xs [] :: frame' :: rest)) := by
      refine .one ?_
      simp only [Loop.round, round, hn]
    have filled := items_steps xs (key.getD "") [] (frame' :: rest)
    exact (opened.trans filled).trans (finish_step rfl rest)
  | .object kvs, hn =>
    have opened : Steps (.running (frame :: rest))
        (.running (.map (key.getD "") kvs [] :: frame' :: rest)) := by
      refine .one ?_
      simp only [Loop.round, round, hn]
    have filled := entries_steps kvs (key.getD "") [] (frame' :: rest)
    exact (opened.trans filled).trans (finish_step rfl rest)

theorem items_steps (xs : List Json) (key : String) (built : List Tree) (rest : List Frame) :
    Steps (.running (.array key xs built :: rest))
      (.running (.array key [] (built ++ toCalldatas xs) :: rest)) := by
  match xs with
  | [] =>
    rw [toCalldatas, List.append_nil]
    exact .refl _
  | x :: xs =>
    have hnext : (Frame.array key (x :: xs) built).next = some ((none, x), .array key xs built) := rfl
    have first := value_steps x hnext rest
    have others := items_steps xs key (built ++ [x.toCalldata]) rest
    rw [toCalldatas, List.append_cons]
    exact first.trans others

theorem entries_steps (kvs : List (String × Json)) (key : String) (built : Entries)
    (rest : List Frame) :
    Steps (.running (.map key kvs built :: rest))
      (.running (.map key []
        ((toEntries kvs).foldl (fun m kv => SortedMap.insert keyLt kv.1 kv.2 m) built) :: rest)) := by
  match kvs with
  | [] => exact .refl _
  | (k, v) :: kvs =>
    have hnext : (Frame.map key ((k, v) :: kvs) built).next = some ((some k, v), .map key kvs built) := rfl
    have first := value_steps v hnext rest
    have others := entries_steps kvs key (SortedMap.insert keyLt k v.toCalldata built) rest
    rw [toEntries, List.foldl_cons]
    exact first.trans others

end

/-- An end is not left. -/
theorem returned_iterate (m : Entries) (n : Nat) :
    Loop.round^[n] (.returned m) = .returned m :=
  Function.iterate_fixed rfl n

theorem panicked_iterate (n : Nat) : Loop.round^[n] .panicked = .panicked :=
  Function.iterate_fixed rfl n

/-- For every JSON map the loop ends, without a panic, with the map that the
recursion gives. -/
theorem json_map_to_calldata_eq (input : List (String × Json)) :
    (∃ rounds, json_map_to_calldata rounds input =
      .returned (SortedMap.ofList keyLt (toEntries input))) ∧
    ∀ rounds, json_map_to_calldata rounds input ≠ .panicked := by
  have filled := entries_steps input "" [] []
  have ended : Steps (.running [.map "" [] (SortedMap.ofList keyLt (toEntries input))])
      (.returned (SortedMap.ofList keyLt (toEntries input))) := .one rfl
  obtain ⟨n, hn⟩ := filled.trans ended
  refine ⟨⟨n, hn⟩, fun r hr => ?_⟩
  unfold json_map_to_calldata at hr
  -- both ends would be reached after `n + r` rounds
  have h₁ := Function.iterate_add_apply Loop.round n r (.running [.map "" input []])
  have h₂ := Function.iterate_add_apply Loop.round r n (.running [.map "" input []])
  rw [hr, panicked_iterate] at h₁
  rw [hn, returned_iterate, Nat.add_comm r n, h₁] at h₂
  cases h₂

end GenVM.JsonCalldata
