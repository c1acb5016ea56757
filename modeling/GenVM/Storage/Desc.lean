import GenVM.Lib.SlotTree

/-!
# Type descriptions and what they copy

Every storage type of the Python library is described by the bytes it takes
in its slot, the actions that copy it and how a value is read and assigned
(runners/genlayer-py-std/src/genlayer/storage: core.py, array.py,
dyn_array.py, _internal/desc_base_types.py, _internal/desc_record.py,
_internal/generate.py). A view is a slot and an offset, so `desc.set(dst,
desc.get(src))` is `assign`. A `TreeMap` is a record of a number and two
`DynArray`s, and needs no description of its own. `str` is read as its UTF-8
bytes; the numbers written in four bytes are taken modulo `2 ^ 32`, where the
library raises.
-/
namespace GenVM.Storage

open ByteMem SlotTree

abbrev Byte := Fin 256

/-- What a reader of a place sees. -/
inductive Val where
  | bytes (b : List Byte)
  | bool (b : Bool)
  | int (i : Int)
  | list (vs : List Val)

section Code

variable {S : Type} [DecidableEq S] (indirect : S → Nat → S)

def read (m : Mem S) (s : S) (off n : Nat) : List Byte := (List.range n).map fun i => m s (off + i)

def write (m : Mem S) (s : S) (off : Nat) (b : List Byte) : Mem S := fun s' o =>
  if s' = s ∧ off ≤ o ∧ o < off + b.length then b.getD (o - off) 0 else m s' o

/-! ## Integers of any length -/

/-- `int.from_bytes(val, 'little', signed=True)` -/
def fromBytes (b : List Byte) : Int :=
  let u : Nat := Nat.ofDigits 256 (b.map Fin.val)
  if 2 * u < 256 ^ b.length then u else (u : Int) - (256 ^ b.length : Nat)

/-- `val.to_bytes(n, 'little', signed=True)` of a number that fits. -/
def toBytes (n : Nat) (i : Int) : List Byte :=
  (List.range n).map (byteAt (i % (256 ^ n : Nat)).toNat)

/-- `log256`, mirrors desc_base_types.py:188-194 -/
def bigintSize (i : Int) : Nat := 2 + (Nat.digits 256 i.natAbs).length

/-! ## Copy actions -/

/-- mirrors core.py:150-158: a `memcpy`, or a hook with the bytes it covers. -/
inductive Action (S : Type) where
  | bytes (n : Nat)
  | hook (covered : Nat) (copy : Mem S → S → Nat → S → Nat → Mem S)

def Action.covers : Action S → Nat
  | .bytes n => n
  | .hook n _ => n

/-- The bytes a list of actions covers. -/
def span (acts : List (Action S)) : Nat := (acts.map Action.covers).sum

/-- mirrors core.py:161-186; `copy` of a hook takes the source first. -/
def applyCopy : List (Action S) → Mem S → S → Nat → S → Nat → Mem S
  | [], m, _, _, _, _ => m
  | .bytes n :: acts, m, dst, dstOff, src, srcOff =>
    applyCopy acts (write m dst dstOff (read m src srcOff n)) dst (dstOff + n) src (srcOff + n)
  | .hook n copy :: acts, m, dst, dstOff, src, srcOff =>
    applyCopy acts (copy m src srcOff dst dstOff) dst (dstOff + n) src (srcOff + n)

/-- mirrors core.py:189-200 -/
def actionsAppend (l r : List (Action S)) : List (Action S) :=
  match l.getLast?, r with
  | some (.bytes a), .bytes b :: rest => l.dropLast ++ .bytes (a + b) :: rest
  | _, _ => l ++ r

/-! ## Descriptions -/

/-- mirrors core.py:203-240; `get` is what a reader sees at the place, `assign`
is `set` of what `get` gives at another one. -/
structure Desc (S : Type) where
  size : Nat
  actions : List (Action S)
  get : Mem S → S → Nat → Val
  assign : Mem S → S → Nat → S → Nat → Mem S

/-- Integers of a fixed width, floats, addresses and `None`, mirrors
desc_base_types.py:25-93 and generate.py:149-161. -/
def fixedDesc (n : Nat) : Desc S where
  size := n
  actions := [.bytes n]
  get m s off := .bytes (read m s off n)
  assign m dst dstOff src srcOff := write m dst dstOff (read m src srcOff n)

/-- mirrors desc_base_types.py:9-19 -/
def boolDesc : Desc S where
  size := 1
  actions := [.bytes 1]
  get m s off := .bool (m s off != 0)
  assign m dst dstOff src srcOff := write m dst dstOff [if m src srcOff != 0 then 1 else 0]

/-- mirrors desc_base_types.py:96-109 -/
def copyStrBytes (m : Mem S) (src : S) (srcOff : Nat) (dst : S) (dstOff : Nat) : Mem S :=
  let le := load m src srcOff 4
  let m := store m dst dstOff 4 le
  write m (indirect dst dstOff) 0 (read m (indirect src srcOff) 0 le)

/-- The contents behind the length, mirrors desc_base_types.py:129-132. -/
def contents (m : Mem S) (s : S) (off : Nat) : List Byte :=
  read m (indirect s off) 0 (load m s off 4)

/-- mirrors desc_base_types.py:134-138 -/
def setContents (m : Mem S) (s : S) (off : Nat) (enc : List Byte) : Mem S :=
  write (store m s off 4 enc.length) (indirect s off) 0 enc

/-- `str` and `bytes`, mirrors desc_base_types.py:115-176. -/
def strBytesDesc : Desc S where
  size := 4
  actions := [.hook 4 (copyStrBytes indirect)]
  get m s off := .bytes (contents indirect m s off)
  assign m dst dstOff src srcOff := setContents indirect m dst dstOff (contents indirect m src srcOff)

/-- mirrors desc_base_types.py:179-197 -/
def bigintDesc : Desc S where
  size := 4
  actions := [.hook 4 (copyStrBytes indirect)]
  get m s off := .int (fromBytes (contents indirect m s off))
  assign m dst dstOff src srcOff :=
    let i := fromBytes (contents indirect m src srcOff)
    setContents indirect m dst dstOff (toBytes (bigintSize i) i)

/-- The fields of a record one after the other, mirrors generate.py:397-421. -/
def readFields : List (Desc S) → Mem S → S → Nat → List Val
  | [], _, _, _ => []
  | d :: ds, m, s, off => d.get m s off :: readFields ds m s (off + d.size)

def fieldsActions (ds : List (Desc S)) : List (Action S) :=
  ds.foldl (fun l d => actionsAppend l d.actions) []

/-- mirrors generate.py:389-424 and desc_record.py:32-46 -/
def recordDesc (ds : List (Desc S)) : Desc S where
  size := (ds.map Desc.size).sum
  actions := fieldsActions ds
  get m s off := .list (readFields ds m s off)
  assign m dst dstOff src srcOff := applyCopy (fieldsActions ds) m dst dstOff src srcOff

/-- `item` `n` times, `stride` bytes apart. -/
def readItems (item : Desc S) (m : Mem S) (s : S) (off n : Nat) : List Val :=
  (List.range n).map fun i => item.get m s (off + i * item.size)

/-- mirrors array.py:105-132 -/
def arrayDesc (item : Desc S) (n : Nat) : Desc S where
  size := n * item.size
  actions := (List.range n).foldl (fun l _ => actionsAppend l item.actions) []
  get m s off := .list (readItems item m s off n)
  assign m dst dstOff src srcOff :=
    applyCopy ((List.range n).foldl (fun l _ => actionsAppend l item.actions) [])
      m dst dstOff src srcOff

/-- The loop over the elements, mirrors dyn_array.py:273-275. -/
def copyItems (acts : List (Action S)) : Nat → Mem S → S → Nat → S → Nat → Mem S
  | 0, m, _, _, _, _ => m
  | n + 1, m, dst, dstOff, src, srcOff =>
    copyItems acts n (applyCopy acts m dst dstOff src srcOff) dst (dstOff + span acts)
      src (srcOff + span acts)

/-- mirrors dyn_array.py:263-276 -/
def copyDyn (item : Desc S) (m : Mem S) (src : S) (srcOff : Nat) (dst : S) (dstOff : Nat) : Mem S :=
  let le := load m src srcOff 4
  let m := store m dst dstOff 4 le
  match item.actions with
  | [.bytes k] => write m (indirect dst dstOff) 0 (read m (indirect src srcOff) 0 (k * le))
  | acts => copyItems acts le m (indirect dst dstOff) 0 (indirect src srcOff) 0

/-- mirrors dyn_array.py:256-289 -/
def dynDesc (item : Desc S) : Desc S where
  size := 4
  actions := [.hook 4 (copyDyn indirect item)]
  get m s off := .list (readItems item m (indirect s off) 0 (load m s off 4))
  assign m dst dstOff src srcOff := copyDyn indirect item m src srcOff dst dstOff

/-- mirrors core.py:335-339 -/
def copyIndirection (item : Desc S) (m : Mem S) (src : S) (srcOff : Nat) (dst : S) (dstOff : Nat) :
    Mem S := item.assign m (indirect dst dstOff) 0 (indirect src srcOff) 0

/-- mirrors core.py:325-339 -/
def indirectionDesc (item : Desc S) : Desc S where
  size := 1
  actions := [.hook 1 (copyIndirection indirect item)]
  get m s off := item.get m (indirect s off) 0
  assign m dst dstOff src srcOff := copyIndirection indirect item m src srcOff dst dstOff

/-- `append` of the element `i` of another array, mirrors core.py:403-413. -/
def appendItem (item : Desc S) (m : Mem S) (dst : S) (dstOff : Nat) (src : S) (srcOff i : Nat) :
    Mem S :=
  let le := load m dst dstOff 4
  store (item.assign m dst (dstOff + 4 + le * item.size) src (srcOff + 4 + i * item.size))
    dst dstOff 4 (le + 1)

/-- `dst.assign(src)`: the destination is truncated, then the source is read;
mirrors core.py:433-450 and 491-497. -/
def copyVla (item : Desc S) (m : Mem S) (src : S) (srcOff : Nat) (dst : S) (dstOff : Nat) : Mem S :=
  let m := store m dst dstOff 4 0
  (List.range (load m src srcOff 4)).foldl
    (fun m i => appendItem item m dst dstOff src srcOff i) m

def vlaSize : Nat := 2 ^ 32 - 1

/-- mirrors core.py:481-497 -/
def vlaDesc (item : Desc S) : Desc S where
  size := vlaSize
  actions := [.hook vlaSize (copyVla item)]
  get m s off := .list (readItems item m s (off + 4) (load m s off 4))
  assign m dst dstOff src srcOff := copyVla item m src srcOff dst dstOff

/-! ## Types -/

/-- mirrors `_known_descs` and `_storage_build_impl`, generate.py:135-345 -/
inductive Ty where
  | fixed (n : Nat)
  | bool
  | strBytes
  | bigint
  | record (fields : List Ty)
  | array (item : Ty) (n : Nat)
  | dynArray (item : Ty)
  | indirection (item : Ty)
  | vla (item : Ty)

mutual
def build : Ty → Desc S
  | .fixed n => fixedDesc n
  | .bool => boolDesc
  | .strBytes => strBytesDesc indirect
  | .bigint => bigintDesc indirect
  | .record fields => recordDesc (buildAll fields)
  | .array item n => arrayDesc (build item) n
  | .dynArray item => dynDesc indirect (build item)
  | .indirection item => indirectionDesc indirect (build item)
  | .vla item => vlaDesc (build item)

def buildAll : List Ty → List (Desc S)
  | [] => []
  | t :: ts => build t :: buildAll ts
end

end Code

end GenVM.Storage
