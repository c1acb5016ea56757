import GenVM.Lib.Moves
import GenVM.Lib.PySlice

/-!
# Python `DynArray` against a Python list

`DynArray` keeps its length in four bytes and its items in the indirected
slot, one after the other; here the items are a function of their index and
an item of a record type that is read from the array is a live view of its
index, so a sequence on the right-hand side may mix fresh values and views
(runners/genlayer-py-std/src/genlayer/storage/dyn_array.py). An operation
that raises ends the run.

The operations of the source come first, then a list under the same
operations, then `Meets` and `Kept`: when one operation does to the array what
it does to the list. `DynArrayRefine` proves that it does.
-/
namespace GenVM.Storage

open Moves PySlice

structure DynArray (V : Type) where
  len : Nat
  items : Nat → V

namespace DynArray

inductive Err where
  | indexError
  | stopIteration
  | overflow
  | emptyPop
  | zeroStep
  deriving DecidableEq, Repr

/-- An item on the right-hand side: a value, or a view of an item of this array. -/
abbrev Item (V : Type) := Src Nat V

/-- A sequence on the right-hand side; `self` is the array itself, read as it is iterated. -/
inductive Rhs (V : Type) where
  | items (xs : List (Item V))
  | self

variable {V : Type}

/-- What the array relies on of its `_item_desc`: how many items of its size
a slot can address, and what is left of an item that is assigned to itself
(the item, but for types with a `VLA` inside). -/
structure ItemDesc (V : Type) where
  cap : Nat
  selfSet : V → V

/-- What the array reads as. -/
def contents (a : DynArray V) : List V := (List.range a.len).map a.items

/-- The items of a sequence: `self` is iterated by `self[i]`. -/
def Rhs.toList (rhs : Rhs V) (len : Nat) : List (Item V) :=
  match rhs with
  | .items xs => xs
  | .self => (List.range len).map Src.slot

/-! ## Source functions -/

section Code

variable (desc : ItemDesc V)

/-- `_u32_desc.set(self._storage_slot, self._off, n)` -/
def setLen (a : DynArray V) (n : Int) : Except Err (DynArray V) :=
  if 0 ≤ n ∧ n < 2 ^ 32 then .ok { a with len := n.toNat } else .error .overflow

/-- `_item_desc.set(items_at, i * size, x)` -/
def itemSet (a : DynArray V) (i : Int) (x : Item V) : Except Err (DynArray V) :=
  if 0 ≤ i ∧ i < desc.cap then
    let v := match x with
      | .value v => v
      | .slot j => if j = i.toNat then desc.selfSet (a.items j) else a.items j
    .ok { a with items := Function.update a.items i.toNat v }
  else .error .overflow

/-- mirrors dyn_array.py:37-43 -/
def mapIndex (len : Nat) (idx : Int) : Except Err Nat :=
  let idx := if idx < 0 then idx + len else idx
  if idx < 0 ∨ idx ≥ len then .error .indexError else .ok idx.toNat

/-- `self[idx]`, mirrors dyn_array.py:58-61 -/
def getInt (a : DynArray V) (idx : Int) : Except Err V :=
  (mapIndex a.len idx).map a.items

/-- The loop of `__getitem__` over a slice, mirrors dyn_array.py:66-68: a
step towards `stop`, so at most `|stop - start|` turns. -/
def getLoop (a : DynArray V) (stop step : Int) : Nat → Int → Except Err (List V)
  | 0, _ => .ok []
  | fuel + 1, start =>
    let sign : Int := if step ≥ 0 then 1 else -1
    if start * sign < stop * sign then do
      let x ← getInt a start
      let xs ← getLoop a stop step fuel (start + step)
      .ok (x :: xs)
    else .ok []

/-- mirrors dyn_array.py:63-69 -/
def getSlice (a : DynArray V) (s : Slice) : Except Err (List V) :=
  match s.indices a.len with
  | none => .error .zeroStep
  | some (start, stop, step) => getLoop a stop step (stop - start).natAbs start

/-- mirrors dyn_array.py:127-135 -/
def sliceToIdx (s : Slice) (len : Nat) : Except Err (Int × Int × Int) :=
  match s.indices len with
  | none => .error .zeroStep
  | some (start, stop, step) =>
    if step < 0 then
      let step := step * -1
      let (start, stop) := (stop, start)
      let start := stop - (stop - start - 1) / step * step
      .ok (start, stop + 1, step)
    else .ok (start, stop, step)

/-- `self[idx] = x`, mirrors dyn_array.py:86-90 -/
def setInt (a : DynArray V) (idx : Int) (x : Item V) : Except Err (DynArray V) := do
  let i ← mapIndex a.len idx
  itemSet desc a i x

/-- The loop of `__delitem__`, mirrors dyn_array.py:159-166: `is` are the
indices still to visit. -/
def compact (stop step : Int) :
    List Nat → Int → Nat → DynArray V → Except Err (DynArray V × Nat)
  | [], _, insertIdx, a => .ok (a, insertIdx)
  | i :: is, nextDeletion, insertIdx, a =>
    if (i : Int) = nextDeletion then
      let next := (i : Int) + step
      compact stop step is (if next ≥ stop then -1 else next) insertIdx a
    else do
      let a ← setInt desc a insertIdx (.slot i)
      compact stop step is nextDeletion (insertIdx + 1) a

/-- mirrors dyn_array.py:155-167 -/
def delRange (a : DynArray V) (start stop step : Int) : Except Err (DynArray V) :=
  if stop ≤ start then .ok a
  else do
    let (a, insertIdx) ←
      compact desc stop step (List.range' start.toNat (a.len - start.toNat)) start start.toNat a
    setLen a insertIdx

/-- `del self[idx]`, mirrors dyn_array.py:149-152 -/
def delInt (a : DynArray V) (idx : Int) : Except Err (DynArray V) := do
  let start ← mapIndex a.len idx
  delRange desc a start (start + 1) 1

/-- `del self[s]`, mirrors dyn_array.py:153-154 -/
def delSlice (a : DynArray V) (s : Slice) : Except Err (DynArray V) := do
  let (start, stop, step) ← sliceToIdx s a.len
  delRange desc a start stop step

/-- "just reassign existing values", mirrors dyn_array.py:102-103 -/
def overwrite (start step : Int) : List (Item V) → DynArray V → Except Err (DynArray V)
  | [], a => .ok a
  | x :: xs, a => do
    let a ← setInt desc a start x
    overwrite (start + step) step xs a

/-- "move current to the right", mirrors dyn_array.py:117-120: `n` items
from `start` on, the last one first. -/
def shift (start : Int) (width : Int) : Nat → DynArray V → Except Err (DynArray V)
  | 0, a => .ok a
  | n + 1, a => do
    let i ← mapIndex a.len (start + n)
    let a ← itemSet desc a (start + n + width) (.slot i)
    shift start width n a

/-- mirrors dyn_array.py:121-124: `next` raises where the sequence has ended -/
def fill (start : Int) : Nat → List (Item V) → DynArray V → Except Err (DynArray V)
  | 0, _, a => .ok a
  | _ + 1, [], _ => .error .stopIteration
  | n + 1, x :: xs, a => do
    let a ← itemSet desc a start x
    fill (start + 1) n xs a

/-- mirrors dyn_array.py:113-125 -/
def insertRest (a : DynArray V) (start leftInNew : Int) (rest : List (Item V)) :
    Except Err (DynArray V) := do
  let a ← shift desc start leftInNew ((a.len : Int) - start).toNat a
  let a ← fill desc start leftInNew.toNat rest a
  setLen a (a.len + leftInNew)

/-- mirrors dyn_array.py:98-125 -/
def setRange (a : DynArray V) (start stop step : Int) (newVal : List (Item V)) :
    Except Err (DynArray V) := do
  let leftInNew : Int := newVal.length
  let leftInRange := (stop - start) / step
  let common := min leftInNew leftInRange
  let a ← overwrite desc start step (newVal.take common.toNat) a
  let start := start + common
  let leftInRange := leftInRange - common
  let leftInNew := leftInNew - common
  if leftInRange > 0 then delSlice desc a ⟨some start, some stop, some step⟩
  else if leftInNew > 0 then insertRest desc a start leftInNew (newVal.drop common.toNat)
  else .ok a

/-- `self[s] = rhs`, mirrors dyn_array.py:92-125 -/
def setSlice (a : DynArray V) (s : Slice) (rhs : Rhs V) : Except Err (DynArray V) := do
  let (start, stop, step) ← sliceToIdx s a.len
  let newVal := rhs.toList a.len
  let newVal := if s.step.getD 1 < 0 then newVal.reverse else newVal
  setRange desc a start stop step newVal

/-- mirrors dyn_array.py:179-181 -/
def assignLoop : Nat → List (Item V) → DynArray V → Except Err (DynArray V)
  | _, [], a => .ok a
  | idx, x :: xs, a => do
    let a ← itemSet desc a idx x
    assignLoop (idx + 1) xs a

/-- mirrors dyn_array.py:169-183: the length is zero before `arr` is looked at -/
def assign (a : DynArray V) (arr : Rhs V) : Except Err (DynArray V) := do
  let a ← setLen a 0
  let xs := arr.toList a.len
  let a ← assignLoop desc 0 xs a
  setLen a xs.length

/-- mirrors dyn_array.py:196-197: `self[i] = self[i - 1]` for the `n` indices above `index` -/
def insertLoop (index : Nat) : Nat → DynArray V → Except Err (DynArray V)
  | 0, a => .ok a
  | n + 1, a => do
    let j ← mapIndex a.len ((index : Int) + n)
    let a ← setInt desc a ((index : Int) + n + 1) (.slot j)
    insertLoop index n a

/-- mirrors dyn_array.py:185-198 -/
def insert (a : DynArray V) (index : Int) (value : Item V) : Except Err (DynArray V) := do
  let index ← mapIndex a.len index
  let oldLen := a.len
  let a ← setLen a (oldLen + 1)
  let a ← insertLoop desc index (oldLen - index) a
  setInt desc a index value

/-- mirrors dyn_array.py:204-213 -/
def append (a : DynArray V) (value : Item V) : Except Err (DynArray V) := do
  let le := a.len
  let a ← setLen a (le + 1)
  itemSet desc a le value

/-- mirrors dyn_array.py:226-235 -/
def pop (a : DynArray V) : Except Err (DynArray V) :=
  if a.len = 0 then .error .emptyPop else setLen a ((a.len : Int) - 1)

/-- mirrors dyn_array.py:249-253 -/
def clear (a : DynArray V) : Except Err (DynArray V) := setLen a 0

end Code

/-! ## Operations and runs -/

/-- One operation on an array or on a list. -/
inductive Op (V : Type) where
  | append (x : Item V)
  | insert (index : Int) (x : Item V)
  | pop
  | clear
  | assign (rhs : Rhs V)
  | get (i : Int)
  | getSlice (s : Slice)
  | set (i : Int) (x : Item V)
  | setSlice (s : Slice) (rhs : Rhs V)
  | del (i : Int)
  | delSlice (s : Slice)

/-- What a read returns. -/
inductive Ret (V : Type) where
  | unit
  | item (v : V)
  | list (xs : List V)
  deriving DecidableEq, Repr

/-- The array under one operation; an operation that raises ends the run. -/
def step (desc : ItemDesc V) (a : DynArray V) : Op V → Except Err (DynArray V × Ret V)
  | .append x => (append desc a x).map (·, .unit)
  | .insert i x => (insert desc a i x).map (·, .unit)
  | .pop => (pop a).map (·, .unit)
  | .clear => (clear a).map (·, .unit)
  | .assign rhs => (assign desc a rhs).map (·, .unit)
  | .get i => (getInt a i).map (a, .item ·)
  | .getSlice s => (getSlice a s).map (a, .list ·)
  | .set i x => (setInt desc a i x).map (·, .unit)
  | .setSlice s rhs => (setSlice desc a s rhs).map (·, .unit)
  | .del i => (delInt desc a i).map (·, .unit)
  | .delSlice s => (delSlice desc a s).map (·, .unit)

def run (desc : ItemDesc V) (a : DynArray V) : List (Op V) → Except Err (DynArray V × List (Ret V))
  | [] => .ok (a, [])
  | op :: ops => do
    let (a, r) ← step desc a op
    let (a, rs) ← run desc a ops
    .ok (a, r :: rs)

/-! ## The list under the same operations -/

/-- The element a list index names. -/
def listIndex (len : Nat) (i : Int) : Option Nat :=
  let i := if i < 0 then i + len else i
  if 0 ≤ i ∧ i < len then some i.toNat else none

/-- An item as an element: a view is the element it was taken from. -/
def listItem (l : List V) : Item V → Option V
  | .value v => some v
  | .slot i => l[i]?

def listRhs (l : List V) : Rhs V → Option (List V)
  | .items xs => xs.mapM (listItem l)
  | .self => some l

/-- A list under one operation; `none` where a list does not accept it (an
insertion is at an existing index). -/
def listStep (l : List V) : Op V → Option (List V × Ret V)
  | .append x => (listItem l x).map fun v => (l ++ [v], .unit)
  | .insert i x => (listIndex l.length i).bind fun k =>
      (listItem l x).map fun v => (l.take k ++ v :: l.drop k, .unit)
  | .pop => if l = [] then none else some (l.dropLast, .unit)
  | .clear => some ([], .unit)
  | .assign rhs => (listRhs l rhs).map (·, .unit)
  | .get i => (listIndex l.length i).bind fun k => l[k]?.map fun v => (l, .item v)
  | .getSlice s => (PySlice.getSlice l s).map fun vs => (l, .list vs)
  | .set i x => (listIndex l.length i).bind fun k =>
      (listItem l x).map fun v => (l.set k v, .unit)
  | .setSlice s rhs => (listRhs l rhs).bind fun vs => (PySlice.setSlice l s vs).map (·, .unit)
  | .del i => (listIndex l.length i).map fun k => (l.take k ++ l.drop (k + 1), .unit)
  | .delSlice s => (PySlice.delSlice l s).map (·, .unit)

def listRun (l : List V) : List (Op V) → Option (List V × List (Ret V))
  | [] => some (l, [])
  | op :: ops => do
    let (l, r) ← listStep l op
    let (l, rs) ← listRun l ops
    some (l, r :: rs)

/-! ## When the array follows the list -/

/-- `n` items fit the four-byte length and the addressable part of the slot. -/
def Holds (cap : Nat) (n : Int) : Prop := n < 2 ^ 32 ∧ n ≤ cap

instance (cap : Nat) (n : Int) : Decidable (Holds cap n) :=
  inferInstanceAs (Decidable (n < 2 ^ 32 ∧ n ≤ cap))

/-- The slice selects `(stop - start) / step` items after normalisation. -/
def Exact (start stop step : Int) : Prop :=
  if 0 < step then start ≤ stop ∧ step ∣ stop - start else step = -1 ∧ stop ≤ start

instance (start stop step : Int) : Decidable (Exact start stop step) :=
  inferInstanceAs (Decidable
    (if 0 < step then start ≤ stop ∧ step ∣ stop - start else step = -1 ∧ stop ≤ start))

/-- Every view on the right-hand side is read before its index is written:
the `i`-th item goes to `start + i * step`, and items past the `n`-th are
written after everything from the end of the slice on has been moved. -/
def Intact (start step n : Int) (newVal : List (Item V)) : Prop :=
  ∀ i j : Nat, newVal[i]? = some (.slot j) →
    (∀ i' : Nat, i' < i → (j : Int) ≠ start + i' * step) ∧
      (n ≤ i → (j : Int) < start + newVal.length)

/-- The condition under which the array does what a list of `len` elements does. -/
def Meets (cap len : Nat) : Op V → Prop
  | .append _ => Holds cap (len + 1)
  | .insert i x => Holds cap (len + 1) ∧
      ∀ j : Nat, x = .slot j → (j : Int) ≤ if i < 0 then i + len else i
  | .assign rhs =>
    match rhs with
    | .items xs => Holds cap xs.length ∧ ∀ i j : Nat, xs[i]? = some (.slot j) → i ≤ j
    | .self => len = 0
  | .setSlice s rhs => ∀ start stop step, s.indices len = some (start, stop, step) →
      Exact start stop step ∧
      ∀ b e k, sliceToIdx s len = .ok (b, e, k) →
        Holds cap (len + (rhs.toList len).length - (e - b) / k) ∧
        Intact b k ((e - b) / k)
          (if s.step.getD 1 < 0 then (rhs.toList len).reverse else rhs.toList len)
  | _ => True

/-- The operation assigns the item `j` to itself. -/
def AssignsSelf (len j : Nat) : Op V → Prop
  | .insert i x | .set i x => x = .slot j ∧ mapIndex len i = .ok j
  | .assign rhs => (rhs.toList 0)[j]? = some (.slot j)
  | .setSlice s rhs => ∃ b e k, sliceToIdx s len = .ok (b, e, k) ∧ ∃ i : Nat, (j : Int) = b + i * k ∧
      (if s.step.getD 1 < 0 then (rhs.toList len).reverse else rhs.toList len)[i]? = some (.slot j)
  | _ => False

/-- What the operation assigns to itself stays as it is. -/
def Kept (desc : ItemDesc V) (l : List V) (op : Op V) : Prop :=
  ∀ j v, AssignsSelf l.length j op → l[j]? = some v → desc.selfSet v = v

/-- Every operation of the run meets the condition at the list it finds. -/
def AllMeet (desc : ItemDesc V) : List V → List (Op V) → Prop
  | _, [] => True
  | l, op :: ops => Meets desc.cap l.length op ∧ Kept desc l op ∧
      ∀ l' r, listStep l op = some (l', r) → AllMeet desc l' ops

end DynArray
end GenVM.Storage
