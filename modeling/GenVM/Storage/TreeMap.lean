import GenVM.Lib.Agree

/-!
# The storage AVL map, in Rust and in Python

`TreeMap` keeps its nodes in a pool of slots and links them by 1-based
indices; freed slots are kept on a stack. The two SDKs implement it over the
same fields (executor/crates/sdk-rs/src/storage/tree_map.rs and
runners/genlayer-py-std/src/genlayer/storage/tree_map.py); what both write
down alike is stated once, over how a node index is checked, and each SDK
applies it to its own check. A path is a list, its last entry where the walk
stands; a loop of the source runs on fuel.
-/
namespace GenVM.Storage.TreeMap

open Agree (Prog)

inductive Err where
  | panicked
  | raised
  | diverged
  deriving DecidableEq, Repr

abbrev M (σ α : Type) := Prog σ Err α

/-- A typed field of the storage: reading and writing it. -/
structure Cell (σ α : Type) where
  get : σ → Except Err α
  set : α → σ → Except Err σ

def Cell.read {σ α : Type} (c : Cell σ α) : M σ α := fun s => (c.get s).map fun a => (a, s)

def Cell.write {σ α : Type} (c : Cell σ α) (a : α) : M σ Unit := fun s =>
  (c.set a s).map fun s1 => ((), s1)

/-- The fields of one map: the root, the length of the node pool and of the
stack of free slots, the entries of that stack, and the nodes' fields. -/
structure Fields (σ K V : Type) where
  root : Cell σ Nat
  slotsLen : Cell σ Nat
  freeLen : Cell σ Nat
  free : Nat → Cell σ Nat
  key : Nat → Cell σ K
  value : Nat → Cell σ V
  left : Nat → Cell σ Nat
  right : Nat → Cell σ Nat
  balance : Nat → Cell σ Int

variable {σ K V : Type}

/-- `seq[-1]` -/
def top (seq : List Nat) : Nat := seq.getLastD 0

/-- `seq[-2]` -/
def second (seq : List Nat) : Nat := seq.getD (seq.length - 2) 0

/-! ## Shared bodies -/

section Shared

variable (F : Fields σ K V) (node : Nat → M σ Nat)

/-- mirrors tree_map.rs:97-110 and tree_map.py:82-93 -/
def rotLeftWith (par cur : Nat) : M σ Unit := do
  let parN ← node par
  let curN ← node cur
  let curL ← (F.left curN).read
  (F.left curN).write par
  (F.right parN).write curL
  let b ← (F.balance curN).read
  if b = 0 then do
    (F.balance parN).write 1
    (F.balance curN).write (-1)
  else do
    (F.balance parN).write 0
    (F.balance curN).write 0

/-- mirrors tree_map.rs:112-125 and tree_map.py:95-106 -/
def rotRightWith (par cur : Nat) : M σ Unit := do
  let parN ← node par
  let curN ← node cur
  let curR ← (F.right curN).read
  (F.right curN).write par
  (F.left parN).write curR
  let b ← (F.balance curN).read
  if b = 0 then do
    (F.balance parN).write (-1)
    (F.balance curN).write 1
  else do
    (F.balance parN).write 0
    (F.balance curN).write 0

/-- mirrors tree_map.rs:127-151 and tree_map.py:108-130 -/
def rotRightLeftWith (gpar par cur : Nat) : M σ Unit := do
  let gparN ← node gpar
  let parN ← node par
  let curN ← node cur
  let curL ← (F.left curN).read
  let curR ← (F.right curN).read
  (F.right gparN).write curL
  (F.left parN).write curR
  (F.left curN).write gpar
  (F.right curN).write par
  let b ← (F.balance curN).read
  if b = 0 then do
    (F.balance parN).write 0
    (F.balance gparN).write 0
    (F.balance curN).write 0
  else if b > 0 then do
    (F.balance gparN).write (-1)
    (F.balance parN).write 0
    (F.balance curN).write 0
  else do
    (F.balance gparN).write 0
    (F.balance parN).write 1
    (F.balance curN).write 0

/-- mirrors tree_map.rs:153-177 and tree_map.py:132-154 -/
def rotLeftRightWith (gpar par cur : Nat) : M σ Unit := do
  let gparN ← node gpar
  let parN ← node par
  let curN ← node cur
  let curL ← (F.left curN).read
  let curR ← (F.right curN).read
  (F.left gparN).write curR
  (F.right parN).write curL
  (F.left curN).write par
  (F.right curN).write gpar
  let b ← (F.balance curN).read
  if b = 0 then do
    (F.balance parN).write 0
    (F.balance gparN).write 0
    (F.balance curN).write 0
  else if b > 0 then do
    (F.balance parN).write (-1)
    (F.balance gparN).write 0
    (F.balance curN).write 0
  else do
    (F.balance parN).write 0
    (F.balance gparN).write 1
    (F.balance curN).write 0

/-- The walk from `cur` to `k`: the path and whether the last step went
left; mirrors tree_map.rs:38-60 and tree_map.py:156-173. -/
def findPathWith [LT K] [DecidableLT K] (k : K) :
    Nat → List Nat → Nat → Bool → M σ (List Nat × Bool)
  | 0, _, _, _ => throw .diverged
  | fuel + 1, path, cur, isLess =>
    if cur = 0 then pure (path ++ [cur], isLess)
    else do
      let n ← node cur
      let nk ← (F.key n).read
      if k < nk then do
        let next ← (F.left n).read
        findPathWith k fuel (path ++ [cur]) next true
      else if nk < k then do
        let next ← (F.right n).read
        findPathWith k fuel (path ++ [cur]) next false
      else pure (path ++ [cur], isLess)

/-- Down the left links from the last entry of the path; mirrors
tree_map.rs:343-351 and tree_map.py:205-211. -/
def leftmostWith : Nat → List Nat → M σ (List Nat)
  | 0, _ => throw .diverged
  | fuel + 1, seq => do
    let n ← node (top seq)
    let l ← (F.left n).read
    if l ≠ 0 then leftmostWith fuel (seq ++ [l]) else pure seq

/-- The child of `parent` a new or a moved node hangs from. -/
def setChildWith (parent : Nat) (isLeft : Bool) (child : Nat) : M σ Unit := do
  let n ← node parent
  if isLeft then (F.left n).write child else (F.right n).write child

/-- The link to the replacement, from its parent or the root; mirrors
tree_map.rs:370-380 and tree_map.py:224-232. -/
def linkMovedWith (seq : List Nat) (seqMoveTo : Nat) (isLeft : Bool) : M σ Unit :=
  if seqMoveTo > 0 then
    setChildWith F node (seq.getD (seqMoveTo - 1) 0) isLeft (seq.getD seqMoveTo 0)
  else F.root.write (seq.getD seqMoveTo 0)

/-- The replacement of a removed node, and the path below it: the only child
where one is missing, else the successor, which takes the node's place;
mirrors tree_map.rs:333-368 and tree_map.py:193-223. -/
def spliceWith (fuel : Nat) (seq : List Nat) (delLeft delRight : Nat) :
    M σ (List Nat × Bool) := do
  let seqMoveTo := seq.length - 1
  if delLeft = 0 ∨ delRight = 0 then
    pure (seq.set seqMoveTo (if delLeft = 0 then delRight else delLeft), true)
  else do
    let seq ← leftmostWith F node fuel (seq ++ [delRight])
    let replacement := top seq
    let seq := seq.set seqMoveTo replacement
    let repN ← node replacement
    (F.left repN).write delLeft
    if seqMoveTo + 2 ≠ seq.length then do
      let parentN ← node (second seq)
      let r ← (F.right repN).read
      (F.left parentN).write r
      (F.right repN).write delRight
      let l ← (F.left parentN).read
      pure (seq.set (seq.length - 1) l, false)
    else do
      let r ← (F.right repN).read
      pure (seq.set (seq.length - 1) r, false)

/-- The balance of the replacement; mirrors tree_map.rs:382-390 and tree_map.py:234-239. -/
def patchBalanceWith (moved : Nat) (specialNull : Bool) (delBalance : Int) : M σ Unit := do
  if moved ≠ 0 then do
    let n ← node moved
    (F.balance n).write (if specialNull then 0 else delBalance)
  else pure ()

/-- mirrors tree_map.rs:311-313, 459-461 and tree_map.py:307-308, 434-435 -/
def fixRoot (seq : List Nat) : M σ Unit := do
  let r ← F.root.read
  if r ≠ seq.headD 0 then F.root.write (seq.headD 0) else pure ()

end Shared

/-! ## Rust -/

namespace Rust

section Code

variable (F : Fields σ K V)

/-- `StorageDynArray::index`, mirrors array.rs:81-84: the item is named by its index. -/
def index (len : Cell σ Nat) (idx : Nat) : M σ Nat := do
  let n ← len.read
  if idx < n then pure idx else throw .panicked

/-- mirrors array.rs:86-91; the addition is `u32` -/
def appendSlot (len : Cell σ Nat) : M σ Nat := do
  let n ← len.read
  len.write ((n + 1) % 2 ^ 32)
  pure n

/-- mirrors array.rs:93-97 -/
def pop (len : Cell σ Nat) : M σ Unit := do
  let n ← len.read
  if n = 0 then throw .panicked else len.write (n - 1)

/-- mirrors tree_map.rs:31-34: `idx - 1` on zero panics or fails the bounds check -/
def node (idx : Nat) : M σ Nat :=
  if idx = 0 then throw .panicked else index F.slotsLen (idx - 1)

/-- mirrors tree_map.rs:97-110 -/
def rotLeft (par cur : Nat) : M σ Unit := rotLeftWith F (node F) par cur

/-- mirrors tree_map.rs:112-125 -/
def rotRight (par cur : Nat) : M σ Unit := rotRightWith F (node F) par cur

/-- mirrors tree_map.rs:127-151 -/
def rotRightLeft (gpar par cur : Nat) : M σ Unit := rotRightLeftWith F (node F) gpar par cur

/-- mirrors tree_map.rs:153-177 -/
def rotLeftRight (gpar par cur : Nat) : M σ Unit := rotLeftRightWith F (node F) gpar par cur

/-- mirrors tree_map.rs:36-60: the path to `k` and whether its last step went left -/
def findPath [LT K] [DecidableLT K] (fuel : Nat) (k : K) : M σ (List Nat × Bool) := do
  let root ← F.root.read
  findPathWith F (node F) k fuel [] root true

/-- mirrors tree_map.rs:333-368 -/
def splice (fuel : Nat) (seq : List Nat) (delLeft delRight : Nat) : M σ (List Nat × Bool) :=
  spliceWith F (node F) fuel seq delLeft delRight

/-- mirrors tree_map.rs:370-380 -/
def linkMoved (seq : List Nat) (seqMoveTo : Nat) (isLeft : Bool) : M σ Unit :=
  linkMovedWith F (node F) seq seqMoveTo isLeft

/-- mirrors tree_map.rs:382-390 -/
def patchBalance (moved : Nat) (specialNull : Bool) (delBalance : Int) : M σ Unit :=
  patchBalanceWith F (node F) moved specialNull delBalance

/-- mirrors tree_map.rs:62-74 -/
def allocSlot : M σ Nat := do
  let n ← F.freeLen.read
  if n ≠ 0 then do
    let last ← index F.freeLen (n - 1)
    let idx ← (F.free last).read
    pop F.freeLen
    index F.slotsLen idx
  else appendSlot F.slotsLen

/-- mirrors tree_map.rs:76-83 -/
def freeSlot (slot : Nat) : M σ Unit := do
  let n ← F.slotsLen.read
  if (slot + 1) % 2 ^ 32 = n then pop F.slotsLen
  else do
    let i ← appendSlot F.freeLen
    (F.free i).write slot

/-- mirrors tree_map.rs:85-93 and the `storage_set` of the value that follows it -/
def initNode (n : Nat) (k : K) (v : V) : M σ Unit := do
  (F.key n).write k
  (F.left n).write 0
  (F.right n).write 0
  (F.balance n).write 0
  (F.value n).write v

/-- The value under a key, mirrors tree_map.rs:214-223 and the `get` of the handle. -/
def get [LT K] [DecidableLT K] (fuel : Nat) (k : K) : M σ (Option V) := do
  let (seq, _) ← findPath F fuel k
  if top seq = 0 then pure none
  else do
    let n ← node F (top seq)
    let v ← (F.value n).read
    pure (some v)

/-- mirrors tree_map.rs:179-191 -/
def replaceChild (seq : List Nat) (depth oldChild newChild : Nat) : M σ Unit := do
  if depth = 0 then F.root.write newChild
  else do
    let gp ← node F (seq.getD (depth - 1) 0)
    let l ← (F.left gp).read
    if l = oldChild then (F.left gp).write newChild else (F.right gp).write newChild

/-- mirrors tree_map.rs:262-310: from the new leaf up -/
def insertRebalance : Nat → List Nat → M σ (List Nat)
  | 0, seq => pure seq
  | fuel + 1, seq =>
    if seq.length < 2 then pure seq
    else do
      let cur := top seq
      let par := second seq
      let parN ← node F par
      let l ← (F.left parN).read
      let delta : Int := if cur = l then -1 else 1
      let b ← (F.balance parN).read
      let newB := (b + delta).bmod 256
      if newB = -2 then do
        let curN ← node F cur
        let cb ← (F.balance curN).read
        if cb > 0 then do
          let rightChild ← (F.right curN).read
          rotLeftRight F par cur rightChild
          let seq' := seq.dropLast.dropLast ++ [rightChild]
          replaceChild F seq' (seq.length - 2) par rightChild
          pure seq'
        else do
          rotRight F par cur
          let seq' := seq.dropLast.dropLast ++ [cur]
          replaceChild F seq' (seq.length - 2) par cur
          pure seq'
      else if newB = 2 then do
        let curN ← node F cur
        let cb ← (F.balance curN).read
        if cb < 0 then do
          let leftChild ← (F.left curN).read
          rotRightLeft F par cur leftChild
          let seq' := seq.dropLast.dropLast ++ [leftChild]
          replaceChild F seq' (seq.length - 2) par leftChild
          pure seq'
        else do
          rotLeft F par cur
          let seq' := seq.dropLast.dropLast ++ [cur]
          replaceChild F seq' (seq.length - 2) par cur
          pure seq'
      else do
        (F.balance parN).write newB
        if newB = 0 then pure seq else insertRebalance fuel seq.dropLast

/-- `insert`, mirrors tree_map.rs:225-315 -/
def insert [LT K] [DecidableLT K] (fuel : Nat) (k : K) (v : V) : M σ Unit := do
  let (seq, isLeft) ← findPath F fuel k
  if top seq ≠ 0 then do
    let n ← node F (top seq)
    (F.value n).write v
  else if seq.length = 1 then do
    let idx ← allocSlot F
    F.root.write ((idx + 1) % 2 ^ 32)
    initNode F idx k v
  else do
    let newIdx ← allocSlot F
    setChildWith F (node F) (second seq) isLeft ((newIdx + 1) % 2 ^ 32)
    let seq := seq.dropLast ++ [(newIdx + 1) % 2 ^ 32]
    initNode F newIdx k v
    let seq ← insertRebalance F seq.length seq
    fixRoot F seq

/-- `insert` with the handle it returns, which names the node of the value;
mirrors tree_map.rs:225-315. -/
def insertHandle [LT K] [DecidableLT K] (fuel : Nat) (k : K) (v : V) : M σ Nat := do
  let (seq, isLeft) ← findPath F fuel k
  if top seq ≠ 0 then do
    let n ← node F (top seq)
    (F.value n).write v
    pure n
  else if seq.length = 1 then do
    let idx ← allocSlot F
    F.root.write ((idx + 1) % 2 ^ 32)
    initNode F idx k v
    pure idx
  else do
    let newIdx ← allocSlot F
    setChildWith F (node F) (second seq) isLeft ((newIdx + 1) % 2 ^ 32)
    let seq := seq.dropLast ++ [(newIdx + 1) % 2 ^ 32]
    initNode F newIdx k v
    let seq ← insertRebalance F seq.length seq
    fixRoot F seq
    pure newIdx

/-- mirrors tree_map.rs:392-458; a node that took over a missing child is
not found by comparing indices, hence `special` for the first round. -/
def removeRebalance : Nat → List Nat → Option Bool → M σ (List Nat)
  | 0, seq, _ => pure seq
  | fuel + 1, seq, special =>
    if seq.length < 2 then pure seq
    else do
      let cur := top seq
      let par := second seq
      let parN ← node F par
      let l ← (F.left parN).read
      let isLeftChild := special.getD (cur = l)
      let delta : Int := if isLeftChild then 1 else -1
      let b ← (F.balance parN).read
      let newB := (b + delta).bmod 256
      if newB = -2 then do
        let sib ← (F.left parN).read
        let sibN ← node F sib
        let sibBal ← (F.balance sibN).read
        if sibBal > 0 then do
          let rightChild ← (F.right sibN).read
          rotLeftRight F par sib rightChild
          let seq' := seq.dropLast.dropLast ++ [rightChild]
          replaceChild F seq' (seq.length - 2) par rightChild
          if sibBal = 0 then pure seq' else removeRebalance fuel seq' none
        else do
          rotRight F par sib
          let seq' := seq.dropLast.dropLast ++ [sib]
          replaceChild F seq' (seq.length - 2) par sib
          if sibBal = 0 then pure seq' else removeRebalance fuel seq' none
      else if newB = 2 then do
        let sib ← (F.right parN).read
        let sibN ← node F sib
        let sibBal ← (F.balance sibN).read
        if sibBal < 0 then do
          let leftChild ← (F.left sibN).read
          rotRightLeft F par sib leftChild
          let seq' := seq.dropLast.dropLast ++ [leftChild]
          replaceChild F seq' (seq.length - 2) par leftChild
          if sibBal = 0 then pure seq' else removeRebalance fuel seq' none
        else do
          rotLeft F par sib
          let seq' := seq.dropLast.dropLast ++ [sib]
          replaceChild F seq' (seq.length - 2) par sib
          if sibBal = 0 then pure seq' else removeRebalance fuel seq' none
      else do
        (F.balance parN).write newB
        if newB ≠ 0 then pure seq else removeRebalance fuel seq.dropLast none

/-- mirrors tree_map.rs:317-463 -/
def remove [LT K] [DecidableLT K] (fuel : Nat) (k : K) : M σ Bool := do
  let (seq, isLeft) ← findPath F fuel k
  if top seq = 0 then pure false
  else do
    let del ← node F (top seq)
    let delLeft ← (F.left del).read
    let delRight ← (F.right del).read
    let delBalance ← (F.balance del).read
    freeSlot F (top seq - 1)
    let seqMoveTo := seq.length - 1
    let (seq, specialNull) ← splice F fuel seq delLeft delRight
    linkMoved F seq seqMoveTo isLeft
    patchBalance F (seq.getD seqMoveTo 0) specialNull delBalance
    let seq ← removeRebalance F seq.length seq (if specialNull then some isLeft else none)
    fixRoot F seq
    pure true

/-- mirrors tree_map.rs:203-207 -/
def clear : M σ Unit := do
  F.root.write 0
  F.slotsLen.write 0
  F.freeLen.write 0

/-- mirrors tree_map.rs:195-197; the subtraction is `u32` -/
def len : M σ Nat := do
  let n ← F.slotsLen.read
  let m ← F.freeLen.read
  pure ((n + 2 ^ 32 - m) % 2 ^ 32)

/-- The entries under a node, behind those seen before; mirrors tree_map.rs:467-479
with the closure of `for_each`. -/
def visitImpl : Nat → Nat → List (K × V) → M σ (List (K × V))
  | 0, _, _ => throw .diverged
  | fuel + 1, idx, seen =>
    if idx = 0 then pure seen
    else do
      let n ← node F idx
      let l ← (F.left n).read
      let seen ← visitImpl fuel l seen
      let k ← (F.key n).read
      let v ← (F.value n).read
      let r ← (F.right n).read
      visitImpl fuel r (seen ++ [(k, v)])

/-- mirrors tree_map.rs:481-499 -/
def forEach (fuel : Nat) : M σ (List (K × V)) := do
  let root ← F.root.read
  visitImpl F fuel root []

end Code
end Rust

/-! ## Python -/

namespace Py

section Code

variable (F : Fields σ K V)

/-- `DynArray._map_index` -/
def mapIndex (len : Cell σ Nat) (idx : Int) : M σ Nat := do
  let n ← len.read
  let idx := if idx < 0 then idx + n else idx
  if idx < 0 ∨ idx ≥ n then throw .raised else pure idx.toNat

/-- mirrors dyn_array.py:215-224; a length from 2^32 on does not fit the field -/
def appendNewGet (len : Cell σ Nat) : M σ Nat := do
  let n ← len.read
  if n + 1 < 2 ^ 32 then do
    len.write (n + 1)
    pure n
  else throw .raised

/-- mirrors dyn_array.py:226-235 -/
def pop (len : Cell σ Nat) : M σ Unit := do
  let n ← len.read
  if n = 0 then throw .raised else len.write (n - 1)

/-- `self._slots[idx - 1]` -/
def node (idx : Nat) : M σ Nat := mapIndex F.slotsLen ((idx : Int) - 1)

/-- mirrors tree_map.py:82-93 -/
def rotLeft (par cur : Nat) : M σ Unit := rotLeftWith F (node F) par cur

/-- mirrors tree_map.py:95-106 -/
def rotRight (par cur : Nat) : M σ Unit := rotRightWith F (node F) par cur

/-- mirrors tree_map.py:108-130 -/
def rotRightLeft (gpar par cur : Nat) : M σ Unit := rotRightLeftWith F (node F) gpar par cur

/-- mirrors tree_map.py:132-154 -/
def rotLeftRight (gpar par cur : Nat) : M σ Unit := rotLeftRightWith F (node F) gpar par cur

/-- `_find_seq`, mirrors tree_map.py:156-173 -/
def findSeq [LT K] [DecidableLT K] (fuel : Nat) (k : K) : M σ (List Nat × Bool) := do
  let root ← F.root.read
  findPathWith F (node F) k fuel [] root true

/-- mirrors tree_map.py:193-223 -/
def splice (fuel : Nat) (seq : List Nat) (delLeft delRight : Nat) : M σ (List Nat × Bool) :=
  spliceWith F (node F) fuel seq delLeft delRight

/-- mirrors tree_map.py:224-232 -/
def linkMoved (seq : List Nat) (seqMoveTo : Nat) (isLeft : Bool) : M σ Unit :=
  linkMovedWith F (node F) seq seqMoveTo isLeft

/-- mirrors tree_map.py:234-239 -/
def patchBalance (moved : Nat) (specialNull : Bool) (delBalance : Int) : M σ Unit :=
  patchBalanceWith F (node F) moved specialNull delBalance

/-- mirrors tree_map.py:66-74 -/
def allocSlot : M σ Nat := do
  let n ← F.freeLen.read
  if n > 0 then do
    let last ← mapIndex F.freeLen (-1)
    let idx ← (F.free last).read
    pop F.freeLen
    mapIndex F.slotsLen idx
  else appendNewGet F.slotsLen

/-- mirrors tree_map.py:76-80 -/
def freeSlot (slot : Nat) : M σ Unit := do
  let n ← F.slotsLen.read
  if slot + 1 = n then pop F.slotsLen
  else do
    let i ← appendNewGet F.freeLen
    (F.free i).write slot

/-- `_Node.__init__`, mirrors tree_map.py:23-29 -/
def initNode (n : Nat) (k : K) (v : V) : M σ Unit := do
  (F.key n).write k
  (F.value n).write v
  (F.left n).write 0
  (F.right n).write 0
  (F.balance n).write 0

/-- A child index as a `u32` field takes it: from 2^32 on it raises. -/
def childIndex (idx : Nat) : M σ Nat := if idx + 1 < 2 ^ 32 then pure (idx + 1) else throw .raised

/-- The link of the grandparent, which is zero at the root; mirrors
tree_map.py:403-408. -/
def relinkInsert (gp par new : Nat) : M σ Unit := do
  if gp ≠ 0 then do
    let g ← node F gp
    let l ← (F.left g).read
    if l = par then (F.left g).write new else (F.right g).write new
  else pure ()

/-- The same after a removal, where the other link is asserted; mirrors
tree_map.py:269-275. -/
def relinkRemove (gp par new : Nat) : M σ Unit := do
  if gp ≠ 0 then do
    let g ← node F gp
    let l ← (F.left g).read
    if l = par then (F.left g).write new
    else do
      let r ← (F.right g).read
      if r = par then (F.right g).write new else throw .raised
  else pure ()

/-- `gp = 0 if len(seq) == 2 else seq[-3]` -/
def grandparent (seq : List Nat) : Nat := if seq.length = 2 then 0 else seq.getD (seq.length - 3) 0

/-- A balance as an `i8` field takes it. -/
def writeBalance (c : Cell σ Int) (b : Int) : M σ Unit :=
  if -128 ≤ b ∧ b < 128 then c.write b else throw .raised

/-- mirrors tree_map.py:382-433 -/
def insertRebalance : Nat → List Nat → M σ (List Nat)
  | 0, seq => pure seq
  | fuel + 1, seq =>
    if seq.length < 2 then pure seq
    else do
      let cur := top seq
      let par := second seq
      let parN ← node F par
      let l ← (F.left parN).read
      let delta : Int := if cur = l then -1 else 1
      let b ← (F.balance parN).read
      let newB := b + delta
      if newB = -2 then do
        let gp := grandparent seq
        let curN ← node F cur
        let cb ← (F.balance curN).read
        if cb > 0 then do
          let rightChild ← (F.right curN).read
          rotLeftRight F par cur rightChild
          relinkInsert F gp par rightChild
          pure (seq.dropLast.dropLast ++ [rightChild])
        else do
          rotRight F par cur
          relinkInsert F gp par cur
          pure (seq.dropLast.dropLast ++ [cur])
      else if newB = 2 then do
        let gp := grandparent seq
        let curN ← node F cur
        let cb ← (F.balance curN).read
        if cb < 0 then do
          let leftChild ← (F.left curN).read
          rotRightLeft F par cur leftChild
          relinkInsert F gp par leftChild
          pure (seq.dropLast.dropLast ++ [leftChild])
        else do
          rotLeft F par cur
          relinkInsert F gp par cur
          pure (seq.dropLast.dropLast ++ [cur])
      else do
        writeBalance (F.balance parN) newB
        if newB = 0 then pure seq else insertRebalance fuel seq.dropLast

/-- `__setitem__` over `_get_set`, mirrors tree_map.py:310-325 and 356-436 -/
def setItem [LT K] [DecidableLT K] (fuel : Nat) (k : K) (v : V) : M σ Unit := do
  let (seq, isLess) ← findSeq F fuel k
  if top seq ≠ 0 then do
    let n ← node F (top seq)
    (F.value n).write v
  else if seq.length = 1 then do
    let idx ← allocSlot F
    let child ← childIndex idx
    F.root.write child
    initNode F idx k v
  else do
    let newIdx ← allocSlot F
    let child ← childIndex newIdx
    setChildWith F (node F) (second seq) isLess child
    let seq := seq.dropLast ++ [child]
    initNode F newIdx k v
    let seq ← insertRebalance F seq.length seq
    fixRoot F seq

/-- mirrors tree_map.py:241-306 -/
def removeRebalance : Nat → List Nat → Option Bool → M σ (List Nat)
  | 0, seq, _ => pure seq
  | fuel + 1, seq, special =>
    if seq.length < 2 then pure seq
    else do
      let cur := top seq
      let par := second seq
      let parN ← node F par
      let l ← (F.left parN).read
      let isLeft := special.getD (cur = l)
      let delta : Int := -(if isLeft then -1 else 1)
      let b ← (F.balance parN).read
      let newB := b + delta
      if newB = -2 then do
        let gp := grandparent seq
        let sib ← (F.left parN).read
        let sibN ← node F sib
        let sibBal ← (F.balance sibN).read
        if sibBal > 0 then do
          let rightChild ← (F.right sibN).read
          rotLeftRight F par sib rightChild
          relinkRemove F gp par rightChild
          let seq' := seq.dropLast.dropLast ++ [rightChild]
          if sibBal = 0 then pure seq' else removeRebalance fuel seq' none
        else do
          rotRight F par sib
          relinkRemove F gp par sib
          let seq' := seq.dropLast.dropLast ++ [sib]
          if sibBal = 0 then pure seq' else removeRebalance fuel seq' none
      else if newB = 2 then do
        let gp := grandparent seq
        let sib ← (F.right parN).read
        let sibN ← node F sib
        let sibBal ← (F.balance sibN).read
        if sibBal < 0 then do
          let leftChild ← (F.left sibN).read
          rotRightLeft F par sib leftChild
          relinkRemove F gp par leftChild
          let seq' := seq.dropLast.dropLast ++ [leftChild]
          if sibBal = 0 then pure seq' else removeRebalance fuel seq' none
        else do
          rotLeft F par sib
          relinkRemove F gp par sib
          let seq' := seq.dropLast.dropLast ++ [sib]
          if sibBal = 0 then pure seq' else removeRebalance fuel seq' none
      else do
        writeBalance (F.balance parN) newB
        if newB ≠ 0 then pure seq else removeRebalance fuel seq.dropLast none

/-- mirrors tree_map.py:444-453 -/
def getLoop [LT K] [DecidableLT K] (k : K) : Nat → Nat → M σ (Option V)
  | 0, _ => throw .diverged
  | fuel + 1, idx =>
    if idx = 0 then pure none
    else do
      let n ← node F idx
      let nk ← (F.key n).read
      if k < nk then do
        let next ← (F.left n).read
        getLoop k fuel next
      else if nk < k then do
        let next ← (F.right n).read
        getLoop k fuel next
      else do
        let v ← (F.value n).read
        pure (some v)

/-- `get` over `_get_fn`, mirrors tree_map.py:438-465 -/
def get [LT K] [DecidableLT K] (fuel : Nat) (k : K) : M σ (Option V) := do
  let root ← F.root.read
  getLoop F k fuel root

/-- `__delitem__`, mirrors tree_map.py:175-308: an absent key raises -/
def delItem [LT K] [DecidableLT K] (fuel : Nat) (k : K) : M σ Unit := do
  let (seq, isLess) ← findSeq F fuel k
  if top seq = 0 then throw .raised
  else do
    let del ← node F (top seq)
    let delLeft ← (F.left del).read
    let delRight ← (F.right del).read
    let delBalance ← (F.balance del).read
    freeSlot F (top seq - 1)
    let seqMoveTo := seq.length - 1
    let (seq, specialNull) ← splice F fuel seq delLeft delRight
    linkMoved F seq seqMoveTo isLess
    patchBalance F (seq.getD seqMoveTo 0) specialNull delBalance
    let seq ← removeRebalance F seq.length seq (if specialNull then some isLess else none)
    fixRoot F seq

/-- mirrors tree_map.py:55-61 -/
def clear : M σ Unit := do
  F.root.write 0
  F.slotsLen.write 0
  F.freeLen.write 0

end Code
end Py

end GenVM.Storage.TreeMap
