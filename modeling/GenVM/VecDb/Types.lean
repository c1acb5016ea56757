import Mathlib

/-!
# The vector store and its cover tree

`VecDB` keeps vectors under ids and, beside them, a cover tree whose nodes
lie in an array with a list of free entries
(runners/genlayer-py-std/src-emb/genlayer_embeddings/vecdb.py). Distances,
powers of the base and logarithms are exact here: over an ordered field, with
`ceilLog d` for `ceil(log d / log base)`. A `TreeMap` used as a set is its
sorted list of keys; `NO_PARENT` is `none`; the values stored beside the
vectors play no part. A loop of the source that is not over a list runs on
fuel, and `none` says that it ran out.
-/
namespace GenVM.VecDb

/-- A node of the cover tree, mirrors vecdb.py:80-90. -/
structure Node where
  elem : Nat
  level : Int
  children : List Nat
  parent : Option Nat
  deriving DecidableEq, Repr

/-- mirrors vecdb.py:168-180 -/
structure DB (X : Type) where
  keys : Nat → X
  keysLen : Nat
  freeIdx : List Nat
  nodes : Nat → Node
  nodesLen : Nat
  freeNodes : List Nat
  elemToNode : Nat → Option Nat
  root : Option Nat
  maxLevel : Int
  minLevel : Int

/-- The distance the store is used with, and the exact logarithm. -/
structure Params (X 𝕜 : Type) where
  dist : X → X → 𝕜
  ceilLog : 𝕜 → Int

def minLevelBound : Int := -64

def maxLevelBound : Int := 65535

section Code

variable {X 𝕜 : Type} [Field 𝕜] [LinearOrder 𝕜]

/-- `self._base ** level` -/
def cover (level : Int) : 𝕜 := (13 / 10 : 𝕜) ^ level

/-- `_max_descendant_dist`, mirrors vecdb.py:443-449 -/
def maxDescendantDist (level : Int) : 𝕜 := cover (level + 1) / (13 / 10 - 1)

variable (P : Params X 𝕜)

/-- A store nothing was inserted into; `x` is what unwritten keys read as. -/
def DB.empty (x : X) : DB X where
  keys _ := x
  keysLen := 0
  freeIdx := []
  nodes _ := ⟨0, 0, [], some 0⟩
  nodesLen := 0
  freeNodes := []
  elemToNode _ := none
  root := none
  maxLevel := 0
  minLevel := 0

def DB.setNode (s : DB X) (n : Nat) (node : Node) : DB X :=
  { s with nodes := Function.update s.nodes n node }

/-- `d[key] = None` on a `TreeMap` used as a set. -/
def setAdd (x : Nat) (l : List Nat) : List Nat :=
  if x ∈ l then l else l.orderedInsert (· ≤ ·) x

/-- `_distance`, mirrors vecdb.py:210-212 -/
def DB.distance (s : DB X) (i j : Nat) : 𝕜 := P.dist (s.keys i) (s.keys j)

/-- mirrors vecdb.py:218-227: a recycled or a fresh entry, with the fields a
new node starts from -/
def allocateNode (s : DB X) (elem : Nat) (level : Int) : Nat × DB X :=
  match s.freeNodes with
  | n :: rest => (n, { s with freeNodes := rest }.setNode n ⟨elem, level, [], some 0⟩)
  | [] => (s.nodesLen,
      { s with nodesLen := s.nodesLen + 1 }.setNode s.nodesLen ⟨elem, level, [], some 0⟩)

/-- mirrors vecdb.py:229-231 -/
def freeNode (s : DB X) (n : Nat) : DB X := { s with freeNodes := setAdd n s.freeNodes }

/-- mirrors vecdb.py:250-258 -/
def levelForDist (d : 𝕜) : Int := if d ≤ 0 then minLevelBound else P.ceilLog d - 1

/-- The children of one candidate that cover the new element, with their
distances; mirrors vecdb.py:299-306. -/
def coveringChildren (s : DB X) (e n : Nat) : List (Nat × 𝕜) :=
  (s.nodes n).children.filterMap fun c =>
    if (s.nodes c).level ≤ minLevelBound then none
    else
      let d := s.distance P e (s.nodes c).elem
      if d ≤ cover (s.nodes c).level then some (c, d) else none

/-- The candidate-set descent, mirrors vecdb.py:295-312. -/
def descend (s : DB X) (e : Nat) :
    Nat → List (Nat × 𝕜) → 𝕜 → Option (List (Nat × 𝕜) × 𝕜)
  | 0, _, _ => none
  | fuel + 1, candidates, minCover =>
    let next := candidates.flatMap fun c => coveringChildren P s e c.1
    let minCover := next.foldl (fun m c => if c.2 < m then c.2 else m) minCover
    if next = [] then some (candidates, minCover) else descend s e fuel next minCover

/-- The first candidate at the least distance, mirrors vecdb.py:315-320. -/
def nearest (first : Nat × 𝕜) (candidates : List (Nat × 𝕜)) : Nat × 𝕜 :=
  candidates.foldl (fun best c => if c.2 < best.2 then c else best) first

/-- The first element becomes the root, mirrors vecdb.py:262-269. -/
def insertFirst (s : DB X) (e : Nat) : DB X :=
  let (r, s) := allocateNode s e 0
  let s := s.setNode r { s.nodes r with parent := none }
  { s with
    root := some r, maxLevel := 0, minLevel := 0
    elemToNode := Function.update s.elemToNode e (some r) }

/-- A new root above the old one, mirrors vecdb.py:275-287. -/
def insertAbove (s : DB X) (e r : Nat) (rootDist : 𝕜) : DB X :=
  let needed := min (max (P.ceilLog rootDist) ((s.nodes r).level + 1)) maxLevelBound
  let (n, s) := allocateNode s e needed
  let s := s.setNode n { s.nodes n with parent := none }
  let s := s.setNode n { s.nodes n with children := (s.nodes n).children ++ [r] }
  let s := s.setNode r { s.nodes r with parent := some n }
  { s with
    root := some n, maxLevel := needed
    elemToNode := Function.update s.elemToNode e (some n) }

/-- A new child of the nearest candidate, mirrors vecdb.py:322-330. -/
def insertBelow (s : DB X) (e near : Nat) (minCover : 𝕜) : DB X :=
  let level := min (levelForDist P minCover) ((s.nodes near).level - 1)
  let level := max level minLevelBound
  let (n, s) := allocateNode s e level
  let s := s.setNode n { s.nodes n with parent := some near }
  let s := s.setNode near { s.nodes near with children := (s.nodes near).children ++ [n] }
  { s with
    minLevel := if level < s.minLevel then level else s.minLevel
    elemToNode := Function.update s.elemToNode e (some n) }

/-- mirrors vecdb.py:260-330 -/
def insertIntoTree (s : DB X) (e : Nat) : Option (DB X) :=
  match s.root with
  | none => some (insertFirst s e)
  | some r =>
    let rootDist := s.distance P e (s.nodes r).elem
    if rootDist > cover (s.nodes r).level then some (insertAbove P s e r rootDist)
    else
      match descend P s e ((s.nodes r).level - minLevelBound + 1).toNat [(r, rootDist)] rootDist with
      | none => none
      | some (candidates, minCover) =>
        let near := (nearest (candidates.headD (r, rootDist)) candidates).1
        some (insertBelow P s e near minCover)

/-- mirrors vecdb.py:233-248 -/
def insert (s : DB X) (key : X) : Option (DB X × Nat) :=
  match s.freeIdx with
  | idx :: rest =>
    (insertIntoTree P { s with freeIdx := rest, keys := Function.update s.keys idx key } idx).map
      fun s => (s, idx)
  | [] =>
    (insertIntoTree P { s with
      keysLen := s.keysLen + 1
      keys := Function.update s.keys s.keysLen key } s.keysLen).map fun s1 => (s1, s.keysLen)

/-- The child whose element is nearest to the node's, mirrors vecdb.py:357-366. -/
def nearestChild (s : DB X) (n first : Nat) (rest : List Nat) : Nat :=
  rest.foldl (fun best c =>
    if s.distance P (s.nodes n).elem (s.nodes c).elem
        < s.distance P (s.nodes n).elem (s.nodes best).elem then c else best) first

/-- The node adopts the element of its child, mirrors vecdb.py:369-371. -/
def adopt (s : DB X) (n child : Nat) : DB X :=
  let elem := (s.nodes child).elem
  { s.setNode n { s.nodes n with elem := elem } with
    elemToNode := Function.update s.elemToNode elem (some n) }

/-- Phase 1, mirrors vecdb.py:351-374: the path of swapped nodes and the leaf reached. -/
def swapDescent : Nat → DB X → Nat → List Nat → Option (DB X × Nat × List Nat)
  | 0, _, _, _ => none
  | fuel + 1, s, current, path =>
    match (s.nodes current).children with
    | [] => some (s, current, path)
    | c :: cs =>
      let near := nearestChild P s current c cs
      swapDescent fuel (adopt s current near) near (path ++ [current])

/-- mirrors vecdb.py:377-389 -/
def removeLeaf (s : DB X) (leaf : Nat) : DB X :=
  match (s.nodes leaf).parent with
  | some p =>
    freeNode (s.setNode p { s.nodes p with children := (s.nodes p).children.erase leaf }) leaf
  | none =>
    if s.root = some leaf then
      freeNode { s with root := none, maxLevel := 0, minLevel := 0 } leaf
    else freeNode s leaf

/-- The elements of a detached subtree, whose nodes are freed on the way;
mirrors vecdb.py:411-421. The head of the list is the top of the stack. -/
def collect : Nat → DB X → List Nat → List Nat → Option (DB X × List Nat)
  | _, s, [], elements => some (s, elements)
  | 0, _, _ :: _, _ => none
  | fuel + 1, s, n :: stack, elements =>
    let node := s.nodes n
    let s := { s with elemToNode := Function.update s.elemToNode node.elem none }
    collect fuel (freeNode s n) (node.children.reverse ++ stack) (elements ++ [node.elem])

/-- mirrors vecdb.py:422-423 -/
def insertAll (s : DB X) : List Nat → Option (DB X)
  | [] => some s
  | e :: es => (insertIntoTree P s e).bind fun s => insertAll s es

/-- mirrors vecdb.py:408-423 -/
def reinsertSubtree (s : DB X) (n : Nat) : Option (DB X) :=
  (collect (s.nodesLen + 1) s [n] []).bind fun (s, elements) => insertAll P s elements

/-- The children whose element the node no longer covers, mirrors vecdb.py:396-404. -/
def uncovered (s : DB X) (n : Nat) : List Nat :=
  (s.nodes n).children.filter fun c =>
    s.distance P (s.nodes n).elem (s.nodes c).elem > (cover (s.nodes n).level : 𝕜)

/-- mirrors vecdb.py:405-406 -/
def reinsertAll (s : DB X) : List Nat → Option (DB X)
  | [] => some s
  | n :: ns => (reinsertSubtree P s n).bind fun s => reinsertAll s ns

/-- Those children are taken out of the node's list, mirrors vecdb.py:396-404. -/
def detachUncovered (s : DB X) (n : Nat) : DB X :=
  let out := uncovered P s n
  let keep := (s.nodes n).children.filter fun c => c ∉ out
  s.setNode n { s.nodes n with children := keep }

/-- One round of phase 2, mirrors vecdb.py:393-406. -/
def repairNode (s : DB X) (n : Nat) : Option (DB X) :=
  reinsertAll P (detachUncovered P s n) (uncovered P s n)

/-- Phase 2 over the reversed path, mirrors vecdb.py:392-406. -/
def repair (s : DB X) : List Nat → Option (DB X)
  | [] => some s
  | n :: ns => (repairNode P s n).bind fun s => repair s ns

/-- mirrors vecdb.py:425-441 -/
def findNodeById (s : DB X) (e : Nat) : Nat → List Nat → Option (Option Nat)
  | _, [] => some none
  | 0, _ :: _ => none
  | fuel + 1, n :: stack =>
    if n ∈ s.freeNodes then findNodeById s e fuel stack
    else if (s.nodes n).elem = e then some (some n)
    else findNodeById s e fuel ((s.nodes n).children.reverse ++ stack)

/-- mirrors vecdb.py:350-406 from the node of the element on -/
def removeNode (s : DB X) (n : Nat) : Option (DB X) :=
  match swapDescent P ((s.nodes n).level - minLevelBound + 1).toNat s n [] with
  | none => none
  | some (s, leaf, path) => repair P (removeLeaf s leaf) path.reverse

/-- mirrors vecdb.py:332-406 -/
def removeFromTree (s : DB X) (e : Nat) : Option (DB X) :=
  match s.elemToNode e with
  | some n => removeNode P { s with elemToNode := Function.update s.elemToNode e none } n
  | none =>
    match findNodeById s e (s.nodesLen + 1) s.root.toList with
    | none => none
    | some none => some s
    | some (some n) => removeNode P s n

/-- `VecDBElement.remove`, mirrors vecdb.py:134-139 -/
def remove (s : DB X) (e : Nat) : Option (DB X) :=
  (removeFromTree P s e).map fun s => { s with freeIdx := setAdd e s.freeIdx }

end Code

end GenVM.VecDb
