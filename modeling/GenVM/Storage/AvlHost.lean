import GenVM.Lib.Follow
import GenVM.Storage.AvlRun
import GenVM.Storage.TreeMapAgree

/-!
# The storage map over the host

The host refuses an access to a slot that ends at `2 ^ 32` or behind it, and the
SDK panics on a refusal (executor/src/wasi/genlayer_sdk.rs and
executor/crates/sdk-rs/src/storage/core.rs). As long as the nodes of a map end
below, the code runs as over memory that is never refused; the first node that
does not is never filled.

**Results.**
* `Op.run_follows`: an operation that keeps the map small is never refused.
* `insert_refused`: an insertion that does not is.
* `avl_map`: any sequence of operations from empty storage.
-/
namespace GenVM.Storage.AvlMap

open Agree (Follows)
open GenVM.Lib.Consume (run_bind run_bind_error)
open GenVM.Lib GenVM.Lib.Avl TreeMap

variable {σ K V α : Type}

/-- An access to `len` bytes at `off`; mirrors genlayer_sdk.rs:1387-1389 and 1448-1450
with core.rs:34-44. -/
def refuse (off len : Nat) (c : Cell σ α) : Cell σ α where
  get s := if off + len < 2 ^ 32 then c.get s else .error .panicked
  set a s := if off + len < 2 ^ 32 then c.set a s else .error .panicked

/-- The offset of a field of a node, mirrors record.rs:59-68; the addition is `u32`. -/
def fieldOffset (size idx field : Nat) : Nat := (offset size idx + field) % 2 ^ 32

/-- mirrors tree_map.rs:8-21; the map itself, three numbers, lies where the host serves it -/
def hostFields (keySize valueSize : Nat) : Fields (Pool K V) K V :=
  let size := nodeSize keySize valueSize
  { root := (fields size).root
    slotsLen := (fields size).slotsLen
    freeLen := (fields size).freeLen
    free := fun idx => refuse (offset 4 idx) 4 ((fields size).free idx)
    key := fun idx => refuse (fieldOffset size idx 0) keySize ((fields size).key idx)
    value := fun idx => refuse (fieldOffset size idx keySize) valueSize ((fields size).value idx)
    left := fun idx => refuse (fieldOffset size idx (keySize + valueSize)) 4 ((fields size).left idx)
    right := fun idx => refuse (fieldOffset size idx (keySize + valueSize + 4)) 4 ((fields size).right idx)
    balance := fun idx =>
      refuse (fieldOffset size idx (keySize + valueSize + 4 + 4)) 1 ((fields size).balance idx) }

/-! ## Fields that are served -/

/-- The lengths of the two arrays of a map. -/
def Lens (n m : Nat) (s : Pool K V) : Prop := s.slotsLen = n ∧ s.freeLen = m

/-- The nodes of the pool end below `2 ^ 32`. -/
def Small (size : Nat) (s : Pool K V) : Prop := s.slotsLen * size < 2 ^ 32

theorem Lens.small {n m size : Nat} {s : Pool K V} (hs : Lens n m s) (hn : n * size < 2 ^ 32) : Small size s := by
  unfold Small
  rwa [hs.1]

/-- Both cells are the same, and a write leaves the lengths alone. -/
structure Serves (c c' : Cell (Pool K V) α) : Prop where
  eq : c = c'
  keeps : ∀ s a s', c'.set a s = .ok s' → s'.slotsLen = s.slotsLen ∧ s'.freeLen = s.freeLen

section
variable {keySize valueSize n m i : Nat} {s : Pool K V} {c c' : Cell (Pool K V) α}

theorem Serves.read (h : Serves c c') (hs : Lens n m s) : Follows s c.read c'.read fun _ s' => Lens n m s' := by
  rw [h.eq]
  refine ⟨rfl, fun a s' ha => ?_⟩
  obtain ⟨-, rfl⟩ := read_ok ha
  exact hs

theorem Serves.write (h : Serves c c') (hs : Lens n m s) (a : α) :
    Follows s (c.write a) (c'.write a) fun _ s' => Lens n m s' := by
  rw [h.eq]
  refine ⟨rfl, fun u s' ha => ?_⟩
  obtain ⟨hn, hm⟩ := h.keeps s a s' (write_ok ha)
  exact ⟨hn.trans hs.1, hm.trans hs.2⟩

theorem refuse_served {off len : Nat} (h : off + len < 2 ^ 32) (c : Cell σ α) : refuse off len c = c := by
  unfold refuse
  simp only [if_pos h]

theorem node_served (field len : Nat) {size : Nat} {c : Cell (Pool K V) α} (hin : field + len ≤ size)
    (hn : n * size < 2 ^ 32) (hi : i < n)
    (hkeeps : ∀ s a s', c.set a s = .ok s' → s'.slotsLen = s.slotsLen ∧ s'.freeLen = s.freeLen) :
    Serves (refuse (fieldOffset size i field) len c) c := by
  have hend : (i + 1) * size ≤ n * size := Nat.mul_le_mul_right size hi
  rw [Nat.add_mul, Nat.one_mul] at hend
  refine ⟨refuse_served ?_ _, hkeeps⟩
  unfold fieldOffset offset
  rw [Nat.mod_eq_of_lt (by omega : i * size < 2 ^ 32), Nat.mod_eq_of_lt (by omega)]
  omega

theorem root_served : Serves (hostFields (K := K) (V := V) keySize valueSize).root
    (fields (nodeSize keySize valueSize)).root :=
  ⟨rfl, by rintro s a s' ⟨⟩; exact ⟨rfl, rfl⟩⟩

variable (hn : n * nodeSize keySize valueSize < 2 ^ 32) (hi : i < n)
include hn hi

theorem key_served : Serves ((hostFields (K := K) (V := V) keySize valueSize).key i)
    ((fields (nodeSize keySize valueSize)).key i) :=
  node_served 0 keySize (by unfold nodeSize; omega) hn hi (by rintro s a s' ⟨⟩; exact ⟨rfl, rfl⟩)

theorem value_served : Serves ((hostFields (K := K) (V := V) keySize valueSize).value i)
    ((fields (nodeSize keySize valueSize)).value i) :=
  node_served keySize valueSize (by unfold nodeSize; omega) hn hi (by rintro s a s' ⟨⟩; exact ⟨rfl, rfl⟩)

theorem left_served : Serves ((hostFields (K := K) (V := V) keySize valueSize).left i)
    ((fields (nodeSize keySize valueSize)).left i) :=
  node_served (keySize + valueSize) 4 (by unfold nodeSize; omega) hn hi (by rintro s a s' ⟨⟩; exact ⟨rfl, rfl⟩)

theorem right_served : Serves ((hostFields (K := K) (V := V) keySize valueSize).right i)
    ((fields (nodeSize keySize valueSize)).right i) :=
  node_served (keySize + valueSize + 4) 4 (by unfold nodeSize; omega) hn hi
    (by rintro s a s' ⟨⟩; exact ⟨rfl, rfl⟩)

theorem balance_served : Serves ((hostFields (K := K) (V := V) keySize valueSize).balance i)
    ((fields (nodeSize keySize valueSize)).balance i) :=
  node_served (keySize + valueSize + 4 + 4) 1 (by unfold nodeSize; omega) hn hi
    (by rintro s a s' ⟨⟩; exact ⟨rfl, rfl⟩)

end

/-! ## The parts of an operation -/

section
variable {keySize valueSize n m : Nat} {s : Pool K V}

/-- A node is looked up and worked on. -/
theorem node_bind {β : Type} {f g : Nat → M (Pool K V) β} {Q : β → Pool K V → Prop} (hs : Lens n m s)
    (idx : Nat) (h : ∀ i s', i < n → Lens n m s' → Follows s' (f i) (g i) Q) :
    Follows s (Rust.node (hostFields keySize valueSize) idx >>= f)
      (Rust.node (fields (nodeSize keySize valueSize)) idx >>= g) Q := by
  have hnode : Follows s (Rust.node (hostFields keySize valueSize) idx)
      (Rust.node (fields (nodeSize keySize valueSize)) idx) fun i s' => i < n ∧ Lens n m s' := by
    refine ⟨rfl, fun i s' h => ?_⟩
    obtain ⟨-, -, rfl, len, hlen, hlt⟩ := node_ok h
    obtain rfl := Except.ok.inj hlen
    exact ⟨hs.1 ▸ hlt, hs⟩
  exact hnode.bind fun i s' hi => h i s' hi.1 hi.2

variable (hn : n * nodeSize keySize valueSize < 2 ^ 32)
include hn

theorem rotLeft_follows (hs : Lens n m s) (par cur : Nat) :
    Follows s (Rust.rotLeft (hostFields keySize valueSize) par cur)
      (Rust.rotLeft (fields (nodeSize keySize valueSize)) par cur) fun _ s' => Lens n m s' := by
  refine node_bind hs par fun parN s hp hs => ?_
  refine node_bind hs cur fun curN s hc hs => ?_
  refine ((left_served hn hc).read hs).bind fun curL s hs => ?_
  refine ((left_served hn hc).write hs par).bind fun _ s hs => ?_
  refine ((right_served hn hp).write hs curL).bind fun _ s hs => ?_
  refine ((balance_served hn hc).read hs).bind fun b s hs => ?_
  refine Follows.ite (fun _ => ?_) fun _ => ?_
  · exact ((balance_served hn hp).write hs 1).bind fun _ s hs => (balance_served hn hc).write hs (-1)
  · exact ((balance_served hn hp).write hs 0).bind fun _ s hs => (balance_served hn hc).write hs 0

theorem rotRight_follows (hs : Lens n m s) (par cur : Nat) :
    Follows s (Rust.rotRight (hostFields keySize valueSize) par cur)
      (Rust.rotRight (fields (nodeSize keySize valueSize)) par cur) fun _ s' => Lens n m s' := by
  refine node_bind hs par fun parN s hp hs => ?_
  refine node_bind hs cur fun curN s hc hs => ?_
  refine ((right_served hn hc).read hs).bind fun curR s hs => ?_
  refine ((right_served hn hc).write hs par).bind fun _ s hs => ?_
  refine ((left_served hn hp).write hs curR).bind fun _ s hs => ?_
  refine ((balance_served hn hc).read hs).bind fun b s hs => ?_
  refine Follows.ite (fun _ => ?_) fun _ => ?_
  · exact ((balance_served hn hp).write hs (-1)).bind fun _ s hs => (balance_served hn hc).write hs 1
  · exact ((balance_served hn hp).write hs 0).bind fun _ s hs => (balance_served hn hc).write hs 0

/-- The three balances a double rotation ends with. -/
theorem balances_follows (hs : Lens n m s) {a b c : Nat} (ha : a < n) (hb : b < n) (hc : c < n) (x y z : Int) :
    Follows s (do
        ((hostFields (K := K) (V := V) keySize valueSize).balance a).write x
        ((hostFields keySize valueSize).balance b).write y
        ((hostFields keySize valueSize).balance c).write z)
      (do
        ((fields (nodeSize keySize valueSize)).balance a).write x
        ((fields (nodeSize keySize valueSize)).balance b).write y
        ((fields (nodeSize keySize valueSize)).balance c).write z) fun _ s' => Lens n m s' :=
  ((balance_served hn ha).write hs x).bind fun _ _ hs => ((balance_served hn hb).write hs y).bind fun _ _ hs =>
    (balance_served hn hc).write hs z

theorem rotRightLeft_follows (hs : Lens n m s) (gpar par cur : Nat) :
    Follows s (Rust.rotRightLeft (hostFields keySize valueSize) gpar par cur)
      (Rust.rotRightLeft (fields (nodeSize keySize valueSize)) gpar par cur) fun _ s' => Lens n m s' := by
  refine node_bind hs gpar fun gparN s hg hs => ?_
  refine node_bind hs par fun parN s hp hs => ?_
  refine node_bind hs cur fun curN s hc hs => ?_
  refine ((left_served hn hc).read hs).bind fun curL s hs => ?_
  refine ((right_served hn hc).read hs).bind fun curR s hs => ?_
  refine ((right_served hn hg).write hs curL).bind fun _ s hs => ?_
  refine ((left_served hn hp).write hs curR).bind fun _ s hs => ?_
  refine ((left_served hn hc).write hs gpar).bind fun _ s hs => ?_
  refine ((right_served hn hc).write hs par).bind fun _ s hs => ?_
  refine ((balance_served hn hc).read hs).bind fun b s hs => ?_
  refine Follows.ite (fun _ => balances_follows hn hs hp hg hc _ _ _) fun _ => ?_
  exact Follows.ite (fun _ => balances_follows hn hs hg hp hc _ _ _) fun _ => balances_follows hn hs hg hp hc _ _ _

theorem rotLeftRight_follows (hs : Lens n m s) (gpar par cur : Nat) :
    Follows s (Rust.rotLeftRight (hostFields keySize valueSize) gpar par cur)
      (Rust.rotLeftRight (fields (nodeSize keySize valueSize)) gpar par cur) fun _ s' => Lens n m s' := by
  refine node_bind hs gpar fun gparN s hg hs => ?_
  refine node_bind hs par fun parN s hp hs => ?_
  refine node_bind hs cur fun curN s hc hs => ?_
  refine ((left_served hn hc).read hs).bind fun curL s hs => ?_
  refine ((right_served hn hc).read hs).bind fun curR s hs => ?_
  refine ((left_served hn hg).write hs curR).bind fun _ s hs => ?_
  refine ((right_served hn hp).write hs curL).bind fun _ s hs => ?_
  refine ((left_served hn hc).write hs par).bind fun _ s hs => ?_
  refine ((right_served hn hc).write hs gpar).bind fun _ s hs => ?_
  refine ((balance_served hn hc).read hs).bind fun b s hs => ?_
  refine Follows.ite (fun _ => balances_follows hn hs hp hg hc _ _ _) fun _ => ?_
  exact Follows.ite (fun _ => balances_follows hn hs hp hg hc _ _ _) fun _ => balances_follows hn hs hp hg hc _ _ _

theorem setChild_follows (hs : Lens n m s) (parent : Nat) (isLeft : Bool) (child : Nat) :
    Follows s (setChildWith (hostFields keySize valueSize) (Rust.node (hostFields keySize valueSize))
        parent isLeft child)
      (setChildWith (fields (nodeSize keySize valueSize)) (Rust.node (fields (nodeSize keySize valueSize)))
        parent isLeft child) fun _ s' => Lens n m s' := by
  refine node_bind hs parent fun i s hi hs => ?_
  exact Follows.ite (fun _ => (left_served hn hi).write hs child) fun _ => (right_served hn hi).write hs child

theorem replaceChild_follows (hs : Lens n m s) (seq : List Nat) (depth oldChild newChild : Nat) :
    Follows s (Rust.replaceChild (hostFields keySize valueSize) seq depth oldChild newChild)
      (Rust.replaceChild (fields (nodeSize keySize valueSize)) seq depth oldChild newChild)
      fun _ s' => Lens n m s' := by
  refine Follows.ite (fun _ => root_served.write hs newChild) fun _ => ?_
  refine node_bind hs _ fun gp s hg hs => ((left_served hn hg).read hs).bind fun l s hs => ?_
  exact Follows.ite (fun _ => (left_served hn hg).write hs newChild) fun _ => (right_served hn hg).write hs newChild

theorem findPathWith_follows [LinearOrder K] (k : K) (fuel : Nat) : ∀ {s : Pool K V} (_ : Lens n m s)
    (path : List Nat) (cur : Nat) (isLess : Bool),
    Follows s (findPathWith (hostFields keySize valueSize) (Rust.node (hostFields keySize valueSize))
        k fuel path cur isLess)
      (findPathWith (fields (nodeSize keySize valueSize)) (Rust.node (fields (nodeSize keySize valueSize)))
        k fuel path cur isLess) fun _ s' => Lens n m s' := by
  induction fuel with
  | zero => exact fun _ _ _ _ => Follows.throw _
  | succ fuel ih =>
    intro s hs path cur isLess
    unfold findPathWith
    refine Follows.ite (fun _ => Follows.pure hs) fun _ => ?_
    refine node_bind hs cur fun i s hi hs => ((key_served hn hi).read hs).bind fun nk s hs => ?_
    refine Follows.ite (fun _ => ?_) fun _ => Follows.ite (fun _ => ?_) fun _ => Follows.pure hs
    · exact ((left_served hn hi).read hs).bind fun next s hs => ih hs _ _ _
    · exact ((right_served hn hi).read hs).bind fun next s hs => ih hs _ _ _

theorem findPath_follows [LinearOrder K] (hs : Lens n m s) (fuel : Nat) (k : K) :
    Follows s (Rust.findPath (hostFields keySize valueSize) fuel k)
      (Rust.findPath (fields (nodeSize keySize valueSize)) fuel k) fun _ s' => Lens n m s' :=
  (root_served.read hs).bind fun _ _ hs => findPathWith_follows hn k fuel hs _ _ _

theorem leftmost_follows (fuel : Nat) : ∀ {s : Pool K V} (_ : Lens n m s) (seq : List Nat),
    Follows s (leftmostWith (hostFields keySize valueSize) (Rust.node (hostFields keySize valueSize)) fuel seq)
      (leftmostWith (fields (nodeSize keySize valueSize)) (Rust.node (fields (nodeSize keySize valueSize))) fuel seq)
      fun _ s' => Lens n m s' := by
  induction fuel with
  | zero => exact fun _ _ => Follows.throw _
  | succ fuel ih =>
    intro s hs seq
    unfold leftmostWith
    refine node_bind hs _ fun i s hi hs => ((left_served hn hi).read hs).bind fun l s hs => ?_
    exact Follows.ite (fun _ => ih hs _) fun _ => Follows.pure hs

theorem splice_follows (hs : Lens n m s) (fuel : Nat) (seq : List Nat) (delLeft delRight : Nat) :
    Follows s (Rust.splice (hostFields keySize valueSize) fuel seq delLeft delRight)
      (Rust.splice (fields (nodeSize keySize valueSize)) fuel seq delLeft delRight) fun _ s' => Lens n m s' := by
  refine Follows.ite (fun _ => Follows.pure hs) fun _ => ?_
  refine (leftmost_follows hn fuel hs _).bind fun seq s hs => ?_
  refine node_bind hs _ fun repN s hr hs => ?_
  refine ((left_served hn hr).write hs delLeft).bind fun _ s hs => ?_
  refine Follows.ite (fun _ => ?_) fun _ => ?_
  · refine node_bind hs _ fun parentN s hp hs => ((right_served hn hr).read hs).bind fun r s hs => ?_
    refine ((left_served hn hp).write hs r).bind fun _ s hs => ?_
    refine ((right_served hn hr).write hs delRight).bind fun _ s hs => ?_
    exact ((left_served hn hp).read hs).bind fun l s hs => Follows.pure hs
  · exact ((right_served hn hr).read hs).bind fun r s hs => Follows.pure hs

theorem linkMoved_follows (hs : Lens n m s) (seq : List Nat) (seqMoveTo : Nat) (isLeft : Bool) :
    Follows s (Rust.linkMoved (hostFields keySize valueSize) seq seqMoveTo isLeft)
      (Rust.linkMoved (fields (nodeSize keySize valueSize)) seq seqMoveTo isLeft) fun _ s' => Lens n m s' :=
  Follows.ite (fun _ => setChild_follows hn hs _ _ _) fun _ => root_served.write hs _

theorem patchBalance_follows (hs : Lens n m s) (moved : Nat) (specialNull : Bool) (delBalance : Int) :
    Follows s (Rust.patchBalance (hostFields keySize valueSize) moved specialNull delBalance)
      (Rust.patchBalance (fields (nodeSize keySize valueSize)) moved specialNull delBalance)
      fun _ s' => Lens n m s' := by
  refine Follows.ite (fun _ => ?_) fun _ => Follows.pure hs
  exact node_bind hs moved fun i s hi hs => (balance_served hn hi).write hs _

omit hn in
theorem fixRoot_follows (hs : Lens n m s) (seq : List Nat) : Follows s (fixRoot (hostFields keySize valueSize) seq)
    (fixRoot (fields (nodeSize keySize valueSize)) seq) fun _ s' => Lens n m s' :=
  (root_served.read hs).bind fun _ _ hs => Follows.ite (fun _ => root_served.write hs _) fun _ => Follows.pure hs

theorem initNode_follows (hs : Lens n m s) {i : Nat} (hi : i < n) (k : K) (v : V) :
    Follows s (Rust.initNode (hostFields keySize valueSize) i k v)
      (Rust.initNode (fields (nodeSize keySize valueSize)) i k v) fun _ s' => Lens n m s' := by
  refine ((key_served hn hi).write hs k).bind fun _ s hs => ?_
  refine ((left_served hn hi).write hs 0).bind fun _ s hs => ((right_served hn hi).write hs 0).bind fun _ s hs => ?_
  exact ((balance_served hn hi).write hs 0).bind fun _ s hs => (value_served hn hi).write hs v

theorem insertRebalance_follows (fuel : Nat) : ∀ {s : Pool K V} (_ : Lens n m s) (seq : List Nat),
    Follows s (Rust.insertRebalance (hostFields keySize valueSize) fuel seq)
      (Rust.insertRebalance (fields (nodeSize keySize valueSize)) fuel seq) fun _ s' => Lens n m s' := by
  induction fuel with
  | zero => exact fun hs _ => Follows.pure hs
  | succ fuel ih =>
    intro s hs seq
    unfold Rust.insertRebalance
    refine Follows.ite (fun _ => Follows.pure hs) fun _ => ?_
    refine node_bind hs _ fun parN s hp hs => ((left_served hn hp).read hs).bind fun l s hs => ?_
    refine ((balance_served hn hp).read hs).bind fun b s hs => ?_
    refine Follows.ite (fun _ => ?_) fun _ => Follows.ite (fun _ => ?_) fun _ => ?_
    · refine node_bind hs _ fun curN s hc hs => ?_
      refine ((balance_served hn hc).read hs).bind fun cb s hs => ?_
      refine Follows.ite (fun _ => ?_) fun _ => ?_
      · refine ((right_served hn hc).read hs).bind fun child s hs => ?_
        refine (rotLeftRight_follows hn hs _ _ _).bind fun _ s hs => ?_
        exact (replaceChild_follows hn hs _ _ _ _).bind fun _ s hs => Follows.pure hs
      · refine (rotRight_follows hn hs _ _).bind fun _ s hs => ?_
        exact (replaceChild_follows hn hs _ _ _ _).bind fun _ s hs => Follows.pure hs
    · refine node_bind hs _ fun curN s hc hs => ?_
      refine ((balance_served hn hc).read hs).bind fun cb s hs => ?_
      refine Follows.ite (fun _ => ?_) fun _ => ?_
      · refine ((left_served hn hc).read hs).bind fun child s hs => ?_
        refine (rotRightLeft_follows hn hs _ _ _).bind fun _ s hs => ?_
        exact (replaceChild_follows hn hs _ _ _ _).bind fun _ s hs => Follows.pure hs
      · refine (rotLeft_follows hn hs _ _).bind fun _ s hs => ?_
        exact (replaceChild_follows hn hs _ _ _ _).bind fun _ s hs => Follows.pure hs
    · refine ((balance_served hn hp).write hs _).bind fun _ s hs => ?_
      exact Follows.ite (fun _ => Follows.pure hs) fun _ => ih hs _

theorem removeRebalance_follows (fuel : Nat) : ∀ {s : Pool K V} (_ : Lens n m s) (seq : List Nat)
    (special : Option Bool), Follows s (Rust.removeRebalance (hostFields keySize valueSize) fuel seq special)
      (Rust.removeRebalance (fields (nodeSize keySize valueSize)) fuel seq special) fun _ s' => Lens n m s' := by
  induction fuel with
  | zero => exact fun hs _ _ => Follows.pure hs
  | succ fuel ih =>
    intro s hs seq special
    unfold Rust.removeRebalance
    refine Follows.ite (fun _ => Follows.pure hs) fun _ => ?_
    refine node_bind hs _ fun parN s hp hs => ((left_served hn hp).read hs).bind fun l s hs => ?_
    refine ((balance_served hn hp).read hs).bind fun b s hs => ?_
    refine Follows.ite (fun _ => ?_) fun _ => Follows.ite (fun _ => ?_) fun _ => ?_
    · refine ((left_served hn hp).read hs).bind fun sib s hs => ?_
      refine node_bind hs sib fun sibN s hb hs => ?_
      refine ((balance_served hn hb).read hs).bind fun sibBal s hs => Follows.ite (fun _ => ?_) fun _ => ?_
      · refine ((right_served hn hb).read hs).bind fun child s hs => ?_
        refine (rotLeftRight_follows hn hs _ _ _).bind fun _ s hs => ?_
        refine (replaceChild_follows hn hs _ _ _ _).bind fun _ s hs => ?_
        exact Follows.ite (fun _ => Follows.pure hs) fun _ => ih hs _ _
      · refine (rotRight_follows hn hs _ _).bind fun _ s hs => ?_
        refine (replaceChild_follows hn hs _ _ _ _).bind fun _ s hs => ?_
        exact Follows.ite (fun _ => Follows.pure hs) fun _ => ih hs _ _
    · refine ((right_served hn hp).read hs).bind fun sib s hs => ?_
      refine node_bind hs sib fun sibN s hb hs => ?_
      refine ((balance_served hn hb).read hs).bind fun sibBal s hs => Follows.ite (fun _ => ?_) fun _ => ?_
      · refine ((left_served hn hb).read hs).bind fun child s hs => ?_
        refine (rotRightLeft_follows hn hs _ _ _).bind fun _ s hs => ?_
        refine (replaceChild_follows hn hs _ _ _ _).bind fun _ s hs => ?_
        exact Follows.ite (fun _ => Follows.pure hs) fun _ => ih hs _ _
      · refine (rotLeft_follows hn hs _ _).bind fun _ s hs => ?_
        refine (replaceChild_follows hn hs _ _ _ _).bind fun _ s hs => ?_
        exact Follows.ite (fun _ => Follows.pure hs) fun _ => ih hs _ _
    · refine ((balance_served hn hp).write hs _).bind fun _ s hs => ?_
      exact Follows.ite (fun _ => Follows.pure hs) fun _ => ih hs _ _

theorem visitImpl_follows (fuel : Nat) : ∀ {s : Pool K V} (_ : Lens n m s) (idx : Nat) (seen : List (K × V)),
    Follows s (Rust.visitImpl (hostFields keySize valueSize) fuel idx seen)
      (Rust.visitImpl (fields (nodeSize keySize valueSize)) fuel idx seen) fun _ s' => Lens n m s' := by
  induction fuel with
  | zero => exact fun _ _ _ => Follows.throw _
  | succ fuel ih =>
    intro s hs idx seen
    unfold Rust.visitImpl
    refine Follows.ite (fun _ => Follows.pure hs) fun _ => ?_
    refine node_bind hs idx fun i s hi hs => ((left_served hn hi).read hs).bind fun l s hs => ?_
    refine (ih hs l seen).bind fun seen s hs => ((key_served hn hi).read hs).bind fun k s hs => ?_
    refine ((value_served hn hi).read hs).bind fun v s hs => ((right_served hn hi).read hs).bind fun r s hs => ?_
    exact ih hs _ _

theorem get_follows [LinearOrder K] (hs : Lens n m s) (fuel : Nat) (k : K) :
    Follows s (Rust.get (hostFields keySize valueSize) fuel k) (Rust.get (fields (nodeSize keySize valueSize)) fuel k)
      fun _ s' => Lens n m s' := by
  refine (findPath_follows hn hs fuel k).bind fun p s hs => Follows.ite (fun _ => Follows.pure hs) fun _ => ?_
  refine node_bind hs _ fun i s hi hs => ?_
  exact ((value_served hn hi).read hs).bind fun v s hs => Follows.pure hs

/-! ## The free stack -/

omit hn in
theorem index_ok {len : Cell σ Nat} {u u' : σ} {i j : Nat} (h : Rust.index len i u = .ok (j, u')) :
    j = i ∧ u = u' ∧ ∃ l, len.get u = .ok l ∧ i < l := by
  unfold Rust.index at h
  obtain ⟨l, u1, hread, h⟩ := Agree.bind_ok.mp h
  obtain ⟨hget, rfl⟩ := read_ok hread
  split at h
  · obtain ⟨rfl, rfl⟩ := Agree.pure_ok.mp h
    exact ⟨rfl, rfl, l, hget, ‹_›⟩
  · exact absurd h Agree.throw_ok

omit hn in
theorem free_served {i : Nat} (hi : i * 4 + 4 < 2 ^ 32) :
    Serves ((hostFields (K := K) (V := V) keySize valueSize).free i)
      ((fields (nodeSize keySize valueSize)).free i) := by
  refine ⟨refuse_served ?_ _, by rintro s a s' ⟨⟩; exact ⟨rfl, rfl⟩⟩
  unfold offset
  omega

/-- The free stack is shorter than the pool, whose nodes are at least nine bytes. -/
theorem nine_lt : n * 9 < 2 ^ 32 :=
  lt_of_le_of_lt (Nat.mul_le_mul_left n (by unfold nodeSize; omega)) hn

omit hn in
theorem pop_freeLen_follows (hs : Lens n m s) :
    Follows s (Rust.pop (hostFields (K := K) (V := V) keySize valueSize).freeLen)
      (Rust.pop (fields (nodeSize keySize valueSize)).freeLen) fun _ s' => Lens n (m - 1) s' := by
  refine ⟨rfl, fun a s' h => ?_⟩
  unfold Rust.pop at h
  rw [bind_freeLen] at h
  split at h
  · exact absurd h Agree.throw_ok
  · cases h
    exact ⟨hs.1, congrArg (· - 1) hs.2⟩

/-- A new slot: from the free stack, or behind the pool where there is room. -/
theorem allocSlot_follows (hs : Lens n m s) (hm : m ≤ n)
    (hroom : m = 0 → (n + 1) * nodeSize keySize valueSize < 2 ^ 32) :
    Follows s (Rust.allocSlot (hostFields keySize valueSize)) (Rust.allocSlot (fields (nodeSize keySize valueSize)))
      fun i s' => ∃ n' m', n' * nodeSize keySize valueSize < 2 ^ 32 ∧ i < n' ∧ Lens n' m' s' := by
  have hlen : Follows s (hostFields (K := K) (V := V) keySize valueSize).freeLen.read
      (fields (nodeSize keySize valueSize)).freeLen.read fun a s' => a = m ∧ Lens n m s' :=
    ⟨rfl, by rintro a s' ⟨⟩; exact ⟨hs.2, hs⟩⟩
  refine hlen.bind ?_
  rintro a s ⟨rfl, hs⟩
  refine Follows.ite (fun ha => ?_) fun ha => ?_
  · have hlast : Follows s (Rust.index (hostFields (K := K) (V := V) keySize valueSize).freeLen (a - 1))
        (Rust.index (fields (nodeSize keySize valueSize)).freeLen (a - 1)) fun i s' => i < n ∧ Lens n a s' := by
      refine ⟨rfl, fun i s' h => ?_⟩
      obtain ⟨rfl, rfl, -⟩ := index_ok h
      exact ⟨by omega, hs⟩
    have hnine := nine_lt hn
    refine hlast.bind fun last s hread => ?_
    obtain ⟨hlt, hs⟩ := hread
    refine ((free_served (by omega)).read hs).bind fun idx s hs => ?_
    refine (pop_freeLen_follows hs).bind fun _ s hs => ⟨rfl, fun i s' h => ?_⟩
    obtain ⟨rfl, rfl, len, hget, hlt⟩ := index_ok h
    obtain rfl := Except.ok.inj hget
    exact ⟨n, a - 1, hn, hs.1 ▸ hlt, hs⟩
  · refine ⟨rfl, fun i s' h => ?_⟩
    unfold Rust.appendSlot at h
    rw [bind_slotsLen] at h
    cases h
    obtain ⟨rfl, hfree⟩ := hs
    have hend := hroom (not_not.mp ha)
    have hsmall : s.slotsLen + 1 < 2 ^ 32 := lt_of_le_of_lt (Nat.le_mul_of_pos_right _ (by unfold nodeSize; omega)) hend
    refine ⟨s.slotsLen + 1, a, hend, Nat.lt_succ_self _, ?_, hfree⟩
    change (s.slotsLen + 1) % 2 ^ 32 % 2 ^ 32 = s.slotsLen + 1
    rw [Nat.mod_mod, Nat.mod_eq_of_lt hsmall]

theorem freeSlot_follows (hs : Lens n m s) (hm : m ≤ n) (hpos : 0 < n) (slot : Nat) :
    Follows s (Rust.freeSlot (hostFields keySize valueSize) slot)
      (Rust.freeSlot (fields (nodeSize keySize valueSize)) slot) fun _ s' => ∃ n' m',
        n' * nodeSize keySize valueSize < 2 ^ 32 ∧ Lens n' m' s' := by
  have hread : Follows s (hostFields (K := K) (V := V) keySize valueSize).slotsLen.read
      (fields (nodeSize keySize valueSize)).slotsLen.read fun _ s' => Lens n m s' :=
    ⟨rfl, by rintro a s' ⟨⟩; exact hs⟩
  refine hread.bind fun a s hs => Follows.ite (fun _ => ?_) fun _ => ?_
  · refine ⟨rfl, fun u s' h => ?_⟩
    unfold Rust.pop at h
    rw [bind_slotsLen] at h
    split at h
    · exact absurd h Agree.throw_ok
    · cases h
      have hless : (n - 1) * nodeSize keySize valueSize ≤ n * nodeSize keySize valueSize :=
        Nat.mul_le_mul_right _ (Nat.sub_le n 1)
      refine ⟨n - 1, m, hless.trans_lt hn, ?_, hs.2⟩
      have hlt := s.slotsLen_lt
      change (s.slotsLen - 1) % 2 ^ 32 = n - 1
      rw [hs.1, Nat.mod_eq_of_lt (by have := hs.1; omega)]
  · have happend : Follows s (Rust.appendSlot (hostFields (K := K) (V := V) keySize valueSize).freeLen)
        (Rust.appendSlot (fields (nodeSize keySize valueSize)).freeLen)
        fun i s' => i = m ∧ Lens n ((m + 1) % 2 ^ 32) s' := by
      refine ⟨rfl, fun i s' h => ?_⟩
      unfold Rust.appendSlot at h
      rw [bind_freeLen] at h
      cases h
      exact ⟨hs.2, hs.1, congrArg (fun m => (m + 1) % 2 ^ 32) hs.2⟩
    refine happend.bind ?_
    rintro i s ⟨rfl, hs⟩
    have hnine := nine_lt hn
    exact ((free_served (by omega)).write hs slot).mono fun _ s' h => ⟨n, _, hn, h⟩

theorem remove_follows [LinearOrder K] (hs : Lens n m s) (hm : m ≤ n) (fuel : Nat) (k : K) :
    Follows s (Rust.remove (hostFields keySize valueSize) fuel k)
      (Rust.remove (fields (nodeSize keySize valueSize)) fuel k)
      fun _ s' => Small (nodeSize keySize valueSize) s' := by
  refine (findPath_follows hn hs fuel k).bind fun p s hs => Follows.ite (fun _ => ?_) fun _ => ?_
  · exact Follows.pure (hs.small hn)
  · refine node_bind hs _ fun del s hd hs => ((left_served hn hd).read hs).bind fun delLeft s hs => ?_
    refine ((right_served hn hd).read hs).bind fun delRight s hs => ?_
    refine ((balance_served hn hd).read hs).bind fun delBalance s hs => ?_
    refine (freeSlot_follows hn hs hm (Nat.zero_lt_of_lt hd) _).bind ?_
    rintro _ s ⟨n', m', hn, hs⟩
    refine (splice_follows hn hs _ _ _ _).bind fun q s hs => (linkMoved_follows hn hs _ _ _).bind fun _ s hs => ?_
    refine (patchBalance_follows hn hs _ _ _).bind fun _ s hs => ?_
    refine (removeRebalance_follows hn _ hs _ _).bind fun seq s hs => (fixRoot_follows hs _).bind fun _ s hs => ?_
    exact Follows.pure (hs.small hn)

end

/-! ## Insertion -/

section
variable [LinearOrder K] {keySize valueSize fuel : Nat} {s : Pool K V} {t : ATree K V} {k : K}

omit [LinearOrder K] in
theorem length_entries (h : Arena s (ids t)) : (entries t).length + s.freeLen = s.slotsLen := by
  have hlen := h.length
  rwa [ids, List.length_map, ← List.length_map fun e : Entry K V => (e.key, e.value)] at hlen

theorem length_insert (h : Ordered t) (v : V) :
    (SortedMap.insert (fun a b => a < b) k v (entries t)).length =
      (entries t).length + if ((entries t).lookup k).isSome then 0 else 1 :=
  SortedMap.length_insert order (List.pairwise_map.mpr h)

/-- The walk ends at a node when the map has the key. -/
theorem findPath_lookup {size : Nat} (h : Holds size s t) (hf : t.height < fuel) (k : K) :
    ∃ seq left, Rust.findPath (fields size) fuel k s = .ok ((seq, left), s) ∧
      (((entries t).lookup k).isSome ↔ top seq ≠ 0) := by
  obtain ⟨c, t₀, he, hp, hend, hat, hrun⟩ := findPath_root (k := k) h.stored h.ordered hf
  refine ⟨_, _, hrun, ?_⟩
  rw [top_path]
  rcases hend with rfl | ⟨l, a, b, r, rfl, rfl⟩
  · rw [hp.lookup_none he]
    exact iff_of_false (by simp) fun h => h rfl
  · have hai : InPool s a.id := hat.inside.inPool _ (by simp)
    have hlist : t.toList = (before c ++ l.toList) ++ a :: (r.toList ++ after c) := by
      rw [← he, toList_plug, AvlTree.toList_node]
      simp
    rw [lookup_some h.ordered hlist]
    exact iff_of_true rfl (Nat.pos_iff_ne_zero.mp hai.1)

theorem insert_follows (v : V) (h : Holds (nodeSize keySize valueSize) s t) (hf : t.height < fuel)
    (hn : s.slotsLen * nodeSize keySize valueSize < 2 ^ 32)
    (hcap : (SortedMap.insert (fun a b => a < b) k v (entries t)).length * nodeSize keySize valueSize < 2 ^ 32) :
    Follows s (Rust.insertHandle (hostFields keySize valueSize) fuel k v)
      (Rust.insertHandle (fields (nodeSize keySize valueSize)) fuel k v)
      fun i s' => ∃ n m, n * nodeSize keySize valueSize < 2 ^ 32 ∧ i < n ∧ Lens n m s' := by
  have hs : Lens s.slotsLen s.freeLen s := ⟨rfl, rfl⟩
  have hlen := length_entries h.arena
  obtain ⟨seq, left, hrun, hfound⟩ := findPath_lookup h hf k
  refine (findPath_follows hn hs fuel k).run hrun (Follows.ite (fun _ => ?_) fun h0 => ?_)
  · refine node_bind hs _ fun i s hi hs => ((value_served hn hi).write hs v).bind fun _ s hs => ?_
    exact Follows.pure ⟨_, _, hn, hi, hs⟩
  · have hroom : s.freeLen = 0 → (s.slotsLen + 1) * nodeSize keySize valueSize < 2 ^ 32 := by
      intro hm
      rw [length_insert h.ordered, if_neg (mt hfound.mp h0)] at hcap
      rwa [← hlen, hm, Nat.add_zero]
    refine Follows.ite (fun _ => ?_) fun _ => ?_
    · refine (allocSlot_follows hn hs (by omega) hroom).bind ?_
      rintro i s ⟨n', m', hn, hi, hs⟩
      refine (root_served.write hs _).bind fun _ s hs => (initNode_follows hn hs hi k v).bind fun _ s hs => ?_
      exact Follows.pure ⟨_, _, hn, hi, hs⟩
    · refine (allocSlot_follows hn hs (by omega) hroom).bind ?_
      rintro i s ⟨n', m', hn, hi, hs⟩
      refine (setChild_follows hn hs _ _ _).bind fun _ s hs => (initNode_follows hn hs hi k v).bind fun _ s hs => ?_
      refine (insertRebalance_follows hn _ hs _).bind fun seq s hs => (fixRoot_follows hs _).bind fun _ s hs => ?_
      exact Follows.pure ⟨_, _, hn, hi, hs⟩

/-! ## The insertion that does not fit -/

omit [LinearOrder K] in
theorem refuse_ends {off len : Nat} {c : Cell (Pool K V) α} {a : α} (hc : ∃ u, c.set a s = .ok u) :
    Consume.Ends (· = .panicked) ((refuse off len c).write a) s fun _ _ => off + len < 2 ^ 32 := by
  obtain ⟨u, hc⟩ := hc
  unfold Consume.Ends Cell.write refuse
  by_cases h : off + len < 2 ^ 32
  · simp only [if_pos h, hc]
    exact h
  · simp only [if_neg h]
    rfl

omit [LinearOrder K] in
/-- One field of a node that ends at `2 ^ 32` or behind it is refused. -/
theorem initNode_refused {i : Nat} (hi : i * nodeSize keySize valueSize < 2 ^ 32)
    (hend : 2 ^ 32 ≤ (i + 1) * nodeSize keySize valueSize) (k : K) (v : V) :
    Consume.Ends (· = .panicked) (Rust.initNode (hostFields keySize valueSize) i k v) s fun _ _ => False := by
  rw [Nat.add_mul, Nat.one_mul] at hend
  refine Consume.Ends.bind ((refuse_ends ⟨_, rfl⟩).mono fun _ s hkey => ?_)
  refine Consume.Ends.bind ((refuse_ends ⟨_, rfl⟩).mono fun _ s hleft => ?_)
  refine Consume.Ends.bind ((refuse_ends ⟨_, rfl⟩).mono fun _ s hright => ?_)
  refine Consume.Ends.bind ((refuse_ends ⟨_, rfl⟩).mono fun _ s hbalance => ?_)
  refine (refuse_ends ⟨_, rfl⟩).mono fun _ s hvalue => ?_
  unfold fieldOffset offset at hkey hleft hright hbalance hvalue
  rw [Nat.mod_eq_of_lt hi] at hkey hleft hright hbalance hvalue
  generalize i * nodeSize keySize valueSize = o at *
  unfold nodeSize at hend
  omega

omit [LinearOrder K] in
theorem setChild_ends (parent : Nat) (isLeft : Bool) (child : Nat) :
    Consume.Ends (· = .panicked) (setChildWith (hostFields (K := K) (V := V) keySize valueSize)
      (Rust.node (hostFields keySize valueSize)) parent isLeft child) s fun _ _ => True := by
  have hwrite : ∀ (i : Nat) (s : Pool K V), Consume.Ends (· = .panicked)
      (if isLeft then ((hostFields (K := K) (V := V) keySize valueSize).left i).write child
        else ((hostFields (K := K) (V := V) keySize valueSize).right i).write child) s fun _ _ => True := by
    intro i s
    split
    · exact (refuse_ends ⟨_, rfl⟩).mono fun _ _ _ => trivial
    · exact (refuse_ends ⟨_, rfl⟩).mono fun _ _ _ => trivial
  refine Consume.Ends.bind ?_
  unfold Rust.node Rust.index
  split
  · exact Consume.Ends.throw rfl
  · refine Consume.Ends.run (a := s.slotsLen) (u := s) rfl ?_
    split
    · exact Consume.Ends.pure (hwrite _ s)
    · exact Consume.Ends.throw rfl

omit [LinearOrder K] in
/-- Without a free slot the new one is behind the pool. -/
theorem allocSlot_append (hm : s.freeLen = 0) :
    ∃ s', Rust.allocSlot (hostFields (K := K) (V := V) keySize valueSize) s = .ok (s.slotsLen, s') := by
  unfold Rust.allocSlot
  have hread : (hostFields (K := K) (V := V) keySize valueSize).freeLen.read s = .ok (s.freeLen, s) := rfl
  rw [run_bind hread, if_neg (not_not.mpr hm)]
  exact ⟨_, rfl⟩

theorem insert_refused (v : V) (h : Holds (nodeSize keySize valueSize) s t) (hf : t.height < fuel)
    (hn : s.slotsLen * nodeSize keySize valueSize < 2 ^ 32)
    (hcap : 2 ^ 32 ≤ (SortedMap.insert (fun a b => a < b) k v (entries t)).length * nodeSize keySize valueSize) :
    Consume.Ends (· = .panicked) (Rust.insertHandle (hostFields keySize valueSize) fuel k v) s fun _ _ => False := by
  have hlen := length_entries h.arena
  obtain ⟨seq, left, hrun, hfound⟩ := findPath_lookup h hf k
  rw [length_insert h.ordered] at hcap
  -- the key is new, and every slot in use
  have hmore : ¬ (entries t).length + (if ((entries t).lookup k).isSome then 0 else 1) ≤ s.slotsLen :=
    fun hle => absurd (Nat.mul_le_mul_right (nodeSize keySize valueSize) hle) (by omega)
  have h0 : ¬ top seq ≠ 0 := by
    intro hne
    rw [if_pos (hfound.mpr hne)] at hmore
    omega
  rw [if_neg (mt hfound.mp h0)] at hmore hcap
  have hm : s.freeLen = 0 := by omega
  rw [show (entries t).length = s.slotsLen by omega] at hcap
  obtain ⟨s', halloc⟩ : ∃ s', Rust.allocSlot (hostFields keySize valueSize) s = .ok (s.slotsLen, s') :=
    allocSlot_append hm
  have hfind := ((findPath_follows hn ⟨rfl, rfl⟩ fuel k).1).trans hrun
  refine Consume.Ends.run hfind ?_
  dsimp only
  rw [if_neg h0]
  split
  · refine Consume.Ends.run halloc (Consume.Ends.bind ?_)
    exact Consume.Ends.bind ((initNode_refused hn hcap k v).mono fun _ _ h => h.elim)
  · refine Consume.Ends.run halloc (Consume.Ends.bind ((setChild_ends _ _ _).mono fun _ s _ => ?_))
    exact Consume.Ends.bind ((initNode_refused hn hcap k v).mono fun _ _ h => h.elim)

/-! ## Runs -/

theorem Op.run_follows (op : Op K V) (h : Holds (nodeSize keySize valueSize) s t) (hf : t.height < fuel)
    (hn : Small (nodeSize keySize valueSize) s)
    (hcap : (op.apply (entries t)).2.length * nodeSize keySize valueSize < 2 ^ 32) :
    Follows s (op.run (hostFields keySize valueSize) fuel) (op.run (fields (nodeSize keySize valueSize)) fuel)
      fun _ s' => Small (nodeSize keySize valueSize) s' := by
  have hs : Lens s.slotsLen s.freeLen s := ⟨rfl, rfl⟩
  have hm : s.freeLen ≤ s.slotsLen := by have := length_entries h.arena; omega
  cases op with
  | insert k v =>
    refine (insert_follows v h hf hn hcap).bind ?_
    rintro i s ⟨n, m, hn, hi, hs⟩
    exact ((value_served hn hi).read hs).bind fun w s hs => Follows.pure (hs.small hn)
  | remove k => exact (remove_follows hn hs hm fuel k).bind fun _ _ h => Follows.pure h
  | get k => exact (get_follows hn hs fuel k).bind fun _ _ hs => Follows.pure (hs.small hn)
  | clear =>
    refine ⟨rfl, ?_⟩
    rintro r s' ⟨⟩
    show 0 % 2 ^ 32 * _ < 2 ^ 32
    omega
  | len =>
    refine ⟨rfl, ?_⟩
    rintro r s' ⟨⟩
    exact hn
  | forEach =>
    refine Follows.bind (Q := fun _ s' => Small (nodeSize keySize valueSize) s') ?_ fun _ _ h => Follows.pure h
    refine (root_served.read hs).bind fun root s hs => (visitImpl_follows hn fuel hs _ _).mono ?_
    exact fun _ s hs => hs.small hn

/-- One operation that keeps the map small. -/
theorem Op.host_step (op : Op K V) (hfuel : 42 ≤ fuel) (h : Holds (nodeSize keySize valueSize) s t)
    (hn : Small (nodeSize keySize valueSize) s)
    (hcap : (op.apply (entries t)).2.length * nodeSize keySize valueSize < 2 ^ 32) :
    ∃ s' t', op.run (hostFields keySize valueSize) fuel s = .ok ((op.apply (entries t)).1, s') ∧
      Holds (nodeSize keySize valueSize) s' t' ∧ Small (nodeSize keySize valueSize) s' ∧
      entries t' = (op.apply (entries t)).2 := by
  have hf : t.height < fuel := by
    have := h.height
    omega
  obtain ⟨s', t', hrun, hholds, hent⟩ := op.run_step hfuel h hcap.le
  obtain ⟨heq, hsmall⟩ := op.run_follows h hf hn hcap
  exact ⟨s', t', heq.trans hrun, hholds, hsmall _ _ hrun, hent⟩

/-- One operation that does not. -/
theorem Op.run_refused (op : Op K V) (hfuel : 42 ≤ fuel) (h : Holds (nodeSize keySize valueSize) s t)
    (hn : Small (nodeSize keySize valueSize) s)
    (hcap : 2 ^ 32 ≤ (op.apply (entries t)).2.length * nodeSize keySize valueSize) :
    op.run (hostFields keySize valueSize) fuel s = .error .panicked := by
  have hf : t.height < fuel := by
    have := h.height
    omega
  have hlen := length_entries h.arena
  -- an operation that adds no entry leaves the map as small as it is
  have hsame : ¬ (op.apply (entries t)).2.length ≤ (entries t).length := by
    intro hle
    have hmul := Nat.mul_le_mul_right (nodeSize keySize valueSize) (hle.trans (by omega : _ ≤ s.slotsLen))
    unfold Small at hn
    omega
  cases op with
  | insert k v =>
    refine Consume.Ends.fails (Consume.Ends.bind ?_)
    exact (insert_refused v h hf hn hcap).mono fun _ _ h => h.elim
  | remove k => exact absurd (List.length_filter_le _ _) hsame
  | get k => exact absurd le_rfl hsame
  | clear => exact absurd (Nat.zero_le _) hsame
  | len => exact absurd le_rfl hsame
  | forEach => exact absurd le_rfl hsame

theorem runOps_host (hfuel : 42 ≤ fuel) : ∀ {ops : List (Op K V)} {s : Pool K V} {t : ATree K V},
    Holds (nodeSize keySize valueSize) s t → Small (nodeSize keySize valueSize) s →
    FitsPool (nodeSize keySize valueSize) (entries t) ops →
    ∃ s' t', runOps (hostFields keySize valueSize) fuel ops s = .ok ((applyOps (entries t) ops).1, s') ∧
      Holds (nodeSize keySize valueSize) s' t' ∧ entries t' = (applyOps (entries t) ops).2
  | [], s, t, h, _, _ => ⟨s, t, rfl, h, rfl⟩
  | op :: ops, s, t, h, hn, hfit => by
    obtain ⟨s1, t1, hrun, h1, hn1, hent⟩ := op.host_step hfuel h hn hfit.1
    obtain ⟨s2, t2, hrun2, h2, hent2⟩ := runOps_host hfuel h1 hn1 (hent ▸ hfit.2)
    rw [hent] at hrun2 hent2
    refine ⟨s2, t2, ?_, h2, hent2⟩
    rw [runOps, run_bind hrun, run_bind hrun2]
    rfl

theorem runOps_refused (hfuel : 42 ≤ fuel) : ∀ {ops : List (Op K V)} {s : Pool K V} {t : ATree K V},
    Holds (nodeSize keySize valueSize) s t → Small (nodeSize keySize valueSize) s →
    ¬ FitsPool (nodeSize keySize valueSize) (entries t) ops →
    runOps (hostFields keySize valueSize) fuel ops s = .error .panicked
  | [], _, _, _, _, hfit => absurd trivial hfit
  | op :: ops, _, t, h, hn, hfit => by
    rw [runOps]
    by_cases hcap : (op.apply (entries t)).2.length * nodeSize keySize valueSize < 2 ^ 32
    · obtain ⟨s1, t1, hrun, h1, hn1, hent⟩ := op.host_step hfuel h hn hcap
      rw [run_bind hrun]
      exact run_bind_error (runOps_refused hfuel h1 hn1 fun hrest => hfit ⟨hcap, hent ▸ hrest⟩)
    · exact run_bind_error (op.run_refused hfuel h hn (not_lt.mp hcap))

/-- From empty storage, every sequence of operations over the host that keeps the
nodes below `2 ^ 32` answers as a sorted map does; what can be reached is then a
balanced search tree with the entries of the map, every other slot is on the free
stack once, and the stored length is the number of nodes. A sequence that does not is
stopped by a panic. -/
theorem avl_map (keySize valueSize : Nat) {fuel : Nat} (hfuel : 42 ≤ fuel) (ops : List (Op K V))
    {s : Pool K V} (hs : s.Empty) :
    (FitsPool (nodeSize keySize valueSize) [] ops →
      ∃ s' t, runOps (hostFields keySize valueSize) fuel ops s = .ok ((applyOps [] ops).1, s') ∧
        At (nodeSize keySize valueSize) s' [] t ∧ t.Balanced ∧ Ordered t ∧
        (∀ i, Reach (nodeSize keySize valueSize) s' i ↔ i ∈ ids t) ∧ Arena s' (ids t) ∧
        Rust.len (hostFields keySize valueSize) s' = .ok ((ids t).length, s') ∧
        entries t = (applyOps [] ops).2) ∧
    (¬ FitsPool (nodeSize keySize valueSize) [] ops →
      runOps (hostFields keySize valueSize) fuel ops s = .error .panicked) := by
  have h9 : 9 ≤ nodeSize keySize valueSize := by
    unfold nodeSize
    omega
  have hsmall : Small (nodeSize keySize valueSize) s := by
    unfold Small
    rw [hs.slotsLen]
    omega
  refine ⟨fun hfit => ?_, runOps_refused hfuel (hs.holds h9) hsmall⟩
  obtain ⟨s', t, hrun, h, hent⟩ := runOps_host hfuel (hs.holds h9) hsmall hfit
  have hplain : Rust.len (fields (nodeSize keySize valueSize)) s' = .ok ((entries t).length, s') := len_run h.arena
  have hlen : Rust.len (hostFields keySize valueSize) s' = .ok ((entries t).length, s') := hplain
  rw [entries, List.length_map, ← List.length_map Entry.id] at hlen
  exact ⟨s', t, hrun, h.stored, h.balanced, h.ordered, fun i => reach_iff h.stored, h.arena, hlen, hent⟩

theorem avl_map_blank :
    ∃ s' t, runOps (hostFields 8 8) 42
        [.insert 1 10, .insert 2 20, .insert 3 30, .remove 2, .insert 1 11, .get 3, .len, .forEach] blank =
          .ok ([.value 10, .value 20, .value 30, .removed true, .value 11, .found (some 30), .count 2,
            .listed [(1, 11), (3, 30)]], s') ∧
      At (nodeSize 8 8) s' [] t ∧ t.Balanced ∧ Ordered t ∧ (∀ i, Reach (nodeSize 8 8) s' i ↔ i ∈ ids t) ∧
      Arena s' (ids t) ∧ Rust.len (hostFields 8 8) s' = .ok ((ids t).length, s') ∧
      entries t = [(1, 11), (3, 30)] :=
  (avl_map 8 8 (by decide)
    [.insert 1 10, .insert 2 20, .insert 3 30, .remove 2, .insert 1 11, .get 3, .len, .forEach]
    ⟨rfl, rfl, rfl⟩).1 (by simp [FitsPool, Op.apply, SortedMap.insert, SortedMap.erase, nodeSize])

/-! ## A map that outgrows its pool -/

theorem FitsPool.fits {size : Nat} : ∀ {ops : List (Op K V)} {m : List (K × V)}, FitsPool size m ops →
    ops ≠ [] → (applyOps m ops).2.length * size < 2 ^ 32
  | [], _, _, hne => absurd rfl hne
  | [_], _, h, _ => h.1
  | _ :: op :: ops, _, h, _ => by
    have hrest : FitsPool size _ (op :: ops) := h.2
    exact hrest.fits (List.cons_ne_nil op ops)

theorem applyOps_append (ops ops' : List (Op K V)) (m : List (K × V)) :
    (applyOps m (ops ++ ops')).2 = (applyOps (applyOps m ops).2 ops').2 := by
  induction ops generalizing m with
  | nil => rfl
  | cons op ops ih => exact ih _

end

/-- Insertions with ascending keys. -/
theorem applyOps_range (n : Nat) (v : V) :
    (applyOps [] ((List.range n).map fun k => Op.insert k v)).2 = (List.range n).map fun k => (k, v) := by
  induction n with
  | zero => rfl
  | succ n ih =>
    rw [List.range_succ, List.map_append, applyOps_append, ih, List.map_append]
    refine SortedMap.insert_last SortedMap.nat_order v fun x hx => ?_
    obtain ⟨k, hk, rfl⟩ := List.mem_map.mp hx
    exact List.mem_range.mp hk

theorem fitsPool_range {size n : Nat} {v : V} (hfit : FitsPool size [] ((List.range n).map fun k => Op.insert k v)) :
    n * size < 2 ^ 32 := by
  cases n with
  | zero =>
    rw [Nat.zero_mul]
    exact Nat.two_pow_pos 32
  | succ n =>
    have hend := hfit.fits (by simp)
    rwa [applyOps_range, List.length_map, List.length_range] at hend

theorem range_refused (n : Nat) (hn : 2 ^ 32 ≤ n * nodeSize 8 8) :
    runOps (hostFields 8 8) 42 ((List.range n).map fun k => Op.insert k 0) blank = .error .panicked := by
  have hs : blank.Empty := ⟨rfl, rfl, rfl⟩
  have hsmall : Small (nodeSize 8 8) blank := by
    unfold Small
    rw [hs.slotsLen]
    omega
  refine runOps_refused le_rfl (hs.holds (by decide)) hsmall fun hfit => ?_
  have hend := fitsPool_range hfit
  omega

/-- As many insertions as there are nodes below `2 ^ 32`, and one more. -/
theorem avl_map_outgrown :
    runOps (hostFields 8 8) 42 ((List.range 171798692).map fun k => Op.insert k 0) blank = .error .panicked :=
  range_refused 171798692 (by unfold nodeSize; norm_num)

end GenVM.Storage.AvlMap
