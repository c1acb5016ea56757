import GenVM.Storage.AvlRun
import GenVM.Storage.TreeMapAgree

/-!
# One storage map under both SDKs

A map in storage may be worked on by a contract of either SDK, and by both in
turn: the Rust one (executor/crates/sdk-rs/src/storage/tree_map.rs) and the
Python one (runners/genlayer-py-std/src/genlayer/storage/tree_map.py). A Python
operation may raise, on an absent key for one; a run ends there.

**Results.**
* `fields_laws`: the pool has what the agreement of the ports relies on.
* `Op.runPy_step`: a Python operation that does not raise is the one of a sorted map.
* `runShared_refines`: so is every run of operations of both.
-/
namespace GenVM.Storage.TreeMap

/-! ## Reading a map in Python -/

namespace Py

variable {σ K V : Type} (F : Fields σ K V)

/-- mirrors tree_map.py:63-64; a negative length raises -/
def len : M σ Nat := do
  let n ← F.slotsLen.read
  let m ← F.freeLen.read
  if m ≤ n then pure (n - m) else throw .raised

/-- The entries that `go` yields, behind those before; mirrors tree_map.py:499-505
with the callback of `items`. -/
def visit : Nat → Nat → List (K × V) → M σ (List (K × V))
  | 0, _, _ => throw .diverged
  | fuel + 1, idx, seen =>
    if idx = 0 then pure seen
    else do
      let n ← node F idx
      let l ← (F.left n).read
      let seen ← visit fuel l seen
      let k ← (F.key n).read
      let v ← (F.value n).read
      let r ← (F.right n).read
      visit fuel r (seen ++ [(k, v)])

/-- `items`, mirrors tree_map.py:496-507 and 542-543 -/
def items (fuel : Nat) : M σ (List (K × V)) := do
  let root ← F.root.read
  visit F fuel root []

end Py

section
variable {σ K V : Type} (F : Fields σ K V)

open Agree

theorem visit_agree (fuel fuel' : Nat) (s : σ) (idx : Nat) (seen : List (K × V)) :
    At s (Rust.visitImpl F fuel idx seen) (Py.visit F fuel' idx seen) := by
  induction fuel generalizing fuel' s idx seen with
  | zero =>
    intro a s1 b s2 h1 _
    exact absurd h1 throw_ok
  | succ fuel ih =>
    cases fuel' with
    | zero => exact Rel.throw_right
    | succ fuel' =>
      unfold Rust.visitImpl Py.visit
      by_cases h0 : idx = 0
      · rw [if_pos h0, if_pos h0]
        exact At.refl _ _
      · rw [if_neg h0, if_neg h0]
        refine At.bind (node_agree F _ _) fun n s1 _ _ => ?_
        refine At.bind_left _ fun l s2 _ => ?_
        refine At.bind (ih _ _ _ _) fun seen' s3 _ _ => ?_
        refine At.bind_left _ fun k s4 _ => ?_
        refine At.bind_left _ fun v s5 _ => ?_
        exact At.bind_left _ fun r s6 _ => ih _ _ _ _

theorem items_agree (fuel fuel' : Nat) (s : σ) : At s (Rust.forEach F fuel) (Py.items F fuel') := by
  unfold Rust.forEach Py.items
  exact At.bind_left _ fun root s1 _ => visit_agree F _ _ _ _ _

end

end GenVM.Storage.TreeMap

namespace GenVM.Storage.AvlMap

open GenVM.Lib.Consume (run_bind)
open GenVM.Lib GenVM.Lib.Avl TreeMap

variable {K V : Type}

/-! ## Operations of either SDK -/

inductive Sdk where
  | rust
  | python
  deriving DecidableEq

theorem fields_laws (size : Nat) : Laws (fields size : Fields (Pool K V) K V) where
  slotsLen_lt := by
    intro s n h
    cases h
    exact s.slotsLen_lt
  root_same := by
    intro s r h
    cases h
    rfl
  root_get := by
    intro s r s1 h
    cases h
    rfl
  fill := by
    intro s s1 s2 n v h1 h2
    have heq1 := (Prod.mk.inj (Except.ok.inj h1)).2
    have heq2 := (Prod.mk.inj (Except.ok.inj h2)).2
    rw [← heq1, ← heq2]
    simp

section
variable [LinearOrder K]

/-- The operation in Python; an assignment gives nothing back to read, and a
deletion that does not raise has found its key. -/
def Op.runPy (size fuel : Nat) : Op K V → M (Pool K V) (Reply K V)
  | .insert k v => do
    Py.setItem (fields size) fuel k v
    pure (.value v)
  | .remove k => do
    Py.delItem (fields size) fuel k
    pure (.removed true)
  | .get k => do
    let v ← Py.get (fields size) fuel k
    pure (.found v)
  | .clear => do
    Py.clear (fields size)
    pure .cleared
  | .len => do
    let n ← Py.len (fields size)
    pure (.count n)
  | .forEach => do
    let l ← Py.items (fields size) fuel
    pure (.listed l)

def Op.runBy (size fuel : Nat) : Sdk → Op K V → M (Pool K V) (Reply K V)
  | .rust, op => op.run (fields size) fuel
  | .python, op => op.runPy size fuel

def runShared (size fuel : Nat) : List (Sdk × Op K V) → M (Pool K V) (List (Reply K V))
  | [] => pure []
  | (sdk, op) :: ops => do
    let r ← op.runBy size fuel sdk
    let rs ← runShared size fuel ops
    pure (r :: rs)

variable {size : Nat} {s s' : Pool K V} {t : ATree K V}

omit [LinearOrder K] in
theorem pyLen_run (h : Arena s (ids t)) : Py.len (fields size) s = .ok ((entries t).length, s) := by
  have hlen := h.length
  rw [ids, List.length_map] at hlen
  have hsub : s.freeLen ≤ s.slotsLen ∧ s.slotsLen - s.freeLen = (entries t).length := by
    rw [entries, List.length_map]
    omega
  unfold Py.len
  rw [bind_slotsLen, bind_freeLen, if_pos hsub.1, hsub.2]
  rfl

/-- A Python operation that does not raise answers and leaves what a sorted map does. -/
theorem Op.runPy_step {fuel : Nat} (op : Op K V) (hfuel : 42 ≤ fuel) (h : Holds size s t)
    (hfit : (op.apply (entries t)).2.length * size ≤ 2 ^ 32) {r : Reply K V} (hrun : op.runPy size fuel s = .ok (r, s')) :
    r = (op.apply (entries t)).1 ∧ ∃ t', Holds size s' t' ∧ entries t' = (op.apply (entries t)).2 := by
  have hf : t.height < fuel := by
    have := h.height
    omega
  cases op with
  | insert k v =>
    obtain ⟨n, s1, t', hins, hinserted⟩ := insert_run v h hf hfit
    have hrust : Rust.insert (fields size) fuel k v s = .ok ((), s1) := by
      rw [← insert_handle, run_bind hins]
      rfl
    obtain ⟨u, s2, hpy, hrest⟩ := Agree.bind_ok.mp hrun
    obtain ⟨-, rfl⟩ := insert_agree (fields_laws size) fuel fuel k v s _ _ _ _ hrust hpy
    obtain ⟨rfl, rfl⟩ := Agree.pure_ok.mp hrest
    exact ⟨rfl, t', hinserted.holds, hinserted.entries⟩
  | remove k =>
    obtain ⟨s1, t', hrust, hremoved⟩ := remove_run (k := k) h hf
    obtain ⟨u, s2, hpy, hrest⟩ := Agree.bind_ok.mp hrun
    have hpy' : (Py.delItem (fields size) fuel k >>= fun _ => pure true) s = .ok (true, s2) := by
      rw [run_bind hpy]
      rfl
    obtain ⟨hsome, rfl⟩ := remove_agree (fields_laws size) fuel fuel k s _ _ _ _ hrust hpy'
    obtain ⟨rfl, rfl⟩ := Agree.pure_ok.mp hrest
    exact ⟨congrArg Reply.removed hsome.symm, t', hremoved.holds, hremoved.entries⟩
  | get k =>
    obtain ⟨v, s2, hpy, hrest⟩ := Agree.bind_ok.mp hrun
    obtain ⟨rfl, rfl⟩ := get_agree (fields size) fuel fuel k s _ _ _ _ (get_run h hf) hpy
    obtain ⟨rfl, rfl⟩ := Agree.pure_ok.mp hrest
    exact ⟨rfl, t, h, rfl⟩
  | clear =>
    -- both write the same three fields
    obtain ⟨s1, hclear, hempty⟩ := clear_run size s
    have hpy : Op.runPy size fuel .clear s = .ok (.cleared, s1) := (run_bind hclear).trans rfl
    obtain ⟨rfl, rfl⟩ := Prod.mk.inj (Except.ok.inj (hpy.symm.trans hrun))
    exact ⟨rfl, .nil, hempty.holds h.stored.room.pos, rfl⟩
  | len =>
    obtain ⟨n, s2, hpy, hrest⟩ := Agree.bind_ok.mp hrun
    obtain ⟨rfl, rfl⟩ := Prod.mk.inj (Except.ok.inj ((pyLen_run h.arena).symm.trans hpy))
    obtain ⟨rfl, rfl⟩ := Agree.pure_ok.mp hrest
    exact ⟨rfl, t, h, rfl⟩
  | forEach =>
    obtain ⟨l, s2, hpy, hrest⟩ := Agree.bind_ok.mp hrun
    obtain ⟨rfl, rfl⟩ := items_agree (fields size) fuel fuel s _ _ _ _ (forEach_run h.stored hf) hpy
    obtain ⟨rfl, rfl⟩ := Agree.pure_ok.mp hrest
    exact ⟨rfl, t, h, rfl⟩

theorem Op.runBy_step {fuel : Nat} (sdk : Sdk) (op : Op K V) (hfuel : 42 ≤ fuel) (h : Holds size s t)
    (hfit : (op.apply (entries t)).2.length * size ≤ 2 ^ 32) {r : Reply K V}
    (hrun : op.runBy size fuel sdk s = .ok (r, s')) :
    r = (op.apply (entries t)).1 ∧ ∃ t', Holds size s' t' ∧ entries t' = (op.apply (entries t)).2 := by
  cases sdk with
  | rust =>
    obtain ⟨s1, t', hrust, hholds, hent⟩ := op.run_step hfuel h hfit
    obtain ⟨rfl, rfl⟩ := Prod.mk.inj (Except.ok.inj (hrust.symm.trans hrun))
    exact ⟨rfl, t', hholds, hent⟩
  | python => exact op.runPy_step hfuel h hfit hrun

theorem runShared_run {fuel : Nat} (hfuel : 42 ≤ fuel) : ∀ {ops : List (Sdk × Op K V)} {s s' : Pool K V} {t : ATree K V}
    {rs : List (Reply K V)}, Holds size s t → FitsPool size (entries t) (ops.map Prod.snd) →
    runShared size fuel ops s = .ok (rs, s') →
    rs = (applyOps (entries t) (ops.map Prod.snd)).1 ∧
      ∃ t', Holds size s' t' ∧ entries t' = (applyOps (entries t) (ops.map Prod.snd)).2
  | [], s, s', t, rs, h, _, hrun => by
    obtain ⟨rfl, rfl⟩ := Agree.pure_ok.mp hrun
    exact ⟨rfl, t, h, rfl⟩
  | (sdk, op) :: ops, s, s', t, rs, h, hfit, hrun => by
    obtain ⟨r, s1, hop, hrun⟩ := Agree.bind_ok.mp hrun
    obtain ⟨rs', s2, hops, hrest⟩ := Agree.bind_ok.mp hrun
    obtain ⟨rfl, rfl⟩ := Agree.pure_ok.mp hrest
    obtain ⟨rfl, t1, h1, hent⟩ := op.runBy_step sdk hfuel h hfit.1.le hop
    have hfit1 : FitsPool size (entries t1) (ops.map Prod.snd) := hent ▸ hfit.2
    obtain ⟨rfl, t2, h2, hent2⟩ := runShared_run hfuel h1 hfit1 hops
    rw [hent] at hent2
    refine ⟨?_, t2, h2, hent2⟩
    rw [hent]
    rfl

/-- From empty storage, a run of operations of both SDKs in any order that does
not raise answers as a sorted map does, and leaves a balanced search tree with
the entries of the map and every other slot on the free stack once. -/
theorem runShared_refines (keySize valueSize : Nat) {fuel : Nat} (hfuel : 42 ≤ fuel) (ops : List (Sdk × Op K V))
    {s s' : Pool K V} {rs : List (Reply K V)} (hs : s.Empty)
    (hfit : FitsPool (nodeSize keySize valueSize) [] (ops.map Prod.snd))
    (hrun : runShared (nodeSize keySize valueSize) fuel ops s = .ok (rs, s')) :
    rs = (applyOps [] (ops.map Prod.snd)).1 ∧ ∃ t, At (nodeSize keySize valueSize) s' [] t ∧ t.Balanced ∧ Ordered t ∧
      (∀ i, Reach (nodeSize keySize valueSize) s' i ↔ i ∈ ids t) ∧ Arena s' (ids t) ∧
      entries t = (applyOps [] (ops.map Prod.snd)).2 := by
  have h9 : 9 ≤ nodeSize keySize valueSize := by
    unfold nodeSize
    omega
  obtain ⟨hrs, t, h, hent⟩ := runShared_run hfuel (hs.holds h9) hfit hrun
  exact ⟨hrs, t, h.stored, h.balanced, h.ordered, fun i => reach_iff h.stored, h.arena, hent⟩

end

/-- Both SDKs insert, Python deletes what Rust has put in, Rust lists what is left. -/
def sharedRun : List (Sdk × Op Nat Nat) :=
  [(.rust, .insert 1 10), (.python, .insert 2 20), (.rust, .insert 3 30), (.python, .remove 1), (.python, .insert 3 31),
    (.rust, .forEach)]

theorem sharedRun_ok : ∃ rs s', runShared (nodeSize 8 8) 42 sharedRun blank = .ok (rs, s') := by
  have hok : (runShared (nodeSize 8 8) 42 sharedRun blank).isOk = true := by decide +kernel
  cases hrun : runShared (nodeSize 8 8) 42 sharedRun blank with
  | ok r => exact ⟨r.1, r.2, rfl⟩
  | error e =>
    rw [hrun] at hok
    cases hok

theorem runShared_refines_blank : ∃ rs s', runShared (nodeSize 8 8) 42 sharedRun blank = .ok (rs, s') ∧
    rs = (applyOps [] (sharedRun.map Prod.snd)).1 ∧ ∃ t, At (nodeSize 8 8) s' [] t ∧ t.Balanced ∧ Ordered t ∧
      (∀ i, Reach (nodeSize 8 8) s' i ↔ i ∈ ids t) ∧ Arena s' (ids t) ∧
      entries t = (applyOps [] (sharedRun.map Prod.snd)).2 := by
  obtain ⟨rs, s', hrun⟩ := sharedRun_ok
  exact ⟨rs, s', hrun, runShared_refines 8 8 (by decide) sharedRun ⟨rfl, rfl, rfl⟩
    (by simp [sharedRun, FitsPool, Op.apply, SortedMap.insert, SortedMap.erase, nodeSize]) hrun⟩

end GenVM.Storage.AvlMap
