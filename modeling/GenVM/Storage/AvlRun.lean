import GenVM.Storage.AvlRemove

/-!
# Runs of the storage AVL map

From empty storage, whatever operations follow, a `TreeMap` answers as a sorted
map does, and its nodes form a balanced search tree in the pool
(executor/crates/sdk-rs/src/storage/tree_map.rs, with the reference of
executor/crates/sdk-rs/fuzz/gvm-tree-map.rs). A map has to fit its pool, whose
offsets are 32-bit numbers.

**Results.**
* `Op.run_step`: one operation.
* `runOps_refines`: any sequence of operations.
* `path_short`: the walk to a key is short.
-/
namespace GenVM.Storage.AvlMap

open Agree (Prog)
open GenVM.Lib.Consume (run_bind)
open GenVM.Lib GenVM.Lib.Avl TreeMap

variable {σ K V : Type} {size : Nat} {s : Pool K V} {t : ATree K V}

/-! ## Reading the whole map -/

theorem visitImpl_run (fuel : Nat) : ∀ {t : ATree K V} {seen : List (K × V)}, Stored s size t →
    (∀ i ∈ ids t, InPool s i) → t.height < fuel →
    Rust.visitImpl (fields size) fuel (rootOf t) seen s = .ok (seen ++ entries t, s) := by
  induction fuel with
  | zero => exact fun _ _ h => absurd h (Nat.not_lt_zero _)
  | succ fuel ih =>
    intro t seen hs hp hf
    cases t with
    | nil =>
      have h0 : rootOf (.nil : ATree K V) = 0 := rfl
      have hnil : entries (.nil : ATree K V) = [] := rfl
      rw [Rust.visitImpl, if_pos h0, hnil, List.append_nil]
      rfl
    | node l a b r =>
      simp only [ids_node, List.mem_append, List.mem_cons] at hp
      have hai : InPool s a.id := hp a.id (.inr (.inl rfl))
      obtain ⟨han, hl, hr⟩ := hs
      rw [AvlTree.height_node] at hf
      have hall : entries (.node l a b r) = entries l ++ (a.key, a.value) :: entries r := by
        rw [entries, AvlTree.toList_node, List.map_append, List.map_cons]
        rfl
      rw [Rust.visitImpl, rootOf_node, if_neg (Nat.pos_iff_ne_zero.mp hai.1), bind_node _ hai, bind_left, han,
        node_left, run_bind (ih hl (fun i hi => hp i (.inl hi)) (by omega)), bind_key, han, node_key]
      refine (run_bind (a := (s.at size a.id).value) (u := s) rfl).trans ?_
      rw [bind_right, han, node_right, ih hr (fun i hi => hp i (.inr (.inr hi))) (by omega), hall]
      simp [Entry.node]

theorem forEach_run {fuel : Nat} (h : At size s [] t) (hf : t.height < fuel) :
    Rust.forEach (fields size) fuel s = .ok (entries t, s) := by
  have hroot : s.root = rootOf t := h.ctx
  unfold Rust.forEach
  rw [bind_root, hroot, visitImpl_run fuel h.tree h.inPool hf]
  rfl

theorem len_run (h : Arena s (ids t)) : Rust.len (fields size) s = .ok ((entries t).length, s) := by
  have hlen := h.length
  have hlt := s.slotsLen_lt
  rw [ids, List.length_map] at hlen
  have hsub : (s.slotsLen + 2 ^ 32 - s.freeLen) % 2 ^ 32 = (entries t).length := by
    rw [entries, List.length_map, show s.slotsLen + 2 ^ 32 - s.freeLen = t.toList.length + 2 ^ 32 by omega,
      Nat.add_mod_right, Nat.mod_eq_of_lt (by omega)]
  unfold Rust.len
  rw [bind_slotsLen, bind_freeLen, hsub]
  rfl

/-! ## What hangs from the root -/

/-- A position the links lead to. -/
inductive Reach (size : Nat) (s : Pool K V) : Nat → Prop
  | root : s.root ≠ 0 → Reach size s s.root
  | left {i : Nat} : Reach size s i → (s.at size i).left ≠ 0 → Reach size s (s.at size i).left
  | right {i : Nat} : Reach size s i → (s.at size i).right ≠ 0 → Reach size s (s.at size i).right

theorem ids_root (h : rootOf t ≠ 0) : rootOf t ∈ ids t := by
  refine rootOf_mem ?_
  rintro rfl
  exact h rfl

/-- The links of a stored node lead to nodes of the tree. -/
theorem ids_links {i : Nat} (h : Stored s size t) (hi : i ∈ ids t) :
    ((s.at size i).left ≠ 0 → (s.at size i).left ∈ ids t) ∧
      ((s.at size i).right ≠ 0 → (s.at size i).right ∈ ids t) := by
  induction t with
  | nil => cases hi
  | node l a b r ihl ihr =>
    obtain ⟨hn, hl, hr⟩ := h
    rw [ids_node, List.mem_append, List.mem_cons] at hi
    simp only [ids_node, List.mem_append, List.mem_cons]
    rcases hi with hi | rfl | hi
    · obtain ⟨h1, h2⟩ := ihl hl hi
      exact ⟨fun h => .inl (h1 h), fun h => .inl (h2 h)⟩
    · rw [hn]
      exact ⟨fun h => .inl (ids_root h), fun h => .inr (.inr (ids_root h))⟩
    · obtain ⟨h1, h2⟩ := ihr hr hi
      exact ⟨fun h => .inr (.inr (h1 h)), fun h => .inr (.inr (h2 h))⟩

theorem reach_of_ids (hin : ∀ i ∈ ids t, InPool s i) (h : Stored s size t)
    (hroot : t ≠ .nil → Reach size s (rootOf t)) : ∀ i ∈ ids t, Reach size s i := by
  induction t with
  | nil => exact fun i hi => by cases hi
  | node l a b r ihl ihr =>
    obtain ⟨hn, hl, hr⟩ := h
    have htop : Reach size s a.id := hroot (by simp)
    simp only [ids_node, List.mem_append, List.mem_cons] at hin ⊢
    rintro i (hi | rfl | hi)
    · refine ihl (fun i hi => hin i (.inl hi)) hl (fun hne => ?_) i hi
      have hpos := (hin _ (.inl (rootOf_mem hne))).1
      have hreach := htop.left (by rw [hn]; exact Nat.pos_iff_ne_zero.mp hpos)
      rwa [hn] at hreach
    · exact htop
    · refine ihr (fun i hi => hin i (.inr (.inr hi))) hr (fun hne => ?_) i hi
      have hpos := (hin _ (.inr (.inr (rootOf_mem hne)))).1
      have hreach := htop.right (by rw [hn]; exact Nat.pos_iff_ne_zero.mp hpos)
      rwa [hn] at hreach

/-- The nodes of the tree are what can be reached. -/
theorem reach_iff {i : Nat} (h : At size s [] t) : Reach size s i ↔ i ∈ ids t := by
  have hroot : s.root = rootOf t := h.ctx
  constructor
  · intro hi
    induction hi with
    | root h0 =>
      rw [hroot] at h0 ⊢
      exact ids_root h0
    | left _ h0 ih => exact (ids_links h.tree ih).1 h0
    | right _ h0 ih => exact (ids_links h.tree ih).2 h0
  · refine reach_of_ids h.inPool h.tree (fun hne => ?_) i
    have hpos := (h.inPool _ (rootOf_mem hne)).1
    exact hroot ▸ Reach.root (hroot ▸ Nat.pos_iff_ne_zero.mp hpos)

/-! ## Runs -/

/-- mirrors tree_map.rs:8-14 and record.rs: a key, a value, two links and the balance -/
def nodeSize (keySize valueSize : Nat) : Nat := keySize + valueSize + 4 + 4 + 1

inductive Op (K V : Type) where
  | insert (k : K) (v : V)
  | remove (k : K)
  | get (k : K)
  | clear
  | len
  | forEach

/-- What an operation answers; an insertion, what its handle reads. -/
inductive Reply (K V : Type) where
  | value (v : V)
  | removed (b : Bool)
  | found (v : Option V)
  | cleared
  | count (n : Nat)
  | listed (l : List (K × V))

section
variable [LinearOrder K]

def Op.run (F : Fields σ K V) (fuel : Nat) : Op K V → M σ (Reply K V)
  | .insert k v => do
    let n ← Rust.insertHandle F fuel k v
    let v ← (F.value n).read
    pure (.value v)
  | .remove k => do
    let b ← Rust.remove F fuel k
    pure (.removed b)
  | .get k => do
    let v ← Rust.get F fuel k
    pure (.found v)
  | .clear => do
    Rust.clear F
    pure .cleared
  | .len => do
    let n ← Rust.len F
    pure (.count n)
  | .forEach => do
    let l ← Rust.forEach F fuel
    pure (.listed l)

/-- The operation on a sorted map. -/
def Op.apply (m : List (K × V)) : Op K V → Reply K V × List (K × V)
  | .insert k v => (.value v, SortedMap.insert (fun a b => a < b) k v m)
  | .remove k => (.removed (m.lookup k).isSome, SortedMap.erase k m)
  | .get k => (.found (m.lookup k), m)
  | .clear => (.cleared, [])
  | .len => (.count m.length, m)
  | .forEach => (.listed m, m)

def runOps (F : Fields σ K V) (fuel : Nat) : List (Op K V) → M σ (List (Reply K V))
  | [] => pure []
  | op :: ops => do
    let r ← op.run F fuel
    let rs ← runOps F fuel ops
    pure (r :: rs)

def applyOps (m : List (K × V)) : List (Op K V) → List (Reply K V) × List (K × V)
  | [] => ([], m)
  | op :: ops => ((op.apply m).1 :: (applyOps (op.apply m).2 ops).1, (applyOps (op.apply m).2 ops).2)

/-- The map never grows out of its pool: every node ends below `2 ^ 32`, where the
host refuses an access. -/
def FitsPool (size : Nat) (m : List (K × V)) : List (Op K V) → Prop
  | [] => True
  | op :: ops => (op.apply m).2.length * size < 2 ^ 32 ∧ FitsPool size (op.apply m).2 ops

/-- A map in untouched storage; the nodes are what the slot was before. -/
structure Pool.Empty (s : Pool K V) : Prop where
  root : s.root = 0
  slotsLen : s.slotsLen = 0
  freeLen : s.freeLen = 0

theorem Pool.Empty.holds {s : Pool K V} (h : s.Empty) (hpos : 9 ≤ size) : Holds size s .nil := by
  have hfits : s.slotsLen * size ≤ 2 ^ 32 := by
    rw [h.slotsLen]
    omega
  have harena : Arena s (ids (.nil : ATree K V)) := by
    unfold Arena frees
    rw [h.slotsLen, h.freeLen]
    exact List.Perm.refl _
  exact ⟨⟨trivial, h.root, List.nodup_nil, fun i hi => absurd hi List.not_mem_nil, hpos, hfits⟩, trivial, List.Pairwise.nil,
    harena⟩

omit [LinearOrder K] in
theorem clear_run (size : Nat) (s : Pool K V) : ∃ s', Rust.clear (fields size) s = .ok ((), s') ∧ s'.Empty :=
  ⟨{ s with root := 0, slotsLen := 0 % 2 ^ 32, freeLen := 0, slotsLen_lt := Nat.mod_lt _ (Nat.two_pow_pos 32) },
    rfl, rfl, rfl, rfl⟩

/-- The height of a tree that fits: the nodes are at least nine bytes. -/
theorem Holds.height (h : Holds size s t) : t.height ≤ 41 := by
  have hfib := AvlTree.fib_le_size h.balanced
  have hlen := h.arena.length
  rw [ids, List.length_map, AvlTree.length_toList] at hlen
  have hroom : s.slotsLen * 9 ≤ 2 ^ 32 := (Nat.mul_le_mul_left _ h.stored.room.pos).trans h.stored.room.fits
  by_contra hhigh
  have hmono : Nat.fib 44 ≤ Nat.fib (t.height + 2) := Nat.fib_mono (by omega)
  have h44 : Nat.fib 44 = 701408733 := by norm_num
  omega

/-- One operation. -/
theorem Op.run_step {fuel : Nat} (op : Op K V) (hfuel : 42 ≤ fuel) (h : Holds size s t)
    (hfit : (op.apply (entries t)).2.length * size ≤ 2 ^ 32) :
    ∃ s' t', op.run (fields size) fuel s = .ok ((op.apply (entries t)).1, s') ∧ Holds size s' t' ∧
      entries t' = (op.apply (entries t)).2 := by
  have hf : t.height < fuel := by
    have := h.height
    omega
  cases op with
  | insert k v =>
    obtain ⟨n, s', t', hrun, hins⟩ := insert_run v h hf hfit
    refine ⟨s', t', ?_, hins.holds, hins.entries⟩
    rw [Op.run, run_bind hrun]
    refine (run_bind (a := (s'.at size (n + 1)).value) (u := s') rfl).trans ?_
    rw [hins.handle]
    rfl
  | remove k =>
    obtain ⟨s', t', hrun, hrem⟩ := remove_run (k := k) h hf
    refine ⟨s', t', ?_, hrem.holds, hrem.entries⟩
    rw [Op.run, run_bind hrun]
    rfl
  | get k =>
    refine ⟨s, t, ?_, h, rfl⟩
    rw [Op.run, run_bind (get_run h hf)]
    rfl
  | clear =>
    obtain ⟨s', hrun, hempty⟩ := clear_run size s
    refine ⟨s', .nil, ?_, hempty.holds h.stored.room.pos, rfl⟩
    rw [Op.run, run_bind hrun]
    rfl
  | len =>
    refine ⟨s, t, ?_, h, rfl⟩
    rw [Op.run, run_bind (len_run h.arena)]
    rfl
  | forEach =>
    refine ⟨s, t, ?_, h, rfl⟩
    rw [Op.run, run_bind (forEach_run h.stored hf)]
    rfl

theorem runOps_run {fuel : Nat} (hfuel : 42 ≤ fuel) : ∀ {ops : List (Op K V)} {s : Pool K V} {t : ATree K V},
    Holds size s t → FitsPool size (entries t) ops →
    ∃ s' t', runOps (fields size) fuel ops s = .ok ((applyOps (entries t) ops).1, s') ∧ Holds size s' t' ∧
      entries t' = (applyOps (entries t) ops).2
  | [], s, t, h, _ => ⟨s, t, rfl, h, rfl⟩
  | op :: ops, s, t, h, hfit => by
    obtain ⟨s1, t1, hrun, h1, hent⟩ := op.run_step hfuel h hfit.1.le
    have hfit1 : FitsPool size (entries t1) ops := hent ▸ hfit.2
    obtain ⟨s2, t2, hrun2, h2, hent2⟩ := runOps_run hfuel h1 hfit1
    rw [hent] at hrun2 hent2
    refine ⟨s2, t2, ?_, h2, hent2⟩
    rw [runOps, run_bind hrun, run_bind hrun2]
    rfl

/-- From empty storage, every operation of a run answers as a sorted map does;
what can be reached is then a balanced search tree with the entries of the map,
and every other slot is on the free stack once. -/
theorem runOps_refines (keySize valueSize : Nat) {fuel : Nat} (hfuel : 42 ≤ fuel) (ops : List (Op K V))
    {s : Pool K V} (hs : s.Empty) (hfit : FitsPool (nodeSize keySize valueSize) [] ops) :
    ∃ s' t, runOps (fields (nodeSize keySize valueSize)) fuel ops s = .ok ((applyOps [] ops).1, s') ∧
      At (nodeSize keySize valueSize) s' [] t ∧ t.Balanced ∧ Ordered t ∧
      (∀ i, Reach (nodeSize keySize valueSize) s' i ↔ i ∈ ids t) ∧ Arena s' (ids t) ∧
      entries t = (applyOps [] ops).2 := by
  have h9 : 9 ≤ nodeSize keySize valueSize := by
    unfold nodeSize
    omega
  obtain ⟨s', t, hrun, h, hent⟩ := runOps_run hfuel (hs.holds h9) hfit
  exact ⟨s', t, hrun, h.stored, h.balanced, h.ordered, fun i => reach_iff h.stored, h.arena, hent⟩

/-- A pool of zeros. -/
def blank : Pool Nat Nat := ⟨0, 0, 0, fun _ => ⟨0, 0, 0, 0, 0⟩, fun _ => 0, by decide⟩

theorem runOps_refines_blank : ∃ s' t, runOps (fields (nodeSize 8 8)) 42
      [.insert 1 10, .insert 2 20, .insert 3 30, .remove 2, .insert 1 11, .forEach] blank =
        .ok ((applyOps [] [.insert 1 10, .insert 2 20, .insert 3 30, .remove 2, .insert 1 11, .forEach]).1, s') ∧
    At (nodeSize 8 8) s' [] t ∧ t.Balanced ∧ Ordered t ∧ (∀ i, Reach (nodeSize 8 8) s' i ↔ i ∈ ids t) ∧
    Arena s' (ids t) ∧ entries t = [(1, 11), (3, 30)] :=
  runOps_refines 8 8 (by decide) [.insert 1 10, .insert 2 20, .insert 3 30, .remove 2, .insert 1 11, .forEach]
    ⟨rfl, rfl, rfl⟩ (by simp [FitsPool, Op.apply, SortedMap.insert, SortedMap.erase, nodeSize])

/-! ## The walk to a key -/

theorem path_short {fuel : Nat} (k : K) (h : Holds size s t) (hfuel : 42 ≤ fuel) :
    ∃ seq left, Rust.findPath (fields size) fuel k s = .ok ((seq, left), s) ∧
      Nat.fib (seq.length + 1) ≤ (entries t).length + 1 := by
  have hheight := h.height
  have hlow : t.height < fuel := by omega
  obtain ⟨c, t', he, -, -, -, hrun⟩ := findPath_root (k := k) h.stored h.ordered hlow
  refine ⟨_, _, hrun, ?_⟩
  have hway := AvlTree.height_plug c t'
  rw [he] at hway
  have hfib := AvlTree.fib_le_size h.balanced
  rw [length_path, entries, List.length_map, AvlTree.length_toList]
  exact (Nat.fib_mono (by omega)).trans hfib

/-- Whatever the run before it, a walk to a key visits few nodes: with `n` entries
the path is at most as long as the index of a Fibonacci number up to `n + 1`. -/
theorem find_path_short (keySize valueSize : Nat) {fuel : Nat} (hfuel : 42 ≤ fuel) (ops : List (Op K V))
    {s s' : Pool K V} {rs : List (Reply K V)} (hs : s.Empty)
    (hfit : FitsPool (nodeSize keySize valueSize) [] ops)
    (hrun : runOps (fields (nodeSize keySize valueSize)) fuel ops s = .ok (rs, s')) (k : K) :
    ∃ seq left, Rust.findPath (fields (nodeSize keySize valueSize)) fuel k s' = .ok ((seq, left), s') ∧
      Nat.fib (seq.length + 1) ≤ (applyOps [] ops).2.length + 1 := by
  have h9 : 9 ≤ nodeSize keySize valueSize := by
    unfold nodeSize
    omega
  obtain ⟨s1, t, hrun1, h, hent⟩ := runOps_run hfuel (hs.holds h9) hfit
  rw [hrun] at hrun1
  obtain ⟨-, rfl⟩ := Prod.mk.inj (Except.ok.inj hrun1)
  have hshort := path_short k h hfuel
  rwa [hent] at hshort

theorem find_path_short_blank : ∃ rs s', runOps (fields (nodeSize 8 8)) 42 [.insert 1 10, .insert 2 20] blank = .ok (rs, s') ∧
    ∃ seq left, Rust.findPath (fields (nodeSize 8 8)) 42 7 s' = .ok ((seq, left), s') ∧
      Nat.fib (seq.length + 1) ≤ 2 + 1 := by
  have hfit : FitsPool (nodeSize 8 8) [] [Op.insert 1 10, Op.insert 2 20] := by
    simp [FitsPool, Op.apply, SortedMap.insert, nodeSize]
  have hs : blank.Empty := ⟨rfl, rfl, rfl⟩
  obtain ⟨s', t, hrun, -⟩ := runOps_run (le_refl 42) (hs.holds (by decide)) hfit
  exact ⟨_, s', hrun, find_path_short 8 8 (le_refl 42) [.insert 1 10, .insert 2 20] hs hfit hrun 7⟩

end

end GenVM.Storage.AvlMap
