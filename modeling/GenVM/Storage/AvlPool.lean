import GenVM.Lib.Avl
import GenVM.Lib.Consume
import GenVM.Storage.TreeMap

/-!
# The node pool of the storage AVL map

The nodes of a `TreeMap` lie one behind the other in a storage slot and are
named by their 1-based position, `0` for none (executor/crates/sdk-rs/src/storage/tree_map.rs
and array.rs). Here the state of one map is this pool; `fields` reads and writes
it. `Stored` says that a tree is in the pool, `Around` that the nodes on the way
to a hole are, and `At` that the pool holds a tree with a filled hole. The path
the operations walk along is the list of positions down to the hole.

**Results.**
* `at_plug`: a hole may be filled or opened at will.
* `Stored.only`, `Around.only`: what a write elsewhere leaves alone.
-/
namespace GenVM.Storage.AvlMap

open Agree (Prog)
open GenVM.Lib.Consume (run_bind)
open GenVM.Lib.Avl TreeMap

structure Node (K V : Type) where
  key : K
  value : V
  left : Nat
  right : Nat
  balance : Int

/-- A map in storage; the nodes and the entries of the free stack by their offset
in bytes. -/
structure Pool (K V : Type) where
  root : Nat
  slotsLen : Nat
  freeLen : Nat
  nodes : Nat → Node K V
  free : Nat → Nat
  slotsLen_lt : slotsLen < 2 ^ 32

variable {K V : Type}

/-- `idx * T::SIZE`, mirrors array.rs:81-91 -/
def offset (size idx : Nat) : Nat := idx * size % 2 ^ 32

def nodeCell {α : Type} (size idx : Nat) (get : Node K V → α) (set : α → Node K V → Node K V) :
    Cell (Pool K V) α where
  get s := .ok (get (s.nodes (offset size idx)))
  set a s := .ok { s with
    nodes := Function.update s.nodes (offset size idx) (set a (s.nodes (offset size idx))) }

/-- mirrors tree_map.rs:8-21; `size` is the `SIZE` of a node -/
def fields (size : Nat) : Fields (Pool K V) K V where
  root := ⟨fun s => .ok s.root, fun a s => .ok { s with root := a }⟩
  slotsLen := ⟨fun s => .ok s.slotsLen, fun a s => .ok { s with
    slotsLen := a % 2 ^ 32, slotsLen_lt := Nat.mod_lt _ (Nat.two_pow_pos 32) }⟩
  freeLen := ⟨fun s => .ok s.freeLen, fun a s => .ok { s with freeLen := a }⟩
  free idx := ⟨fun s => .ok (s.free (offset 4 idx)),
    fun a s => .ok { s with free := Function.update s.free (offset 4 idx) a }⟩
  key idx := nodeCell size idx Node.key fun a n => { n with key := a }
  value idx := nodeCell size idx Node.value fun a n => { n with value := a }
  left idx := nodeCell size idx Node.left fun a n => { n with left := a }
  right idx := nodeCell size idx Node.right fun a n => { n with right := a }
  balance idx := nodeCell size idx Node.balance fun a n => { n with balance := a }

/-! ## Nodes by position -/

/-- The node at a position. -/
def Pool.at (s : Pool K V) (size i : Nat) : Node K V := s.nodes (offset size (i - 1))

/-- The state with another node at a position. -/
def Pool.put (s : Pool K V) (size i : Nat) (n : Node K V) : Pool K V :=
  { s with nodes := Function.update s.nodes (offset size (i - 1)) n }

/-- A position in the pool. -/
def InPool (s : Pool K V) (i : Nat) : Prop := 0 < i ∧ i ≤ s.slotsLen

/-- The nodes of the pool lie apart; a node is at least its two links and its balance. -/
structure Room (size : Nat) (s : Pool K V) : Prop where
  pos : 9 ≤ size
  fits : s.slotsLen * size ≤ 2 ^ 32

section
variable {size : Nat} {s : Pool K V} {i j : Nat} {n : Node K V}

@[simp] theorem put_root : (s.put size i n).root = s.root := rfl
@[simp] theorem put_slotsLen : (s.put size i n).slotsLen = s.slotsLen := rfl
@[simp] theorem put_freeLen : (s.put size i n).freeLen = s.freeLen := rfl
@[simp] theorem put_free : (s.put size i n).free = s.free := rfl

@[simp] theorem inPool_put : InPool (s.put size i n) j ↔ InPool s j := Iff.rfl

@[simp] theorem at_put_self : (s.put size i n).at size i = n := Function.update_self ..

theorem offset_inj {size w m n : Nat} (h0 : 0 < size) (hfit : w * size ≤ 2 ^ 32) (hm : m < w)
    (hn : n < w) (h : offset size m = offset size n) : m = n := by
  have hlt : ∀ k, k < w → k * size < 2 ^ 32 := by
    intro k hk
    have hk1 : (k + 1) * size ≤ w * size := Nat.mul_le_mul_right size hk
    rw [Nat.add_mul, Nat.one_mul] at hk1
    omega
  unfold offset at h
  rw [Nat.mod_eq_of_lt (hlt m hm), Nat.mod_eq_of_lt (hlt n hn)] at h
  exact Nat.eq_of_mul_eq_mul_right h0 h

theorem at_put_ne (hr : Room size s) (hi : InPool s i) (hj : InPool s j) (hne : j ≠ i) :
    (s.put size i n).at size j = s.at size j := by
  refine Function.update_of_ne (fun h => hne ?_) _ _
  obtain ⟨hi0, hi1⟩ := hi
  obtain ⟨hj0, hj1⟩ := hj
  have := offset_inj (by have := hr.pos; omega) hr.fits (by omega) (by omega) h
  omega

end

/-! ## Running programs -/

section
variable {α β : Type} {size i : Nat} {s : Pool K V}

theorem run_node (hi : InPool s i) : Rust.node (fields size) i s = .ok (i - 1, s) := by
  have h0 : i ≠ 0 := Nat.pos_iff_ne_zero.mp hi.1
  have hlt : i - 1 < s.slotsLen := by have := hi.1; have := hi.2; omega
  rw [Rust.node, if_neg h0, Rust.index]
  refine (run_bind (u := s) (a := s.slotsLen) rfl).trans ?_
  rw [if_pos hlt]
  rfl

theorem bind_node (f : Nat → M (Pool K V) β) (hi : InPool s i) :
    (Rust.node (fields size) i >>= f) s = f (i - 1) s := run_bind (run_node hi)

theorem bind_left (f : Nat → M (Pool K V) β) :
    (((fields size).left (i - 1)).read >>= f) s = f (s.at size i).left s := rfl

theorem bind_right (f : Nat → M (Pool K V) β) :
    (((fields size).right (i - 1)).read >>= f) s = f (s.at size i).right s := rfl

theorem bind_balance (f : Int → M (Pool K V) β) :
    (((fields size).balance (i - 1)).read >>= f) s = f (s.at size i).balance s := rfl

theorem bind_key (f : K → M (Pool K V) β) :
    (((fields size).key (i - 1)).read >>= f) s = f (s.at size i).key s := rfl

theorem bind_root (f : Nat → M (Pool K V) β) :
    (((fields size).root : Cell (Pool K V) Nat).read >>= f) s = f s.root s := rfl

theorem bind_set_left (x : Nat) (f : Unit → M (Pool K V) β) :
    (((fields size).left (i - 1)).write x >>= f) s =
      f () (s.put size i { s.at size i with left := x }) := rfl

theorem bind_set_right (x : Nat) (f : Unit → M (Pool K V) β) :
    (((fields size).right (i - 1)).write x >>= f) s =
      f () (s.put size i { s.at size i with right := x }) := rfl

theorem bind_set_balance (x : Int) (f : Unit → M (Pool K V) β) :
    (((fields size).balance (i - 1)).write x >>= f) s =
      f () (s.put size i { s.at size i with balance := x }) := rfl

theorem set_left (x : Nat) : ((fields size).left (i - 1)).write x s =
    .ok ((), s.put size i { s.at size i with left := x }) := rfl

theorem set_right (x : Nat) : ((fields size).right (i - 1)).write x s =
    .ok ((), s.put size i { s.at size i with right := x }) := rfl

theorem set_balance (x : Int) : ((fields size).balance (i - 1)).write x s =
    .ok ((), s.put size i { s.at size i with balance := x }) := rfl

end

/-! ## Trees in the pool -/

/-- What a node of the tree stands for: its position, key and value. -/
structure Entry (K V : Type) where
  id : Nat
  key : K
  value : V

abbrev ATree (K V : Type) := AvlTree (Entry K V)
abbrev ACtx (K V : Type) := Ctx (Entry K V)

def rootOf : ATree K V → Nat
  | .nil => 0
  | .node _ a _ _ => a.id

def ids (t : ATree K V) : List Nat := t.toList.map Entry.id

/-- The node an entry is kept in. -/
def Entry.node (a : Entry K V) (l r : Nat) (b : Int) : Node K V := ⟨a.key, a.value, l, r, b⟩

section
variable (a : Entry K V) (l r : Nat) (b : Int)

@[simp] theorem node_key : (a.node l r b).key = a.key := rfl
@[simp] theorem node_left : (a.node l r b).left = l := rfl
@[simp] theorem node_right : (a.node l r b).right = r := rfl
@[simp] theorem node_balance : (a.node l r b).balance = b := rfl

end

def Stored (s : Pool K V) (size : Nat) : ATree K V → Prop
  | .nil => True
  | .node l a b r =>
    s.at size a.id = a.node (rootOf l) (rootOf r) b ∧ Stored s size l ∧ Stored s size r

/-- The node of a frame, with `c` for its missing child. -/
def frameNode (f : Frame (Entry K V)) (c : Nat) : Node K V :=
  if f.left then f.a.node c (rootOf f.sib) f.b else f.a.node (rootOf f.sib) c f.b

/-- The nodes around a hole are in the pool, with `x` hanging from the hole. -/
def Around (s : Pool K V) (size : Nat) : ACtx K V → Nat → Prop
  | [], x => s.root = x
  | f :: up, x =>
    s.at size f.a.id = frameNode f x ∧ Stored s size f.sib ∧ Around s size up f.a.id

/-- The positions around a hole. -/
def around (c : ACtx K V) : List Nat := (before c).map Entry.id ++ (after c).map Entry.id

/-- The pool holds the tree with `t` in the hole of `c`. -/
structure At (size : Nat) (s : Pool K V) (c : ACtx K V) (t : ATree K V) : Prop where
  tree : Stored s size t
  ctx : Around s size c (rootOf t)
  nodup : (ids (plug c t)).Nodup
  inPool : ∀ i ∈ ids (plug c t), InPool s i
  room : Room size s

section
variable {c up : ACtx K V} {t l r : ATree K V} {f : Frame (Entry K V)} {i : Nat}

@[simp] theorem ids_nil : ids (.nil : ATree K V) = [] := rfl

@[simp] theorem ids_node (l r : ATree K V) (a : Entry K V) (b : Int) :
    ids (.node l a b r) = ids l ++ a.id :: ids r := by
  simp [ids]

theorem ids_plug (c : ACtx K V) (t : ATree K V) :
    ids (plug c t) = (before c).map Entry.id ++ ids t ++ (after c).map Entry.id := by
  rw [ids, toList_plug, List.map_append, List.map_append]
  rfl

theorem ids_plug_perm (c : ACtx K V) (t : ATree K V) : (ids (plug c t)).Perm (ids t ++ around c) := by
  rw [ids_plug, around, ← List.append_assoc]
  exact (List.perm_append_comm.append_right _)

theorem mem_ids_plug : i ∈ ids (plug c t) ↔ i ∈ ids t ∨ i ∈ around c := by
  rw [(ids_plug_perm c t).mem_iff, List.mem_append]

theorem mem_around_cons : i ∈ around (f :: up) ↔ i = f.a.id ∨ i ∈ ids f.sib ∨ i ∈ around up := by
  rw [around, around, before_cons, after_cons, ids]
  cases f.left
  · simp only [Bool.false_eq_true, if_false, List.map_append, List.map_cons, List.map_nil,
      List.nil_append, List.mem_append, List.mem_cons, List.not_mem_nil, or_false]
    tauto
  · simp only [if_true, List.append_nil, List.map_append, List.map_cons, List.cons_append,
      List.mem_append, List.mem_cons]
    tauto

theorem rootOf_mem (h : t ≠ .nil) : rootOf t ∈ ids t := by
  cases t with
  | nil => exact absurd rfl h
  | node l a b r => simp [rootOf]

/-- A hole and what is around it share no position. -/
theorem disjoint_around (h : (ids (plug c t)).Nodup) (hi : i ∈ ids t) : i ∉ around c := by
  have hn := (ids_plug_perm c t).nodup_iff.mp h
  exact fun hc => (List.nodup_append.mp hn).2.2 i hi i hc rfl

theorem nodup_tree (h : (ids (plug c t)).Nodup) : (ids t).Nodup :=
  (List.nodup_append.mp ((ids_plug_perm c t).nodup_iff.mp h)).1

end

/-- Moving between a tree in a hole and the tree around it. -/
theorem at_cons {size : Nat} {s : Pool K V} {f : Frame (Entry K V)} {up : ACtx K V}
    {t : ATree K V} : At size s (f :: up) t ↔ At size s up (f.plug t) := by
  have h : Around s size (f :: up) (rootOf t) ∧ Stored s size t ↔
      Around s size up (rootOf (f.plug t)) ∧ Stored s size (f.plug t) := by
    rw [Around, frameNode, Frame.plug]
    cases f.left
    · simp only [Bool.false_eq_true, if_false, rootOf, Stored]
      tauto
    · simp only [if_true, rootOf, Stored]
      tauto
  constructor
  · intro ha
    obtain ⟨hc, ht⟩ := h.mp ⟨ha.ctx, ha.tree⟩
    exact ⟨ht, hc, ha.nodup, ha.inPool, ha.room⟩
  · intro ha
    obtain ⟨hc, ht⟩ := h.mpr ⟨ha.ctx, ha.tree⟩
    exact ⟨ht, hc, ha.nodup, ha.inPool, ha.room⟩

theorem at_plug {size : Nat} {s : Pool K V} {c up : ACtx K V} {t : ATree K V} :
    At size s (c ++ up) t ↔ At size s up (plug c t) := by
  induction c generalizing t with
  | nil => exact Iff.rfl
  | cons f c ih => exact at_cons.trans ih

/-! ## What a step leaves alone -/

/-- Only the nodes at `touched`, and perhaps the root, are changed. -/
structure Only (size : Nat) (s s' : Pool K V) (touched : List Nat) : Prop where
  slotsLen : s'.slotsLen = s.slotsLen
  freeLen : s'.freeLen = s.freeLen
  free : s'.free = s.free
  nodes : ∀ i, InPool s i → i ∉ touched → s'.at size i = s.at size i

section
variable {size : Nat} {s s' s'' : Pool K V} {touched touched' : List Nat} {c : ACtx K V}
  {t : ATree K V} {i : Nat}

theorem Only.refl (s : Pool K V) : Only size s s touched := ⟨rfl, rfl, rfl, fun _ _ _ => rfl⟩

theorem Only.inPool (h : Only size s s' touched) : InPool s' i ↔ InPool s i := by
  unfold InPool
  rw [h.slotsLen]

theorem Only.trans (h : Only size s s' touched) (h' : Only size s' s'' touched') :
    Only size s s'' (touched ++ touched') := by
  refine ⟨h'.slotsLen.trans h.slotsLen, h'.freeLen.trans h.freeLen, h'.free.trans h.free, ?_⟩
  intro i hi hm
  rw [List.mem_append, not_or] at hm
  rw [h'.nodes i (h.inPool.mpr hi) hm.2, h.nodes i hi hm.1]

theorem Only.mono (h : Only size s s' touched) (hsub : touched ⊆ touched') :
    Only size s s' touched' :=
  ⟨h.slotsLen, h.freeLen, h.free, fun i hi hm => h.nodes i hi fun hm' => hm (hsub hm')⟩

theorem Only.room (h : Only size s s' touched) (hr : Room size s) : Room size s' :=
  ⟨hr.pos, h.slotsLen ▸ hr.fits⟩

theorem only_put (hr : Room size s) (hi : InPool s i) {n : Node K V} :
    Only size s (s.put size i n) [i] :=
  ⟨rfl, rfl, rfl, fun _ hj hne => at_put_ne hr hi hj (List.mem_singleton.not.mp hne)⟩

/-- Nodes put one after the other. -/
theorem only_puts (hr : Room size s) (ns : List (Nat × Node K V)) (hi : ∀ q ∈ ns, InPool s q.1) :
    Only size s (ns.foldl (fun s q => s.put size q.1 q.2) s) (ns.map Prod.fst) := by
  induction ns generalizing s with
  | nil => exact .refl s
  | cons q ns ih =>
    have ho := only_put (n := q.2) hr (hi q List.mem_cons_self)
    exact ho.trans (ih (ho.room hr) fun q hq => hi q (List.mem_cons_of_mem _ hq))

theorem Stored.only (h : Stored s size t) (ho : Only size s s' touched)
    (hp : ∀ i ∈ ids t, InPool s i) (hd : ∀ i ∈ ids t, i ∉ touched) : Stored s' size t := by
  induction t with
  | nil => trivial
  | node l a b r ihl ihr =>
    rw [ids_node] at hp hd
    obtain ⟨hn, hl, hr⟩ := h
    refine ⟨?_, ?_, ?_⟩
    · rw [ho.nodes a.id (hp _ (by simp)) (hd _ (by simp)), hn]
    · exact ihl hl (fun i hi => hp i (by simp [hi])) (fun i hi => hd i (by simp [hi]))
    · exact ihr hr (fun i hi => hp i (by simp [hi])) (fun i hi => hd i (by simp [hi]))

theorem Around.only {x : Nat} (h : Around s size c x) (ho : Only size s s' touched)
    (hroot : s'.root = s.root) (hp : ∀ i ∈ around c, InPool s i)
    (hd : ∀ i ∈ around c, i ∉ touched) : Around s' size c x := by
  induction c generalizing x with
  | nil => exact hroot.trans h
  | cons f up ih =>
    simp only [mem_around_cons] at hp hd
    obtain ⟨hn, hs, hup⟩ := h
    refine ⟨?_, ?_, ?_⟩
    · rw [ho.nodes f.a.id (hp _ (.inl rfl)) (hd _ (.inl rfl)), hn]
    · exact hs.only ho (fun i hi => hp i (.inr (.inl hi))) (fun i hi => hd i (.inr (.inl hi)))
    · exact ih hup (fun i hi => hp i (.inr (.inr hi))) (fun i hi => hd i (.inr (.inr hi)))

end

end GenVM.Storage.AvlMap
