import GenVM.Storage.AvlRebalance

/-!
# The slots of the pool

Every slot of the pool is a node of the tree or on the stack of free slots
(executor/crates/sdk-rs/src/storage/tree_map.rs:62-93).
-/
namespace GenVM.Storage.AvlMap

open Agree (Prog)
open GenVM.Lib.Consume (run_bind)
open GenVM.Lib.Avl TreeMap

variable {K V : Type} {size : Nat} {s s' : Pool K V} {live : List Nat}

/-- The free slots, 0-based. -/
def frees (s : Pool K V) : List Nat := (List.range s.freeLen).map fun i => s.free (offset 4 i)

/-- The positions in use and the free ones are all positions, each once. -/
def Arena (s : Pool K V) (live : List Nat) : Prop :=
  (live ++ (frees s).map (· + 1)).Perm (List.range' 1 s.slotsLen)

theorem Arena.length (h : Arena s live) : live.length + s.freeLen = s.slotsLen := by
  have hl := List.Perm.length_eq h
  simpa [frees] using hl

theorem Arena.inPool (h : Arena s live) {i : Nat} (hi : i ∈ live) : InPool s i := by
  have hm := (List.Perm.mem_iff h).mp (List.mem_append_left _ hi)
  rw [List.mem_range'_1] at hm
  exact ⟨by omega, by omega⟩

theorem Arena.nodup (h : Arena s live) : live.Nodup := by
  have hn := (List.Perm.nodup_iff h).mpr List.nodup_range'
  exact (List.nodup_append.mp hn).1

theorem Arena.perm (h : Arena s live) {live' : List Nat} (hp : live'.Perm live) : Arena s live' :=
  (hp.append_right _).trans h

theorem frees_eq (hlen : s'.freeLen = s.freeLen) (hfree : s'.free = s.free) : frees s' = frees s := by
  rw [frees, frees, hlen, hfree]

theorem Arena.only (h : Arena s live) {touched : List Nat} (ho : Only size s s' touched) :
    Arena s' live := by
  unfold Arena
  rw [frees_eq ho.freeLen ho.free, ho.slotsLen]
  exact h

/-! ## Allocation -/

/-- The slots change, the nodes do not. -/
structure SameNodes (s s' : Pool K V) : Prop where
  root : s'.root = s.root
  nodes : s'.nodes = s.nodes

theorem SameNodes.at (h : SameNodes s s') (i : Nat) : s'.at size i = s.at size i := by
  rw [Pool.at, Pool.at, h.nodes]

theorem SameNodes.stored (h : SameNodes s s') {t : ATree K V} (ht : Stored s size t) :
    Stored s' size t := by
  induction t with
  | nil => trivial
  | node l a b r ihl ihr => exact ⟨(h.at a.id).trans ht.1, ihl ht.2.1, ihr ht.2.2⟩

theorem SameNodes.around (h : SameNodes s s') {c : ACtx K V} {x : Nat} (hc : Around s size c x) :
    Around s' size c x := by
  induction c generalizing x with
  | nil => exact h.root.trans hc
  | cons f up ih => exact ⟨(h.at f.a.id).trans hc.1, h.stored hc.2.1, ih hc.2.2⟩

theorem bind_freeLen {β : Type} (f : Nat → M (Pool K V) β) :
    (((fields size).freeLen : Cell (Pool K V) Nat).read >>= f) s = f s.freeLen s := rfl

theorem bind_slotsLen {β : Type} (f : Nat → M (Pool K V) β) :
    (((fields size).slotsLen : Cell (Pool K V) Nat).read >>= f) s = f s.slotsLen s := rfl

theorem frees_pop {n : Nat} (h : s.freeLen = n + 1) :
    frees s = frees { s with freeLen := n } ++ [s.free (offset 4 n)] := by
  rw [frees, h, List.range_succ, List.map_append]
  rfl

theorem allocSlot_run (h : Arena s live) (hr : Room size s) (hcap : (live.length + 1) * size ≤ 2 ^ 32) :
    ∃ idx s', Rust.allocSlot (fields size) s = .ok (idx, s') ∧ Arena s' ((idx + 1) :: live) ∧
      Room size s' ∧ SameNodes s s' ∧ s.slotsLen ≤ s'.slotsLen := by
  have hlen := h.length
  have hlt := s.slotsLen_lt
  have h9 := hr.pos
  unfold Rust.allocSlot
  rw [bind_freeLen]
  cases hn : s.freeLen with
  | zero =>
    have hsmall : s.slotsLen + 1 < 2 ^ 32 := by
      have hm : (live.length + 1) * 9 ≤ (live.length + 1) * size := Nat.mul_le_mul_left _ h9
      omega
    have hmod : (s.slotsLen + 1) % 2 ^ 32 % 2 ^ 32 = s.slotsLen + 1 := by
      rw [Nat.mod_mod, Nat.mod_eq_of_lt hsmall]
    rw [if_neg (by simp)]
    refine ⟨s.slotsLen, { s with
      slotsLen := (s.slotsLen + 1) % 2 ^ 32 % 2 ^ 32, slotsLen_lt := Nat.mod_lt _ (Nat.two_pow_pos 32) },
      rfl, ?_, ⟨h9, ?_⟩, ⟨rfl, rfl⟩, ?_⟩
    · have hfree : frees s = [] := by rw [frees, hn]; rfl
      unfold Arena at h
      rw [hfree, List.map_nil, List.append_nil] at h
      change List.Perm ((s.slotsLen + 1) :: live ++ (frees s).map (· + 1))
        (List.range' 1 ((s.slotsLen + 1) % 2 ^ 32 % 2 ^ 32))
      rw [hfree, List.map_nil, List.append_nil, hmod, List.range'_concat, Nat.one_mul, Nat.add_comm 1]
      exact (h.cons _).trans (List.perm_append_singleton _ _).symm
    · change (s.slotsLen + 1) % 2 ^ 32 % 2 ^ 32 * size ≤ 2 ^ 32
      rw [hmod, show s.slotsLen + 1 = live.length + 1 by omega]
      exact hcap
    · change s.slotsLen ≤ (s.slotsLen + 1) % 2 ^ 32 % 2 ^ 32
      omega
  | succ n =>
    have hpop := frees_pop hn
    have hidx : s.free (offset 4 n) < s.slotsLen := by
      have hm : s.free (offset 4 n) + 1 ∈ live ++ (frees s).map (· + 1) := by
        rw [hpop]
        simp
      have := List.mem_range'_1.mp ((List.Perm.mem_iff h).mp hm)
      omega
    refine ⟨s.free (offset 4 n), { s with freeLen := n }, ?_, ?_, ⟨h9, hr.fits⟩, ⟨rfl, rfl⟩, le_rfl⟩
    · rw [if_pos (by simp)]
      have hindex : Rust.index (fields size).freeLen (n + 1 - 1) s = .ok (n, s) := by
        unfold Rust.index
        rw [bind_freeLen, hn, if_pos (by omega)]
        rfl
      have hpopRun : Rust.pop (fields size).freeLen s = .ok ((), { s with freeLen := n }) := by
        unfold Rust.pop
        rw [bind_freeLen, hn, if_neg (by omega)]
        rfl
      rw [run_bind hindex]
      refine (run_bind (a := s.free (offset 4 n)) (u := s) rfl).trans ?_
      rw [run_bind hpopRun]
      unfold Rust.index
      rw [bind_slotsLen, if_pos hidx]
      rfl
    · unfold Arena at h ⊢
      rw [hpop, List.map_append, List.map_singleton] at h
      refine List.Perm.trans ?_ h
      rw [← List.append_assoc]
      exact (List.perm_append_singleton _ _).symm

/-! ## Freeing -/

theorem frees_push (hsmall : s.freeLen * 4 + 4 ≤ 2 ^ 32) (slot : Nat) :
    frees { s with freeLen := s.freeLen + 1, free := Function.update s.free (offset 4 s.freeLen) slot } =
      frees s ++ [slot] := by
  have hne : ∀ i < s.freeLen, offset 4 i ≠ offset 4 s.freeLen := by
    intro i hi he
    have := offset_inj (w := s.freeLen + 1) (by decide) (by omega) (by omega) (by omega) he
    omega
  unfold frees
  dsimp only
  rw [List.range_succ, List.map_append, List.map_singleton, Function.update_self]
  congr 1
  refine List.map_congr_left fun i hi => Function.update_of_ne (hne i (List.mem_range.mp hi)) _ _

theorem freeSlot_run (slot : Nat) (h : Arena s ((slot + 1) :: live)) (hr : Room size s) :
    ∃ s', Rust.freeSlot (fields size) slot s = .ok ((), s') ∧ Arena s' live ∧ Room size s' ∧
      SameNodes s s' := by
  have hlen := h.length
  have hlt := s.slotsLen_lt
  have h9 := hr.pos
  have hpos := h.inPool List.mem_cons_self
  rw [List.length_cons] at hlen
  unfold InPool at hpos
  unfold Rust.freeSlot
  rw [bind_slotsLen, Nat.mod_eq_of_lt (by omega)]
  by_cases hlast : slot + 1 = s.slotsLen
  · rw [if_pos hlast]
    have hmod : (s.slotsLen - 1) % 2 ^ 32 = slot := by
      rw [Nat.mod_eq_of_lt (by omega)]
      omega
    refine ⟨{ s with
      slotsLen := (s.slotsLen - 1) % 2 ^ 32, slotsLen_lt := Nat.mod_lt _ (Nat.two_pow_pos 32) },
      ?_, ?_, ⟨h9, ?_⟩, ⟨rfl, rfl⟩⟩
    · unfold Rust.pop
      rw [bind_slotsLen, if_neg (by omega)]
      rfl
    · change List.Perm (live ++ (frees s).map (· + 1)) (List.range' 1 ((s.slotsLen - 1) % 2 ^ 32))
      unfold Arena at h
      rw [← hlast, List.range'_concat, Nat.one_mul, Nat.add_comm 1] at h
      rw [hmod]
      exact (List.perm_cons _).mp (h.trans (List.perm_append_singleton _ _))
    · change (s.slotsLen - 1) % 2 ^ 32 * size ≤ 2 ^ 32
      rw [hmod]
      exact (Nat.mul_le_mul_right size (by omega)).trans hr.fits
  · have hfit : s.slotsLen * 9 ≤ 2 ^ 32 := (Nat.mul_le_mul_left _ h9).trans hr.fits
    have hmod : (s.freeLen + 1) % 2 ^ 32 = s.freeLen + 1 := Nat.mod_eq_of_lt (by omega)
    rw [if_neg hlast]
    refine ⟨{ s with
      freeLen := (s.freeLen + 1) % 2 ^ 32, free := Function.update s.free (offset 4 s.freeLen) slot },
      rfl, ?_, ⟨h9, hr.fits⟩, ⟨rfl, rfl⟩⟩
    unfold Arena at h ⊢
    rw [hmod, frees_push (by omega), List.map_append, List.map_singleton, ← List.append_assoc]
    exact (List.perm_append_singleton _ _).trans h

end GenVM.Storage.AvlMap
