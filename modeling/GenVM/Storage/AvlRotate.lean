import GenVM.Storage.AvlPool

/-!
# Rotations in the pool

What the four rotations and the links above them do to the tree in the pool
(executor/crates/sdk-rs/src/storage/tree_map.rs:95-191).
-/
namespace GenVM.Storage.AvlMap

open Agree (Prog)
open GenVM.Lib.Avl TreeMap

variable {K V : Type} {size : Nat} {s : Pool K V} {c : ACtx K V}

/-! ## Paths -/

/-- The positions from the root down to the hole, and what hangs there. -/
def path (c : ACtx K V) (last : Nat) : List Nat := (c.map fun f => f.a.id).reverse ++ [last]

section
variable (c up : ACtx K V) (f : Frame (Entry K V)) (x y : Nat)

@[simp] theorem top_path : top (path c x) = x := by
  rw [top, path, List.getLastD_eq_getLast?, List.getLast?_concat]
  rfl

@[simp] theorem length_path : (path c x).length = c.length + 1 := by
  rw [path, List.length_append, List.length_reverse, List.length_map]
  rfl

theorem path_cons : path (f :: up) x = path up f.a.id ++ [x] := by
  rw [path, List.map_cons, List.reverse_cons]
  rfl

@[simp] theorem dropLast_path_cons : (path (f :: up) x).dropLast = path up f.a.id := by
  rw [path_cons, List.dropLast_concat]

theorem dropLast_path : (path c x).dropLast = (c.map fun f => f.a.id).reverse := by
  rw [path, List.dropLast_concat]

@[simp] theorem drop_path : (path c x).dropLast ++ [y] = path c y := by
  rw [dropLast_path, path]

@[simp] theorem drop_two_path : (path (f :: up) x).dropLast.dropLast ++ [y] = path up y := by
  rw [dropLast_path_cons, dropLast_path, path]

theorem getD_path : (path (f :: up) x).getD up.length 0 = f.a.id := by
  have hlen : (path up f.a.id).length = up.length + 1 := length_path up _
  rw [path_cons, List.getD_append _ _ _ _ (by omega), path, List.getD_append_right _ _ _ _ (by simp)]
  simp

@[simp] theorem second_path : second (path (f :: up) x) = f.a.id := by
  rw [second, length_path]
  exact getD_path up f x

end

/-! ## Links -/

@[simp] theorem room_put {i : Nat} {n : Node K V} : Room size (s.put size i n) ↔ Room size s :=
  ⟨fun h => ⟨h.pos, h.fits⟩, fun h => ⟨h.pos, h.fits⟩⟩

/-- The node of a frame is neither beside its hole nor above. -/
theorem frame_apart {f : Frame (Entry K V)} {up : ACtx K V} {t : ATree K V}
    (h : (ids (plug (f :: up) t)).Nodup) :
    f.a.id ∉ ids f.sib ∧ f.a.id ∉ ids t ∧ f.a.id ∉ around up ∧ (∀ i ∈ ids f.sib, i ∉ ids t) := by
  have hmem : f.a.id ∈ ids (f.plug t) := by
    unfold Frame.plug
    cases f.left <;> simp
  have hnd := nodup_tree (c := up) h
  refine ⟨?_, ?_, disjoint_around h hmem, ?_⟩
  all_goals
    revert hnd
    unfold Frame.plug
    cases f.left
    · simp only [Bool.false_eq_true, if_false, ids_node, List.nodup_append, List.nodup_cons,
        List.mem_cons]
      grind
    · simp only [if_true, ids_node, List.nodup_append, List.nodup_cons, List.mem_cons]
      grind

/-- Another child hangs from the hole. -/
theorem Around.link {f : Frame (Entry K V)} {up : ACtx K V} {t : ATree K V} {x : Nat} (y : Nat)
    (h : Around s size (f :: up) x) (hn : (ids (plug (f :: up) t)).Nodup)
    (hp : ∀ i ∈ ids (plug (f :: up) t), InPool s i) (hr : Room size s) :
    Around (s.put size f.a.id (frameNode f y)) size (f :: up) y ∧
      Only size s (s.put size f.a.id (frameNode f y)) (around (f :: up)) := by
  obtain ⟨-, hsib, hup⟩ := h
  obtain ⟨hasib, -, haup, -⟩ := frame_apart hn
  have hall : ∀ i ∈ around (f :: up), InPool s i := fun i hi => hp i (mem_ids_plug.mpr (.inr hi))
  have ho := only_put (n := frameNode f y) hr (hall f.a.id (mem_around_cons.mpr (.inl rfl)))
  refine ⟨⟨at_put_self, ?_, ?_⟩, ho.mono fun i hi => ?_⟩
  · refine hsib.only ho (fun i hi => hall i (mem_around_cons.mpr (.inr (.inl hi)))) fun i hi hm => ?_
    exact hasib (List.mem_singleton.mp hm ▸ hi)
  · refine hup.only ho rfl (fun i hi => hall i (mem_around_cons.mpr (.inr (.inr hi)))) fun i hi hm => ?_
    exact haup (List.mem_singleton.mp hm ▸ hi)
  · exact mem_around_cons.mpr (.inl (List.mem_singleton.mp hi))

/-- What hangs on the other side of a hole is not what hangs in it. -/
theorem sib_ne {f : Frame (Entry K V)} {up : ACtx K V} {t : ATree K V}
    (hn : (ids (plug (f :: up) t)).Nodup) (hp : ∀ i ∈ ids (plug (f :: up) t), InPool s i)
    (ht : t ≠ .nil) : rootOf f.sib ≠ rootOf t := by
  have hmem := rootOf_mem ht
  intro he
  by_cases hsib : f.sib = .nil
  · have h0 := (hp _ (mem_ids_plug.mpr (.inl hmem))).1
    rw [← he, hsib] at h0
    exact absurd h0 (lt_irrefl 0)
  · exact (frame_apart hn).2.2.2 _ (rootOf_mem hsib) (he ▸ hmem)

theorem replaceChild_run {t : ATree K V} (new x : Nat) (h : Around s size c (rootOf t))
    (ht : t ≠ .nil) (hn : (ids (plug c t)).Nodup) (hp : ∀ i ∈ ids (plug c t), InPool s i)
    (hr : Room size s) : ∃ s', Rust.replaceChild (fields size) (path c x) c.length (rootOf t) new s =
      .ok ((), s') ∧ Around s' size c new ∧ Only size s s' (around c) := by
  unfold Rust.replaceChild
  cases c with
  | nil => exact ⟨{ s with root := new }, rfl, rfl, rfl, rfl, rfl, fun _ _ _ => rfl⟩
  | cons f up =>
    have hpool : InPool s f.a.id :=
      hp _ (mem_ids_plug.mpr (.inr (mem_around_cons.mpr (.inl rfl))))
    refine ⟨_, ?_, h.link new hn hp hr⟩
    rw [List.length_cons, if_neg (Nat.succ_ne_zero _), Nat.add_sub_cancel, getD_path,
      bind_node _ hpool, bind_left]
    obtain ⟨hnode, -, -⟩ := h
    rw [hnode]
    cases hl : f.left with
    | true =>
      have he : frameNode f (rootOf t) = f.a.node (rootOf t) (rootOf f.sib) f.b := if_pos hl
      rw [he, node_left, if_pos rfl, set_left, hnode, he, frameNode, if_pos hl]
      rfl
    | false =>
      have hf : ∀ y, frameNode f y = f.a.node (rootOf f.sib) y f.b := fun y => if_neg (by simp [hl])
      rw [hf, node_left, if_neg (sib_ne hn hp ht), set_right, hnode, hf, hf]
      rfl

/-- A tree changed inside and hung up again. -/
theorem At.relink {s1 : Pool K V} {t t' : ATree K V} (h : At size s c t) (ht : t ≠ .nil)
    (ho : Only size s s1 (ids t)) (hroot : s1.root = s.root) (hst : Stored s1 size t')
    (hids : ids t' = ids t) (x : Nat) :
    ∃ s2, Rust.replaceChild (fields size) (path c x) c.length (rootOf t) (rootOf t') s1 =
      .ok ((), s2) ∧ At size s2 c t' ∧ Only size s s2 (ids (plug c t)) := by
  have hn := h.nodup
  have hp1 : ∀ i ∈ ids (plug c t), InPool s1 i := fun i hi => ho.inPool.mpr (h.inPool i hi)
  have hctx : Around s1 size c (rootOf t) := h.ctx.only ho hroot
    (fun i hi => h.inPool i (mem_ids_plug.mpr (.inr hi)))
    (fun i hi hm => disjoint_around hn hm hi)
  obtain ⟨s2, hrun, hctx2, ho2⟩ := replaceChild_run (rootOf t') x hctx ht hn hp1 (ho.room h.room)
  have hall : ids (plug c t') = ids (plug c t) := by rw [ids_plug, ids_plug, hids]
  refine ⟨s2, hrun, ⟨?_, hctx2, hall ▸ hn, ?_, ho2.room (ho.room h.room)⟩, ?_⟩
  · refine hst.only ho2 (fun i hi => ?_) fun i hi => ?_
    · rw [hids] at hi
      exact hp1 i (mem_ids_plug.mpr (.inl hi))
    · rw [hids] at hi
      exact disjoint_around hn hi
  · exact fun i hi => ho2.inPool.mpr (hp1 i (hall ▸ hi))
  · refine (ho.trans ho2).mono fun i hi => ?_
    exact mem_ids_plug.mpr (List.mem_append.mp hi)

/-! ## Rotations -/

/-- The nodes of an inner tree lie in the pool and apart. -/
structure Inside (size : Nat) (s : Pool K V) (t : ATree K V) : Prop where
  tree : Stored s size t
  nodup : (ids t).Nodup
  inPool : ∀ i ∈ ids t, InPool s i
  room : Room size s

theorem At.inside {t : ATree K V} (h : At size s c t) : Inside size s t :=
  ⟨h.tree, nodup_tree h.nodup, fun i hi => h.inPool i (mem_ids_plug.mpr (.inl hi)), h.room⟩

/-- What a rotation does: the nodes of `t` now make up `t'`. -/
structure Turned (size : Nat) (s s1 : Pool K V) (t t' : ATree K V) : Prop where
  only : Only size s s1 (ids t)
  root : s1.root = s.root
  tree : Stored s1 size t'
  list : t'.toList = t.toList

variable {l r m n u w : ATree K V} {a p x : Entry K V} {bl bp bx : Int}

theorem inside_single (h : Inside size s (.node (.node l a bl r) p bp u)) {s1 : Pool K V} {b1 b2 : Int}
    (ho : Only size s s1 [a.id, p.id]) (hroot : s1.root = s.root)
    (h1 : s1.at size a.id = a.node (rootOf l) p.id b1)
    (h2 : s1.at size p.id = p.node (rootOf r) (rootOf u) b2) :
    Turned size s s1 (.node (.node l a bl r) p bp u) (.node l a b1 (.node r p b2 u)) := by
  obtain ⟨-, ⟨-, hl, hr⟩, hu⟩ := h.tree
  have hin := h.inPool
  have hnd := h.nodup
  simp only [ids_node, List.append_assoc, List.cons_append, List.nodup_append, List.nodup_cons,
    List.mem_append, List.mem_cons] at hin hnd
  refine ⟨ho.mono ?_, hroot, ⟨h1, hl.only ho ?_ ?_, h2, hr.only ho ?_ ?_, hu.only ho ?_ ?_⟩, ?_⟩
  · simp
  all_goals first | grind | simp

/-- Two balances written. -/
theorem balances_run {i j : Nat} (hr : Room size s) (hi : InPool s i) (hj : InPool s j) (hne : j ≠ i)
    (x y : Int) : ∃ s', (do
        ((fields size).balance (i - 1)).write x
        ((fields size).balance (j - 1)).write y) s = .ok ((), s') ∧
      Only size s s' [i, j] ∧ s'.root = s.root ∧ s'.at size i = { s.at size i with balance := x } ∧
      s'.at size j = { s.at size j with balance := y } := by
  rw [bind_set_balance, set_balance, at_put_ne hr hi hj hne]
  refine ⟨_, rfl, only_puts hr [(i, _), (j, _)] ?_, rfl, ?_, at_put_self⟩
  · simp [hi, hj]
  · rw [at_put_ne (room_put.mpr hr) hj hi hne.symm, at_put_self]

/-- The nodes of a single rotation are different ones in the pool. -/
theorem inside_ids (h : Inside size s (.node (.node l a bl r) p bp u)) :
    InPool s p.id ∧ InPool s a.id ∧ a.id ≠ p.id := by
  have hnd := h.nodup
  simp only [ids_node, List.append_assoc, List.cons_append, List.nodup_append, List.nodup_cons,
    List.mem_append, List.mem_cons] at hnd
  exact ⟨h.inPool _ (by simp), h.inPool _ (by simp), by grind⟩

theorem rotRight_run (h : Inside size s (.node (.node l a bl r) p bp u)) :
    ∃ s1, Rust.rotRight (fields size) p.id a.id s = .ok ((), s1) ∧
      Turned size s s1 (.node (.node l a bl r) p bp u)
        (.node l a (if bl = 0 then 1 else 0) (.node r p (if bl = 0 then -1 else 0) u)) := by
  have hr := h.room
  obtain ⟨hpn, ⟨han, -, -⟩, -⟩ := h.tree
  obtain ⟨hpi, hai, hne⟩ := inside_ids h
  unfold Rust.rotRight rotRightWith
  rw [bind_node _ hpi, bind_node _ hai, bind_right, bind_set_right, bind_set_left, bind_balance,
    at_put_ne (room_put.mpr hr) hpi hai hne, at_put_self, at_put_ne hr hai hpi hne.symm, han, hpn]
  -- the two links are written, the balances follow
  generalize hs2 : Pool.put _ size p.id _ = s2
  have ho2 : Only size s s2 [a.id, p.id] := by
    rw [← hs2]
    exact only_puts hr [(a.id, _), (p.id, _)] (by simp [hai, hpi])
  have hp2 : s2.at size p.id = p.node (rootOf r) (rootOf u) bp := by
    rw [← hs2]
    exact at_put_self
  have ha2 : s2.at size a.id = a.node (rootOf l) p.id bl := by
    rw [← hs2, at_put_ne (room_put.mpr hr) hpi hai hne]
    exact at_put_self
  have hroot2 : s2.root = s.root := by rw [← hs2]; rfl
  have hbal : ∀ x y : Int, ∃ s1, (do
        ((fields size).balance (p.id - 1)).write x
        ((fields size).balance (a.id - 1)).write y) s2 = .ok ((), s1) ∧
      Turned size s s1 (.node (.node l a bl r) p bp u) (.node l a y (.node r p x u)) := by
    intro x y
    obtain ⟨s1, hrun, ho, hroot, hp1, ha1⟩ := balances_run (ho2.room hr) (ho2.inPool.mpr hpi)
      (ho2.inPool.mpr hai) hne x y
    rw [hp2] at hp1
    rw [ha2] at ha1
    refine ⟨s1, hrun, inside_single h ((ho2.trans ho).mono ?_) (hroot.trans hroot2) ha1 hp1⟩
    simp
  by_cases hb : bl = 0
  · rw [node_balance, if_pos hb, if_pos hb, if_pos hb]
    exact hbal _ _
  · rw [node_balance, if_neg hb, if_neg hb, if_neg hb]
    exact hbal _ _

theorem inside_single_left (h : Inside size s (.node u p bp (.node l a bl r))) {s1 : Pool K V}
    {b1 b2 : Int} (ho : Only size s s1 [a.id, p.id]) (hroot : s1.root = s.root)
    (h1 : s1.at size a.id = a.node p.id (rootOf r) b1)
    (h2 : s1.at size p.id = p.node (rootOf u) (rootOf l) b2) :
    Turned size s s1 (.node u p bp (.node l a bl r)) (.node (.node u p b2 l) a b1 r) := by
  obtain ⟨-, hu, -, hl, hr⟩ := h.tree
  have hin := h.inPool
  have hnd := h.nodup
  simp only [ids_node, List.nodup_append, List.nodup_cons, List.mem_append, List.mem_cons] at hin hnd
  refine ⟨ho.mono ?_, hroot, ⟨h1, ⟨h2, hu.only ho ?_ ?_, hl.only ho ?_ ?_⟩, hr.only ho ?_ ?_⟩, ?_⟩
  · simp
  all_goals first | grind | simp

theorem inside_ids_left (h : Inside size s (.node u p bp (.node l a bl r))) :
    InPool s p.id ∧ InPool s a.id ∧ a.id ≠ p.id := by
  have hnd := h.nodup
  simp only [ids_node, List.nodup_append, List.nodup_cons, List.mem_append, List.mem_cons] at hnd
  exact ⟨h.inPool _ (by simp), h.inPool _ (by simp), by grind⟩

theorem rotLeft_run (h : Inside size s (.node u p bp (.node l a bl r))) :
    ∃ s1, Rust.rotLeft (fields size) p.id a.id s = .ok ((), s1) ∧
      Turned size s s1 (.node u p bp (.node l a bl r))
        (.node (.node u p (if bl = 0 then 1 else 0) l) a (if bl = 0 then -1 else 0) r) := by
  have hr := h.room
  obtain ⟨hpn, -, han, -, -⟩ := h.tree
  obtain ⟨hpi, hai, hne⟩ := inside_ids_left h
  unfold Rust.rotLeft rotLeftWith
  rw [bind_node _ hpi, bind_node _ hai, bind_left, bind_set_left, bind_set_right, bind_balance,
    at_put_ne (room_put.mpr hr) hpi hai hne, at_put_self, at_put_ne hr hai hpi hne.symm, han, hpn]
  -- the two links are written, the balances follow
  generalize hs2 : Pool.put _ size p.id _ = s2
  have ho2 : Only size s s2 [a.id, p.id] := by
    rw [← hs2]
    exact only_puts hr [(a.id, _), (p.id, _)] (by simp [hai, hpi])
  have hp2 : s2.at size p.id = p.node (rootOf u) (rootOf l) bp := by
    rw [← hs2]
    exact at_put_self
  have ha2 : s2.at size a.id = a.node p.id (rootOf r) bl := by
    rw [← hs2, at_put_ne (room_put.mpr hr) hpi hai hne]
    exact at_put_self
  have hroot2 : s2.root = s.root := by rw [← hs2]; rfl
  have hbal : ∀ x y : Int, ∃ s1, (do
        ((fields size).balance (p.id - 1)).write x
        ((fields size).balance (a.id - 1)).write y) s2 = .ok ((), s1) ∧
      Turned size s s1 (.node u p bp (.node l a bl r)) (.node (.node u p x l) a y r) := by
    intro x y
    obtain ⟨s1, hrun, ho, hroot, hp1, ha1⟩ := balances_run (ho2.room hr) (ho2.inPool.mpr hpi)
      (ho2.inPool.mpr hai) hne x y
    rw [hp2] at hp1
    rw [ha2] at ha1
    refine ⟨s1, hrun, inside_single_left h ((ho2.trans ho).mono ?_) (hroot.trans hroot2) ha1 hp1⟩
    simp
  by_cases hb : bl = 0
  · rw [node_balance, if_pos hb, if_pos hb, if_pos hb]
    exact hbal _ _
  · rw [node_balance, if_neg hb, if_neg hb, if_neg hb]
    exact hbal _ _

/-! ## Double rotations -/

/-- Three balances written. -/
theorem balances_run_three {i j k : Nat} (hr : Room size s) (hi : InPool s i) (hj : InPool s j)
    (hk : InPool s k) (hij : j ≠ i) (hik : k ≠ i) (hjk : k ≠ j) (x y z : Int) : ∃ s', (do
        ((fields size).balance (i - 1)).write x
        ((fields size).balance (j - 1)).write y
        ((fields size).balance (k - 1)).write z) s = .ok ((), s') ∧
      Only size s s' [i, j, k] ∧ s'.root = s.root ∧ s'.at size i = { s.at size i with balance := x } ∧
      s'.at size j = { s.at size j with balance := y } ∧
      s'.at size k = { s.at size k with balance := z } := by
  rw [bind_set_balance]
  have ho := only_put (n := { s.at size i with balance := x }) hr hi
  obtain ⟨s', hrun, ho', hroot, hj', hk'⟩ := balances_run (s := s.put size i { s.at size i with balance := x })
    (room_put.mpr hr) hj hk hjk y z
  refine ⟨s', hrun, ho.trans ho', hroot, ?_, ?_, ?_⟩
  · rw [ho'.nodes i hi (by simp [hij.symm, hik.symm]), at_put_self]
  · rw [hj', at_put_ne hr hi hj hij]
  · rw [hk', at_put_ne hr hi hk hik]

theorem inside_ids_lr (h : Inside size s (.node (.node l a bl (.node m x bx n)) p bp u)) :
    InPool s p.id ∧ InPool s a.id ∧ InPool s x.id ∧ a.id ≠ p.id ∧ x.id ≠ p.id ∧ x.id ≠ a.id := by
  have hnd := h.nodup
  simp only [ids_node, List.append_assoc, List.cons_append, List.nodup_append, List.nodup_cons,
    List.mem_append, List.mem_cons] at hnd
  exact ⟨h.inPool _ (by simp), h.inPool _ (by simp), h.inPool _ (by simp), by grind, by grind, by grind⟩

theorem inside_lr (h : Inside size s (.node (.node l a bl (.node m x bx n)) p bp u)) {s1 : Pool K V}
    {b1 b2 b3 : Int} (ho : Only size s s1 [p.id, a.id, x.id]) (hroot : s1.root = s.root)
    (hx : s1.at size x.id = x.node a.id p.id b1) (ha : s1.at size a.id = a.node (rootOf l) (rootOf m) b2)
    (hp : s1.at size p.id = p.node (rootOf n) (rootOf u) b3) :
    Turned size s s1 (.node (.node l a bl (.node m x bx n)) p bp u)
      (.node (.node l a b2 m) x b1 (.node n p b3 u)) := by
  obtain ⟨-, ⟨-, hl, -, hm, hn⟩, hu⟩ := h.tree
  have hin := h.inPool
  have hnd := h.nodup
  simp only [ids_node, List.append_assoc, List.cons_append, List.nodup_append, List.nodup_cons,
    List.mem_append, List.mem_cons] at hin hnd
  refine ⟨ho.mono ?_, hroot, ⟨hx, ⟨ha, hl.only ho ?_ ?_, hm.only ho ?_ ?_⟩, hp, hn.only ho ?_ ?_,
    hu.only ho ?_ ?_⟩, ?_⟩
  · simp
  all_goals first | grind | simp

theorem rotLeftRight_run (h : Inside size s (.node (.node l a bl (.node m x bx n)) p bp u)) :
    ∃ s1, Rust.rotLeftRight (fields size) p.id a.id x.id s = .ok ((), s1) ∧
      Turned size s s1 (.node (.node l a bl (.node m x bx n)) p bp u)
        (.node (.node l a (if 0 < bx then -1 else 0) m) x 0
          (.node n p (if bx < 0 then 1 else 0) u)) := by
  have hr := h.room
  obtain ⟨hpn, ⟨han, -, hxn, -, -⟩, -⟩ := h.tree
  obtain ⟨hpi, hai, hxi, hap, hxp, hxa⟩ := inside_ids_lr h
  unfold Rust.rotLeftRight rotLeftRightWith
  rw [bind_node _ hpi, bind_node _ hai, bind_node _ hxi, bind_left, bind_right, bind_set_left,
    bind_set_right, bind_set_left, bind_set_right, bind_balance]
  -- the links are written, the balances follow
  generalize hs2 : Pool.put (Pool.put _ size x.id _) size x.id _ = s2
  have ho2 : Only size s s2 [p.id, a.id, x.id, x.id] := by
    rw [← hs2]
    exact only_puts hr [(p.id, _), (a.id, _), (x.id, _), (x.id, _)] (by simp [hai, hpi, hxi])
  have hx2 : s2.at size x.id = x.node a.id p.id bx := by
    rw [← hs2]
    simp [at_put_ne, hr, hai, hpi, hxi, hxp, hxa, hxn]
    rfl
  have ha2 : s2.at size a.id = a.node (rootOf l) (rootOf m) bl := by
    rw [← hs2]
    simp [at_put_ne, hr, hai, hpi, hxi, hap, hxa.symm, han, hxn]
    rfl
  have hp2 : s2.at size p.id = p.node (rootOf n) (rootOf u) bp := by
    rw [← hs2]
    simp [at_put_ne, hr, hai, hpi, hxi, hap.symm, hxp.symm, hpn, hxn]
    rfl
  have hbal : ∀ y z : Int, ∃ s1, (do
        ((fields size).balance (a.id - 1)).write y
        ((fields size).balance (p.id - 1)).write z
        ((fields size).balance (x.id - 1)).write 0) s2 = .ok ((), s1) ∧
      Turned size s s1 (.node (.node l a bl (.node m x bx n)) p bp u)
        (.node (.node l a y m) x 0 (.node n p z u)) := by
    intro y z
    obtain ⟨s1, hrun, ho, hroot, ha1, hp1, hx1⟩ := balances_run_three (ho2.room hr)
      (ho2.inPool.mpr hai) (ho2.inPool.mpr hpi) (ho2.inPool.mpr hxi) hap.symm hxa hxp y z 0
    rw [ha2] at ha1
    rw [hp2] at hp1
    rw [hx2] at hx1
    refine ⟨s1, hrun, inside_lr h ((ho2.trans ho).mono ?_) ?_ hx1 ha1 hp1⟩
    · simp
    · rw [hroot, ← hs2]
      rfl
  rw [hx2, node_balance]
  by_cases h0 : bx = 0
  · rw [if_pos h0, if_neg (by omega), if_neg (by omega)]
    exact hbal _ _
  · rw [if_neg h0]
    by_cases hpos : bx > 0
    · rw [if_pos hpos, if_pos hpos, if_neg (by omega)]
      exact hbal _ _
    · rw [if_neg hpos, if_neg hpos, if_pos (by omega)]
      exact hbal _ _

theorem inside_ids_rl (h : Inside size s (.node u p bp (.node (.node m x bx n) a bl r))) :
    InPool s p.id ∧ InPool s a.id ∧ InPool s x.id ∧ a.id ≠ p.id ∧ x.id ≠ p.id ∧ x.id ≠ a.id := by
  have hnd := h.nodup
  simp only [ids_node, List.append_assoc, List.cons_append, List.nodup_append, List.nodup_cons,
    List.mem_append, List.mem_cons] at hnd
  exact ⟨h.inPool _ (by simp), h.inPool _ (by simp), h.inPool _ (by simp), by grind, by grind, by grind⟩

theorem inside_rl (h : Inside size s (.node u p bp (.node (.node m x bx n) a bl r))) {s1 : Pool K V}
    {b1 b2 b3 : Int} (ho : Only size s s1 [p.id, a.id, x.id]) (hroot : s1.root = s.root)
    (hx : s1.at size x.id = x.node p.id a.id b1) (ha : s1.at size a.id = a.node (rootOf n) (rootOf r) b2)
    (hp : s1.at size p.id = p.node (rootOf u) (rootOf m) b3) :
    Turned size s s1 (.node u p bp (.node (.node m x bx n) a bl r))
      (.node (.node u p b3 m) x b1 (.node n a b2 r)) := by
  obtain ⟨-, hu, -, ⟨-, hm, hn⟩, hr⟩ := h.tree
  have hin := h.inPool
  have hnd := h.nodup
  simp only [ids_node, List.append_assoc, List.cons_append, List.nodup_append, List.nodup_cons,
    List.mem_append, List.mem_cons] at hin hnd
  refine ⟨ho.mono ?_, hroot, ⟨hx, ⟨hp, hu.only ho ?_ ?_, hm.only ho ?_ ?_⟩, ha, hn.only ho ?_ ?_,
    hr.only ho ?_ ?_⟩, ?_⟩
  · simp
  all_goals first | grind | simp

theorem rotRightLeft_run (h : Inside size s (.node u p bp (.node (.node m x bx n) a bl r))) :
    ∃ s1, Rust.rotRightLeft (fields size) p.id a.id x.id s = .ok ((), s1) ∧
      Turned size s s1 (.node u p bp (.node (.node m x bx n) a bl r))
        (.node (.node u p (if 0 < bx then -1 else 0) m) x 0
          (.node n a (if bx < 0 then 1 else 0) r)) := by
  have hr := h.room
  obtain ⟨hpn, -, han, ⟨hxn, -, -⟩, -⟩ := h.tree
  obtain ⟨hpi, hai, hxi, hap, hxp, hxa⟩ := inside_ids_rl h
  unfold Rust.rotRightLeft rotRightLeftWith
  rw [bind_node _ hpi, bind_node _ hai, bind_node _ hxi, bind_left, bind_right, bind_set_right,
    bind_set_left, bind_set_left, bind_set_right, bind_balance]
  -- the links are written, the balances follow
  generalize hs2 : Pool.put (Pool.put _ size x.id _) size x.id _ = s2
  have ho2 : Only size s s2 [p.id, a.id, x.id, x.id] := by
    rw [← hs2]
    exact only_puts hr [(p.id, _), (a.id, _), (x.id, _), (x.id, _)] (by simp [hai, hpi, hxi])
  have hx2 : s2.at size x.id = x.node p.id a.id bx := by
    rw [← hs2]
    simp [at_put_ne, hr, hai, hpi, hxi, hxp, hxa, hxn]
    rfl
  have ha2 : s2.at size a.id = a.node (rootOf n) (rootOf r) bl := by
    rw [← hs2]
    simp [at_put_ne, hr, hai, hpi, hxi, hap, hxa.symm, han, hxn]
    rfl
  have hp2 : s2.at size p.id = p.node (rootOf u) (rootOf m) bp := by
    rw [← hs2]
    simp [at_put_ne, hr, hai, hpi, hxi, hap.symm, hxp.symm, hpn, hxn]
    rfl
  have hroot2 : s2.root = s.root := by rw [← hs2]; rfl
  rw [hx2, node_balance]
  by_cases h0 : bx = 0
  · rw [if_pos h0, if_neg (by omega), if_neg (by omega)]
    obtain ⟨s1, hrun, ho, hroot, ha1, hp1, hx1⟩ := balances_run_three (ho2.room hr)
      (ho2.inPool.mpr hai) (ho2.inPool.mpr hpi) (ho2.inPool.mpr hxi) hap.symm hxa hxp 0 0 0
    rw [ha2] at ha1
    rw [hp2] at hp1
    rw [hx2] at hx1
    exact ⟨s1, hrun, inside_rl h ((ho2.trans ho).mono (by simp)) (hroot.trans hroot2) hx1 ha1 hp1⟩
  · rw [if_neg h0]
    have hbal : ∀ y z : Int, ∃ s1, (do
          ((fields size).balance (p.id - 1)).write z
          ((fields size).balance (a.id - 1)).write y
          ((fields size).balance (x.id - 1)).write 0) s2 = .ok ((), s1) ∧
        Turned size s s1 (.node u p bp (.node (.node m x bx n) a bl r))
          (.node (.node u p z m) x 0 (.node n a y r)) := by
      intro y z
      obtain ⟨s1, hrun, ho, hroot, hp1, ha1, hx1⟩ := balances_run_three (ho2.room hr)
        (ho2.inPool.mpr hpi) (ho2.inPool.mpr hai) (ho2.inPool.mpr hxi) hap hxp hxa z y 0
      rw [ha2] at ha1
      rw [hp2] at hp1
      rw [hx2] at hx1
      exact ⟨s1, hrun, inside_rl h ((ho2.trans ho).mono (by simp)) (hroot.trans hroot2) hx1 ha1 hp1⟩
    by_cases hpos : bx > 0
    · rw [if_pos hpos, if_pos hpos, if_neg (by omega)]
      exact hbal _ _
    · rw [if_neg hpos, if_neg hpos, if_pos (by omega)]
      exact hbal _ _

end GenVM.Storage.AvlMap
