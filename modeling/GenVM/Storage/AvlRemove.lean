import GenVM.Storage.AvlInsert

/-!
# Removing

A node with a missing child gives way to the other one, a node with both to its
successor (executor/crates/sdk-rs/src/storage/tree_map.rs:317-463).
-/
namespace GenVM.Storage.AvlMap

open Agree (Prog)
open GenVM.Lib.Consume (run_bind)
open GenVM.Lib GenVM.Lib.Avl TreeMap

variable {K V : Type} {size : Nat} {s : Pool K V} {c up : ACtx K V} {t l r : ATree K V}
  {a e : Entry K V} {b : Int}

/-! ## Paths -/

theorem path_append (c up : ACtx K V) (x : Nat) :
    path (c ++ up) x = (up.map fun f => f.a.id).reverse ++ path c x := by
  rw [path, path, List.map_append, List.reverse_append, List.append_assoc]

theorem path_under (c up : ACtx K V) (f : Frame (Entry K V)) (x : Nat) :
    path (c ++ f :: up) x = path up f.a.id ++ path c x := by
  rw [path_append, List.map_cons, List.reverse_cons, path, path]

theorem set_path (c : ACtx K V) (x y : Nat) : (path c x).set c.length y = path c y := by
  have hlen : (c.map fun f => f.a.id).reverse.length = c.length := by simp
  rw [path, List.set_append_right _ _ (by omega), hlen, Nat.sub_self, path]
  rfl

theorem set_path_append (c : ACtx K V) (x y : Nat) (rest : List Nat) :
    (path c x ++ rest).set c.length y = path c y ++ rest := by
  rw [List.set_append_left _ _ (by simp), set_path]

theorem top_append (seq : List Nat) (c : ACtx K V) (x : Nat) : top (seq ++ path c x) = x := by
  rw [top, path, ← List.append_assoc, List.getLastD_eq_getLast?, List.getLast?_concat]
  rfl

/-! ## The successor -/

theorem leftmost_run (fuel : Nat) (pre : List Nat) : ∀ {l : ATree K V} {a : Entry K V} {b : Int} {r : ATree K V},
    Stored s size (.node l a b r) → (∀ i ∈ ids (.node l a b r), InPool s i) → l.height < fuel →
    ∃ (c : ACtx K V) (e : Entry K V) (be : Int) (re : ATree K V), .node l a b r = plug c (.node .nil e be re) ∧
      (∀ f ∈ c, f.left = true) ∧
      leftmostWith (fields size) (Rust.node (fields size)) fuel (pre ++ [a.id]) s =
        .ok (pre ++ path c e.id, s) := by
  induction fuel generalizing pre with
  | zero => exact fun _ _ h => absurd h (Nat.not_lt_zero _)
  | succ fuel ih =>
    intro l a b r hs hp hf
    have hai : InPool s a.id := hp a.id (by simp)
    have htop : top (pre ++ [a.id]) = a.id := by
      rw [top, List.getLastD_eq_getLast?, List.getLast?_concat]
      rfl
    rw [leftmostWith, htop, bind_node _ hai, bind_left, hs.1, node_left]
    cases l with
    | nil =>
      refine ⟨[], a, b, r, rfl, by simp, ?_⟩
      have h0 : rootOf (.nil : ATree K V) = 0 := rfl
      rw [if_neg (not_not.mpr h0)]
      rfl
    | node l' a' b' r' =>
      have hsub : ∀ i ∈ ids (.node l' a' b' r'), InPool s i := fun i hi => hp i (by
        rw [ids_node]
        exact List.mem_append_left _ hi)
      rw [AvlTree.height_node] at hf
      obtain ⟨c, e, be, re, he, hl, hrun⟩ := ih (pre ++ [a.id]) hs.2.1 hsub (by omega)
      refine ⟨c ++ [⟨a, b, r, true⟩], e, be, re, ?_, fun f hf => ?_, ?_⟩
      · rw [plug_append, ← he]
        rfl
      · rcases List.mem_append.mp hf with hf | hf
        · exact hl f hf
        · rw [List.mem_singleton.mp hf]
      · rw [rootOf_node, if_pos (Nat.pos_iff_ne_zero.mp (hsub a'.id (by simp)).1), hrun, path_under,
          List.append_assoc]
        rfl

/-- All that is above the first node is behind it. -/
theorem before_left (h : ∀ f ∈ c, f.left = true) : before c = [] := by
  induction c with
  | nil => rfl
  | cons f up ih =>
    rw [before_cons, ih fun g hg => h g (List.mem_cons_of_mem _ hg), if_pos (h f List.mem_cons_self)]
    rfl

theorem stored_root (x : Nat) : Stored { s with root := x } size t ↔ Stored s size t := by
  induction t with
  | nil => exact Iff.rfl
  | node l a b r ihl ihr => exact and_congr Iff.rfl (and_congr ihl ihr)

/-- A tree of its own, its root that of the map. -/
theorem Inside.alone (h : Inside size s t) : At size { s with root := rootOf t } [] t :=
  ⟨(stored_root _).mpr h.tree, rfl, h.nodup, h.inPool, ⟨h.room.pos, h.room.fits⟩⟩

theorem Inside.sub (h : Inside size s (.node l a b r)) : Inside size s l ∧ Inside size s r := by
  have hin := h.inPool
  have hnd := h.nodup
  simp only [ids_node, List.nodup_append, List.nodup_cons, List.mem_append, List.mem_cons] at hin hnd
  refine ⟨⟨h.tree.2.1, hnd.1, fun i hi => hin i (.inl hi), h.room⟩,
    ⟨h.tree.2.2, hnd.2.1.2, fun i hi => hin i (.inr (.inr hi)), h.room⟩⟩

/-- What is right of a first node hangs in its place; the first node is written
before and after. -/
theorem At.unhook {f : Frame (Entry K V)} {be : Int} {re : ATree K V} (n n' : Node K V)
    (h : At size s (f :: up) (.node .nil e be re)) :
    At size (((s.put size e.id n).put size f.a.id (frameNode f (rootOf re))).put size e.id n') (f :: up) re ∧
      Only size s (((s.put size e.id n).put size f.a.id (frameNode f (rootOf re))).put size e.id n')
        (ids (plug (f :: up) (.node .nil e be re))) := by
  have hei : InPool s e.id := h.inside.inPool e.id (by simp)
  have hsub : ∀ i, i ∈ ids (plug (f :: up) re) → i ∈ ids (plug (f :: up) (.node .nil e be re)) := by
    intro i hi
    rcases mem_ids_plug.mp hi with hi | hi
    · exact mem_ids_plug.mpr (.inl (by simp [hi]))
    · exact mem_ids_plug.mpr (.inr hi)
  have hperm : (ids (plug (f :: up) (.node .nil e be re))).Perm (e.id :: ids (plug (f :: up) re)) :=
    (ids_plug_perm _ _).trans ((ids_plug_perm (f :: up) re).symm.cons e.id)
  have hnd := List.nodup_cons.mp (hperm.nodup_iff.mp h.nodup)
  have hout : ∀ i ∈ around (f :: up), i ≠ e.id := fun i hi he =>
    hnd.1 (he ▸ mem_ids_plug.mpr (.inr hi))
  have hfre : f.a.id ∉ ids re := fun hm => (frame_apart h.nodup).2.1 (by simp [hm])
  have hinA : ∀ i ∈ around (f :: up), InPool s i := fun i hi => h.inPool i (mem_ids_plug.mpr (.inr hi))
  have ho1 := only_put (n := n) h.room hei
  have hctx1 := h.ctx.only ho1 rfl hinA fun i hi hm => hout i hi (List.mem_singleton.mp hm)
  obtain ⟨hctx2, ho2⟩ := hctx1.link (rootOf re) h.nodup h.inPool (ho1.room h.room)
  have ho3 := only_put (n := n') (i := e.id) (ho2.room (ho1.room h.room)) (ho2.inPool.mpr hei)
  have hctx3 := hctx2.only ho3 rfl hinA fun i hi hm => hout i hi (List.mem_singleton.mp hm)
  have ho := (ho1.trans ho2).trans ho3
  refine ⟨⟨?_, hctx3, hnd.2, fun i hi => h.inPool i (hsub i hi), ho.room h.room⟩, ho.mono fun i hi => ?_⟩
  · have hre : ∀ i ∈ ids re, i ≠ e.id := fun i hi he => hnd.1 (he ▸ mem_ids_plug.mpr (.inl hi))
    have hinR : ∀ i ∈ ids re, InPool s i := fun i hi => h.inside.inPool i (by simp [hi])
    have ho2' := only_put (n := frameNode f (rootOf re)) (i := f.a.id) (ho1.room h.room) h.frame.1
    have hst : Stored s size re := h.tree.2.2
    have h1 := hst.only ho1 hinR fun i hi hm => hre i hi (List.mem_singleton.mp hm)
    have h2 := h1.only ho2' hinR fun i hi hm => hfre (List.mem_singleton.mp hm ▸ hi)
    exact h2.only ho3 hinR fun i hi hm => hre i hi (List.mem_singleton.mp hm)
  · simp only [List.mem_append, List.mem_singleton] at hi
    rcases hi with (rfl | hi) | rfl
    · exact mem_ids_plug.mpr (.inl (by simp))
    · exact mem_ids_plug.mpr (.inr hi)
    · exact mem_ids_plug.mpr (.inl (by simp))

/-- The successor takes over the left child, and the right one unless it is it:
what was to its right hangs from its parent. -/
theorem splice_both (fuel x : Nat) (hi : Inside size s r) (hl : Inside size s l) (hlr : ∀ i ∈ ids l, i ∉ ids r)
    (hnl : l ≠ .nil) (hnr : r ≠ .nil) (hf : r.height ≤ fuel) :
    ∃ (cL : ACtx K V) (e : Entry K V) (be : Int) (re : ATree K V) (s' : Pool K V),
      r = plug cL (.node .nil e be re) ∧ (∀ f ∈ cL, f.left = true) ∧
      Rust.splice (fields size) fuel (path c x) (rootOf l) (rootOf r) s =
        .ok ((path (cL ++ ⟨e, b, l, false⟩ :: c) (rootOf re), false), s') ∧
      Only size s s' (ids r) ∧ s'.root = s.root ∧ Stored s' size (.node l e be (plug cL re)) := by
  obtain ⟨lr, ar, br, rr, rfl⟩ : ∃ l a b r', r = .node l a b r' := by
    cases r with
    | nil => exact absurd rfl hnr
    | node l a b r => exact ⟨l, a, b, r, rfl⟩
  rw [AvlTree.height_node] at hf
  obtain ⟨cL, e, be, re, he, hleft, hrun⟩ :=
    leftmost_run fuel (path c x) hi.tree hi.inPool (by omega)
  have hl0 : rootOf l ≠ 0 := Nat.pos_iff_ne_zero.mp (hl.inPool _ (rootOf_mem hnl)).1
  have hr0 : rootOf (.node lr ar br rr) ≠ 0 := Nat.pos_iff_ne_zero.mp (hi.inPool _ (rootOf_mem hnr)).1
  have hroot : rootOf (plug cL (.node .nil e be re)) = ar.id := congrArg rootOf he.symm
  rw [he] at hi hlr hr0 ⊢
  have hat : At size { s with root := rootOf (plug cL (.node .nil e be re)) } cL (.node .nil e be re) :=
    at_root.mpr hi.alone
  have hei : InPool s e.id := hat.inside.inPool e.id (by simp)
  have hen : s.at size e.id = e.node 0 (rootOf re) be := hat.tree.1
  have hpath : ∀ y, path (cL ++ ⟨e, b, l, false⟩ :: c) y = path c e.id ++ path cL y :=
    path_under cL c ⟨e, b, l, false⟩
  have hlen : (path (cL ++ ⟨e, b, l, false⟩ :: c) e.id).length = cL.length + c.length + 2 := by
    rw [length_path, List.length_append, List.length_cons]
    omega
  have hset : (path (cL ++ ⟨e, b, l, false⟩ :: c) e.id).set (cL.length + c.length + 2 - 1) (rootOf re) =
      path (cL ++ ⟨e, b, l, false⟩ :: c) (rootOf re) := by
    rw [← set_path _ e.id (rootOf re), List.length_append, List.length_cons]
    rfl
  unfold Rust.splice spliceWith
  simp only [length_path, Nat.add_sub_cancel]
  rw [if_neg (not_or.mpr ⟨hl0, hr0⟩), hroot, run_bind hrun]
  simp only [top_append, set_path_append, ← hpath, hlen]
  rw [bind_node _ hei, bind_set_left, hen]
  have hreB : Stored s size re := (stored_root _).mp hat.tree.2.2
  have hnd := hat.inside.nodup
  have hpool := hat.inside.inPool
  simp only [ids_node, ids_nil, List.nil_append, List.nodup_cons, List.mem_cons] at hnd hpool
  have ho1 := only_put (n := e.node (rootOf l) (rootOf re) be) hi.room hei
  have hlS : ∀ {s' : Pool K V}, Only size s s' (ids (plug cL (.node .nil e be re))) → Stored s' size l :=
    fun ho => hl.tree.only ho hl.inPool hlr
  cases cL with
  | nil =>
    refine ⟨[], e, be, re, s.put size e.id (e.node (rootOf l) (rootOf re) be), rfl, hleft, ?_,
      ho1.mono (by simp), rfl, at_put_self, hlS (ho1.mono (by simp)), ?_⟩
    · rw [if_neg (by simp), bind_right, at_put_self, node_right, hset]
      rfl
    · refine hreB.only ho1 (fun i hi => hpool i (.inr hi)) fun i hi hm => ?_
      exact hnd.1 (List.mem_singleton.mp hm ▸ hi)
  | cons f up =>
    -- seen from its own root, the right subtree loses its first node
    have hfi : InPool s f.a.id := hat.frame.1
    have hfe : f.a.id ≠ e.id := fun he => (frame_apart hat.nodup).2.1 (by simp [he])
    have hfn : ∀ x, frameNode f x = f.a.node x (rootOf f.sib) f.b := frameNode_left (hleft f (by simp))
    let s2 : Pool K V := s.put size e.id (e.node (rootOf l) (rootOf re) be)
    let s3 : Pool K V := s2.put size f.a.id (frameNode f (rootOf re))
    let s4 : Pool K V := s3.put size e.id (e.node (rootOf l) ar.id be)
    have hr2 : Room size s2 := ho1.room hi.room
    have hr3 : Room size s3 := ⟨hr2.pos, hr2.fits⟩
    have he2 : s2.at size e.id = e.node (rootOf l) (rootOf re) be := at_put_self
    have hf2 : s2.at size f.a.id = frameNode f e.id := (at_put_ne hi.room hei hfi hfe).trans hat.frame.2
    have he3 : s3.at size e.id = e.node (rootOf l) (rootOf re) be :=
      (at_put_ne hr2 hfi hei (Ne.symm hfe)).trans he2
    have hf3 : s3.at size f.a.id = frameNode f (rootOf re) := at_put_self
    have hf4 : s4.at size f.a.id = frameNode f (rootOf re) := (at_put_ne hr3 hei hfi hfe).trans hf3
    have hwrite : { frameNode f e.id with left := rootOf re } = frameNode f (rootOf re) := by
      rw [hfn, hfn]
      rfl
    obtain ⟨hat4, ho4⟩ := hat.unhook (e.node (rootOf l) (rootOf re) be) (e.node (rootOf l) ar.id be)
    have ho : Only size s s4 (ids (plug (f :: up) (.node .nil e be re))) :=
      ⟨ho4.slotsLen, ho4.freeLen, ho4.free, ho4.nodes⟩
    have htop : ar.id = rootOf (plug (f :: up) re) := hroot.symm.trans (at_root.mp hat4).ctx
    refine ⟨f :: up, e, be, re, s4, rfl, hleft, ?_, ho, rfl, ?_, hlS ho, ?_⟩
    · have hpos : List.length c + 2 ≠ (f :: up).length + List.length c + 2 := by simp
      rw [if_pos hpos, List.cons_append, second_path]
      refine (bind_node (s := s2) _ hfi).trans ?_
      rw [bind_right, he2, node_right, bind_set_left, hf2, hwrite]
      refine (bind_set_right (s := s3) ar.id _).trans ?_
      rw [he3]
      refine (bind_left (s := s4) _).trans ?_
      rw [hf4, hfn, node_left, ← List.cons_append, hset]
      rfl
    · rw [at_put_self, htop]
    · exact (stored_root _).mp (at_root.mp hat4).tree

/-! ## The place of the removed node -/

theorem getD_above (f : Frame (Entry K V)) (up : ACtx K V) (x : Nat) (rest : List Nat) :
    (path (f :: up) x ++ rest).getD up.length 0 = f.a.id := by
  rw [List.getD_append _ _ _ _ (by simp), getD_path]

theorem getD_hole (c : ACtx K V) (x : Nat) (rest : List Nat) :
    (path c x ++ rest).getD c.length 0 = x := by
  rw [List.getD_append _ _ _ _ (by simp), path, List.getD_append_right _ _ _ _ (by simp)]
  simp

/-- Another tree hangs from the hole. -/
theorem linkMoved_run {x : Nat} (rest : List Nat) (h : Around s size c x) (ht : Stored s size t)
    (hn : (ids (plug c t)).Nodup) (hp : ∀ i ∈ ids (plug c t), InPool s i) (hr : Room size s) :
    ∃ s', Rust.linkMoved (fields size) (path c (rootOf t) ++ rest) c.length (side c) s =
      .ok ((), s') ∧ At size s' c t ∧ Only size s s' (around c) := by
  cases c with
  | nil =>
    refine ⟨{ s with root := rootOf t }, rfl, ⟨(stored_root _).mpr ht, rfl, hn, hp, hr.pos, hr.fits⟩, ?_⟩
    exact ⟨rfl, rfl, rfl, fun _ _ _ => rfl⟩
  | cons f up =>
    have hin : InPool s f.a.id := hp _ (mem_ids_plug.mpr (.inr (mem_around_cons.mpr (.inl rfl))))
    have hrun := setChild_run (rootOf t) hin h.1
    obtain ⟨hctx, ho⟩ := h.link (rootOf t) hn hp hr
    refine ⟨_, ?_, ⟨?_, hctx, hn, fun i hi => ho.inPool.mpr (hp i hi), ho.room hr⟩, ho⟩
    · unfold Rust.linkMoved linkMovedWith
      rw [if_pos (by simp), List.length_cons, Nat.add_sub_cancel, getD_above, ← List.length_cons (a := f), getD_hole]
      exact hrun
    · exact ht.only ho (fun i hi => hp i (mem_ids_plug.mpr (.inl hi))) fun i hi => disjoint_around hn hi

theorem patchBalance_run (h : At size s c (.node l a b r)) (special : Bool) (x : Int) :
    ∃ s', Rust.patchBalance (fields size) a.id special x s = .ok ((), s') ∧
      At size s' c (.node l a (if special then 0 else x) r) ∧ Only size s s' [a.id] := by
  have hin : InPool s a.id := h.inside.inPool _ (by simp)
  have han : s.at size a.id = a.node (rootOf l) (rootOf r) b := h.tree.1
  obtain ⟨hat, ho⟩ := h.put (x := a) rfl (if special then 0 else x)
  refine ⟨_, ?_, hat, ho⟩
  unfold Rust.patchBalance patchBalanceWith
  rw [if_pos (Nat.pos_iff_ne_zero.mp hin.1), bind_node _ hin, set_balance, han]
  rfl

theorem finish_run [LinearOrder K] {live : List Nat} {special : Option Bool} (h : At size s c t)
    (hs : Shrunk c t) (hside : SideKnown special c t) (harena : Arena s live)
    (hperm : (ids (plug c t)).Perm live) (hord : Ordered (plug c t)) :
    ∃ s' t', (do
        let seq ← Rust.removeRebalance (fields size) (path c (rootOf t)).length (path c (rootOf t)) special
        fixRoot (fields size) seq
        pure true : M (Pool K V) Bool) s = .ok (true, s') ∧
      Holds size s' t' ∧ t'.toList = (plug c t).toList := by
  obtain ⟨c', t', s', hrun, hset⟩ :=
    removeRebalance_run (path c (rootOf t)).length h hs hside (by rw [length_path]; omega)
  refine ⟨s', plug c' t', ?_, ⟨at_root.mp hset.stored, hset.balanced, ?_, ?_⟩, hset.list⟩
  · rw [run_bind hrun, run_bind (fixRoot_run hset.stored)]
    rfl
  · unfold Ordered at hord ⊢
    rw [hset.list]
    exact hord
  · refine (harena.only hset.only).perm (List.Perm.trans (List.Perm.of_eq ?_) hperm)
    rw [ids, ids, hset.list]

/-! ## Removal -/

section
variable [LinearOrder K] {k : K}

/-- What a removal leaves behind. -/
structure Removed (size : Nat) (k : K) (t : ATree K V) (s' : Pool K V) (t' : ATree K V) : Prop where
  holds : Holds size s' t'
  entries : entries t' = SortedMap.erase k (entries t)

/-- The other entries are in order, and are what is left of the map. -/
theorem erase_node (hs : Ordered (plug c (.node l a b r))) {u : ATree K V}
    (hu : u.toList = before c ++ (l.toList ++ r.toList) ++ after c) :
    Ordered u ∧ entries u = SortedMap.erase a.key (entries (plug c (.node l a b r))) := by
  have hlist : (plug c (.node l a b r)).toList = (before c ++ l.toList) ++ a :: (r.toList ++ after c) := by
    rw [toList_plug, AvlTree.toList_node]
    simp
  have hu' : u.toList = (before c ++ l.toList) ++ (r.toList ++ after c) := by
    rw [hu]
    simp
  unfold Ordered at hs ⊢
  rw [hlist] at hs
  obtain ⟨h1, h2, h3⟩ := List.pairwise_append.mp hs
  obtain ⟨h4, h5⟩ := List.pairwise_cons.mp h2
  constructor
  · rw [hu']
    exact List.pairwise_append.mpr ⟨h1, h5, fun x hx y hy => h3 x hx y (List.mem_cons_of_mem _ hy)⟩
  · have hxs : ∀ x ∈ (before c ++ l.toList).map fun e => (e.key, e.value), x.1 ≠ a.key := by
      intro x hx
      obtain ⟨e, he, rfl⟩ := List.mem_map.mp hx
      exact (h3 e he a List.mem_cons_self).ne
    have hys : ∀ x ∈ (r.toList ++ after c).map fun e => (e.key, e.value), x.1 ≠ a.key := by
      intro x hx
      obtain ⟨e, he, rfl⟩ := List.mem_map.mp hx
      exact (h4 e he).ne'
    have hall : entries (plug c (.node l a b r)) = (before c ++ l.toList).map (fun e => (e.key, e.value)) ++
        (a.key, a.value) :: (r.toList ++ after c).map fun e => (e.key, e.value) := by
      rw [entries, hlist, List.map_append, List.map_cons]
    rw [hall, SortedMap.erase_mid hxs hys, entries, hu', List.map_append]

/-- The slots in use once a node is gone. -/
def others (c : ACtx K V) (l r : ATree K V) : List Nat := (ids l ++ ids r) ++ around c

omit [LinearOrder K] in
theorem others_perm : (a.id :: others c l r).Perm (ids (plug c (.node l a b r))) := by
  refine List.Perm.trans ?_ (ids_plug_perm _ _).symm
  rw [ids_node, others]
  exact (List.perm_middle.symm).append_right (around c)

omit [LinearOrder K] in
theorem ids_others {u : ATree K V} (hu : u.toList = before c ++ (l.toList ++ r.toList) ++ after c) :
    (ids u).Perm (others c l r) := by
  have h1 : ids u = (before c).map Entry.id ++ (ids l ++ ids r) ++ (after c).map Entry.id := by
    rw [ids, hu, List.map_append, List.map_append, List.map_append]
    rfl
  rw [h1, others, around, ← List.append_assoc (ids l ++ ids r)]
  exact List.perm_append_comm.append_right _

/-- The rest of `remove`, once the slot is free. -/
def afterFree (fuel size : Nat) (c : ACtx K V) (l r : ATree K V) (b : Int) (x : Nat) : M (Pool K V) Bool := do
  let (seq, specialNull) ← Rust.splice (fields size) fuel (path c x) (rootOf l) (rootOf r)
  Rust.linkMoved (fields size) seq c.length (side c)
  Rust.patchBalance (fields size) (seq.getD c.length 0) specialNull b
  let seq ← Rust.removeRebalance (fields size) seq.length seq (if specialNull then some (side c) else none)
  fixRoot (fields size) seq
  pure true

/-- One child moves up; it is a leaf or nothing. -/
theorem remove_lift {fuel x : Nat} {u : ATree K V} (hu : u.toList = l.toList ++ r.toList) (hub : u.Balanced)
    (hfits : Suits c (u.height + 1)) (hleaf : ∀ l₁ a₁ b₁ r₁, u = .node l₁ a₁ b₁ r₁ → b₁ = 0)
    (hs : Ordered (plug c (.node l a b r))) (hctx : Around s size c a.id) (hst : Stored s size u)
    (harena : Arena s (others c l r)) (hroom : Room size s)
    (hsplice : Rust.splice (fields size) fuel (path c x) (rootOf l) (rootOf r) s =
      .ok ((path c (rootOf u), true), s)) :
    ∃ s' t', afterFree fuel size c l r b x s = .ok (true, s') ∧
      Removed size a.key (plug c (.node l a b r)) s' t' := by
  have hlist : (plug c u).toList = before c ++ (l.toList ++ r.toList) ++ after c := by
    rw [toList_plug, hu]
  have hperm := ids_others hlist
  obtain ⟨hord, hent⟩ := erase_node hs hlist
  obtain ⟨s1, hlink, hat1, ho1⟩ := linkMoved_run [] hctx hst (hperm.nodup_iff.mpr harena.nodup)
    (fun i hi => harena.inPool (hperm.mem_iff.mp hi)) hroom
  obtain ⟨s2, hpatch, hat2, ho2⟩ : ∃ s2, Rust.patchBalance (fields size) (rootOf u)
      true b s1 = .ok ((), s2) ∧ At size s2 c u ∧ Only size s1 s2 (ids u) := by
    cases u with
    | nil => exact ⟨s1, rfl, hat1, .refl s1⟩
    | node l₁ a₁ b₁ r₁ =>
      obtain rfl := hleaf l₁ a₁ b₁ r₁ rfl
      obtain ⟨s2, hpatch, hat2, ho2⟩ := patchBalance_run hat1 true b
      exact ⟨s2, hpatch, hat2, ho2.mono (by simp)⟩
  have hside : SideKnown (some (side c)) c u := by
    rintro f up rfl
    rfl
  obtain ⟨s', t', hfin, hholds, htl⟩ :=
    finish_run hat2 ⟨hub, hfits⟩ hside ((harena.only ho1).only ho2) hperm hord
  refine ⟨s', t', ?_, hholds, ?_⟩
  · have hget := getD_hole c (rootOf u) []
    rw [List.append_nil] at hlink hget
    unfold afterFree
    rw [run_bind hsplice]
    simp only [hget]
    rw [run_bind hlink, run_bind hpatch]
    exact hfin
  · rw [← hent, entries, entries, htl]

/-- A missing child: the other one moves up. -/
theorem remove_single (fuel x : Nat) (hb : (plug c (.node l a b r)).Balanced)
    (hs : Ordered (plug c (.node l a b r))) (hctx : Around s size c a.id) (hl : Stored s size l)
    (hr : Stored s size r) (harena : Arena s (others c l r)) (hroom : Room size s) (hnil : l = .nil ∨ r = .nil) :
    ∃ s' t', afterFree fuel size c l r b x s = .ok (true, s') ∧
      Removed size a.key (plug c (.node l a b r)) s' t' := by
  obtain ⟨⟨hlb, hrb, hbal, h1, h2⟩, hfits⟩ := balanced_plug.mp hb
  rw [AvlTree.height_node] at hfits
  have h0 : rootOf (.nil : ATree K V) = 0 := rfl
  have hlow : ∀ {u : ATree K V}, u.Balanced → u.height ≤ 1 → ∀ l₁ a₁ b₁ r₁, u = .node l₁ a₁ b₁ r₁ → b₁ = 0 := by
    intro u hub hh l₁ a₁ b₁ r₁ hu
    subst hu
    obtain ⟨-, -, hb₁, -, -⟩ := hub
    rw [AvlTree.height_node] at hh
    omega
  rcases hnil with rfl | rfl
  · rw [AvlTree.height_nil] at hbal hfits
    refine remove_lift rfl hrb ?_ (hlow hrb (by omega)) hs hctx hr harena hroom ?_
    · rwa [Nat.zero_max] at hfits
    · unfold Rust.splice spliceWith
      simp only [length_path, Nat.add_sub_cancel, set_path, h0, true_or, if_true]
      rfl
  · rw [AvlTree.height_nil] at hbal hfits
    refine remove_lift (List.append_nil _).symm hlb ?_ (hlow hlb (by omega)) hs hctx hl harena hroom ?_
    · rwa [Nat.max_zero] at hfits
    · unfold Rust.splice spliceWith
      simp only [length_path, Nat.add_sub_cancel, set_path, h0, or_true, if_true]
      split
      · next hz => rw [hz]; rfl
      · rfl

omit [LinearOrder K] in
/-- Next to nothing, the side shows in the links: below the successor it is the
left one, and the successor has a left child. -/
theorem side_nil {cL : ACtx K V} (hleft : ∀ f ∈ cL, f.left = true) (hl : InPool s (rootOf l)) (ht : t = .nil) :
    SideKnown none (cL ++ ⟨e, b, l, false⟩ :: c) t := by
  subst ht
  have h0 : rootOf (.nil : ATree K V) = 0 := rfl
  intro f up hf
  rw [Option.getD_none, h0]
  cases cL with
  | nil =>
    obtain ⟨rfl, -⟩ := List.cons.inj hf
    rw [frameNode_right rfl, node_left]
    exact decide_eq_false (Nat.pos_iff_ne_zero.mp hl.1).symm
  | cons g cL =>
    obtain ⟨rfl, -⟩ := List.cons.inj hf
    rw [frameNode_left (hleft g List.mem_cons_self), node_left, hleft g List.mem_cons_self]
    rfl

/-- Both children: the successor moves up. -/
theorem remove_both (fuel x : Nat) (hb : (plug c (.node l a b r)).Balanced)
    (hs : Ordered (plug c (.node l a b r))) (hctx : Around s size c a.id) (hl : Stored s size l)
    (hr : Stored s size r) (harena : Arena s (others c l r)) (hroom : Room size s) (hnl : l ≠ .nil)
    (hnr : r ≠ .nil) (hf : r.height ≤ fuel) :
    ∃ s' t', afterFree fuel size c l r b x s = .ok (true, s') ∧
      Removed size a.key (plug c (.node l a b r)) s' t' := by
  have hnd := harena.nodup
  unfold others at hnd
  have hndLR := (List.nodup_append.mp hnd).1
  have hinL : Inside size s l := ⟨hl, (List.nodup_append.mp hndLR).1,
    fun i hi => harena.inPool (by simp [others, hi]), hroom⟩
  have hinR : Inside size s r := ⟨hr, (List.nodup_append.mp hndLR).2.1,
    fun i hi => harena.inPool (by simp [others, hi]), hroom⟩
  have hlr : ∀ i ∈ ids l, i ∉ ids r := fun i hi hi' => (List.nodup_append.mp hndLR).2.2 i hi i hi' rfl
  obtain ⟨cL, e, be, re, s1, rfl, hleft, hsplice, ho1, hroot1, hst1⟩ :=
    splice_both (b := b) (c := c) fuel x hinR hinL hlr hnl hnr hf
  have hbefore := before_left hleft
  -- the tree that hangs from the hole, the successor on top
  have hlist : ∀ b', (plug c (.node l e b' (plug cL re))).toList =
      before c ++ (l.toList ++ (plug cL (.node .nil e be re)).toList) ++ after c := by
    intro b'
    rw [toList_plug, AvlTree.toList_node, toList_plug, toList_plug, hbefore]
    simp
  have hperm : ∀ b', (ids (plug c (.node l e b' (plug cL re)))).Perm (others c l (plug cL (.node .nil e be re))) :=
    fun b' => ids_others (hlist b')
  have harena1 := harena.only ho1
  have hctx1 : Around s1 size c a.id := by
    refine hctx.only ho1 hroot1 (fun i hi => harena.inPool (by simp [others, hi])) fun i hi hm => ?_
    exact (List.nodup_append.mp hnd).2.2 i (List.mem_append_right _ hm) i hi rfl
  obtain ⟨s2, hlink, hat2, ho2⟩ := linkMoved_run (path cL (rootOf re)) hctx1 hst1
    ((hperm be).nodup_iff.mpr harena1.nodup) (fun i hi => harena1.inPool ((hperm be).mem_iff.mp hi))
    (ho1.room hroom)
  obtain ⟨s3, hpatch, hat3, ho3⟩ := patchBalance_run hat2 false b
  have hat4 : At size s3 (cL ++ ⟨e, b, l, false⟩ :: c) re := at_plug.mpr (at_cons.mpr hat3)
  have hshrunk : Shrunk (cL ++ ⟨e, b, l, false⟩ :: c) re := by
    have hb' : (plug (cL ++ ⟨e, b, l, false⟩ :: c) (.node .nil e be re)).Balanced := by
      rw [plug_append]
      change (plug c (.node l e b (plug cL (.node .nil e be re)))).Balanced
      obtain ⟨h1, h2⟩ := balanced_plug.mp hb
      exact balanced_plug.mpr ⟨h1, h2⟩
    obtain ⟨⟨-, hre, -⟩, hfits⟩ := balanced_plug.mp hb'
    rw [AvlTree.height_node, AvlTree.height_nil, Nat.zero_max] at hfits
    exact ⟨hre, hfits⟩
  have hside : SideKnown none (cL ++ ⟨e, b, l, false⟩ :: c) re := by
    by_cases hre : re = .nil
    · exact side_nil hleft (rootOf_mem hnl |> hinL.inPool _) hre
    · exact hat4.side hre
  have hplug : plug (cL ++ ⟨e, b, l, false⟩ :: c) re = plug c (.node l e b (plug cL re)) := plug_append ..
  obtain ⟨hord, hent⟩ := erase_node hs (hlist b)
  obtain ⟨s', t', hfin, hholds, htl⟩ := finish_run hat4 hshrunk hside ((harena1.only ho2).only ho3)
    (hplug ▸ hperm b) (hplug ▸ hord)
  refine ⟨s', t', ?_, hholds, ?_⟩
  · have hpath : path (cL ++ ⟨e, b, l, false⟩ :: c) (rootOf re) = path c e.id ++ path cL (rootOf re) :=
      path_under cL c ⟨e, b, l, false⟩ _
    have hget : (path (cL ++ ⟨e, b, l, false⟩ :: c) (rootOf re)).getD c.length 0 = e.id := by
      rw [hpath]
      exact getD_hole c e.id _
    rw [rootOf_node] at hlink
    unfold afterFree
    rw [run_bind hsplice]
    simp only [hget]
    rw [hpath, run_bind hlink, run_bind hpatch, ← hpath]
    exact hfin
  · rw [← hent, entries, entries, htl, hplug]

theorem remove_run {fuel : Nat} (h : Holds size s t) (hf : t.height < fuel) :
    ∃ s' t', Rust.remove (fields size) fuel k s = .ok (((entries t).lookup k).isSome, s') ∧
      Removed size k t s' t' := by
  obtain ⟨c, t₀, he, hp, hend, hat, hrun⟩ := findPath_root (k := k) h.stored h.ordered hf
  unfold Rust.remove
  rw [run_bind hrun]
  simp only [top_path]
  rcases hend with rfl | ⟨l, a, b, r, rfl, rfl⟩
  · refine ⟨s, t, ?_, h, (SortedMap.erase_absent fun x hx => ?_).symm⟩
    · rw [hp.lookup_none he]
      rfl
    · have hk := List.lookup_eq_none_iff.mp (hp.lookup_none he) x hx
      exact (bne_iff_ne.mp hk).symm
  · obtain rfl := he
    have hai : InPool s a.id := hat.inside.inPool _ (by simp)
    have han : s.at size a.id = a.node (rootOf l) (rootOf r) b := hat.tree.1
    have hlist : (plug c (.node l a b r)).toList = (before c ++ l.toList) ++ a :: (r.toList ++ after c) := by
      rw [toList_plug, AvlTree.toList_node]
      simp
    have hlook : ((entries (plug c (.node l a b r))).lookup a.key).isSome = true := by
      rw [lookup_some h.ordered hlist]
      rfl
    have hslot : a.id - 1 + 1 = a.id := Nat.sub_add_cancel hai.1
    obtain ⟨s1, hfree, harena, hroom, hsame⟩ := freeSlot_run (a.id - 1)
       (hslot.symm ▸ h.arena.perm others_perm) h.stored.room
    rw [rootOf_node, if_neg (Nat.pos_iff_ne_zero.mp hai.1), bind_node _ hai, bind_left, han, node_left,
      bind_right, han, node_right, bind_balance, han, node_balance, run_bind hfree, hlook]
    have hctx := hsame.around hat.ctx
    have hl := hsame.stored hat.tree.2.1
    have hr := hsame.stored hat.tree.2.2
    by_cases hnil : l = .nil ∨ r = .nil
    · obtain ⟨s', t', hrest, hrem⟩ :=
        remove_single fuel a.id h.balanced h.ordered hctx hl hr harena hroom hnil
      refine ⟨s', t', ?_, hrem⟩
      rw [length_path, Nat.add_sub_cancel]
      exact hrest
    · rw [not_or] at hnil
      have hheight : r.height ≤ fuel := by
        have hle := AvlTree.height_plug c (.node l a b r)
        rw [AvlTree.height_node] at hle
        omega
      obtain ⟨s', t', hrest, hrem⟩ := remove_both fuel a.id h.balanced h.ordered hctx hl hr
        harena hroom hnil.1 hnil.2 hheight
      refine ⟨s', t', ?_, hrem⟩
      rw [length_path, Nat.add_sub_cancel]
      exact hrest

end

end GenVM.Storage.AvlMap
