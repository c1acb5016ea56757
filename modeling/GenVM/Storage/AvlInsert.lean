import GenVM.Lib.SortedMap
import GenVM.Storage.AvlArena

/-!
# Looking up and inserting

The walk to a key and the insertion of a node where it ends
(executor/crates/sdk-rs/src/storage/tree_map.rs:36-60, 214-315).
-/
namespace GenVM.Storage.AvlMap

open Agree (Prog)
open GenVM.Lib.Consume (run_bind)
open GenVM.Lib GenVM.Lib.Avl TreeMap

variable {K V : Type} {size : Nat} {s : Pool K V} {c : ACtx K V} {t : ATree K V}

/-! ## The walk -/

/-- The side a path ended on. -/
def side : ACtx K V → Bool
  | [] => true
  | f :: _ => f.left

def Ordered [LT K] (t : ATree K V) : Prop := t.toList.Pairwise fun a b => a.key < b.key

/-- The place of `k`: above what is before the hole, below what is behind it. -/
structure Place [LT K] (k : K) (c : ACtx K V) : Prop where
  above : ∀ e ∈ before c, e.key < k
  below : ∀ e ∈ after c, k < e.key

variable [LinearOrder K] {k : K}

theorem Place.left {l r : ATree K V} {a : Entry K V} {b : Int} (h : Place k c)
    (hs : Ordered (plug c (.node l a b r))) (hk : k < a.key) : Place k (⟨a, b, r, true⟩ :: c) := by
  refine ⟨?_, fun e he => ?_⟩
  · rw [before_cons, if_pos rfl, List.append_nil]
    exact h.above
  · rw [after_cons, if_pos rfl] at he
    rcases List.mem_append.mp he with he | he
    · rcases List.mem_cons.mp he with rfl | he
      · exact hk
      · unfold Ordered at hs
        rw [toList_plug, AvlTree.toList_node] at hs
        have hin := (List.pairwise_append.mp (List.pairwise_append.mp hs).1).2.1
        have har := (List.pairwise_cons.mp (List.pairwise_append.mp hin).2.1).1 e he
        exact hk.trans har
    · exact h.below e he

theorem Place.right {l r : ATree K V} {a : Entry K V} {b : Int} (h : Place k c)
    (hs : Ordered (plug c (.node l a b r))) (hk : a.key < k) : Place k (⟨a, b, l, false⟩ :: c) := by
  refine ⟨fun e he => ?_, ?_⟩
  · rw [before_cons, if_neg (by simp)] at he
    rcases List.mem_append.mp he with he | he
    · exact h.above e he
    · unfold Ordered at hs
      rw [toList_plug, AvlTree.toList_node] at hs
      have hin := (List.pairwise_append.mp (List.pairwise_append.mp hs).1).2.1
      rcases List.mem_append.mp he with he | he
      · exact ((List.pairwise_append.mp hin).2.2 e he a List.mem_cons_self).trans hk
      · rw [List.mem_singleton.mp he]
        exact hk
  · rw [after_cons, if_neg (by simp), List.nil_append]
    exact h.below

/-- Where the walk to `k` ends. -/
def Ends (k : K) (t : ATree K V) : Prop := t = .nil ∨ ∃ l a b r, t = .node l a b r ∧ a.key = k

theorem findPath_run (fuel : Nat) : ∀ {c : ACtx K V} {t : ATree K V}, At size s c t →
    Ordered (plug c t) → Place k c → t.height < fuel →
    ∃ c' t', plug c' t' = plug c t ∧ Place k c' ∧ Ends k t' ∧ At size s c' t' ∧
      findPathWith (fields size) (Rust.node (fields size)) k fuel (c.map fun f => f.a.id).reverse
        (rootOf t) (side c) s = .ok ((path c' (rootOf t'), side c'), s) := by
  induction fuel with
  | zero => exact fun _ _ _ h => absurd h (Nat.not_lt_zero _)
  | succ fuel ih =>
    intro c t h hs hp hf
    cases t with
    | nil =>
      refine ⟨c, .nil, rfl, hp, .inl rfl, h, ?_⟩
      have h0 : rootOf (.nil : ATree K V) = 0 := rfl
      rw [findPathWith, if_pos h0]
      rfl
    | node l a b r =>
      have hai : InPool s a.id := h.inside.inPool _ (by simp)
      have han : s.at size a.id = a.node (rootOf l) (rootOf r) b := h.tree.1
      rw [AvlTree.height_node] at hf
      rw [findPathWith, rootOf_node, if_neg (Nat.pos_iff_ne_zero.mp hai.1), bind_node _ hai, bind_key, han,
        node_key]
      by_cases hlt : k < a.key
      · have hat : At size s (⟨a, b, r, true⟩ :: c) l := at_cons.mpr h
        obtain ⟨c', t', he, hp', hend, hat', hrun⟩ := ih hat hs (hp.left hs hlt) (by omega)
        refine ⟨c', t', he, hp', hend, hat', ?_⟩
        rw [if_pos hlt, bind_left, han, node_left]
        rw [List.map_cons, List.reverse_cons] at hrun
        exact hrun
      · rw [if_neg hlt]
        by_cases hgt : a.key < k
        · have hat : At size s (⟨a, b, l, false⟩ :: c) r := at_cons.mpr h
          obtain ⟨c', t', he, hp', hend, hat', hrun⟩ := ih hat hs (hp.right hs hgt) (by omega)
          refine ⟨c', t', he, hp', hend, hat', ?_⟩
          rw [if_pos hgt, bind_right, han, node_right]
          rw [List.map_cons, List.reverse_cons] at hrun
          exact hrun
        · refine ⟨c, .node l a b r, rfl, hp, .inr ⟨l, a, b, r, rfl, ?_⟩, h, ?_⟩
          · exact le_antisymm (not_lt.mp hlt) (not_lt.mp hgt)
          · rw [if_neg hgt]
            rfl

/-- The walk from the root. -/
theorem findPath_root {fuel : Nat} (h : At size s [] t) (hs : Ordered t) (hf : t.height < fuel) :
    ∃ c' t', plug c' t' = t ∧ Place k c' ∧ Ends k t' ∧ At size s c' t' ∧
      Rust.findPath (fields size) fuel k s = .ok ((path c' (rootOf t'), side c'), s) := by
  have hroot : s.root = rootOf t := h.ctx
  unfold Rust.findPath
  rw [bind_root, hroot]
  exact findPath_run fuel h hs ⟨by simp, by simp⟩ hf

/-! ## The map in a pool -/

/-- The map in a tree. -/
def entries (t : ATree K V) : List (K × V) := t.toList.map fun e => (e.key, e.value)

omit [LinearOrder K] in
theorem entries_plug (c : ACtx K V) (t : ATree K V) : entries (plug c t) =
    (before c).map (fun e => (e.key, e.value)) ++ entries t ++ (after c).map fun e => (e.key, e.value) := by
  rw [entries, toList_plug, List.map_append, List.map_append]
  rfl

/-- The pool holds the search tree `t`, balanced, and every other slot is free. -/
structure Holds (size : Nat) (s : Pool K V) (t : ATree K V) : Prop where
  stored : At size s [] t
  balanced : t.Balanced
  ordered : Ordered t
  arena : Arena s (ids t)

section
variable {xs ys : List (Entry K V)} {e : Entry K V}

/-- The entries around the end of the walk. -/
theorem Place.lookup_none (h : Place k c) (ht : plug c .nil = t) : (entries t).lookup k = none := by
  rw [← ht, entries, toList_plug, AvlTree.toList_nil, List.append_nil, List.map_append,
    List.lookup_append, List.lookup_eq_none_iff.mpr, List.lookup_eq_none_iff.mpr]
  · rfl
  · intro p hp
    obtain ⟨e, he, rfl⟩ := List.mem_map.mp hp
    exact bne_iff_ne.mpr (h.below e he).ne
  · intro p hp
    obtain ⟨e, he, rfl⟩ := List.mem_map.mp hp
    exact bne_iff_ne.mpr (h.above e he).ne'

theorem lookup_some (hs : Ordered t) (ht : t.toList = xs ++ e :: ys) :
    (entries t).lookup e.key = some e.value := by
  unfold Ordered at hs
  rw [ht] at hs
  rw [entries, ht, List.map_append, List.lookup_append, List.lookup_eq_none_iff.mpr, List.map_cons,
    SortedMap.lookup_cons, if_pos rfl]
  · rfl
  · intro p hp
    obtain ⟨x, hx, rfl⟩ := List.mem_map.mp hp
    exact bne_iff_ne.mpr ((List.pairwise_append.mp hs).2.2 x hx e List.mem_cons_self).ne'

end

theorem get_run {fuel : Nat} (h : Holds size s t) (hf : t.height < fuel) :
    Rust.get (fields size) fuel k s = .ok ((entries t).lookup k, s) := by
  obtain ⟨c', t', he, hp, hend, hat, hrun⟩ := findPath_root (k := k) h.stored h.ordered hf
  unfold Rust.get
  rw [run_bind hrun]
  simp only [top_path]
  rcases hend with rfl | ⟨l, a, b, r, rfl, rfl⟩
  · rw [hp.lookup_none he]
    rfl
  · have hai : InPool s a.id := hat.inside.inPool _ (by simp)
    have han : s.at size a.id = a.node (rootOf l) (rootOf r) b := hat.tree.1
    have hlist : t.toList = (before c' ++ l.toList) ++ a :: (r.toList ++ after c') := by
      rw [← he, toList_plug, AvlTree.toList_node]
      simp
    rw [lookup_some h.ordered hlist, rootOf_node, if_neg (Nat.pos_iff_ne_zero.mp hai.1),
      bind_node _ hai]
    refine (run_bind (a := (s.at size a.id).value) (u := s) rfl).trans ?_
    rw [han]
    rfl

/-! ## A new leaf -/

section
variable {e : Entry K V}

omit [LinearOrder K]

theorem initNode_run (n : Nat) (k : K) (v : V) : Rust.initNode (fields size) n k v s =
    .ok ((), s.put size (n + 1) ⟨k, v, 0, 0, 0⟩) := by
  unfold Rust.initNode Pool.put
  rw [Nat.add_sub_cancel]
  refine (congrArg (fun ns => Except.ok ((), { s with nodes := ns })) ?_ :
    Except.ok ((), (_ : Pool K V)) = _)
  simp only [Function.update_idem, Function.update_self]

theorem setChild_run {f : Frame (Entry K V)} (x : Nat) {y : Nat} (hin : InPool s f.a.id)
    (hf : s.at size f.a.id = frameNode f y) :
    setChildWith (fields size) (Rust.node (fields size)) f.a.id f.left x s =
      .ok ((), s.put size f.a.id (frameNode f x)) := by
  unfold setChildWith
  rw [bind_node _ hin]
  cases hl : f.left with
  | true =>
    rw [if_pos rfl, set_left, hf, frameNode_left hl, frameNode_left hl]
    rfl
  | false =>
    rw [if_neg (by simp), set_right, hf, frameNode_right hl, frameNode_right hl]
    rfl

/-- A leaf that hangs from the hole, once its node is written. -/
theorem At.leaf {s1 : Pool K V} (h : At size s c .nil) (hfresh : e.id ∉ ids (plug c .nil))
    (hin : InPool s e.id) (hctx : Around s1 size c e.id) (ho : Only size s s1 (around c)) :
    At size (s1.put size e.id (e.node 0 0 0)) c (.node .nil e 0 .nil) := by
  have hall : (ids (plug c (.node .nil e 0 .nil))).Perm (e.id :: ids (plug c .nil)) := by
    refine (ids_plug_perm _ _).trans (List.Perm.cons _ (ids_plug_perm c .nil).symm)
  have hin1 : InPool s1 e.id := ho.inPool.mpr hin
  have ho1 := only_put (n := e.node 0 0 0) (ho.room h.room) hin1
  refine ⟨⟨at_put_self, trivial, trivial⟩, ?_, hall.nodup_iff.mpr (List.nodup_cons.mpr ⟨hfresh, h.nodup⟩),
    fun i hi => ?_, ho1.room (ho.room h.room)⟩
  · refine hctx.only ho1 rfl (fun i hi => ?_) fun i hi hm => ?_
    · exact ho.inPool.mpr (h.inPool i (mem_ids_plug.mpr (.inr hi)))
    · exact hfresh (mem_ids_plug.mpr (.inr (List.mem_singleton.mp hm ▸ hi)))
  · rcases List.mem_cons.mp (hall.mem_iff.mp hi) with rfl | hi
    · exact hin1
    · exact ho.inPool.mpr (h.inPool i hi)

/-- The slots changed, the nodes and the tree did not. -/
theorem At.slots {s1 : Pool K V} (h : At size s c t) (hs : SameNodes s s1) (hr : Room size s1)
    (hin : ∀ i ∈ ids (plug c t), InPool s1 i) : At size s1 c t :=
  ⟨hs.stored h.tree, hs.around h.ctx, h.nodup, hin, hr⟩

end

/-! ## Insertion -/

omit [LinearOrder K] in
theorem at_root : At size s c t ↔ At size s [] (plug c t) := by
  have h : At size s (c ++ []) t ↔ At size s [] (plug c t) := at_plug
  rwa [List.append_nil] at h

omit [LinearOrder K] in
theorem Stored.value {e : Entry K V} (h : Stored s size t) (he : e ∈ t.toList) :
    (s.at size e.id).value = e.value := by
  induction t with
  | nil => cases he
  | node l a b r ihl ihr =>
    rw [AvlTree.toList_node, List.mem_append, List.mem_cons] at he
    rcases he with he | rfl | he
    · exact ihl h.2.1 he
    · rw [h.1]
      rfl
    · exact ihr h.2.2 he

theorem order : SortedMap.StrictOrder fun a b : K => a < b where
  irrefl := lt_irrefl
  trans _ _ _ := lt_trans
  tri _ _ h1 h2 := le_antisymm (not_lt.mp h2) (not_lt.mp h1)

/-- A key put between the others. -/
theorem Place.ordered {e : Entry K V} (h : Place e.key c) (hs : Ordered (plug c .nil)) {b : Int} :
    Ordered (plug c (.node .nil e b .nil)) := by
  unfold Ordered at hs ⊢
  rw [toList_plug, AvlTree.toList_nil, List.append_nil] at hs
  rw [toList_plug, AvlTree.toList_node, AvlTree.toList_nil, List.nil_append, List.append_assoc,
    List.singleton_append]
  have hpw := List.pairwise_append.mp hs
  refine List.pairwise_append.mpr ⟨hpw.1, List.pairwise_cons.mpr ⟨h.below, hpw.2.1⟩, fun x hx y hy => ?_⟩
  rcases List.mem_cons.mp hy with rfl | hy
  · exact h.above x hx
  · exact hpw.2.2 x hx y hy

theorem Place.insert_eq {e : Entry K V} (h : Place e.key c) {b : Int} :
    entries (plug c (.node .nil e b .nil)) =
      SortedMap.insert (fun a b => a < b) e.key e.value (entries (plug c .nil)) := by
  have hab : ∀ x ∈ (before c).map fun e => (e.key, e.value), x.1 < e.key := by
    intro x hx
    obtain ⟨a, ha, rfl⟩ := List.mem_map.mp hx
    exact h.above a ha
  have hbe : ∀ x ∈ (after c).map fun e => (e.key, e.value), e.key < x.1 := by
    intro x hx
    obtain ⟨a, ha, rfl⟩ := List.mem_map.mp hx
    exact h.below a ha
  have hnil : entries (.nil : ATree K V) = [] := rfl
  rw [entries_plug, entries_plug, hnil, List.append_nil, SortedMap.insert_append order _ hab,
    SortedMap.insert_first _ hbe, List.append_assoc]
  rfl

/-- What an insertion leaves behind: the tree with the entry, and a handle to its value. -/
structure Inserted (size : Nat) (k : K) (v : V) (t : ATree K V) (n : Nat) (s' : Pool K V) (t' : ATree K V) :
    Prop where
  holds : Holds size s' t'
  entries : entries t' = SortedMap.insert (fun a b => a < b) k v (entries t)
  handle : (s'.at size (n + 1)).value = v

/-- The value of a key that is there. -/
theorem replace_run {l r : ATree K V} {a : Entry K V} {b : Int} (v : V)
    (h : Holds size s (plug c (.node l a b r))) :
    ∃ s' t', ((fields size).value (a.id - 1)).write v s = .ok ((), s') ∧
      Inserted size a.key v (plug c (.node l a b r)) (a.id - 1) s' t' := by
  have hat := at_root.mpr h.stored
  have hai : InPool s a.id := hat.inside.inPool _ (by simp)
  have han : s.at size a.id = a.node (rootOf l) (rootOf r) b := hat.tree.1
  obtain ⟨hat', ho⟩ := hat.put (x := ⟨a.id, a.key, v⟩) rfl b
  have hlist : ∀ a : Entry K V, (plug c (.node l a b r)).toList =
      (before c ++ l.toList) ++ a :: (r.toList ++ after c) := by
    intro a
    rw [toList_plug, AvlTree.toList_node]
    simp
  have hs := h.ordered
  unfold Ordered at hs
  rw [hlist] at hs
  have hpw := List.pairwise_append.mp hs
  have hbelow := List.pairwise_cons.mp hpw.2.1
  refine ⟨_, plug c (.node l ⟨a.id, a.key, v⟩ b r), ?_, ⟨at_root.mp hat', ?_, ?_, ?_⟩, ?_, ?_⟩
  · change Except.ok ((), s.put size a.id { s.at size a.id with value := v }) = _
    rw [han]
    rfl
  · have hb := balanced_plug.mp h.balanced
    exact balanced_plug.mpr ⟨hb.1, hb.2⟩
  · unfold Ordered
    rw [hlist]
    refine List.pairwise_append.mpr ⟨hpw.1, List.pairwise_cons.mpr hbelow, fun x hx y hy => ?_⟩
    rcases List.mem_cons.mp hy with rfl | hy
    · exact hpw.2.2 x hx a List.mem_cons_self
    · exact hpw.2.2 x hx y (List.mem_cons_of_mem _ hy)
  · refine (h.arena.only ho).perm (List.Perm.of_eq ?_)
    simp only [ids, hlist, List.map_append, List.map_cons]
  · have hab : ∀ x ∈ (before c ++ l.toList).map fun e => (e.key, e.value), x.1 < a.key := by
      intro x hx
      obtain ⟨e, he, rfl⟩ := List.mem_map.mp hx
      exact hpw.2.2 e he a List.mem_cons_self
    have hent : ∀ a : Entry K V, entries (plug c (.node l a b r)) =
        (before c ++ l.toList).map (fun e => (e.key, e.value)) ++
          (a.key, a.value) :: (r.toList ++ after c).map fun e => (e.key, e.value) := by
      intro a
      rw [entries, hlist, List.map_append, List.map_cons]
    rw [hent, hent, SortedMap.insert_append order _ hab, SortedMap.insert_same order]
  · rw [Nat.sub_add_cancel hai.1, at_put_self]
    rfl

/-- A leaf hung in its place, before the way up is rebalanced. -/
theorem hang_leaf {s1 s2 : Pool K V} {e : Entry K V} (h : Holds size s (plug c .nil)) (hp : Place e.key c)
    (hin : InPool s1 e.id) (hat : At size s1 c .nil) (harena : Arena s1 (e.id :: ids (plug c .nil)))
    (hctx : Around s2 size c e.id) (ho : Only size s1 s2 (around c)) :
    ∃ c' t' s', Rust.insertRebalance (fields size) (path c e.id).length (path c e.id)
        (s2.put size e.id (e.node 0 0 0)) = .ok (path c' (rootOf t'), s') ∧ At size s' c' t' ∧
      Inserted size e.key e.value (plug c .nil) (e.id - 1) s' (plug c' t') := by
  have hfresh := (List.nodup_cons.mp harena.nodup).1
  have hin2 : InPool s2 e.id := ho.inPool.mpr hin
  have hleaf := hat.leaf hfresh hin hctx ho
  have hgrown : Grown c (.node .nil e 0 .nil) := by
    refine ⟨by simp, ⟨0, rfl, (balanced_plug.mp h.balanced).2⟩, ?_⟩
    rintro _ _ _ _ ⟨⟩ -
    rfl
  obtain ⟨c', t', s', hrun, hset⟩ :=
    insertRebalance_run (path c e.id).length hleaf hgrown (by rw [length_path]; omega)
  have hmem : e ∈ (plug c' t').toList := by
    rw [hset.list, toList_plug]
    simp
  refine ⟨c', t', s', hrun, hset.stored, ⟨at_root.mp hset.stored, hset.balanced, ?_, ?_⟩, ?_, ?_⟩
  · have hord := hp.ordered (b := 0) h.ordered
    unfold Ordered at hord ⊢
    rw [hset.list]
    exact hord
  · have hperm : (ids (plug c' t')).Perm (e.id :: ids (plug c .nil)) := by
      rw [ids, hset.list]
      exact (ids_plug_perm c (.node .nil e 0 .nil)).trans ((ids_plug_perm c .nil).symm.cons e.id)
    have ho2 := only_put (n := e.node 0 0 0) (ho.room hat.room) hin2
    exact (((harena.only ho).only ho2).only hset.only).perm hperm
  · rw [← hp.insert_eq (b := 0), entries, entries, hset.list]
  · rw [Nat.sub_add_cancel hin.1]
    exact (at_root.mp hset.stored).tree.value hmem

theorem insert_run {fuel : Nat} (v : V) (h : Holds size s t) (hf : t.height < fuel)
    (hcap : (SortedMap.insert (fun a b => a < b) k v (entries t)).length * size ≤ 2 ^ 32) :
    ∃ n s' t', Rust.insertHandle (fields size) fuel k v s = .ok (n, s') ∧ Inserted size k v t n s' t' := by
  obtain ⟨c, t₀, he, hp, hend, hat, hrun⟩ := findPath_root (k := k) h.stored h.ordered hf
  unfold Rust.insertHandle
  rw [run_bind hrun]
  simp only [top_path]
  rcases hend with rfl | ⟨l, a, b, r, rfl, rfl⟩
  · obtain rfl := he
    have hlen : (SortedMap.insert (fun a b => a < b) k v (entries (plug c .nil))).length =
        (ids (plug c .nil)).length + 1 := by
      rw [← hp.insert_eq (e := ⟨0, k, v⟩) (b := 0), entries, List.length_map, ids, List.length_map,
        toList_plug, toList_plug]
      simp
      omega
    rw [hlen] at hcap
    obtain ⟨idx, s1, halloc, harena, hroom, hsame, hmore⟩ := allocSlot_run h.arena h.stored.room hcap
    have hin : InPool s1 (idx + 1) := harena.inPool List.mem_cons_self
    have hmod : (idx + 1) % 2 ^ 32 = idx + 1 := Nat.mod_eq_of_lt (by
      have := hin.2
      have := s1.slotsLen_lt
      omega)
    have hat1 : At size s1 c .nil :=
      hat.slots hsame hroom fun i hi => harena.inPool (List.mem_cons_of_mem _ hi)
    have h0 : rootOf (.nil : ATree K V) = 0 := rfl
    rw [if_neg (not_not.mpr h0)]
    cases c with
    | nil =>
      have hone : (path ([] : ACtx K V) (rootOf (.nil : ATree K V))).length = 1 := length_path _ _
      obtain ⟨c', t', s', hreb, hat', hins⟩ := hang_leaf (e := ⟨idx + 1, k, v⟩)
        h hp hin hat1 harena (show Around { s1 with root := idx + 1 } size [] (idx + 1) from rfl)
        ⟨rfl, rfl, rfl, fun _ _ _ => rfl⟩
      -- one entry is no path to climb
      obtain ⟨-, rfl⟩ := Prod.mk.inj (Except.ok.inj hreb)
      refine ⟨idx, _, _, ?_, hins⟩
      rw [if_pos hone, run_bind halloc, hmod]
      refine (run_bind (a := ()) (u := { s1 with root := idx + 1 }) rfl).trans ?_
      rw [run_bind (initNode_run idx k v)]
      rfl
    | cons f up =>
      have hlong : (path (f :: up) (rootOf (.nil : ATree K V))).length ≠ 1 := by
        rw [length_path]
        simp
      obtain ⟨hctx, ho⟩ := hat1.ctx.link (idx + 1) hat1.nodup hat1.inPool hat1.room
      obtain ⟨c', t', s', hreb, hat', hins⟩ := hang_leaf (e := ⟨idx + 1, k, v⟩) h hp hin hat1 harena hctx ho
      refine ⟨idx, s', plug c' t', ?_, hins⟩
      have hside : side (f :: up) = f.left := rfl
      rw [if_neg hlong, run_bind halloc, hmod, second_path, drop_path, hside]
      rw [run_bind (setChild_run (idx + 1) hat1.frame.1 hat1.frame.2), run_bind (initNode_run idx k v)]
      refine (run_bind hreb).trans ?_
      rw [run_bind (fixRoot_run hat')]
      rfl
  · obtain ⟨s', t', hw, hins⟩ := replace_run v (he ▸ h)
    have hai : InPool s a.id := hat.inside.inPool _ (by simp)
    rw [rootOf_node, if_pos (Nat.pos_iff_ne_zero.mp hai.1), bind_node _ hai, run_bind hw]
    exact ⟨a.id - 1, s', t', rfl, he ▸ hins⟩

/-- Without its handle the insertion is `insert`. -/
theorem insert_handle {σ : Type} (F : Fields σ K V) (fuel : Nat) (k : K) (v : V) :
    (do let _ ← Rust.insertHandle F fuel k v) = Rust.insert F fuel k v := by
  unfold Rust.insertHandle Rust.insert
  simp only [bind_assoc]
  refine bind_congr fun p => ?_
  obtain ⟨seq, isLeft⟩ := p
  dsimp only
  split
  · simp only [bind_assoc, pure_bind, bind_pure_unit]
  · split
    · simp only [bind_assoc, pure_bind, bind_pure_unit]
    · simp only [bind_assoc, pure_bind, bind_pure_unit]

end GenVM.Storage.AvlMap
