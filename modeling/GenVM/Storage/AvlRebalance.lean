import GenVM.Storage.AvlRotate

/-!
# Rebalancing after an insertion
-/
namespace GenVM.Storage.AvlMap

open Agree (Prog)
open GenVM.Lib.Consume (run_bind)
open GenVM.Lib.Avl TreeMap

variable {K V : Type} {size : Nat} {s : Pool K V} {c up : ACtx K V} {f : Frame (Entry K V)}
  {t l r : ATree K V} {a : Entry K V} {b : Int}

/-! ## Inside a hole -/

/-- A tree changed inside, its root in place. -/
theorem At.inner {s1 : Pool K V} {t' : ATree K V} (h : At size s c t) (ho : Only size s s1 (ids t))
    (hroot : s1.root = s.root) (hst : Stored s1 size t') (hids : ids t' = ids t)
    (htop : rootOf t' = rootOf t) : At size s1 c t' := by
  have hall : ids (plug c t') = ids (plug c t) := by rw [ids_plug, ids_plug, hids]
  refine ⟨hst, ?_, hall ▸ h.nodup, fun i hi => ho.inPool.mpr (h.inPool i (hall ▸ hi)), ho.room h.room⟩
  rw [htop]
  exact h.ctx.only ho hroot (fun i hi => h.inPool i (mem_ids_plug.mpr (.inr hi)))
    fun i hi hm => disjoint_around h.nodup hm hi

/-- The node at the top of the hole is written. -/
theorem At.put (h : At size s c (.node l a b r)) {x : Entry K V} (hid : x.id = a.id) (b' : Int) :
    At size (s.put size a.id (x.node (rootOf l) (rootOf r) b')) c (.node l x b' r) ∧
      Only size s (s.put size a.id (x.node (rootOf l) (rootOf r) b')) [a.id] := by
  have hin : InPool s a.id := h.inside.inPool _ (by simp)
  have ho := only_put (n := x.node (rootOf l) (rootOf r) b') h.room hin
  obtain ⟨-, hl, hr⟩ := h.tree
  have hpool := h.inside.inPool
  have hnd := h.inside.nodup
  simp only [ids_node, List.nodup_append, List.nodup_cons, List.mem_append, List.mem_cons] at hpool hnd
  refine ⟨h.inner (ho.mono (by simp)) rfl ⟨?_, hl.only ho ?_ ?_, hr.only ho ?_ ?_⟩ ?_ hid, ho⟩
  · rw [hid]
    exact at_put_self
  · grind
  · grind
  · grind
  · grind
  · simp [hid]

theorem At.frame (h : At size s (f :: up) t) : InPool s f.a.id ∧ s.at size f.a.id = frameNode f (rootOf t) :=
  ⟨h.inPool _ (mem_ids_plug.mpr (.inr (mem_around_cons.mpr (.inl rfl)))), h.ctx.1⟩

theorem frameNode_left (hl : f.left = true) (x : Nat) :
    frameNode f x = f.a.node x (rootOf f.sib) f.b := if_pos hl

theorem frameNode_right (hl : f.left = false) (x : Nat) :
    frameNode f x = f.a.node (rootOf f.sib) x f.b := if_neg (by simp [hl])

theorem frameNode_balance (x : Nat) : (frameNode f x).balance = f.b := by
  unfold frameNode
  split <;> rfl

/-- Comparing with the left link tells the side of the hole. -/
theorem At.isLeft (h : At size s (f :: up) t) (ht : t ≠ .nil) :
    (rootOf t = (frameNode f (rootOf t)).left) = (f.left = true) := by
  cases hl : f.left with
  | true =>
    rw [frameNode_left hl]
    simp
  | false =>
    rw [frameNode_right hl, node_left]
    simpa using (sib_ne h.nodup h.inPool ht).symm

/-- A balance near a balance does not wrap. -/
theorem bmod_balance {b d : Int} (hb : -1 ≤ b ∧ b ≤ 1) (hd : -1 ≤ d ∧ d ≤ 1) :
    (b + d).bmod 256 = b + d := by
  rw [Int.bmod_eq_of_le] <;> omega

/-- The root of the map is where the path starts. -/
theorem Around.root {x : Nat} (h : Around s size c x) : s.root = (path c x).headD 0 := by
  induction c generalizing x with
  | nil => exact h
  | cons f up ih =>
    rw [ih h.2.2, path_cons]
    unfold path
    cases (List.map (fun f => f.a.id) up).reverse <;> rfl

theorem fixRoot_run (h : At size s c t) : fixRoot (fields size) (path c (rootOf t)) s = .ok ((), s) := by
  unfold fixRoot
  rw [bind_root, if_neg (by rw [h.ctx.root]; simp)]
  rfl

/-! ## The loop -/

/-- The hole holds a tree that may make it too high by one; the tree leans where
it is more than a leaf. -/
structure Grown (c : ACtx K V) (t : ATree K V) : Prop where
  balanced : t.Balanced
  fits : ∃ h, t.height = h + 1 ∧ Suits c h
  leans : ∀ l a b r, t = .node l a b r → b = 0 → l = .nil

/-- Where the loop stops: a balanced tree with the same entries in order. -/
structure Settled (size : Nat) (s : Pool K V) (t : ATree K V) (s' : Pool K V) (c' : ACtx K V) (t' : ATree K V) :
    Prop where
  stored : At size s' c' t'
  balanced : (plug c' t').Balanced
  list : (plug c' t').toList = t.toList
  only : Only size s s' (ids t)

theorem rootOf_plug : rootOf (f.plug t) = f.a.id := by
  unfold Frame.plug
  split <;> rfl

/-- A rotation above a hole, hung up. -/
theorem Turned.hang {s1 : Pool K V} {t' : ATree K V} (ht : Turned size s s1 (f.plug t) t')
    (h : At size s (f :: up) t) (x : Nat) :
    ∃ s2, Rust.replaceChild (fields size) (path up x) up.length f.a.id (rootOf t') s1 = .ok ((), s2) ∧
      At size s2 up t' ∧ Only size s s2 (ids (plug (f :: up) t)) ∧
      (plug up t').toList = (plug (f :: up) t).toList := by
  have hne : f.plug t ≠ .nil := by
    unfold Frame.plug
    split <;> simp
  obtain ⟨s2, hrun, hat, ho⟩ := (at_cons.mp h).relink hne ht.only ht.root ht.tree
    (congrArg (List.map Entry.id) ht.list) x
  rw [rootOf_plug] at hrun
  refine ⟨s2, hrun, hat, ho, ?_⟩
  rw [plug_cons, toList_plug, toList_plug, ht.list]

theorem Turned.settled {s1 : Pool K V} {t' : ATree K V} (ht : Turned size s s1 (f.plug t) t')
    (h : At size s (f :: up) t) (hb : t'.Balanced) (hfits : Suits up t'.height) (x : Nat) :
    ∃ s2, Rust.replaceChild (fields size) (path up x) up.length f.a.id (rootOf t') s1 = .ok ((), s2) ∧
      Settled size s (plug (f :: up) t) s2 up t' := by
  obtain ⟨s2, hrun, hat, ho, hlist⟩ := ht.hang h x
  exact ⟨s2, hrun, hat, balanced_plug.mpr ⟨hb, hfits⟩, hlist, ho⟩

theorem Grown.cases_left (h : Grown (f :: up) t) (hl : f.left = true) :
    ∃ n, t.height = n + 1 ∧ f.sib.Balanced ∧ f.b = (f.sib.height : Int) - n ∧ -1 ≤ f.b ∧ f.b ≤ 1 ∧
      Suits up (max n f.sib.height + 1) := by
  obtain ⟨n, hn, hsib, hfb, h1, h2, hup⟩ := h.fits
  rw [Frame.balance, if_pos hl] at hfb
  exact ⟨n, hn, hsib, hfb, h1, h2, hup⟩

theorem Grown.cases_right (h : Grown (f :: up) t) (hl : f.left = false) :
    ∃ n, t.height = n + 1 ∧ f.sib.Balanced ∧ f.b = (n : Int) - f.sib.height ∧ -1 ≤ f.b ∧ f.b ≤ 1 ∧
      Suits up (max n f.sib.height + 1) := by
  obtain ⟨n, hn, hsib, hfb, h1, h2, hup⟩ := h.fits
  rw [Frame.balance, if_neg (by simp [hl])] at hfb
  exact ⟨n, hn, hsib, hfb, h1, h2, hup⟩

theorem rootOf_node (l r : ATree K V) (a : Entry K V) (b : Int) : rootOf (.node l a b r) = a.id := rfl

theorem Grown.leans_node (h : Grown c (.node l a b r)) (hn : 2 ≤ (AvlTree.node l a b r).height) :
    b = -1 ∨ b = 1 := by
  obtain ⟨-, -, hb, h1, h2⟩ := h.balanced
  by_contra hne
  have h0 : b = 0 := by omega
  have hl := h.leans l a b r rfl h0
  rw [hl, AvlTree.height_nil] at hb
  rw [AvlTree.height_node, hl, AvlTree.height_nil] at hn
  omega

/-- A left child too high: it is raised, or its right child is. -/
theorem insert_left {n : Nat} (h : At size s (f :: up) (.node l a b r))
    (hg : Grown (f :: up) (.node l a b r)) (hl : f.left = true) (hn : (AvlTree.node l a b r).height = n + 1)
    (hsib : f.sib.Balanced) (hlow : f.sib.height + 1 = n) (hup : Suits up (max n f.sib.height + 1)) :
    ∃ t' s', (if b > 0 then do
          let rightChild ← ((fields size).right (a.id - 1)).read
          Rust.rotLeftRight (fields size) f.a.id a.id rightChild
          Rust.replaceChild (fields size) (path up rightChild) up.length f.a.id rightChild
          pure (path up rightChild)
        else do
          Rust.rotRight (fields size) f.a.id a.id
          Rust.replaceChild (fields size) (path up a.id) up.length f.a.id a.id
          pure (path up a.id) : M (Pool K V) (List Nat)) s = .ok (path up (rootOf t'), s') ∧
      Settled size s (plug (f :: up) (.node l a b r)) s' up t' := by
  have hplug : f.plug (.node l a b r) = .node (.node l a b r) f.a f.b f.sib := if_pos hl
  have hin : Inside size s (.node (.node l a b r) f.a f.b f.sib) := hplug ▸ (at_cons.mp h).inside
  obtain ⟨hlb, hrb, hb, h1, h2⟩ := hg.balanced
  have hlean := hg.leans_node (by omega)
  rw [AvlTree.height_node] at hn
  by_cases hpos : b > 0
  · obtain ⟨m, x, bx, k, rfl⟩ := AvlTree.exists_node (t := r) (by omega)
    obtain ⟨hmb, hkb, hbx, hx1, hx2⟩ := hrb
    rw [AvlTree.height_node] at hb hn
    obtain ⟨s1, hrun, hturn⟩ := rotLeftRight_run hin
    obtain ⟨hbal, hheight⟩ := AvlTree.balanced_double (l := l) (a := a) (x := x) (p := f.a) (u := f.sib)
      hlb hmb hkb hsib hbx hx1 hx2 (by omega) (by omega)
    rw [← hplug] at hturn
    obtain ⟨s2, hrun2, hset⟩ := hturn.settled h hbal
      (by rw [hheight, show l.height + 2 = max n f.sib.height + 1 by omega]; exact hup) x.id
    rw [rootOf_node] at hrun2
    rw [if_pos hpos, bind_right, h.tree.1, node_right, rootOf_node, run_bind hrun, run_bind hrun2]
    exact ⟨_, s2, rfl, hset⟩
  · obtain ⟨s1, hrun, hturn⟩ := rotRight_run hin
    obtain ⟨hbal, hheight⟩ := AvlTree.balanced_right (l := l) (a := a) (r := r) (p := f.a) (u := f.sib)
      hlb hrb hsib hb (by omega) (by omega)
    rw [← hplug] at hturn
    obtain ⟨s2, hrun2, hset⟩ := hturn.settled h hbal
      (by rw [hheight, if_neg (by omega), show l.height + 1 = max n f.sib.height + 1 by omega]; exact hup) a.id
    rw [rootOf_node] at hrun2
    rw [if_neg hpos, run_bind hrun, run_bind hrun2]
    exact ⟨_, s2, rfl, hset⟩

/-- A right child too high: it is raised, or its left child is. -/
theorem insert_right {n : Nat} (h : At size s (f :: up) (.node l a b r))
    (hg : Grown (f :: up) (.node l a b r)) (hl : f.left = false) (hn : (AvlTree.node l a b r).height = n + 1)
    (hsib : f.sib.Balanced) (hlow : f.sib.height + 1 = n) (hup : Suits up (max n f.sib.height + 1)) :
    ∃ t' s', (if b < 0 then do
          let leftChild ← ((fields size).left (a.id - 1)).read
          Rust.rotRightLeft (fields size) f.a.id a.id leftChild
          Rust.replaceChild (fields size) (path up leftChild) up.length f.a.id leftChild
          pure (path up leftChild)
        else do
          Rust.rotLeft (fields size) f.a.id a.id
          Rust.replaceChild (fields size) (path up a.id) up.length f.a.id a.id
          pure (path up a.id) : M (Pool K V) (List Nat)) s = .ok (path up (rootOf t'), s') ∧
      Settled size s (plug (f :: up) (.node l a b r)) s' up t' := by
  have hplug : f.plug (.node l a b r) = .node f.sib f.a f.b (.node l a b r) := if_neg (by simp [hl])
  have hin : Inside size s (.node f.sib f.a f.b (.node l a b r)) := hplug ▸ (at_cons.mp h).inside
  obtain ⟨hlb, hrb, hb, h1, h2⟩ := hg.balanced
  have hlean := hg.leans_node (by omega)
  rw [AvlTree.height_node] at hn
  by_cases hneg : b < 0
  · obtain ⟨m, x, bx, k, rfl⟩ := AvlTree.exists_node (t := l) (by omega)
    obtain ⟨hmb, hkb, hbx, hx1, hx2⟩ := hlb
    rw [AvlTree.height_node] at hb hn
    obtain ⟨s1, hrun, hturn⟩ := rotRightLeft_run hin
    obtain ⟨hbal, hheight⟩ := AvlTree.balanced_double (l := f.sib) (a := f.a) (x := x) (p := a) (u := r)
      hsib hmb hkb hrb hbx hx1 hx2 (by omega) (by omega)
    rw [← hplug] at hturn
    obtain ⟨s2, hrun2, hset⟩ := hturn.settled h hbal
      (by rw [hheight, show f.sib.height + 2 = max n f.sib.height + 1 by omega]; exact hup) x.id
    rw [rootOf_node] at hrun2
    rw [if_pos hneg, bind_left, h.tree.1, node_left, rootOf_node, run_bind hrun, run_bind hrun2]
    exact ⟨_, s2, rfl, hset⟩
  · obtain ⟨s1, hrun, hturn⟩ := rotLeft_run hin
    obtain ⟨hbal, hheight⟩ := AvlTree.balanced_left (l := l) (a := a) (r := r) (p := f.a) (u := f.sib)
      hlb hrb hsib hb (by omega) (by omega)
    rw [← hplug] at hturn
    obtain ⟨s2, hrun2, hset⟩ := hturn.settled h hbal
      (by rw [hheight, if_neg (by omega), show r.height + 1 = max n f.sib.height + 1 by omega]; exact hup) a.id
    rw [rootOf_node] at hrun2
    rw [if_neg hneg, run_bind hrun, run_bind hrun2]
    exact ⟨_, s2, rfl, hset⟩

/-- A balance written on the way up. -/
theorem At.setBalance (h : At size s (f :: up) t) (x : Int) :
    At size (s.put size f.a.id { s.at size f.a.id with balance := x }) up
        (Frame.plug { f with b := x } t) ∧
      Only size s (s.put size f.a.id { s.at size f.a.id with balance := x }) (ids (f.plug t)) := by
  have hup := at_cons.mp h
  obtain ⟨-, hfn⟩ := h.frame
  by_cases hl : f.left = true
  · have hplug : f.plug t = .node t f.a f.b f.sib := if_pos hl
    have hplug' : Frame.plug { f with b := x } t = .node t f.a x f.sib := if_pos hl
    rw [hplug] at hup
    rw [hfn, frameNode_left hl, hplug, hplug']
    exact (hup.put rfl x).imp_right fun ho => ho.mono (by simp)
  · have hplug : f.plug t = .node f.sib f.a f.b t := if_neg hl
    have hplug' : Frame.plug { f with b := x } t = .node f.sib f.a x t := if_neg hl
    rw [hplug] at hup
    rw [hfn, frameNode_right (by simpa using hl), hplug, hplug']
    exact (hup.put rfl x).imp_right fun ho => ho.mono (by simp)

theorem toList_setBalance (x : Int) : (Frame.plug { f with b := x } t).toList = (f.plug t).toList := by
  unfold Frame.plug
  split <;> rfl

/-- The height grew no further. -/
theorem Settled.stop (h : At size s (f :: up) t) (x : Int)
    (hb : (Frame.plug { f with b := x } t).Balanced) (hfits : Suits up (Frame.plug { f with b := x } t).height) :
    Settled size s (plug (f :: up) t) (s.put size f.a.id { s.at size f.a.id with balance := x })
      ({ f with b := x } :: up) t := by
  obtain ⟨hat, ho⟩ := h.setBalance x
  refine ⟨at_cons.mpr hat, (balanced_plug (c := up)).mpr ⟨hb, hfits⟩, ?_,
    ho.mono fun i hi => (mem_ids_plug (c := up)).mpr (.inl hi)⟩
  rw [plug_cons, plug_cons, toList_plug, toList_plug, toList_setBalance]

theorem Settled.trans {s1 s' : Pool K V} {c' : ACtx K V} {t0 t1 t' : ATree K V}
    (h : Settled size s1 t1 s' c' t') (ho : Only size s s1 (ids t0)) (hlist : t1.toList = t0.toList) :
    Settled size s t0 s' c' t' := by
  have hids : ids t1 = ids t0 := congrArg (List.map Entry.id) hlist
  exact ⟨h.stored, h.balanced, h.list.trans hlist, (ho.trans h.only).mono (by simp [hids])⟩

/-- The tree above a balance that was written, for the one below. -/
theorem Settled.above {s' : Pool K V} {c' : ACtx K V} {t' : ATree K V} {x : Int}
    (h : At size s (f :: up) t)
    (hset : Settled size (s.put size f.a.id { s.at size f.a.id with balance := x })
      (plug up (Frame.plug { f with b := x } t)) s' c' t') :
    Settled size s (plug (f :: up) t) s' c' t' := by
  obtain ⟨-, ho⟩ := h.setBalance x
  refine hset.trans (ho.mono fun i hi => (mem_ids_plug (c := up)).mpr (.inl hi)) ?_
  rw [plug_cons, toList_plug, toList_plug, toList_setBalance]

/-- What the loop ends in from a path. -/
def InsertsFrom (size fuel : Nat) (s : Pool K V) (c : ACtx K V) (t : ATree K V) : Prop :=
  ∃ c' t' s', Rust.insertRebalance (fields size) fuel (path c (rootOf t)) s =
    .ok (path c' (rootOf t'), s') ∧ Settled size s (plug c t) s' c' t'

/-- The balance of the parent is written, and the loop goes on unless it is zero. -/
theorem insert_write {fuel : Nat} {x : Int} (h : At size s (f :: up) t)
    (hstop : x = 0 → (Frame.plug { f with b := x } t).Balanced ∧
      Suits up (Frame.plug { f with b := x } t).height)
    (hgo : x ≠ 0 → Grown up (Frame.plug { f with b := x } t))
    (ih : ∀ {s1 : Pool K V} {t1 : ATree K V}, At size s1 up t1 → Grown up t1 →
      InsertsFrom size fuel s1 up t1) :
    ∃ c' t' s', (do
        ((fields size).balance (f.a.id - 1)).write x
        if x = 0 then pure (path (f :: up) (rootOf t))
        else Rust.insertRebalance (fields size) fuel (path (f :: up) (rootOf t)).dropLast :
          M (Pool K V) (List Nat)) s = .ok (path c' (rootOf t'), s') ∧
      Settled size s (plug (f :: up) t) s' c' t' := by
  rw [bind_set_balance]
  by_cases hx : x = 0
  · obtain ⟨hb, hfits⟩ := hstop hx
    rw [if_pos hx]
    exact ⟨{ f with b := x } :: up, t, _, rfl, Settled.stop h x hb hfits⟩
  · obtain ⟨c', t', s', hrun, hset⟩ := ih (h.setBalance x).1 (hgo hx)
    rw [rootOf_plug] at hrun
    rw [if_neg hx, dropLast_path_cons]
    exact ⟨c', t', s', hrun, hset.above h⟩

theorem insertRebalance_run (fuel : Nat) : ∀ {c : ACtx K V} {t : ATree K V} {s : Pool K V},
    At size s c t → Grown c t → c.length ≤ fuel → InsertsFrom size fuel s c t := by
  induction fuel with
  | zero =>
    intro c t s h hg hc
    obtain rfl := List.eq_nil_of_length_eq_zero (Nat.le_zero.mp hc)
    exact ⟨[], t, s, rfl, h, hg.balanced, rfl, .refl s⟩
  | succ fuel ih =>
    intro c t s h hg hc
    cases c with
    | nil => exact ⟨[], t, s, rfl, h, hg.balanced, rfl, .refl s⟩
    | cons f up =>
      have ht : t ≠ .nil := by
        rintro rfl
        obtain ⟨n, hn, -⟩ := hg.fits
        cases hn
      obtain ⟨hfi, hfn⟩ := h.frame
      obtain ⟨l, a, b, r, rfl⟩ := AvlTree.exists_node
        (Nat.pos_of_ne_zero fun h0 => ht (AvlTree.eq_nil_of_height h0))
      have hai : InPool s a.id := h.inside.inPool _ (by simp)
      have han : s.at size a.id = a.node (rootOf l) (rootOf r) b := h.tree.1
      have ih' : ∀ {s1 : Pool K V} {t1 : ATree K V}, At size s1 up t1 → Grown up t1 →
          InsertsFrom size fuel s1 up t1 := fun h1 hg1 => ih h1 hg1 (Nat.le_of_succ_le_succ hc)
      unfold InsertsFrom Rust.insertRebalance
      rw [if_neg (by simp), top_path, second_path, bind_node _ hfi, bind_left, hfn, bind_balance, hfn,
        frameNode_balance]
      simp only [h.isLeft ht, length_path, List.length_cons, drop_two_path]
      by_cases hl : f.left = true
      · obtain ⟨n, hn, hsib, hfb, h1, h2, hup⟩ := hg.cases_left hl
        have hplug : ∀ x, Frame.plug { f with b := x } (AvlTree.node l a b r) =
            .node (.node l a b r) f.a x f.sib := fun x => if_pos hl
        rw [if_pos hl, bmod_balance ⟨h1, h2⟩ ⟨by decide, by decide⟩]
        by_cases hb : f.b = -1
        · rw [if_pos (by omega)]
          obtain ⟨t', s', hrun, hset⟩ := insert_left h hg hl hn hsib (by omega) hup
          rw [rootOf_node, bind_node _ hai, bind_balance, han, node_balance]
          exact ⟨up, t', s', hrun, hset⟩
        · rw [if_neg (by omega), if_neg (by omega)]
          have hbal : (Frame.plug { f with b := f.b + -1 } (AvlTree.node l a b r)).Balanced := by
            rw [hplug]
            exact ⟨hg.balanced, hsib, by omega, by omega, by omega⟩
          refine insert_write h (fun hx => ⟨hbal, ?_⟩) (fun hx => ⟨hbal, ⟨n + 1, ?_, ?_⟩, ?_⟩) ih'
          · rw [hplug, AvlTree.height_node, hn, show max (n + 1) f.sib.height = max n f.sib.height by omega]
            exact hup
          · rw [hplug, AvlTree.height_node]
            omega
          · rw [show n + 1 = max n f.sib.height + 1 by omega]
            exact hup
          · rw [hplug]
            rintro _ _ _ _ ⟨⟩ h0
            omega
      · obtain ⟨n, hn, hsib, hfb, h1, h2, hup⟩ := hg.cases_right (by simpa using hl)
        have hplug : ∀ x, Frame.plug { f with b := x } (AvlTree.node l a b r) =
            .node f.sib f.a x (.node l a b r) := fun x => if_neg hl
        rw [if_neg hl, bmod_balance ⟨h1, h2⟩ ⟨by decide, by decide⟩]
        by_cases hb : f.b = 1
        · rw [if_neg (by omega), if_pos (by omega)]
          obtain ⟨t', s', hrun, hset⟩ := insert_right h hg (by simpa using hl) hn hsib (by omega) hup
          rw [rootOf_node, bind_node _ hai, bind_balance, han, node_balance]
          exact ⟨up, t', s', hrun, hset⟩
        · rw [if_neg (by omega), if_neg (by omega)]
          have hbal : (Frame.plug { f with b := f.b + 1 } (AvlTree.node l a b r)).Balanced := by
            rw [hplug]
            exact ⟨hsib, hg.balanced, by omega, by omega, by omega⟩
          refine insert_write h (fun hx => ⟨hbal, ?_⟩) (fun hx => ⟨hbal, ⟨n + 1, ?_, ?_⟩, ?_⟩) ih'
          · rw [hplug, AvlTree.height_node, hn, show max f.sib.height (n + 1) = max n f.sib.height by omega]
            exact hup
          · rw [hplug, AvlTree.height_node]
            omega
          · rw [show n + 1 = max n f.sib.height + 1 by omega]
            exact hup
          · rw [hplug]
            rintro _ _ _ _ ⟨⟩ h0
            omega

/-! ## After a removal -/

/-- The hole holds a tree that is too low by one. -/
structure Shrunk (c : ACtx K V) (t : ATree K V) : Prop where
  balanced : t.Balanced
  fits : Suits c (t.height + 1)

/-- The side of the hole is known, from before or from the links. -/
def SideKnown (special : Option Bool) (c : ACtx K V) (t : ATree K V) : Prop :=
  ∀ f up, c = f :: up →
    special.getD (decide (rootOf t = (frameNode f (rootOf t)).left)) = f.left

theorem At.side (h : At size s c t) (ht : t ≠ .nil) : SideKnown none c t := by
  rintro f up rfl
  rw [Option.getD_none]
  simp only [h.isLeft ht, Bool.decide_eq_true]

/-- What the loop ends in from a path. -/
def RemovesFrom (size fuel : Nat) (s : Pool K V) (c : ACtx K V) (t : ATree K V)
    (special : Option Bool) : Prop :=
  ∃ c' t' s', Rust.removeRebalance (fields size) fuel (path c (rootOf t)) special s =
    .ok (path c' (rootOf t'), s') ∧ Settled size s (plug c t) s' c' t'

/-- The right sibling is too high: it is raised, or its left child is. -/
theorem remove_left {fuel n : Nat} (h : At size s (f :: up) t) (hl : f.left = true) (ht : t.Balanced)
    (hn : t.height = n) (hsib : f.sib.Balanced) (hhigh : f.sib.height = n + 2) (hup : Suits up (n + 3))
    (ih : ∀ {s1 : Pool K V} {t1 : ATree K V}, At size s1 up t1 → t1 ≠ .nil → Shrunk up t1 →
      RemovesFrom size fuel s1 up t1 none) :
    ∃ c' t' s', (do
        let sib ← ((fields size).right (f.a.id - 1)).read
        let sibN ← Rust.node (fields size) sib
        let sibBal ← ((fields size).balance sibN).read
        if sibBal < 0 then do
          let leftChild ← ((fields size).left sibN).read
          Rust.rotRightLeft (fields size) f.a.id sib leftChild
          Rust.replaceChild (fields size) (path up leftChild) up.length f.a.id leftChild
          if sibBal = 0 then pure (path up leftChild)
          else Rust.removeRebalance (fields size) fuel (path up leftChild) none
        else do
          Rust.rotLeft (fields size) f.a.id sib
          Rust.replaceChild (fields size) (path up sib) up.length f.a.id sib
          if sibBal = 0 then pure (path up sib)
          else Rust.removeRebalance (fields size) fuel (path up sib) none :
        M (Pool K V) (List Nat)) s = .ok (path c' (rootOf t'), s') ∧
      Settled size s (plug (f :: up) t) s' c' t' := by
  obtain ⟨-, hfn⟩ := h.frame
  obtain ⟨fa, fb, sib, left⟩ := f
  obtain rfl : left = true := hl
  have hhigh : sib.height = n + 2 := hhigh
  obtain ⟨l, a, b, r, rfl⟩ := AvlTree.exists_node (t := sib) (by omega)
  have hin : Inside size s (.node t fa fb (.node l a b r)) := (at_cons.mp h).inside
  have hai : InPool s a.id := hin.inPool _ (by simp)
  have han : s.at size a.id = a.node (rootOf l) (rootOf r) b := hin.tree.2.2.1
  obtain ⟨hlb, hrb, hb, h1, h2⟩ := hsib
  rw [AvlTree.height_node] at hhigh
  rw [bind_right, hfn, frameNode_left rfl, node_right, rootOf_node, bind_node _ hai, bind_balance, han,
    node_balance]
  by_cases hneg : b < 0
  · obtain ⟨m, x, bx, k, rfl⟩ := AvlTree.exists_node (t := l) (by omega)
    obtain ⟨hmb, hkb, hbx, hx1, hx2⟩ := hlb
    rw [AvlTree.height_node] at hb hhigh
    obtain ⟨s1, hrun, hturn⟩ := rotRightLeft_run hin
    obtain ⟨hbal, hheight⟩ := AvlTree.balanced_double (l := t) (a := fa) (x := x) (p := a) (u := r)
      ht hmb hkb hrb hbx hx1 hx2 (by omega) (by omega)
    obtain ⟨s2, hrun2, hat, ho, hlist⟩ := Turned.hang (f := ⟨fa, fb, _, true⟩) hturn h x.id
    obtain ⟨c', t', s', hrun3, hset⟩ := ih hat (by simp) ⟨hbal, by
      rw [hheight, hn]
      exact hup⟩
    rw [rootOf_node] at hrun2 hrun3
    rw [if_pos hneg, bind_left, han, node_left, rootOf_node, run_bind hrun, run_bind hrun2,
      if_neg (by omega)]
    exact ⟨c', t', s', hrun3, hset.trans ho hlist⟩
  · obtain ⟨s1, hrun, hturn⟩ := rotLeft_run hin
    obtain ⟨hbal, hheight⟩ := AvlTree.balanced_left (l := l) (a := a) (r := r) (p := fa) (u := t)
      hlb hrb ht hb (by omega) (by omega)
    obtain ⟨s2, hrun2, hat, ho, hlist⟩ := Turned.hang (f := ⟨fa, fb, _, true⟩) hturn h a.id
    rw [rootOf_node] at hrun2
    rw [if_neg hneg, run_bind hrun, run_bind hrun2]
    by_cases h0 : b = 0
    · rw [if_pos h0]
      refine ⟨up, _, s2, rfl, hat, balanced_plug.mpr ⟨hbal, ?_⟩, hlist, ho⟩
      rw [hheight, if_pos h0, show r.height + 2 = n + 3 by omega]
      exact hup
    · obtain ⟨c', t', s', hrun3, hset⟩ := ih hat (by simp) ⟨hbal, by
        rw [hheight, if_neg h0, show r.height + 1 + 1 = n + 3 by omega]
        exact hup⟩
      rw [rootOf_node] at hrun3
      rw [if_neg h0]
      exact ⟨c', t', s', hrun3, hset.trans ho hlist⟩

/-- The left sibling is too high: it is raised, or its right child is. -/
theorem remove_right {fuel n : Nat} (h : At size s (f :: up) t) (hl : f.left = false) (ht : t.Balanced)
    (hn : t.height = n) (hsib : f.sib.Balanced) (hhigh : f.sib.height = n + 2) (hup : Suits up (n + 3))
    (ih : ∀ {s1 : Pool K V} {t1 : ATree K V}, At size s1 up t1 → t1 ≠ .nil → Shrunk up t1 →
      RemovesFrom size fuel s1 up t1 none) :
    ∃ c' t' s', (do
        let sib ← ((fields size).left (f.a.id - 1)).read
        let sibN ← Rust.node (fields size) sib
        let sibBal ← ((fields size).balance sibN).read
        if sibBal > 0 then do
          let rightChild ← ((fields size).right sibN).read
          Rust.rotLeftRight (fields size) f.a.id sib rightChild
          Rust.replaceChild (fields size) (path up rightChild) up.length f.a.id rightChild
          if sibBal = 0 then pure (path up rightChild)
          else Rust.removeRebalance (fields size) fuel (path up rightChild) none
        else do
          Rust.rotRight (fields size) f.a.id sib
          Rust.replaceChild (fields size) (path up sib) up.length f.a.id sib
          if sibBal = 0 then pure (path up sib)
          else Rust.removeRebalance (fields size) fuel (path up sib) none :
        M (Pool K V) (List Nat)) s = .ok (path c' (rootOf t'), s') ∧
      Settled size s (plug (f :: up) t) s' c' t' := by
  obtain ⟨-, hfn⟩ := h.frame
  obtain ⟨fa, fb, sib, left⟩ := f
  obtain rfl : left = false := hl
  have hhigh : sib.height = n + 2 := hhigh
  obtain ⟨l, a, b, r, rfl⟩ := AvlTree.exists_node (t := sib) (by omega)
  have hin : Inside size s (.node (.node l a b r) fa fb t) := (at_cons.mp h).inside
  have hai : InPool s a.id := hin.inPool _ (by simp)
  have han : s.at size a.id = a.node (rootOf l) (rootOf r) b := hin.tree.2.1.1
  obtain ⟨hlb, hrb, hb, h1, h2⟩ := hsib
  rw [AvlTree.height_node] at hhigh
  rw [bind_left, hfn, frameNode_right rfl, node_left, rootOf_node, bind_node _ hai, bind_balance, han,
    node_balance]
  by_cases hpos : b > 0
  · obtain ⟨m, x, bx, k, rfl⟩ := AvlTree.exists_node (t := r) (by omega)
    obtain ⟨hmb, hkb, hbx, hx1, hx2⟩ := hrb
    rw [AvlTree.height_node] at hb hhigh
    obtain ⟨s1, hrun, hturn⟩ := rotLeftRight_run hin
    obtain ⟨hbal, hheight⟩ := AvlTree.balanced_double (l := l) (a := a) (x := x) (p := fa) (u := t)
      hlb hmb hkb ht hbx hx1 hx2 (by omega) (by omega)
    obtain ⟨s2, hrun2, hat, ho, hlist⟩ := Turned.hang (f := ⟨fa, fb, _, false⟩) hturn h x.id
    obtain ⟨c', t', s', hrun3, hset⟩ := ih hat (by simp) ⟨hbal, by
      rw [hheight, show l.height + 2 + 1 = n + 3 by omega]
      exact hup⟩
    rw [rootOf_node] at hrun2 hrun3
    rw [if_pos hpos, bind_right, han, node_right, rootOf_node, run_bind hrun, run_bind hrun2,
      if_neg (by omega)]
    exact ⟨c', t', s', hrun3, hset.trans ho hlist⟩
  · obtain ⟨s1, hrun, hturn⟩ := rotRight_run hin
    obtain ⟨hbal, hheight⟩ := AvlTree.balanced_right (l := l) (a := a) (r := r) (p := fa) (u := t)
      hlb hrb ht hb (by omega) (by omega)
    obtain ⟨s2, hrun2, hat, ho, hlist⟩ := Turned.hang (f := ⟨fa, fb, _, false⟩) hturn h a.id
    rw [rootOf_node] at hrun2
    rw [if_neg hpos, run_bind hrun, run_bind hrun2]
    by_cases h0 : b = 0
    · rw [if_pos h0]
      refine ⟨up, _, s2, rfl, hat, balanced_plug.mpr ⟨hbal, ?_⟩, hlist, ho⟩
      rw [hheight, if_pos h0, show l.height + 2 = n + 3 by omega]
      exact hup
    · obtain ⟨c', t', s', hrun3, hset⟩ := ih hat (by simp) ⟨hbal, by
        rw [hheight, if_neg h0, show l.height + 1 + 1 = n + 3 by omega]
        exact hup⟩
      rw [rootOf_node] at hrun3
      rw [if_neg h0]
      exact ⟨c', t', s', hrun3, hset.trans ho hlist⟩

/-- The balance of the parent is written, and the loop goes on if it is zero. -/
theorem remove_write {fuel : Nat} {x : Int} (h : At size s (f :: up) t)
    (hbal : (Frame.plug { f with b := x } t).Balanced)
    (hstop : x ≠ 0 → Suits up (Frame.plug { f with b := x } t).height)
    (hgo : x = 0 → Suits up ((Frame.plug { f with b := x } t).height + 1))
    (ih : ∀ {s1 : Pool K V} {t1 : ATree K V}, At size s1 up t1 → t1 ≠ .nil → Shrunk up t1 →
      RemovesFrom size fuel s1 up t1 none) :
    ∃ c' t' s', (do
        ((fields size).balance (f.a.id - 1)).write x
        if x ≠ 0 then pure (path (f :: up) (rootOf t))
        else Rust.removeRebalance (fields size) fuel (path (f :: up) (rootOf t)).dropLast none :
          M (Pool K V) (List Nat)) s = .ok (path c' (rootOf t'), s') ∧
      Settled size s (plug (f :: up) t) s' c' t' := by
  rw [bind_set_balance]
  by_cases hx : x = 0
  · have hne : Frame.plug { f with b := x } t ≠ .nil := by
      unfold Frame.plug
      split <;> simp
    obtain ⟨c', t', s', hrun, hset⟩ := ih (h.setBalance x).1 hne ⟨hbal, hgo hx⟩
    rw [rootOf_plug] at hrun
    rw [if_neg (not_not.mpr hx), dropLast_path_cons]
    exact ⟨c', t', s', hrun, hset.above h⟩
  · rw [if_pos hx]
    exact ⟨{ f with b := x } :: up, t, _, rfl, Settled.stop h x hbal (hstop hx)⟩

theorem removeRebalance_run (fuel : Nat) : ∀ {c : ACtx K V} {t : ATree K V} {s : Pool K V}
    {special : Option Bool}, At size s c t → Shrunk c t → SideKnown special c t → c.length ≤ fuel →
    RemovesFrom size fuel s c t special := by
  induction fuel with
  | zero =>
    intro c t s special h hs hside hc
    obtain rfl := List.eq_nil_of_length_eq_zero (Nat.le_zero.mp hc)
    exact ⟨[], t, s, rfl, h, hs.balanced, rfl, .refl s⟩
  | succ fuel ih =>
    intro c t s special h hs hside hc
    cases c with
    | nil => exact ⟨[], t, s, rfl, h, hs.balanced, rfl, .refl s⟩
    | cons f up =>
      obtain ⟨hfi, hfn⟩ := h.frame
      have ih' : ∀ {s1 : Pool K V} {t1 : ATree K V}, At size s1 up t1 → t1 ≠ .nil → Shrunk up t1 →
          RemovesFrom size fuel s1 up t1 none :=
        fun h1 hne hs1 => ih h1 hs1 (h1.side hne) (Nat.le_of_succ_le_succ hc)
      obtain ⟨hsib, hfb, h1, h2, hup⟩ := hs.fits
      unfold RemovesFrom Rust.removeRebalance
      rw [if_neg (by simp), top_path, second_path, bind_node _ hfi, bind_left, hfn, bind_balance, hfn,
        frameNode_balance]
      simp only [hside f up rfl, length_path, List.length_cons, drop_two_path]
      by_cases hl : f.left = true
      · have hplug : ∀ x, Frame.plug { f with b := x } t = .node t f.a x f.sib := fun x => if_pos hl
        rw [Frame.balance, if_pos hl] at hfb
        rw [if_pos hl, bmod_balance ⟨h1, h2⟩ ⟨by decide, by decide⟩]
        by_cases hb : f.b = 1
        · rw [if_neg (by omega), if_pos (by omega)]
          refine remove_left h hl hs.balanced rfl hsib (by omega) ?_ ih'
          rw [show t.height + 3 = max (t.height + 1) f.sib.height + 1 by omega]
          exact hup
        · rw [if_neg (by omega), if_neg (by omega)]
          refine remove_write h ?_ (fun hx => ?_) (fun hx => ?_) ih'
          · rw [hplug]
            exact ⟨hs.balanced, hsib, by omega, by omega, by omega⟩
          · rw [hplug, AvlTree.height_node,
              show max t.height f.sib.height = max (t.height + 1) f.sib.height by omega]
            exact hup
          · rw [hplug, AvlTree.height_node,
              show max t.height f.sib.height + 1 = max (t.height + 1) f.sib.height by omega]
            exact hup
      · have hplug : ∀ x, Frame.plug { f with b := x } t = .node f.sib f.a x t := fun x => if_neg hl
        rw [Frame.balance, if_neg hl] at hfb
        rw [if_neg hl, bmod_balance ⟨h1, h2⟩ ⟨by decide, by decide⟩]
        by_cases hb : f.b = -1
        · rw [if_pos (by omega)]
          refine remove_right h (by simpa using hl) hs.balanced rfl hsib (by omega) ?_ ih'
          rw [show t.height + 3 = max (t.height + 1) f.sib.height + 1 by omega]
          exact hup
        · rw [if_neg (by omega), if_neg (by omega)]
          refine remove_write h ?_ (fun hx => ?_) (fun hx => ?_) ih'
          · rw [hplug]
            exact ⟨hsib, hs.balanced, by omega, by omega, by omega⟩
          · rw [hplug, AvlTree.height_node,
              show max f.sib.height t.height = max (t.height + 1) f.sib.height by omega]
            exact hup
          · rw [hplug, AvlTree.height_node,
              show max f.sib.height t.height + 1 = max (t.height + 1) f.sib.height by omega]
            exact hup

end GenVM.Storage.AvlMap
