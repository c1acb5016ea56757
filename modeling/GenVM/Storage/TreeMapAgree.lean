import GenVM.Storage.TreeMap

/-!
# The two AVL maps take the same steps

Wherever both SDKs survive an operation on a map they read and write the
same fields with the same values, so they leave the same state. They differ
in when the root is written, in how a parent link is found after a rotation,
in the order a new node is filled, and in what an out-of-range index does.

**Results.**
* `insert_agree`: Rust `insert` and Python `__setitem__`.
* `remove_agree`: Rust `remove` and Python `__delitem__`.
-/
namespace GenVM.Storage.TreeMap

open Agree

variable {σ K V : Type}

/-- What the ports rely on of the fields: lengths are four bytes wide, the
root reads back and may be rewritten, and filling the value of a node is
independent of its links. -/
structure Laws (F : Fields σ K V) : Prop where
  slotsLen_lt : ∀ {s n}, F.slotsLen.get s = .ok n → n < 2 ^ 32
  root_same : ∀ {s r}, F.root.get s = .ok r → F.root.set r s = .ok s
  root_get : ∀ {s r s1}, F.root.set r s = .ok s1 → F.root.get s1 = .ok r
  fill : ∀ {s s1 s2 : σ} {n : Nat} {v : V},
    ((F.left n).write 0 >>= fun _ => (F.right n).write 0 >>= fun _ =>
      (F.balance n).write 0 >>= fun _ => (F.value n).write v : M σ Unit) s = .ok ((), s1) →
    ((F.value n).write v >>= fun _ => (F.left n).write 0 >>= fun _ =>
      (F.right n).write 0 >>= fun _ => (F.balance n).write 0 : M σ Unit) s = .ok ((), s2) →
    s1 = s2

theorem read_ok {α : Type} {c : Cell σ α} {s s1 : σ} {a : α} (h : c.read s = .ok (a, s1)) :
    c.get s = .ok a ∧ s = s1 := by
  unfold Cell.read at h
  cases hg : c.get s with
  | error e => rw [hg] at h; cases h
  | ok b =>
    rw [hg] at h
    cases h
    exact ⟨rfl, rfl⟩

theorem write_ok {α : Type} {c : Cell σ α} {s s1 : σ} {a : α} {u : Unit}
    (h : c.write a s = .ok (u, s1)) : c.set a s = .ok s1 := by
  unfold Cell.write at h
  cases hg : c.set a s with
  | error e => rw [hg] at h; cases h
  | ok b =>
    rw [hg] at h
    cases h
    rfl

/-! ## Indices -/

theorem node_agree (F : Fields σ K V) (s : σ) (idx : Nat) :
    At s (Rust.node F idx) (Py.node F idx) := by
  unfold Rust.node Py.node Rust.index Py.mapIndex
  by_cases h0 : idx = 0
  · rw [if_pos h0]
    exact Rel.throw_left
  · rw [if_neg h0]
    refine At.bind_left _ fun n s1 _ => ?_
    dsimp only
    by_cases hlt : idx - 1 < n
    · rw [if_pos hlt, if_neg (by omega), if_neg (by omega)]
      exact At.of_eq (by congr 1; omega)
    · rw [if_neg hlt]
      exact Rel.throw_left

/-- A node that was reached lies in the pool. -/
theorem node_ok {F : Fields σ K V} {s s1 : σ} {idx n : Nat} (h : Rust.node F idx s = .ok (n, s1)) :
    idx ≠ 0 ∧ n = idx - 1 ∧ s = s1 ∧ ∃ len, F.slotsLen.get s = .ok len ∧ n < len := by
  unfold Rust.node Rust.index at h
  by_cases h0 : idx = 0
  · rw [if_pos h0] at h
    exact absurd h throw_ok
  · rw [if_neg h0] at h
    obtain ⟨len, s2, hr, h⟩ := bind_ok.mp h
    obtain ⟨hget, rfl⟩ := read_ok hr
    split at h
    · rename_i hlt
      obtain ⟨rfl, rfl⟩ := pure_ok.mp h
      exact ⟨h0, rfl, rfl, len, hget, hlt⟩
    · exact absurd h throw_ok

theorem pop_agree (len : Cell σ Nat) (s : σ) : At s (Rust.pop len) (Py.pop len) := by
  unfold Rust.pop Py.pop
  refine At.bind_left _ fun n s1 _ => ?_
  by_cases h0 : n = 0
  · rw [if_pos h0, if_pos h0]
    exact Rel.throw_left
  · rw [if_neg h0, if_neg h0]
    exact At.refl _ _

theorem append_agree (len : Cell σ Nat) (s : σ) :
    At s (Rust.appendSlot len) (Py.appendNewGet len) := by
  unfold Rust.appendSlot Py.appendNewGet
  refine At.bind_left _ fun n s1 _ => ?_
  by_cases hlt : n + 1 < 2 ^ 32
  · rw [if_pos hlt, Nat.mod_eq_of_lt hlt]
    exact At.refl _ _
  · rw [if_neg hlt]
    exact Rel.throw_right

theorem index_agree (len : Cell σ Nat) (s : σ) (idx : Nat) :
    At s (Rust.index len idx) (Py.mapIndex len idx) := by
  unfold Rust.index Py.mapIndex
  refine At.bind_left _ fun n s1 _ => ?_
  dsimp only
  by_cases hlt : idx < n
  · rw [if_pos hlt, if_neg (by omega), if_neg (by omega)]
    exact At.of_eq (by congr 1)
  · rw [if_neg hlt]
    exact Rel.throw_left

theorem alloc_agree (F : Fields σ K V) (s : σ) : At s (Rust.allocSlot F) (Py.allocSlot F) := by
  unfold Rust.allocSlot Py.allocSlot
  refine At.bind_left _ fun n s1 hn => ?_
  obtain ⟨hget, rfl⟩ := read_ok hn
  by_cases h0 : n = 0
  · rw [if_neg (by omega), if_neg (by omega)]
    exact append_agree _ _
  · rw [if_pos h0, if_pos (by omega)]
    refine At.bind ?_ fun last s2 _ _ => ?_
    · -- the last entry, by its index or counted from the end
      unfold Rust.index Py.mapIndex
      refine At.bind_left _ fun n' s2 hn' => ?_
      obtain ⟨hget', rfl⟩ := read_ok hn'
      rw [hget] at hget'
      cases hget'
      have hidx : (if (-1 : Int) < 0 then -1 + (n : Int) else -1) = ((n - 1 : Nat) : Int) := by
        rw [if_pos (by omega)]
        omega
      rw [if_pos (show n - 1 < n by omega), hidx, if_neg (by omega), Int.toNat_natCast]
      exact At.refl _ _
    · refine At.bind_left _ fun idx s3 _ => ?_
      refine At.bind (pop_agree _ _) fun _ s4 _ _ => ?_
      exact index_agree _ _ _

theorem free_agree {F : Fields σ K V} (hF : Laws F) {s : σ} {slot len : Nat}
    (hlen : F.slotsLen.get s = .ok len) (hlt : slot < len) :
    At s (Rust.freeSlot F slot) (Py.freeSlot F slot) := by
  unfold Rust.freeSlot Py.freeSlot
  refine At.bind_left _ fun n s1 hn => ?_
  have hbound := hF.slotsLen_lt hlen
  rw [Nat.mod_eq_of_lt (by omega)]
  by_cases he : slot + 1 = n
  · rw [if_pos he, if_pos he]
    exact pop_agree _ _
  · rw [if_neg he, if_neg he]
    exact At.bind (append_agree _ _) fun i s2 _ _ => At.refl _ _

/-! ## Shared bodies over agreeing index checks -/

section Shared

variable (F : Fields σ K V) {node node' : Nat → M σ Nat}
  (hnode : ∀ s idx, At s (node idx) (node' idx))

include hnode

theorem rotLeft_agree (s : σ) (par cur : Nat) :
    At s (rotLeftWith F node par cur) (rotLeftWith F node' par cur) := by
  unfold rotLeftWith
  refine At.bind (hnode _ _) fun parN s1 _ _ => ?_
  refine At.bind (hnode _ _) fun curN s2 _ _ => ?_
  exact At.refl _ _

theorem rotRight_agree (s : σ) (par cur : Nat) :
    At s (rotRightWith F node par cur) (rotRightWith F node' par cur) := by
  unfold rotRightWith
  refine At.bind (hnode _ _) fun parN s1 _ _ => ?_
  refine At.bind (hnode _ _) fun curN s2 _ _ => ?_
  exact At.refl _ _

theorem rotRightLeft_agree (s : σ) (gpar par cur : Nat) :
    At s (rotRightLeftWith F node gpar par cur) (rotRightLeftWith F node' gpar par cur) := by
  unfold rotRightLeftWith
  refine At.bind (hnode _ _) fun gparN s1 _ _ => ?_
  refine At.bind (hnode _ _) fun parN s2 _ _ => ?_
  refine At.bind (hnode _ _) fun curN s3 _ _ => ?_
  exact At.refl _ _

theorem rotLeftRight_agree (s : σ) (gpar par cur : Nat) :
    At s (rotLeftRightWith F node gpar par cur) (rotLeftRightWith F node' gpar par cur) := by
  unfold rotLeftRightWith
  refine At.bind (hnode _ _) fun gparN s1 _ _ => ?_
  refine At.bind (hnode _ _) fun parN s2 _ _ => ?_
  refine At.bind (hnode _ _) fun curN s3 _ _ => ?_
  exact At.refl _ _

/-- The walks agree whatever fuel each was given. -/
theorem findPath_agree [LT K] [DecidableLT K] (k : K) (fuel fuel' : Nat) (s : σ)
    (path : List Nat) (cur : Nat) (isLess : Bool) :
    At s (findPathWith F node k fuel path cur isLess)
      (findPathWith F node' k fuel' path cur isLess) := by
  induction fuel generalizing fuel' s path cur isLess with
  | zero => exact Rel.throw_left
  | succ fuel ih =>
    cases fuel' with
    | zero => exact Rel.throw_right
    | succ fuel' =>
      unfold findPathWith
      by_cases h0 : cur = 0
      · rw [if_pos h0, if_pos h0]
        exact At.refl _ _
      · rw [if_neg h0, if_neg h0]
        refine At.bind (hnode _ _) fun n s1 _ _ => ?_
        refine At.bind_left _ fun nk s2 _ => ?_
        by_cases hl : k < nk
        · rw [if_pos hl, if_pos hl]
          exact At.bind_left _ fun next s3 _ => ih _ _ _ _ _
        · rw [if_neg hl, if_neg hl]
          by_cases hg : nk < k
          · rw [if_pos hg, if_pos hg]
            exact At.bind_left _ fun next s3 _ => ih _ _ _ _ _
          · rw [if_neg hg, if_neg hg]
            exact At.refl _ _

theorem leftmost_agree (fuel fuel' : Nat) (s : σ) (seq : List Nat) :
    At s (leftmostWith F node fuel seq) (leftmostWith F node' fuel' seq) := by
  induction fuel generalizing fuel' s seq with
  | zero => exact Rel.throw_left
  | succ fuel ih =>
    cases fuel' with
    | zero => exact Rel.throw_right
    | succ fuel' =>
      unfold leftmostWith
      refine At.bind (hnode _ _) fun n s1 _ _ => ?_
      refine At.bind_left _ fun l s2 _ => ?_
      by_cases h0 : l ≠ 0
      · rw [if_pos h0, if_pos h0]
        exact ih _ _ _
      · rw [if_neg h0, if_neg h0]
        exact At.refl _ _

theorem setChild_agree (s : σ) (parent : Nat) (isLeft : Bool) (child : Nat) :
    At s (setChildWith F node parent isLeft child) (setChildWith F node' parent isLeft child) := by
  unfold setChildWith
  exact At.bind (hnode _ _) fun n s1 _ _ => At.refl _ _

theorem linkMoved_agree (s : σ) (seq : List Nat) (seqMoveTo : Nat) (isLeft : Bool) :
    At s (linkMovedWith F node seq seqMoveTo isLeft)
      (linkMovedWith F node' seq seqMoveTo isLeft) := by
  unfold linkMovedWith
  by_cases h : seqMoveTo > 0
  · rw [if_pos h, if_pos h]
    exact setChild_agree F hnode _ _ _ _
  · rw [if_neg h, if_neg h]
    exact At.refl _ _

theorem patchBalance_agree (s : σ) (moved : Nat) (specialNull : Bool) (delBalance : Int) :
    At s (patchBalanceWith F node moved specialNull delBalance)
      (patchBalanceWith F node' moved specialNull delBalance) := by
  unfold patchBalanceWith
  by_cases h : moved ≠ 0
  · rw [if_pos h, if_pos h]
    exact At.bind (hnode _ _) fun n s1 _ _ => At.refl _ _
  · rw [if_neg h, if_neg h]
    exact At.refl _ _

theorem splice_agree (fuel fuel' : Nat) (s : σ) (seq : List Nat) (delLeft delRight : Nat) :
    At s (spliceWith F node fuel seq delLeft delRight)
      (spliceWith F node' fuel' seq delLeft delRight) := by
  unfold spliceWith
  dsimp only
  by_cases h : delLeft = 0 ∨ delRight = 0
  · rw [if_pos h, if_pos h]
    exact At.refl _ _
  · rw [if_neg h, if_neg h]
    refine At.bind (leftmost_agree F hnode _ _ _ _) fun seq' s1 _ _ => ?_
    refine At.bind (hnode _ _) fun repN s2 _ _ => ?_
    refine At.bind_left _ fun _ s3 _ => ?_
    by_cases hm : seq.length - 1 + 2 ≠ (seq'.set (seq.length - 1) (top seq')).length
    · rw [if_pos hm, if_pos hm]
      refine At.bind (hnode _ _) fun parentN s4 _ _ => ?_
      exact At.refl _ _
    · rw [if_neg hm, if_neg hm]
      exact At.refl _ _

end Shared

/-! ## A new node -/

theorem init_agree {F : Fields σ K V} (hF : Laws F) (s : σ) (n : Nat) (k : K) (v : V) :
    At s (Rust.initNode F n k v) (Py.initNode F n k v) := by
  unfold Rust.initNode Py.initNode
  refine At.bind_left _ fun _ s1 _ => ?_
  intro _ s2 _ s3 h1 h2
  exact ⟨rfl, hF.fill h1 h2⟩

/-! ## Links after a rotation -/

/-- Ends that the last check of the root brings together. -/
def SameRoot (F : Fields σ K V) (a : List Nat) (s1 : σ) (b : List Nat) (s2 : σ) : Prop :=
  a = b ∧ ∀ u r1 w r2, fixRoot F a s1 = .ok (u, r1) → fixRoot F b s2 = .ok (w, r2) → r1 = r2

theorem sameRoot_refl {F : Fields σ K V} (s : σ) (p : M σ (List Nat)) :
    Rel s p p (SameRoot F) := by
  intro a s1 b s2 h1 h2
  obtain ⟨rfl, rfl⟩ := At.refl s p a s1 b s2 h1 h2
  refine ⟨rfl, ?_⟩
  intro u r1 w r2 e1 e2
  rw [e1] at e2
  cases e2
  rfl

/-- Writing the root at once or when the loop has ended. -/
theorem root_agree {F : Fields σ K V} (hF : Laws F) (s : σ) (x : Nat) :
    Rel s (F.root.write x >>= fun _ => pure [x]) (pure [x]) (SameRoot F) := by
  intro a s1 b s2 h1 h2
  obtain ⟨u, s3, hw, h1⟩ := bind_ok.mp h1
  obtain ⟨rfl, rfl⟩ := pure_ok.mp h1
  obtain ⟨rfl, rfl⟩ := pure_ok.mp h2
  refine ⟨rfl, ?_⟩
  intro u r1 w r2 e1 e2
  have hset := write_ok hw
  have hget := hF.root_get hset
  -- after the early write there is nothing left to fix
  unfold fixRoot at e1 e2
  obtain ⟨r, s4, hr, e1⟩ := bind_ok.mp e1
  obtain ⟨hrg, rfl⟩ := read_ok hr
  rw [hget] at hrg
  cases hrg
  rw [if_neg (by simp)] at e1
  obtain ⟨-, rfl⟩ := pure_ok.mp e1
  obtain ⟨r, s4, hr, e2⟩ := bind_ok.mp e2
  obtain ⟨hrg, rfl⟩ := read_ok hr
  by_cases hx : r ≠ [x].headD 0
  · rw [if_pos hx] at e2
    have hset2 := write_ok e2
    rw [List.headD_cons, hset] at hset2
    exact Except.ok.inj hset2
  · rw [if_neg hx] at e2
    obtain ⟨-, rfl⟩ := pure_ok.mp e2
    have hrx : r = x := by
      simpa using hx
    rw [hrx] at hrg
    rw [hF.root_same hrg] at hset
    exact (Except.ok.inj hset).symm

/-- The entry before the rotated pair is the grandparent on either path. -/
theorem getD_grandparent {seq : List Nat} (h : 2 < seq.length) (x : Nat) :
    (seq.dropLast.dropLast ++ [x]).getD (seq.length - 2 - 1) 0 = seq.getD (seq.length - 3) 0 := by
  rw [List.getD_eq_getElem?_getD, List.getD_eq_getElem?_getD,
    List.getElem?_append_left (by simp; omega), List.getElem?_dropLast, List.getElem?_dropLast,
    if_pos (by simp; omega), if_pos (by omega)]
  rfl

theorem drop_two {seq : List Nat} (h : seq.length = 2) (x : Nat) :
    seq.dropLast.dropLast ++ [x] = [x] := by
  have hnil : seq.dropLast.dropLast = [] := by
    rw [← List.length_eq_zero_iff]
    simp
    omega
  rw [hnil]
  rfl

/-- No node has index zero. -/
theorem node_zero {F : Fields σ K V} {β : Type} {f : Nat → M σ β} {s : σ} {q : M σ β}
    {R : β → σ → β → σ → Prop} : Rel s (Rust.node F 0 >>= f) q R := by
  intro a s1 b s2 h1 _
  obtain ⟨n, s3, hn, -⟩ := bind_ok.mp h1
  exact absurd rfl (node_ok hn).1

theorem relinkInsert_agree (F : Fields σ K V) (s : σ) {seq : List Nat} (par x : Nat)
    (h : 2 < seq.length) :
    At s (Rust.replaceChild F (seq.dropLast.dropLast ++ [x]) (seq.length - 2) par x)
      (Py.relinkInsert F (Py.grandparent seq) par x) := by
  have hgp : Py.grandparent seq = seq.getD (seq.length - 3) 0 := by
    unfold Py.grandparent
    rw [if_neg (by omega)]
  unfold Rust.replaceChild Py.relinkInsert
  rw [if_neg (by omega), getD_grandparent h x, hgp]
  by_cases h0 : seq.getD (seq.length - 3) 0 = 0
  · rw [h0]
    exact node_zero
  · rw [if_pos h0]
    exact At.bind (node_agree F _ _) fun g s1 _ _ => At.refl _ _

theorem relinkRemove_agree (F : Fields σ K V) (s : σ) {seq : List Nat} (par x : Nat)
    (h : 2 < seq.length) :
    At s (Rust.replaceChild F (seq.dropLast.dropLast ++ [x]) (seq.length - 2) par x)
      (Py.relinkRemove F (Py.grandparent seq) par x) := by
  have hgp : Py.grandparent seq = seq.getD (seq.length - 3) 0 := by
    unfold Py.grandparent
    rw [if_neg (by omega)]
  unfold Rust.replaceChild Py.relinkRemove
  rw [if_neg (by omega), getD_grandparent h x, hgp]
  by_cases h0 : seq.getD (seq.length - 3) 0 = 0
  · rw [h0]
    exact node_zero
  · rw [if_pos h0]
    refine At.bind (node_agree F _ _) fun g s1 _ _ => ?_
    refine At.bind_left _ fun l s2 _ => ?_
    by_cases hl : l = par
    · rw [if_pos hl, if_pos hl]
      exact At.refl _ _
    · -- the assertion only rules runs out
      rw [if_neg hl, if_neg hl]
      intro u s3 w s4 h1 h2
      obtain ⟨r, s5, hr, h2⟩ := bind_ok.mp h2
      obtain ⟨-, rfl⟩ := read_ok hr
      by_cases hp : r = par
      · rw [if_pos hp, h1] at h2
        cases h2
        exact ⟨rfl, rfl⟩
      · rw [if_neg hp] at h2
        exact absurd h2 throw_ok

/-- At the root the one writes it and the other leaves it to the end. -/
theorem relink_root {F : Fields σ K V} (hF : Laws F) (s : σ) {seq : List Nat} (par x : Nat)
    (h : seq.length = 2) :
    Rel s (Rust.replaceChild F (seq.dropLast.dropLast ++ [x]) (seq.length - 2) par x >>=
        fun _ => pure (seq.dropLast.dropLast ++ [x]))
      (pure (seq.dropLast.dropLast ++ [x])) (SameRoot F) := by
  unfold Rust.replaceChild
  rw [if_pos (by omega), drop_two h x]
  exact root_agree hF s x

/-! ## The loops and the operations -/

/-- After a rotation: the new link, and then what the loop goes on with,
which at the root is nothing. -/
theorem relink_agree {F : Fields σ K V} (hF : Laws F) {s : σ} {seq : List Nat} {par x : Nat}
    {relink : M σ Unit} {contR contP : M σ (List Nat)} (hlen : ¬ seq.length < 2)
    (hroot : seq.length = 2 → relink = pure ())
    (hinner : 2 < seq.length → At s
      (Rust.replaceChild F (seq.dropLast.dropLast ++ [x]) (seq.length - 2) par x) relink)
    (hend : seq.length = 2 → contR = pure (seq.dropLast.dropLast ++ [x]) ∧
      contP = pure (seq.dropLast.dropLast ++ [x]))
    (hcont : ∀ s1, Rel s1 contR contP (SameRoot F)) :
    Rel s (Rust.replaceChild F (seq.dropLast.dropLast ++ [x]) (seq.length - 2) par x >>=
        fun _ => contR)
      (relink >>= fun _ => contP) (SameRoot F) := by
  by_cases h2 : seq.length = 2
  · obtain ⟨hR, hP⟩ := hend h2
    rw [hroot h2, hR, hP, pure_bind]
    exact relink_root hF s par x h2
  · exact At.bind_rel (hinner (by omega)) fun _ s1 _ _ => hcont s1

theorem insertRebalance_agree {F : Fields σ K V} (hF : Laws F) (fuel : Nat) (s : σ)
    (seq : List Nat) :
    Rel s (Rust.insertRebalance F fuel seq) (Py.insertRebalance F fuel seq) (SameRoot F) := by
  induction fuel generalizing s seq with
  | zero => exact sameRoot_refl s _
  | succ fuel ih =>
    unfold Rust.insertRebalance Py.insertRebalance
    by_cases hlen : seq.length < 2
    · rw [if_pos hlen, if_pos hlen]
      exact sameRoot_refl s _
    · rw [if_neg hlen, if_neg hlen]
      dsimp only
      have hroot : ∀ x par, seq.length = 2 →
          Py.relinkInsert F (Py.grandparent seq) par x = pure () := by
        intro x par h2
        unfold Py.relinkInsert Py.grandparent
        rw [if_pos h2, if_neg (by simp)]
      have hrot : ∀ s1 x par, Rel s1
          (Rust.replaceChild F (seq.dropLast.dropLast ++ [x]) (seq.length - 2) par x >>=
            fun _ => pure (seq.dropLast.dropLast ++ [x]))
          (Py.relinkInsert F (Py.grandparent seq) par x >>=
            fun _ => pure (seq.dropLast.dropLast ++ [x])) (SameRoot F) := by
        intro s1 x par
        exact relink_agree hF hlen (hroot x par) (relinkInsert_agree F s1 par x)
          (fun _ => ⟨rfl, rfl⟩) fun s2 => sameRoot_refl s2 _
      refine At.bind_rel (node_agree F _ _) fun parN s1 _ _ => ?_
      refine Rel.bind_left _ fun l s2 _ => ?_
      refine Rel.bind_left _ fun b s3 _ => ?_
      generalize hnb : b + (if top seq = l then -1 else 1) = nb
      by_cases hrange : -128 ≤ nb ∧ nb < 128
      · have hmod : nb.bmod 256 = nb := by
          apply Int.bmod_eq_of_le
          · omega
          · omega
        rw [hmod]
        by_cases hm : nb = -2
        · rw [if_pos hm, if_pos hm]
          refine At.bind_rel (node_agree F _ _) fun curN s4 _ _ => ?_
          refine Rel.bind_left _ fun cb s5 _ => ?_
          by_cases hc : cb > 0
          · rw [if_pos hc, if_pos hc]
            refine Rel.bind_left _ fun rc s6 _ => ?_
            refine At.bind_rel (rotLeftRight_agree F (node_agree F) _ _ _ _) fun _ s7 _ _ => ?_
            exact hrot _ _ _
          · rw [if_neg hc, if_neg hc]
            refine At.bind_rel (rotRight_agree F (node_agree F) _ _ _) fun _ s6 _ _ => ?_
            exact hrot _ _ _
        · rw [if_neg hm, if_neg hm]
          by_cases hp : nb = 2
          · rw [if_pos hp, if_pos hp]
            refine At.bind_rel (node_agree F _ _) fun curN s4 _ _ => ?_
            refine Rel.bind_left _ fun cb s5 _ => ?_
            by_cases hc : cb < 0
            · rw [if_pos hc, if_pos hc]
              refine Rel.bind_left _ fun lc s6 _ => ?_
              refine At.bind_rel (rotRightLeft_agree F (node_agree F) _ _ _ _) fun _ s7 _ _ => ?_
              exact hrot _ _ _
            · rw [if_neg hc, if_neg hc]
              refine At.bind_rel (rotLeft_agree F (node_agree F) _ _ _) fun _ s6 _ _ => ?_
              exact hrot _ _ _
          · rw [if_neg hp, if_neg hp]
            unfold Py.writeBalance
            rw [if_pos hrange]
            refine Rel.bind_left _ fun _ s4 _ => ?_
            by_cases hz : nb = 0
            · rw [if_pos hz, if_pos hz]
              exact sameRoot_refl _ _
            · rw [if_neg hz, if_neg hz]
              exact ih _ _
      · -- a balance outside the field's range raises in Python
        have hm : nb ≠ -2 := by omega
        have hp : nb ≠ 2 := by omega
        intro a r1 c r2 _ h2
        rw [if_neg hm, if_neg hp] at h2
        obtain ⟨u, r3, hw, -⟩ := bind_ok.mp h2
        unfold Py.writeBalance at hw
        rw [if_neg hrange] at hw
        exact absurd hw throw_ok

/-- A path of one entry has no parent left to rebalance. -/
theorem removeRebalance_short (F : Fields σ K V) (fuel : Nat) {seq : List Nat}
    (h : seq.length < 2) :
    Rust.removeRebalance F fuel seq none = pure seq ∧
      Py.removeRebalance F fuel seq none = pure seq := by
  cases fuel with
  | zero => exact ⟨rfl, rfl⟩
  | succ fuel =>
    unfold Rust.removeRebalance Py.removeRebalance
    rw [if_pos h, if_pos h]
    exact ⟨rfl, rfl⟩

theorem removeRebalance_agree {F : Fields σ K V} (hF : Laws F) (fuel : Nat) (s : σ)
    (seq : List Nat) (special : Option Bool) :
    Rel s (Rust.removeRebalance F fuel seq special) (Py.removeRebalance F fuel seq special)
      (SameRoot F) := by
  induction fuel generalizing s seq special with
  | zero => exact sameRoot_refl s _
  | succ fuel ih =>
    unfold Rust.removeRebalance Py.removeRebalance
    by_cases hlen : seq.length < 2
    · rw [if_pos hlen, if_pos hlen]
      exact sameRoot_refl s _
    · rw [if_neg hlen, if_neg hlen]
      dsimp only
      have hroot : ∀ x par, seq.length = 2 →
          Py.relinkRemove F (Py.grandparent seq) par x = pure () := by
        intro x par h2
        unfold Py.relinkRemove Py.grandparent
        rw [if_pos h2, if_neg (by simp)]
      have hrot : ∀ s1 x par (sibBal : Int), Rel s1
          (Rust.replaceChild F (seq.dropLast.dropLast ++ [x]) (seq.length - 2) par x >>=
            fun _ => if sibBal = 0 then pure (seq.dropLast.dropLast ++ [x])
              else Rust.removeRebalance F fuel (seq.dropLast.dropLast ++ [x]) none)
          (Py.relinkRemove F (Py.grandparent seq) par x >>=
            fun _ => if sibBal = 0 then pure (seq.dropLast.dropLast ++ [x])
              else Py.removeRebalance F fuel (seq.dropLast.dropLast ++ [x]) none)
          (SameRoot F) := by
        intro s1 x par sibBal
        apply relink_agree hF hlen (hroot x par) (relinkRemove_agree F s1 par x)
        · intro h2
          have hshort : (seq.dropLast.dropLast ++ [x]).length < 2 := by
            rw [drop_two h2 x]
            exact Nat.lt_succ_self 1
          obtain ⟨hR, hP⟩ := removeRebalance_short F fuel hshort
          rw [hR, hP, ite_self]
          exact ⟨rfl, rfl⟩
        · intro s2
          by_cases hz : sibBal = 0
          · rw [if_pos hz, if_pos hz]
            exact sameRoot_refl _ _
          · rw [if_neg hz, if_neg hz]
            exact ih _ _ _
      refine At.bind_rel (node_agree F _ _) fun parN s1 _ _ => ?_
      refine Rel.bind_left _ fun l s2 _ => ?_
      refine Rel.bind_left _ fun b s3 _ => ?_
      have hdelta : ∀ c : Bool, (-(if c = true then (-1 : Int) else 1)) = if c = true then 1 else -1 := by
        intro c
        cases c <;> rfl
      rw [hdelta]
      generalize hnb : b + (if special.getD (decide (top seq = l)) = true then 1 else -1) = nb
      by_cases hrange : -128 ≤ nb ∧ nb < 128
      · have hmod : nb.bmod 256 = nb := by
          apply Int.bmod_eq_of_le
          · omega
          · omega
        rw [hmod]
        by_cases hm : nb = -2
        · rw [if_pos hm, if_pos hm]
          refine Rel.bind_left _ fun sib s4 _ => ?_
          refine At.bind_rel (node_agree F _ _) fun sibN s5 _ _ => ?_
          refine Rel.bind_left _ fun sibBal s6 _ => ?_
          by_cases hc : sibBal > 0
          · rw [if_pos hc, if_pos hc]
            refine Rel.bind_left _ fun rc s7 _ => ?_
            refine At.bind_rel (rotLeftRight_agree F (node_agree F) _ _ _ _) fun _ s8 _ _ => ?_
            exact hrot _ _ _ _
          · rw [if_neg hc, if_neg hc]
            refine At.bind_rel (rotRight_agree F (node_agree F) _ _ _) fun _ s7 _ _ => ?_
            exact hrot _ _ _ _
        · rw [if_neg hm, if_neg hm]
          by_cases hp : nb = 2
          · rw [if_pos hp, if_pos hp]
            refine Rel.bind_left _ fun sib s4 _ => ?_
            refine At.bind_rel (node_agree F _ _) fun sibN s5 _ _ => ?_
            refine Rel.bind_left _ fun sibBal s6 _ => ?_
            by_cases hc : sibBal < 0
            · rw [if_pos hc, if_pos hc]
              refine Rel.bind_left _ fun lc s7 _ => ?_
              refine At.bind_rel (rotRightLeft_agree F (node_agree F) _ _ _ _) fun _ s8 _ _ => ?_
              exact hrot _ _ _ _
            · rw [if_neg hc, if_neg hc]
              refine At.bind_rel (rotLeft_agree F (node_agree F) _ _ _) fun _ s7 _ _ => ?_
              exact hrot _ _ _ _
          · rw [if_neg hp, if_neg hp]
            unfold Py.writeBalance
            rw [if_pos hrange]
            refine Rel.bind_left _ fun _ s4 _ => ?_
            by_cases hz : nb ≠ 0
            · rw [if_pos hz, if_pos hz]
              exact sameRoot_refl _ _
            · rw [if_neg hz, if_neg hz]
              exact ih _ _ _
      · have hm : nb ≠ -2 := by omega
        have hp : nb ≠ 2 := by omega
        intro a r1 c r2 _ h2
        rw [if_neg hm, if_neg hp] at h2
        obtain ⟨u, r3, hw, -⟩ := bind_ok.mp h2
        unfold Py.writeBalance at hw
        rw [if_neg hrange] at hw
        exact absurd hw throw_ok

/-- The loop and the last check of the root, together. -/
theorem fixed_agree {F : Fields σ K V} {s : σ} {p q : M σ (List Nat)}
    (h : Rel s p q (SameRoot F)) :
    At s (p >>= fun seq => fixRoot F seq) (q >>= fun seq => fixRoot F seq) := by
  have hend : ∀ a s1 b s2, SameRoot F a s1 b s2 → ∀ u r1 w r2, fixRoot F a s1 = .ok (u, r1) →
      fixRoot F b s2 = .ok (w, r2) → u = w ∧ r1 = r2 := by
    intro a s1 b s2 hsame u r1 w r2 h1 h2
    obtain ⟨rfl, hroot⟩ := hsame
    exact ⟨rfl, hroot u r1 w r2 h1 h2⟩
  exact h.bind hend

/-- An index whose successor fits is what both SDKs write. -/
theorem child_agree {β : Type} {s : σ} (idx : Nat) {f g : Nat → M σ β}
    (h : idx + 1 < 2 ^ 32 → At s (f (idx + 1)) (g (idx + 1))) :
    At s (f ((idx + 1) % 2 ^ 32)) (Py.childIndex idx >>= g) := by
  unfold Py.childIndex
  by_cases hlt : idx + 1 < 2 ^ 32
  · rw [if_pos hlt, Nat.mod_eq_of_lt hlt, pure_bind]
    exact h hlt
  · rw [if_neg hlt]
    intro a s1 b s2 _ h2
    obtain ⟨c, s3, hc, -⟩ := bind_ok.mp h2
    exact absurd hc throw_ok

theorem findSeq_agree [LT K] [DecidableLT K] (F : Fields σ K V) (fuel fuel' : Nat) (k : K) (s : σ) :
    At s (Rust.findPath F fuel k) (Py.findSeq F fuel' k) :=
  At.bind_left _ fun _ _ _ => findPath_agree F (node_agree F) _ _ _ _ _ _ _

theorem insert_agree [LT K] [DecidableLT K] {F : Fields σ K V} (hF : Laws F) (fuel fuel' : Nat)
    (k : K) (v : V) (s : σ) : At s (Rust.insert F fuel k v) (Py.setItem F fuel' k v) := by
  unfold Rust.insert Py.setItem
  refine At.bind (findSeq_agree F _ _ _ _) fun found s2 _ _ => ?_
  obtain ⟨seq, isLeft⟩ := found
  dsimp only
  by_cases htop : top seq ≠ 0
  · rw [if_pos htop, if_pos htop]
    exact At.bind (node_agree F _ _) fun n s3 _ _ => At.refl _ _
  · rw [if_neg htop, if_neg htop]
    by_cases hone : seq.length = 1
    · rw [if_pos hone, if_pos hone]
      refine At.bind (alloc_agree F _) fun idx s3 _ _ => ?_
      refine child_agree idx (f := fun c => F.root.write c >>= fun _ => Rust.initNode F idx k v) ?_
      intro _
      exact At.bind_left _ fun _ s4 _ => init_agree hF _ _ _ _
    · rw [if_neg hone, if_neg hone]
      refine At.bind (alloc_agree F _) fun idx s3 _ _ => ?_
      refine child_agree idx (f := fun c =>
        setChildWith F (Rust.node F) (second seq) isLeft c >>= fun _ =>
          Rust.initNode F idx k v >>= fun _ =>
            Rust.insertRebalance F (seq.dropLast ++ [c]).length (seq.dropLast ++ [c]) >>=
              fun seq => fixRoot F seq) ?_
      intro _
      refine At.bind (setChild_agree F (node_agree F) _ _ _ _) fun _ s4 _ _ => ?_
      refine At.bind (init_agree hF _ _ _ _) fun _ s5 _ _ => ?_
      exact fixed_agree (insertRebalance_agree hF _ _ _)

/-- A removal in which neither fails finds the key, and Rust says so. -/
theorem remove_agree [LT K] [DecidableLT K] {F : Fields σ K V} (hF : Laws F) (fuel fuel' : Nat)
    (k : K) (s : σ) :
    At s (Rust.remove F fuel k) (Py.delItem F fuel' k >>= fun _ => pure true) := by
  unfold Rust.remove Py.delItem
  simp only [bind_assoc]
  refine At.bind (findSeq_agree F _ _ _ _) fun found s2 _ _ => ?_
  obtain ⟨seq, isLeft⟩ := found
  dsimp only
  by_cases htop : top seq = 0
  · rw [if_pos htop, if_pos htop]
    intro a r1 b r2 _ h2
    obtain ⟨u, r3, hu, -⟩ := bind_ok.mp h2
    exact absurd hu throw_ok
  · rw [if_neg htop, if_neg htop]
    simp only [bind_assoc]
    refine At.bind (node_agree F _ _) fun del s3 hdel _ => ?_
    obtain ⟨-, hdel, rfl, len, hlen, hlt⟩ := node_ok hdel
    refine At.bind_left _ fun delLeft s4 hr => ?_
    obtain ⟨-, rfl⟩ := read_ok hr
    refine At.bind_left _ fun delRight s5 hr => ?_
    obtain ⟨-, rfl⟩ := read_ok hr
    refine At.bind_left _ fun delBalance s6 hr => ?_
    obtain ⟨-, rfl⟩ := read_ok hr
    refine At.bind (free_agree hF hlen (by omega)) fun _ s7 _ _ => ?_
    refine At.bind (splice_agree F (node_agree F) _ _ _ _ _ _) fun spliced s8 _ _ => ?_
    obtain ⟨seq', specialNull⟩ := spliced
    dsimp only
    refine At.bind (linkMoved_agree F (node_agree F) _ _ _ _) fun _ s9 _ _ => ?_
    refine At.bind (patchBalance_agree F (node_agree F) _ _ _ _) fun _ s10 _ _ => ?_
    have hfixed := fixed_agree (removeRebalance_agree hF seq'.length s10 seq'
      (if specialNull = true then some isLeft else none))
    have hend := hfixed.bind (f := fun _ => pure true) (g := fun _ => pure true)
      fun _ s11 _ _ => At.refl s11 _
    simpa only [bind_assoc] using hend

/-- Looking up along the recorded path or node by node. -/
theorem getLoop_agree [LT K] [DecidableLT K] (F : Fields σ K V) (k : K) (fuel fuel' : Nat) (s : σ)
    (path : List Nat) (cur : Nat) (isLess : Bool) :
    At s (findPathWith F (Rust.node F) k fuel path cur isLess >>= fun found =>
        if top found.1 = 0 then pure none
        else Rust.node F (top found.1) >>= fun n =>
          (F.value n).read >>= fun v => pure (some v))
      (Py.getLoop F k fuel' cur) := by
  have htop : top (path ++ [cur]) = cur := by
    unfold top
    rw [List.getLastD_concat]
  induction fuel generalizing fuel' s path cur isLess with
  | zero =>
    intro a s1 b s2 h1 _
    obtain ⟨c, s3, hc, -⟩ := bind_ok.mp h1
    exact absurd hc throw_ok
  | succ fuel ih =>
    cases fuel' with
    | zero => exact Rel.throw_right
    | succ fuel' =>
      unfold findPathWith Py.getLoop
      by_cases h0 : cur = 0
      · rw [if_pos h0, if_pos h0, pure_bind]
        dsimp only
        rw [htop, if_pos h0]
        exact At.refl _ _
      · rw [if_neg h0, if_neg h0]
        simp only [bind_assoc]
        refine At.bind (node_agree F _ _) fun n s1 hn _ => ?_
        refine At.bind_left _ fun nk s2 hk => ?_
        by_cases hl : k < nk
        · rw [if_pos hl, if_pos hl]
          simp only [bind_assoc]
          refine At.bind_left _ fun next s3 _ => ?_
          exact ih _ _ _ _ _ (by unfold top; rw [List.getLastD_concat])
        · rw [if_neg hl, if_neg hl]
          by_cases hg : nk < k
          · rw [if_pos hg, if_pos hg]
            simp only [bind_assoc]
            refine At.bind_left _ fun next s3 _ => ?_
            exact ih _ _ _ _ _ (by unfold top; rw [List.getLastD_concat])
          · rw [if_neg hg, if_neg hg, pure_bind]
            dsimp only
            rw [htop, if_neg h0]
            -- the node is checked once more, in the same state
            obtain ⟨-, rfl, rfl, len, hlen, hlt⟩ := node_ok hn
            obtain ⟨-, rfl⟩ := read_ok hk
            intro a s3 b s4 h1 h2
            obtain ⟨n', s5, hn', h1⟩ := bind_ok.mp h1
            obtain ⟨-, rfl, rfl, -⟩ := node_ok hn'
            rw [h1] at h2
            cases h2
            exact ⟨rfl, rfl⟩

theorem get_agree [LT K] [DecidableLT K] (F : Fields σ K V) (fuel fuel' : Nat) (k : K) (s : σ) :
    At s (Rust.get F fuel k) (Py.get F fuel' k) := by
  unfold Rust.get Py.get Rust.findPath
  rw [bind_assoc]
  refine At.bind_left _ fun root s1 _ => ?_
  exact getLoop_agree F k fuel fuel' s1 [] root true

end GenVM.Storage.TreeMap
