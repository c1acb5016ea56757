import GenVM.Lib.Saves
import GenVM.Storage.Raising

/-!
# The slot of a new map entry

`get_or_insert_default` assigns no value: it takes a slot of the node pool and
returns what lies there. Slots are taken from the free ones or from behind the
pool (runners/genlayer-py-std/src/genlayer/storage/tree_map.py). Stated over
any fields of a map that lie apart.

**Results.**
* `getOrInsertDefault_stale`: the value is the one that the slot held.
* `unused_run`: as long as no slot is free, only slots of the pool are written.
-/
namespace GenVM.Storage.Stale

open Agree TreeMap Raising

variable {σ ε K V α β : Type}

/-! ## Programs with user code in them -/

section Programs

variable {P : σ → Prop}

theorem saves_read (c : Cell σ α) : Saves P c.read := by
  intro s a s' h hs
  obtain ⟨-, rfl⟩ := read_ok h
  exact hs

theorem saves_act {p : M σ α} (h : Saves P p) : Saves P (act (ε := ε) p) := by
  intro s x s' hrun hs
  obtain ⟨a, -, hp⟩ := act_ok.mp hrun
  exact h s a s' hp hs

theorem saves_supply (x : Except ε α) : Saves P (supply (σ := σ) x) := Saves.pure x

/-- A sequence ends where its first part raised, or after its second part. -/
theorem raising_bind {p : Act σ ε α} {f : α → Act σ ε β} {s s' : σ} {x : Except ε β}
    (h : (p >>= f) s = .ok (x, s')) : (∃ e, x = .error e ∧ p s = .ok (.error e, s')) ∨
      ∃ a s1, p s = .ok (.ok a, s1) ∧ f a s1 = .ok (x, s') := by
  change (ExceptT.run p >>= ExceptT.bindCont f : StateT σ (Except Err) _) s = _ at h
  obtain ⟨y, s1, hp, hf⟩ := bind_ok.mp h
  cases y with
  | error e =>
    obtain ⟨hx, rfl⟩ := pure_ok.mp hf
    exact .inl ⟨e, hx.symm, hp⟩
  | ok a => exact .inr ⟨a, s1, hp, hf⟩

theorem saves_then {p : Act σ ε α} {f : α → Act σ ε β} (hp : Saves P p) (hf : ∀ a, Saves P (f a)) :
    Saves P (p >>= f : Act σ ε β) := by
  intro s x s' h hs
  rcases raising_bind h with ⟨e, -, hp'⟩ | ⟨a, s1, hp', hf'⟩
  · exact hp s _ s' hp' hs
  · exact hf a s1 x s' hf' (hp s _ s1 hp' hs)

end Programs

/-! ## The writes of the tree -/

/-- The writes that leave the pool, the free slots and the values alone. -/
inductive LinkWrite (F : Fields σ K V) : M σ Unit → Prop
  | root (r : Nat) : LinkWrite F (F.root.write r)
  | key (n : Nat) (k : K) : LinkWrite F ((F.key n).write k)
  | left (n i : Nat) : LinkWrite F ((F.left n).write i)
  | right (n i : Nat) : LinkWrite F ((F.right n).write i)
  | balance (n : Nat) (b : Int) : LinkWrite F ((F.balance n).write b)

section Links

variable {F : Fields σ K V} {P : σ → Prop}

theorem saves_mapIndex (len : Cell σ Nat) (idx : Int) : Saves P (Py.mapIndex len idx) := by
  unfold Py.mapIndex
  exact (saves_read _).bind fun n => Saves.ite (Saves.throw _) (Saves.pure _)

theorem saves_childIndex (idx : Nat) : Saves P (Py.childIndex (σ := σ) idx) :=
  Saves.ite (Saves.pure _) (Saves.throw _)

theorem saves_node (idx : Nat) : Saves P (Py.node F idx) := saves_mapIndex _ _

theorem saves_findPath [LT K] [DecidableLT K] (k : K) : ∀ (fuel : Nat) (path : List Nat) (cur : Nat)
    (isLess : Bool), Saves P (findPathWith F (Py.node F) k fuel path cur isLess) := by
  intro fuel
  induction fuel with
  | zero => exact fun _ _ _ => Saves.throw _
  | succ fuel ih =>
    intro path cur isLess
    unfold findPathWith
    refine Saves.ite (Saves.pure _) ((saves_node cur).bind fun n => (saves_read _).bind fun nk => ?_)
    refine Saves.ite ((saves_read _).bind fun next => ih _ _ _) (Saves.ite ?_ (Saves.pure _))
    exact (saves_read _).bind fun next => ih _ _ _

theorem saves_getLoop [LT K] [DecidableLT K] (k : K) : ∀ (fuel idx : Nat),
    Saves P (Py.getLoop F k fuel idx) := by
  intro fuel
  induction fuel with
  | zero => exact fun _ => Saves.throw _
  | succ fuel ih =>
    intro idx
    unfold Py.getLoop
    refine Saves.ite (Saves.pure _) ((saves_node idx).bind fun n => (saves_read _).bind fun nk => ?_)
    refine Saves.ite ((saves_read _).bind fun next => ih _) (Saves.ite ?_ ?_)
    · exact (saves_read _).bind fun next => ih _
    · exact (saves_read _).bind fun v => Saves.pure _

theorem saves_get [LT K] [DecidableLT K] (fuel : Nat) (k : K) : Saves P (Py.get F fuel k) := by
  unfold Py.get
  exact (saves_read _).bind fun root => saves_getLoop k fuel root

variable (hP : ∀ w, LinkWrite F w → Saves P w)
include hP

theorem saves_rotLeft (par cur : Nat) : Saves P (Py.rotLeft F par cur) := by
  unfold Py.rotLeft rotLeftWith
  refine (saves_node par).bind fun parN => (saves_node cur).bind fun curN => ?_
  refine (saves_read _).bind fun curL => (hP _ (.left _ _)).bind fun _ => ?_
  refine (hP _ (.right _ _)).bind fun _ => (saves_read _).bind fun b => ?_
  exact Saves.ite ((hP _ (.balance _ _)).bind fun _ => hP _ (.balance _ _))
    ((hP _ (.balance _ _)).bind fun _ => hP _ (.balance _ _))

theorem saves_rotRight (par cur : Nat) : Saves P (Py.rotRight F par cur) := by
  unfold Py.rotRight rotRightWith
  refine (saves_node par).bind fun parN => (saves_node cur).bind fun curN => ?_
  refine (saves_read _).bind fun curR => (hP _ (.right _ _)).bind fun _ => ?_
  refine (hP _ (.left _ _)).bind fun _ => (saves_read _).bind fun b => ?_
  exact Saves.ite ((hP _ (.balance _ _)).bind fun _ => hP _ (.balance _ _))
    ((hP _ (.balance _ _)).bind fun _ => hP _ (.balance _ _))

/-- The three balances a double rotation ends with. -/
theorem saves_balances (a b c : Nat) (x y z : Int) :
    Saves P (do (F.balance a).write x; (F.balance b).write y; (F.balance c).write z) :=
  (hP _ (.balance _ _)).bind fun _ => (hP _ (.balance _ _)).bind fun _ => hP _ (.balance _ _)

theorem saves_rotRightLeft (gpar par cur : Nat) :
    Saves P (Py.rotRightLeft F gpar par cur) := by
  unfold Py.rotRightLeft rotRightLeftWith
  refine (saves_node gpar).bind fun gparN => (saves_node par).bind fun parN => ?_
  refine (saves_node cur).bind fun curN => (saves_read _).bind fun curL => (saves_read _).bind fun curR => ?_
  refine (hP _ (.right _ _)).bind fun _ => (hP _ (.left _ _)).bind fun _ => ?_
  refine (hP _ (.left _ _)).bind fun _ => (hP _ (.right _ _)).bind fun _ => (saves_read _).bind fun b => ?_
  exact Saves.ite (saves_balances hP _ _ _ _ _ _)
    (Saves.ite (saves_balances hP _ _ _ _ _ _) (saves_balances hP _ _ _ _ _ _))

theorem saves_rotLeftRight (gpar par cur : Nat) :
    Saves P (Py.rotLeftRight F gpar par cur) := by
  unfold Py.rotLeftRight rotLeftRightWith
  refine (saves_node gpar).bind fun gparN => (saves_node par).bind fun parN => ?_
  refine (saves_node cur).bind fun curN => (saves_read _).bind fun curL => (saves_read _).bind fun curR => ?_
  refine (hP _ (.left _ _)).bind fun _ => (hP _ (.right _ _)).bind fun _ => ?_
  refine (hP _ (.left _ _)).bind fun _ => (hP _ (.right _ _)).bind fun _ => (saves_read _).bind fun b => ?_
  exact Saves.ite (saves_balances hP _ _ _ _ _ _)
    (Saves.ite (saves_balances hP _ _ _ _ _ _) (saves_balances hP _ _ _ _ _ _))

theorem saves_setChild (parent : Nat) (isLeft : Bool) (child : Nat) :
    Saves P (setChildWith F (Py.node F) parent isLeft child) := by
  unfold setChildWith
  exact (saves_node parent).bind fun n => Saves.ite (hP _ (.left _ _)) (hP _ (.right _ _))

theorem saves_relinkInsert (gp par new : Nat) : Saves P (Py.relinkInsert F gp par new) := by
  unfold Py.relinkInsert
  refine Saves.ite ((saves_node gp).bind fun g => (saves_read _).bind fun l => ?_) (Saves.pure _)
  exact Saves.ite (hP _ (.left _ _)) (hP _ (.right _ _))

theorem saves_fixRoot (seq : List Nat) : Saves P (fixRoot F seq) := by
  unfold fixRoot
  exact (saves_read _).bind fun r => Saves.ite (hP _ (.root _)) (Saves.pure _)

theorem saves_insertRebalance : ∀ (fuel : Nat) (seq : List Nat),
    Saves P (Py.insertRebalance F fuel seq) := by
  intro fuel
  induction fuel with
  | zero => exact fun seq => Saves.pure seq
  | succ fuel ih =>
    intro seq
    unfold Py.insertRebalance
    refine Saves.ite (Saves.pure _) ((saves_node _).bind fun parN => ?_)
    refine (saves_read _).bind fun l => (saves_read _).bind fun b => Saves.ite ?_ (Saves.ite ?_ ?_)
    · refine (saves_node _).bind fun curN => (saves_read _).bind fun cb => Saves.ite ?_ ?_
      · refine (saves_read _).bind fun child => (saves_rotLeftRight hP _ _ _).bind fun _ => ?_
        exact (saves_relinkInsert hP _ _ _).bind fun _ => Saves.pure _
      · refine (saves_rotRight hP _ _).bind fun _ => ?_
        exact (saves_relinkInsert hP _ _ _).bind fun _ => Saves.pure _
    · refine (saves_node _).bind fun curN => (saves_read _).bind fun cb => Saves.ite ?_ ?_
      · refine (saves_read _).bind fun child => (saves_rotRightLeft hP _ _ _).bind fun _ => ?_
        exact (saves_relinkInsert hP _ _ _).bind fun _ => Saves.pure _
      · refine (saves_rotLeft hP _ _).bind fun _ => ?_
        exact (saves_relinkInsert hP _ _ _).bind fun _ => Saves.pure _
    · have hwrite : Saves P (Py.writeBalance (F.balance parN)
          (b + if top seq = l then -1 else 1)) :=
        Saves.ite (hP _ (.balance _ _)) (Saves.throw _)
      exact hwrite.bind fun _ => Saves.ite (Saves.pure _) (ih _)

end Links

/-! ## The slot a new entry takes -/

/-- The slot `_alloc_slot` takes: the last free one, or the one behind the pool. -/
def nextSlot (F : Fields σ K V) : M σ Nat := do
  let n ← F.freeLen.read
  if n > 0 then (F.free (n - 1)).read else F.slotsLen.read

theorem mapIndex_value {len : Cell σ Nat} {idx : Int} {s s' : σ} {i : Nat}
    (h : Py.mapIndex len idx s = .ok (i, s')) : s = s' ∧ ∃ n, len.get s = .ok n ∧ i < n ∧
      i = (if idx < 0 then idx + n else idx).toNat := by
  have hcheck : ∀ (n : Nat) (j : Int), (if j < 0 ∨ j ≥ n then throw .raised else pure j.toNat : M σ Nat) s
      = .ok (i, s') → s = s' ∧ i < n ∧ i = j.toNat := by
    intro n j h
    split at h
    · exact absurd h throw_ok
    · rename_i hin
      obtain ⟨rfl, rfl⟩ := pure_ok.mp h
      exact ⟨rfl, by omega, rfl⟩
  unfold Py.mapIndex at h
  obtain ⟨n, s1, hread, h⟩ := bind_ok.mp h
  obtain ⟨hget, rfl⟩ := read_ok hread
  obtain ⟨rfl, hlt, hi⟩ := hcheck n _ h
  exact ⟨rfl, n, hget, hlt, hi⟩

theorem read_of_get {c : Cell σ α} {s : σ} {a : α} (h : c.get s = .ok a) : c.read s = .ok (a, s) := by
  unfold Cell.read
  rw [h]
  rfl

theorem allocSlot_next {F : Fields σ K V} {s s' : σ} {i : Nat}
    (h : Py.allocSlot F s = .ok (i, s')) : nextSlot F s = .ok (i, s) := by
  unfold Py.allocSlot at h
  unfold nextSlot
  obtain ⟨n, s1, hread, h⟩ := bind_ok.mp h
  obtain ⟨hget, rfl⟩ := read_ok hread
  refine bind_ok.mpr ⟨n, s, hread, ?_⟩
  split at h
  · rename_i hpos
    rw [if_pos hpos]
    obtain ⟨last, s1, hlast, h⟩ := bind_ok.mp h
    obtain ⟨rfl, n', hget', -, hidx⟩ := mapIndex_value hlast
    rw [hget] at hget'
    obtain rfl := Except.ok.inj hget'
    have hlast' : last = n - 1 := by
      rw [hidx, if_pos (by decide)]
      omega
    obtain ⟨idx, s1, hfree, h⟩ := bind_ok.mp h
    obtain ⟨hfree', rfl⟩ := read_ok hfree
    obtain ⟨_, s1, _, h⟩ := bind_ok.mp h
    obtain ⟨-, m, -, -, hi⟩ := mapIndex_value h
    have hi' : i = idx := by
      rw [hi, if_neg (by omega)]
      exact Int.toNat_natCast idx
    rw [hi', ← hlast']
    exact read_of_get hfree'
  · rename_i hpos
    rw [if_neg hpos]
    unfold Py.appendNewGet at h
    obtain ⟨m, s1, hread', h⟩ := bind_ok.mp h
    obtain ⟨hget', rfl⟩ := read_ok hread'
    split at h
    · obtain ⟨_, s1, _, h⟩ := bind_ok.mp h
      obtain ⟨rfl, -⟩ := pure_ok.mp h
      exact read_of_get hget'
    · exact absurd h throw_ok

/-- How the fields of a map lie apart: a value is reached by its own writes
only, and reaches no length. -/
structure Apart (F : Fields σ K V) : Prop where
  link_value : ∀ {w n x}, LinkWrite F w → Saves (fun s => (F.value n).get s = x) w
  link_slots : ∀ {w x}, LinkWrite F w → Saves (fun s => F.slotsLen.get s = x) w
  link_free : ∀ {w x}, LinkWrite F w → Saves (fun s => F.freeLen.get s = x) w
  slots_value : ∀ {len n x}, Saves (fun s => (F.value n).get s = x) (F.slotsLen.write len)
  slots_free : ∀ {len x}, Saves (fun s => F.freeLen.get s = x) (F.slotsLen.write len)
  slots_get : ∀ {len s s'}, F.slotsLen.set len s = .ok s' → F.slotsLen.get s' = .ok len
  free_value : ∀ {len n x}, Saves (fun s => (F.value n).get s = x) (F.freeLen.write len)
  value_slots : ∀ {n v x}, Saves (fun s => F.slotsLen.get s = x) ((F.value n).write v)
  value_free : ∀ {n v x}, Saves (fun s => F.freeLen.get s = x) ((F.value n).write v)
  value_value : ∀ {n m v x}, m ≠ n → Saves (fun s => (F.value m).get s = x) ((F.value n).write v)

section Generic

variable {F : Fields σ K V} (hF : Apart F)
include hF

theorem alloc_value (n : Nat) (x : Except Err V) :
    Saves (fun s => (F.value n).get s = x) (Py.allocSlot F) := by
  unfold Py.allocSlot
  refine (saves_read _).bind fun len => Saves.ite ?_ ?_
  · refine (saves_mapIndex _ _).bind fun last => (saves_read _).bind fun idx => ?_
    have hpop : Saves (fun s => (F.value n).get s = x) (Py.pop F.freeLen) :=
      (saves_read _).bind fun m => Saves.ite (Saves.throw _) hF.free_value
    exact hpop.bind fun _ => saves_mapIndex _ _
  · exact (saves_read _).bind fun m =>
      Saves.ite (hF.slots_value.bind fun _ => Saves.pure _) (Saves.throw _)

omit hF in
theorem assignKey_saves {P : σ → Prop} (hP : ∀ w, LinkWrite F w → Saves P w) (I : Items K V ε)
    (n : Nat) (k : K) : Saves P (Raising.assign (F.key n) (I.setKey k)) :=
  saves_then (saves_act (saves_read _)) fun _ =>
    saves_then (saves_act (hP _ (.key _ _))) fun _ => saves_supply _

omit hF in
/-- An entry made without a value keeps the value that lies in its slot. -/
theorem initNode_default {P : σ → Prop} (hP : ∀ w, LinkWrite F w → Saves P w) (I : Items K V ε)
    (n : Nat) (k : K) : Saves P (initNode F I n k none) := by
  unfold initNode
  refine saves_then (assignKey_saves hP I n k) fun _ => saves_then (Saves.pure _) fun _ => ?_
  refine saves_then (saves_act (hP _ (.left _ _))) fun _ => ?_
  exact saves_then (saves_act (hP _ (.right _ _))) fun _ => saves_act (hP _ (.balance _ _))

end Generic

section Absent

variable [LT K] [DecidableLT K] {F : Fields σ K V}

/-- A key that a lookup misses ends the walk below the tree. -/
theorem find_absent {k : K} : ∀ (fuel : Nat) {path : List Nat} {cur : Nat} {l l' : Bool}
    {s s' s'' : σ} {seq : List Nat},
    findPathWith F (Py.node F) k fuel path cur l s = .ok ((seq, l'), s') →
    Py.getLoop F k fuel cur s = .ok (none, s'') → top seq = 0 := by
  intro fuel
  induction fuel with
  | zero => exact fun h => absurd h throw_ok
  | succ fuel ih =>
    intro path cur l l' s s' s'' seq h hget
    unfold findPathWith at h
    unfold Py.getLoop at hget
    by_cases hcur : cur = 0
    · rw [if_pos hcur] at h
      obtain ⟨hseq, -⟩ := pure_ok.mp h
      obtain ⟨rfl, -⟩ := Prod.mk.inj hseq
      unfold top
      rw [List.getLastD_concat, hcur]
    · rw [if_neg hcur] at h hget
      obtain ⟨n, s1, hnode, h⟩ := bind_ok.mp h
      obtain ⟨n', s1', hnode', hget⟩ := bind_ok.mp hget
      obtain ⟨rfl, rfl⟩ := Prod.mk.inj (Except.ok.inj (hnode.symm.trans hnode'))
      obtain ⟨nk, s2, hkey, h⟩ := bind_ok.mp h
      obtain ⟨nk', s2', hkey', hget⟩ := bind_ok.mp hget
      obtain ⟨rfl, rfl⟩ := Prod.mk.inj (Except.ok.inj (hkey.symm.trans hkey'))
      by_cases hlt : k < nk
      · rw [if_pos hlt] at h hget
        obtain ⟨next, s3, hnext, h⟩ := bind_ok.mp h
        obtain ⟨next', s3', hnext', hget⟩ := bind_ok.mp hget
        obtain ⟨rfl, rfl⟩ := Prod.mk.inj (Except.ok.inj (hnext.symm.trans hnext'))
        exact ih h hget
      · rw [if_neg hlt] at h hget
        by_cases hgt : nk < k
        · rw [if_pos hgt] at h hget
          obtain ⟨next, s3, hnext, h⟩ := bind_ok.mp h
          obtain ⟨next', s3', hnext', hget⟩ := bind_ok.mp hget
          obtain ⟨rfl, rfl⟩ := Prod.mk.inj (Except.ok.inj (hnext.symm.trans hnext'))
          exact ih h hget
        · -- the walk has met the key, and a lookup finds it
          rw [if_neg hgt] at hget
          obtain ⟨v, s3, -, hget⟩ := bind_ok.mp hget
          cases (pure_ok.mp hget).1

/-- The new entry's value is the one that its slot held before. -/
theorem getOrInsertDefault_stale (hF : Apart F) {I : Items K V ε} {fuel : Nat} {k : K} {v : V}
    {s s0 s' : σ} (habsent : Py.get F fuel k s = .ok (none, s0))
    (h : run F I fuel (.getOrInsertDefault k) s = .ok (.ok v, s')) :
    ∃ i, nextSlot F s = .ok (i, s) ∧ (F.value i).get s = .ok v ∧ (F.value i).get s' = .ok v := by
  unfold run getSet at h
  unfold Py.get at habsent
  obtain ⟨⟨seq, isLess⟩, s2, hfind, h⟩ := act_bind.mp h
  obtain ⟨root, s1, hroot, hfind⟩ := bind_ok.mp hfind
  obtain ⟨root', s1', hroot', hget⟩ := bind_ok.mp habsent
  obtain ⟨rfl, rfl⟩ := Prod.mk.inj (Except.ok.inj (hroot.symm.trans hroot'))
  obtain ⟨-, rfl⟩ := read_ok hroot
  obtain rfl : s = s2 := (saves_findPath (P := (· = s)) k _ _ _ _ _ _ _ hfind rfl).symm
  dsimp only at h
  rw [if_neg (not_not.mpr (find_absent _ hfind hget))] at h
  have hlinks : ∀ (i : Nat) (x : Except Err V) (w : M σ Unit), LinkWrite F w →
      Saves (fun s => (F.value i).get s = x) w := fun i x w hw => hF.link_value hw
  -- the new node is filled without its value, and what follows reads it
  have hfill : ∀ {i : Nat} {s1 : σ} {rest : Act σ ε V}, Py.allocSlot F s = .ok (i, s1) →
      ∀ s2, (F.value i).get s2 = (F.value i).get s1 →
      (∀ s3, rest s3 = .ok (.ok v, s') → (F.value i).get s3 = .ok v ∧ (F.value i).get s' = .ok v) →
      (supply (.ok none) >>= fun v => initNode F I i k v >>= fun _ => rest) s2 = .ok (.ok v, s') →
      ∃ i, nextSlot F s = .ok (i, s) ∧ (F.value i).get s = .ok v ∧ (F.value i).get s' = .ok v := by
    intro i s1 rest halloc s2 hs2 hrest h
    rcases raising_bind h with ⟨e, hx, -⟩ | ⟨_, s3, hsupply, h⟩
    · cases hx
    · obtain ⟨hnone, rfl⟩ := supply_ok.mp hsupply
      obtain rfl := Except.ok.inj hnone
      rcases raising_bind h with ⟨e, hx, -⟩ | ⟨_, s4, hinit, h⟩
      · cases hx
      · obtain ⟨hv, hv'⟩ := hrest s4 h
        have hfirst := alloc_value hF i ((F.value i).get s) _ _ _ halloc rfl
        have hsame := initNode_default (hlinks i _) I i k _ _ _ hinit (hs2.trans hfirst)
        exact ⟨i, allocSlot_next halloc, hsame.symm.trans hv, hv'⟩
  have hread : ∀ {i : Nat} {s3 : σ}, act (ε := ε) (F.value i).read s3 = .ok (.ok v, s') →
      (F.value i).get s3 = .ok v ∧ s3 = s' := by
    intro i s3 h
    obtain ⟨a, ha, hvalue⟩ := act_ok.mp h
    obtain rfl := Except.ok.inj ha
    exact read_ok hvalue
  by_cases hlen : seq.length = 1
  · rw [if_pos hlen] at h
    obtain ⟨i, s1, halloc, h⟩ := act_bind.mp h
    obtain ⟨child, s2, hchild, h⟩ := act_bind.mp h
    obtain ⟨_, s3, hwrite, h⟩ := act_bind.mp h
    have hs2 : s2 = s1 := saves_childIndex (P := (· = s1)) i _ _ _ hchild rfl
    refine hfill halloc s3 (hlinks i _ _ (.root _) _ _ _ hwrite (by rw [hs2])) (fun s4 h => ?_) h
    obtain ⟨hvalue, rfl⟩ := hread h
    exact ⟨hvalue, hvalue⟩
  · rw [if_neg hlen] at h
    obtain ⟨i, s1, halloc, h⟩ := act_bind.mp h
    obtain ⟨child, s2, hchild, h⟩ := act_bind.mp h
    obtain ⟨_, s3, hlink, h⟩ := act_bind.mp h
    have hs2 : s2 = s1 := saves_childIndex (P := (· = s1)) i _ _ _ hchild rfl
    refine hfill halloc s3 (saves_setChild (hlinks i _) _ _ _ _ _ _ hlink (by rw [hs2]))
      (fun s4 h => ?_) h
    obtain ⟨seq', s5, hbalance, h⟩ := act_bind.mp h
    obtain ⟨_, s6, hroot, h⟩ := act_bind.mp h
    obtain ⟨hvalue, rfl⟩ := hread h
    have hfirst := saves_insertRebalance (hlinks i _) _ _ _ _ _ hbalance rfl
    have hsame := saves_fixRoot (hlinks i _) _ _ _ _ hroot hfirst
    exact ⟨hsame.symm.trans hvalue, hvalue⟩

end Absent

/-! ## Maps that nothing was removed from -/

/-- No slot is free, and every value behind the pool reads `zero`. -/
structure Unused (F : Fields σ K V) (zero : V) (s : σ) : Prop where
  free : F.freeLen.get s = .ok 0
  behind : ∃ len, F.slotsLen.get s = .ok len ∧ ∀ n, len ≤ n → (F.value n).get s = .ok zero

/-- The same while the slot `i` of the pool is written. -/
structure InUse (F : Fields σ K V) (zero : V) (i : Nat) (s : σ) : Prop where
  unused : Unused F zero s
  within : ∃ len, F.slotsLen.get s = .ok len ∧ i < len

section InUse

variable {F : Fields σ K V} (hF : Apart F) {zero : V} {i : Nat}
include hF

omit hF in
/-- What changes neither length and no value behind the pool. -/
theorem inUse_saves {p : M σ α} (hslots : ∀ x, Saves (fun s => F.slotsLen.get s = x) p)
    (hfree : ∀ x, Saves (fun s => F.freeLen.get s = x) p)
    (hvalue : ∀ n x, n ≠ i → Saves (fun s => (F.value n).get s = x) p) :
    Saves (InUse F zero i) p := by
  intro s a s' h hs
  obtain ⟨⟨h0, len, hlen, hbehind⟩, len', hlen', hi⟩ := hs
  obtain rfl := Except.ok.inj (hlen.symm.trans hlen')
  have hslots' := hslots _ s a s' h hlen
  refine ⟨⟨hfree _ s a s' h h0, len, hslots', fun n hn => ?_⟩, len, hslots', hi⟩
  exact hvalue n _ (by omega) s a s' h (hbehind n hn)

theorem inUse_link (w : M σ Unit) (hw : LinkWrite F w) : Saves (InUse F zero i) w :=
  inUse_saves (fun _ => hF.link_slots hw) (fun _ => hF.link_free hw) fun _ _ _ => hF.link_value hw

theorem inUse_value (v : V) : Saves (InUse F zero i) ((F.value i).write v) :=
  inUse_saves (fun _ => hF.value_slots) (fun _ => hF.value_free) fun _ _ hn => hF.value_value hn

omit hF in
theorem inUse_node {idx : Nat} {s s' : σ} (hs : Unused F zero s)
    (h : Py.node F idx s = .ok (i, s')) : InUse F zero i s' := by
  obtain ⟨rfl, len, hlen, hi, -⟩ := mapIndex_value h
  exact ⟨hs, len, hlen, hi⟩

/-- Without free slots the pool grows by the slot behind it. -/
theorem inUse_alloc {s s' : σ} (hs : Unused F zero s) (h : Py.allocSlot F s = .ok (i, s')) :
    InUse F zero i s' := by
  obtain ⟨h0, len, hlen, hbehind⟩ := hs
  unfold Py.allocSlot at h
  obtain ⟨n, s1, hread, h⟩ := bind_ok.mp h
  obtain ⟨hget, rfl⟩ := read_ok hread
  obtain rfl := Except.ok.inj (h0.symm.trans hget)
  rw [if_neg (Nat.lt_irrefl 0)] at h
  unfold Py.appendNewGet at h
  obtain ⟨m, s2, hread', h⟩ := bind_ok.mp h
  obtain ⟨hget', rfl⟩ := read_ok hread'
  obtain rfl := Except.ok.inj (hlen.symm.trans hget')
  split at h
  · obtain ⟨_, s3, hwrite, h⟩ := bind_ok.mp h
    obtain ⟨rfl, rfl⟩ := pure_ok.mp h
    have hlen' := hF.slots_get (write_ok hwrite)
    refine ⟨⟨hF.slots_free _ _ _ hwrite h0, _, hlen', fun n hn => ?_⟩, _, hlen', Nat.lt_succ_self _⟩
    exact hF.slots_value _ _ _ hwrite (hbehind n (by omega))
  · exact absurd h throw_ok

theorem inUse_assignValue (I : Items K V ε) (v : Option V) :
    Saves (InUse F zero i) (assignValue F I i v) := by
  cases v with
  | none => exact Saves.pure _
  | some v =>
    exact saves_then (saves_act (saves_read _)) fun _ =>
      saves_then (saves_act (inUse_value hF _)) fun _ => saves_supply _

theorem inUse_initNode (I : Items K V ε) (k : K) (v : Option V) :
    Saves (InUse F zero i) (initNode F I i k v) := by
  have hlink : ∀ w, LinkWrite F w → Saves (InUse F zero i) w := inUse_link hF
  unfold initNode
  refine saves_then (assignKey_saves hlink I i k) fun _ => ?_
  refine saves_then (inUse_assignValue hF I v) fun _ => ?_
  refine saves_then (saves_act (hlink _ (.left _ _))) fun _ => ?_
  exact saves_then (saves_act (hlink _ (.right _ _))) fun _ => saves_act (hlink _ (.balance _ _))

/-- Setting, inserting and computing values uses slots of the pool only. -/
theorem unused_getSet [LT K] [DecidableLT K] {I : Items K V ε} {fuel : Nat} {k : K}
    {present : Nat → Act σ ε Unit} {absent : Except ε (Option V)} {s s' : σ} {x : Except ε V}
    (hpresent : ∀ n, Saves (InUse F zero n) (present n))
    (h : getSet F I fuel k present absent s = .ok (x, s')) (hs : Unused F zero s) :
    Unused F zero s' := by
  unfold getSet at h
  obtain ⟨⟨seq, isLess⟩, s2, hfind, h⟩ := act_bind.mp h
  obtain ⟨root, s1, hroot, hfind⟩ := bind_ok.mp hfind
  obtain ⟨-, rfl⟩ := read_ok hroot
  obtain rfl : s = s2 := (saves_findPath (P := (· = s)) k _ _ _ _ _ _ _ hfind rfl).symm
  dsimp only at h
  split at h
  · obtain ⟨n, s3, hnode, h⟩ := act_bind.mp h
    have huse := inUse_node hs hnode
    exact (saves_then (hpresent n) (fun _ => saves_act (saves_read _)) _ _ _ h huse).unused
  · split at h
    · obtain ⟨i, s1, halloc, h⟩ := act_bind.mp h
      obtain ⟨child, s2, hchild, h⟩ := act_bind.mp h
      have huse := saves_childIndex i _ _ _ hchild (inUse_alloc hF hs halloc)
      have hlink : ∀ w, LinkWrite F w → Saves (InUse F zero i) w := inUse_link hF
      refine (saves_then (saves_act (hlink _ (.root child))) (fun _ => ?_) _ _ _ h huse).unused
      refine saves_then (saves_supply absent) fun v => ?_
      exact saves_then (inUse_initNode hF I k v) fun _ => saves_act (saves_read _)
    · obtain ⟨i, s1, halloc, h⟩ := act_bind.mp h
      obtain ⟨child, s2, hchild, h⟩ := act_bind.mp h
      have huse := saves_childIndex i _ _ _ hchild (inUse_alloc hF hs halloc)
      have hlink : ∀ w, LinkWrite F w → Saves (InUse F zero i) w := inUse_link hF
      refine (saves_then (saves_act (saves_setChild hlink _ _ _)) (fun _ => ?_) _ _ _ h huse).unused
      refine saves_then (saves_supply absent) fun v => ?_
      refine saves_then (inUse_initNode hF I k v) fun _ => ?_
      refine saves_then (saves_act (saves_insertRebalance hlink _ _)) fun seq' => ?_
      exact saves_then (saves_act (saves_fixRoot hlink seq')) fun _ => saves_act (saves_read _)

theorem unused_run [LT K] [DecidableLT K] {I : Items K V ε} {fuel : Nat} {op : Op K V ε} {s s' : σ}
    {x : Except ε V} (h : run F I fuel op s = .ok (x, s')) (hs : Unused F zero s) :
    Unused F zero s' := by
  cases op with
  | setItem k v => exact unused_getSet hF (fun n => inUse_assignValue hF I (some v)) h hs
  | computeIfAbsent k supplier => exact unused_getSet hF (fun n => saves_supply (.ok ())) h hs
  | getOrInsertDefault k => exact unused_getSet hF (fun n => saves_supply (.ok ())) h hs

end InUse

end GenVM.Storage.Stale
