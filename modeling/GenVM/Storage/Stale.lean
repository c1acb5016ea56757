import GenVM.Storage.NewEntry
import GenVM.Storage.Places
import GenVM.Storage.Layout

/-!
# What a new map entry reads as

A map lies in a slot as its description lays it out; a nested array or map lies
in slots derived from the value's place. Neither deleting an entry nor clearing
the map erases a slot of the pool, so a slot that was in use reads as its last
entry did (runners/genlayer-py-std/src/genlayer/storage/tree_map.py and
dyn_array.py).

**Results.**
* `fields_apart_all`: the fields of a laid out map lie apart.
* `history_unused`: a map that nothing was removed from has no used slot to take.
* `default_entries`: in every history, the new entries that read as the
  default are those whose slot did before.
-/
namespace GenVM.Storage.Stale

open ByteMem SlotTree Agree TreeMap Raising

variable {ε : Type}

/-! ## A map in slots -/

/-- `_Node`, mirrors tree_map.py:15-21 -/
def nodeTys (k v : Ty) : List Ty := [k, v, .fixed 4, .fixed 4, .fixed 1]

/-- `TreeMap`: `_root`, `_slots` and `_free_slots`, mirrors tree_map.py:51-53 -/
def mapTys (k v : Ty) : List Ty := [.fixed 4, .dynArray (.record (nodeTys k v)), .dynArray (.fixed 4)]

/-- Types of keys and values whose map can be laid out. -/
structure MapTy where
  key : Ty
  value : Ty
  laid : VlaLast (.record (mapTys key value))

section Slotted

variable {S : Type} [DecidableEq S] (T : Slots S) (D : MapTy) (p : List Nat) (off : Nat)

def MapTy.place : Place := ⟨.record (mapTys D.key D.value), p, off⟩

/-- Where the field `i` of the map lies. -/
def MapTy.own (i : Nat) : Nat := off + slotSizes ((mapTys D.key D.value).take i)

/-- Where the field `f` of the node `n` lies, of a type `t`. -/
def MapTy.inNode (t : Ty) (n f : Nat) : Place where
  ty := t
  slot := D.own off 1 :: p
  off := n * slotSize (.record (nodeTys D.key D.value)) + slotSizes ((nodeTys D.key D.value).take f)

/-- A place that is assigned plain values. -/
def placeCell (pl : Place) : Cell (Mem S) Val where
  get m := .ok (pl.get T m)
  set v m := .ok (setPlain T.child pl.ty v m (addr T pl.slot) pl.off)

def MapTy.fields : Fields (Mem S) Val Val where
  root := Layout.natCell (addr T p) (D.own off 0)
  slotsLen := Layout.natCell (addr T p) (D.own off 1)
  freeLen := Layout.natCell (addr T p) (D.own off 2)
  free i := Layout.natCell (addr T (D.own off 2 :: p)) (i * slotSize (.fixed 4))
  key n := placeCell T (D.inNode p off D.key n 0)
  value n := placeCell T (D.inNode p off D.value n 1)
  left n := Layout.natCell (addr T (D.own off 1 :: p)) (D.inNode p off (.fixed 4) n 2).off
  right n := Layout.natCell (addr T (D.own off 1 :: p)) (D.inNode p off (.fixed 4) n 3).off
  balance n := Layout.intCell Layout.i8 (addr T (D.own off 1 :: p)) (D.inNode p off (.fixed 1) n 4).off

/-! ## The fields lie apart -/

theorem follow_own (i : Nat) (t : Ty) (h : (mapTys D.key D.value)[i]? = some t) :
    (D.place p off).follow [.field i] = some ⟨t, p, D.own off i⟩ := by
  unfold Place.follow Place.follow Place.step MapTy.place
  dsimp only
  rw [h]
  rfl

theorem follow_node (n f : Nat) (t : Ty) (h : (nodeTys D.key D.value)[f]? = some t) :
    (D.place p off).follow [.field 1, .index n, .field f] = some (D.inNode p off t n f) := by
  have hown : (D.place p off).follow [.field 1]
      = some ⟨.dynArray (.record (nodeTys D.key D.value)), p, D.own off 1⟩ := follow_own D p off 1 _ rfl
  have hsplit := follow_append (D.place p off) [.field 1] [.index n, .field f]
  rw [List.singleton_append, hown, Option.bind_some] at hsplit
  rw [hsplit]
  unfold Place.follow Place.follow Place.follow Place.step
  dsimp only [Option.bind_some]
  rw [h]
  rfl

/-- The path to the value of a node. -/
def valuePath (n : Nat) : List Step := [.field 1, .index n, .field 1]

theorem follow_value (n : Nat) :
    (D.place p off).follow (valuePath n) = some (D.inNode p off D.value n 1) :=
  follow_node D p off n 1 _ rfl

theorem store_region {m : Mem S} {q : List Nat} {o w n : Nat} :
    Frame (Place.region T ⟨.fixed w, q, o⟩) m (store m (addr T q) o w n) :=
  (store_frame m _ _ _ _).mono (cells_subset within_of_lt)

theorem placeCell_frame {pl : Place} (h : VlaLast pl.ty) {v : Val} {m m' : Mem S}
    (hset : (placeCell T pl).set v m = .ok m') : Frame (pl.region T) m m' := by
  obtain rfl := Except.ok.inj hset
  exact setPlain_frame pl.ty h v m pl.slot pl.off

/-- A write of the tree stays at the root or in a field of a node that is not its value. -/
theorem linkWrite_frame {w : M (Mem S) Unit} (hw : LinkWrite (D.fields T p off) w) {u : Unit}
    {m m' : Mem S} (h : w m = .ok (u, m')) : ∃ path pl, (D.place p off).follow path = some pl ∧
      Frame (pl.region T) m m' ∧ (path = [.field 0] ∨
        ∃ n f, path = [.field 1, .index n, .field f] ∧ f ≠ 1 ∧ pl.slot = D.own off 1 :: p) := by
  cases hw with
  | root r =>
    obtain ⟨-, rfl⟩ := Layout.natCell_set (write_ok h)
    exact ⟨_, _, follow_own D p off 0 _ rfl, store_region T, .inl rfl⟩
  | key n k =>
    have hlaid := (follow_inside (T := T) D.laid (follow_node D p off n 0 _ rfl)).1
    exact ⟨_, _, follow_node D p off n 0 _ rfl, placeCell_frame T hlaid (write_ok h),
      .inr ⟨n, 0, rfl, by decide, rfl⟩⟩
  | left n i =>
    obtain ⟨-, rfl⟩ := Layout.natCell_set (write_ok h)
    exact ⟨_, _, follow_node D p off n 2 _ rfl, store_region T, .inr ⟨n, 2, rfl, by decide, rfl⟩⟩
  | right n i =>
    obtain ⟨-, rfl⟩ := Layout.natCell_set (write_ok h)
    exact ⟨_, _, follow_node D p off n 3 _ rfl, store_region T, .inr ⟨n, 3, rfl, by decide, rfl⟩⟩
  | balance n b =>
    obtain ⟨-, rfl⟩ := Layout.intCell_set (write_ok h)
    exact ⟨_, _, follow_node D p off n 4 _ rfl, store_region T, .inr ⟨n, 4, rfl, by decide, rfl⟩⟩

/-- What stays off the value's place leaves it as it reads. -/
theorem value_kept {path : List Step} {pl : Place} (hpl : (D.place p off).follow path = some pl)
    {m m' : Mem S} (hframe : Frame (pl.region T) m m') {n : Nat} (h1 : ¬ path <+: valuePath n)
    (h2 : ¬ valuePath n <+: path) :
    (D.inNode p off D.value n 1).get T m' = (D.inNode p off D.value n 1).get T m :=
  get_of_frame (follow_inside (T := T) D.laid (follow_value D p off n)).1
    (paths_disjoint D.laid hpl (follow_value D p off n) h1 h2) hframe

theorem len_kept {q : List Nat} {pl : Place} (hq : pl.slot = D.own off 1 :: q) {m m' : Mem S}
    (hframe : Frame (pl.region T) m m') :
    (D.fields T q off).slotsLen.get m' = (D.fields T q off).slotsLen.get m := by
  unfold Place.region at hframe
  rw [hq] at hframe
  unfold MapTy.fields Layout.natCell
  dsimp only
  rw [load_child hframe]

/-- A length that lies elsewhere reads as before. -/
theorem natCell_kept {path path' : List Step} {pl : Place} {q : List Nat} {o : Nat} {t : Ty}
    (hpl : (D.place p off).follow path = some pl)
    (hq : (D.place p off).follow path' = some ⟨.dynArray t, q, o⟩) {m m' : Mem S}
    (hframe : Frame (pl.region T) m m') (h1 : ¬ path <+: path') (h2 : ¬ path' <+: path) :
    (Layout.natCell (addr T q) o).get m' = (Layout.natCell (addr T q) o).get m := by
  have hagree := hframe.agreeOn (paths_disjoint (T := T) D.laid hpl hq h1 h2)
  have hcells : cells (addr T q) o 4 ⊆ Place.region T ⟨.dynArray t, q, o⟩ := cells_subset within_of_lt
  unfold Layout.natCell
  dsimp only
  rw [load_agree (hagree.mono hcells)]

theorem fields_apart_all : Apart (D.fields T p off) where
  link_value := by
    intro w n x hw m u m' h hx
    obtain ⟨path, pl, hpl, hframe, hpath⟩ := linkWrite_frame T D p off hw h
    refine (congrArg Except.ok (value_kept T D p off hpl hframe (n := n) ?_ ?_)).trans hx
    · rcases hpath with rfl | ⟨n', f, rfl, hf, -⟩
      · simp [valuePath]
      · simp [valuePath, hf]
    · rcases hpath with rfl | ⟨n', f, rfl, hf, -⟩
      · simp [valuePath]
      · simp [valuePath, Ne.symm hf]
  link_slots := by
    intro w x hw m u m' h hx
    obtain ⟨path, pl, hpl, hframe, hpath⟩ := linkWrite_frame T D p off hw h
    rcases hpath with rfl | ⟨n', f, rfl, hf, hslot⟩
    · exact (natCell_kept T D p off hpl (follow_own D p off 1 _ rfl) hframe (by simp) (by simp)).trans hx
    · exact (len_kept T D off hslot hframe).trans hx
  link_free := by
    intro w x hw m u m' h hx
    obtain ⟨path, pl, hpl, hframe, hpath⟩ := linkWrite_frame T D p off hw h
    refine (natCell_kept T D p off hpl (follow_own D p off 2 _ rfl) hframe ?_ ?_).trans hx
    · rcases hpath with rfl | ⟨n', f, rfl, -, -⟩
      · simp
      · simp
    · rcases hpath with rfl | ⟨n', f, rfl, -, -⟩
      · simp
      · simp
  slots_value := by
    intro len n x m u m' h hx
    obtain ⟨-, rfl⟩ := Layout.natCell_set (write_ok h)
    refine (congrArg Except.ok ?_).trans hx
    have hspec := build_spec (T := T) D.value (follow_inside (T := T) D.laid (follow_value D p off n)).1
    exact hspec.get_congr _ _ _ _ ((store_frame m _ _ _ _).agreeOn cells_disjoint_child)
  slots_free := by
    intro len x m u m' h hx
    obtain ⟨-, rfl⟩ := Layout.natCell_set (write_ok h)
    have hframe : Frame (Place.region T ⟨.dynArray (.record (nodeTys D.key D.value)), p, D.own off 1⟩)
        m (store m (addr T p) (D.own off 1) 4 len) :=
      (store_frame m _ _ _ _).mono (cells_subset within_of_lt)
    exact (natCell_kept T D p off (follow_own D p off 1 _ rfl) (follow_own D p off 2 _ rfl) hframe
      (by simp) (by simp)).trans hx
  slots_get := by
    intro len m m' h
    obtain ⟨⟨hoff, hlen⟩, rfl⟩ := Layout.natCell_set h
    unfold MapTy.fields Layout.natCell
    dsimp only
    rw [if_pos hoff, load_store _ _ _ hlen]
  free_value := by
    intro len n x m u m' h hx
    obtain ⟨-, rfl⟩ := Layout.natCell_set (write_ok h)
    have hframe : Frame (Place.region T ⟨.dynArray (.fixed 4), p, D.own off 2⟩)
        m (store m (addr T p) (D.own off 2) 4 len) :=
      (store_frame m _ _ _ _).mono (cells_subset within_of_lt)
    exact (congrArg Except.ok (value_kept T D p off (follow_own D p off 2 _ rfl) hframe
      (by simp [valuePath]) (by simp [valuePath]))).trans hx
  value_slots := by
    intro n v x m u m' h hx
    have hlaid := (follow_inside (T := T) D.laid (follow_value D p off n)).1
    exact (len_kept T D off rfl (placeCell_frame T hlaid (write_ok h))).trans hx
  value_free := by
    intro n v x m u m' h hx
    have hlaid := (follow_inside (T := T) D.laid (follow_value D p off n)).1
    exact (natCell_kept T D p off (follow_value D p off n) (follow_own D p off 2 _ rfl)
      (placeCell_frame T hlaid (write_ok h)) (by simp [valuePath]) (by simp [valuePath])).trans hx
  value_value := by
    intro n n' v x hne m u m' h hx
    have hlaid := (follow_inside (T := T) D.laid (follow_value D p off n)).1
    refine (congrArg Except.ok (value_kept T D p off (follow_value D p off n)
      (placeCell_frame T hlaid (write_ok h)) ?_ ?_)).trans hx
    · simp [valuePath, Ne.symm hne]
    · simp [valuePath, hne]

end Slotted

/-! ## The default of a type -/

mutual
/-- What a place of zeros reads as. -/
def zero : Ty → Val
  | .fixed n => .bytes (List.replicate n 0)
  | .bool => .bool false
  | .strBytes => .bytes []
  | .bigint => .int 0
  | .record fields => .list (zeros fields)
  | .array item n => .list (List.replicate n (zero item))
  | .dynArray _ => .list []
  | .indirection item => zero item
  | .vla _ => .list []

def zeros : List Ty → List Val
  | [] => []
  | t :: ts => zero t :: zeros ts
end

section Zero

variable {S : Type}

theorem load_zero (s : S) : ∀ w off : Nat, load (fun _ _ => 0) s off w = 0 := by
  intro w
  induction w with
  | zero => exact fun _ => rfl
  | succ w ih =>
    intro off
    unfold load
    rw [ih]
    rfl

theorem read_zero (s : S) (off n : Nat) : read (fun _ _ => 0) s off n = List.replicate n 0 := by
  unfold read
  rw [List.map_const', List.length_range]

theorem contents_zero (indirect : S → Nat → S) (s : S) (off : Nat) :
    contents indirect (fun _ _ => 0) s off = [] := by
  unfold contents
  rw [load_zero, read_zero]
  rfl

theorem readItems_const {item : Desc S} {m : Mem S} {s : S} {v : Val}
    (h : ∀ off, item.get m s off = v) (off n : Nat) :
    readItems item m s off n = List.replicate n v := by
  unfold readItems
  simp only [h]
  rw [List.map_const', List.length_range]

variable [DecidableEq S] (indirect : S → Nat → S)

mutual
theorem get_zero : ∀ (t : Ty) (s : S) (off : Nat),
    (build indirect t).get (fun _ _ => 0) s off = zero t
  | .fixed n, s, off => by
    unfold build zero
    exact congrArg Val.bytes (read_zero s off n)
  | .bool, s, off => by
    unfold build zero
    rfl
  | .strBytes, s, off => by
    unfold build zero
    exact congrArg Val.bytes (contents_zero indirect s off)
  | .bigint, s, off => by
    unfold build zero
    have hread := congrArg (fun b => Val.int (fromBytes b)) (contents_zero indirect s off)
    exact hread.trans rfl
  | .record fields, s, off => by
    unfold build zero
    exact congrArg Val.list (get_zeros fields s off)
  | .array item n, s, off => by
    unfold build zero
    exact congrArg Val.list (readItems_const (get_zero item s) off n)
  | .dynArray item, s, off => by
    unfold build zero
    have hread := readItems_const (get_zero item (indirect s off)) 0 (load (fun _ _ => 0) s off 4)
    rw [load_zero] at hread
    exact congrArg Val.list ((congrArg _ (load_zero s 4 off)).trans hread)
  | .indirection item, s, off => by
    unfold build zero
    exact get_zero item (indirect s off) 0
  | .vla item, s, off => by
    unfold build zero
    have hread := readItems_const (get_zero item s) (off + 4) 0
    exact congrArg Val.list ((congrArg _ (load_zero s 4 off)).trans hread)

theorem get_zeros : ∀ (ts : List Ty) (s : S) (off : Nat),
    readFields (buildAll indirect ts) (fun _ _ => 0) s off = zeros ts
  | [], _, _ => rfl
  | t :: ts, s, off => by
    unfold buildAll zeros readFields
    rw [get_zero t, get_zeros ts]
end

end Zero

/-! ## A fresh map -/

section Fresh

variable {S : Type} [DecidableEq S] (T : Slots S) (D : MapTy) (p : List Nat) (off : Nat)

theorem own_le : D.own off 1 ≤ D.own off 2 := by
  unfold MapTy.own mapTys
  simp only [List.take, slotSizes]
  omega

theorem value_region (n : Nat) :
    (D.inNode p off D.value n 1).region T ⊆ (D.place p off).region T :=
  (follow_inside D.laid (follow_value D p off n)).2.1

/-- The bytes of a length of the map are among the map's. -/
theorem length_region {i : Nat} {t : Ty} (h : (mapTys D.key D.value)[i]? = some (.dynArray t)) :
    cells (addr T p) (D.own off i) 4 ⊆ (D.place p off).region T := by
  have hplace := follow_own D p off i _ h
  exact subset_trans (cells_subset within_of_lt) (follow_inside (T := T) D.laid hplace).2.1

theorem unused_of_agree {m m' : Mem S} (hagree : AgreeOn ((D.place p off).region T) m m')
    (h : Unused (D.fields T p off) (zero D.value) m) :
    Unused (D.fields T p off) (zero D.value) m' := by
  have hlen : ∀ {i : Nat} {t : Ty}, (mapTys D.key D.value)[i]? = some (.dynArray t) →
      (Layout.natCell (addr T p) (D.own off i)).get m
        = (Layout.natCell (addr T p) (D.own off i)).get m' := by
    intro i t hi
    unfold Layout.natCell
    dsimp only
    rw [load_agree (hagree.mono (length_region T D p off hi))]
  obtain ⟨hfree, len, hslots, hbehind⟩ := h
  refine ⟨(hlen (i := 2) rfl).symm.trans hfree, len, (hlen (i := 1) rfl).symm.trans hslots, fun n hn => ?_⟩
  have hspec := build_spec (T := T) D.value (follow_inside (T := T) D.laid (follow_value D p off n)).1
  have hsame := hspec.get_congr _ _ _ _ (hagree.mono (value_region T D p off n))
  exact (congrArg Except.ok hsame.symm).trans (hbehind n hn)

theorem unused_zero (hoff : D.own off 2 + 4 < 2 ^ 32) :
    Unused (D.fields T p off) (zero D.value) (fun _ _ => 0) := by
  have hle := own_le D off
  have hlen : ∀ {i : Nat}, D.own off i + 4 < 2 ^ 32 →
      (Layout.natCell (addr T p) (D.own off i)).get (fun _ _ => 0) = .ok 0 := by
    intro i hi
    unfold Layout.natCell
    dsimp only
    rw [if_pos hi, load_zero]
  refine ⟨hlen hoff, 0, hlen (by omega), fun n _ => ?_⟩
  exact congrArg Except.ok (get_zero T.child D.value _ _)

theorem unused_view {m m' : Mem S} {n : Nat} (hn : n < load m (addr T p) (D.own off 1) 4)
    (hframe : Frame ((D.inNode p off D.value n 1).region T) m m')
    (h : Unused (D.fields T p off) (zero D.value) m) :
    Unused (D.fields T p off) (zero D.value) m' := by
  obtain ⟨hfree, len, hslots, hbehind⟩ := h
  have hplace := follow_value D p off n
  have hfree' := natCell_kept T D p off hplace (follow_own D p off 2 _ rfl) hframe
    (by simp [valuePath]) (by simp [valuePath])
  refine ⟨hfree'.trans hfree, len, (len_kept T D off rfl hframe).trans hslots, fun n' hn' => ?_⟩
  have hlen := (Layout.natCell_get hslots).2
  have hne : n ≠ n' := by
    rintro rfl
    omega
  have hsame := value_kept T D p off hplace hframe (n := n') (by simp [valuePath, hne])
    (by simp [valuePath, Ne.symm hne])
  exact (congrArg Except.ok hsame).trans (hbehind n' hn')

end Fresh

/-! ## Histories -/

section Histories

variable {S : Type} [DecidableEq S] (T : Slots S) (D : MapTy) (p : List Nat) (off : Nat)

/-- The slot that `_alloc_slot` takes. -/
def nextAt (m : Mem S) : Nat :=
  let free := load m (addr T p) (D.own off 2) 4
  if free > 0 then load m (addr T (D.own off 2 :: p)) ((free - 1) * slotSize (.fixed 4)) 4
  else load m (addr T p) (D.own off 1) 4

theorem nextSlot_at {m m' : Mem S} {i : Nat} (h : nextSlot (D.fields T p off) m = .ok (i, m')) :
    D.own off 2 + 4 < 2 ^ 32 ∧ i = nextAt T D p off m := by
  unfold nextSlot at h
  obtain ⟨n, m1, hread, h⟩ := bind_ok.mp h
  obtain ⟨hget, rfl⟩ := read_ok hread
  obtain ⟨hoff, rfl⟩ := Layout.natCell_get hget
  refine ⟨hoff, ?_⟩
  unfold nextAt
  dsimp only
  split at h
  · rename_i hpos
    rw [if_pos hpos]
    exact (Layout.natCell_get (read_ok h).1).2
  · rename_i hpos
    rw [if_neg hpos]
    exact (Layout.natCell_get (read_ok h).1).2

/-- A successful `get_or_insert_default` of an absent key. -/
structure Call (S : Type) where
  before : Mem S
  result : Val
  after : Mem S

/-- What the slot that a call takes reads as in a memory. -/
def Call.stored (c : Call S) (m : Mem S) : Val :=
  (D.inNode p off D.value (nextAt T D p off c.before) 1).get T m

variable {β : Type} (look : Val → β)

/-- The call returned and stored what looks like the default. -/
def Call.Default (c : Call S) : Prop :=
  look c.result = look (zero D.value) ∧ look (c.stored T D p off c.after) = look (zero D.value)

/-- The slot looked like the default before the call. -/
def Call.Clean (c : Call S) : Prop := look (c.stored T D p off c.before) = look (zero D.value)

variable [LT Val] [DecidableLT Val] (I : Items Val Val ε)

/-- What may happen to a map and around it: its operations, with whatever
comes of them; writes to a value by its view; writes elsewhere. -/
inductive History (removals : Bool) (start : Mem S) : List (Call S) → Mem S → Prop
  | start : History removals start [] start
  | operation {calls m m'} (fuel : Nat) (op : Op Val Val ε) (x : Except ε Val)
      (before : History removals start calls m)
      (runs : run (D.fields T p off) I fuel op m = .ok (x, m'))
      (other : ∀ k v, op = .getOrInsertDefault k → x = .ok v →
        Py.get (D.fields T p off) fuel k m ≠ .ok (none, m)) : History removals start calls m'
  | inserted {calls m m'} (fuel : Nat) (k v : Val) (before : History removals start calls m)
      (absent : Py.get (D.fields T p off) fuel k m = .ok (none, m))
      (runs : run (D.fields T p off) I fuel (.getOrInsertDefault k) m = .ok (.ok v, m')) :
      History removals start (calls ++ [⟨m, v, m'⟩]) m'
  | delItem {calls m m'} (fuel : Nat) (k : Val) (before : History removals start calls m)
      (allowed : removals = true)
      (runs : Py.delItem (D.fields T p off) fuel k m = .ok ((), m')) : History removals start calls m'
  | clear {calls m m'} (before : History removals start calls m) (allowed : removals = true)
      (runs : Py.clear (D.fields T p off) m = .ok ((), m')) : History removals start calls m'
  | view {calls m m'} (n : Nat) (before : History removals start calls m)
      (inPool : n < load m (addr T p) (D.own off 1) 4)
      (writes : Frame ((D.inNode p off D.value n 1).region T) m m') : History removals start calls m'
  | elsewhere {calls m m'} (before : History removals start calls m)
      (writes : AgreeOn ((D.place p off).region T) m m') : History removals start calls m'

/-- A call returns and leaves what its slot read as. -/
theorem call_stale {removals : Bool} {start m : Mem S} {calls : List (Call S)}
    (h : History T D p off I removals start calls m) : ∀ c ∈ calls,
    c.stored T D p off c.before = c.result ∧ c.stored T D p off c.after = c.result := by
  induction h with
  | start => exact fun c hc => nomatch hc
  | operation _ _ _ _ _ _ ih => exact ih
  | inserted fuel k v _ habsent hrun ih =>
    intro c hc
    rcases List.mem_append.mp hc with hc | hc
    · exact ih c hc
    · obtain rfl := List.mem_singleton.mp hc
      obtain ⟨i, hnext, hbefore, hafter⟩ :=
        getOrInsertDefault_stale (fields_apart_all T D p off) habsent hrun
      obtain ⟨-, rfl⟩ := nextSlot_at T D p off hnext
      exact ⟨Except.ok.inj hbefore, Except.ok.inj hafter⟩
  | delItem _ _ _ _ _ ih => exact ih
  | clear _ _ _ ih => exact ih
  | view _ _ _ _ ih => exact ih
  | elsewhere _ _ ih => exact ih

/-- In a map that was fresh and that nothing is removed from, no slot was used before. -/
theorem history_unused {start m : Mem S} {calls : List (Call S)}
    (hstart : AgreeOn ((D.place p off).region T) (fun _ _ => 0) start)
    (hoff : D.own off 2 + 4 < 2 ^ 32) (h : History T D p off I false start calls m) :
    Unused (D.fields T p off) (zero D.value) m := by
  have hF := fields_apart_all T D p off
  induction h with
  | start => exact unused_of_agree T D p off hstart (unused_zero T D p off hoff)
  | operation _ _ _ _ hrun _ ih => exact unused_run hF hrun ih
  | inserted _ _ _ _ _ hrun ih => exact unused_run hF hrun ih
  | delItem _ _ _ hallowed => cases hallowed
  | clear _ hallowed => cases hallowed
  | view n _ hn hframe ih => exact unused_view T D p off hn hframe ih
  | elsewhere _ hagree ih => exact unused_of_agree T D p off hagree ih

/-- A call of a map that nothing was removed from finds a slot of zeros. -/
theorem calls_clean {start m : Mem S} {calls : List (Call S)}
    (hstart : AgreeOn ((D.place p off).region T) (fun _ _ => 0) start)
    (h : History T D p off I false start calls m) : ∀ c ∈ calls, c.Clean T D p off look := by
  have hF := fields_apart_all T D p off
  induction h with
  | start => exact fun c hc => nomatch hc
  | operation _ _ _ _ _ _ ih => exact ih
  | @inserted calls m m' fuel k v hbefore habsent hrun ih =>
    intro c hc
    rcases List.mem_append.mp hc with hc | hc
    · exact ih c hc
    · obtain rfl := List.mem_singleton.mp hc
      obtain ⟨i, hnext, -, -⟩ := getOrInsertDefault_stale hF habsent hrun
      obtain ⟨hoff, hi⟩ := nextSlot_at T D p off hnext
      obtain ⟨hfree, len, hslots, hbehind⟩ := history_unused T D p off I hstart hoff hbefore
      have hnone : load m (addr T p) (D.own off 2) 4 = 0 := (Layout.natCell_get hfree).2.symm
      have hnextLen : nextAt T D p off m = len := by
        unfold nextAt
        dsimp only
        rw [hnone, if_neg (Nat.lt_irrefl 0)]
        exact (Layout.natCell_get hslots).2.symm
      exact congrArg look (Except.ok.inj (hbehind _ (le_of_eq hnextLen.symm)))
  | delItem _ _ _ hallowed => cases hallowed
  | clear _ hallowed => cases hallowed
  | view _ _ _ _ ih => exact ih
  | elsewhere _ _ ih => exact ih

/-- In every history, every new entry reads as the default exactly when every
slot that was taken for one did; in a history that removes nothing from a
fresh map, every new entry does. -/
theorem default_entries {removals : Bool} {start m : Mem S} {calls : List (Call S)}
    (h : History T D p off I removals start calls m) :
    ((∀ c ∈ calls, c.Default T D p off look) ↔ ∀ c ∈ calls, c.Clean T D p off look) ∧
    (removals = false → AgreeOn ((D.place p off).region T) (fun _ _ => 0) start →
      ∀ c ∈ calls, c.Default T D p off look) := by
  have hstale := call_stale T D p off I h
  have hiff : ∀ c ∈ calls, c.Default T D p off look ↔ c.Clean T D p off look := by
    intro c hc
    obtain ⟨hbefore, hafter⟩ := hstale c hc
    unfold Call.Default Call.Clean
    rw [hbefore, hafter, and_self]
  refine ⟨forall₂_congr hiff, fun hremovals hstart c hc => ?_⟩
  subst hremovals
  exact (hiff c hc).mpr (calls_clean T D p off look I hstart h c hc)

end Histories

/-! ## A key that was deleted -/

/-- Keys are compared by their bytes. -/
instance ltVal : LT Val := ⟨fun a b => match a, b with
  | .bytes a, .bytes b => a < b
  | _, _ => False⟩

instance decidableLTVal : DecidableLT Val := fun a b => match a, b with
  | .bytes a, .bytes b => inferInstanceAs (Decidable (a < b))
  | .bytes _, .bool _ | .bytes _, .int _ | .bytes _, .list _ => isFalse id
  | .bool _, _ | .int _, _ | .list _, _ => isFalse id

def plainItems : Items Val Val Unit := ⟨fun k _ => (.ok (), k), fun v _ => (.ok (), v)⟩

/-- Keys of one byte, each with an array of bytes. -/
def arrayMap : MapTy where
  key := .fixed 1
  value := .dynArray (.fixed 1)
  laid := by simp [mapTys, nodeTys, VlaLast, VlaLastAll, extent, extents]

def arrayFields : Fields (Mem (List Nat)) Val Val := arrayMap.fields pathSlots [] 0

/-- Set an entry, delete it, look it up and insert its default. -/
def recycled : Act (Mem (List Nat)) Unit (Option Val × Val) := do
  let _ ← run arrayFields plainItems 3 (.setItem (.bytes [1]) (.list [.bytes [5]]))
  act (Py.delItem arrayFields 3 (.bytes [1]))
  let found ← act (Py.get arrayFields 3 (.bytes [1]))
  let v ← run arrayFields plainItems 3 (.getOrInsertDefault (.bytes [1]))
  pure (found, v)

theorem recycled_result : ∃ m, recycled (fun _ _ => 0) = .ok (.ok (none, .list [.bytes [5]]), m) :=
  ⟨_, rfl⟩

/-- A map that was fresh, and a call in it that returned what was deleted. -/
theorem recycled_history : ∃ calls m,
    History pathSlots arrayMap [] 0 plainItems true (fun _ _ => 0) calls m ∧
    ∃ c ∈ calls, c.result = .list [.bytes [5]] := by
  obtain ⟨m, h⟩ := recycled_result
  unfold recycled at h
  rcases raising_bind h with ⟨e, hx, -⟩ | ⟨_, m1, hset, h⟩
  · cases hx
  · obtain ⟨_, m2, hdel, h⟩ := act_bind.mp h
    obtain ⟨found, m3, hget, h⟩ := act_bind.mp h
    rcases raising_bind h with ⟨e, hx, -⟩ | ⟨v, m4, hrun, h⟩
    · cases hx
    · obtain ⟨hresult, rfl⟩ := supply_ok.mp h
      obtain ⟨rfl, rfl⟩ := Prod.mk.inj (Except.ok.inj hresult)
      have hsame : m2 = m3 := (saves_get (P := (· = m2)) _ _ _ _ _ hget rfl).symm
      subst hsame
      have h1 : History pathSlots arrayMap [] 0 plainItems true (fun _ _ => 0) [] m1 :=
        .operation 3 _ _ .start hset (by intro _ _ hop; cases hop)
      have h2 := History.delItem 3 _ h1 rfl hdel
      have h3 := History.inserted 3 _ _ h2 hget hrun
      exact ⟨_, _, h3, _, List.mem_append_right _ (List.mem_singleton.mpr rfl), rfl⟩

theorem zero_arrayMap : zero arrayMap.value = .list [] := by
  unfold arrayMap
  dsimp only
  unfold zero
  rfl

theorem recycled_not_default : ¬ ∀ calls m,
    History pathSlots arrayMap [] 0 plainItems true (fun _ _ => 0) calls m →
    ∀ c ∈ calls, c.Default pathSlots arrayMap [] 0 id := by
  intro hall
  obtain ⟨calls, m, h, c, hc, hresult⟩ := recycled_history
  have hdefault := (hall calls m h c hc).1
  rw [hresult, zero_arrayMap] at hdefault
  cases hdefault

theorem default_entries_recycled : ∃ calls m,
    History pathSlots arrayMap [] 0 plainItems true (fun _ _ => 0) calls m ∧
    ((∀ c ∈ calls, c.Default pathSlots arrayMap [] 0 id) ↔
      ∀ c ∈ calls, c.Clean pathSlots arrayMap [] 0 id) := by
  obtain ⟨calls, m, h, -⟩ := recycled_history
  exact ⟨calls, m, h, (default_entries pathSlots arrayMap [] 0 id plainItems h).1⟩

end GenVM.Storage.Stale
