import GenVM.Lib.ByteMem
import GenVM.Storage.TreeMapAgree

/-!
# Contract storage of the two SDKs, byte for byte

A storage type is laid out in its slot; arrays keep their items in the slot
derived from where their length lies. Both SDKs compute sizes and offsets
from the type, walk to a place, and read and write fields there
(executor/crates/sdk-rs/src/storage/{core,record,array,tree_map}.rs,
runners/genlayer-py-std/src/genlayer/storage/{core,dyn_array,tree_map}.py and
_internal/{generate,desc_record,desc_base_types}.py). `indirect` is the
derivation of a slot, shared by both. An access whose end does not fit 32
bits fails: the host refuses it, and offsets of either SDK do not wrap first.

**Results.**
* `run_agree`: a sequence of operations that neither SDK fails on leaves the
  same bytes in every slot and reads the same.
-/
namespace GenVM.Storage.Layout

open ByteMem TreeMap Agree

/-- A fixed-width integer: its bytes and whether it is signed. -/
structure IntTy where
  bytes : Nat
  signed : Bool
  deriving DecidableEq, Repr

/-- Storage types. -/
inductive Ty where
  | int (t : IntTy)
  | record (fields : List Ty)
  | dynArray (item : Ty)
  | treeMap (k : IntTy) (v : Ty)

def u32 : IntTy := ⟨4, false⟩

def i8 : IntTy := ⟨1, true⟩

/-- The node of a map: `key`, `value`, `left`, `right`, `balance`; mirrors
tree_map.rs:8-14 and tree_map.py:15-21. -/
def nodeFields (k : IntTy) (v : Ty) : List Ty := [.int k, v, .int u32, .int u32, .int i8]

/-! ## Sizes and offsets -/

mutual
/-- `SIZE`, mirrors core.rs:62-83, record.rs:50-51 and array.rs:103-106: a
record adds its fields up, an array takes its length, a map its three fields. -/
def rustSize : Ty → Nat
  | .int t => t.bytes
  | .record fs => rustSizes fs
  | .dynArray _ => 4
  | .treeMap _ _ => 4 + 4 + 4
def rustSizes : List Ty → Nat
  | [] => 0
  | t :: ts => rustSize t + rustSizes ts
end

/-- The offset of a field: the sizes of those before it; mirrors record.rs:59-68. -/
def rustField (fs : List Ty) (i : Nat) : Nat := rustSizes (fs.take i)

mutual
/-- `TypeDesc.size`, mirrors desc_base_types.py:27-32, generate.py:383-424 and
dyn_array.py:259-261; a map is the record of its three fields. -/
def pySize : Ty → Nat
  | .int t => t.bytes
  | .record fs => pyStruct fs 0
  | .dynArray _ => 4
  | .treeMap _ _ => ((0 + 4) + 4) + 4
/-- The running `size` of `_storage_build_struct`. -/
def pyStruct : List Ty → Nat → Nat
  | [], size => size
  | t :: ts, size => pyStruct ts (size + pySize t)
end

/-- `props[name][1]`: the running size when the field was met. -/
def pyField (fs : List Ty) (i : Nat) : Nat := pyStruct (fs.take i) 0

/-! ## Fields in memory -/

section Memory

variable {S : Type} [DecidableEq S]

def IntTy.inRange (t : IntTy) (v : Int) : Prop :=
  if t.signed then -(2 ^ (8 * t.bytes - 1) : Nat) ≤ v ∧ v < (2 ^ (8 * t.bytes - 1) : Nat)
  else 0 ≤ v ∧ v < (2 ^ (8 * t.bytes) : Nat)

instance (t : IntTy) (v : Int) : Decidable (t.inRange v) := by
  unfold IntTy.inRange
  infer_instance

/-- `from_le_bytes`, `int.from_bytes(.., 'little')` -/
def IntTy.decode (t : IntTy) (n : Nat) : Int :=
  if t.signed ∧ 2 ^ (8 * t.bytes - 1) ≤ n then (n : Int) - (2 ^ (8 * t.bytes) : Nat) else n

/-- `to_le_bytes`, `to_bytes(.., 'little')` -/
def IntTy.encode (t : IntTy) (v : Int) : Nat := (v % (2 ^ (8 * t.bytes) : Nat)).toNat

/-- The place of an integer as a field. -/
def intCell (t : IntTy) (slot : S) (off : Nat) : Cell (Mem S) Int where
  get m := if off + t.bytes < 2 ^ 32 then .ok (t.decode (load m slot off t.bytes)) else .error .raised
  set v m :=
    if off + t.bytes < 2 ^ 32 ∧ t.inRange v then .ok (store m slot off t.bytes (t.encode v))
    else .error .raised

/-- The place of a `u32` as a field. -/
def natCell (slot : S) (off : Nat) : Cell (Mem S) Nat where
  get m := if off + 4 < 2 ^ 32 then .ok (load m slot off 4) else .error .raised
  set n m := if off + 4 < 2 ^ 32 ∧ n < 2 ^ 32 then .ok (store m slot off 4 n) else .error .raised

/-- A value that is written as a whole: of an integer type. -/
def valueCell (t : Ty) (slot : S) (off : Nat) : Cell (Mem S) Int :=
  match t with
  | .int t => intCell t slot off
  | _ => ⟨fun _ => .error .raised, fun _ _ => .error .raised⟩

variable (indirect : S → Nat → S)

/-- The fields of the map at a place, by how its SDK lays records out. -/
def mapFields (size : Ty → Nat) (field : List Ty → Nat → Nat) (slot : S) (off : Nat)
    (k : IntTy) (v : Ty) : Fields (Mem S) Int Int :=
  let own := field [.int u32, .dynArray (.record (nodeFields k v)), .dynArray (.int u32)]
  let nodes := indirect slot (off + own 1)
  let node := fun i f => i * size (.record (nodeFields k v)) + field (nodeFields k v) f
  { root := natCell slot (off + own 0)
    slotsLen := natCell slot (off + own 1)
    freeLen := natCell slot (off + own 2)
    free := fun i => natCell (indirect slot (off + own 2)) (i * size (.int u32))
    key := fun i => intCell k nodes (node i 0)
    value := fun i => valueCell v nodes (node i 1)
    left := fun i => natCell nodes (node i 2)
    right := fun i => natCell nodes (node i 3)
    balance := fun i => intCell i8 nodes (node i 4) }

/-! ## Walking to a place and operating on it -/

/-- A step into a record or an array. -/
inductive Step where
  | field (i : Nat)
  | item (i : Nat)
  deriving DecidableEq, Repr

/-- An operation at a place; a map is read and written by key. -/
inductive Op where
  | read
  | write (v : Int)
  | append (v : Int)
  | appendNew
  | pop
  | clear
  | insert (k v : Int)
  | remove (k : Int)
  | get (k : Int)
  deriving DecidableEq, Repr

/-- mirrors record.rs:59-68 and array.rs:81-84 -/
def rustPlace : Ty → List Step → S → Nat → M (Mem S) (Ty × S × Nat)
  | t, [], slot, off => pure (t, slot, off)
  | .record fs, .field i :: path, slot, off =>
    match fs[i]? with
    | some t => rustPlace t path slot (off + rustField fs i)
    | none => throw .panicked
  | .dynArray t, .item i :: path, slot, off => do
    let j ← Rust.index (natCell slot off) i
    rustPlace t path (indirect slot off) (j * rustSize t)
  | _, _ :: _, _, _ => throw .panicked

/-- mirrors the getters of generate.py:403-405 and dyn_array.py:58-61 -/
def pyPlace : Ty → List Step → S → Nat → M (Mem S) (Ty × S × Nat)
  | t, [], slot, off => pure (t, slot, off)
  | .record fs, .field i :: path, slot, off =>
    match fs[i]? with
    | some t => pyPlace t path slot (off + pyField fs i)
    | none => throw .raised
  | .dynArray t, .item i :: path, slot, off => do
    let j ← Py.mapIndex (natCell slot off) i
    pyPlace t path (indirect slot off) (j * pySize t)
  | _, _ :: _, _, _ => throw .raised

/-- An operation of the Rust SDK; `fuel` bounds the walks in a map. -/
def rustOp (fuel : Nat) : Op → Ty → S → Nat → M (Mem S) (Option Int)
  | .read, .int t, slot, off => do
    let v ← (intCell t slot off).read
    pure (some v)
  | .write v, .int t, slot, off => do
    (intCell t slot off).write v
    pure none
  | .append v, .dynArray (.int t), slot, off => do
    let i ← Rust.appendSlot (natCell slot off)
    (intCell t (indirect slot off) (i * rustSize (.int t))).write v
    pure none
  | .appendNew, .dynArray _, slot, off => do
    let _ ← Rust.appendSlot (natCell slot off)
    pure none
  | .pop, .dynArray _, slot, off => do
    Rust.pop (natCell slot off)
    pure none
  | .clear, .dynArray _, slot, off => do
    (natCell slot off).write 0
    pure none
  | .clear, .treeMap k v, slot, off => do
    Rust.clear (mapFields indirect rustSize rustField slot off k v)
    pure none
  | .insert k v, .treeMap kt vt, slot, off => do
    Rust.insert (mapFields indirect rustSize rustField slot off kt vt) fuel k v
    pure none
  | .remove k, .treeMap kt vt, slot, off => do
    let _ ← Rust.remove (mapFields indirect rustSize rustField slot off kt vt) fuel k
    pure none
  | .get k, .treeMap kt vt, slot, off =>
    Rust.get (mapFields indirect rustSize rustField slot off kt vt) fuel k
  | _, _, _, _ => throw .panicked

/-- An operation of the Python standard library. -/
def pyOp (fuel : Nat) : Op → Ty → S → Nat → M (Mem S) (Option Int)
  | .read, .int t, slot, off => do
    let v ← (intCell t slot off).read
    pure (some v)
  | .write v, .int t, slot, off => do
    (intCell t slot off).write v
    pure none
  | .append v, .dynArray (.int t), slot, off => do
    let i ← Py.appendNewGet (natCell slot off)
    (intCell t (indirect slot off) (i * pySize (.int t))).write v
    pure none
  | .appendNew, .dynArray _, slot, off => do
    let _ ← Py.appendNewGet (natCell slot off)
    pure none
  | .pop, .dynArray _, slot, off => do
    Py.pop (natCell slot off)
    pure none
  | .clear, .dynArray _, slot, off => do
    (natCell slot off).write 0
    pure none
  | .clear, .treeMap k v, slot, off => do
    Py.clear (mapFields indirect pySize pyField slot off k v)
    pure none
  | .insert k v, .treeMap kt vt, slot, off => do
    Py.setItem (mapFields indirect pySize pyField slot off kt vt) fuel k v
    pure none
  | .remove k, .treeMap kt vt, slot, off => do
    Py.delItem (mapFields indirect pySize pyField slot off kt vt) fuel k
    pure none
  | .get k, .treeMap kt vt, slot, off =>
    Py.get (mapFields indirect pySize pyField slot off kt vt) fuel k
  | _, _, _, _ => throw .raised

/-- Operations one after the other, each at its place under the root type. -/
def rustRun (fuel : Nat) (root : Ty) (slot : S) :
    List (List Step × Op) → M (Mem S) (List (Option Int))
  | [] => pure []
  | (path, op) :: ops => do
    let (t, at', off) ← rustPlace indirect root path slot 0
    let r ← rustOp indirect fuel op t at' off
    let rs ← rustRun fuel root slot ops
    pure (r :: rs)

def pyRun (fuel : Nat) (root : Ty) (slot : S) :
    List (List Step × Op) → M (Mem S) (List (Option Int))
  | [] => pure []
  | (path, op) :: ops => do
    let (t, at', off) ← pyPlace indirect root path slot 0
    let r ← pyOp indirect fuel op t at' off
    let rs ← pyRun fuel root slot ops
    pure (r :: rs)

/-! ## The layouts coincide -/

mutual
theorem pySize_eq : ∀ t : Ty, pySize t = rustSize t
  | .int _ => rfl
  | .record fs => by
    unfold pySize rustSize
    rw [pyStruct_eq fs 0, Nat.zero_add]
  | .dynArray _ => rfl
  | .treeMap _ _ => rfl
theorem pyStruct_eq : ∀ (ts : List Ty) (size : Nat), pyStruct ts size = size + rustSizes ts
  | [], _ => rfl
  | t :: ts, size => by
    unfold pyStruct rustSizes
    rw [pyStruct_eq ts, pySize_eq t, Nat.add_assoc]
end

theorem pyField_eq (fs : List Ty) (i : Nat) : pyField fs i = rustField fs i := by
  unfold pyField rustField
  rw [pyStruct_eq, Nat.zero_add]

theorem mapFields_eq (slot : S) (off : Nat) (k : IntTy) (v : Ty) :
    mapFields indirect pySize pyField slot off k v
      = mapFields indirect rustSize rustField slot off k v := by
  have hsize : pySize = rustSize := funext pySize_eq
  have hfield : pyField = rustField := funext fun fs => funext fun i => pyField_eq fs i
  rw [hsize, hfield]

/-! ## The fields of a map behave as fields -/

theorem natCell_get {slot : S} {off n : Nat} {m : Mem S} (h : (natCell slot off).get m = .ok n) :
    off + 4 < 2 ^ 32 ∧ n = load m slot off 4 := by
  unfold natCell at h
  dsimp only at h
  split at h
  · rename_i hoff
    exact ⟨hoff, (Except.ok.inj h).symm⟩
  · cases h

theorem natCell_set {slot : S} {off n : Nat} {m m1 : Mem S}
    (h : (natCell slot off).set n m = .ok m1) :
    (off + 4 < 2 ^ 32 ∧ n < 2 ^ 32) ∧ m1 = store m slot off 4 n := by
  unfold natCell at h
  dsimp only at h
  split at h
  · rename_i hoff
    exact ⟨hoff, (Except.ok.inj h).symm⟩
  · cases h

theorem intCell_set {t : IntTy} {slot : S} {off : Nat} {v : Int} {m m1 : Mem S}
    (h : (intCell t slot off).set v m = .ok m1) :
    (off + t.bytes < 2 ^ 32 ∧ t.inRange v) ∧ m1 = store m slot off t.bytes (t.encode v) := by
  unfold intCell at h
  dsimp only at h
  split at h
  · rename_i hoff
    exact ⟨hoff, (Except.ok.inj h).symm⟩
  · cases h

/-- Filling in a value before or after fields it shares no byte with. -/
theorem fill_value {m m1 m2 : Mem S} {slot : S} {t : Ty} {o w l r b : Nat} {v : Int}
    (hw : rustSize t = w) (hl : o + w ≤ l) (hr : l + 4 ≤ r) (hb : r + 4 ≤ b)
    (h1 : ((natCell slot l).write 0 >>= fun _ => (natCell slot r).write 0 >>= fun _ =>
      (intCell i8 slot b).write 0 >>= fun _ => (valueCell t slot o).write v : M (Mem S) Unit) m
        = .ok ((), m1))
    (h2 : ((valueCell t slot o).write v >>= fun _ => (natCell slot l).write 0 >>= fun _ =>
      (natCell slot r).write 0 >>= fun _ => (intCell i8 slot b).write 0 : M (Mem S) Unit) m
        = .ok ((), m2)) : m1 = m2 := by
  cases t with
  | int t =>
    simp only [rustSize] at hw
    obtain ⟨_, ma, ha, h1⟩ := bind_ok.mp h1
    obtain ⟨_, mb, hb1, h1⟩ := bind_ok.mp h1
    obtain ⟨_, mc, hc, h1⟩ := bind_ok.mp h1
    obtain ⟨_, md, hd, h2⟩ := bind_ok.mp h2
    obtain ⟨_, me, he, h2⟩ := bind_ok.mp h2
    obtain ⟨_, mf, hf, h2⟩ := bind_ok.mp h2
    obtain ⟨-, rfl⟩ := natCell_set (write_ok ha)
    obtain ⟨-, rfl⟩ := natCell_set (write_ok hb1)
    obtain ⟨-, rfl⟩ := intCell_set (write_ok hc)
    obtain ⟨-, rfl⟩ := intCell_set (write_ok h1)
    obtain ⟨-, rfl⟩ := intCell_set (write_ok hd)
    obtain ⟨-, rfl⟩ := natCell_set (write_ok he)
    obtain ⟨-, rfl⟩ := natCell_set (write_ok hf)
    obtain ⟨-, rfl⟩ := intCell_set (write_ok h2)
    -- the value moves in front of one link after the other
    have hcomm : ∀ (m : Mem S) (a wa na : Nat), o + t.bytes ≤ a →
        store (store m slot a wa na) slot o t.bytes (t.encode v)
          = store (store m slot o t.bytes (t.encode v)) slot a wa na := by
      intro m a wa na ha
      exact store_comm fun _ => .inr ha
    rw [hcomm _ b _ _ (by omega), hcomm _ r _ _ (by omega), hcomm _ l _ _ (by omega)]
  | _ =>
    obtain ⟨_, md, hd, -⟩ := bind_ok.mp h2
    exact nomatch write_ok hd

theorem mapFields_laws (slot : S) (off : Nat) (k : IntTy) (v : Ty) :
    Laws (mapFields indirect rustSize rustField slot off k v) where
  slotsLen_lt := by
    intro m n h
    obtain ⟨-, rfl⟩ := natCell_get h
    exact load_lt m _ _ 4
  root_same := by
    intro m r h
    obtain ⟨hoff, rfl⟩ := natCell_get h
    unfold mapFields natCell
    dsimp only
    rw [if_pos ⟨hoff, load_lt m _ _ 4⟩, store_load]
  root_get := by
    intro m r m1 h
    obtain ⟨⟨hoff, hr⟩, rfl⟩ := natCell_set h
    unfold mapFields natCell
    dsimp only
    rw [if_pos hoff, load_store _ _ _ hr]
  fill := by
    intro m m1 m2 n x h1 h2
    refine fill_value (w := rustSize v) rfl ?_ ?_ ?_ h1 h2
    · simp [nodeFields, rustField, rustSizes, rustSize, u32]
      omega
    · simp [nodeFields, rustField, rustSizes, rustSize, u32]
      omega
    · simp [nodeFields, rustField, rustSizes, rustSize, u32]
      omega

/-! ## Runs -/

theorem place_agree (t : Ty) (path : List Step) (slot : S) (off : Nat) (m : Mem S) :
    At m (rustPlace indirect t path slot off) (pyPlace indirect t path slot off) := by
  induction path generalizing t slot off m with
  | nil =>
    cases t <;> exact At.refl _ _
  | cons step path ih =>
    cases t with
    | record fs =>
      cases step with
      | field i =>
        unfold rustPlace pyPlace
        rw [pyField_eq]
        cases fs[i]? with
        | none => exact Rel.throw_left
        | some t => exact ih t slot _ m
      | item i => exact Rel.throw_left
    | dynArray t =>
      cases step with
      | field i => exact Rel.throw_left
      | item i =>
        unfold rustPlace pyPlace
        refine At.bind (index_agree _ _ _) fun j m1 _ _ => ?_
        rw [pySize_eq]
        exact ih t _ _ m1
    | int t => cases step <;> exact Rel.throw_left
    | treeMap k v => cases step <;> exact Rel.throw_left

theorem op_agree (fuel fuel' : Nat) (op : Op) (t : Ty) (slot : S) (off : Nat) (m : Mem S) :
    At m (rustOp indirect fuel op t slot off) (pyOp indirect fuel' op t slot off) := by
  cases t with
  | int t =>
    cases op with
    | read => exact At.refl _ _
    | write v => exact At.refl _ _
    | _ => exact Rel.throw_left
  | record fs => cases op <;> exact Rel.throw_left
  | dynArray t =>
    cases op with
    | append v =>
      cases t with
      | int t => exact At.bind (append_agree _ _) fun i m1 _ _ => At.refl _ _
      | _ => exact Rel.throw_left
    | appendNew => exact At.bind (append_agree _ _) fun i m1 _ _ => At.refl _ _
    | pop => exact At.bind (pop_agree _ _) fun _ m1 _ _ => At.refl _ _
    | clear => exact At.refl _ _
    | _ => exact Rel.throw_left
  | treeMap kt vt =>
    have hlaws := mapFields_laws indirect slot off kt vt
    have heq := mapFields_eq indirect slot off kt vt
    cases op with
    | clear =>
      dsimp only [rustOp, pyOp]
      rw [heq]
      exact At.refl _ _
    | insert k v =>
      dsimp only [rustOp, pyOp]
      rw [heq]
      exact At.bind (insert_agree hlaws _ _ _ _ _) fun _ m1 _ _ => At.refl _ _
    | remove k =>
      dsimp only [rustOp, pyOp]
      rw [heq]
      have hdel := (remove_agree hlaws fuel fuel' k m).bind (f := fun _ => pure none)
        (g := fun _ => pure (none : Option Int)) fun _ m1 _ _ => At.refl m1 _
      simpa only [bind_assoc, pure_bind] using hdel
    | get k =>
      dsimp only [rustOp, pyOp]
      rw [heq]
      exact get_agree _ _ _ _ _
    | _ => exact Rel.throw_left

/-- Whatever neither SDK fails on leaves the same bytes everywhere and reads the same. -/
theorem run_agree (fuel fuel' : Nat) (root : Ty) (slot : S) (ops : List (List Step × Op))
    {m m1 m2 : Mem S} {rs rs' : List (Option Int)}
    (hrust : rustRun indirect fuel root slot ops m = .ok (rs, m1))
    (hpy : pyRun indirect fuel' root slot ops m = .ok (rs', m2)) : rs = rs' ∧ m1 = m2 := by
  have hall : ∀ (ops : List (List Step × Op)) (m : Mem S),
      At m (rustRun indirect fuel root slot ops) (pyRun indirect fuel' root slot ops) := by
    intro ops
    induction ops with
    | nil => exact fun m => At.refl m _
    | cons op ops ih =>
      intro m
      obtain ⟨path, op⟩ := op
      unfold rustRun pyRun
      refine At.bind (place_agree indirect root path slot 0 m) fun place m1 _ _ => ?_
      refine At.bind (op_agree indirect fuel fuel' op _ _ _ m1) fun r m2 _ _ => ?_
      exact At.bind (ih m2) fun rs m3 _ _ => At.refl _ _
  exact hall ops m rs m1 rs' m2 hrust hpy

end Memory

/-- A map in a record, and an array beside it; three insertions rotate. -/
def sampleRoot : Ty := .record [.int u32, .treeMap u32 (.int i8), .dynArray (.int u32)]

def sampleOps : List (List Step × Op) :=
  [([.field 1], .insert 3 (-1)), ([.field 1], .insert 2 5), ([.field 1], .insert 1 7),
    ([.field 1], .remove 2), ([.field 2], .append 9), ([.field 1], .get 1)]

theorem run_agree_at :
    ∃ (m1 m2 : Mem (List Nat)),
      rustRun (fun s o => o :: s) 9 sampleRoot [] sampleOps (fun _ _ => 0)
        = .ok ([none, none, none, none, none, some 7], m1) ∧
      pyRun (fun s o => o :: s) 9 sampleRoot [] sampleOps (fun _ _ => 0)
        = .ok ([none, none, none, none, none, some 7], m2) ∧ m1 = m2 := by
  have hrust : ((rustRun (fun s o => o :: s) 9 sampleRoot [] sampleOps
      (fun _ _ => 0)).toOption.map Prod.fst) = some [none, none, none, none, none, some 7] := by
    decide +kernel
  have hpy : ((pyRun (fun s o => o :: s) 9 sampleRoot [] sampleOps
      (fun _ _ => 0)).toOption.map Prod.fst) = some [none, none, none, none, none, some 7] := by
    decide +kernel
  rcases h1 : rustRun (fun s o => o :: s) 9 sampleRoot [] sampleOps (fun _ _ => 0) with e | ⟨r1, m1⟩
  · rw [h1] at hrust
    cases hrust
  · rcases h2 : pyRun (fun s o => o :: s) 9 sampleRoot [] sampleOps (fun _ _ => 0) with e | ⟨r2, m2⟩
    · rw [h2] at hpy
      cases hpy
    · rw [h1] at hrust
      rw [h2] at hpy
      obtain rfl : r1 = _ := Option.some.inj hrust
      obtain rfl : r2 = _ := Option.some.inj hpy
      exact ⟨m1, m2, rfl, rfl,
        (run_agree (fun s o => o :: s) 9 9 sampleRoot [] sampleOps h1 h2).2⟩

end GenVM.Storage.Layout
