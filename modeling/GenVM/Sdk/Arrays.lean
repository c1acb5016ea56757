import GenVM.Lib.ByteMem

/-!
# Storage arrays of the Rust SDK (`executor/crates/sdk-rs/src/storage/array.rs`)

The three arrays keep element `i` at `i * T::SIZE` from their first element, in
`u32` arithmetic that wraps in a release build. The length is bounded by `u32`
alone, not by what the slot can hold. All sums and products below are `UInt32`;
`usize` indices are `Nat`.

Results: `never_alias_run`, `unbounded_iff`.
-/
namespace GenVM.SdkArray
open ByteMem

variable {σ : Type}

/-- The handle of an element: where `T::handle_at` puts it. -/
structure Handle (σ : Type) where
  slot : σ
  offset : UInt32

/-- `StorageArray<T, N>`, `StorageDynArray<T>` and `StorageVLA<T>`. -/
inductive Kind where
  | array (N : Nat)
  | dynArray
  | vla

/-- An array at `(slot, offset)` whose elements have `T::SIZE = size`. -/
structure Arr (σ : Type) where
  kind : Kind
  slot : σ
  offset : UInt32
  size : UInt32

/-- `index.checked_add(buf_len)` of the host: it refuses the rest, and the guest
panics. mirrors executor/src/wasi/genlayer_sdk.rs:1457-1459 -/
def in_slot (offset : UInt32) (len : Nat) : Bool := offset.toNat + len < 2 ^ 32

/-- `Slot::read` of a `u32`: mirrors executor/crates/sdk-rs/src/storage/core.rs:87-91 -/
def get_u32 (m : Mem σ) (slot : σ) (offset : UInt32) : Option UInt32 :=
  if in_slot offset 4 then some (UInt32.ofNat (load m slot offset.toNat 4)) else none

/-- `Slot::write` of the `w` bytes of a number:
mirrors executor/crates/sdk-rs/src/storage/core.rs:93-95 -/
def set_le [DecidableEq σ] (m : Mem σ) (slot : σ) (offset : UInt32) (w n : Nat) : Option (Mem σ) :=
  if in_slot offset w then some (store m slot offset.toNat w n) else none

section
-- `slot.indirect(offset)`, a hash in the code
variable (indirect : σ → UInt32 → σ)

/-- mirrors executor/crates/sdk-rs/src/storage/array.rs:22-24, 68-70, 135-137 -/
def Arr.len (a : Arr σ) (m : Mem σ) : Option Nat :=
  match a.kind with
  | .array N => some N
  | .dynArray | .vla => (get_u32 m a.slot a.offset).map UInt32.toNat

/-- mirrors executor/crates/sdk-rs/src/storage/array.rs:30-33, 80-83, 147-150 -/
def Arr.index (a : Arr σ) (m : Mem σ) (idx : Nat) : Option (Handle σ) := do
  let len ← a.len m
  -- `assert!`
  if idx < len then
    match a.kind with
    | .array _ => some ⟨a.slot, a.offset + UInt32.ofNat idx * a.size⟩
    | .dynArray => some ⟨indirect a.slot a.offset, UInt32.ofNat idx * a.size⟩
    | .vla => some ⟨a.slot, a.offset + 4 + UInt32.ofNat idx * a.size⟩
  else none

/-- The slot that holds the elements. -/
def Arr.own_slot (a : Arr σ) : σ :=
  match a.kind with
  | .array _ | .vla => a.slot
  | .dynArray => indirect a.slot a.offset

/-- Where the elements begin, as a number. -/
def Arr.base (a : Arr σ) : Nat :=
  match a.kind with
  | .array _ => a.offset.toNat
  | .dynArray => 0
  | .vla => a.offset.toNat + 4

/-- What changes the array: the operations of its own, and a write of `w` bytes
at `k` into an element. -/
inductive Op where
  | set_len (len : UInt32)
  | append_slot
  | pop
  | clear
  | truncate (target : UInt32)
  | element (idx : Nat) (k : UInt32) (w n : Nat)

variable [DecidableEq σ]

/-- mirrors executor/crates/sdk-rs/src/storage/array.rs:76-78, 143-145 -/
def Arr.set_len (a : Arr σ) (m : Mem σ) (len : UInt32) : Option (Mem σ) :=
  set_le m a.slot a.offset 4 len.toNat

/-- A write of `w` bytes at `k` through the handle of an element: a field lies inside
the element. -/
def Arr.write_element (a : Arr σ) (m : Mem σ) (idx : Nat) (k : UInt32) (w n : Nat) :
    Option (Mem σ) := do
  let h ← a.index indirect m idx
  if k.toNat + w ≤ a.size.toNat then set_le m h.slot (h.offset + k) w n else none

/-- mirrors executor/crates/sdk-rs/src/storage/array.rs:86-101, 153-163. `StorageArray` has
no operation; `pop` and `clear` are of `StorageDynArray`, `truncate` of `StorageVLA`. -/
def Arr.step (a : Arr σ) (m : Mem σ) : Op → Option (Mem σ)
  | .set_len len =>
    match a.kind with
    | .array _ => none
    | .dynArray | .vla => a.set_len m len
  | .append_slot =>
    match a.kind with
    | .array _ => none
    | .dynArray | .vla => do
      let len ← get_u32 m a.slot a.offset
      a.set_len m (len + 1)
  | .pop =>
    match a.kind with
    | .dynArray => do
      let len ← get_u32 m a.slot a.offset
      if 0 < len then a.set_len m (len - 1) else none
    | .array _ | .vla => none
  | .clear =>
    match a.kind with
    | .dynArray => a.set_len m 0
    | .array _ | .vla => none
  | .truncate target =>
    match a.kind with
    | .vla => do
      let len ← get_u32 m a.slot a.offset
      if target ≤ len then a.set_len m target else none
    | .array _ | .dynArray => none
  | .element idx k w n => a.write_element indirect m idx k w n

/-- The states of a run that stops at the first panic, the first one included. -/
def Arr.states (a : Arr σ) (m : Mem σ) : List Op → List (Mem σ)
  | [] => [m]
  | op :: ops =>
    m :: match a.step indirect m op with
      | some m' => a.states m' ops
      | none => []

/-! ## What the layout promises -/

/-- Element `i` has the `size` bytes from `base + i * size` on, inside the 2^32
bytes of the slot. -/
def Arr.Placed (a : Arr σ) (m : Mem σ) : Prop :=
  ∀ i h, a.index indirect m i = some h → h.slot = a.own_slot indirect ∧
    h.offset.toNat = a.base + i * a.size.toNat ∧ h.offset.toNat + a.size.toNat ≤ 2 ^ 32

/-- Two elements share no byte. -/
def Arr.Apart (a : Arr σ) (m : Mem σ) : Prop :=
  ∀ i j h h', i ≠ j → a.index indirect m i = some h → a.index indirect m j = some h' →
    ByteMem.Disjoint h.slot h.offset.toNat a.size.toNat h'.slot h'.offset.toNat a.size.toNat

/-- A write through an element leaves the bytes of the others. -/
def Arr.Framed (a : Arr σ) (m : Mem σ) : Prop :=
  ∀ i j k w n m' h', i ≠ j → a.write_element indirect m i k w n = some m' →
    a.index indirect m j = some h' →
    ∀ o, h'.offset.toNat ≤ o → o < h'.offset.toNat + a.size.toNat → m' h'.slot o = m h'.slot o

/-- Element ranges never alias. -/
structure Arr.NeverAlias (a : Arr σ) (m : Mem σ) : Prop where
  placed : a.Placed indirect m
  apart : a.Apart indirect m
  framed : a.Framed indirect m

/-- The elements end inside the slot. -/
def Arr.Fits (a : Arr σ) (m : Mem σ) : Prop :=
  ∀ len, a.len m = some len → len = 0 ∨ a.base + len * a.size.toNat ≤ 2 ^ 32

/-! ## Offsets -/

omit [DecidableEq σ] in
theorem index_lt {a : Arr σ} {m : Mem σ} {i : Nat} {h : Handle σ}
    (hi : a.index indirect m i = some h) : ∃ len, a.len m = some len ∧ i < len := by
  unfold Arr.index at hi
  rcases hl : a.len m with _ | len
  · rw [hl] at hi
    exact absurd hi (by simp)
  · rw [hl] at hi
    refine ⟨len, rfl, ?_⟩
    by_contra hge
    rw [Option.bind_eq_bind, Option.bind_some, if_neg hge] at hi
    exact absurd hi (by simp)

omit [DecidableEq σ] in
/-- The handle of an element in range: `u32` arithmetic is arithmetic modulo 2^32. -/
theorem index_some {a : Arr σ} {m : Mem σ} {i len : Nat} (hl : a.len m = some len) (hi : i < len) :
    ∃ h, a.index indirect m i = some h ∧ h.slot = a.own_slot indirect ∧
      h.offset.toNat = (a.base + i * a.size.toNat) % 2 ^ 32 := by
  unfold Arr.index Arr.own_slot Arr.base
  rw [hl, Option.bind_eq_bind, Option.bind_some, if_pos hi]
  have hmul : (UInt32.ofNat i * a.size).toNat = i * a.size.toNat % 2 ^ 32 := by
    rw [UInt32.toNat_mul, UInt32.toNat_ofNat', Nat.mod_mul_mod]
  cases a.kind with
  | array N =>
    refine ⟨_, rfl, rfl, ?_⟩
    rw [UInt32.toNat_add, hmul, Nat.add_mod_mod]
  | dynArray =>
    refine ⟨_, rfl, rfl, ?_⟩
    rw [hmul, Nat.zero_add]
  | vla =>
    refine ⟨_, rfl, rfl, ?_⟩
    rw [UInt32.toNat_add, hmul, UInt32.toNat_add, Nat.mod_add_mod, Nat.add_mod_mod]
    rfl

omit [DecidableEq σ] in
/-- The elements begin below 2^32 where they can be indexed at all. -/
theorem base_lt {a : Arr σ} {m : Mem σ} {len : Nat} (hl : a.len m = some len) :
    a.base < 2 ^ 32 := by
  have hoff := a.offset.toNat_lt
  unfold Arr.len at hl
  unfold Arr.base
  cases hk : a.kind with
  | array N => exact hoff
  | dynArray => exact Nat.two_pow_pos 32
  | vla =>
    rw [hk] at hl
    unfold get_u32 in_slot at hl
    by_contra hge
    rw [if_neg (by simpa using hge)] at hl
    exact absurd hl (by simp)

omit [DecidableEq σ] in
theorem placed_of_fits {a : Arr σ} {m : Mem σ} (hf : a.Fits m) : a.Placed indirect m := by
  intro i h hi
  obtain ⟨len, hl, hlt⟩ := index_lt indirect hi
  obtain ⟨h', hi', hslot, hoff⟩ := index_some indirect hl hlt
  obtain rfl : h' = h := Option.some.inj (hi'.symm.trans hi)
  have hbase := base_lt hl
  have hle : a.base + len * a.size.toNat ≤ 2 ^ 32 := by
    rcases hf len hl with h0 | hle
    · omega
    · exact hle
  -- the element ends before the last one does
  have hend : (i + 1) * a.size.toNat ≤ len * a.size.toNat := Nat.mul_le_mul_right _ hlt
  rw [Nat.add_mul, Nat.one_mul] at hend
  have hin : a.base + i * a.size.toNat < 2 ^ 32 := by
    rcases Nat.eq_zero_or_pos a.size.toNat with h0 | hpos
    · rw [h0]
      omega
    · omega
  rw [Nat.mod_eq_of_lt hin] at hoff
  exact ⟨hslot, hoff, by omega⟩

omit [DecidableEq σ] in
theorem fits_of_placed {a : Arr σ} {m : Mem σ} (hp : a.Placed indirect m) : a.Fits m := by
  intro len hl
  rcases Nat.eq_zero_or_pos len with h0 | hpos
  · exact Or.inl h0
  · -- the last element ends where the elements do
    obtain ⟨h, hi, -, -⟩ := index_some indirect hl (Nat.sub_one_lt_of_lt hpos)
    obtain ⟨-, hoff, hend⟩ := hp _ h hi
    have hlast : len * a.size.toNat = (len - 1) * a.size.toNat + a.size.toNat := by
      rw [← Nat.succ_mul, Nat.succ_eq_add_one, Nat.sub_add_cancel hpos]
    exact Or.inr (by omega)

omit [DecidableEq σ] in
theorem apart_of_placed {a : Arr σ} {m : Mem σ} (hp : a.Placed indirect m) :
    a.Apart indirect m := by
  intro i j h h' hne hi hj _
  rw [(hp i h hi).2.1, (hp j h' hj).2.1]
  rcases Nat.lt_or_gt_of_ne hne with hlt | hlt
  · have := Nat.mul_le_mul_right a.size.toNat (show i + 1 ≤ j from hlt)
    rw [Nat.add_mul, Nat.one_mul] at this
    omega
  · have := Nat.mul_le_mul_right a.size.toNat (show j + 1 ≤ i from hlt)
    rw [Nat.add_mul, Nat.one_mul] at this
    omega

theorem framed_of_placed {a : Arr σ} {m : Mem σ} (hp : a.Placed indirect m) :
    a.Framed indirect m := by
  intro i j k w n m' h' hne hstep hj o hlo hhi
  unfold Arr.write_element at hstep
  rcases hi : a.index indirect m i with _ | h
  · rw [hi] at hstep
    exact absurd hstep (by simp)
  · rw [hi, Option.bind_eq_bind, Option.bind_some] at hstep
    have hdis := apart_of_placed indirect hp i j h h' hne hi hj
    have hend := (hp i h hi).2.2
    by_cases hk : k.toNat + w ≤ a.size.toNat
    · rw [if_pos hk] at hstep
      unfold set_le at hstep
      by_cases hs : in_slot (h.offset + k) w
      · rw [if_pos hs] at hstep
        obtain rfl := Option.some.inj hstep
        unfold store
        refine if_neg fun ⟨hslot, h1, h2⟩ => ?_
        have hsep := hdis hslot.symm
        rw [UInt32.toNat_add] at h1 h2
        -- an empty write may sit at the end of the slot, any other does not wrap
        rcases Nat.eq_zero_or_pos w with h0 | hpos
        · omega
        · rw [Nat.mod_eq_of_lt (by omega)] at h1 h2
          omega
      · rw [if_neg hs] at hstep
        exact absurd hstep (by simp)
    · rw [if_neg hk] at hstep
      exact absurd hstep (by simp)

/-- Nothing aliases exactly where the elements end inside the slot. -/
theorem never_alias_of {a : Arr σ} {m : Mem σ} : a.NeverAlias indirect m ↔ a.Fits m := by
  constructor
  · intro h
    exact fits_of_placed indirect h.placed
  · intro h
    have hp := placed_of_fits indirect h
    exact ⟨hp, apart_of_placed indirect hp, framed_of_placed indirect hp⟩

/-- Over a run: nothing aliases in any state exactly where the elements end inside
the slot in each of them. -/
theorem never_alias_run (a : Arr σ) (m : Mem σ) (ops : List Op) :
    (∀ m' ∈ a.states indirect m ops, a.NeverAlias indirect m') ↔
      ∀ m' ∈ a.states indirect m ops, a.Fits m' :=
  forall₂_congr fun _ _ => never_alias_of indirect

/-! ## Every length -/

/-- `set_len` sets the length, whatever fits behind it. -/
theorem len_set_len {a : Arr σ} (m : Mem σ) (len : UInt32) (hk : ∀ N, a.kind ≠ .array N)
    (hin : a.offset.toNat + 4 < 2 ^ 32) :
    ∃ m', a.step indirect m (.set_len len) = some m' ∧ a.len m' = some len.toNat := by
  have hs : in_slot a.offset 4 := decide_eq_true hin
  have hget : get_u32 (store m a.slot a.offset.toNat 4 len.toNat) a.slot a.offset = some len := by
    unfold get_u32
    rw [if_pos hs, load_store m a.slot a.offset.toNat (show len.toNat < 256 ^ 4 from len.toNat_lt)]
    exact congrArg some UInt32.ofNat_toNat
  refine ⟨store m a.slot a.offset.toNat 4 len.toNat, ?_, ?_⟩
  · have hset : a.set_len m len = some (store m a.slot a.offset.toNat 4 len.toNat) := if_pos hs
    unfold Arr.step
    cases hkind : a.kind with
    | array N => exact absurd hkind (hk N)
    | dynArray => exact hset
    | vla => exact hset
  · unfold Arr.len
    rw [hget]
    cases hkind : a.kind with
    | array N => exact absurd hkind (hk N)
    | dynArray => rfl
    | vla => rfl

/-- An array that can grow is safe at every length its operations allow only when
2^32 - 1 elements fit: for `DynArray`, elements of at most one byte. -/
theorem unbounded_iff (a : Arr σ) (m : Mem σ) (hk : ∀ N, a.kind ≠ .array N)
    (hin : a.offset.toNat + 4 < 2 ^ 32) :
    (∀ ops, ∀ m' ∈ a.states indirect m ops, a.NeverAlias indirect m') ↔
      a.base + (2 ^ 32 - 1) * a.size.toNat ≤ 2 ^ 32 := by
  constructor
  · intro h
    obtain ⟨m', hstep, hlen⟩ := len_set_len indirect m 0xffffffff hk hin
    have hmem : m' ∈ a.states indirect m [.set_len 0xffffffff] := by
      unfold Arr.states
      rw [hstep]
      exact List.mem_cons_of_mem m (List.mem_singleton.mpr rfl)
    rcases (never_alias_of indirect).mp (h _ m' hmem) _ hlen with h0 | hle
    · exact absurd h0 (by decide)
    · exact hle
  · intro h ops m' _
    refine (never_alias_of indirect).mpr fun len hlen => Or.inr ?_
    have hlt : ∀ x : Option UInt32, x.map UInt32.toNat = some len → len ≤ 2 ^ 32 - 1 := by
      intro x hx
      obtain ⟨n, -, rfl⟩ := Option.map_eq_some_iff.mp hx
      exact Nat.le_sub_one_of_lt n.toNat_lt
    have hle : len ≤ 2 ^ 32 - 1 := by
      unfold Arr.len at hlen
      cases hkind : a.kind with
      | array N => exact absurd hkind (hk N)
      | dynArray =>
        rw [hkind] at hlen
        exact hlt _ hlen
      | vla =>
        rw [hkind] at hlen
        exact hlt _ hlen
    have := Nat.mul_le_mul_right a.size.toNat hle
    omega

end

/-- `DynArray<u64>` in an empty storage: element 2^29 is element 0. -/
def words : Arr Nat := ⟨.dynArray, 0, 0, 8⟩

theorem words_alias :
    ∃ m', m' ∈ words.states (fun s _ => s + 1) (fun _ _ => 0) [.set_len 0x20000001] ∧
      words.index (fun s _ => s + 1) m' 0 = some ⟨1, 0⟩ ∧
      words.index (fun s _ => s + 1) m' 0x20000000 = some ⟨1, 0⟩ ∧
      ¬ words.NeverAlias (fun s _ => s + 1) m' := by
  obtain ⟨m', hstep, hlen⟩ := len_set_len (a := words) (fun s _ => s + 1) (fun _ _ => 0)
    0x20000001 (fun _ h => Kind.noConfusion h) (by decide)
  have h0 : words.index (fun s _ => s + 1) m' 0 = some ⟨1, 0⟩ := by
    unfold Arr.index
    rw [hlen]
    rfl
  have hlast : words.index (fun s _ => s + 1) m' 0x20000000 = some ⟨1, 0⟩ := by
    unfold Arr.index
    rw [hlen]
    rfl
  refine ⟨m', ?_, h0, hlast, ?_⟩
  · unfold Arr.states
    rw [hstep]
    exact List.mem_cons_of_mem _ (List.mem_singleton.mpr rfl)
  · intro h
    have := h.apart _ _ _ _ (by decide) h0 hlast rfl
    exact absurd this (by decide)

end GenVM.SdkArray
