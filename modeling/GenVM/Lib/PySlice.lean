import Mathlib

/-!
# Python slices

`slice.indices` and `range` as CPython computes them, and what reading,
assigning and deleting a slice does to a list. Indices are integers; an
index the list is subscripted with is one of `range`, so it is natural.

**Results.**
* `mem_range_pos`, `mem_range_neg`: the members of a range are the points
  of its interval at a multiple of the step.
* `indices_pos`, `indices_neg`: the normalised bounds stay within the list.
* `mem_ascending`: a descending range and its ascending normal form have
  the same members.
-/
namespace PySlice

/-- `slice(start, stop, step)`; a missing part is `None`. -/
structure Slice where
  start : Option Int
  stop : Option Int
  step : Option Int
  deriving DecidableEq, Repr

/-- One bound of `slice.indices`: negative counts from the end, then the
bound is clamped to `lower .. upper`. -/
def clamp (lower upper : Int) (len : Nat) (i : Int) : Int :=
  if i < 0 then max (i + len) lower else min i upper

/-- `slice.indices(len)`; `none` where the step is zero. -/
def Slice.indices (s : Slice) (len : Nat) : Option (Int × Int × Int) :=
  let step := s.step.getD 1
  if step = 0 then none
  else
    let lower : Int := if step < 0 then -1 else 0
    let upper : Int := if step < 0 then len - 1 else len
    let start := match s.start with
      | none => if step < 0 then upper else lower
      | some i => clamp lower upper len i
    let stop := match s.stop with
      | none => if step < 0 then lower else upper
      | some i => clamp lower upper len i
    some (start, stop, step)

/-- `len(range(start, stop, step))` -/
def rangeLen (start stop step : Int) : Nat :=
  if 0 < step then
    if start < stop then ((stop - start - 1) / step).toNat + 1 else 0
  else
    if stop < start then ((start - stop - 1) / (-step)).toNat + 1 else 0

/-- `range(start, stop, step)` -/
def range (start stop step : Int) : List Int :=
  (List.range (rangeLen start stop step)).map fun i : Nat => start + (i : Int) * step

@[simp] theorem length_range (start stop step : Int) :
    (range start stop step).length = rangeLen start stop step := by
  simp [range]

/-! ## Bounds of the normalised indices -/

theorem indices_step {s : Slice} {len : Nat} {start stop step : Int}
    (h : s.indices len = some (start, stop, step)) : step ≠ 0 ∧ step = s.step.getD 1 := by
  unfold Slice.indices at h
  dsimp only at h
  split at h
  · cases h
  · rename_i hne
    simp only [Option.some.injEq, Prod.mk.injEq] at h
    obtain ⟨-, -, rfl⟩ := h
    exact ⟨hne, rfl⟩

theorem indices_pos {s : Slice} {len : Nat} {start stop step : Int}
    (h : s.indices len = some (start, stop, step)) (hpos : 0 < step) :
    0 ≤ start ∧ start ≤ len ∧ 0 ≤ stop ∧ stop ≤ len := by
  have hstep := (indices_step h).2
  unfold Slice.indices at h
  dsimp only at h
  rw [← hstep] at h
  have hn : ¬ step < 0 := by omega
  have h0 : step ≠ 0 := by omega
  simp only [h0, hn, if_false, Option.some.injEq, Prod.mk.injEq] at h
  obtain ⟨rfl, rfl, -⟩ := h
  have hc : ∀ i : Int, 0 ≤ clamp 0 len len i ∧ clamp 0 len len i ≤ len := by
    intro i
    unfold clamp
    split <;> omega
  rcases s with ⟨a, b, c⟩
  refine ⟨?_, ?_, ?_, ?_⟩
  · cases a with
    | none => exact le_refl 0
    | some i => exact (hc i).1
  · cases a with
    | none => exact Int.natCast_nonneg len
    | some i => exact (hc i).2
  · cases b with
    | none => exact Int.natCast_nonneg len
    | some i => exact (hc i).1
  · cases b with
    | none => exact le_refl _
    | some i => exact (hc i).2

theorem indices_neg {s : Slice} {len : Nat} {start stop step : Int}
    (h : s.indices len = some (start, stop, step)) (hneg : step < 0) :
    -1 ≤ start ∧ start < len ∧ -1 ≤ stop ∧ stop < len := by
  have hstep := (indices_step h).2
  unfold Slice.indices at h
  dsimp only at h
  rw [← hstep] at h
  have h0 : step ≠ 0 := by omega
  simp only [h0, hneg, if_false, if_true, Option.some.injEq, Prod.mk.injEq] at h
  obtain ⟨rfl, rfl, -⟩ := h
  have hc : ∀ i : Int, -1 ≤ clamp (-1) (len - 1) len i ∧ clamp (-1) (len - 1) len i < len := by
    intro i
    unfold clamp
    split <;> omega
  rcases s with ⟨a, b, c⟩
  refine ⟨?_, ?_, ?_, ?_⟩
  · cases a with
    | none => simp only []; omega
    | some i => exact (hc i).1
  · cases a with
    | none => simp only []; omega
    | some i => exact (hc i).2
  · cases b with
    | none => exact le_refl _
    | some i => exact (hc i).1
  · cases b with
    | none => simp only []; omega
    | some i => exact (hc i).2

/-! ## Members of a range -/

theorem mem_range_pos {start stop step : Int} (h : 0 < step) {x : Int} :
    x ∈ range start stop step ↔ start ≤ x ∧ x < stop ∧ step ∣ x - start := by
  unfold range rangeLen
  rw [if_pos h]
  constructor
  · intro hx
    obtain ⟨i, hi, rfl⟩ := List.mem_map.mp hx
    have hi := List.mem_range.mp hi
    split at hi
    · rename_i hlt
      have hq : 0 ≤ (stop - start - 1) / step := Int.ediv_nonneg (by omega) (by omega)
      have hle : (i : Int) ≤ (stop - start - 1) / step := by omega
      have hmul : (i : Int) * step ≤ stop - start - 1 := (Int.le_ediv_iff_mul_le h).mp hle
      have hpos : 0 ≤ (i : Int) * step := Int.mul_nonneg (by omega) (by omega)
      refine ⟨by omega, by omega, ⟨i, ?_⟩⟩
      rw [Int.mul_comm step]
      omega
    · cases hi
  · intro hx
    obtain ⟨hge, hlt, c, hc⟩ := hx
    have hc0 : 0 ≤ c := by
      by_contra hcn
      have : step * c < 0 := Int.mul_neg_of_pos_of_neg h (by omega)
      omega
    have hle : c ≤ (stop - start - 1) / step := by
      apply (Int.le_ediv_iff_mul_le h).mpr
      rw [Int.mul_comm]
      omega
    apply List.mem_map.mpr
    refine ⟨c.toNat, ?_, ?_⟩
    · rw [if_pos (by omega)]
      apply List.mem_range.mpr
      omega
    · rw [Int.toNat_of_nonneg hc0, Int.mul_comm]
      omega

theorem mem_range_neg {start stop step : Int} (h : step < 0) {x : Int} :
    x ∈ range start stop step ↔ stop < x ∧ x ≤ start ∧ step ∣ start - x := by
  unfold range rangeLen
  rw [if_neg (by omega)]
  have hk : 0 < -step := by omega
  constructor
  · intro hx
    obtain ⟨i, hi, rfl⟩ := List.mem_map.mp hx
    have hi := List.mem_range.mp hi
    split at hi
    · rename_i hlt
      have hq : 0 ≤ (start - stop - 1) / (-step) := Int.ediv_nonneg (by omega) (by omega)
      have hle : (i : Int) ≤ (start - stop - 1) / (-step) := by omega
      have hmul : (i : Int) * (-step) ≤ start - stop - 1 := (Int.le_ediv_iff_mul_le hk).mp hle
      have hpos : 0 ≤ (i : Int) * (-step) := Int.mul_nonneg (by omega) (by omega)
      have hneg : (i : Int) * (-step) = - (i * step) := by rw [Int.mul_neg]
      refine ⟨by omega, by omega, ⟨-i, ?_⟩⟩
      rw [Int.mul_neg, Int.mul_comm step]
      omega
    · cases hi
  · intro hx
    obtain ⟨hgt, hle, c, hc⟩ := hx
    have hneg : step * c = - ((-step) * c) := by rw [Int.neg_mul, Int.neg_neg]
    have hc0 : c ≤ 0 := by
      by_contra hcn
      have : 0 < (-step) * c := Int.mul_pos hk (by omega)
      omega
    have hcc : (-c) * (-step) = step * c := by
      rw [Int.neg_mul_neg, Int.mul_comm]
    have hle : -c ≤ (start - stop - 1) / (-step) := by
      apply (Int.le_ediv_iff_mul_le hk).mpr
      omega
    apply List.mem_map.mpr
    refine ⟨(-c).toNat, ?_, ?_⟩
    · rw [if_pos (by omega)]
      apply List.mem_range.mpr
      omega
    · rw [Int.toNat_of_nonneg (by omega), Int.neg_mul, Int.mul_comm]
      omega

/-- A descending range reversed into an ascending one: the last member
first, then up to and including the first. -/
theorem mem_ascending {start stop k : Int} (hk : 0 < k) {x : Int} :
    x ∈ range start stop (-k) ↔
      start - (start - stop - 1) / k * k ≤ x ∧ x < start + 1 ∧
        k ∣ x - (start - (start - stop - 1) / k * k) := by
  rw [mem_range_neg (by omega)]
  have hlow := Int.ediv_mul_le (start - stop - 1) (Int.ne_of_gt hk)
  have hhigh := Int.lt_ediv_add_one_mul_self (start - stop - 1) hk
  rw [Int.add_mul, Int.one_mul] at hhigh
  have hdvd : k ∣ x - (start - (start - stop - 1) / k * k) ↔ k ∣ start - x := by
    have he : x - (start - (start - stop - 1) / k * k)
        = (start - stop - 1) / k * k - (start - x) := by omega
    rw [he]
    constructor
    · intro hd
      have hs := Int.dvd_sub (Int.dvd_mul_left ((start - stop - 1) / k) k) hd
      simpa using hs
    · intro hd
      exact Int.dvd_sub (Int.dvd_mul_left _ k) hd
  rw [hdvd, Int.neg_dvd]
  constructor
  · intro h
    obtain ⟨hgt, hle, c, hc⟩ := h
    refine ⟨?_, by omega, c, hc⟩
    have hcq : c ≤ (start - stop - 1) / k := by
      apply (Int.le_ediv_iff_mul_le hk).mpr
      rw [Int.mul_comm]
      omega
    have := Int.mul_le_mul_of_nonneg_right hcq (Int.le_of_lt hk)
    rw [Int.mul_comm c] at this
    omega
  · intro h
    obtain ⟨hge, hlt, hd⟩ := h
    exact ⟨by omega, by omega, hd⟩

/-! ## Ranges taken apart -/

theorem rangeLen_pos_succ {start stop step : Int} (h : 0 < step) (hlt : start < stop) :
    rangeLen start stop step = rangeLen (start + step) stop step + 1 := by
  unfold rangeLen
  rw [if_pos h, if_pos h, if_pos hlt]
  have hq : 0 ≤ (stop - start - 1) / step := Int.ediv_nonneg (by omega) (by omega)
  by_cases hn : start + step < stop
  · rw [if_pos hn]
    have he : stop - start - 1 = (stop - (start + step) - 1) + 1 * step := by omega
    have hq' : 0 ≤ (stop - (start + step) - 1) / step := Int.ediv_nonneg (by omega) (by omega)
    rw [he, Int.add_mul_ediv_right _ _ (by omega)]
    omega
  · rw [if_neg hn]
    have h0 : (stop - start - 1) / step = 0 := Int.ediv_eq_zero_of_lt (by omega) (by omega)
    rw [h0]
    rfl

theorem rangeLen_neg_succ {start stop step : Int} (h : step < 0) (hlt : stop < start) :
    rangeLen start stop step = rangeLen (start + step) stop step + 1 := by
  unfold rangeLen
  have hn : ¬ 0 < step := by omega
  rw [if_neg hn, if_neg hn, if_pos hlt]
  have hq : 0 ≤ (start - stop - 1) / (-step) := Int.ediv_nonneg (by omega) (by omega)
  by_cases hn : stop < start + step
  · rw [if_pos hn]
    have he : start - stop - 1 = (start + step - stop - 1) + 1 * (-step) := by omega
    have hq' : 0 ≤ (start + step - stop - 1) / (-step) :=
      Int.ediv_nonneg (by omega) (by omega)
    rw [he, Int.add_mul_ediv_right _ _ (by omega)]
    omega
  · rw [if_neg hn]
    have h0 : (start - stop - 1) / (-step) = 0 := Int.ediv_eq_zero_of_lt (by omega) (by omega)
    rw [h0]
    rfl

theorem range_of_succ {start stop step : Int}
    (h : rangeLen start stop step = rangeLen (start + step) stop step + 1) :
    range start stop step = start :: range (start + step) stop step := by
  unfold range
  rw [h, List.range_succ_eq_map, List.map_cons, List.map_map]
  congr 1
  · simp
  · apply List.map_congr_left
    intro i _
    simp only [Function.comp_apply, Nat.cast_succ]
    rw [Int.add_mul, Int.one_mul]
    omega

theorem range_pos_nil {start stop step : Int} (h : 0 < step) (hle : stop ≤ start) :
    range start stop step = [] := by
  unfold range rangeLen
  rw [if_pos h, if_neg (by omega)]
  rfl

theorem range_neg_nil {start stop step : Int} (h : step < 0) (hle : start ≤ stop) :
    range start stop step = [] := by
  unfold range rangeLen
  rw [if_neg (by omega), if_neg (by omega)]
  rfl

/-- The slots an ascending range selects. -/
theorem range_toNat {start stop step : Int} (h : 0 < step) (hs : 0 ≤ start) :
    (range start stop step).map Int.toNat
      = List.range' start.toNat (rangeLen start stop step) step.toNat := by
  apply List.ext_getElem
  · simp
  · intro i hi hi'
    have hi : 0 ≤ (i : Int) * step := Int.mul_nonneg (by omega) (by omega)
    simp only [range, List.getElem_map, List.getElem_range, List.getElem_range']
    rw [Int.toNat_add hs hi, Int.toNat_mul (by omega) (by omega), Int.toNat_natCast, Nat.mul_comm]

theorem rangeLen_neg_one (start stop : Int) :
    rangeLen start stop (-1) = (start - stop).toNat := by
  unfold rangeLen
  rw [if_neg (by omega)]
  have h1 : (start - stop - 1) / (-(-1 : Int)) = start - stop - 1 := by
    rw [Int.neg_neg, Int.ediv_one]
  rw [h1]
  split <;> omega

theorem rangeLen_one (start stop : Int) : rangeLen start stop 1 = (stop - start).toNat := by
  unfold rangeLen
  rw [if_pos (by omega), Int.ediv_one]
  split <;> omega

/-- The slots `start, start - 1, .., stop + 1` are those from `stop + 1` up, reversed. -/
theorem range_neg_one_toNat {start stop : Int} (h : -1 ≤ stop) :
    (range start stop (-1)).map Int.toNat
      = (List.range' (stop + 1).toNat (rangeLen start stop (-1))).reverse := by
  apply List.ext_getElem
  · simp
  · intro i hi hi'
    have hlen : i < (start - stop).toNat := by
      simpa [rangeLen_neg_one] using hi
    simp only [List.getElem_map, List.getElem_reverse, List.getElem_range', List.length_range',
      range, List.getElem_range, rangeLen_neg_one]
    omega

/-- Where the step divides a nonempty span exactly, the quotient counts the members. -/
theorem rangeLen_of_dvd {start stop step : Int} (h : 0 < step) (hle : start ≤ stop)
    (hd : step ∣ stop - start) : (rangeLen start stop step : Int) = (stop - start) / step := by
  obtain ⟨c, hc⟩ := hd
  have hc0 : 0 ≤ c := by
    by_contra hcn
    have hneg : step * c < 0 := Int.mul_neg_of_pos_of_neg h (by omega)
    omega
  rw [hc, Int.mul_ediv_cancel_left _ (by omega)]
  unfold rangeLen
  rw [if_pos h]
  by_cases hz : c = 0
  · rw [hz, Int.mul_zero] at hc
    rw [if_neg (by omega), hz]
    rfl
  · have hge : step ≤ step * c := by
      have := Int.mul_le_mul_of_nonneg_left (show (1 : Int) ≤ c by omega) (Int.le_of_lt h)
      simpa using this
    rw [if_pos (by omega), hc]
    have he : step * c - 1 = (step - 1) + (c - 1) * step := by
      rw [Int.sub_mul, Int.mul_comm]
      omega
    have hq : (step * c - 1) / step = c - 1 := by
      rw [he, Int.add_mul_ediv_right _ _ (by omega), Int.ediv_eq_zero_of_lt (by omega) (by omega)]
      omega
    rw [hq]
    omega

/-! ## Slices of a list -/

variable {V : Type*}

/-- `l[s]` -/
def getSlice (l : List V) (s : Slice) : Option (List V) :=
  (s.indices l.length).map fun (start, stop, step) =>
    (range start stop step).filterMap fun i => l[i.toNat]?

/-- `del l[s]` -/
def delSlice (l : List V) (s : Slice) : Option (List V) :=
  (s.indices l.length).map fun (start, stop, step) =>
    ((List.range l.length).filter fun j : Nat => (j : Int) ∉ range start stop step).filterMap
      fun j => l[j]?

/-- `l[s] = xs`: a contiguous slice is replaced, any other slice takes as
many elements as it selects. -/
def setSlice (l : List V) (s : Slice) (xs : List V) : Option (List V) :=
  (s.indices l.length).bind fun (start, stop, step) =>
    if step = 1 then some (l.take start.toNat ++ xs ++ l.drop (max start stop).toNat)
    else if xs.length = rangeLen start stop step then
      some (((range start stop step).zip xs).foldl (fun l w => l.set w.1.toNat w.2) l)
    else none

end PySlice
