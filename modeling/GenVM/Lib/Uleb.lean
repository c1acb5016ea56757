import Mathlib

/-!
# Base-128 little-endian numbers

`encode n` is the shortest base-128 form of `n`: seven payload bits a byte,
lowest first, the bit `0x80` on every byte but the last. `read` is the reader
with an accumulator and a shift that the decoders of this development share; it
is parametric in the three errors it raises and in the bound its shift must stay
under (`none`: an unbounded shift).

Results:
* `read_iff`: `read` succeeds exactly on a shortest form (within the shift
  bound) and leaves what follows it, so it inverts `encode` and no other
  spelling of a number is read.
* `encode_append`: what a number is followed by does not change how it reads.
* `encode_length_le`, `encode_length_pos`: bounds on the length.
-/
namespace GenVM.Lib.Uleb

def encode (n : Nat) : List UInt8 :=
  if n < 128 then [UInt8.ofNat n] else UInt8.ofNat (n % 128 + 128) :: encode (n / 128)
termination_by n
decreasing_by omega

/-- `lim`: the shift of the next group must stay below it. -/
def read {ε : Type} (onEnd onZero onBig : ε) (lim : Option Nat) :
    List UInt8 → Nat → Nat → Except ε (Nat × List UInt8)
  | [], _, _ => .error onEnd
  | b :: bs, res, off =>
    let res := res + (b &&& 0x7f).toNat <<< off
    if b &&& 0x80 = 0 then
      if b = 0 ∧ off ≠ 0 then .error onZero else .ok (res, bs)
    else if lim.all (off + 7 < ·) then read onEnd onZero onBig lim bs res (off + 7)
    else .error onBig

/-! ## Bytes -/

theorem payload (b : UInt8) : (b &&& 0x7f).toNat = b.toNat % 128 := by
  rw [UInt8.toNat_and]
  exact Nat.and_two_pow_sub_one_eq_mod b.toNat 7

set_option maxRecDepth 4000 in
theorem continues (b : UInt8) : b &&& 0x80 = 0 ↔ b.toNat < 128 := by
  have key : ∀ n, n < 256 → (n &&& 128 = 0 ↔ n < 128) := by decide
  rw [← UInt8.toNat_inj, UInt8.toNat_and]
  exact key _ b.toNat_lt

theorem toNat_ofNat {n : Nat} (h : n < 256) : (UInt8.ofNat n).toNat = n := by
  rw [UInt8.toNat_ofNat']; omega

theorem ofNat_toNat_of_eq {b : UInt8} {n : Nat} (h : b.toNat = n) : UInt8.ofNat n = b := by
  rw [← h, UInt8.ofNat_toNat]

/-! ## The writer -/

theorem encode_small {n : Nat} (h : n < 128) : encode n = [UInt8.ofNat n] := by
  rw [encode, if_pos h]

theorem encode_big {n : Nat} (h : 128 ≤ n) :
    encode n = UInt8.ofNat (n % 128 + 128) :: encode (n / 128) := by
  rw [encode, if_neg (by omega)]

theorem encode_length_pos (n : Nat) : 0 < (encode n).length := by
  rw [encode]; split <;> simp

theorem encode_ne_nil (n : Nat) : encode n ≠ [] :=
  List.ne_nil_of_length_pos (encode_length_pos n)

/-- `k` groups hold every number below `2 ^ (7 * k)`. -/
theorem encode_length_le (k : Nat) : ∀ n, n < 2 ^ (7 * (k + 1)) → (encode n).length ≤ k + 1 := by
  induction k with
  | zero =>
    intro n h
    rw [encode_small (by simpa using h)]; simp
  | succ k ih =>
    intro n h
    by_cases hs : n < 128
    · rw [encode_small hs]; simp
    · have e : 2 ^ (7 * (k + 1 + 1)) = 2 ^ (7 * (k + 1)) * 128 := by
        rw [show 7 * (k + 1 + 1) = 7 * (k + 1) + 7 by omega, Nat.pow_add]
      rw [encode_big (by omega), List.length_cons]
      have := ih (n / 128) (by omega)
      omega

/-- A number of `2 ^ (7 * k)` or more needs more than `k` groups. -/
theorem lt_encode_length (k : Nat) : ∀ n, 2 ^ (7 * k) ≤ n → k < (encode n).length := by
  induction k with
  | zero => intro n _; exact encode_length_pos n
  | succ k ih =>
    intro n h
    have e : 2 ^ (7 * (k + 1)) = 2 ^ (7 * k) * 128 := by
      rw [show 7 * (k + 1) = 7 * k + 7 by omega, Nat.pow_add]
    have hp := Nat.two_pow_pos (7 * k)
    rw [encode_big (by omega), List.length_cons]
    have := ih (n / 128) (by omega)
    omega

/-! ## The reader accepts the shortest forms only -/

/-- `g` groups starting at shift `off` keep every shift below the bound. -/
def Fits (lim : Option Nat) (off g : Nat) : Prop := ∀ L, lim = some L → 1 < g → off + 7 * (g - 1) < L

theorem all_iff {lim : Option Nat} {off : Nat} :
    (lim.all (off + 7 < ·)) = true ↔ ∀ L, lim = some L → off + 7 < L := by
  cases lim <;> simp

theorem fits_one (lim : Option Nat) (off : Nat) : Fits lim off 1 := by
  intro L _ h; omega

/-- A continuation byte followed by `g` groups. -/
theorem fits_succ {lim : Option Nat} {off g : Nat} (hg : 0 < g) :
    Fits lim off (g + 1) ↔ (∀ L, lim = some L → off + 7 < L) ∧ Fits lim (off + 7) g := by
  unfold Fits
  constructor
  · intro h
    refine ⟨fun L hL => ?_, fun L hL h1 => ?_⟩
    · have := h L hL (by omega); omega
    · have := h L hL (by omega); omega
  · rintro ⟨h1, h2⟩ L hL _
    have a := h1 L hL
    by_cases h : 1 < g
    · have := h2 L hL h; omega
    · omega

section
variable {ε : Type} {onEnd onZero onBig : ε} {lim : Option Nat}

/-- The reader in the middle of a number: the groups read so far are in `res`,
and a further zero group is refused unless it is the first. -/
theorem read_iff_from (bs : List UInt8) : ∀ res off n rest,
    read onEnd onZero onBig lim bs res off = .ok (n, rest) ↔
      ∃ m, n = res + m * 2 ^ off ∧ bs = encode m ++ rest ∧ (off ≠ 0 → m ≠ 0) ∧
        Fits lim off (encode m).length := by
  induction bs with
  | nil =>
    intro res off n rest
    simp only [read, reduceCtorEq, false_iff, not_exists]
    rintro m ⟨-, h, -⟩
    exact encode_ne_nil m (List.append_eq_nil_iff.mp h.symm).1
  | cons b bs ih =>
    intro res off n rest
    have hb := b.toNat_lt
    simp only [read, payload, continues, Nat.shiftLeft_eq]
    by_cases hlast : b.toNat < 128
    · -- the last group: `b` itself is the rest of the number
      rw [if_pos hlast, Nat.mod_eq_of_lt hlast]
      have hb0 : b = 0 ↔ b.toNat = 0 := by rw [← UInt8.toNat_inj]; rfl
      constructor
      · intro h
        split at h
        · cases h
        · rename_i hz
          simp only [Except.ok.injEq, Prod.mk.injEq] at h
          obtain ⟨rfl, rfl⟩ := h
          refine ⟨b.toNat, rfl, by rw [encode_small hlast]; simp, ?_, ?_⟩
          · intro h0 hm; exact hz ⟨hb0.mpr hm, h0⟩
          · rw [encode_small hlast]; exact fits_one lim off
      · rintro ⟨m, rfl, he, hz, hf⟩
        by_cases hm : m < 128
        · rw [encode_small hm, List.singleton_append, List.cons.injEq] at he
          obtain ⟨rfl, rfl⟩ := he
          rw [toNat_ofNat (by omega)] at hb0 ⊢
          rw [if_neg (fun h => hz h.2 (hb0.mp h.1))]
        · rw [encode_big (by omega), List.cons_append, List.cons.injEq] at he
          have := congrArg UInt8.toNat he.1
          rw [toNat_ofNat (by omega)] at this; omega
    · -- a continuation byte: the rest of the number is `(n - b % 128) / 128`
      rw [if_neg hlast]
      have hpow : 2 ^ (off + 7) = 2 ^ off * 128 := Nat.pow_add ..
      have hmod : UInt8.ofNat (b.toNat % 128 + 128) = b := ofNat_toNat_of_eq (by omega)
      constructor
      · intro h
        split at h
        · rename_i hlim
          obtain ⟨m, rfl, he, hz, hf⟩ := (ih _ _ _ _).mp h
          have hm : m ≠ 0 := hz (by omega)
          have hm' : (b.toNat % 128 + m * 128) / 128 = m := by omega
          have hm'' : (b.toNat % 128 + m * 128) % 128 = b.toNat % 128 := by omega
          have henc : encode (b.toNat % 128 + m * 128) = b :: encode m := by
            rw [encode_big (by omega), hm', hm'', hmod]
          refine ⟨b.toNat % 128 + m * 128, ?_, ?_, by omega, ?_⟩
          · rw [hpow]; ring
          · rw [henc, he, List.cons_append]
          · rw [henc, List.length_cons, fits_succ (encode_length_pos m)]
            exact ⟨all_iff.mp hlim, hf⟩
        · cases h
      · rintro ⟨m, rfl, he, hz, hf⟩
        by_cases hm : m < 128
        · rw [encode_small hm, List.singleton_append, List.cons.injEq] at he
          have := congrArg UInt8.toNat he.1
          rw [toNat_ofNat (by omega)] at this; omega
        · rw [encode_big (by omega), List.cons_append, List.cons.injEq] at he
          have hbm := congrArg UInt8.toNat he.1
          rw [toNat_ofNat (by omega)] at hbm
          rw [encode_big (by omega), List.length_cons, fits_succ (encode_length_pos _)] at hf
          rw [if_pos (all_iff.mpr hf.1)]
          refine (ih _ _ _ _).mpr ⟨m / 128, ?_, he.2, fun _ => by omega, hf.2⟩
          have hdm : m = b.toNat % 128 + m / 128 * 128 := by omega
          rw [hpow]
          calc res + m * 2 ^ off = res + (b.toNat % 128 + m / 128 * 128) * 2 ^ off := by rw [← hdm]
            _ = res + b.toNat % 128 * 2 ^ off + m / 128 * (2 ^ off * 128) := by ring

/-- **Shortest forms only.** A read succeeds exactly when the bytes start with
the shortest form of a number within the shift bound. -/
theorem read_iff (bs : List UInt8) (n : Nat) (rest : List UInt8) :
    read onEnd onZero onBig lim bs 0 0 = .ok (n, rest) ↔
      bs = encode n ++ rest ∧ Fits lim 0 (encode n).length := by
  rw [read_iff_from]
  constructor
  · rintro ⟨m, rfl, he, -, hf⟩; simpa using ⟨he, hf⟩
  · rintro ⟨he, hf⟩; exact ⟨n, by simp, he, by simp, hf⟩

end

/-- No shortest form starts another one. -/
theorem encode_append {n m : Nat} {r r' : List UInt8} (h : encode n ++ r = encode m ++ r') :
    n = m ∧ r = r' := by
  have hn := (@read_iff Unit () () () none (encode n ++ r) n r).mpr ⟨rfl, fun _ hL => nomatch hL⟩
  have hm := (@read_iff Unit () () () none (encode n ++ r) m r').mpr ⟨h, fun _ hL => nomatch hL⟩
  cases hn.symm.trans hm
  exact ⟨rfl, rfl⟩

end GenVM.Lib.Uleb
