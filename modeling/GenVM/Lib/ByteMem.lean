import Mathlib

/-!
# Little-endian integers in a byte memory

A memory maps an address space and an offset to a byte. A number of `w`
bytes is stored least significant byte first.

**Results.**
* `load_store`: what was stored is loaded, below `256 ^ w`.
* `store_load`: storing what is loaded changes nothing.
* `store_comm`: stores to disjoint ranges do not see each other.
-/
namespace ByteMem

variable {S : Type}

scoped instance instNeZeroBytes : NeZero 256 := ⟨by decide⟩

/-- A byte for each address space and offset. -/
abbrev Mem (S : Type) := S → Nat → Fin 256

/-- The byte of `n` at position `i`. -/
def byteAt (n i : Nat) : Fin 256 := ⟨n / 256 ^ i % 256, Nat.mod_lt _ (by decide)⟩

/-- The number held in `w` bytes from `off` on. -/
def load (m : Mem S) (s : S) : Nat → Nat → Nat
  | _, 0 => 0
  | off, w + 1 => (m s off).val + 256 * load m s (off + 1) w

/-- Write the `w` low bytes of `n` from `off` on. -/
def store [DecidableEq S] (m : Mem S) (s : S) (off w n : Nat) : Mem S := fun s' o =>
  if s' = s ∧ off ≤ o ∧ o < off + w then byteAt n (o - off) else m s' o

theorem load_lt (m : Mem S) (s : S) (off w : Nat) : load m s off w < 256 ^ w := by
  induction w generalizing off with
  | zero => exact Nat.one_pos
  | succ w ih =>
    unfold load
    have h1 := (m s off).isLt
    have h2 := ih (off + 1)
    rw [Nat.pow_succ]
    omega

/-- A load only looks at its own bytes. -/
theorem load_congr {m m' : Mem S} {s : S} {off w : Nat}
    (h : ∀ o, off ≤ o → o < off + w → m s o = m' s o) : load m s off w = load m' s off w := by
  induction w generalizing off with
  | zero => rfl
  | succ w ih =>
    unfold load
    rw [h off (le_refl off) (by omega), ih]
    intro o h1 h2
    exact h o (by omega) (by omega)

/-- The bytes of a loaded number are the bytes it was loaded from. -/
theorem byteAt_load (m : Mem S) (s : S) (off w i : Nat) (h : i < w) :
    byteAt (load m s off w) i = m s (off + i) := by
  induction w generalizing off i with
  | zero => omega
  | succ w ih =>
    have hb := (m s off).isLt
    cases i with
    | zero =>
      show byteAt (load m s off (w + 1)) 0 = m s off
      apply Fin.ext
      unfold byteAt load
      dsimp only
      rw [Nat.pow_zero, Nat.div_one]
      omega
    | succ i =>
      have hrest := ih (off + 1) i (by omega)
      rw [show off + (i + 1) = off + 1 + i by omega, ← hrest]
      apply Fin.ext
      unfold byteAt
      rw [load]
      dsimp only
      rw [Nat.pow_succ, Nat.mul_comm (256 ^ i), ← Nat.div_div_eq_div_mul,
        Nat.add_mul_div_left _ _ (by decide), Nat.div_eq_of_lt hb, Nat.zero_add]

variable [DecidableEq S]

theorem load_store_aux (m : Mem S) (s : S) (off w n : Nat) :
    ∀ k i, i + k = w → load (store m s off w n) s (off + i) k = n / 256 ^ i % 256 ^ k := by
  intro k
  induction k with
  | zero =>
    intro i _
    rw [Nat.pow_zero, Nat.mod_one]
    rfl
  | succ k ih =>
    intro i hi
    have hrest := ih (i + 1) (by omega)
    rw [load, show off + i + 1 = off + (i + 1) by omega, hrest]
    have hbyte : (store m s off w n s (off + i)).val = n / 256 ^ i % 256 := by
      unfold store
      rw [if_pos ⟨rfl, by omega, by omega⟩]
      unfold byteAt
      dsimp only
      rw [Nat.add_sub_cancel_left]
    rw [hbyte, Nat.pow_succ 256 i, ← Nat.div_div_eq_div_mul, Nat.pow_succ 256 k,
      Nat.mul_comm (256 ^ k) 256, Nat.mod_mul]

/-- What was stored is loaded. -/
theorem load_store (m : Mem S) (s : S) (off : Nat) {w n : Nat} (h : n < 256 ^ w) :
    load (store m s off w n) s off w = n := by
  have := load_store_aux m s off w n w 0 (by omega)
  rw [Nat.add_zero, Nat.pow_zero, Nat.div_one, Nat.mod_eq_of_lt h] at this
  exact this

/-- Storing what is there changes nothing. -/
theorem store_load (m : Mem S) (s : S) (off w : Nat) : store m s off w (load m s off w) = m := by
  funext s' o
  unfold store
  split
  · rename_i h
    obtain ⟨rfl, h1, h2⟩ := h
    rw [byteAt_load m s' off w (o - off) (by omega), Nat.add_sub_cancel' h1]
  · rfl

/-- Two ranges that share no byte. -/
def Disjoint (s : S) (off w : Nat) (s' : S) (off' w' : Nat) : Prop :=
  s = s' → off + w ≤ off' ∨ off' + w' ≤ off

theorem store_comm {m : Mem S} {s s' : S} {off w off' w' n n' : Nat}
    (h : Disjoint s off w s' off' w') :
    store (store m s off w n) s' off' w' n' = store (store m s' off' w' n') s off w n := by
  funext t o
  unfold store
  by_cases h1 : t = s ∧ off ≤ o ∧ o < off + w
  · by_cases h2 : t = s' ∧ off' ≤ o ∧ o < off' + w'
    · obtain ⟨rfl, h3, h4⟩ := h1
      obtain ⟨rfl, h5, h6⟩ := h2
      have := h rfl
      omega
    · rw [if_neg h2, if_pos h1, if_pos h1]
  · by_cases h2 : t = s' ∧ off' ≤ o ∧ o < off' + w'
    · rw [if_pos h2, if_neg h1, if_pos h2]
    · rw [if_neg h2, if_neg h1, if_neg h1, if_neg h2]

end ByteMem
