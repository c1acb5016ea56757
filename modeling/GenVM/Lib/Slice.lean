import Mathlib

/-!
# Copying into a buffer of fixed length

`copyInto dst off src` is `dst[off..off + src.len()].copy_from_slice(src)`. It
never changes the length of `dst`.
-/
namespace GenVM.Lib

variable {α : Type}

def copyInto (dst : List α) (off : Nat) (src : List α) : List α :=
  dst.take off ++ src.take (dst.length - off) ++ dst.drop (off + src.length)

@[simp] theorem length_copyInto (dst : List α) (off : Nat) (src : List α) :
    (copyInto dst off src).length = dst.length := by
  unfold copyInto
  simp only [List.length_append, List.length_take, List.length_drop]
  omega

/-- Inside the copied range. -/
theorem copyInto_in {dst src : List α} {off i : Nat} (h1 : off ≤ i) (h2 : i < off + src.length)
    (h3 : i < dst.length) : (copyInto dst off src)[i]? = src[i - off]? := by
  unfold copyInto
  rw [List.append_assoc, List.getElem?_append_right (by simp; omega), List.length_take,
    Nat.min_eq_left (by omega), List.getElem?_append_left (by simp; omega), List.getElem?_take,
    if_pos (by omega)]

/-- Outside the copied range. -/
theorem copyInto_out {dst src : List α} {off i : Nat} (h : i < off ∨ off + src.length ≤ i) :
    (copyInto dst off src)[i]? = dst[i]? := by
  unfold copyInto
  rw [List.append_assoc]
  rcases h with h | h
  · by_cases hi : i < dst.length
    · rw [List.getElem?_append_left (by simp; omega), List.getElem?_take, if_pos h]
    · rw [List.getElem?_eq_none (by simp; omega), List.getElem?_eq_none (by omega)]
  · by_cases hi : i < dst.length
    · rw [List.getElem?_append_right (by simp; omega), List.getElem?_append_right (by simp; omega),
        List.getElem?_drop]
      congr 1
      simp only [List.length_take]
      omega
    · rw [List.getElem?_eq_none (by simp; omega), List.getElem?_eq_none (by omega)]

end GenVM.Lib
