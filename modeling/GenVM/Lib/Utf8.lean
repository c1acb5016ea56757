import Mathlib

/-!
# UTF-8 and the two string orders

A string is compared either code point by code point or byte by byte of its
UTF-8 form. `bytes_lt_iff` shows the two agree. It is an instance of a general
fact (`flatMap_lt_iff`): a code whose words are separated at some common
position, in the order of the symbols, orders texts as their symbols do.

`fromUtf8` is strict UTF-8 validation; `fromUtf8_eq_some` says it accepts
exactly the byte form of a string.
-/
namespace GenVM.Lib.Utf8

/-! ## Ordered codes -/

section
variable {α β : Type} [LinearOrder α]

/-- `l` and `m` agree up to a position at which `l` is below `m`. -/
def Sep [LT β] (l m : List β) : Prop :=
  ∃ p x u y w, l = p ++ x :: u ∧ m = p ++ y :: w ∧ x < y

variable [LT β]

theorem Sep.lt_append {l m : List β} (h : Sep l m) (r s : List β) : l ++ r < m ++ s := by
  obtain ⟨p, x, u, y, w, rfl, rfl, hxy⟩ := h
  induction p with
  | nil => exact List.Lex.rel hxy
  | cons a p ih => exact List.Lex.cons ih

theorem flatMap_lt {f : α → List β} (hf : ∀ a b, a < b → Sep (f a) (f b)) (hne : ∀ a, f a ≠ [])
    {xs ys : List α} (h : xs < ys) : xs.flatMap f < ys.flatMap f := by
  induction h with
  | @nil y ys =>
    obtain ⟨z, zs, hz⟩ := List.exists_cons_of_ne_nil (hne y)
    rw [List.flatMap_nil, List.flatMap_cons, hz]; exact List.Lex.nil
  | @cons a xs ys _ ih =>
    rw [List.flatMap_cons, List.flatMap_cons]
    generalize f a = p
    induction p with
    | nil => exact ih
    | cons b p ihp => exact List.Lex.cons ihp
  | @rel a xs b ys hab =>
    rw [List.flatMap_cons, List.flatMap_cons]
    exact (hf a b hab).lt_append _ _

theorem flatMap_lt_iff {f : α → List β} (hf : ∀ a b, a < b → Sep (f a) (f b))
    (hne : ∀ a, f a ≠ []) (hirr : ∀ l : List β, ¬ l < l) (hasymm : ∀ l m : List β, l < m → ¬ m < l)
    (xs ys : List α) : xs.flatMap f < ys.flatMap f ↔ xs < ys := by
  refine ⟨fun h => ?_, flatMap_lt hf hne⟩
  rcases lt_trichotomy xs ys with h' | rfl | h'
  · exact h'
  · exact absurd h (hirr _)
  · exact absurd h (hasymm _ _ (flatMap_lt hf hne h'))

end

/-! ## Bytes of a string -/

def bytes (s : String) : List UInt8 := s.toByteArray.data.toList

/-- Strict validation: no overlong form, no surrogate, nothing above U+10FFFF. -/
def fromUtf8 (b : List UInt8) : Option String := String.fromUTF8? ⟨b.toArray⟩

theorem fromUtf8_eq_some {b : List UInt8} {s : String} : fromUtf8 b = some s ↔ b = bytes s := by
  unfold fromUtf8 bytes String.fromUTF8?
  constructor
  · intro h
    split at h
    · simp only [Option.some.injEq] at h
      rw [← h]; rfl
    · cases h
  · rintro rfl
    have hs : (⟨s.toByteArray.data.toList.toArray⟩ : ByteArray) = s.toByteArray := by simp
    rw [hs, dif_pos s.isValidUTF8]; rfl

@[simp] theorem fromUtf8_bytes (s : String) : fromUtf8 (bytes s) = some s := fromUtf8_eq_some.mpr rfl

theorem bytes_inj {s t : String} (h : bytes s = bytes t) : s = t := by
  have := fromUtf8_bytes s
  rw [h, fromUtf8_bytes] at this
  exact (Option.some.inj this).symm

theorem bytes_eq (s : String) : bytes s = s.toList.flatMap String.utf8EncodeChar := by
  have h : bytes (String.ofList s.toList) = s.toList.flatMap String.utf8EncodeChar := by
    unfold bytes
    rw [String.toByteArray_ofList, List.utf8Encode, List.data_toByteArray]
  rwa [String.ofList_toList] at h

theorem encodeChar_ascii {c : UInt8} (h : c < 128) : String.utf8EncodeChar (Char.ofNat c.toNat) = [c] := by
  have hc : c.toNat < 128 := h
  have hv : (Char.ofNat c.toNat).val.toNat = c.toNat := by
    rw [Char.ofNat, dif_pos (Or.inl (by omega))]
    simp [Char.ofNatAux]
  have hle : (Char.ofNat c.toNat).val.toNat ≤ 127 := by omega
  unfold String.utf8EncodeChar
  simp only [hle, if_true]
  rw [hv]
  simp

/-- ASCII bytes are a text of as many characters. -/
theorem bytes_ascii {b : List UInt8} (h : ∀ c ∈ b, c < 128) :
    bytes (String.ofList (b.map fun c => Char.ofNat c.toNat)) = b := by
  rw [bytes_eq, String.toList_ofList]
  induction b with
  | nil => rfl
  | cons c b ih =>
    rw [List.map_cons, List.flatMap_cons, encodeChar_ascii (h c List.mem_cons_self),
      ih fun d hd => h d (List.mem_cons_of_mem _ hd)]
    rfl

/-! ## Code point order is byte order -/

theorem ofNat_lt {m n : Nat} (hm : m < 256) (hn : n < 256) (h : m < n) :
    UInt8.ofNat m < UInt8.ofNat n := by
  rw [UInt8.lt_iff_toNat_lt, UInt8.toNat_ofNat', UInt8.toNat_ofNat']; omega

theorem sep_cons {β : Type} [LT β] {l m : List β} (a : β) (h : Sep l m) : Sep (a :: l) (a :: m) := by
  obtain ⟨p, x, u, y, w, rfl, rfl, hxy⟩ := h
  exact ⟨a :: p, x, u, y, w, rfl, rfl, hxy⟩

theorem sep_head {β : Type} [LT β] {a b : β} (l m : List β) (h : a < b) : Sep (a :: l) (b :: m) :=
  ⟨[], a, l, b, m, rfl, rfl, h⟩

/-- Two bytes, then the rest: decided here or further on. -/
theorem sep_step {m n : Nat} {l l' : List UInt8} (hm : m < 256) (hn : n < 256) (hle : m ≤ n)
    (h : m = n → Sep l l') : Sep (UInt8.ofNat m :: l) (UInt8.ofNat n :: l') := by
  rcases Nat.lt_or_eq_of_le hle with hlt | rfl
  · exact sep_head _ _ (ofNat_lt hm hn hlt)
  · exact sep_cons _ (h rfl)

theorem encodeChar_sep (c d : Char) (h : c < d) :
    Sep (String.utf8EncodeChar c) (String.utf8EncodeChar d) := by
  have hcd : c.val.toNat < d.val.toNat := h
  have hd : d.val.toNat < 0x110000 := by
    rcases d.valid with hv | hv <;> omega
  unfold String.utf8EncodeChar
  generalize c.val.toNat = m at *
  generalize d.val.toNat = n at *
  simp only
  -- the length class of `c` against that of `d`; equal classes compare group by group
  by_cases m1 : m ≤ 127
  · by_cases n1 : n ≤ 127
    · simp only [m1, n1, if_true]
      exact sep_head _ _ (ofNat_lt (by omega) (by omega) hcd)
    · simp only [m1, n1, if_true, if_false]
      split_ifs <;> exact sep_head _ _ (ofNat_lt (by omega) (by omega) (by omega))
  by_cases m2 : m ≤ 2047
  · by_cases n2 : n ≤ 2047
    · simp only [m1, m2, n2, show ¬ n ≤ 127 by omega, if_true, if_false]
      exact sep_step (by omega) (by omega) (by omega) fun _ =>
        sep_head _ _ (ofNat_lt (by omega) (by omega) (by omega))
    · simp only [m1, m2, n2, show ¬ n ≤ 127 by omega, if_true, if_false]
      split_ifs <;> exact sep_head _ _ (ofNat_lt (by omega) (by omega) (by omega))
  by_cases m3 : m ≤ 65535
  · by_cases n3 : n ≤ 65535
    · simp only [m1, m2, m3, n3, show ¬ n ≤ 127 by omega, show ¬ n ≤ 2047 by omega, if_true,
        if_false]
      exact sep_step (by omega) (by omega) (by omega) fun _ =>
        sep_step (by omega) (by omega) (by omega) fun _ =>
          sep_head _ _ (ofNat_lt (by omega) (by omega) (by omega))
    · simp only [m1, m2, m3, n3, show ¬ n ≤ 127 by omega, show ¬ n ≤ 2047 by omega, if_true,
        if_false]
      exact sep_head _ _ (ofNat_lt (by omega) (by omega) (by omega))
  · simp only [m1, m2, m3, show ¬ n ≤ 127 by omega, show ¬ n ≤ 2047 by omega,
      show ¬ n ≤ 65535 by omega, if_false]
    exact sep_step (by omega) (by omega) (by omega) fun _ =>
      sep_step (by omega) (by omega) (by omega) fun _ =>
        sep_step (by omega) (by omega) (by omega) fun _ =>
          sep_head _ _ (ofNat_lt (by omega) (by omega) (by omega))

theorem byteList_lt_irrefl (l : List UInt8) : ¬ l < l := List.lt_irrefl l

theorem byteList_lt_asymm (l m : List UInt8) (h : l < m) : ¬ m < l := List.lt_asymm h

/-- **One order.** Comparing UTF-8 bytes is comparing code points. -/
theorem bytes_lt_iff (s t : String) : bytes s < bytes t ↔ s < t := by
  rw [bytes_eq, bytes_eq, String.lt_iff]
  exact flatMap_lt_iff encodeChar_sep (fun _ => String.utf8EncodeChar_ne_nil) byteList_lt_irrefl
    byteList_lt_asymm _ _

end GenVM.Lib.Utf8
