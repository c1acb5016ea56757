import GenVM.Lib.Except
import GenVM.Calldata.Encoder

/-!
# Reading the head of a value

Both Rust readers, the iterative `Parser` (`bin.rs`) and the
`BinaryDeserializer` (`codec/de/bin.rs`), read a value the same way up to its
payload: a ULEB number whose low three bits are the type, then the special
codes, the sizes, the slices. They differ in two of the errors they raise, which
are parameters here (`Raises`). What a head yields is an `Event`: a complete
scalar, or a container and its size.

* `head_iff`: a head is read exactly from the bytes `Event.wire` of its event,
  under the size, depth and remaining-length guards (`Event.Guard`).
-/
namespace GenVM.Calldata
open GenVM.Lib GenVM.Lib.Except

/-- mirrors executor/crates/calldata/src/bin.rs:6-18 (the position inside
`Utf8Error` is left out) -/
inductive BinDecodeError where
  | unterminatedUleb
  | invalidUlebEncoding
  | numberTooBig
  | unexpectedEnd (expected available : Nat)
  | containerSizeTooLarge (bits : Nat)
  | invalidSpecialValue (value : Nat)
  | invalidMapOrdering (prev current : String)
  | invalidTag (tag : Nat)
  | invalidUtf8
  | maxDepthExceeded
  deriving DecidableEq, Repr

/-- The two errors on which the readers differ. -/
structure Raises where
  ulebEnd : BinDecodeError
  badSpecial : Nat → BinDecodeError

/-- A shift is a `u64`; `checked_add(7)` refuses to go past it. -/
def shiftBound : Option Nat := some (2 ^ 64)

/-- `BigUint::bits` -/
def bits (n : Nat) : Nat := n.size

/-- `usize::saturating_mul` -/
def saturatingMul (a b : Nat) : Nat := min (a * b) (2 ^ 64 - 1)

/-- mirrors executor/crates/calldata/src/bin.rs:74-101, codec/de/bin.rs:77-91 -/
def fetchUlebWith (r : Raises) (data : Bytes) : Except BinDecodeError (Nat × Bytes) :=
  Uleb.read r.ulebEnd .invalidUlebEncoding .numberTooBig shiftBound data 0 0

theorem length_take_of_not_lt {n : Nat} {data : Bytes} (h : ¬ data.length < n) :
    (data.take n).length = n := by
  rw [List.length_take]
  omega

/-- mirrors executor/crates/calldata/src/bin.rs:103-116, codec/de/bin.rs:64-75 -/
def fetchSlice (expected : Nat) (data : Bytes) :
    Except BinDecodeError ({b : Bytes // b.length = expected} × Bytes) :=
  if h : data.length < expected then .error (.unexpectedEnd expected data.length)
  else .ok (⟨data.take expected, length_take_of_not_lt h⟩, data.drop expected)

/-- mirrors executor/crates/calldata/src/bin.rs:118-124, codec/de/bin.rs:93-98 -/
def mapToSize (size : Nat) : Except BinDecodeError Nat :=
  if bits size > 32 then .error (.containerSizeTooLarge (bits size)) else .ok (size % 2 ^ 32)

/-- `std::str::from_utf8` -/
def fromUtf8 (b : Bytes) : Except BinDecodeError String :=
  match Utf8.fromUtf8 b with
  | some s => .ok s
  | none => .error .invalidUtf8

/-- mirrors executor/crates/calldata/src/bin.rs:231-234, codec/de/bin.rs:100-107 -/
def fetchKeyWith (r : Raises) (data : Bytes) : Except BinDecodeError (String × Bytes) := do
  let (strSize, data) ← fetchUlebWith r data
  let strSize ← mapToSize strSize
  let (slice, data) ← fetchSlice strSize data
  let key ← fromUtf8 slice.1
  .ok (key, data)

/-- What a head announces: the visitor method the deserializer calls. -/
inductive Event where
  | null
  | bool (b : Bool)
  | address (a : Address)
  | bigint (n : Int)
  | bytes (b : Bytes)
  | str (s : String)
  | seq (len : Nat)
  | map (len : Nat)

/-- The special codes.
mirrors executor/crates/calldata/src/bin.rs:161-174, codec/de/bin.rs:120-131 -/
def special (r : Raises) (least : Nat) (data : Bytes) : Except BinDecodeError (Event × Bytes) :=
  if least = SPECIAL_NULL then .ok (.null, data)
  else if least = SPECIAL_TRUE then .ok (.bool true, data)
  else if least = SPECIAL_FALSE then .ok (.bool false, data)
  else if least = SPECIAL_ADDR then do
    let (addr, data) ← fetchSlice ADDRESS_SIZE data
    .ok (.address ⟨addr.1, addr.2⟩, data)
  else .error (r.badSpecial least)

/-- The arms of the type switch. `budget` is `max_depth - depth`.
mirrors executor/crates/calldata/src/bin.rs:154-246, codec/de/bin.rs:115-198 -/
def dispatch (r : Raises) (budget least typ val : Nat) (data : Bytes) :
    Except BinDecodeError (Event × Bytes) :=
  if typ = TYPE_SPECIAL then
    if bits val > 8 - BITS_IN_TYPE then .error (r.badSpecial least)
    else special r least data
  else if typ = TYPE_BYTES then do
    let fullSize ← mapToSize val
    let (slice, data) ← fetchSlice fullSize data
    .ok (.bytes slice.1, data)
  else if typ = TYPE_STR then do
    let fullSize ← mapToSize val
    let (slice, data) ← fetchSlice fullSize data
    let asStr ← fromUtf8 slice.1
    .ok (.str asStr, data)
  else if typ = TYPE_PINT then .ok (.bigint val, data)
  else if typ = TYPE_NINT then .ok (.bigint (-(val + 1 : Nat)), data)
  else if typ = TYPE_ARR then
    if budget = 0 then .error .maxDepthExceeded
    else do
      let fullSize ← mapToSize val
      if data.length < fullSize then .error (.unexpectedEnd fullSize data.length)
      else .ok (.seq fullSize, data)
  else if typ = TYPE_MAP then
    if budget = 0 then .error .maxDepthExceeded
    else do
      let fullSize ← mapToSize val
      if data.length < saturatingMul fullSize 2 then
        .error (.unexpectedEnd (saturatingMul fullSize 2) data.length)
      else .ok (.map fullSize, data)
  else .error (.invalidTag typ)

/-- mirrors executor/crates/calldata/src/bin.rs:145-152, codec/de/bin.rs:109-113 -/
def headWith (r : Raises) (budget : Nat) (data : Bytes) : Except BinDecodeError (Event × Bytes) := do
  let (val, data) ← fetchUlebWith r data
  let least := val % 2 ^ 32 &&& 255
  let typ := least &&& (1 <<< BITS_IN_TYPE - 1)
  dispatch r budget least typ (val >>> BITS_IN_TYPE) data

/-! ## Sizes and slices -/

/-- A size fits the 32 bits the readers allow. -/
def SizeFits (n : Nat) : Prop := n < 2 ^ 32

theorem mapToSize_iff {n m : Nat} : mapToSize n = .ok m ↔ m = n ∧ SizeFits n := by
  unfold mapToSize bits SizeFits
  by_cases h : n < 2 ^ 32
  · rw [if_neg (by rw [not_lt, Nat.size_le]; exact h), Except.ok.injEq, Nat.mod_eq_of_lt h]
    exact ⟨fun e => ⟨e.symm, h⟩, fun e => e.1.symm⟩
  · rw [if_pos (by rw [gt_iff_lt, Nat.lt_size]; omega)]
    simp only [reduceCtorEq, false_iff, not_and]
    exact fun _ => h

theorem fetchSlice_iff {k : Nat} {data rest : Bytes} {s : {b : Bytes // b.length = k}} :
    fetchSlice k data = .ok (s, rest) ↔ data = s.1 ++ rest := by
  unfold fetchSlice
  split
  · next h =>
    simp only [reduceCtorEq, false_iff]
    intro e
    have := congrArg List.length e
    rw [List.length_append, s.2] at this; omega
  · next h =>
    obtain ⟨s, hs⟩ := s
    simp only [Except.ok.injEq, Prod.mk.injEq, Subtype.mk.injEq]
    constructor
    · rintro ⟨rfl, rfl⟩; exact (List.take_append_drop k data).symm
    · rintro rfl; exact ⟨by simp [← hs], by simp [← hs]⟩

theorem fromUtf8_iff {b : Bytes} {s : String} : fromUtf8 b = .ok s ↔ b = Utf8.bytes s := by
  unfold fromUtf8
  rw [← Utf8.fromUtf8_eq_some]
  cases Utf8.fromUtf8 b <;> simp

/-- Five groups hold every tagged 32-bit size. -/
theorem fits_size {n : Nat} (h : n < 2 ^ 35) : Uleb.Fits shiftBound 0 (Uleb.encode n).length := by
  have := Uleb.encode_length_le 4 n (by simpa using h)
  intro L hL _
  cases hL; omega

theorem fetchUlebWith_iff {r : Raises} {data rest : Bytes} {n : Nat} :
    fetchUlebWith r data = .ok (n, rest) ↔
      data = Uleb.encode n ++ rest ∧ Uleb.Fits shiftBound 0 (Uleb.encode n).length :=
  Uleb.read_iff data n rest

theorem fetchKeyWith_iff {r : Raises} {data rest : Bytes} {k : String} :
    fetchKeyWith r data = .ok (k, rest) ↔
      data = wireKey k ++ rest ∧ SizeFits (Utf8.bytes k).length := by
  unfold fetchKeyWith wireKey
  simp only [bind_ok, Prod.exists, fetchUlebWith_iff, mapToSize_iff, fetchSlice_iff, fromUtf8_iff,
    Except.ok.injEq, Prod.mk.injEq]
  constructor
  · rintro ⟨n, d, ⟨rfl, hf⟩, m, ⟨rfl, hn⟩, s, d', rfl, k', hk, rfl, rfl⟩
    obtain ⟨s, hs⟩ := s
    dsimp only at hk hs
    subst hk hs
    exact ⟨by rw [List.append_assoc], hn⟩
  · rintro ⟨rfl, hn⟩
    refine ⟨_, _, ⟨by rw [List.append_assoc], fits_size (by unfold SizeFits at hn; omega)⟩, _,
      ⟨rfl, hn⟩, ⟨Utf8.bytes k, rfl⟩, rest, rfl, k, rfl, rfl, rfl⟩

/-! ## What a head is -/

namespace Event

/-- The number in front. -/
def code : Event → Nat
  | null => SPECIAL_NULL
  | bool b => if b then SPECIAL_TRUE else SPECIAL_FALSE
  | address _ => SPECIAL_ADDR
  | bigint n => intPayload n * 8 + intTag n
  | bytes b => b.length * 8 + TYPE_BYTES
  | str s => (Utf8.bytes s).length * 8 + TYPE_STR
  | seq len => len * 8 + TYPE_ARR
  | map len => len * 8 + TYPE_MAP

/-- The bytes a scalar has after it. -/
def body : Event → Bytes
  | address a => a.raw
  | bytes b => b
  | str s => Utf8.bytes s
  | _ => []

def wire (ev : Event) : Bytes := Uleb.encode ev.code ++ ev.body

/-- The sizes the readers allow, and what has to be left for a container. -/
def Guard (budget : Nat) (rest : Bytes) : Event → Prop
  | bytes b => SizeFits b.length
  | str s => SizeFits (Utf8.bytes s).length
  | seq len => 0 < budget ∧ SizeFits len ∧ len ≤ rest.length
  | map len => 0 < budget ∧ SizeFits len ∧ 2 * len ≤ rest.length
  | _ => True

end Event

/-- The groups of a number stay under the shift bound. -/
def NumFits (n : Int) : Prop := Uleb.Fits shiftBound 0 (tagged (intTag n) (intPayload n)).length

theorem int_code (n : Int) : intPayload n * 8 + intTag n =
    if n < 0 then (n.natAbs - 1) * 8 + TYPE_NINT else n.natAbs * 8 + TYPE_PINT := by
  unfold intPayload intTag; split <;> rfl

theorem least_eq (n : Nat) : n % 2 ^ 32 &&& 255 = n % 256 := by
  rw [show (255 : Nat) = 2 ^ 8 - 1 from rfl, Nat.and_two_pow_sub_one_eq_mod]; omega

theorem typ_eq (n : Nat) : n % 256 &&& (1 <<< BITS_IN_TYPE - 1) = n % 8 := by
  rw [show 1 <<< BITS_IN_TYPE - 1 = 2 ^ 3 - 1 from rfl, Nat.and_two_pow_sub_one_eq_mod]; omega

theorem bits_le {n : Nat} : ¬ bits n > 8 - BITS_IN_TYPE ↔ n < 32 := by
  rw [bits, not_lt, Nat.size_le]; rfl

theorem special_sound {r : Raises} {budget n : Nat} {data rest : Bytes} {ev : Event}
    (h : special r n data = .ok (ev, rest)) :
    n = ev.code ∧ data = ev.body ++ rest ∧ ev.Guard budget rest := by
  unfold special at h
  split at h
  · cases h; exact ⟨by assumption, rfl, trivial⟩
  split at h
  · cases h; exact ⟨by assumption, rfl, trivial⟩
  split at h
  · cases h; exact ⟨by assumption, rfl, trivial⟩
  split at h
  · simp only [bind_ok, Prod.exists, fetchSlice_iff] at h
    obtain ⟨a, d, rfl, h⟩ := h
    cases h; exact ⟨by assumption, rfl, trivial⟩
  · cases h

/-- With at most five payload bits the low byte is the whole number. -/
theorem dispatch_special {r : Raises} {budget n : Nat} {data : Bytes} (hn : n < 256) (h0 : n % 8 = 0) :
    dispatch r budget (n % 256) (n % 8) (n / 8) data = special r n data := by
  rw [dispatch, h0, if_pos (by decide), if_neg (bits_le.mpr (by omega)), Nat.mod_eq_of_lt hn]

theorem dispatch_sound {r : Raises} {budget n : Nat} {data rest : Bytes} {ev : Event}
    (h : dispatch r budget (n % 256) (n % 8) (n / 8) data = .ok (ev, rest)) :
    n = ev.code ∧ data = ev.body ++ rest ∧ ev.Guard budget rest := by
  by_cases h0 : n % 8 = 0
  · by_cases hn : n < 256
    · rw [dispatch_special hn h0] at h
      exact special_sound h
    · have hb : bits (n / 8) > 8 - BITS_IN_TYPE := not_not.mp (mt bits_le.mp (by omega))
      rw [dispatch, h0, if_pos (by decide), if_pos hb] at h
      cases h
  unfold dispatch at h
  rw [if_neg (show ¬ n % 8 = TYPE_SPECIAL from h0)] at h
  split at h
  · next ht =>
    simp only [bind_ok, Prod.exists, mapToSize_iff, fetchSlice_iff] at h
    obtain ⟨m, ⟨rfl, hm⟩, ⟨s, hs⟩, d, rfl, h⟩ := h
    cases h
    exact ⟨by simp only [Event.code, TYPE_BYTES] at ht ⊢; omega, rfl, by rwa [← hs] at hm⟩
  split at h
  · next ht =>
    simp only [bind_ok, Prod.exists, mapToSize_iff, fetchSlice_iff, fromUtf8_iff] at h
    obtain ⟨m, ⟨rfl, hm⟩, ⟨s, hs⟩, d, rfl, a, rfl, h⟩ := h
    cases h
    exact ⟨by simp only [Event.code, TYPE_STR] at ht ⊢; omega, rfl, by rwa [← hs] at hm⟩
  split at h
  · next ht =>
    cases h
    refine ⟨?_, rfl, trivial⟩
    rw [Event.code, int_code, if_neg (by omega), Int.natAbs_natCast]
    simp only [TYPE_PINT] at ht ⊢; omega
  split at h
  · next ht =>
    cases h
    refine ⟨?_, rfl, trivial⟩
    rw [Event.code, int_code, if_pos (by omega), Int.natAbs_neg, Int.natAbs_natCast]
    simp only [TYPE_NINT] at ht ⊢; omega
  split at h
  · next ht =>
    split at h
    · cases h
    · next hd =>
      simp only [bind_ok, mapToSize_iff] at h
      obtain ⟨m, ⟨rfl, hm⟩, h⟩ := h
      split at h
      · cases h
      · cases h
        simp only [Event.code, TYPE_ARR] at ht ⊢
        exact ⟨by omega, rfl, by omega, hm, by omega⟩
  split at h
  · next ht =>
    split at h
    · cases h
    · next hd =>
      simp only [bind_ok, mapToSize_iff] at h
      obtain ⟨m, ⟨rfl, hm⟩, h⟩ := h
      split at h
      · cases h
      · next hl =>
        cases h
        simp only [Event.code, TYPE_MAP] at ht ⊢
        unfold saturatingMul at hl
        have hm' := hm
        unfold SizeFits at hm'
        exact ⟨by omega, rfl, by omega, hm, by omega⟩
  · cases h

theorem mod8 (v t : Nat) (h : t < 8) : (v * 8 + t) % 8 = t := by omega
theorem div8 (v t : Nat) (h : t < 8) : (v * 8 + t) / 8 = v := by omega

theorem dispatch_complete {r : Raises} {budget : Nat} {rest : Bytes} {ev : Event}
    (hg : ev.Guard budget rest) :
    dispatch r budget (ev.code % 256) (ev.code % 8) (ev.code / 8) (ev.body ++ rest) = .ok (ev, rest) := by
  cases ev with
  | null => exact dispatch_special (by decide) (by decide)
  | bool b => cases b <;> exact dispatch_special (by decide) (by decide)
  | address a =>
    change dispatch r budget (SPECIAL_ADDR % 256) (SPECIAL_ADDR % 8) (SPECIAL_ADDR / 8) (a.raw ++ rest) = _
    rw [dispatch_special (by decide) (by decide), special, if_neg (by decide),
      if_neg (by decide), if_neg (by decide), if_pos (by decide)]
    exact bind_ok.mpr ⟨(⟨a.raw, a.size⟩, rest), fetchSlice_iff.mpr rfl, rfl⟩
  | bigint n =>
    rw [show (Event.bigint n).body = [] from rfl, List.nil_append, Event.code, int_code]
    by_cases hn : n < 0
    · have he : (-((n.natAbs - 1 + 1 : Nat) : Int)) = n := by omega
      rw [if_pos hn, TYPE_NINT, mod8 _ 2 (by decide), div8 _ 2 (by decide), dispatch, if_neg (by decide),
        if_neg (by decide), if_neg (by decide), if_neg (by decide), if_pos (by decide), he]
    · have he : ((n.natAbs : Nat) : Int) = n := by omega
      rw [if_neg hn, TYPE_PINT, mod8 _ 1 (by decide), div8 _ 1 (by decide), dispatch, if_neg (by decide),
        if_neg (by decide), if_neg (by decide), if_pos (by decide), he]
  | bytes b =>
    rw [Event.code, TYPE_BYTES, mod8 _ 3 (by decide), div8 _ 3 (by decide), dispatch, if_neg (by decide),
      if_pos (by decide)]
    refine bind_ok.mpr ⟨_, mapToSize_iff.mpr ⟨rfl, hg⟩, ?_⟩
    exact bind_ok.mpr ⟨(⟨b, rfl⟩, rest), fetchSlice_iff.mpr rfl, rfl⟩
  | str s =>
    rw [Event.code, TYPE_STR, mod8 _ 4 (by decide), div8 _ 4 (by decide), dispatch, if_neg (by decide),
      if_neg (by decide), if_pos (by decide)]
    refine bind_ok.mpr ⟨_, mapToSize_iff.mpr ⟨rfl, hg⟩, ?_⟩
    refine bind_ok.mpr ⟨(⟨Utf8.bytes s, rfl⟩, rest), fetchSlice_iff.mpr rfl, ?_⟩
    exact bind_ok.mpr ⟨s, fromUtf8_iff.mpr rfl, rfl⟩
  | seq len =>
    obtain ⟨hb, hs, hl⟩ := hg
    rw [Event.code, TYPE_ARR, mod8 _ 5 (by decide), div8 _ 5 (by decide), dispatch, if_neg (by decide),
      if_neg (by decide), if_neg (by decide), if_neg (by decide), if_neg (by decide), if_pos (by decide),
      if_neg (by omega)]
    refine bind_ok.mpr ⟨_, mapToSize_iff.mpr ⟨rfl, hs⟩, ?_⟩
    exact if_neg (not_lt.mpr hl)
  | map len =>
    obtain ⟨hb, hs, hl⟩ := hg
    rw [Event.code, TYPE_MAP, mod8 _ 6 (by decide), div8 _ 6 (by decide), dispatch, if_neg (by decide),
      if_neg (by decide), if_neg (by decide), if_neg (by decide), if_neg (by decide), if_neg (by decide),
      if_pos (by decide), if_neg (by omega)]
    refine bind_ok.mpr ⟨_, mapToSize_iff.mpr ⟨rfl, hs⟩, ?_⟩
    refine if_neg (not_lt.mpr (le_trans (min_le_left _ _) ?_))
    rwa [Nat.mul_comm]

/-- The number of the head stays under the shift bound: always, but for a huge integer. -/
def Event.CodeFits : Event → Prop
  | .bigint n => NumFits n
  | _ => True

theorem codeFits {budget : Nat} {rest : Bytes} {ev : Event} (hg : ev.Guard budget rest) :
    Uleb.Fits shiftBound 0 (Uleb.encode ev.code).length ↔ ev.CodeFits := by
  cases ev with
  | bigint n => rfl
  | null => exact iff_of_true (fits_size (by decide)) trivial
  | bool b => exact iff_of_true (fits_size (by cases b <;> decide)) trivial
  | address a => exact iff_of_true (fits_size (by rw [Event.code]; decide)) trivial
  | bytes b =>
    have h : b.length < 2 ^ 32 := hg
    exact iff_of_true (fits_size (by rw [Event.code, TYPE_BYTES]; omega)) trivial
  | str s =>
    have h : (Utf8.bytes s).length < 2 ^ 32 := hg
    exact iff_of_true (fits_size (by rw [Event.code, TYPE_STR]; omega)) trivial
  | seq len =>
    have h : len < 2 ^ 32 := hg.2.1
    exact iff_of_true (fits_size (by rw [Event.code, TYPE_ARR]; omega)) trivial
  | map len =>
    have h : len < 2 ^ 32 := hg.2.1
    exact iff_of_true (fits_size (by rw [Event.code, TYPE_MAP]; omega)) trivial

/-- **Heads.** A head is read exactly from the bytes of its event. -/
theorem head_iff {r : Raises} {budget : Nat} {data rest : Bytes} {ev : Event} :
    headWith r budget data = .ok (ev, rest) ↔
      data = ev.wire ++ rest ∧ ev.Guard budget rest ∧ ev.CodeFits := by
  unfold headWith Event.wire
  simp only [bind_ok, Prod.exists, fetchUlebWith_iff, least_eq, typ_eq,
    Nat.shiftRight_eq_div_pow]
  constructor
  · rintro ⟨n, d, ⟨rfl, hf⟩, h⟩
    obtain ⟨rfl, rfl, hg⟩ := dispatch_sound h
    exact ⟨by rw [List.append_assoc], hg, (codeFits hg).mp hf⟩
  · rintro ⟨rfl, hg, hf⟩
    exact ⟨ev.code, ev.body ++ rest, ⟨by rw [List.append_assoc], (codeFits hg).mpr hf⟩,
      dispatch_complete hg⟩

end GenVM.Calldata
