import GenVM.Lib.Regroup
import GenVM.Lib.Utf8

/-!
# gvm32 (`executor/crates/sdk-rs/src/gvm32.rs`, `genlayer/gvm32.py`)

The base32 form of hashes, once in Rust with an accumulator that is cut to the
bits in use and once in Python with one that grows. Both are the regrouping of
`GenVM.Lib.Regroup`, from bytes to 5-bit digits and back. A text is a list of
characters; Rust reads its UTF-8 bytes.

Results: `canonical_iff`, `encode_canonical`, `zero_not_canonical`.
-/
namespace GenVM.Gvm32
open GenVM.Lib GenVM.Lib.Regroup

/-- mirrors executor/crates/sdk-rs/src/gvm32.rs:9, gvm32.py:16 -/
def ALPHABET : List Char :=
  ['0', '1', '2', '3', '4', '5', '6', '7', '8', '9', 'a', 'b', 'c', 'd', 'e', 'f',
    'g', 'h', 'j', 'k', 'm', 'n', 'p', 'q', 'r', 's', 't', 'v', 'w', 'x', 'y', 'z']

/-- `ALPHABET[i]`, for the five bits `i`. -/
def symbol (i : Nat) : Char := ALPHABET.getD i '0'

/-- The state of the loops: what is put out, and the accumulator. -/
structure Acc (α : Type) where
  out : List α
  value : Nat
  bits : Nat

def Acc.start (α : Type) : Acc α := ⟨[], 0, 0⟩

/-! ## Rust -/

namespace Rust

/-- `value << k` on `u32` -/
def shl (value k : Nat) : Nat := (value <<< k) % 2 ^ 32

/-- mirrors executor/crates/sdk-rs/src/gvm32.rs:17-24 -/
def encodeByte (st : Acc Char) (b : UInt8) : Acc Char :=
  let value := shl st.value 8 ||| b.toNat
  let r := drain 5 value (st.bits + 8)
  ⟨st.out ++ r.1.map symbol, value &&& (1 <<< r.2 - 1), r.2⟩

/-- mirrors executor/crates/sdk-rs/src/gvm32.rs:12-30 -/
def encode (bytes : List UInt8) : List Char :=
  let st := bytes.foldl encodeByte (Acc.start Char)
  if 0 < st.bits then st.out ++ [symbol (shl st.value (5 - st.bits) &&& 0x1f)] else st.out

/-- `to_ascii_lowercase` -/
def to_ascii_lowercase (c : UInt8) : UInt8 := if 65 ≤ c ∧ c ≤ 90 then c + 32 else c

/-- mirrors executor/crates/sdk-rs/src/gvm32.rs:32-39 -/
def decode_char (c : UInt8) : Option Nat :=
  let c := to_ascii_lowercase c
  let c := if c = 111 then 48 else if c = 105 ∨ c = 108 then 49 else c
  (ALPHABET.map fun x => x.toNat.toUInt8).idxOf? c

/-- mirrors executor/crates/sdk-rs/src/gvm32.rs:41-51 -/
inductive DecodeError where
  | invalidChar (c : UInt8)
  | nonZeroPadding (bits value : Nat)
  deriving DecidableEq

/-- mirrors executor/crates/sdk-rs/src/gvm32.rs:76-87 -/
def decodeByte (st : Acc UInt8) (c : UInt8) : Except DecodeError (Acc UInt8) :=
  if c = 45 then .ok st
  else
    match decode_char c with
    | none => .error (.invalidChar c)
    | some digit =>
      let value := shl st.value 5 ||| digit
      let bits := st.bits + 5
      if 8 ≤ bits then
        .ok ⟨st.out ++ [UInt8.ofNat (value >>> (bits - 8))], value &&& (1 <<< (bits - 8) - 1),
          bits - 8⟩
      else .ok ⟨st.out, value, bits⟩

/-- mirrors executor/crates/sdk-rs/src/gvm32.rs:72-92 -/
def decode (s : List Char) : Except DecodeError (List UInt8) :=
  match (s.flatMap String.utf8EncodeChar).foldlM decodeByte (Acc.start UInt8) with
  | .error e => .error e
  | .ok st => if st.value ≠ 0 then .error (.nonZeroPadding st.bits st.value) else .ok st.out

end Rust

/-! ## Python -/

namespace Py

/-- mirrors gvm32.py:29-34 -/
def encodeByte (st : Acc Char) (byte : UInt8) : Acc Char :=
  let value := st.value <<< 8 ||| byte.toNat
  let r := drain 5 value (st.bits + 8)
  ⟨st.out ++ r.1.map symbol, value, r.2⟩

/-- mirrors gvm32.py:19-37 -/
def encode (data : List UInt8) : List Char :=
  let st := data.foldl encodeByte (Acc.start Char)
  if 0 < st.bits then st.out ++ [symbol ((st.value <<< (5 - st.bits)) &&& 0x1f)] else st.out

/-- KELVIN SIGN, which `str.lower` maps to `k` -/
def KELVIN : Char := Char.ofNat 0x212a

/-- `ch.lower()`, as far as `_decode_char` can tell: KELVIN SIGN is the only
character outside of ASCII that becomes an ASCII one. Whatever the others become
is not in the alphabet, as they are not themselves. -/
def lower (ch : Char) : Char := if ch = KELVIN then 'k' else ch.toLower

/-- mirrors gvm32.py:40-47 -/
def _decode_char (ch : Char) : Option Nat :=
  let c := lower ch
  let c := if c = 'o' then '0' else if c = 'i' ∨ c = 'l' then '1' else c
  ALPHABET.idxOf? c

/-- mirrors gvm32.py:64-74 -/
def decodeChar (st : Acc UInt8) (ch : Char) : Option (Acc UInt8) :=
  if ch = '-' then some st
  else do
    let digit ← _decode_char ch
    let value := st.value <<< 5 ||| digit
    let bits := st.bits + 5
    if 8 ≤ bits then
      some ⟨st.out ++ [UInt8.ofNat ((value >>> (bits - 8)) &&& 0xff)], value, bits - 8⟩
    else some ⟨st.out, value, bits⟩

/-- mirrors gvm32.py:50-78 -/
def decode (s : List Char) : Option (List UInt8) := do
  let st ← s.foldlM decodeChar (Acc.start UInt8)
  if st.value &&& (1 <<< st.bits - 1) ≠ 0 then none else some st.out

end Py

/-! ## Characters -/

/-- The digit Rust reads a character as; only ASCII has one. -/
def readRust (c : Char) : Option Nat :=
  if c.toNat < 128 then Rust.decode_char c.toNat.toUInt8 else none

/-- ASCII lowercase, `i` and `l` as `1`, `o` as `0`. -/
def normalChar (c : Char) : Char :=
  let c := c.toLower
  if c = 'o' then '0' else if c = 'i' ∨ c = 'l' then '1' else c

/-- A text without what decoding ignores. -/
def normalise (s : List Char) : List Char := (s.filter (· ≠ '-')).map normalChar

/-- What holds of every ASCII character holds of the first 128 numbers. -/
theorem ascii_cases {P : Char → Prop} (h : ∀ n : Fin 128, P (Char.ofNat n)) (c : Char)
    (hc : c.toNat < 128) : P c := by
  have hP := h ⟨c.toNat, hc⟩
  rwa [show Char.ofNat (⟨c.toNat, hc⟩ : Fin 128).1 = c from Char.ofNat_toNat c] at hP

theorem readPy_ascii (c : Char) (hc : c.toNat < 128) : Py._decode_char c = readRust c :=
  ascii_cases (P := fun c => Py._decode_char c = readRust c) (by decide +kernel) c hc

theorem readRust_symbol (c : Char) (hc : c.toNat < 128) :
    ∀ d ∈ readRust c, d < 32 ∧ normalChar c = symbol d :=
  ascii_cases (P := fun c => ∀ d ∈ readRust c, d < 32 ∧ normalChar c = symbol d)
    (by decide +kernel) c hc

/-- Python reads no other character outside of ASCII. -/
theorem readPy_other {c : Char} (hc : ¬ c.toNat < 128) (hk : c ≠ Py.KELVIN) :
    Py._decode_char c = none := by
  have hall : ∀ x ∈ ALPHABET, x.toNat < 128 := by
    have h : ALPHABET.all (fun x => x.toNat < 128) = true := rfl
    simpa using h
  have hlower : Py.lower c = c := by
    unfold Py.lower
    rw [if_neg hk, Char.toLower]
    have hupper : ¬ c.isUpper := by
      intro h
      unfold Char.isUpper at h
      simp only [decide_eq_true_eq] at h
      have hle : c.val.toNat ≤ 90 := h.2
      exact hc (Nat.lt_of_le_of_lt hle (by decide))
    split
    · next h => exact absurd (by simpa [Char.isUpper] using h) hupper
    · rfl
  have hne : ∀ x : Char, x.toNat < 128 → c ≠ x := fun x hx he => hc (he ▸ hx)
  unfold Py._decode_char
  rw [hlower]
  dsimp only
  rw [if_neg (hne 'o' (by decide)), if_neg (not_or.mpr ⟨hne 'i' (by decide), hne 'l' (by decide)⟩),
    List.idxOf?_eq_none_iff]
  exact fun hm => hc (hall c hm)

/-- The digits of a text, where `read` knows every character but `-`. -/
def digits (read : Char → Option Nat) : List Char → Option (List Nat)
  | [] => some []
  | c :: cs =>
    if c = '-' then digits read cs
    else do
      let d ← read c
      let ds ← digits read cs
      some (d :: ds)

theorem digits_cons_some {read : Char → Option Nat} {c : Char} {cs : List Char} {ds : List Nat}
    (hc : c ≠ '-') (h : digits read (c :: cs) = some ds) :
    ∃ d ds', read c = some d ∧ digits read cs = some ds' ∧ ds = d :: ds' := by
  rw [digits, if_neg hc] at h
  obtain ⟨d, hd, h⟩ := Option.bind_eq_some_iff.mp h
  obtain ⟨ds', hds, h⟩ := Option.bind_eq_some_iff.mp h
  exact ⟨d, ds', hd, hds, (Option.some.inj h).symm⟩

theorem ascii_of_readRust {c : Char} {d : Nat} (h : readRust c = some d) : c.toNat < 128 := by
  unfold readRust at h
  split at h
  · assumption
  · cases h

/-- What Rust reads is ASCII, Python reads it the same way, and normalised it is
the symbols of the digits. -/
theorem digits_rust : ∀ {s : List Char} {ds : List Nat}, digits readRust s = some ds →
    (∀ c ∈ s, c.toNat < 128) ∧ digits Py._decode_char s = some ds ∧ (∀ d ∈ ds, d < 2 ^ 5) ∧
      normalise s = ds.map symbol
  | [], ds, h => by
    obtain rfl := Option.some.inj h
    exact ⟨fun _ hc => absurd hc List.not_mem_nil, rfl, fun _ hd => absurd hd List.not_mem_nil, rfl⟩
  | c :: cs, ds, h => by
    by_cases hc : c = '-'
    · subst hc
      obtain ⟨hascii, hpy, hlt, hnorm⟩ := digits_rust (s := cs) h
      refine ⟨List.forall_mem_cons.mpr ⟨by decide, hascii⟩, hpy, hlt, ?_⟩
      rw [← hnorm]
      rfl
    · obtain ⟨d, ds', hd, hds, rfl⟩ := digits_cons_some hc h
      obtain ⟨hascii, hpy, hlt, hnorm⟩ := digits_rust hds
      have hone := ascii_of_readRust hd
      obtain ⟨hd32, hsym⟩ := readRust_symbol c hone d hd
      refine ⟨List.forall_mem_cons.mpr ⟨hone, hascii⟩, ?_, List.forall_mem_cons.mpr ⟨hd32, hlt⟩, ?_⟩
      · rw [digits, if_neg hc, readPy_ascii c hone, hd, hpy]
        rfl
      · unfold normalise at hnorm ⊢
        rw [List.filter_cons_of_pos (by simpa using hc), List.map_cons, List.map_cons, hnorm, hsym]

/-- Without a KELVIN SIGN Rust reads what Python reads. -/
theorem digits_py : ∀ {s : List Char} {ds : List Nat}, digits Py._decode_char s = some ds →
    Py.KELVIN ∉ s → digits readRust s = some ds
  | [], ds, h, _ => h
  | c :: cs, ds, h, hk => by
    obtain ⟨hck, hk'⟩ := not_or.mp (List.mem_cons.not.mp hk)
    by_cases hc : c = '-'
    · subst hc
      exact @digits_py cs ds h hk'
    · obtain ⟨d, ds', hd, hds, rfl⟩ := digits_cons_some hc h
      have hone : c.toNat < 128 := by
        by_contra hn
        rw [readPy_other hn fun he => hck he.symm] at hd
        cases hd
      rw [digits, if_neg hc, ← readPy_ascii c hone, hd, digits_py hds hk']
      rfl

theorem readRust_symbol_self : ∀ i : Fin 32, symbol i ≠ '-' ∧ readRust (symbol i) = some i.1 := by
  decide +kernel

theorem digits_symbols : ∀ {ds : List Nat}, (∀ d ∈ ds, d < 2 ^ 5) →
    digits readRust (ds.map symbol) = some ds
  | [], _ => rfl
  | d :: ds, h => by
    obtain ⟨hd, h⟩ := List.forall_mem_cons.mp h
    obtain ⟨hne, hread⟩ := readRust_symbol_self ⟨d, hd⟩
    rw [List.map_cons, digits, if_neg hne, hread, digits_symbols h]
    rfl

/-! ## Encoding -/

/-- What the encoders put out is the padded regrouping of the bytes. -/
def Encoded (bytes : List UInt8) (s : List Char) : Prop :=
  ∃ ds pad, s = ds.map symbol ∧ Padded 8 5 (bytes.map UInt8.toNat) ds pad

/-- The state of an encoder after `bytes`. -/
def Encoding (bytes : List UInt8) (st : Acc Char) : Prop :=
  ∃ ds, st.out = ds.map symbol ∧ Grouped 8 5 (bytes.map UInt8.toNat) ds st.value st.bits

theorem Encoding.step {bytes : List UInt8} {st : Acc Char} (h : Encoding bytes st) (b : UInt8)
    {acc' : Nat}
    (hacc : acc' % 2 ^ (drain 5 (st.value <<< 8 ||| b.toNat) (st.bits + 8)).2 =
      (st.value <<< 8 ||| b.toNat) % 2 ^ (drain 5 (st.value <<< 8 ||| b.toNat) (st.bits + 8)).2) :
    Encoding (bytes ++ [b])
      ⟨st.out ++ (drain 5 (st.value <<< 8 ||| b.toNat) (st.bits + 8)).1.map symbol, acc',
        (drain 5 (st.value <<< 8 ||| b.toNat) (st.bits + 8)).2⟩ := by
  obtain ⟨ds, hout, hg⟩ := h
  have hstep := hg.step b.toNat_lt (drain_spec (by decide) _ _) hacc
  refine ⟨ds ++ (drain 5 (st.value <<< 8 ||| b.toNat) (st.bits + 8)).1, ?_, ?_⟩
  · rw [List.map_append, ← hout]
  · rw [List.map_append]
    exact hstep

theorem mask_eq (value k : Nat) : value &&& (1 <<< k - 1) = value % 2 ^ k := by
  rw [Nat.one_shiftLeft, Nat.and_two_pow_sub_one_eq_mod]

/-- The accumulator is small enough for `u32` when a byte or a digit is shifted in. -/
theorem Rust.shl_eq {value bits k : Nat} (h : value < 2 ^ bits) (hb : bits + k ≤ 32) :
    Rust.shl value k = value <<< k := by
  unfold Rust.shl
  rw [Nat.shiftLeft_eq]
  apply Nat.mod_eq_of_lt
  calc value * 2 ^ k < 2 ^ bits * 2 ^ k := Nat.mul_lt_mul_of_pos_right h (Nat.two_pow_pos k)
    _ ≤ 2 ^ 32 := by
      rw [← pow_add]
      exact Nat.pow_le_pow_right (by decide) hb

theorem Rust.foldl_encoding : ∀ (bytes done : List UInt8) (st : Acc Char), Encoding done st →
    st.value < 2 ^ st.bits → Encoding (done ++ bytes) (bytes.foldl Rust.encodeByte st) ∧
      (bytes.foldl Rust.encodeByte st).value < 2 ^ (bytes.foldl Rust.encodeByte st).bits
  | [], done, st, h, hv => by
    rw [List.append_nil]
    exact ⟨h, hv⟩
  | b :: bytes, done, st, h, hv => by
    have hbits : st.bits < 5 := h.choose_spec.2.bits_lt
    have hshl : Rust.shl st.value 8 = st.value <<< 8 := Rust.shl_eq hv (by omega)
    have hnext : Encoding (done ++ [b]) (Rust.encodeByte st b) := by
      unfold Rust.encodeByte
      rw [hshl]
      apply h.step b
      rw [mask_eq, Nat.mod_mod]
    have hlt : (Rust.encodeByte st b).value < 2 ^ (Rust.encodeByte st b).bits := by
      unfold Rust.encodeByte
      dsimp only
      rw [mask_eq]
      exact Nat.mod_lt _ (Nat.two_pow_pos _)
    have hrest := Rust.foldl_encoding bytes (done ++ [b]) _ hnext hlt
    rw [List.append_assoc] at hrest
    exact hrest

theorem Py.foldl_encoding : ∀ (bytes done : List UInt8) (st : Acc Char), Encoding done st →
    Encoding (done ++ bytes) (bytes.foldl Py.encodeByte st)
  | [], done, st, h => by
    rw [List.append_nil]
    exact h
  | b :: bytes, done, st, h => by
    have hrest := Py.foldl_encoding bytes (done ++ [b]) _ (h.step b rfl)
    rw [List.append_assoc] at hrest
    exact hrest

theorem encoding_start : Encoding [] (Acc.start Char) := ⟨[], rfl, Grouped.start (by decide)⟩

/-- The last digit, filled up with zeros. -/
theorem Encoding.flush {bytes : List UInt8} {st : Acc Char} (h : Encoding bytes st) :
    Encoded bytes (if 0 < st.bits then
      st.out ++ [symbol ((st.value <<< (5 - st.bits)) &&& 0x1f)] else st.out) := by
  obtain ⟨ds, hout, hg⟩ := h
  obtain ⟨pad, hp⟩ := hg.padded
  refine ⟨_, pad, ?_, hp⟩
  rw [hout, List.map_append]
  unfold Regroup.flush
  split
  · rfl
  · rw [List.map_nil, List.append_nil]

theorem Rust.encode_encoded (bytes : List UInt8) : Encoded bytes (Rust.encode bytes) := by
  obtain ⟨h, hv⟩ := Rust.foldl_encoding bytes [] _ encoding_start (by decide)
  have hbits : (bytes.foldl Rust.encodeByte (Acc.start Char)).bits < 5 := h.choose_spec.2.bits_lt
  have hflush := h.flush
  unfold Rust.encode
  dsimp only
  rw [Rust.shl_eq hv (by omega)]
  exact hflush

theorem Py.encode_encoded (bytes : List UInt8) : Encoded bytes (Py.encode bytes) :=
  (Py.foldl_encoding bytes [] _ encoding_start).flush

theorem Encoded.unique {bytes : List UInt8} {s t : List Char} (hs : Encoded bytes s)
    (ht : Encoded bytes t) : s = t := by
  obtain ⟨ds, pad, rfl, hp⟩ := hs
  obtain ⟨ds', pad', rfl, hp'⟩ := ht
  rw [hp.unique hp']

/-! ## Decoding -/

/-- The bytes that digits stand for, with nothing but zeros left over. -/
def Reads (ds : List Nat) (b : List UInt8) : Prop :=
  ∃ acc bits, Grouped 5 8 ds (b.map UInt8.toNat) acc bits ∧ acc % 2 ^ bits = 0

/-- The state of a decoder after `ds`. -/
def Reading (ds : List Nat) (st : Acc UInt8) : Prop :=
  Grouped 5 8 ds (st.out.map UInt8.toNat) st.value st.bits

theorem map_toNat_inj {xs ys : List UInt8} (h : xs.map UInt8.toNat = ys.map UInt8.toNat) :
    xs = ys :=
  List.map_injective_iff.mpr (fun _ _ => UInt8.toNat_inj.mp) h

/-- A digit that completes a byte. -/
theorem Reading.push {ds : List Nat} {st : Acc UInt8} {d acc' : Nat} {byte : UInt8}
    (h : Reading ds st) (hd : d < 2 ^ 5) (hfull : 8 ≤ st.bits + 5)
    (hbyte : byte.toNat = ((st.value <<< 5 ||| d) >>> (st.bits + 5 - 8)) &&& (2 ^ 8 - 1))
    (hacc : acc' % 2 ^ (st.bits + 5 - 8) = (st.value <<< 5 ||| d) % 2 ^ (st.bits + 5 - 8)) :
    Reading (ds ++ [d]) ⟨st.out ++ [byte], acc', st.bits + 5 - 8⟩ := by
  have hlt : st.bits < 8 := h.bits_lt
  have hdrain := drain_spec (w := 8) (by decide) (st.value <<< 5 ||| d) (st.bits + 5)
  rw [drain_once hfull (by omega), ← hbyte] at hdrain
  have hstep := h.step hd hdrain hacc
  unfold Reading
  rw [List.map_append]
  exact hstep

/-- A digit that does not. -/
theorem Reading.keep {ds : List Nat} {st : Acc UInt8} {d : Nat} (h : Reading ds st)
    (hd : d < 2 ^ 5) (hfew : ¬ 8 ≤ st.bits + 5) :
    Reading (ds ++ [d]) ⟨st.out, st.value <<< 5 ||| d, st.bits + 5⟩ := by
  have hdrain := drain_spec (w := 8) (by decide) (st.value <<< 5 ||| d) (st.bits + 5)
  rw [drain_lt (by omega)] at hdrain
  have hstep := h.step hd hdrain rfl
  rw [List.append_nil] at hstep
  exact hstep

/-- All that is in a decoder's state was read. -/
theorem Reading.reads_iff {ds : List Nat} {st : Acc UInt8} (h : Reading ds st) (b : List UInt8) :
    Reads ds b ↔ st.value % 2 ^ st.bits = 0 ∧ st.out = b := by
  constructor
  · intro ⟨acc, bits, hg, hzero⟩
    obtain ⟨hout, rfl, hacc⟩ := Grouped.unique h hg
    exact ⟨hacc.trans hzero, map_toNat_inj hout⟩
  · intro ⟨hzero, hout⟩
    subst hout
    exact ⟨_, _, h, hzero⟩

theorem reading_start : Reading [] (Acc.start UInt8) := Grouped.start (by decide)

theorem utf8_ascii {c : Char} (hc : c.toNat < 128) :
    String.utf8EncodeChar c = [c.toNat.toUInt8] := by
  unfold String.utf8EncodeChar
  have hle : c.val.toNat ≤ 127 := Nat.le_of_lt_succ hc
  simp only [hle, if_true]
  rfl

/-- The other characters start with a byte that is no ASCII character. -/
theorem utf8_other {c : Char} (hc : ¬ c.toNat < 128) :
    ∃ b bs, String.utf8EncodeChar c = b :: bs ∧ 128 ≤ b.toNat := by
  have hgt : ¬ c.val.toNat ≤ 127 := fun hle => hc (Nat.lt_succ_of_le hle)
  have hmax : c.val.toNat < 0x110000 := by
    rcases c.valid with hv | hv <;> omega
  unfold String.utf8EncodeChar
  generalize c.val.toNat = n at *
  simp only [hgt, if_false]
  split_ifs
  · refine ⟨_, _, rfl, ?_⟩
    rw [UInt8.toNat_ofNat']
    omega
  · refine ⟨_, _, rfl, ?_⟩
    rw [UInt8.toNat_ofNat']
    omega
  · refine ⟨_, _, rfl, ?_⟩
    rw [UInt8.toNat_ofNat']
    omega

theorem Rust.decode_char_other (b : UInt8) (hb : 128 ≤ b.toNat) : Rust.decode_char b = none := by
  have hall : ∀ n : Fin 256, 128 ≤ n.1 → Rust.decode_char (UInt8.ofNat n.1) = none := by
    decide +kernel
  have h := hall ⟨b.toNat, b.toNat_lt⟩ hb
  rwa [UInt8.ofNat_toNat] at h

theorem dash_iff (c : Char) (hc : c.toNat < 128) : c.toNat.toUInt8 = 45 ↔ c = '-' :=
  ascii_cases (P := fun c => c.toNat.toUInt8 = 45 ↔ c = '-') (by decide +kernel) c hc

section Rust
variable {st : Acc UInt8} {ds : List Nat} {c : Char}

theorem Rust.foldlM_dash : (String.utf8EncodeChar '-').foldlM Rust.decodeByte st = .ok st := by
  rw [utf8_ascii (by decide), List.foldlM_cons, Rust.decodeByte, if_pos (by decide)]
  rfl

theorem Rust.foldlM_digit {d : Nat} (h : Reading ds st) (hv : st.value < 2 ^ st.bits)
    (hc : c ≠ '-') (hd : readRust c = some d) :
    ∃ st', (String.utf8EncodeChar c).foldlM Rust.decodeByte st = .ok st' ∧
      Reading (ds ++ [d]) st' ∧ st'.value < 2 ^ st'.bits := by
  have hone := ascii_of_readRust hd
  obtain ⟨hd32, -⟩ := readRust_symbol c hone d hd
  have hlt : st.bits < 8 := h.bits_lt
  have hread : Rust.decode_char c.toNat.toUInt8 = some d := by
    rwa [readRust, if_pos hone] at hd
  rw [utf8_ascii hone, List.foldlM_cons, Rust.decodeByte,
    if_neg fun he => hc ((dash_iff c hone).mp he), hread]
  dsimp only
  rw [Rust.shl_eq hv (by omega)]
  split
  · next hfull =>
    refine ⟨_, rfl, h.push hd32 hfull ?_ ?_, ?_⟩
    · rw [UInt8.toNat_ofNat', Nat.and_two_pow_sub_one_eq_mod]
    · rw [mask_eq, Nat.mod_mod]
    · dsimp only
      rw [mask_eq]
      exact Nat.mod_lt _ (Nat.two_pow_pos _)
  · next hfew =>
    refine ⟨_, rfl, h.keep hd32 hfew, ?_⟩
    dsimp only
    rw [← Nat.shiftLeft_add_eq_or_of_lt hd32, Nat.shiftLeft_eq, pow_add]
    have hle : (st.value + 1) * 2 ^ 5 ≤ 2 ^ st.bits * 2 ^ 5 := Nat.mul_le_mul_right _ hv
    omega

theorem Rust.foldlM_invalid (hc : c ≠ '-') (hd : readRust c = none) :
    ∃ e, (String.utf8EncodeChar c).foldlM Rust.decodeByte st = .error e := by
  by_cases hone : c.toNat < 128
  · have hread : Rust.decode_char c.toNat.toUInt8 = none := by
      rwa [readRust, if_pos hone] at hd
    rw [utf8_ascii hone, List.foldlM_cons, Rust.decodeByte,
      if_neg fun he => hc ((dash_iff c hone).mp he), hread]
    exact ⟨_, rfl⟩
  · obtain ⟨b, bs, hb, hle⟩ := utf8_other hone
    have hne : b ≠ 45 := by
      intro he
      rw [he] at hle
      exact absurd hle (by decide)
    rw [hb, List.foldlM_cons, Rust.decodeByte, if_neg hne, Rust.decode_char_other b hle]
    exact ⟨_, rfl⟩

end Rust

theorem Rust.run_some : ∀ {s : List Char} {ds done : List Nat} {st : Acc UInt8}, Reading done st →
    st.value < 2 ^ st.bits → digits readRust s = some ds →
    ∃ st', (s.flatMap String.utf8EncodeChar).foldlM Rust.decodeByte st = .ok st' ∧
      Reading (done ++ ds) st' ∧ st'.value < 2 ^ st'.bits
  | [], ds, done, st, h, hv, hs => by
    obtain rfl := Option.some.inj hs
    rw [List.append_nil]
    exact ⟨st, rfl, h, hv⟩
  | c :: cs, ds, done, st, h, hv, hs => by
    rw [List.flatMap_cons, List.foldlM_append]
    by_cases hc : c = '-'
    · subst hc
      rw [Rust.foldlM_dash]
      exact Rust.run_some h hv hs
    · obtain ⟨d, ds', hd, hds, rfl⟩ := digits_cons_some hc hs
      obtain ⟨st1, h1, hread, hv1⟩ := Rust.foldlM_digit h hv hc hd
      obtain ⟨st', h2, hread', hv'⟩ := Rust.run_some hread hv1 hds
      rw [h1]
      rw [List.append_assoc] at hread'
      exact ⟨st', h2, hread', hv'⟩

theorem Rust.run_none : ∀ {s : List Char} {done : List Nat} {st : Acc UInt8}, Reading done st →
    st.value < 2 ^ st.bits → digits readRust s = none →
    ∃ e, (s.flatMap String.utf8EncodeChar).foldlM Rust.decodeByte st = .error e
  | [], done, st, h, hv, hs => nomatch hs
  | c :: cs, done, st, h, hv, hs => by
    rw [List.flatMap_cons, List.foldlM_append]
    by_cases hc : c = '-'
    · subst hc
      rw [Rust.foldlM_dash]
      exact Rust.run_none h hv hs
    · cases hd : readRust c with
      | none =>
        have hinvalid : ∃ e, (String.utf8EncodeChar c).foldlM Rust.decodeByte st = .error e :=
          Rust.foldlM_invalid hc hd
        obtain ⟨e, he⟩ := hinvalid
        rw [he]
        exact ⟨e, rfl⟩
      | some d =>
        obtain ⟨st1, h1, hread, hv1⟩ := Rust.foldlM_digit h hv hc hd
        have hds : digits readRust cs = none := by
          cases hds : digits readRust cs with
          | none => rfl
          | some ds =>
            rw [digits, if_neg hc, hd, hds] at hs
            cases hs
        rw [h1]
        exact Rust.run_none hread hv1 hds

theorem Rust.decode_iff (s : List Char) (b : List UInt8) :
    Rust.decode s = .ok b ↔ ∃ ds, digits readRust s = some ds ∧ Reads ds b := by
  have hv0 : (Acc.start UInt8).value < 2 ^ (Acc.start UInt8).bits := by decide
  unfold Rust.decode
  cases hs : digits readRust s with
  | none =>
    obtain ⟨e, he⟩ := Rust.run_none reading_start hv0 hs
    rw [he]
    exact ⟨(fun h => nomatch h), (fun ⟨_, h, _⟩ => nomatch h)⟩
  | some ds =>
    obtain ⟨st, hst, hread, hv⟩ := Rust.run_some reading_start hv0 hs
    rw [hst]
    rw [List.nil_append] at hread
    have hiff := hread.reads_iff b
    rw [Nat.mod_eq_of_lt hv] at hiff
    simp only [Option.some.injEq, exists_eq_left', hiff]
    by_cases h0 : st.value = 0
    · rw [if_neg (not_not.mpr h0)]
      simp [h0]
    · rw [if_pos h0]
      simp [h0]

theorem readPy_lt {c : Char} {d : Nat} (h : Py._decode_char c = some d) : d < 2 ^ 5 := by
  by_cases hone : c.toNat < 128
  · rw [readPy_ascii c hone] at h
    exact (readRust_symbol c hone d h).1
  · by_cases hk : c = Py.KELVIN
    · have hkelvin : Py._decode_char Py.KELVIN = some 19 := by decide +kernel
      rw [hk, hkelvin] at h
      obtain rfl := Option.some.inj h
      decide
    · rw [readPy_other hone hk] at h
      cases h

theorem Py.decodeChar_digit {st : Acc UInt8} {ds : List Nat} {c : Char} {d : Nat}
    (h : Reading ds st) (hc : c ≠ '-') (hd : Py._decode_char c = some d) :
    ∃ st', Py.decodeChar st c = some st' ∧ Reading (ds ++ [d]) st' := by
  have hd32 := readPy_lt hd
  rw [Py.decodeChar, if_neg hc, hd]
  show ∃ st', (if 8 ≤ st.bits + 5 then some _ else some _) = some st' ∧ _
  split
  · next hfull =>
    refine ⟨_, rfl, h.push hd32 hfull ?_ rfl⟩
    rw [UInt8.toNat_ofNat', show 0xff = 2 ^ 8 - 1 from rfl, Nat.and_two_pow_sub_one_eq_mod,
      Nat.mod_mod]
  · next hfew => exact ⟨_, rfl, h.keep hd32 hfew⟩

theorem Py.run_some : ∀ {s : List Char} {ds done : List Nat} {st : Acc UInt8}, Reading done st →
    digits Py._decode_char s = some ds →
    ∃ st', s.foldlM Py.decodeChar st = some st' ∧ Reading (done ++ ds) st'
  | [], ds, done, st, h, hs => by
    obtain rfl := Option.some.inj hs
    rw [List.append_nil]
    exact ⟨st, rfl, h⟩
  | c :: cs, ds, done, st, h, hs => by
    rw [List.foldlM_cons]
    by_cases hc : c = '-'
    · rw [digits, if_pos hc] at hs
      rw [Py.decodeChar, if_pos hc]
      exact Py.run_some h hs
    · obtain ⟨d, ds', hd, hds, rfl⟩ := digits_cons_some hc hs
      obtain ⟨st1, h1, hread⟩ := Py.decodeChar_digit h hc hd
      obtain ⟨st', h2, hread'⟩ := Py.run_some hread hds
      rw [h1]
      rw [List.append_assoc] at hread'
      exact ⟨st', h2, hread'⟩

theorem Py.run_none : ∀ {s : List Char} {st : Acc UInt8}, digits Py._decode_char s = none →
    s.foldlM Py.decodeChar st = none
  | [], st, hs => nomatch hs
  | c :: cs, st, hs => by
    rw [List.foldlM_cons]
    by_cases hc : c = '-'
    · rw [digits, if_pos hc] at hs
      rw [Py.decodeChar, if_pos hc]
      exact Py.run_none hs
    · cases hd : Py._decode_char c with
      | none =>
        rw [Py.decodeChar, if_neg hc, hd]
        rfl
      | some d =>
        have hds : digits Py._decode_char cs = none := by
          cases hds : digits Py._decode_char cs with
          | none => rfl
          | some ds =>
            rw [digits, if_neg hc, hd, hds] at hs
            cases hs
        exact Option.bind_eq_none_iff.mpr fun st1 _ => Py.run_none hds

theorem Py.decode_iff (s : List Char) (b : List UInt8) :
    Py.decode s = some b ↔ ∃ ds, digits Py._decode_char s = some ds ∧ Reads ds b := by
  unfold Py.decode
  cases hs : digits Py._decode_char s with
  | none =>
    rw [Py.run_none hs]
    exact ⟨(fun h => nomatch h), (fun ⟨_, h, _⟩ => nomatch h)⟩
  | some ds =>
    obtain ⟨st, hst, hread⟩ := Py.run_some reading_start hs
    rw [List.nil_append] at hread
    rw [hst, Option.bind_eq_bind, Option.bind_some, mask_eq]
    simp only [Option.some.injEq, exists_eq_left', hread.reads_iff b]
    by_cases h0 : st.value % 2 ^ st.bits = 0
    · rw [if_neg (not_not.mpr h0)]
      simp [h0]
    · rw [if_pos h0]
      simp [h0]

/-! ## Canonical texts -/

/-- A decoder gets through any digits. -/
theorem grouped_exists {ds : List Nat} (hd : ∀ d ∈ ds, d < 2 ^ 5) :
    ∃ (b : List UInt8) (acc bits : Nat), Grouped 5 8 ds (b.map UInt8.toNat) acc bits := by
  obtain ⟨st, -, hread, -⟩ := Rust.run_some reading_start (by decide) (digits_symbols hd)
  exact ⟨st.out, st.value, st.bits, hread⟩

theorem map_symbol_inj {ds ds' : List Nat} (hd : ∀ d ∈ ds, d < 2 ^ 5) (hd' : ∀ d ∈ ds', d < 2 ^ 5)
    (h : ds.map symbol = ds'.map symbol) : ds = ds' := by
  have hsome := digits_symbols hd
  rw [h, digits_symbols hd'] at hsome
  exact (Option.some.inj hsome).symm

theorem digits_py_lt : ∀ {s : List Char} {ds : List Nat}, digits Py._decode_char s = some ds →
    ∀ d ∈ ds, d < 2 ^ 5
  | [], ds, h => by
    obtain rfl := Option.some.inj h
    exact fun _ hd => absurd hd List.not_mem_nil
  | c :: cs, ds, h => by
    by_cases hc : c = '-'
    · rw [digits, if_pos hc] at h
      exact digits_py_lt h
    · obtain ⟨d, ds', hd, hds, rfl⟩ := digits_cons_some hc h
      exact List.forall_mem_cons.mpr ⟨readPy_lt hd, digits_py_lt hds⟩

/-- **Encoding**: the two encoders agree, and both decoders take the bytes back. -/
theorem encode_canonical (b : List UInt8) : Rust.encode b = Py.encode b ∧
    Rust.decode (Rust.encode b) = .ok b ∧ Py.decode (Rust.encode b) = some b := by
  obtain ⟨ds, pad, hs, hp⟩ := Rust.encode_encoded b
  have hread : Reads ds b := by
    refine ⟨0, pad, hp.read (hp.pad_lt.trans (by decide)) fun d hd => ?_, Nat.zero_mod _⟩
    obtain ⟨x, -, rfl⟩ := List.mem_map.mp hd
    exact x.toNat_lt
  have hdigits : digits readRust (Rust.encode b) = some ds := by
    rw [hs]
    exact digits_symbols hp.digits
  refine ⟨(Rust.encode_encoded b).unique (Py.encode_encoded b), (Rust.decode_iff _ _).mpr ⟨ds, hdigits, hread⟩,
    (Py.decode_iff _ _).mpr ⟨ds, (digits_rust hdigits).2.1, hread⟩⟩

/-- The two decoders agree on `s`, and what they take is the encoding of what
they return. -/
structure Canonical (s : List Char) : Prop where
  agree : ∀ b, Rust.decode s = .ok b ↔ Py.decode s = some b
  normal : ∀ b, Rust.decode s = .ok b ∨ Py.decode s = some b → normalise s = Rust.encode b

/-- If `s` reads as digits that leave nothing but zero bits over, then these are
fewer than five and no character is a KELVIN SIGN. -/
def Fits (s : List Char) : Prop :=
  ∀ ds, digits Py._decode_char s = some ds → value 5 ds % 2 ^ (5 * ds.length % 8) = 0 →
    Py.KELVIN ∉ s ∧ 5 * ds.length % 8 < 5

/-- Digits with only zeros left over stand for bytes, and their last digits say so. -/
theorem reads_iff_zero {ds : List Nat} (hd : ∀ d ∈ ds, d < 2 ^ 5) : (∃ b, Reads ds b) ↔
    value 5 ds % 2 ^ (5 * ds.length % 8) = 0 := by
  obtain ⟨b, acc, bits, hg⟩ := grouped_exists hd
  have hbits : 5 * ds.length % 8 = bits := by
    rw [hg.length, Nat.mul_add_mod, Nat.mod_eq_of_lt hg.bits_lt]
  have hzero : value 5 ds % 2 ^ bits = acc % 2 ^ bits := by
    rw [hg.num, Nat.mul_add_mod_self_right, Nat.mod_mod]
  rw [hbits, hzero]
  constructor
  · intro ⟨b', acc', bits', hg', hz⟩
    obtain ⟨-, rfl, hacc⟩ := hg.unique hg'
    exact hacc.trans hz
  · exact fun hz => ⟨b, acc, bits, hg, hz⟩

/-- Digits that read as `b` are its encoding exactly when fewer than five bits are
left over. -/
theorem Reads.encode_iff {ds : List Nat} {b : List UInt8} (h : Reads ds b)
    (hd : ∀ d ∈ ds, d < 2 ^ 5) : ds.map symbol = Rust.encode b ↔ 5 * ds.length % 8 < 5 := by
  obtain ⟨acc, bits, hg, hzero⟩ := h
  have hbits : 5 * ds.length % 8 = bits := by
    rw [hg.length, Nat.mul_add_mod, Nat.mod_eq_of_lt hg.bits_lt]
  rw [hbits, ← hg.padded_iff hzero hd]
  constructor
  · intro he
    obtain ⟨ds', pad, hs, hp⟩ := Rust.encode_encoded b
    rw [hs] at he
    exact ⟨pad, map_symbol_inj hd hp.digits he ▸ hp⟩
  · intro ⟨pad, hp⟩
    exact Encoded.unique ⟨ds, pad, rfl, hp⟩ (Rust.encode_encoded b)

/-- **Where gvm32 is canonical.** The encoders agree and both decoders invert
them; a text is read alike by both decoders and is the encoding of what they
return if and only if it `Fits`. -/
theorem canonical_iff (b : List UInt8) (s : List Char) :
    (Rust.encode b = Py.encode b ∧ Rust.decode (Rust.encode b) = .ok b ∧
      Py.decode (Rust.encode b) = some b) ∧ (Canonical s ↔ Fits s) := by
  refine ⟨encode_canonical b, ⟨fun h ds hds hzero => ?_, fun h => ?_⟩⟩
  · obtain ⟨b, hreads⟩ := (reads_iff_zero (digits_py_lt hds)).mpr hzero
    have hpy := (Py.decode_iff s b).mpr ⟨ds, hds, hreads⟩
    obtain ⟨ds', hds', -⟩ := (Rust.decode_iff s b).mp ((h.agree b).mpr hpy)
    obtain ⟨hascii, hsame, hlt, hnorm⟩ := digits_rust hds'
    obtain rfl : ds = ds' := Option.some.inj (hds.symm.trans hsame)
    refine ⟨fun hk => absurd (hascii _ hk) (by decide), ?_⟩
    rw [← hreads.encode_iff hlt, ← hnorm]
    exact h.normal b (.inr hpy)
  · -- Rust reads whatever Python reads to the end
    have hrust : ∀ b, Py.decode s = some b → Rust.decode s = .ok b := by
      intro b hb
      obtain ⟨ds, hds, hreads⟩ := (Py.decode_iff s b).mp hb
      obtain ⟨hk, -⟩ := h ds hds ((reads_iff_zero (digits_py_lt hds)).mp ⟨b, hreads⟩)
      exact (Rust.decode_iff s b).mpr ⟨ds, digits_py hds hk, hreads⟩
    have hnormal : ∀ b, Rust.decode s = .ok b → Py.decode s = some b ∧
        normalise s = Rust.encode b := by
      intro b hb
      obtain ⟨ds, hds, hreads⟩ := (Rust.decode_iff s b).mp hb
      obtain ⟨-, hpy, hlt, hnorm⟩ := digits_rust hds
      obtain ⟨-, hfew⟩ := h ds hpy ((reads_iff_zero hlt).mp ⟨b, hreads⟩)
      exact ⟨(Py.decode_iff s b).mpr ⟨ds, hpy, hreads⟩,
        hnorm.trans ((hreads.encode_iff hlt).mpr hfew)⟩
    exact ⟨fun b => ⟨fun hb => (hnormal b hb).1, hrust b⟩,
      fun b hb => (hnormal b (hb.elim id (hrust b))).2⟩

/-- One `0` decodes to no bytes, whose encoding is empty; the KELVIN SIGN is a `k`
to Python only. -/
theorem zero_not_canonical : ¬ Canonical ['0'] ∧ ¬ Canonical [Py.KELVIN, '0'] := by
  constructor
  · intro h
    have h0 := h.normal [] (.inl (by decide +kernel))
    revert h0
    decide +kernel
  · intro h
    have hrust := (h.agree [152]).mpr (by decide +kernel)
    revert hrust
    decide +kernel

end GenVM.Gvm32
