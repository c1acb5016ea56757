import GenVM.Lib.SortedMap
import GenVM.Lib.Utf8
import GenVM.Calldata.Types

/-!
# Reading a tar archive (`executor/src/runners/ustar.rs`)

An archive is a sequence of blocks of 512 bytes: for every file a header, then
its content filled up with zeros, and two zero blocks at the end. Numbers are
octal digits, names stand in fields of fixed width. Reading has no value where
the executor would panic; a `usize` has 64 bits.

**Results.**
* `from_ustar_total`: reading returns for every input, with slices of it.
* `readHeader_total`: a header block is read, its size field below `8 ^ 11`.
-/
namespace GenVM.Runners
open GenVM.Lib
open GenVM.Calldata (Bytes)

inductive TarError where
  | too_short | not_blocks | invalid_header | links | not_utf8 | invalid_octal
  | size_overflow | out_of_bounds | occupied
  deriving DecidableEq

/-- `xs[i..j]`, without a value where it panics. -/
def slice (xs : Bytes) (i j : Nat) : Option Bytes :=
  if i ≤ j ∧ j ≤ xs.length then some ((xs.drop i).take (j - i)) else none

/-- `a + b` on `usize`, without a value where it wraps. -/
def addUsize (a b : Nat) : Option Nat := if a + b < 2 ^ 64 then some (a + b) else none

def BLOCK_SIZE : Nat := 512

/-! ## Fields -/

/-- mirrors executor/src/runners/ustar.rs:26-29 -/
def trimIdx (x : Bytes) : Nat → Nat
  | 0 => 0
  | idx + 1 => if x.getD idx 0 = 0 then trimIdx x idx else idx + 1

/-- mirrors executor/src/runners/ustar.rs:25-32 -/
def trim_zeroes (x : Bytes) : Bytes := x.take (trimIdx x (x.length - 1))

/-- mirrors executor/src/runners/ustar.rs:82-91 -/
def octal (file_size : Nat) : Bytes → Except TarError Nat
  | [] => .ok file_size
  | c :: cs =>
    if 48 ≤ c.toNat ∧ c.toNat ≤ 55 then
      if file_size * 8 + (c.toNat - 48) < 2 ^ 64 then octal (file_size * 8 + (c.toNat - 48)) cs
      else .error .size_overflow
    else .error .invalid_octal

structure Header where
  name : String
  file_size_octal : Bytes

/-- `b"ustar\x0000"` -/
def SIGNATURE : Bytes := [117, 115, 116, 97, 114, 0, 48, 48]

/-- mirrors executor/src/runners/ustar.rs:54-77 -/
def readHeader (header : Bytes) : Option (Except TarError Header) := do
  let header_signature ← slice header 257 265
  if header_signature ≠ SIGNATURE then some (.error .invalid_header)
  else do
    let size ← slice header 124 136
    let link_indicator ← header[156]?
    if link_indicator ∉ [48, 0, 53] then some (.error .links)
    else do
      let path_and_name ← slice header 0 100
      let path_and_name_prefix ← slice header 345 (345 + 155)
      match Utf8.fromUtf8 (trim_zeroes path_and_name_prefix ++ trim_zeroes path_and_name) with
      | none => some (.error .not_utf8)
      | some name => some (.ok ⟨name, trim_zeroes size⟩)

/-! ## The archive -/

abbrev Files := List (String × Bytes)

def endsSlash (s : String) : Bool := s.toList.getLast? = some '/'

/-- mirrors executor/src/runners/ustar.rs:11-23 -/
def map_try_insert (res : Files) (name : String) (contents : Bytes) : Except TarError Files :=
  if res.any fun e => e.1 = name then .error .occupied
  else .ok (SortedMap.insert (fun a b : String => a < b) name contents res)

/-- mirrors executor/src/runners/ustar.rs:49-104 -/
def readLoop (data : Bytes) : Nat → Nat → Files → Option (Except TarError Files)
  | 0, _, _ => none
  | fuel + 1, begin_, res =>
    if begin_ + 2 * BLOCK_SIZE ≤ data.length then do
      let rest ← slice data begin_ data.length
      let header ← slice rest 0 BLOCK_SIZE
      let two ← slice rest 0 (BLOCK_SIZE * 2)
      if two.all fun x => x = 0 then some (.ok res)
      else do
        match ← readHeader header with
        | .error e => some (.error e)
        | .ok h => do
          let begin_ ← addUsize begin_ BLOCK_SIZE
          if endsSlash h.name then readLoop data fuel begin_ res
          else
            match octal 0 h.file_size_octal with
            | .error e => some (.error e)
            | .ok file_size => do
              let begin_ ← addUsize begin_ file_size
              let begin_ ← addUsize begin_ ((BLOCK_SIZE - begin_ % BLOCK_SIZE) % BLOCK_SIZE)
              if BLOCK_SIZE + file_size ≤ rest.length then do
                let file_contents ← slice rest BLOCK_SIZE (BLOCK_SIZE + file_size)
                match map_try_insert res h.name file_contents with
                | .error e => some (.error e)
                | .ok res => readLoop data fuel begin_ res
              else some (.error .out_of_bounds)
    else some (.ok res)

structure Archive where
  data : Files
  total_size : Nat

/-- mirrors executor/src/runners/ustar.rs:35-110 -/
def from_ustar (original_data : Bytes) : Option (Except TarError Archive) :=
  if original_data.length < BLOCK_SIZE * 2 then some (.error .too_short)
  else if original_data.length % BLOCK_SIZE ≠ 0 then some (.error .not_blocks)
  else do
    match ← readLoop original_data (original_data.length + 1) 0 [] with
    | .error e => some (.error e)
    | .ok res => some (.ok ⟨res, original_data.length % 2 ^ 32⟩)

/-! ## Reading returns -/

theorem slice_of_le {xs : Bytes} {i j : Nat} (h1 : i ≤ j) (h2 : j ≤ xs.length) :
    slice xs i j = some ((xs.drop i).take (j - i)) := if_pos ⟨h1, h2⟩

theorem addUsize_of_lt {a b : Nat} (h : a + b < 2 ^ 64) : addUsize a b = some (a + b) := if_pos h

theorem trimIdx_le (x : Bytes) (n : Nat) : trimIdx x n ≤ n := by
  induction n with
  | zero => exact le_refl 0
  | succ n ih =>
    unfold trimIdx
    split
    · omega
    · exact le_refl _

theorem length_trim_zeroes (x : Bytes) : (trim_zeroes x).length ≤ x.length - 1 := by
  unfold trim_zeroes
  rw [List.length_take]
  have := trimIdx_le x (x.length - 1)
  omega

/-- A number of few digits is small. -/
theorem octal_lt {cs : Bytes} : ∀ {acc n : Nat}, octal acc cs = .ok n → n < (acc + 1) * 8 ^ cs.length := by
  induction cs with
  | nil =>
    intro acc n h
    obtain rfl := Except.ok.inj h
    rw [List.length_nil, Nat.pow_zero]
    omega
  | cons c cs ih =>
    intro acc n h
    unfold octal at h
    split at h
    · rename_i hc
      split at h
      · have hlt := ih h
        have hle : (acc * 8 + (c.toNat - 48) + 1) * 8 ^ cs.length ≤ (acc + 1) * 8 * 8 ^ cs.length :=
          Nat.mul_le_mul_right _ (by omega)
        rw [List.length_cons, Nat.pow_succ, Nat.mul_comm (8 ^ cs.length) 8, ← Nat.mul_assoc]
        exact Nat.lt_of_lt_of_le hlt hle
      · cases h
    · cases h

/-- A header block is always read, with a size field of at most 11 bytes. -/
theorem readHeader_total {header : Bytes} (h : header.length = BLOCK_SIZE) :
    ∃ r, readHeader header = some r ∧ ∀ hd, r = .ok hd → hd.file_size_octal.length ≤ 11 := by
  have h512 : header.length = 512 := h
  unfold readHeader
  rw [slice_of_le (by decide) (by omega)]
  dsimp only [Option.bind_eq_bind, Option.bind_some]
  split
  · exact ⟨_, rfl, fun hd hr => nomatch hr⟩
  · rw [slice_of_le (by decide) (by omega), List.getElem?_eq_getElem (by omega)]
    dsimp only [Option.bind_eq_bind, Option.bind_some]
    split
    · exact ⟨_, rfl, fun hd hr => nomatch hr⟩
    · rw [slice_of_le (by decide) (by omega), slice_of_le (by decide) (by omega)]
      dsimp only [Option.bind_eq_bind, Option.bind_some]
      split
      · exact ⟨_, rfl, fun hd hr => nomatch hr⟩
      · refine ⟨_, rfl, fun hd hr => ?_⟩
        obtain rfl := Except.ok.inj hr
        have hlen := length_trim_zeroes ((header.drop 124).take (136 - 124))
        rw [List.length_take, List.length_drop] at hlen
        exact hlen.trans (by omega)

theorem map_try_insert_slices {res res' : Files} {name : String} {contents data : Bytes}
    (hres : ∀ e ∈ res, e.2 <:+: data) (hc : contents <:+: data)
    (h : map_try_insert res name contents = .ok res') : ∀ e ∈ res', e.2 <:+: data := by
  unfold map_try_insert at h
  split at h
  · cases h
  · obtain rfl := Except.ok.inj h
    intro e he
    rcases SortedMap.mem_insert he with rfl | he
    · exact hc
    · exact hres e he

theorem readLoop_total {data : Bytes} (hdata : data.length < 2 ^ 63) : ∀ (fuel begin_ : Nat) (res : Files),
    data.length < begin_ + fuel * BLOCK_SIZE → (∀ e ∈ res, e.2 <:+: data) →
    ∃ r, readLoop data (fuel + 1) begin_ res = some r ∧
      ∀ res', r = .ok res' → ∀ e ∈ res', e.2 <:+: data := by
  have hblock : BLOCK_SIZE = 512 := rfl
  intro fuel
  induction fuel with
  | zero =>
    intro begin_ res hfuel hres
    unfold readLoop
    rw [if_neg (by omega)]
    refine ⟨_, rfl, fun res' hr => ?_⟩
    obtain rfl := Except.ok.inj hr
    exact hres
  | succ fuel ih =>
    intro begin_ res hfuel hres
    rw [Nat.succ_mul] at hfuel
    unfold readLoop
    split
    · rename_i hle
      have hrest : ((data.drop begin_).take (data.length - begin_)) = data.drop begin_ :=
        List.take_of_length_le (by rw [List.length_drop])
      rw [slice_of_le (by omega) (le_refl _), hrest]
      dsimp only [Option.bind_eq_bind, Option.bind_some]
      have hlen : (data.drop begin_).length = data.length - begin_ := List.length_drop
      rw [slice_of_le (by omega) (by omega), slice_of_le (by omega) (by omega)]
      dsimp only [Option.bind_eq_bind, Option.bind_some]
      split
      · refine ⟨_, rfl, fun res' hr => ?_⟩
        obtain rfl := Except.ok.inj hr
        exact hres
      · obtain ⟨r, hr, hsize⟩ := readHeader_total 
          (show (((data.drop begin_).drop 0).take (BLOCK_SIZE - 0)).length = BLOCK_SIZE by rw [List.length_take, List.length_drop]; omega)
        rw [hr]
        dsimp only [Option.bind_eq_bind, Option.bind_some]
        cases r with
        | error e => exact ⟨_, rfl, fun res' hr => nomatch hr⟩
        | ok hd =>
          dsimp only
          rw [addUsize_of_lt (by omega)]
          dsimp only [Option.bind_eq_bind, Option.bind_some]
          split
          · exact ih _ _ (by omega) hres
          · split
            · exact ⟨_, rfl, fun res' hr => nomatch hr⟩
            · rename_i file_size hoct
              have h11 := hsize hd rfl
              have hbig : file_size < 2 ^ 33 := by
                have h1 := octal_lt hoct
                have h2 : 8 ^ hd.file_size_octal.length ≤ 8 ^ 11 := Nat.pow_le_pow_right (by decide) h11
                have h3 : (8 : Nat) ^ 11 = 2 ^ 33 := by decide
                omega
              rw [addUsize_of_lt (by omega)]
              dsimp only [Option.bind_eq_bind, Option.bind_some]
              have hpad : (BLOCK_SIZE - (begin_ + BLOCK_SIZE + file_size) % BLOCK_SIZE) % BLOCK_SIZE < 512 := by
                rw [hblock]
                exact Nat.mod_lt _ (by decide)
              rw [addUsize_of_lt (by omega)]
              dsimp only [Option.bind_eq_bind, Option.bind_some]
              split
              · rename_i hfits
                rw [slice_of_le (by omega) hfits]
                dsimp only [Option.bind_eq_bind, Option.bind_some]
                have hinfix : ((data.drop begin_).drop BLOCK_SIZE).take
                    (BLOCK_SIZE + file_size - BLOCK_SIZE) <:+: data :=
                  ((List.take_prefix _ _).isInfix).trans
                    (((List.drop_suffix _ _).isInfix).trans (List.drop_suffix _ _).isInfix)
                cases hins : map_try_insert res hd.name (((data.drop begin_).drop BLOCK_SIZE).take
                    (BLOCK_SIZE + file_size - BLOCK_SIZE)) with
                | error e => exact ⟨_, rfl, fun res' hr => nomatch hr⟩
                | ok res1 =>
                  exact ih _ _ (by omega) (map_try_insert_slices hres hinfix hins)
              · exact ⟨_, rfl, fun res' hr => nomatch hr⟩
    · refine ⟨_, rfl, fun res' hr => ?_⟩
      obtain rfl := Except.ok.inj hr
      exact hres

/-- Reading returns for every input that fits an address space, and what it
returns are slices of it. -/
theorem from_ustar_total {data : Bytes} (h : data.length < 2 ^ 63) :
    ∃ r, from_ustar data = some r ∧ ∀ a, r = .ok a → ∀ e ∈ a.data, e.2 <:+: data := by
  have hblock : BLOCK_SIZE = 512 := rfl
  unfold from_ustar
  split
  · exact ⟨_, rfl, fun a hr => nomatch hr⟩
  · split
    · exact ⟨_, rfl, fun a hr => nomatch hr⟩
    · obtain ⟨r, hr, hsub⟩ := readLoop_total h data.length 0 [] (by rw [hblock]; omega)
        fun e he => absurd he List.not_mem_nil
      rw [hr]
      dsimp only [Option.bind_eq_bind, Option.bind_some]
      cases r with
      | error e => exact ⟨_, rfl, fun a hr => nomatch hr⟩
      | ok res =>
        refine ⟨_, rfl, fun a ha => ?_⟩
        obtain rfl := Except.ok.inj ha
        exact hsub res rfl

end GenVM.Runners
