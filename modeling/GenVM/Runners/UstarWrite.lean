import GenVM.Runners.Ustar

/-!
# Archives as they are written (`runners/support/scripts/make-tar.py`)

A path goes into the name field, or is split at a `/` into a prefix and a name
when it has more than 100 bytes; a field that is filled has no zero after it.
Sizes are eleven octal digits and a zero, contents are filled up to blocks and
two or more zero blocks end the archive. `collect` says what the reader makes of
such an archive, in terms of its entries.

**Results.**
* `readHeader_written`: what is read from a header that was written.
* `from_ustar_archive`: an archive whose entries stay aligned is read as `collect`.
* `ustar_faithful_iff`: archives of given paths are read back, for all contents,
  exactly when every path is in the name field alone, in less than 100 bytes,
  and no path occurs twice.
-/
namespace GenVM.Runners
open GenVM.Lib
open GenVM.Calldata (Bytes)

/-- A file's path and how it is split; neither part has a zero byte. -/
structure Path where
  pre : Bytes
  name : Bytes
  path : String
  pre_len : pre.length ≤ 155
  name_len : name.length ≤ 100
  pre_nul : (0 : UInt8) ∉ pre
  name_nul : (0 : UInt8) ∉ name
  joined : Utf8.bytes path = if pre = [] then name else pre ++ 47 :: name
  is_file : endsSlash path = false

/-- The rest of a header: mode and owner, times, type, link, user and group. -/
structure Fields where
  owner : Bytes
  times : Bytes
  typeflag : UInt8
  linkname : Bytes
  users : Bytes
  rest : Bytes
  owner_len : owner.length = 24
  times_len : times.length = 20
  typeflag_file : typeflag = 48 ∨ typeflag = 0
  linkname_len : linkname.length = 100
  users_len : users.length = 80
  rest_len : rest.length = 12

structure Entry where
  path : Path
  fields : Fields
  content : Bytes
  size : content.length < 8 ^ 11

def pad (w : Nat) (x : Bytes) : Bytes := x ++ List.replicate (w - x.length) 0

def octalDigits : Nat → Nat → Bytes
  | 0, _ => []
  | w + 1, n => octalDigits w (n / 8) ++ [UInt8.ofNat (48 + n % 8)]

def Entry.header (e : Entry) : Bytes :=
  pad 100 e.path.name ++ (e.fields.owner ++ (pad 12 (octalDigits 11 e.content.length) ++
    (e.fields.times ++ (e.fields.typeflag :: (e.fields.linkname ++ (SIGNATURE ++
      (e.fields.users ++ (pad 155 e.path.pre ++ e.fields.rest))))))))

def fill (n : Nat) : Bytes := List.replicate ((BLOCK_SIZE - n % BLOCK_SIZE) % BLOCK_SIZE) 0

def Entry.blocks (e : Entry) : Bytes := e.header ++ (e.content ++ fill e.content.length)

/-- The entries' blocks and `k` zero blocks. -/
def archive (es : List Entry) (k : Nat) : Bytes :=
  es.flatMap Entry.blocks ++ List.replicate (k * BLOCK_SIZE) 0

/-! ## Slices of what was appended -/

theorem slice_here {a b : Bytes} {j : Nat} (h : a.length = j) : slice (a ++ b) 0 j = some a := by
  subst h
  rw [slice_of_le (Nat.zero_le _) (by rw [List.length_append]; omega), List.drop_zero, Nat.sub_zero,
    List.take_left]

theorem slice_skip {a b : Bytes} {i j n : Nat} (h : a.length = n) (hi : n ≤ i ∧ i ≤ j) :
    slice (a ++ b) i j = slice b (i - n) (j - n) := by
  subst h
  unfold slice
  have hdrop : (a ++ b).drop i = b.drop (i - a.length) := by
    rw [List.drop_append, List.drop_of_length_le hi.1, List.nil_append]
  rw [hdrop, List.length_append, Nat.sub_sub_sub_cancel_right hi.1]
  by_cases hij : j ≤ a.length + b.length
  · rw [if_pos ⟨hi.2, hij⟩, if_pos (by omega)]
  · rw [if_neg (by omega), if_neg (by omega)]

theorem getElem?_skip {a b : Bytes} {i n : Nat} (h : a.length = n) (hi : n ≤ i) :
    (a ++ b)[i]? = b[i - n]? := by
  subst h
  exact List.getElem?_append_right hi

/-! ## Fields that are read -/

theorem length_pad {w : Nat} {x : Bytes} (h : x.length ≤ w) : (pad w x).length = w := by
  unfold pad
  rw [List.length_append, List.length_replicate]
  omega

theorem trimIdx_pad {x : Bytes} (hx : (0 : UInt8) ∉ x) (z : Nat) :
    ∀ n, n ≤ x.length + z → trimIdx (x ++ List.replicate z 0) n = min n x.length := by
  intro n
  induction n with
  | zero => intro _; rw [trimIdx, Nat.zero_min]
  | succ n ih =>
    intro hn
    unfold trimIdx
    rw [List.getD_eq_getElem?_getD]
    rcases Nat.lt_or_ge n x.length with hlt | hge
    · have hne : x[n] ≠ 0 := fun h => hx (h ▸ List.getElem_mem hlt)
      rw [List.getElem?_append_left hlt, List.getElem?_eq_getElem hlt, Option.getD_some, if_neg hne]
      omega
    · rw [List.getElem?_append_right hge,
        List.getElem?_eq_getElem (by rw [List.length_replicate]; omega), List.getElem_replicate,
        Option.getD_some, if_pos rfl, ih (by omega)]
      omega

/-- The last byte of a field is never read. -/
theorem trim_zeroes_pad {w : Nat} {x : Bytes} (hx : (0 : UInt8) ∉ x) (h : x.length ≤ w) :
    trim_zeroes (pad w x) = x.take (w - 1) := by
  unfold trim_zeroes
  rw [length_pad h]
  unfold pad
  rw [trimIdx_pad hx _ _ (by omega), List.take_append_of_le_length (by omega)]
  rcases Nat.le_total (w - 1) x.length with hle | hle
  · rw [Nat.min_eq_left hle]
  · rw [Nat.min_eq_right hle, List.take_length, List.take_of_length_le hle]

theorem length_octalDigits (w : Nat) : ∀ n, (octalDigits w n).length = w := by
  induction w with
  | zero => intro n; rfl
  | succ w ih =>
    intro n
    unfold octalDigits
    rw [List.length_append, ih, List.length_singleton]

theorem octalDigit_toNat (n : Nat) : (UInt8.ofNat (48 + n % 8)).toNat = 48 + n % 8 := by
  rw [UInt8.toNat_ofNat']
  omega

theorem octalDigits_nul (w : Nat) : ∀ n, (0 : UInt8) ∉ octalDigits w n := by
  induction w with
  | zero => intro n; exact List.not_mem_nil
  | succ w ih =>
    intro n h
    unfold octalDigits at h
    rcases List.mem_append.mp h with h | h
    · exact ih _ h
    · have h0 := congrArg UInt8.toNat (List.mem_singleton.mp h)
      rw [octalDigit_toNat] at h0
      have : (0 : UInt8).toNat = 0 := rfl
      omega

theorem octal_octalDigits (w : Nat) : ∀ (acc n : Nat) (rest : Bytes), n < 8 ^ w →
    (acc + 1) * 8 ^ w ≤ 2 ^ 64 →
    octal acc (octalDigits w n ++ rest) = octal (acc * 8 ^ w + n) rest := by
  induction w with
  | zero =>
    intro acc n rest hn _
    rw [Nat.pow_zero] at hn ⊢
    obtain rfl : n = 0 := by omega
    rw [octalDigits, List.nil_append, Nat.mul_one, Nat.add_zero]
  | succ w ih =>
    intro acc n rest hn hbig
    have hpow : 8 ^ (w + 1) = 8 * 8 ^ w := by rw [Nat.pow_succ, Nat.mul_comm]
    have hmul : acc * 8 ^ (w + 1) = 8 * (acc * 8 ^ w) := by rw [hpow, Nat.mul_left_comm]
    have hsucc : (acc + 1) * 8 ^ (w + 1) = 8 * ((acc + 1) * 8 ^ w) := by
      rw [hpow, Nat.mul_left_comm]
    have hone : (acc + 1) * 8 ^ w = acc * 8 ^ w + 8 ^ w := Nat.succ_mul _ _
    unfold octalDigits
    rw [List.append_assoc, List.singleton_append, ih _ _ _ (by omega) (by omega)]
    rw [octal, octalDigit_toNat, if_pos (by omega), if_pos (by omega)]
    congr 1
    omega

/-- What the reader takes for the path. -/
def Path.key (p : Path) : Option String := Utf8.fromUtf8 (p.pre.take 154 ++ p.name.take 99)

theorem Entry.length_header (e : Entry) : e.header.length = BLOCK_SIZE := by
  have hsig : SIGNATURE.length = 8 := rfl
  have hblock : BLOCK_SIZE = 512 := rfl
  unfold Entry.header
  simp only [List.length_append, List.length_cons, length_pad e.path.name_len,
    length_pad e.path.pre_len, length_pad (length_octalDigits 11 _ ▸ (by decide : 11 ≤ 12)),
    e.fields.owner_len, e.fields.times_len, e.fields.linkname_len, e.fields.users_len,
    e.fields.rest_len, hsig, hblock]

theorem readHeader_written (e : Entry) : readHeader e.header = some (match e.path.key with
    | none => .error .not_utf8
    | some name => .ok ⟨name, octalDigits 11 e.content.length⟩) := by
  have hname := length_pad e.path.name_len
  have hpre := length_pad e.path.pre_len
  have hsize : (pad 12 (octalDigits 11 e.content.length)).length = 12 :=
    length_pad (by rw [length_octalDigits]; decide)
  have howner := e.fields.owner_len
  have htimes := e.fields.times_len
  have hlink := e.fields.linkname_len
  have husers := e.fields.users_len
  have hsig : SIGNATURE.length = 8 := rfl
  have hflag : ∀ rest : Bytes, e.fields.typeflag :: rest = [e.fields.typeflag] ++ rest := fun _ => rfl
  have hone : [e.fields.typeflag].length = 1 := rfl
  have s1 : slice e.header 257 265 = some SIGNATURE := by
    unfold Entry.header
    rw [slice_skip hname (by decide), slice_skip howner (by decide), slice_skip hsize (by decide),
      slice_skip htimes (by decide), hflag, slice_skip hone (by decide), slice_skip hlink (by decide)]
    exact slice_here hsig
  have s2 : slice e.header 124 136 = some (pad 12 (octalDigits 11 e.content.length)) := by
    unfold Entry.header
    rw [slice_skip hname (by decide), slice_skip howner (by decide)]
    exact slice_here hsize
  have s3 : e.header[156]? = some e.fields.typeflag := by
    unfold Entry.header
    rw [getElem?_skip hname (by decide), getElem?_skip howner (by decide),
      getElem?_skip hsize (by decide), getElem?_skip htimes (by decide)]
    rfl
  have s4 : slice e.header 0 100 = some (pad 100 e.path.name) := slice_here hname
  have s5 : slice e.header 345 (345 + 155) = some (pad 155 e.path.pre) := by
    unfold Entry.header
    rw [slice_skip hname (by decide), slice_skip howner (by decide), slice_skip hsize (by decide),
      slice_skip htimes (by decide), hflag, slice_skip hone (by decide), slice_skip hlink (by decide),
      slice_skip hsig (by decide), slice_skip husers (by decide)]
    exact slice_here hpre
  have hmem : ¬ e.fields.typeflag ∉ ([48, 0, 53] : List UInt8) := by
    rcases e.fields.typeflag_file with h | h <;> rw [h] <;> decide
  unfold readHeader
  rw [s1]
  dsimp only [Option.bind_eq_bind, Option.bind_some]
  rw [if_neg (not_not_intro rfl), s2, s3]
  dsimp only [Option.bind_eq_bind, Option.bind_some]
  rw [if_neg hmem, s4, s5]
  dsimp only [Option.bind_eq_bind, Option.bind_some]
  rw [trim_zeroes_pad e.path.pre_nul e.path.pre_len, trim_zeroes_pad e.path.name_nul e.path.name_len,
    trim_zeroes_pad (octalDigits_nul 11 _) (by rw [length_octalDigits]; decide),
    List.take_of_length_le (show (octalDigits 11 e.content.length).length ≤ 12 - 1 by
      rw [length_octalDigits])]
  unfold Path.key
  cases Utf8.fromUtf8 (e.path.pre.take 154 ++ e.path.name.take 99) <;> rfl

/-! ## Reading what was written -/

/-- The archive in terms of its entries: paths as the reader takes them. -/
def collect : List Entry → Files → Except TarError Files
  | [], res => .ok res
  | e :: es, res =>
    match e.path.key with
    | none => .error .not_utf8
    | some name =>
      if endsSlash name then collect es res
      else
        match map_try_insert res name e.content with
        | .error err => .error err
        | .ok res => collect es res

/-- A path that is cut at a `/` is taken for a directory, which has no content. -/
def Entry.aligned (e : Entry) : Prop :=
  e.content = [] ∨ ∀ name, e.path.key = some name → endsSlash name = false

theorem drop_archive (xs ys : Bytes) :
    slice (xs ++ ys) xs.length (xs ++ ys).length = some ys := by
  rw [slice_of_le (by rw [List.length_append]; omega) (le_refl _), List.drop_left,
    List.take_of_length_le (by rw [List.length_append]; omega)]

theorem Entry.header_ne_zero (e : Entry) : (117 : UInt8) ∈ e.header := by
  have hsig : (117 : UInt8) ∈ SIGNATURE := by decide
  unfold Entry.header
  simp only [List.mem_append, List.mem_cons]
  exact .inr (.inr (.inr (.inr (.inr (.inr (.inl hsig))))))

theorem readLoop_archive {k : Nat} (hk : 2 ≤ k) : ∀ (es : List Entry) (before : Bytes) (res : Files)
    (fuel : Nat), before.length % BLOCK_SIZE = 0 → (∀ e ∈ es, e.aligned) → es.length < fuel →
    (before ++ archive es k).length < 2 ^ 63 →
    readLoop (before ++ archive es k) fuel before.length res = some (collect es res) := by
  have hblock : BLOCK_SIZE = 512 := rfl
  intro es
  induction es with
  | nil =>
    intro before res fuel _ _ hfuel hfits
    obtain ⟨fuel, rfl⟩ := Nat.exists_eq_succ_of_ne_zero (Nat.ne_of_gt hfuel)
    have hlen : (archive [] k).length = k * BLOCK_SIZE := by
      unfold archive
      rw [List.flatMap_nil, List.nil_append, List.length_replicate]
    have htwo : 2 * BLOCK_SIZE ≤ k * BLOCK_SIZE := Nat.mul_le_mul_right _ hk
    rw [readLoop, if_pos (by rw [List.length_append, hlen]; omega), drop_archive]
    dsimp only [Option.bind_eq_bind, Option.bind_some]
    rw [slice_of_le (by omega) (by omega), slice_of_le (by omega) (by omega)]
    dsimp only [Option.bind_eq_bind, Option.bind_some]
    rw [if_pos, collect]
    refine List.all_eq_true.mpr fun x hx => decide_eq_true ?_
    have hx := List.mem_of_mem_drop (List.mem_of_mem_take hx)
    unfold archive at hx
    rw [List.flatMap_nil, List.nil_append] at hx
    exact List.eq_of_mem_replicate hx
  | cons e es ih =>
    intro before res fuel hal haligned hfuel hfits
    obtain ⟨fuel, rfl⟩ := Nat.exists_eq_succ_of_ne_zero (Nat.ne_of_gt (Nat.zero_lt_of_lt hfuel))
    have hfuel : es.length < fuel := by rw [List.length_cons] at hfuel; omega
    have harchive : archive (e :: es) k = e.header ++ (e.content ++ (fill e.content.length ++ archive es k)) := by
      unfold archive Entry.blocks
      rw [List.flatMap_cons, List.append_assoc, List.append_assoc, List.append_assoc]
    have hhead := e.length_header
    have hzeros : 2 * BLOCK_SIZE ≤ (archive es k).length := by
      unfold archive
      rw [List.length_append, List.length_replicate]
      have : 2 * BLOCK_SIZE ≤ k * BLOCK_SIZE := Nat.mul_le_mul_right _ hk
      omega
    have hfill : (fill e.content.length).length
        = (BLOCK_SIZE - e.content.length % BLOCK_SIZE) % BLOCK_SIZE := List.length_replicate
    have hlen : (archive (e :: es) k).length = 512 + (e.content.length
        + ((fill e.content.length).length + (archive es k).length)) := by
      rw [harchive, List.length_append, List.length_append, List.length_append, hhead,
        hblock]
    rw [List.length_append] at hfits
    have hal512 : before.length % 512 = 0 := hal
    have hbound : before.length + 2 * BLOCK_SIZE ≤ (before ++ archive (e :: es) k).length := by
      rw [List.length_append]
      omega
    rw [readLoop, if_pos hbound, drop_archive]
    dsimp only [Option.bind_eq_bind, Option.bind_some]
    rw [slice_of_le (j := BLOCK_SIZE * 2) (by omega) (by omega), harchive, slice_here hhead]
    dsimp only [Option.bind_eq_bind, Option.bind_some]
    have hnz : ¬ (((e.header ++ (e.content ++ (fill e.content.length ++ archive es k))).drop 0).take
        (BLOCK_SIZE * 2 - 0)).all (fun x => x = 0) = true := by
      intro h
      rw [List.drop_zero, List.take_append, List.take_of_length_le (by omega)] at h
      have h117 := List.all_eq_true.mp h 117 (List.mem_append_left _ e.header_ne_zero)
      exact absurd h117 (by decide)
    rw [if_neg hnz, readHeader_written]
    dsimp only [Option.bind_eq_bind, Option.bind_some]
    rw [collect]
    cases hkey : e.path.key with
    | none => rfl
    | some name =>
      dsimp only
      rw [addUsize_of_lt (by omega)]
      dsimp only [Option.bind_eq_bind, Option.bind_some]
      cases hslash : endsSlash name with
      | true =>
        rw [if_pos rfl, if_pos rfl]
        have hcontent : e.content = [] := by
          rcases haligned e List.mem_cons_self with h | h
          · exact h
          · exact absurd hslash (by rw [h name hkey]; decide)
        have hzero : fill 0 = [] := rfl
        have hdata : before ++ (e.header ++ (e.content ++ (fill e.content.length ++ archive es k)))
            = (before ++ e.header) ++ archive es k := by
          rw [hcontent, List.length_nil, hzero, List.nil_append, List.nil_append, List.append_assoc]
        have hbegin : before.length + BLOCK_SIZE = (before ++ e.header).length := by
          rw [List.length_append, hhead]
        rw [hdata, hbegin]
        apply ih
        · rw [← hbegin, hblock]; omega
        · exact fun e' he' => haligned e' (List.mem_cons_of_mem _ he')
        · exact hfuel
        · rw [List.length_append, List.length_append, hhead]; omega
      | false =>
        rw [if_neg Bool.false_ne_true, if_neg Bool.false_ne_true]
        have hoctal : octal 0 (octalDigits 11 e.content.length) = .ok e.content.length := by
          have h := octal_octalDigits 11 0 e.content.length [] e.size (by decide)
          rw [List.append_nil, Nat.zero_mul, Nat.zero_add] at h
          exact h
        rw [hoctal]
        dsimp only
        rw [addUsize_of_lt (by omega)]
        dsimp only [Option.bind_eq_bind, Option.bind_some]
        have hround : (BLOCK_SIZE - (before.length + BLOCK_SIZE + e.content.length) % BLOCK_SIZE)
            % BLOCK_SIZE = (fill e.content.length).length := by
          rw [hfill, hblock]
          omega
        rw [hround, addUsize_of_lt (by omega)]
        dsimp only [Option.bind_eq_bind, Option.bind_some]
        have hbody : (e.header ++ (e.content ++ (fill e.content.length ++ archive es k))).length
            = 512 + (e.content.length + ((fill e.content.length).length + (archive es k).length)) := by
          rw [← harchive, hlen]
        rw [if_pos (by omega), slice_skip hhead (by omega), Nat.sub_self, Nat.add_sub_cancel_left,
          slice_here rfl]
        dsimp only [Option.bind_eq_bind, Option.bind_some]
        cases map_try_insert res name e.content with
        | error err => rfl
        | ok res1 =>
          dsimp only
          have hdata : before ++ (e.header ++ (e.content ++ (fill e.content.length ++ archive es k)))
              = (before ++ e.blocks) ++ archive es k := by
            unfold Entry.blocks
            simp only [List.append_assoc]
          have hbegin : before.length + BLOCK_SIZE + e.content.length + (fill e.content.length).length
              = (before ++ e.blocks).length := by
            unfold Entry.blocks
            rw [List.length_append, List.length_append, List.length_append, hhead]
            omega
          rw [hdata, hbegin]
          apply ih
          · rw [← hbegin, hfill, hblock]; omega
          · exact fun e' he' => haligned e' (List.mem_cons_of_mem _ he')
          · exact hfuel
          · rw [List.length_append, ← hbegin]; omega

theorem Entry.length_blocks (e : Entry) : e.blocks.length % 512 = 0 ∧ 512 ≤ e.blocks.length ∧
    (e.content.length ≤ 512 → e.blocks.length ≤ 1024) := by
  have hblock : BLOCK_SIZE = 512 := rfl
  have hfill : (fill e.content.length).length
      = (BLOCK_SIZE - e.content.length % BLOCK_SIZE) % BLOCK_SIZE := List.length_replicate
  unfold Entry.blocks
  rw [List.length_append, List.length_append, e.length_header, hfill, hblock]
  omega

theorem length_archive (es : List Entry) (k : Nat) : (archive es k).length % 512 = 0 ∧
    es.length * 512 + k * 512 ≤ (archive es k).length ∧
    ((∀ e ∈ es, e.content.length ≤ 512) → (archive es k).length ≤ es.length * 1024 + k * 512) := by
  have hblock : BLOCK_SIZE = 512 := rfl
  induction es with
  | nil =>
    unfold archive
    rw [List.flatMap_nil, List.nil_append, List.length_replicate, hblock, List.length_nil]
    omega
  | cons e es ih =>
    obtain ⟨h1, h2, h3⟩ := ih
    obtain ⟨b1, b2, b3⟩ := e.length_blocks
    have hcons : (archive (e :: es) k).length = e.blocks.length + (archive es k).length := by
      unfold archive
      rw [List.flatMap_cons, List.append_assoc, List.length_append]
    have h4 := fun h : ∀ e' ∈ e :: es, e'.content.length ≤ 512 => b3 (h e List.mem_cons_self)
    have h5 := fun h : ∀ e' ∈ e :: es, e'.content.length ≤ 512 =>
      h3 fun e' he' => h e' (List.mem_cons_of_mem _ he')
    rw [hcons, List.length_cons]
    have h512 : (es.length + 1) * 512 = es.length * 512 + 512 := Nat.succ_mul _ _
    have h1024 : (es.length + 1) * 1024 = es.length * 1024 + 1024 := Nat.succ_mul _ _
    rw [h512, h1024]
    refine ⟨by omega, by linarith only [h2, b2], fun h => ?_⟩
    linarith only [h4 h, h5 h]

theorem from_ustar_archive {es : List Entry} {k : Nat} (hk : 2 ≤ k) (hal : ∀ e ∈ es, e.aligned)
    (hfits : (archive es k).length < 2 ^ 63) :
    from_ustar (archive es k) = some (match collect es [] with
      | .error err => .error err
      | .ok res => .ok ⟨res, (archive es k).length % 2 ^ 32⟩) := by
  have hblock : BLOCK_SIZE = 512 := rfl
  obtain ⟨h1, h2, _⟩ := length_archive es k
  have hloop := readLoop_archive hk es [] [] ((archive es k).length + 1) rfl hal (by omega) hfits
  rw [List.nil_append, List.length_nil] at hloop
  have hlong : ¬ (archive es k).length < BLOCK_SIZE * 2 := by omega
  have hblocks : ¬ (archive es k).length % BLOCK_SIZE ≠ 0 := not_not_intro h1
  unfold from_ustar
  rw [if_neg hlong, if_neg hblocks, hloop]
  dsimp only [Option.bind_eq_bind, Option.bind_some]
  cases collect es [] <;> rfl

/-! ## What is collected -/

theorem string_order : SortedMap.StrictOrder (fun a b : String => a < b) where
  irrefl := fun _ => lt_irrefl _
  trans := fun _ _ _ => lt_trans
  tri := fun _ _ h1 h2 => le_antisymm (not_lt.mp h2) (not_lt.mp h1)

/-- An entry that is taken for a file called `name`. -/
def Entry.readAs (e : Entry) (name : String) : Prop :=
  e.path.key = some name ∧ endsSlash name = false

theorem lookup_none_of_absent {res : Files} {name : String} :
    (res.any fun e => e.1 = name) = false → res.lookup name = none := by
  induction res with
  | nil => intro _; rfl
  | cons e res ih =>
    intro h
    rw [List.any_cons, Bool.or_eq_false_iff] at h
    have hne : name ≠ e.1 := fun hname => of_decide_eq_false h.1 hname.symm
    rw [SortedMap.lookup_cons, if_neg hne, ih h.2]

theorem map_try_insert_lookup {res res' : Files} {name : String} {contents : Bytes}
    (h : map_try_insert res name contents = .ok res') : res.lookup name = none ∧
    ∀ name', res'.lookup name' = if name' = name then some contents else res.lookup name' := by
  unfold map_try_insert at h
  split at h
  · cases h
  · rename_i hany
    obtain rfl := Except.ok.inj h
    exact ⟨lookup_none_of_absent (Bool.eq_false_iff.mpr hany),
      fun name' => SortedMap.lookup_insert string_order name name' contents res⟩

theorem collect_lookup {m : Files} : ∀ {es : List Entry} {res : Files}, collect es res = .ok m →
    ∀ (name : String) (c : Bytes), m.lookup name = some c ↔
      res.lookup name = some c ∨ ∃ e ∈ es, e.readAs name ∧ e.content = c := by
  intro es
  induction es with
  | nil =>
    intro res h name c
    obtain rfl := Except.ok.inj h
    exact ⟨.inl, fun h => h.elim id fun ⟨e, he, _⟩ => absurd he List.not_mem_nil⟩
  | cons e es ih =>
    intro res h name c
    rw [collect] at h
    split at h
    · cases h
    · rename_i key hkey
      split at h
      · -- the entry is skipped
        rename_i hslash
        rw [ih h name c]
        have hskip : ¬ e.readAs name := by
          intro hread
          obtain rfl := Option.some.inj (hkey.symm.trans hread.1)
          exact absurd hslash (by rw [hread.2]; decide)
        refine or_congr_right ⟨fun ⟨e', he', h'⟩ => ⟨e', List.mem_cons_of_mem _ he', h'⟩, ?_⟩
        intro ⟨e', he', h'⟩
        rcases List.mem_cons.mp he' with rfl | he'
        · exact absurd h'.1 hskip
        · exact ⟨e', he', h'⟩
      · rename_i hslash
        split at h
        · cases h
        · rename_i res1 hins
          obtain ⟨hnone, hins⟩ := map_try_insert_lookup hins
          rw [ih h name c, hins name]
          have hhead : e.readAs name ↔ name = key := by
            unfold Entry.readAs
            rw [hkey]
            refine ⟨fun hread => (Option.some.inj hread.1).symm, fun hname => ?_⟩
            rw [hname]
            exact ⟨rfl, Bool.eq_false_iff.mpr hslash⟩
          by_cases hname : name = key
          · rw [if_pos hname, hname, hnone]
            refine ⟨?_, ?_⟩
            · intro hor
              refine .inr ?_
              rcases hor with hc | ⟨e', he', h'⟩
              · exact ⟨e, List.mem_cons_self, hname ▸ hhead.mpr hname, Option.some.inj hc⟩
              · exact ⟨e', List.mem_cons_of_mem _ he', h'⟩
            · intro hor
              rcases hor with hc | ⟨e', he', h'⟩
              · cases hc
              · rcases List.mem_cons.mp he' with rfl | he'
                · exact .inl (congrArg some h'.2)
                · exact .inr ⟨e', he', h'⟩
          · rw [if_neg hname]
            refine or_congr_right ⟨fun ⟨e', he', h'⟩ => ⟨e', List.mem_cons_of_mem _ he', h'⟩, ?_⟩
            intro ⟨e', he', h'⟩
            rcases List.mem_cons.mp he' with rfl | he'
            · exact absurd (hhead.mp h'.1) hname
            · exact ⟨e', he', h'⟩

/-- Without an error when every path is read as itself and none occurs twice. -/
theorem collect_ok : ∀ {es : List Entry} {res : Files}, (∀ e ∈ es, e.readAs e.path.path) →
    (es.map fun e => e.path.path).Nodup → (∀ e ∈ es, ∀ x ∈ res, x.1 ≠ e.path.path) →
    ∃ m, collect es res = .ok m := by
  intro es
  induction es with
  | nil => intro res _ _ _; exact ⟨res, rfl⟩
  | cons e es ih =>
    intro res hread hnodup hfresh
    obtain ⟨hkey, hslash⟩ := hread e List.mem_cons_self
    rw [List.map_cons, List.nodup_cons] at hnodup
    rw [collect, hkey]
    dsimp only
    rw [hslash, if_neg Bool.false_ne_true]
    have hany : ¬ (res.any fun x => x.1 = e.path.path) = true := by
      intro h
      obtain ⟨x, hx, heq⟩ := List.any_eq_true.mp h
      exact hfresh e List.mem_cons_self x hx (of_decide_eq_true heq)
    unfold map_try_insert
    rw [if_neg hany]
    dsimp only
    apply ih
    · exact fun e' he' => hread e' (List.mem_cons_of_mem _ he')
    · exact hnodup.2
    · intro e' he' x hx
      rcases SortedMap.mem_insert hx with rfl | hx
      · intro heq
        dsimp only at heq
        exact hnodup.1 (heq ▸ List.mem_map_of_mem he')
      · exact hfresh e' (List.mem_cons_of_mem _ he') x hx

/-! ## Faithful archives -/

/-- The map that is read has exactly the entries that were written. -/
def Faithful (es : List Entry) (k : Nat) : Prop :=
  ∃ a, from_ustar (archive es k) = some (.ok a) ∧ ∀ name content,
    a.data.lookup name = some content ↔ (name, content) ∈ es.map fun e => (e.path.path, e.content)

/-- The name field alone, and not all of it. -/
def Path.plain (p : Path) : Prop := p.pre = [] ∧ p.name.length < 100

theorem Path.plain.key {p : Path} (h : p.plain) : p.key = some p.path := by
  obtain ⟨hpre, hname⟩ := h
  have hjoined := p.joined
  rw [if_pos hpre] at hjoined
  unfold Path.key
  rw [hpre, List.take_nil, List.nil_append, List.take_of_length_le (by omega), ← hjoined]
  exact Utf8.fromUtf8_bytes _

theorem faithful_of_plain {es : List Entry} {k : Nat} (hk : 2 ≤ k)
    (hfits : (archive es k).length < 2 ^ 63) (hplain : ∀ e ∈ es, e.path.plain)
    (hnodup : (es.map fun e => e.path.path).Nodup) : Faithful es k := by
  have hread : ∀ e ∈ es, e.readAs e.path.path := fun e he => ⟨(hplain e he).key, e.path.is_file⟩
  have hal : ∀ e ∈ es, e.aligned := by
    intro e he
    refine .inr fun name hname => ?_
    obtain rfl := Option.some.inj ((hread e he).1.symm.trans hname)
    exact e.path.is_file
  obtain ⟨m, hm⟩ := @collect_ok es [] hread hnodup fun _ _ x hx => absurd hx List.not_mem_nil
  have hrun := from_ustar_archive hk hal hfits
  rw [hm] at hrun
  refine ⟨_, hrun, fun name content => ?_⟩
  dsimp only
  rw [collect_lookup hm, List.mem_map]
  have hnil : ¬ List.lookup name ([] : Files) = some content := fun h => nomatch h
  rw [or_iff_right hnil]
  refine exists_congr fun e => and_congr_right fun he => ?_
  rw [Prod.mk.injEq]
  refine and_congr_left fun _ => ⟨fun h => ?_, fun h => h ▸ hread e he⟩
  exact Option.some.inj ((hread e he).1.symm.trans h.1)

/-- As `tarfile` writes them for a fresh `TarInfo`, up to numbers that are not read. -/
def defaultFields : Fields where
  owner := List.replicate 24 0
  times := List.replicate 20 0
  typeflag := 48
  linkname := List.replicate 100 0
  users := List.replicate 80 0
  rest := List.replicate 12 0
  owner_len := List.length_replicate
  times_len := List.length_replicate
  typeflag_file := .inl rfl
  linkname_len := List.length_replicate
  users_len := List.length_replicate
  rest_len := List.length_replicate

def Path.keyLength (p : Path) : Nat := (p.pre.take 154 ++ p.name.take 99).length

theorem Path.keyLength_le (p : Path) : p.keyLength ≤ (Utf8.bytes p.path).length ∧
    (¬ p.plain → p.keyLength < (Utf8.bytes p.path).length) := by
  have hjoined := congrArg List.length p.joined
  unfold Path.keyLength Path.plain
  rw [hjoined, List.length_append, List.length_take, List.length_take]
  by_cases hpre : p.pre = []
  · rw [if_pos hpre, hpre, List.length_nil]
    refine ⟨by omega, fun h => ?_⟩
    have hlen : ¬ p.name.length < 100 := fun hlt => h ⟨rfl, hlt⟩
    omega
  · rw [if_neg hpre, List.length_append, List.length_cons]
    exact ⟨by omega, fun _ => by omega⟩

theorem Faithful.read {es : List Entry} {k : Nat} (h : Faithful es k) (hk : 2 ≤ k)
    (hal : ∀ e ∈ es, e.aligned) (hfits : (archive es k).length < 2 ^ 63) :
    ∀ e ∈ es, ∃ e' ∈ es, e'.readAs e.path.path := by
  intro e he
  obtain ⟨a, hrun, hmap⟩ := h
  rw [from_ustar_archive hk hal hfits] at hrun
  have hrun := Option.some.inj hrun
  cases hcol : collect es [] with
  | error err => rw [hcol] at hrun; cases hrun
  | ok m =>
    rw [hcol] at hrun
    obtain rfl := Except.ok.inj hrun
    have hin := (hmap e.path.path e.content).mpr (List.mem_map_of_mem he)
    rcases (collect_lookup hcol _ _).mp hin with h | ⟨e', he', hread, _⟩
    · cases h
    · exact ⟨e', he', hread⟩

/-- Reading only shortens paths, so when every path comes back each is read as itself. -/
theorem plain_of_read {paths : List Path} (hnodup : (paths.map Path.path).Nodup)
    (hread : ∀ p ∈ paths, ∃ p' ∈ paths, p'.key = some p.path) : ∀ p ∈ paths, p.plain := by
  have hsub : (paths.map fun p => Utf8.bytes p.path) ⊆
      paths.map fun p => p.pre.take 154 ++ p.name.take 99 := by
    intro b hb
    obtain ⟨p, hp, rfl⟩ := List.mem_map.mp hb
    obtain ⟨p', hp', hkey⟩ := hread p hp
    exact List.mem_map.mpr ⟨p', hp', Utf8.fromUtf8_eq_some.mp hkey⟩
  have hbytes : (paths.map fun p => Utf8.bytes p.path).Nodup := by
    have h := hnodup.map (f := Utf8.bytes) fun _ _ h => Utf8.bytes_inj h
    rwa [List.map_map] at h
  have hperm := (List.subperm_of_subset hbytes hsub).perm_of_length_le
    (by rw [List.length_map, List.length_map])
  have hsum := (hperm.map List.length).sum_eq
  rw [List.map_map, List.map_map] at hsum
  by_contra hbad
  rw [not_forall] at hbad
  obtain ⟨p, hbad⟩ := hbad
  rw [Classical.not_imp] at hbad
  have hlt := List.sum_lt_sum Path.keyLength (fun p => (Utf8.bytes p.path).length)
    (fun p _ => p.keyLength_le.1) ⟨p, hbad.1, p.keyLength_le.2 hbad.2⟩
  exact absurd hsum (Nat.ne_of_gt hlt)

theorem nodup_of_faithful {es : List Entry} {k i j : Nat} (h : Faithful es k) {e e' : Entry}
    (hi : es[i]? = some e) (hj : es[j]? = some e') (hpath : e.path.path = e'.path.path) :
    e.content = e'.content := by
  obtain ⟨a, _, hmap⟩ := h
  have h1 := (hmap e.path.path e.content).mpr (List.mem_map_of_mem (List.mem_of_getElem? hi))
  have h2 := (hmap e'.path.path e'.content).mpr (List.mem_map_of_mem (List.mem_of_getElem? hj))
  rw [hpath, h2] at h1
  exact (Option.some.inj h1).symm

/-- Empty files, but for the one at `i`. -/
def entriesBut (paths : List Path) (i : Nat) : List Entry :=
  paths.mapIdx fun n p =>
    ⟨p, defaultFields, if n = i then [0] else [], by split <;> decide⟩

theorem entriesBut_path (paths : List Path) (i : Nat) :
    (entriesBut paths i).map Entry.path = paths := by
  apply List.ext_getElem?
  intro n
  unfold entriesBut
  rw [List.getElem?_map, List.getElem?_mapIdx, Option.map_map]
  exact Option.map_id'

theorem entriesBut_fits {paths : List Path} (h : paths.length * 1024 + 1024 < 2 ^ 63) (i : Nat) :
    (archive (entriesBut paths i) 2).length < 2 ^ 63 := by
  obtain ⟨_, _, hle⟩ := length_archive (entriesBut paths i) 2
  have hsmall : ∀ e ∈ entriesBut paths i, e.content.length ≤ 512 := by
    intro e he
    obtain ⟨n, hn, rfl⟩ := List.mem_mapIdx.mp he
    dsimp only
    split <;> decide
  have hlen : (entriesBut paths i).length = paths.length := List.length_mapIdx
  have := hle hsmall
  omega

/-- Reading returns for every input, with slices of it; and archives of given
paths are read back, whatever the contents, exactly when every path is in the
name field alone and leaves a byte of it free, and no path occurs twice. -/
theorem ustar_faithful_iff (data : Bytes) (hdata : data.length < 2 ^ 63) (paths : List Path)
    (hpaths : paths.length * 1024 + 1024 < 2 ^ 63) :
    (∃ r, from_ustar data = some r ∧ ∀ a, r = .ok a → ∀ e ∈ a.data, e.2 <:+: data) ∧
    ((∀ (es : List Entry) (k : Nat), es.map Entry.path = paths → 2 ≤ k →
        (archive es k).length < 2 ^ 63 → Faithful es k) ↔
      (∀ p ∈ paths, p.pre = [] ∧ p.name.length < 100) ∧ (paths.map Path.path).Nodup) := by
  refine ⟨from_ustar_total hdata, ⟨fun h => ?_, fun ⟨hplain, hnodup⟩ => ?_⟩⟩
  · have hfaith : ∀ i, Faithful (entriesBut paths i) 2 := fun i =>
      h _ 2 (entriesBut_path paths i) (le_refl 2) (entriesBut_fits hpaths i)
    have hnodup : (paths.map Path.path).Nodup := by
      rw [List.nodup_iff_getElem?_ne_getElem?]
      intro i j hij hj heq
      rw [List.length_map] at hj
      rw [List.getElem?_map, List.getElem?_map, List.getElem?_eq_getElem hj,
        List.getElem?_eq_getElem (hij.trans hj)] at heq
      have hi' : (entriesBut paths i)[i]? = some ⟨paths[i], defaultFields, [0], by decide⟩ := by
        unfold entriesBut
        rw [List.getElem?_mapIdx, List.getElem?_eq_getElem (hij.trans hj), Option.map_some]
        simp only [if_pos]
      have hj' : (entriesBut paths i)[j]? = some ⟨paths[j], defaultFields, [], by decide⟩ := by
        unfold entriesBut
        rw [List.getElem?_mapIdx, List.getElem?_eq_getElem hj, Option.map_some]
        simp only [if_neg (Nat.ne_of_gt hij)]
      have hcontent := nodup_of_faithful (hfaith i) hi' hj' (Option.some.inj heq)
      cases hcontent
    refine ⟨plain_of_read hnodup ?_, hnodup⟩
    -- all files empty: what is cut at a `/` is skipped without losing the blocks
    have hempty : ∀ e ∈ entriesBut paths paths.length, e.aligned := by
      intro e he
      obtain ⟨n, hn, rfl⟩ := List.mem_mapIdx.mp he
      exact .inl (if_neg (Nat.ne_of_lt hn))
    have hread := (hfaith paths.length).read (le_refl 2) hempty (entriesBut_fits hpaths _)
    intro p hp
    rw [← entriesBut_path paths paths.length] at hp
    obtain ⟨e, he, rfl⟩ := List.mem_map.mp hp
    obtain ⟨e', he', hread⟩ := hread e he
    refine ⟨e'.path, ?_, hread.1⟩
    rw [← entriesBut_path paths paths.length]
    exact List.mem_map_of_mem he'
  · intro es k hes hk hfits
    subst hes
    refine faithful_of_plain hk hfits (fun e he => hplain _ (List.mem_map_of_mem he)) ?_
    rw [List.map_map] at hnodup
    exact hnodup

/-- A file called by 100 letters. -/
def longName : Path where
  pre := []
  name := List.replicate 100 97
  path := String.ofList (List.replicate 100 'a')
  pre_len := by decide
  name_len := by rw [List.length_replicate]
  pre_nul := List.not_mem_nil
  name_nul := fun h => absurd (List.eq_of_mem_replicate h) (by decide)
  joined := by rw [Utf8.bytes_eq, String.toList_ofList]; decide
  is_file := by unfold endsSlash; rw [String.toList_ofList]; decide

/-- The name that is read has 99 letters. -/
theorem long_name_lost : ¬ ∀ (es : List Entry) (k : Nat), (es.map fun e => e.path.path).Nodup →
    2 ≤ k → (archive es k).length < 2 ^ 63 → Faithful es k := by
  intro h
  have hfits : (archive [⟨longName, defaultFields, [], by decide⟩] 2).length < 2 ^ 63 :=
    ((length_archive _ 2).2.2 (by simp)).trans_lt (by decide)
  have hfaith := h [⟨longName, defaultFields, [], by decide⟩] 2 (List.nodup_singleton _) (le_refl 2) hfits
  obtain ⟨e, he, hread⟩ := hfaith.read (le_refl 2) (fun e he => .inl (List.mem_singleton.mp he ▸ rfl))
    hfits _ (List.mem_singleton_self _)
  obtain rfl := List.mem_singleton.mp he
  have hbad : ¬ longName.plain := fun hplain => absurd hplain.2 (by decide)
  have hkey := Utf8.fromUtf8_eq_some.mp hread.1
  exact absurd (congrArg List.length hkey) (Nat.ne_of_lt (longName.keyLength_le.2 hbad))

theorem ustar_faithful_iff_long : (∃ r, from_ustar [] = some r) ∧
    ¬ ∀ (es : List Entry) (k : Nat), es.map Entry.path = [longName] → 2 ≤ k →
      (archive es k).length < 2 ^ 63 → Faithful es k := by
  obtain ⟨htotal, hiff⟩ := ustar_faithful_iff [] (by decide) [longName] (by decide)
  refine ⟨htotal.imp fun r h => h.1, fun h => ?_⟩
  exact absurd ((hiff.mp h).1 longName List.mem_cons_self).2 (by decide)

end GenVM.Runners
