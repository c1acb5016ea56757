import GenVM.Calldata.Parser
import GenVM.Calldata.RoundTrip

/-!
# The Python codec (`genlayer-py-std/src/genlayer/calldata/__init__.py`)

A Python value is a `Tree` too: a `dict` is its items in insertion order, with
distinct keys. `encode` sorts the keys as `str` values, that is by code point;
`decode` compares them the same way. Its recursion is bounded by `frames`, which
`decode` sets to one more than the length of its input: no accepted input nests
deeper.

* `Py.decode_iff`: Python accepts exactly the wire forms of sorted trees.
* `Py.codecs_agree`: below `2 ^ 32` bytes, Rust accepts what Python accepts at
  its nesting limit, with the same value, and both encoders write the same bytes.
-/
namespace GenVM.Py
open GenVM.Lib GenVM.Lib.Except GenVM.Calldata

/-! ## Decoding -/

inductive DecodingError where
  | unexpectedEnd
  | mostSignificantZero
  | unknownSpecial (code : Nat)
  | invalidType (typ : Nat)
  | unicode
  | unorderedKeys (prev key : String)
  | duplicateKey (key : String)
  | unparsedEnd
  | recursion
  deriving DecidableEq, Repr

/-- mirrors runners/genlayer-py-std/src/genlayer/calldata/__init__.py:231-238 -/
def fetchMem (cnt : Nat) (mem : Bytes) :
    Except DecodingError ({b : Bytes // b.length = cnt} × Bytes) :=
  if h : mem.length < cnt then .error .unexpectedEnd
  else .ok (⟨mem.take cnt, length_take_of_not_lt h⟩, mem.drop cnt)

theorem fetched_length {n : Nat} (b : {b : Bytes // b.length = n}) : b.1.length = n := b.2

/-- mirrors runners/genlayer-py-std/src/genlayer/calldata/__init__.py:240-252 -/
def readUleb128 : Bytes → Nat → Nat → Except DecodingError (Nat × Bytes)
  | [], _, _ => .error .unexpectedEnd
  | m :: mem, ret, off =>
    let ret := ret ||| (m &&& 0x7f).toNat <<< off
    if m &&& 0x80 = 0 then
      if m = 0 ∧ off ≠ 0 then .error .mostSignificantZero else .ok (ret, mem)
    else readUleb128 mem ret (off + 7)

/-- `str(b, encoding='utf-8')` -/
def toStr (b : Bytes) : Except DecodingError String :=
  match Utf8.fromUtf8 b with
  | some s => .ok s
  | none => .error .unicode

/-- The loop over the items of a map.
mirrors runners/genlayer-py-std/src/genlayer/calldata/__init__.py:283-296 -/
def mapLoop (impl : Bytes → Except DecodingError (Tree × Bytes)) :
    Nat → Option String → List (String × Tree) → Bytes →
      Except DecodingError (List (String × Tree) × Bytes)
  | 0, _, retDict, mem => .ok (retDict, mem)
  | n + 1, prev, retDict, mem => do
    let (le, mem) ← readUleb128 mem 0 0
    let (slice, mem) ← fetchMem le mem
    let key ← toStr slice.1
    match prev.filter (fun p => ¬ p < key) with
    | some p => .error (.unorderedKeys p key)
    | none =>
      if retDict.any (·.1 = key) then .error (.duplicateKey key)
      else
        let (v, mem) ← impl mem
        mapLoop impl n (some key) (retDict ++ [(key, v)]) mem

/-- mirrors runners/genlayer-py-std/src/genlayer/calldata/__init__.py:257-266 -/
def special (code : Nat) (mem : Bytes) : Except DecodingError (Tree × Bytes) :=
  if code = SPECIAL_NULL then .ok (.null, mem)
  else if code = SPECIAL_FALSE then .ok (.bool false, mem)
  else if code = SPECIAL_TRUE then .ok (.bool true, mem)
  else if code = SPECIAL_ADDR then do
    let (addr, mem) ← fetchMem ADDRESS_SIZE mem
    .ok (.address ⟨addr.1, fetched_length addr⟩, mem)
  else .error (.unknownSpecial code)

/-- The arms of `impl`, with `impl` itself for the elements.
mirrors runners/genlayer-py-std/src/genlayer/calldata/__init__.py:254-298 -/
def dispatch (impl : Bytes → Except DecodingError (Tree × Bytes)) (code : Nat) (mem : Bytes) :
    Except DecodingError (Tree × Bytes) :=
  let typ := code &&& 0x7
  if typ = TYPE_SPECIAL then special code mem
  else
    let code := code >>> 3
    if typ = TYPE_PINT then .ok (.number code, mem)
    else if typ = TYPE_NINT then .ok (.number (-(code : Int) - 1), mem)
    else if typ = TYPE_BYTES then do
      let (slice, mem) ← fetchMem code mem
      .ok (.bytes slice.1, mem)
    else if typ = TYPE_STR then do
      let (slice, mem) ← fetchMem code mem
      let s ← toStr slice.1
      .ok (.str s, mem)
    else if typ = TYPE_ARR then do
      let (retArr, mem) ← seqLoop impl code mem
      .ok (.array retArr, mem)
    else if typ = TYPE_MAP then do
      let (retDict, mem) ← mapLoop impl code none [] mem
      .ok (.map retDict, mem)
    else .error (.invalidType typ)

def impl : Nat → Bytes → Except DecodingError (Tree × Bytes)
  | 0, _ => .error .recursion
  | frames + 1, mem => do
    let (code, mem) ← readUleb128 mem 0 0
    dispatch (impl frames) code mem

/-- mirrors runners/genlayer-py-std/src/genlayer/calldata/__init__.py:218-303 -/
def decode (mem : Bytes) : Except DecodingError Tree := do
  let (res, mem) ← impl (mem.length + 1) mem
  if mem.length ≠ 0 then .error .unparsedEnd
  else .ok res

/-! ## Encoding -/

/-- mirrors runners/genlayer-py-std/src/genlayer/calldata/__init__.py:141-151 -/
def appendLoop (i : Nat) : Bytes :=
  if i > 0 then
    let cur := i &&& 0x7f
    let i' := i >>> 7
    let cur := if i' > 0 then cur ||| 0x80 else cur
    UInt8.ofNat cur :: appendLoop i'
  else []
termination_by i
decreasing_by
  simp only [Nat.shiftRight_eq_div_pow]
  omega

def appendUleb128 (i : Nat) : Bytes := (if i = 0 then [0] else []) ++ appendLoop i

/-- The keys in the order of `list.sort`, each with the encoding of its value.
mirrors runners/genlayer-py-std/src/genlayer/calldata/__init__.py:153-166 -/
def implDict (items : List (String × Bytes)) : Bytes :=
  let keys := (items.map (·.1)).mergeSort fun a b => decide (a ≤ b)
  appendUleb128 (keys.length <<< 3 ||| TYPE_MAP) ++
    keys.flatMap fun k =>
      appendUleb128 (Utf8.bytes k).length ++ Utf8.bytes k ++ (items.lookup k).getD []

mutual
/-- mirrors runners/genlayer-py-std/src/genlayer/calldata/__init__.py:168-208 -/
def encode : Tree → Bytes
  | .null => [UInt8.ofNat SPECIAL_NULL]
  | .bool true => [UInt8.ofNat SPECIAL_TRUE]
  | .bool false => [UInt8.ofNat SPECIAL_FALSE]
  | .number b =>
    if b ≥ 0 then appendUleb128 (b.toNat <<< 3 ||| TYPE_PINT)
    else appendUleb128 ((-b - 1).toNat <<< 3 ||| TYPE_NINT)
  | .address a => UInt8.ofNat SPECIAL_ADDR :: a.raw
  | .bytes b => appendUleb128 (b.length <<< 3 ||| TYPE_BYTES) ++ b
  | .str s => appendUleb128 ((Utf8.bytes s).length <<< 3 ||| TYPE_STR) ++ Utf8.bytes s
  | .array xs => appendUleb128 (xs.length <<< 3 ||| TYPE_ARR) ++ encodeList xs
  | .map kvs => implDict (encodeItems kvs)
def encodeList : List Tree → Bytes
  | [] => []
  | x :: xs => encode x ++ encodeList xs
def encodeItems : List (String × Tree) → List (String × Bytes)
  | [] => []
  | (k, x) :: kvs => (k, encode x) :: encodeItems kvs
end

/-! ## What Python accepts -/

/-- `|` puts the new group above the ones read so far. -/
theorem or_shift {a b off : Nat} (h : a < 2 ^ off) : a ||| b <<< off = a + b <<< off := by
  rw [Nat.or_comm, ← Nat.shiftLeft_add_eq_or_of_lt h, Nat.add_comm]

theorem readUleb128_eq (mem : Bytes) : ∀ ret off, ret < 2 ^ off → readUleb128 mem ret off =
    Uleb.read .unexpectedEnd .mostSignificantZero .unexpectedEnd none mem ret off := by
  induction mem with
  | nil => intro ret off _; rfl
  | cons m mem ih =>
    intro ret off h
    have hm : (m &&& 0x7f).toNat < 128 := by rw [Uleb.payload]; omega
    have hlt : ret + (m &&& 0x7f).toNat <<< off < 2 ^ (off + 7) := by
      have hmul : (m &&& 0x7f).toNat * 2 ^ off ≤ 127 * 2 ^ off := Nat.mul_le_mul_right _ (by omega)
      rw [Nat.shiftLeft_eq, Nat.pow_add]; omega
    simp only [readUleb128, Uleb.read, or_shift h, ih _ _ hlt, Option.all_none, if_true]

theorem readUleb128_iff {mem rest : Bytes} {n : Nat} :
    readUleb128 mem 0 0 = .ok (n, rest) ↔ mem = Uleb.encode n ++ rest := by
  rw [readUleb128_eq mem 0 0 (by decide), Uleb.read_iff]
  exact and_iff_left nofun

theorem fetchMem_iff {k : Nat} {mem rest : Bytes} {s : {b : Bytes // b.length = k}} :
    fetchMem k mem = .ok (s, rest) ↔ mem = s.1 ++ rest := by
  rw [← fetchSlice_iff]
  unfold fetchMem fetchSlice
  split <;> simp

theorem toStr_iff {b : Bytes} {s : String} : toStr b = .ok s ↔ b = Utf8.bytes s := by
  unfold toStr
  rw [← Utf8.fromUtf8_eq_some]
  cases Utf8.fromUtf8 b <;> simp

/-- The previous key is below the next one, in either string order. -/
theorem prev_filter {prev : Option String} {k : String} :
    prev.filter (fun p => ¬ p < k) = none ↔ ∀ p, prev = some p → keyLt p k := by
  simp only [keyLt_iff]
  cases prev <;> simp

section
variable {next : Bytes → Except DecodingError (Tree × Bytes)} {P : Tree → Prop}

theorem mapLoop_iff (h : ∀ d v r, next d = .ok (v, r) ↔ d = wire v ++ r ∧ P v) :
    ∀ {n : Nat} {prev : Option String} {acc : List (String × Tree)} {d : Bytes}
      {kvs : List (String × Tree)} {r : Bytes}, UpTo prev acc →
      (mapLoop next n prev acc d = .ok (kvs, r) ↔
        ∃ es, es.length = n ∧ d = wireEntries es ++ r ∧ (∀ e ∈ es, P e.2) ∧
          (SortedMap.Sorted keyLt es ∧ ∀ p, prev = some p → ∀ e ∈ es, keyLt p e.1) ∧ kvs = acc ++ es)
  | 0, prev, acc, d, kvs, r, _ => by
    simp only [mapLoop, Except.ok.injEq, Prod.mk.injEq, List.length_eq_zero_iff]
    constructor
    · rintro ⟨rfl, rfl⟩
      exact ⟨[], rfl, rfl, by simp, ⟨SortedMap.sorted_nil, by simp⟩, (List.append_nil _).symm⟩
    · rintro ⟨es, rfl, rfl, -, -, rfl⟩
      exact ⟨(List.append_nil _).symm, rfl⟩
  | n + 1, prev, acc, d, kvs, r, hacc => by
    -- a key above the previous one is not in the dict yet
    have fresh : ∀ k, (∀ p, prev = some p → keyLt p k) → acc.any (·.1 = k) = false := by
      intro k hk
      rw [List.any_eq_false]
      intro e he
      simp only [decide_eq_true_eq]
      rintro rfl
      exact keyLt_order.irrefl _ (hacc.below hk e he)
    simp only [mapLoop, bind_ok, Prod.exists, readUleb128_iff, fetchMem_iff, toStr_iff]
    constructor
    · rintro ⟨le, d1, rfl, s, d2, rfl, k, hk, hrest⟩
      obtain ⟨s, hs⟩ := s
      dsimp only at hk hs
      subst hk hs
      split at hrest
      · cases hrest
      · next hnone =>
        rw [prev_filter] at hnone
        rw [fresh k hnone, if_neg (by simp)] at hrest
        simp only [bind_ok, Prod.exists, h] at hrest
        obtain ⟨v, d3, ⟨rfl, hP⟩, hloop⟩ := hrest
        rw [mapLoop_iff h (hacc.step hnone v)] at hloop
        obtain ⟨es, rfl, rfl, hall, ⟨hs, hp⟩, rfl⟩ := hloop
        have hlt : ∀ e ∈ es, keyLt k e.1 := hp k rfl
        refine ⟨(k, v) :: es, rfl, ?_, List.forall_mem_cons.mpr ⟨hP, hall⟩,
          ⟨SortedMap.sorted_cons.mpr ⟨hlt, hs⟩, fun p hp' => List.forall_mem_cons.mpr
            ⟨hnone p hp', fun e he => keyLt_order.trans _ _ _ (hnone p hp') (hlt e he)⟩⟩, ?_⟩
        · simp [wireEntries, wireKey]
        · simp
    · rintro ⟨es, hl, rfl, hall, ⟨hs, hp⟩, rfl⟩
      obtain ⟨⟨k, v⟩, es, rfl⟩ := List.exists_cons_of_length_eq_add_one hl
      rw [List.forall_mem_cons] at hall
      rw [SortedMap.sorted_cons] at hs
      have hnone : ∀ p, prev = some p → keyLt p k := fun p hp' => (List.forall_mem_cons.mp (hp p hp')).1
      refine ⟨(Utf8.bytes k).length, Utf8.bytes k ++ (wire v ++ (wireEntries es ++ r)),
        by simp [wireEntries, wireKey], ⟨Utf8.bytes k, rfl⟩, _, rfl, k, rfl, ?_⟩
      rw [prev_filter.mpr hnone]
      dsimp only
      rw [fresh k hnone, if_neg (by simp)]
      simp only [bind_ok, Prod.exists, h]
      refine ⟨v, wireEntries es ++ r, ⟨rfl, hall.1⟩, ?_⟩
      rw [mapLoop_iff h (hacc.step hnone v)]
      refine ⟨es, by simpa using hl, rfl, hall.2, ⟨hs.2, ?_⟩, by simp⟩
      rintro p ⟨⟩
      exact hs.1

/-- The loop from an empty dict. -/
theorem mapLoop_start (h : ∀ d v r, next d = .ok (v, r) ↔ d = wire v ++ r ∧ P v) {n : Nat} {d r : Bytes}
    {kvs : List (String × Tree)} : mapLoop next n none [] d = .ok (kvs, r) ↔
      kvs.length = n ∧ d = wireEntries kvs ++ r ∧ (∀ kv ∈ kvs, P kv.2) ∧ SortedMap.Sorted keyLt kvs := by
  have hempty : UpTo none ([] : List (String × Tree)) := fun e he => absurd he List.not_mem_nil
  rw [mapLoop_iff h hempty]
  constructor
  · rintro ⟨es, hl, hd, hall, ⟨hs, -⟩, rfl⟩; exact ⟨hl, hd, hall, hs⟩
  · intro ⟨hl, hd, hall, hs⟩; exact ⟨kvs, hl, hd, hall, ⟨hs, nofun⟩, rfl⟩

theorem arrLoop_iff (h : ∀ d v r, next d = .ok (v, r) ↔ d = wire v ++ r ∧ P v) {n : Nat} {d r : Bytes}
    {xs : List Tree} : seqLoop next n d = .ok (xs, r) ↔
      xs.length = n ∧ d = wireList xs ++ r ∧ ∀ x ∈ xs, P x := by
  have h' : ∀ d v r, next d = .ok (v, r) ↔ ∃ t, d = wire t ++ r ∧ P t ∧ some t = some v := by
    intro d v r
    rw [h]
    constructor
    · rintro ⟨hd, hP⟩; exact ⟨v, hd, hP, rfl⟩
    · rintro ⟨t, hd, hP, ⟨⟩⟩; exact ⟨hd, hP⟩
  rw [seqLoop_iff h']
  simp only [mapM_some, Option.some.injEq]
  constructor
  · rintro ⟨ts, hl, hd, hP, rfl⟩; exact ⟨hl, hd, hP⟩
  · rintro ⟨hl, hd, hP⟩; exact ⟨xs, hl, hd, hP, rfl⟩

end

theorem typ_eq (n : Nat) : n &&& 0x7 = n % 8 := Nat.and_two_pow_sub_one_eq_mod n 3

theorem code_eq (n : Nat) : n >>> 3 = n / 8 := Nat.shiftRight_eq_div_pow n 3

/-- What a tree needs of its elements, and of its keys, to be read. -/
def Elements (P : Tree → Prop) : Tree → Prop
  | .array xs => ∀ x ∈ xs, P x
  | .map kvs => SortedMap.Sorted keyLt kvs ∧ ∀ kv ∈ kvs, P kv.2
  | _ => True

theorem special_sound {n : Nat} {mem r : Bytes} {v : Tree} (h : special n mem = .ok (v, r)) :
    n = v.event.code ∧ mem = v.event.body ++ v.tail ++ r := by
  unfold special at h
  split at h
  · cases h; exact ⟨by assumption, rfl⟩
  split at h
  · cases h; exact ⟨by assumption, rfl⟩
  split at h
  · cases h; exact ⟨by assumption, rfl⟩
  split at h
  · simp only [bind_ok, Prod.exists, fetchMem_iff] at h
    obtain ⟨a, d, rfl, h⟩ := h
    cases h
    exact ⟨by assumption, by simp [Tree.event, Event.body, Tree.tail]⟩
  · cases h

section
variable {next : Bytes → Except DecodingError (Tree × Bytes)} {P : Tree → Prop}

theorem dispatch_sound (hnext : ∀ d v r, next d = .ok (v, r) ↔ d = wire v ++ r ∧ P v) {n : Nat}
    {mem r : Bytes} {v : Tree} (h : dispatch next n mem = .ok (v, r)) :
    n = v.event.code ∧ mem = v.event.body ++ v.tail ++ r ∧ Elements P v := by
  unfold dispatch at h
  simp only [typ_eq, code_eq] at h
  split at h
  · obtain ⟨h1, h2⟩ := special_sound h
    refine ⟨h1, h2, ?_⟩
    next h0 =>
    rw [h1] at h0
    cases v with
    | array xs => simp only [Tree.event, Event.code, TYPE_ARR, TYPE_SPECIAL] at h0; omega
    | map kvs => simp only [Tree.event, Event.code, TYPE_MAP, TYPE_SPECIAL] at h0; omega
    | _ => trivial
  split at h
  · next ht =>
    cases h
    refine ⟨?_, rfl, trivial⟩
    rw [Tree.event, Event.code, int_code, if_neg (by omega), Int.natAbs_natCast]
    simp only [TYPE_PINT] at ht ⊢; omega
  split at h
  · next ht =>
    cases h
    refine ⟨?_, rfl, trivial⟩
    rw [Tree.event, Event.code, int_code, if_pos (by omega)]
    simp only [TYPE_NINT] at ht ⊢; omega
  split at h
  · next ht =>
    simp only [bind_ok, Prod.exists, fetchMem_iff] at h
    obtain ⟨⟨s, hs⟩, d, rfl, h⟩ := h
    cases h
    refine ⟨?_, by simp [Tree.event, Event.body, Tree.tail], trivial⟩
    simp only [Tree.event, Event.code, TYPE_BYTES] at ht ⊢; omega
  split at h
  · next ht =>
    simp only [bind_ok, Prod.exists, fetchMem_iff, toStr_iff] at h
    obtain ⟨⟨s, hs⟩, d, rfl, a, ha, h⟩ := h
    cases h
    dsimp only at ha
    subst ha
    refine ⟨?_, by simp [Tree.event, Event.body, Tree.tail], trivial⟩
    simp only [Tree.event, Event.code, TYPE_STR] at ht ⊢; omega
  split at h
  · next ht =>
    simp only [bind_ok, Prod.exists, arrLoop_iff hnext] at h
    obtain ⟨xs, d, ⟨hl, rfl, hall⟩, h⟩ := h
    cases h
    refine ⟨?_, rfl, hall⟩
    simp only [Tree.event, Event.code, TYPE_ARR] at ht ⊢; omega
  split at h
  · next ht =>
    simp only [bind_ok, Prod.exists, mapLoop_start hnext] at h
    obtain ⟨kvs, d, ⟨hl, rfl, hall, hs⟩, h⟩ := h
    cases h
    refine ⟨?_, rfl, hs, hall⟩
    simp only [Tree.event, Event.code, TYPE_MAP] at ht ⊢; omega
  · cases h

theorem dispatch_complete (hnext : ∀ d v r, next d = .ok (v, r) ↔ d = wire v ++ r ∧ P v) {v : Tree}
    (hv : Elements P v) (r : Bytes) :
    dispatch next v.event.code (v.event.body ++ v.tail ++ r) = .ok (v, r) := by
  unfold dispatch
  simp only [typ_eq, code_eq]
  cases v with
  | null => rfl
  | bool b => cases b <;> rfl
  | address a =>
    rw [show (Tree.address a).event.code = SPECIAL_ADDR from rfl, if_pos (by decide), special,
      if_neg (by decide), if_neg (by decide), if_neg (by decide), if_pos rfl]
    exact bind_ok.mpr ⟨(⟨a.raw, a.size⟩, r),
      fetchMem_iff.mpr (by simp [Tree.event, Event.body, Tree.tail]), rfl⟩
  | number n =>
    rw [Tree.event, Event.code, int_code]
    by_cases hn : n < 0
    · have he : -((n.natAbs - 1 : Nat) : Int) - 1 = n := by omega
      rw [if_pos hn, TYPE_NINT, mod8 _ 2 (by decide), div8 _ 2 (by decide), if_neg (by decide),
        if_neg (by decide), if_pos (by decide), he]
      rfl
    · have he : ((n.natAbs : Nat) : Int) = n := by omega
      rw [if_neg hn, TYPE_PINT, mod8 _ 1 (by decide), div8 _ 1 (by decide), if_neg (by decide),
        if_pos (by decide), he]
      rfl
  | bytes b =>
    rw [Tree.event, Event.code, TYPE_BYTES, mod8 _ 3 (by decide), div8 _ 3 (by decide),
      if_neg (by decide), if_neg (by decide), if_neg (by decide), if_pos (by decide)]
    exact bind_ok.mpr ⟨(⟨b, by omega⟩, r), fetchMem_iff.mpr (by simp [Event.body, Tree.tail]), rfl⟩
  | str s =>
    rw [Tree.event, Event.code, TYPE_STR, mod8 _ 4 (by decide), div8 _ 4 (by decide),
      if_neg (by decide), if_neg (by decide), if_neg (by decide), if_neg (by decide), if_pos (by decide)]
    refine bind_ok.mpr ⟨(⟨Utf8.bytes s, by omega⟩, r), fetchMem_iff.mpr (by simp [Event.body, Tree.tail]), ?_⟩
    exact bind_ok.mpr ⟨s, toStr_iff.mpr rfl, rfl⟩
  | array xs =>
    rw [Tree.event, Event.code, TYPE_ARR, mod8 _ 5 (by decide), div8 _ 5 (by decide),
      if_neg (by decide), if_neg (by decide), if_neg (by decide), if_neg (by decide), if_neg (by decide),
      if_pos (by decide)]
    exact bind_ok.mpr ⟨(xs, r), (arrLoop_iff hnext).mpr ⟨rfl, rfl, hv⟩, rfl⟩
  | map kvs =>
    rw [Tree.event, Event.code, TYPE_MAP, mod8 _ 6 (by decide), div8 _ 6 (by decide),
      if_neg (by decide), if_neg (by decide), if_neg (by decide), if_neg (by decide), if_neg (by decide),
      if_neg (by decide), if_pos (by decide)]
    exact bind_ok.mpr ⟨(kvs, r), (mapLoop_start hnext).mpr ⟨rfl, rfl, hv.2, hv.1⟩, rfl⟩

end

/-- The trees read within `frames` nested calls. -/
def Runs : Nat → Tree → Prop
  | 0, _ => False
  | frames + 1, t => Elements (Runs frames) t

theorem impl_iff (frames : Nat) : ∀ d v r, impl frames d = .ok (v, r) ↔ d = wire v ++ r ∧ Runs frames v := by
  induction frames with
  | zero => intro d v r; simp [impl, Runs]
  | succ frames ih =>
    intro d v r
    simp only [impl, bind_ok, Prod.exists, readUleb128_iff]
    constructor
    · rintro ⟨n, mem, rfl, h⟩
      obtain ⟨rfl, rfl, he⟩ := dispatch_sound ih h
      refine ⟨?_, he⟩
      rw [wire_eq_event, Event.wire, List.append_assoc, List.append_assoc, List.append_assoc]
    · rintro ⟨rfl, he⟩
      refine ⟨v.event.code, _, ?_, dispatch_complete ih he r⟩
      rw [wire_eq_event, Event.wire, List.append_assoc, List.append_assoc, List.append_assoc]

theorem sorted_of_runs {t : Tree} : ∀ {frames : Nat}, Runs frames t → t.Sorted := by
  induction t using Tree.inductOn with
  | array xs ih =>
    rintro (_ | frames) h
    · exact h.elim
    · exact Tree.sortedList_iff.mpr fun x hx => ih x hx (h x hx)
  | map kvs ih =>
    rintro (_ | frames) h
    · exact h.elim
    · exact ⟨h.1, Tree.sortedEntries_iff.mpr fun kv hkv => ih kv hkv (h.2 kv hkv)⟩
  | _ => exact fun _ => trivial

theorem runs_of_depth {t : Tree} : ∀ {frames : Nat}, t.Sorted → t.depth < frames → Runs frames t := by
  induction t using Tree.inductOn with
  | array xs ih =>
    rintro (_ | frames) hs h
    · exact absurd h (Nat.not_lt_zero _)
    · intro x hx
      have hx' := Tree.depthList_le.mp (le_refl _) x hx
      rw [Tree.depth] at h
      exact ih x hx (Tree.sortedList_iff.mp hs x hx) (by omega)
  | map kvs ih =>
    rintro (_ | frames) hs h
    · exact absurd h (Nat.not_lt_zero _)
    · refine ⟨hs.1, fun kv hkv => ?_⟩
      have hx' := Tree.depthEntries_le.mp (le_refl _) kv hkv
      rw [Tree.depth] at h
      exact ih kv hkv (Tree.sortedEntries_iff.mp hs.2 kv hkv) (by omega)
  | _ =>
    rintro (_ | frames) - h
    · exact absurd h (Nat.not_lt_zero _)
    · exact trivial

/-- **Acceptance.** Python accepts exactly the wire forms of trees with sorted maps. -/
theorem decode_iff {b : Bytes} {v : Tree} : decode b = .ok v ↔ b = wire v ∧ v.Sorted := by
  unfold decode
  simp only [bind_ok, Prod.exists, impl_iff]
  constructor
  · rintro ⟨t, r, ⟨rfl, hr⟩, h⟩
    split at h
    · cases h
    · next h0 =>
      cases h
      obtain rfl : r = [] := List.eq_nil_of_length_eq_zero (not_not.mp h0)
      exact ⟨List.append_nil _, sorted_of_runs hr⟩
  · rintro ⟨rfl, hs⟩
    have hd := depth_le_wire v
    exact ⟨v, [], ⟨(List.append_nil _).symm, runs_of_depth hs (by omega)⟩, by simp⟩

/-! ## What Python writes -/

theorem appendLoop_eq (i : Nat) : 0 < i → appendLoop i = Uleb.encode i := by
  induction i using Nat.strongRecOn with
  | ind i ih =>
    intro hi
    rw [appendLoop, if_pos hi]
    have hcur : i &&& 0x7f = i % 128 := Nat.and_two_pow_sub_one_eq_mod i 7
    simp only [hcur, Nat.shiftRight_eq_div_pow, Nat.reducePow]
    by_cases h : i < 128
    · have h0 : i / 128 = 0 := by omega
      rw [Uleb.encode_small h, h0, if_neg (lt_irrefl 0), Nat.mod_eq_of_lt h, appendLoop,
        if_neg (lt_irrefl 0)]
    · have hor : i % 128 ||| 0x80 = i % 128 + 128 := by
        have := @or_shift (i % 128) 1 7 (by omega)
        simpa using this
      rw [Uleb.encode_big (by omega), if_pos (by omega), hor, ih (i / 128) (by omega) (by omega)]

theorem appendUleb128_eq (i : Nat) : appendUleb128 i = Uleb.encode i := by
  unfold appendUleb128
  by_cases h : i = 0
  · rw [h, Uleb.encode_small (by decide), if_pos rfl, appendLoop, if_neg (lt_irrefl 0)]; rfl
  · rw [if_neg h, List.nil_append, appendLoop_eq i (by omega)]

/-- `(b << 3) | TYPE_X` is the tagged number. -/
theorem append_tagged {n t : Nat} (ht : t < 8) : appendUleb128 (n <<< 3 ||| t) = tagged t n := by
  rw [appendUleb128_eq, tagged, ← Nat.shiftLeft_add_eq_or_of_lt (i := 3) ht, Nat.shiftLeft_eq]

mutual
/-- The keys of every `dict` are distinct. -/
def DistinctKeys : Tree → Prop
  | .array xs => DistinctList xs
  | .map kvs => (kvs.map Prod.fst).Nodup ∧ DistinctItems kvs
  | _ => True
def DistinctList : List Tree → Prop
  | [] => True
  | x :: xs => DistinctKeys x ∧ DistinctList xs
def DistinctItems : List (String × Tree) → Prop
  | [] => True
  | (_, x) :: kvs => DistinctKeys x ∧ DistinctItems kvs
end

/-- A Python value. -/
structure Obj where
  tree : Tree
  distinct : DistinctKeys tree

mutual
/-- The Rust value of a Python value: every `dict` collected into a `BTreeMap`. -/
def toValue : Tree → Tree
  | .array xs => .array (toValueList xs)
  | .map kvs => .map (SortedMap.ofList keyLt (toValueItems kvs))
  | t => t
def toValueList : List Tree → List Tree
  | [] => []
  | x :: xs => toValue x :: toValueList xs
def toValueItems : List (String × Tree) → List (String × Tree)
  | [] => []
  | (k, x) :: kvs => (k, toValue x) :: toValueItems kvs
end

theorem distinctList_iff : ∀ {xs : List Tree}, DistinctList xs ↔ ∀ x ∈ xs, DistinctKeys x
  | [] => by simp [DistinctList]
  | x :: xs => by simp [DistinctList, @distinctList_iff xs]

theorem distinctItems_iff : ∀ {kvs : List (String × Tree)},
    DistinctItems kvs ↔ ∀ kv ∈ kvs, DistinctKeys kv.2
  | [] => by simp [DistinctItems]
  | (k, x) :: kvs => by simp [DistinctItems, @distinctItems_iff kvs]

theorem toValueList_eq : ∀ xs, toValueList xs = xs.map toValue
  | [] => rfl
  | x :: xs => by rw [toValueList, toValueList_eq xs, List.map_cons]

theorem toValueItems_eq : ∀ kvs, toValueItems kvs = kvs.map fun kv => (kv.1, toValue kv.2)
  | [] => rfl
  | (k, x) :: kvs => by rw [toValueItems, toValueItems_eq kvs, List.map_cons]

theorem encodeItems_eq : ∀ kvs, encodeItems kvs = kvs.map fun kv => (kv.1, encode kv.2)
  | [] => rfl
  | (k, x) :: kvs => by rw [encodeItems, encodeItems_eq kvs, List.map_cons]

theorem toValue_sorted (t : Tree) : (toValue t).Sorted := by
  induction t using Tree.inductOn with
  | array xs ih =>
    rw [toValue, toValueList_eq]
    refine Tree.sortedList_iff.mpr fun x hx => ?_
    obtain ⟨y, hy, rfl⟩ := List.mem_map.mp hx
    exact ih y hy
  | map kvs ih =>
    rw [toValue, toValueItems_eq]
    refine ⟨SortedMap.sorted_ofList keyLt_order _, Tree.sortedEntries_iff.mpr fun kv hkv => ?_⟩
    obtain ⟨kv', hkv', rfl⟩ := List.mem_map.mp (SortedMap.mem_ofList hkv)
    exact ih kv' hkv'
  | _ => exact trivial

/-- A value whose maps are in order is its own Rust value. -/
theorem toValue_of_sorted {t : Tree} (h : t.Sorted) : toValue t = t := by
  induction t using Tree.inductOn with
  | array xs ih =>
    rw [toValue, toValueList_eq]
    have hx := Tree.sortedList_iff.mp h
    rw [List.map_congr_left fun x hx' => ih x hx' (hx x hx'), List.map_id']
  | map kvs ih =>
    rw [toValue, toValueItems_eq]
    have hx := Tree.sortedEntries_iff.mp h.2
    have hid : (kvs.map fun kv => (kv.1, toValue kv.2)) = kvs := by
      conv_rhs => rw [← List.map_id' kvs]
      exact List.map_congr_left fun kv hkv => Prod.ext rfl (ih kv hkv (hx kv hkv))
    rw [hid, SortedMap.ofList_sorted keyLt_order h.1]
  | _ => rfl

/-! ### Sorting the keys -/

theorem wireList_eq : ∀ xs, wireList xs = xs.flatMap wire
  | [] => rfl
  | x :: xs => by rw [wireList, wireList_eq xs, List.flatMap_cons]

theorem encodeList_eq : ∀ xs, encodeList xs = xs.flatMap encode
  | [] => rfl
  | x :: xs => by rw [encodeList, encodeList_eq xs, List.flatMap_cons]


theorem wireEntries_eq : ∀ kvs, wireEntries kvs = kvs.flatMap fun kv => wireKey kv.1 ++ wire kv.2
  | [] => rfl
  | (k, x) :: kvs => by rw [wireEntries, wireEntries_eq kvs, List.flatMap_cons, List.append_assoc]

/-- `list.sort` of distinct keys is the key order of the `BTreeMap`. -/
theorem sort_keys {m items : List (String × Tree)} (hs : SortedMap.Sorted keyLt m) (hp : m.Perm items) :
    (items.map Prod.fst).mergeSort (fun a b => decide (a ≤ b)) = m.map Prod.fst := by
  have hsort : (m.map Prod.fst).Pairwise (· ≤ ·) := by
    rw [List.pairwise_map]
    exact hs.imp fun h => le_of_lt ((keyLt_iff _ _).mp h)
  have hmerge : ((items.map Prod.fst).mergeSort (fun a b => decide (a ≤ b))).Pairwise (· ≤ ·) := by
    have := @List.pairwise_mergeSort String (fun a b => decide (a ≤ b))
      (fun a b c hab hbc => by simp only [decide_eq_true_eq] at *; exact le_trans hab hbc)
      (fun a b => by simpa using le_total a b) (items.map Prod.fst)
    simpa using this
  refine List.Perm.eq_of_pairwise (fun a b _ _ => le_antisymm) hmerge hsort ?_
  exact (List.mergeSort_perm _ _).trans (hp.map Prod.fst).symm

/-- Looking a key up among the encoded items. -/
theorem lookup_encoded : ∀ {items : List (String × Bytes)} {k : String} {e : Bytes},
    (items.map Prod.fst).Nodup → (k, e) ∈ items → items.lookup k = some e
  | (k', e') :: items, k, e, hn, h => by
    rw [List.map_cons, List.nodup_cons] at hn
    rcases List.mem_cons.mp h with heq | hmem
    · cases heq; simp [List.lookup]
    · have hkey : k ∈ items.map Prod.fst := List.mem_map_of_mem (f := Prod.fst) hmem
      have hne : k ≠ k' := fun hk => hn.1 (hk ▸ hkey)
      rw [List.lookup_cons, beq_false_of_ne hne]
      exact lookup_encoded hn.2 hmem

theorem implDict_eq {kvs : List (String × Tree)} (hd : (kvs.map Prod.fst).Nodup)
    (he : ∀ kv ∈ kvs, Py.encode kv.2 = wire (toValue kv.2)) :
    implDict (encodeItems kvs) = wire (toValue (.map kvs)) := by
  rw [toValue, toValueItems_eq, encodeItems_eq]
  have hvals : (kvs.map fun kv => (kv.1, toValue kv.2)).map Prod.fst = kvs.map Prod.fst := by simp
  have hencs : (kvs.map fun kv => (kv.1, Py.encode kv.2)).map Prod.fst = kvs.map Prod.fst := by simp
  have hp := SortedMap.ofList_perm keyLt_order (hvals ▸ hd)
  have hs := SortedMap.sorted_ofList keyLt_order (kvs.map fun kv => (kv.1, toValue kv.2))
  generalize SortedMap.ofList keyLt (kvs.map fun kv => (kv.1, toValue kv.2)) = m at hp hs
  have hsort := sort_keys hs hp
  rw [hvals] at hsort
  rw [implDict, hencs, hsort, wire_map, wireEntries_eq, append_tagged (by decide), List.length_map,
    List.flatMap_map]
  have hhead : (Event.map m.length).wire = tagged TYPE_MAP m.length := List.append_nil _
  rw [hhead]
  congr 1
  refine List.flatMap_congr fun kv hkv => ?_
  obtain ⟨kv', hkv', rfl⟩ := List.mem_map.mp (hp.subset hkv)
  have hl := lookup_encoded (hencs ▸ hd) (List.mem_map_of_mem (f := fun kv => (kv.1, Py.encode kv.2)) hkv')
  dsimp only at hl ⊢
  rw [hl, appendUleb128_eq, Option.getD_some, he kv' hkv', wireKey]

/-- **Same bytes.** -/
theorem encode_eq {t : Tree} (h : DistinctKeys t) : Py.encode t = wire (toValue t) := by
  induction t using Tree.inductOn with
  | null => rfl
  | address a => rfl
  | bool b => cases b <;> rfl
  | str s => rw [Py.encode, append_tagged (by decide)]; rfl
  | bytes b => rw [Py.encode, append_tagged (by decide)]; rfl
  | number n =>
    rw [show toValue (.number n) = .number n from rfl, Py.encode, wire, intTag, intPayload]
    by_cases hn : n < 0
    · rw [if_neg (by omega), if_pos hn, if_pos hn, append_tagged (by decide)]
      congr 1; omega
    · rw [if_pos (by omega), if_neg hn, if_neg hn, append_tagged (by decide)]
      congr 1; omega
  | map kvs ih =>
    have hx := distinctItems_iff.mp h.2
    exact implDict_eq h.1 fun kv hkv => ih kv hkv (hx kv hkv)
  | array xs ih =>
    have hx := distinctList_iff.mp h
    rw [Py.encode, toValue, toValueList_eq, wire, append_tagged (by decide), List.length_map]
    rw [encodeList_eq, wireList_eq, List.flatMap_map]
    congr 1
    exact List.flatMap_congr fun x hx' => ih x hx' (hx x hx')

/-! ## The codecs agree -/

theorem key_le_wireEntries {kv : String × Tree} : ∀ {kvs : List (String × Tree)}, kv ∈ kvs →
    (Utf8.bytes kv.1).length ≤ (wireEntries kvs).length
  | (k, y) :: kvs, h => by
    rw [wireEntries, wireKey, List.length_append, List.length_append, List.length_append]
    rcases List.mem_cons.mp h with rfl | h
    · dsimp only; omega
    · have := key_le_wireEntries h; omega

/-- Nothing below `2 ^ 32` bytes has a size out of bounds. -/
theorem fits_of_length {t : Tree} (h : (wire t).length < 2 ^ 32) : t.Fits := by
  induction t using Tree.inductOn with
  | null | address | bool => trivial
  | str s => rw [wire, List.length_append] at h; show _ < _; omega
  | bytes b => rw [wire, List.length_append] at h; show _ < _; omega
  | number n =>
    refine shift_groups.mpr ?_
    rw [wire] at h
    unfold NUMBER_GROUPS; omega
  | map kvs ih =>
    rw [wire_map, List.length_append] at h
    have hl := length_le_wireEntries kvs
    refine ⟨show _ < _ by omega, Tree.withinEntries_iff.mpr fun kv hkv => ⟨?_, ih kv hkv ?_⟩⟩
    · have := key_le_wireEntries hkv
      show _ < _; omega
    · have := wire_le_wireEntries hkv; omega
  | array xs ih =>
    rw [wire_array, List.length_append] at h
    have hl := length_le_wireList xs
    refine ⟨show _ < _ by omega, Tree.withinList_iff.mpr fun x hx => ih x hx ?_⟩
    have := wire_le_wireList hx; omega

/-- **The codecs agree.** Rust accepts what Python accepts, up to its nesting
limit and with the corresponding value, and both write the same bytes. -/
theorem codecs_agree (b : Bytes) (hb : b.length < 2 ^ 32) (v : Tree) (o : Obj) :
    (Calldata.decode b = .ok v ↔ ∃ p, Py.decode b = .ok p ∧ toValue p = v ∧ v.depth ≤ 128) ∧
    (toValue o.tree).Sorted ∧ Calldata.encode (toValue o.tree) = Py.encode o.tree := by
  refine ⟨?_, toValue_sorted _, by rw [encode_eq_wire, encode_eq o.distinct]⟩
  rw [Calldata.decode_iff]
  simp only [decode_iff]
  constructor
  · rintro ⟨rfl, hok⟩
    exact ⟨v, ⟨rfl, hok.sorted⟩, toValue_of_sorted hok.sorted, hok.depth⟩
  · rintro ⟨p, ⟨rfl, hs⟩, rfl, hd⟩
    rw [toValue_of_sorted hs] at hd ⊢
    exact ⟨rfl, hd, hs, fits_of_length hb⟩

/-- `{"b": 1, "a": None}` is written in key order. -/
theorem codecs_agree_pair :
    (Calldata.decode [0] = .ok .null ↔ ∃ p, Py.decode [0] = .ok p ∧ toValue p = .null ∧
      Tree.depth .null ≤ 128) ∧
    (toValue (.map [("b", .number 1), ("a", .null)])).Sorted ∧
    Calldata.encode (toValue (.map [("b", .number 1), ("a", .null)])) =
      Py.encode (.map [("b", .number 1), ("a", .null)]) :=
  codecs_agree [0] (by decide) .null ⟨.map [("b", .number 1), ("a", .null)], by
    refine ⟨by decide, trivial, trivial, trivial⟩⟩

end GenVM.Py
