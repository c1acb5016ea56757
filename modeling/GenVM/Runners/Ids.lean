import GenVM.Sdk.Gvm32
import GenVM.Vm.Types

/-!
# Runner ids (`executor/src/runners/mod.rs`, `executor/src/rt/supervisor/actions.rs`)

A runner id is a text; parsed and resolved it names a packaged runner, a slot of
a contract or a registered archive. `canonical` writes it back, and that text is
the key of the archive cache. A text is a list of characters.

Results: `canonical_ids`.
-/
namespace GenVM.RunnerIds
open GenVM.Lib GenVM.Calldata
open GenVM.Store (SlotID)
open GenVM.Vm (ChainState StorageType)

/-! ## Texts -/

/-- `str::strip_prefix` -/
def strip_prefix (pat s : List Char) : Option (List Char) :=
  if pat <+: s then some (s.drop pat.length) else none

/-- `str::split(':')`, which has at least one part. -/
def split : List Char → List (List Char)
  | [] => [[]]
  | c :: cs =>
    if c = ':' then [] :: split cs
    else (split cs).modifyHead (c :: ·)

/-- `str::split_once(':')` -/
def split_once : List Char → Option (List Char × List Char)
  | [] => none
  | c :: cs => if c = ':' then some ([], cs) else (split_once cs).map fun p => (c :: p.1, p.2)

/-- mirrors executor/src/runners/mod.rs:159-161 -/
def is_hash_char (c : Char) : Bool := c.isAlphanum || c = '-' || c = '_' || c = '='

def is_name_char (c : Char) : Bool := c.isAlphanum || c = '-' || c = '_'

/-- A hex digit of either case, of the `hex` crate. -/
def hex_val (c : UInt8) : Option Nat :=
  if 48 ≤ c ∧ c ≤ 57 then some (c.toNat - 48)
  else if 65 ≤ c ∧ c ≤ 70 then some (c.toNat - 55)
  else if 97 ≤ c ∧ c ≤ 102 then some (c.toNat - 87)
  else none

/-- `hex::decode_to_slice` of two digits a byte -/
def hex_decode : List UInt8 → Option Bytes
  | [] => some []
  | [_] => none
  | hi :: lo :: rest => do
    let h ← hex_val hi
    let l ← hex_val lo
    let out ← hex_decode rest
    some (UInt8.ofNat (h * 16 + l) :: out)

/-- `s.as_bytes()` -/
def as_bytes (s : List Char) : List UInt8 := s.flatMap String.utf8EncodeChar

/-- mirrors executor/src/runners/mod.rs:163-171 -/
def parse_hex_fixed (N : Nat) (s : List Char) : Option Bytes := do
  let s ← strip_prefix ['0', 'x'] s
  if (as_bytes s).length ≠ N * 2 then none else hex_decode (as_bytes s)

/-! ## Hashes and addresses -/

/-- mirrors executor/crates/common/src/bytes32.rs:20-27 -/
@[ext]
structure Bytes32Hash where
  raw : Bytes
  size : raw.length = 32

instance instDecidableEqBytes32Hash : DecidableEq Bytes32Hash := fun _ _ =>
  decidable_of_iff _ Bytes32Hash.ext_iff.symm

/-- mirrors executor/crates/common/src/bytes32.rs:45-47 -/
def Bytes32Hash.to_gvm32 (hash : Bytes32Hash) : List Char := Gvm32.Rust.encode hash.raw

/-- mirrors executor/crates/common/src/bytes32.rs:66-71 -/
inductive FromGvm32Error where
  | InvalidEncoding (e : Gvm32.Rust.DecodeError)
  | WrongLength (got : Nat)

/-- mirrors executor/crates/common/src/bytes32.rs:54-61 -/
def Bytes32Hash.from_gvm32 (s : List Char) : Except FromGvm32Error Bytes32Hash :=
  match Gvm32.Rust.decode s with
  | .error e => .error (.InvalidEncoding e)
  | .ok bytes => if h : bytes.length = 32 then .ok ⟨bytes, h⟩ else .error (.WrongLength bytes.length)

/-- `HEX` -/
def HEX : List UInt8 := [48, 49, 50, 51, 52, 53, 54, 55, 56, 57, 97, 98, 99, 100, 101, 102]

def hex_digits (b : UInt8) : List UInt8 :=
  [HEX.getD (b >>> 4).toNat 0, HEX.getD (b &&& 0x0f).toNat 0]

section
-- `Keccak256::digest`; nothing is assumed of it
variable (keccak : Bytes → Bytes)

/-- The hash nibble of a digit. -/
def nibble (hash : Bytes) (i : Nat) : UInt8 :=
  (hash.getD (i / 2) 0 >>> (if i % 2 = 0 then 4 else 0)) &&& 0x0f

/-- A digit, upper-cased when it is a letter and its hash nibble is 8 or more. -/
def checked (hash : Bytes) (i : Nat) (c : UInt8) : UInt8 :=
  if 97 ≤ c ∧ c ≤ 122 ∨ 65 ≤ c ∧ c ≤ 90 then
    if 8 ≤ nibble hash i then (if 97 ≤ c ∧ c ≤ 122 then c - 32 else c) else c
  else c

/-- mirrors executor/crates/calldata/src/types.rs:42-64 -/
def checksum_hex (a : Address) : List UInt8 :=
  let out := a.raw.flatMap hex_digits
  let hash := keccak out
  out.mapIdx (checked hash)

/-- mirrors executor/crates/calldata/src/types.rs:67-69 -/
def checksum_hex_string (a : Address) : List Char :=
  (checksum_hex keccak a).map fun b => Char.ofNat b.toNat

/-! ## Ids -/

/-- mirrors executor/src/runners/mod.rs:76-91 -/
inductive IdUnresolved where
  | Builtin (name hash : List Char)
  | Contract
  | Chain (address : Address) (on : Option ChainState) (slot : Option SlotID)
  | Custom (hash : List Char)

/-- mirrors executor/src/runners/mod.rs:93-106 -/
inductive Id where
  | Builtin (name : List Char) (hash : Bytes32Hash)
  | Chain (address : Address) (on : ChainState) (slot : SlotID)
  | Custom (hash : Bytes32Hash)

/-- mirrors executor/src/runners/mod.rs:53-59 -/
def canonical_char : ChainState → Char
  | .Accepted => 'a'
  | .Finalized => 'f'
  | .Deploy => 'd'

/-- mirrors executor/src/runners/mod.rs:45-51 -/
def host_storage_type : ChainState → Option StorageType
  | .Accepted => some .LatestNonFinal
  | .Finalized => some .LatestFinal
  | .Deploy => none

def CONTRACT : List Char := ['c', 'o', 'n', 't', 'r', 'a', 'c', 't']
def CHAIN : List Char := ['c', 'h', 'a', 'i', 'n']
def CUSTOM : List Char := ['c', 'u', 's', 't', 'o', 'm']
def TEST : List Char := ['t', 'e', 's', 't']
def LATEST : List Char := ['l', 'a', 't', 'e', 's', 't']

/-- mirrors executor/src/runners/mod.rs:130-150 -/
def Id.canonical : Id → List Char
  | .Builtin name hash => name ++ ':' :: hash.to_gvm32
  | .Chain address on slot =>
    CHAIN ++ ':' :: ('0' :: 'x' :: checksum_hex_string keccak address ++
      ':' :: canonical_char on :: ':' :: Gvm32.Rust.encode slot.raw)
  | .Custom hash => CUSTOM ++ ':' :: hash.to_gvm32

/-- `gvm32::decode(s).ok()?.try_into().ok()?` -/
def parse_slot (s : List Char) : Option SlotID :=
  match Gvm32.Rust.decode s with
  | .error _ => none
  | .ok bytes => if h : bytes.length = 32 then some ⟨bytes, h⟩ else none

def parse_address (s : List Char) : Option Address :=
  match parse_hex_fixed 20 s with
  | none => none
  | some raw => if h : raw.length = ADDRESS_SIZE then some ⟨raw, h⟩ else none

/-- mirrors executor/src/runners/mod.rs:188-192 -/
def parse_on : Option (List Char) → Option ChainState
  | none => some .Accepted
  | some ['a'] => some .Accepted
  | some ['f'] => some .Finalized
  | some _ => none

/-- mirrors executor/src/runners/mod.rs:193-199 -/
def parse_slot_part : Option (List Char) → Option (Option SlotID)
  | some s => (parse_slot s).map some
  | none => some none

/-- mirrors executor/src/runners/mod.rs:178-201 -/
def parse_chain (rest : List Char) : Option IdUnresolved :=
  match split rest with
  | [] => none
  | address :: parts =>
    if 2 < parts.length then none
    else do
      let address ← parse_address address
      let on ← parse_on parts[0]?
      let slot ← parse_slot_part parts[1]?
      some (.Chain address (some on) slot)

/-- mirrors executor/src/runners/mod.rs:213-230 -/
def parse_builtin (id : List Char) : Option IdUnresolved := do
  let (name, hash) ← split_once id
  if name = [] ∨ hash = [] then none
  else if ¬ name.all is_name_char then none
  else if ¬ hash.all is_hash_char then none
  else some (.Builtin name hash)

/-- mirrors executor/src/runners/mod.rs:173-230 -/
def parse_runner_id (id : List Char) : Option IdUnresolved :=
  if id = CONTRACT then some .Contract
  else
    match strip_prefix (CHAIN ++ [':']) id with
    | some rest => parse_chain rest
    | none =>
      match strip_prefix (CUSTOM ++ [':']) id with
      | some rest => if rest = [] ∨ ¬ rest.all is_hash_char then none else some (.Custom rest)
      | none => parse_builtin id

/-! ## Resolving -/

/-- What is fixed when the node starts: the debug mode and the registry. -/
structure Registry where
  allows_latest_resolution : Bool
  get_latest : List Char → Option (List Char)
  has_in_all : List Char → List Char → Bool

inductive ResolveError (ε : Type) where
  /-- the id has not the expected format, or is not allowed or known -/
  | malformed
  | hash (text : List Char) (e : FromGvm32Error)
  | custom_hash (text : List Char) (e : FromGvm32Error)
  | deploy_state
  | not_found (name hash : List Char)
  | code_slot (e : ε)

variable {ε : Type}

/-- `resolve_code_slot` of the storage of an account at a state: it reads the host. -/
abbrev CodeSlots (ε : Type) := Address → StorageType → Except ε SlotID

/-- mirrors executor/src/rt/supervisor/actions.rs:114-141 -/
def resolve_hash (reg : Registry) (name hash : List Char) : Except (ResolveError ε) Bytes32Hash :=
  if hash = TEST ∨ hash = LATEST then
    if ¬ reg.allows_latest_resolution then .error .malformed
    else
      match reg.get_latest name with
      | none => .error .malformed
      | some new_latest => (Bytes32Hash.from_gvm32 new_latest).mapError (.hash new_latest)
  else (Bytes32Hash.from_gvm32 hash).mapError (.hash hash)

/-- mirrors executor/src/rt/supervisor/actions.rs:151-181 -/
def resolve_slot (code_slots : CodeSlots ε) (address : Address) (on : ChainState) :
    Option SlotID → Except (ResolveError ε) SlotID
  | some s => .ok s
  | none =>
    match host_storage_type on with
    | none => .error .deploy_state
    | some mode => (code_slots address mode).mapError .code_slot

/-- mirrors executor/src/rt/supervisor/actions.rs:100-193 -/
def resolve_runner_id (reg : Registry) (code_slots : CodeSlots ε) (topmost_runner_id : Id)
    (id : List Char) : Except (ResolveError ε) Id :=
  match parse_runner_id id with
  | none => .error .malformed
  | some .Contract => .ok topmost_runner_id
  | some (.Builtin name hash) => do
    let hash ← resolve_hash reg name hash
    if ¬ reg.has_in_all name hash.to_gvm32 then .error (.not_found name hash.to_gvm32)
    else .ok (.Builtin name hash)
  | some (.Chain address on slot) => do
    let on := on.getD .Accepted
    let slot ← resolve_slot code_slots address on slot
    .ok (.Chain address on slot)
  | some (.Custom hash) => do
    let hash ← (Bytes32Hash.from_gvm32 hash).mapError (.custom_hash hash)
    .ok (.Custom hash)

/-- An id that a run can have: the contract it starts with or calls, and whatever is
resolved from there, at any time. -/
inductive Resolved (ε : Type) (reg : Registry) : Id → Prop where
  | contract (address : Address) (on : ChainState) (slot : SlotID) :
    Resolved ε reg (.Chain address on slot)
  | resolve {topmost id : Id} {text : List Char} {code_slots : CodeSlots ε} :
    Resolved ε reg topmost → resolve_runner_id reg code_slots topmost text = .ok id →
      Resolved ε reg id

/-- The name of a packaged runner is one that the parser lets through. -/
def Id.PassesParser : Id → Prop
  | .Builtin name _ => ∃ text hash, parse_runner_id text = some (.Builtin name hash)
  | _ => True

/-! ## Cutting at colons -/

theorem split_once_append {a b : List Char} (h : ':' ∉ a) :
    split_once (a ++ ':' :: b) = some (a, b) := by
  induction a with
  | nil => rfl
  | cons c a ih =>
    rw [List.mem_cons, not_or] at h
    rw [List.cons_append, split_once, if_neg (Ne.symm h.1), ih h.2]
    rfl

theorem split_once_eq {s a b : List Char} (h : split_once s = some (a, b)) :
    s = a ++ ':' :: b ∧ ':' ∉ a := by
  induction s generalizing a with
  | nil => cases h
  | cons c s ih =>
    rw [split_once] at h
    by_cases hc : c = ':'
    · rw [if_pos hc] at h
      obtain ⟨rfl, rfl⟩ := Prod.mk.inj (Option.some.inj h)
      exact ⟨by rw [hc]; rfl, List.not_mem_nil⟩
    · rw [if_neg hc] at h
      obtain ⟨⟨a', b'⟩, hs, he⟩ := Option.map_eq_some_iff.mp h
      obtain ⟨rfl, rfl⟩ := Prod.mk.inj he
      obtain ⟨rfl, hmem⟩ := ih hs
      exact ⟨rfl, fun h' => (List.mem_cons.mp h').elim (fun he => hc he.symm) hmem⟩

/-- A text is cut at its first colon in one way. -/
theorem cut_inj {a b a' b' : List Char} (h : ':' ∉ a) (h' : ':' ∉ a')
    (he : a ++ ':' :: b = a' ++ ':' :: b') : a = a' ∧ b = b' := by
  have hs := split_once_append (b := b) h
  rw [he, split_once_append h'] at hs
  obtain ⟨h1, h2⟩ := Prod.mk.inj (Option.some.inj hs)
  exact ⟨h1.symm, h2.symm⟩

theorem split_of_not_mem {a : List Char} (h : ':' ∉ a) : split a = [a] := by
  induction a with
  | nil => rfl
  | cons c a ih =>
    rw [List.mem_cons, not_or] at h
    rw [split, if_neg (Ne.symm h.1), ih h.2]
    rfl

theorem split_append {a b : List Char} (h : ':' ∉ a) : split (a ++ ':' :: b) = a :: split b := by
  induction a with
  | nil => rfl
  | cons c a ih =>
    rw [List.mem_cons, not_or] at h
    rw [List.cons_append, split, if_neg (Ne.symm h.1), ih h.2]
    rfl

theorem strip_prefix_append (pat s : List Char) : strip_prefix pat (pat ++ s) = some s := by
  unfold strip_prefix
  rw [if_pos (List.prefix_append pat s), List.drop_left]

/-- A word before the first colon is stripped only if it is the one asked for. -/
theorem strip_prefix_word {pat word rest : List Char} (hp : ':' ∉ pat) (hw : ':' ∉ word)
    (hne : word ≠ pat) : strip_prefix (pat ++ [':']) (word ++ ':' :: rest) = none := by
  refine if_neg fun h => hne ?_
  obtain ⟨t, ht⟩ := h
  rw [List.append_assoc, List.singleton_append] at ht
  exact (cut_inj hp hw ht).1.symm

/-! ## Hashes -/

theorem symbol_hash_char : ∀ i : Fin 32, is_hash_char (Gvm32.symbol i) = true ∧
    Gvm32.symbol i ≠ ':' := by decide

theorem mem_encode {b : Bytes} {c : Char} (h : c ∈ Gvm32.Rust.encode b) :
    is_hash_char c = true ∧ c ≠ ':' := by
  obtain ⟨ds, pad, hs, hp⟩ := Gvm32.Rust.encode_encoded b
  rw [hs] at h
  obtain ⟨d, hd, rfl⟩ := List.mem_map.mp h
  exact symbol_hash_char ⟨d, hp.digits d hd⟩

theorem colon_not_mem_encode (b : Bytes) : ':' ∉ Gvm32.Rust.encode b :=
  fun h => (mem_encode h).2 rfl

theorem from_gvm32_to_gvm32 (hash : Bytes32Hash) :
    Bytes32Hash.from_gvm32 hash.to_gvm32 = .ok hash := by
  unfold Bytes32Hash.from_gvm32 Bytes32Hash.to_gvm32
  rw [(Gvm32.encode_canonical hash.raw).2.1]
  exact dif_pos hash.size

theorem parse_slot_encode (slot : SlotID) : parse_slot (Gvm32.Rust.encode slot.raw) = some slot := by
  unfold parse_slot
  rw [(Gvm32.encode_canonical slot.raw).2.1]
  exact dif_pos slot.size

theorem encode_inj {b b' : Bytes} (h : Gvm32.Rust.encode b = Gvm32.Rust.encode b') : b = b' := by
  have hd := (Gvm32.encode_canonical b).2.1
  rw [h, (Gvm32.encode_canonical b').2.1] at hd
  exact (Except.ok.inj hd).symm

theorem to_gvm32_inj {h h' : Bytes32Hash} (he : h.to_gvm32 = h'.to_gvm32) : h = h' := by
  have := encode_inj he
  cases h
  cases h'
  cases this
  rfl

/-- A text that does not decode to 32 bytes is not that of a hash. -/
theorem to_gvm32_ne {s : List Char} (hash : Bytes32Hash)
    (h : ∀ bytes, Gvm32.Rust.decode s = .ok bytes → bytes.length ≠ 32) : hash.to_gvm32 ≠ s := by
  rintro rfl
  exact h hash.raw (Gvm32.encode_canonical hash.raw).2.1 hash.size

theorem to_gvm32_ne_nil (hash : Bytes32Hash) : hash.to_gvm32 ≠ [] := by
  refine to_gvm32_ne hash fun bytes hb => ?_
  obtain rfl := Except.ok.inj hb
  decide

/-- The two tags do not decode. -/
theorem decode_tag : (Gvm32.Rust.decode TEST).toOption = none ∧
    (Gvm32.Rust.decode LATEST).toOption = none := by decide +kernel

theorem to_gvm32_no_tag (hash : Bytes32Hash) : ¬ (hash.to_gvm32 = TEST ∨ hash.to_gvm32 = LATEST) := by
  rintro (h | h)
  · refine to_gvm32_ne hash (fun bytes hb => ?_) h
    have := decode_tag.1
    rw [hb] at this
    cases this
  · refine to_gvm32_ne hash (fun bytes hb => ?_) h
    have := decode_tag.2
    rw [hb] at this
    cases this

/-! ## Addresses -/

theorem hex_val_upper : ∀ n : Fin 256, (97 ≤ UInt8.ofNat n ∧ UInt8.ofNat n ≤ 122) →
    hex_val (UInt8.ofNat n - 32) = hex_val (UInt8.ofNat n) := by decide +kernel

theorem uint8_cases {P : UInt8 → Prop} (h : ∀ n : Fin 256, P (UInt8.ofNat n)) (b : UInt8) : P b := by
  have hb := h ⟨b.toNat, b.toNat_lt⟩
  rwa [show UInt8.ofNat (⟨b.toNat, b.toNat_lt⟩ : Fin 256) = b from UInt8.ofNat_toNat] at hb

/-- The case of a letter does not change what it stands for. -/
theorem hex_val_checked (hash : Bytes) (i : Nat) (c : UInt8) :
    hex_val (checked hash i c) = hex_val c := by
  unfold checked
  split
  · split
    · split
      · next hlower => exact uint8_cases (P := fun c => (97 ≤ c ∧ c ≤ 122) →
          hex_val (c - 32) = hex_val c) hex_val_upper c hlower
      · rfl
    · rfl
  · rfl

theorem hex_val_digits : ∀ n : Fin 256, ∃ hi lo,
    hex_digits (UInt8.ofNat n) = [hi, lo] ∧ hex_val hi = some (n / 16) ∧ hex_val lo = some (n % 16) := by
  intro n
  refine ⟨_, _, rfl, ?_⟩
  revert n
  decide +kernel

theorem hex_digits_val (b : UInt8) : ∃ hi lo, hex_digits b = [hi, lo] ∧
    hex_val hi = some (b.toNat / 16) ∧ hex_val lo = some (b.toNat % 16) := by
  have h := hex_val_digits ⟨b.toNat, b.toNat_lt⟩
  rwa [show UInt8.ofNat (⟨b.toNat, b.toNat_lt⟩ : Fin 256) = b from UInt8.ofNat_toNat] at h

theorem hex_decode_digits : ∀ (raw : Bytes) (f : Nat → UInt8 → UInt8),
    (∀ i c, hex_val (f i c) = hex_val c) →
    hex_decode ((raw.flatMap hex_digits).mapIdx f) = some raw ∧
      ∀ b ∈ (raw.flatMap hex_digits).mapIdx f, (hex_val b).isSome
  | [], _, _ => ⟨rfl, fun _ h => absurd h List.not_mem_nil⟩
  | b :: raw, f, hf => by
    obtain ⟨hi, lo, hd, hhi, hlo⟩ := hex_digits_val b
    obtain ⟨hdec, hsome⟩ := hex_decode_digits raw (fun i => f (i + 1 + 1)) fun i c => hf _ c
    have hlist : ((b :: raw).flatMap hex_digits).mapIdx f =
        f 0 hi :: f 1 lo :: (raw.flatMap hex_digits).mapIdx fun i => f (i + 1 + 1) := by
      rw [List.flatMap_cons, hd, List.cons_append, List.cons_append, List.nil_append,
        List.mapIdx_cons, List.mapIdx_cons]
    rw [hlist]
    constructor
    · rw [hex_decode, hf, hf, hhi, hlo, hdec]
      show some (UInt8.ofNat (b.toNat / 16 * 16 + b.toNat % 16) :: raw) = some (b :: raw)
      rw [Nat.div_add_mod', UInt8.ofNat_toNat]
    · rw [List.forall_mem_cons, List.forall_mem_cons]
      exact ⟨by rw [hf, hhi]; rfl, by rw [hf, hlo]; rfl, hsome⟩

theorem hex_val_ascii : ∀ n : Fin 256, (hex_val (UInt8.ofNat n)).isSome →
    n.1 < 128 ∧ UInt8.ofNat n ≠ 58 := by decide +kernel

/-- Bytes below 128, read as characters and back. -/
theorem as_bytes_ascii {bs : List UInt8} (h : ∀ b ∈ bs, (hex_val b).isSome) :
    as_bytes (bs.map fun b => Char.ofNat b.toNat) = bs ∧
      ':' ∉ bs.map fun b => Char.ofNat b.toNat := by
  induction bs with
  | nil => exact ⟨rfl, List.not_mem_nil⟩
  | cons b bs ih =>
    rw [List.forall_mem_cons] at h
    obtain ⟨ihb, ihc⟩ := ih h.2
    have hb := hex_val_ascii ⟨b.toNat, b.toNat_lt⟩
    rw [show UInt8.ofNat (⟨b.toNat, b.toNat_lt⟩ : Fin 256) = b from UInt8.ofNat_toNat] at hb
    obtain ⟨hlt, hcolon⟩ := hb h.1
    have hlt : b.toNat < 128 := hlt
    have hchar : (Char.ofNat b.toNat).toNat = b.toNat := by
      rw [Char.toNat_ofNat, if_pos (Or.inl (by omega))]
    unfold as_bytes at ihb ⊢
    rw [List.map_cons, List.flatMap_cons, ihb, Gvm32.utf8_ascii (by omega), hchar]
    refine ⟨?_, ?_⟩
    · show b.toNat.toUInt8 :: bs = b :: bs
      rw [show b.toNat.toUInt8 = b from UInt8.ofNat_toNat]
    · rw [List.mem_cons, not_or]
      refine ⟨fun he => hcolon ?_, ihc⟩
      rw [← he] at hchar
      exact UInt8.toNat_inj.mp hchar.symm

theorem checksum_hex_spec (a : Address) : hex_decode (checksum_hex keccak a) = some a.raw ∧
    ∀ b ∈ checksum_hex keccak a, (hex_val b).isSome :=
  hex_decode_digits a.raw _ fun i c => hex_val_checked _ i c

theorem length_checksum_hex (a : Address) : (checksum_hex keccak a).length = 40 := by
  unfold checksum_hex
  have hlen : ∀ raw : Bytes, (raw.flatMap hex_digits).length = 2 * raw.length := by
    intro raw
    induction raw with
    | nil => rfl
    | cons b raw ih =>
      rw [List.flatMap_cons, List.length_append, ih, List.length_cons]
      show 2 + 2 * raw.length = 2 * (raw.length + 1)
      omega
  rw [List.length_mapIdx, hlen, a.size]
  rfl

theorem parse_address_checksum (a : Address) :
    parse_address ('0' :: 'x' :: checksum_hex_string keccak a) = some a := by
  obtain ⟨hdec, hsome⟩ := checksum_hex_spec keccak a
  have hfixed : parse_hex_fixed 20 ('0' :: 'x' :: checksum_hex_string keccak a) = some a.raw := by
    unfold parse_hex_fixed
    rw [show '0' :: 'x' :: checksum_hex_string keccak a = ['0', 'x'] ++ checksum_hex_string keccak a
      from rfl, strip_prefix_append]
    unfold checksum_hex_string
    rw [Option.bind_eq_bind, Option.bind_some, (as_bytes_ascii hsome).1,
      if_neg (not_not_intro (length_checksum_hex keccak a)), hdec]
  unfold parse_address
  rw [hfixed]
  exact dif_pos a.size

theorem colon_not_mem_checksum (a : Address) : ':' ∉ '0' :: 'x' :: checksum_hex_string keccak a := by
  rw [List.mem_cons, List.mem_cons, not_or, not_or]
  exact ⟨by decide, by decide, (as_bytes_ascii (checksum_hex_spec keccak a).2).2⟩

/-! ## Parsing what was written -/

theorem parse_builtin_ok {id name hash : List Char}
    (h : parse_builtin id = some (.Builtin name hash)) :
    split_once id = some (name, hash) ∧ name ≠ [] ∧ hash ≠ [] ∧ name.all is_name_char ∧
      hash.all is_hash_char := by
  unfold parse_builtin at h
  obtain ⟨⟨n, x⟩, hs, h⟩ := Option.bind_eq_some_iff.mp h
  dsimp only at h
  by_cases h1 : n = [] ∨ x = []
  · rw [if_pos h1] at h
    cases h
  · rw [if_neg h1] at h
    by_cases h2 : n.all is_name_char
    · rw [if_neg (not_not_intro h2)] at h
      by_cases h3 : x.all is_hash_char
      · rw [if_neg (not_not_intro h3)] at h
        cases h
        exact ⟨hs, fun e => h1 (Or.inl e), fun e => h1 (Or.inr e), h2, h3⟩
      · rw [if_pos h3] at h
        cases h
    · rw [if_pos h2] at h
      cases h

theorem parse_chain_ok {rest : List Char} {u : IdUnresolved} (h : parse_chain rest = some u) :
    ∃ address on slot, u = .Chain address on slot := by
  unfold parse_chain at h
  split at h
  · cases h
  · split at h
    · cases h
    · obtain ⟨address, -, h⟩ := Option.bind_eq_some_iff.mp h
      obtain ⟨on, -, h⟩ := Option.bind_eq_some_iff.mp h
      obtain ⟨slot, -, h⟩ := Option.bind_eq_some_iff.mp h
      exact ⟨address, some on, slot, (Option.some.inj h).symm⟩

theorem colon_not_name_char {name : List Char} (h : name.all is_name_char) : ':' ∉ name :=
  fun hm => absurd (List.all_eq_true.mp h _ hm) (by decide)

/-- The names that the parser lets through. -/
structure GoodName (name : List Char) : Prop where
  ne_nil : name ≠ []
  chars : name.all is_name_char
  ne_chain : name ≠ CHAIN
  ne_custom : name ≠ CUSTOM

theorem good_name {text name hash : List Char}
    (h : parse_runner_id text = some (.Builtin name hash)) : GoodName name := by
  unfold parse_runner_id at h
  by_cases hc : text = CONTRACT
  · rw [if_pos hc] at h
    cases h
  · rw [if_neg hc] at h
    cases h1 : strip_prefix (CHAIN ++ [':']) text with
    | some rest =>
      rw [h1] at h
      obtain ⟨_, _, _, hu⟩ := parse_chain_ok h
      cases hu
    | none =>
      rw [h1] at h
      cases h2 : strip_prefix (CUSTOM ++ [':']) text with
      | some rest =>
        rw [h2] at h
        dsimp only at h
        split at h <;> cases h
      | none =>
        rw [h2] at h
        obtain ⟨hs, hne, -, hchars, -⟩ := parse_builtin_ok h
        obtain ⟨rfl, hcolon⟩ := split_once_eq hs
        refine ⟨hne, hchars, ?_, ?_⟩
        · -- a text that begins with `chain:` is parsed as a chain id
          rintro rfl
          rw [show CHAIN ++ ':' :: hash = (CHAIN ++ [':']) ++ hash by
            rw [List.append_assoc]; rfl, strip_prefix_append] at h1
          cases h1
        · rintro rfl
          rw [show CUSTOM ++ ':' :: hash = (CUSTOM ++ [':']) ++ hash by
            rw [List.append_assoc]; rfl, strip_prefix_append] at h2
          cases h2

theorem word_ne_contract {word rest : List Char} : word ++ ':' :: rest ≠ CONTRACT := by
  intro h
  have hm : ':' ∈ word ++ ':' :: rest := List.mem_append_right _ (List.mem_cons_self ..)
  rw [h] at hm
  exact absurd hm (by decide)

theorem all_hash_char (b : Bytes) : (Gvm32.Rust.encode b).all is_hash_char :=
  List.all_eq_true.mpr fun _ hc => (mem_encode hc).1

theorem parse_canonical_builtin {name : List Char} (h : GoodName name) (hash : Bytes32Hash) :
    parse_runner_id (Id.canonical keccak (.Builtin name hash)) =
      some (.Builtin name hash.to_gvm32) := by
  have hcolon := colon_not_name_char h.chars
  have hall : hash.to_gvm32.all is_hash_char := all_hash_char hash.raw
  show parse_runner_id (name ++ ':' :: hash.to_gvm32) = _
  unfold parse_runner_id
  rw [if_neg word_ne_contract, strip_prefix_word (by decide) hcolon h.ne_chain]
  dsimp only
  rw [strip_prefix_word (by decide) hcolon h.ne_custom]
  dsimp only
  unfold parse_builtin
  rw [split_once_append hcolon, Option.bind_eq_bind, Option.bind_some]
  dsimp only
  rw [if_neg (fun he => he.elim h.ne_nil (to_gvm32_ne_nil hash)), if_neg (not_not_intro h.chars),
    if_neg (not_not_intro hall)]

theorem parse_canonical_custom (hash : Bytes32Hash) :
    parse_runner_id (Id.canonical keccak (.Custom hash)) = some (.Custom hash.to_gvm32) := by
  show parse_runner_id (CUSTOM ++ ':' :: hash.to_gvm32) = _
  unfold parse_runner_id
  rw [if_neg word_ne_contract, strip_prefix_word (by decide) (by decide) (by decide)]
  dsimp only
  rw [show CUSTOM ++ ':' :: hash.to_gvm32 = (CUSTOM ++ [':']) ++ hash.to_gvm32 by
    rw [List.append_assoc]; rfl, strip_prefix_append]
  refine if_neg fun h => h.elim (to_gvm32_ne_nil hash) fun h => h (all_hash_char hash.raw)

theorem parse_canonical_chain (address : Address) {on : ChainState} (hon : on ≠ .Deploy)
    (slot : SlotID) : parse_runner_id (Id.canonical keccak (.Chain address on slot)) =
      some (.Chain address (some on) (some slot)) := by
  have hon' : parse_on (some [canonical_char on]) = some on := by
    cases on with
    | Accepted => rfl
    | Finalized => rfl
    | Deploy => exact absurd rfl hon
  have hchar : ':' ∉ [canonical_char on] := by
    cases on <;> decide
  show parse_runner_id (CHAIN ++ ':' :: ('0' :: 'x' :: checksum_hex_string keccak address ++
    ':' :: canonical_char on :: ':' :: Gvm32.Rust.encode slot.raw)) = _
  unfold parse_runner_id
  rw [if_neg word_ne_contract]
  generalize htail : '0' :: 'x' :: checksum_hex_string keccak address ++
    ':' :: canonical_char on :: ':' :: Gvm32.Rust.encode slot.raw = tail
  rw [show CHAIN ++ ':' :: tail = (CHAIN ++ [':']) ++ tail by rw [List.append_assoc]; rfl,
    strip_prefix_append]
  dsimp only
  have hsplit : split tail = ['0' :: 'x' :: checksum_hex_string keccak address,
      [canonical_char on], Gvm32.Rust.encode slot.raw] := by
    rw [← htail, split_append (colon_not_mem_checksum keccak address),
      show canonical_char on :: ':' :: Gvm32.Rust.encode slot.raw =
        [canonical_char on] ++ ':' :: Gvm32.Rust.encode slot.raw from rfl,
      split_append hchar, split_of_not_mem (colon_not_mem_encode slot.raw)]
  unfold parse_chain
  rw [hsplit]
  dsimp only
  rw [if_neg (show ¬ 2 < [[canonical_char on], Gvm32.Rust.encode slot.raw].length from
    Nat.lt_irrefl 2), parse_address_checksum]
  show ((parse_on (some [canonical_char on])).bind fun on =>
    (parse_slot_part (some (Gvm32.Rust.encode slot.raw))).bind fun slot =>
      some (IdUnresolved.Chain address (some on) slot)) = _
  rw [hon', parse_slot_part, parse_slot_encode]
  rfl

/-! ## Resolving what was written -/

/-- What holds of every id of a run. -/
def Known (reg : Registry) : Id → Prop
  | .Builtin name hash => GoodName name ∧ reg.has_in_all name hash.to_gvm32 = true
  | _ => True

theorem resolve_known {reg : Registry} {code_slots : CodeSlots ε} {topmost id : Id}
    {text : List Char} (htop : Known reg topmost)
    (h : resolve_runner_id reg code_slots topmost text = .ok id) : Known reg id := by
  unfold resolve_runner_id at h
  cases hp : parse_runner_id text with
  | none =>
    rw [hp] at h
    cases h
  | some u =>
    rw [hp] at h
    cases u with
    | Contract => exact Except.ok.inj h ▸ htop
    | Builtin name hash =>
      obtain ⟨hash', -, h⟩ := Except.bind_ok.mp h
      by_cases hall : reg.has_in_all name hash'.to_gvm32
      · rw [if_neg (not_not_intro hall)] at h
        obtain rfl := Except.ok.inj h
        exact ⟨good_name hp, hall⟩
      · rw [if_pos hall] at h
        cases h
    | Chain address on slot =>
      obtain ⟨slot', -, h⟩ := Except.bind_ok.mp h
      exact Except.ok.inj h ▸ trivial
    | Custom hash =>
      obtain ⟨hash', -, h⟩ := Except.bind_ok.mp h
      exact Except.ok.inj h ▸ trivial

theorem Resolved.known {reg : Registry} {id : Id} (h : Resolved ε reg id) : Known reg id := by
  induction h with
  | contract address on slot => trivial
  | resolve _ h ih => exact resolve_known ih h

theorem Resolved.passes {reg : Registry} {id : Id} (h : Resolved ε reg id) : id.PassesParser := by
  have hk := h.known
  cases id with
  | Builtin name hash =>
    exact ⟨_, _, parse_canonical_builtin (fun b => b) hk.1 hash⟩
  | Chain address on slot => trivial
  | Custom hash => trivial

/-- The canonical text of a known id resolves to it, whatever the topmost runner. -/
theorem resolve_canonical {reg : Registry} {id : Id} (hk : Known reg id)
    (hd : ∀ address slot, id ≠ .Chain address .Deploy slot) (code_slots : CodeSlots ε)
    (topmost : Id) : resolve_runner_id reg code_slots topmost (id.canonical keccak) = .ok id := by
  unfold resolve_runner_id
  cases id with
  | Builtin name hash =>
    rw [parse_canonical_builtin keccak hk.1]
    dsimp only
    have hhash : resolve_hash (ε := ε) reg name hash.to_gvm32 = .ok hash := by
      unfold resolve_hash
      rw [if_neg (to_gvm32_no_tag hash), from_gvm32_to_gvm32]
      rfl
    rw [hhash, Except.ok_bind, if_neg (not_not_intro hk.2)]
  | Chain address on slot =>
    rw [parse_canonical_chain keccak address (fun he => hd address slot (by rw [he]))]
    rfl
  | Custom hash =>
    rw [parse_canonical_custom]
    dsimp only
    rw [from_gvm32_to_gvm32]
    rfl

/-! ## One text, one id -/

/-- The word before the first colon. -/
def Id.word : Id → List Char
  | .Builtin name _ => name
  | .Chain _ _ _ => CHAIN
  | .Custom _ => CUSTOM

def Id.rest : Id → List Char
  | .Builtin _ hash => hash.to_gvm32
  | .Chain address on slot => '0' :: 'x' :: checksum_hex_string keccak address ++
      ':' :: canonical_char on :: ':' :: Gvm32.Rust.encode slot.raw
  | .Custom hash => hash.to_gvm32

theorem canonical_eq (id : Id) : id.canonical keccak = id.word ++ ':' :: id.rest keccak := by
  cases id <;> rfl

theorem PassesParser.good {name : List Char} {hash : Bytes32Hash}
    (h : (Id.Builtin name hash).PassesParser) : GoodName name :=
  let ⟨_, _, hp⟩ := h
  good_name hp

theorem colon_not_mem_word {id : Id} (h : id.PassesParser) : ':' ∉ id.word := by
  cases id with
  | Builtin name hash => exact colon_not_name_char (PassesParser.good h).chars
  | Chain address on slot => exact show ':' ∉ CHAIN by decide
  | Custom hash => exact show ':' ∉ CUSTOM by decide

theorem chain_rest_inj {address address' : Address} {on on' : ChainState} {slot slot' : SlotID}
    (h : (Id.Chain address on slot).rest keccak = (Id.Chain address' on' slot').rest keccak) :
    Id.Chain address on slot = Id.Chain address' on' slot' := by
  obtain ⟨haddr, h⟩ := cut_inj (colon_not_mem_checksum keccak address)
    (colon_not_mem_checksum keccak address') h
  obtain ⟨hon, h⟩ := List.cons.inj h
  have hslot := encode_inj (List.cons.inj h).2
  have haddress : address = address' := by
    have hp := parse_address_checksum keccak address
    rw [haddr, parse_address_checksum] at hp
    exact (Option.some.inj hp).symm
  have hon : on = on' := by
    revert hon
    cases on <;> cases on' <;> decide
  have hslot : slot = slot' := by
    cases slot
    cases slot'
    cases hslot
    rfl
  rw [haddress, hon, hslot]

/-- `canonical` is injective. -/
theorem canonical_inj {a b : Id} (ha : a.PassesParser) (hb : b.PassesParser)
    (h : a.canonical keccak = b.canonical keccak) : a = b := by
  rw [canonical_eq, canonical_eq] at h
  obtain ⟨hword, hrest⟩ := cut_inj (colon_not_mem_word ha) (colon_not_mem_word hb) h
  cases a with
  | Builtin name hash =>
    cases b with
    | Builtin name' hash' =>
      have hname : name = name' := hword
      rw [hname, to_gvm32_inj hrest]
    | Chain address on slot => exact absurd hword (PassesParser.good ha).ne_chain
    | Custom hash' => exact absurd hword (PassesParser.good ha).ne_custom
  | Chain address on slot =>
    cases b with
    | Builtin name hash => exact absurd hword.symm (PassesParser.good hb).ne_chain
    | Chain address' on' slot' => exact chain_rest_inj keccak hrest
    | Custom hash => exact absurd hword (show CHAIN ≠ CUSTOM by decide)
  | Custom hash =>
    cases b with
    | Builtin name hash' => exact absurd hword.symm (PassesParser.good hb).ne_custom
    | Chain address on slot => exact absurd hword (show CUSTOM ≠ CHAIN by decide)
    | Custom hash' => rw [to_gvm32_inj hrest]

/-- **Canonical ids.** They tell ids apart; two spellings in one context have the same
exactly when they resolve to the same id; and that of an id of a run, other than of a
contract being deployed, resolves to it in every context. -/
theorem canonical_ids (reg : Registry) :
    (∀ a b : Id, a.PassesParser → b.PassesParser →
      (a.canonical keccak = b.canonical keccak ↔ a = b)) ∧
    (∀ (code_slots : CodeSlots ε) (topmost : Id), Resolved ε reg topmost → ∀ s1 s2 id1 id2,
      resolve_runner_id reg code_slots topmost s1 = .ok id1 →
      resolve_runner_id reg code_slots topmost s2 = .ok id2 →
      (id1.canonical keccak = id2.canonical keccak ↔ id1 = id2)) ∧
    (∀ id : Id, Resolved ε reg id → (∀ address slot, id ≠ .Chain address .Deploy slot) →
      ∀ (code_slots : CodeSlots ε) (topmost : Id),
        resolve_runner_id reg code_slots topmost (id.canonical keccak) = .ok id) := by
  refine ⟨?_, ?_, ?_⟩
  · intro a b ha hb
    exact ⟨canonical_inj keccak ha hb, fun h => by rw [h]⟩
  · intro code_slots topmost htop s1 s2 id1 id2 h1 h2
    exact ⟨canonical_inj keccak (htop.resolve h1).passes (htop.resolve h2).passes,
      fun h => by rw [h]⟩
  · intro id hid hd code_slots topmost
    exact resolve_canonical keccak hid.known hd code_slots topmost

end

/-- `py`, packaged with a hash of zeros. -/
def packaged : Id := .Builtin ['p', 'y'] ⟨List.replicate 32 0, Calldata.length_zeros_32⟩

/-- A registry with every runner in it. -/
def full : Registry := ⟨false, fun _ => none, fun _ _ => true⟩

theorem packaged_known : Known full packaged :=
  ⟨⟨by decide, by decide, by decide, by decide⟩, rfl⟩

theorem canonical_ids_packaged :
    resolve_runner_id full (fun _ _ => Except.error ()) (.Custom ⟨List.replicate 32 1, rfl⟩)
      (packaged.canonical id) = .ok packaged :=
  (canonical_ids (ε := Unit) id full).2.2 packaged
    ((Resolved.contract ⟨List.replicate 20 0, rfl⟩ .Accepted SlotID.ZERO).resolve
      (resolve_canonical id packaged_known (fun _ _ h => Id.noConfusion h)
        (fun _ _ => Except.error ()) _))
    (fun _ _ h => Id.noConfusion h) _ _

end GenVM.RunnerIds
