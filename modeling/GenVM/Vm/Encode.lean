import GenVM.Calldata.RoundTrip
import GenVM.Vm.Execution

/-!
# Encoding values of the executor (`calldata/src/codec/se.rs`, `calldata-derive/src/encode.rs`)

An `Encode` implementation is the bytes it appends. The derived one of a struct
writes a map whose keys were sorted when the macro ran.

`Readable b bytes` says that a reader inside `128 - b` containers takes the
bytes as one value; there is a rule for each shape. What is a value of its own
(`IsWire`) is readable just when its parts are.
-/
namespace GenVM.Vm
open GenVM.Lib GenVM.Calldata GenVM.Calldata.Encoder
open GenVM.Fees (U256_BOUND)

/-! ## Shapes -/

/-- mirrors executor/crates/calldata/src/codec/se.rs:146-156 -/
def encode_vec {α : Type} (elem : α → Bytes) (xs : List α) : Bytes :=
  startArray xs.length ++ xs.flatMap elem

/-- A `BTreeMap`, or the fields of a struct in the order of their names.
mirrors executor/crates/calldata/src/codec/se.rs:158-171, calldata-derive/src/encode.rs:106-152 -/
def encode_entries (fields : List (String × Bytes)) : Bytes :=
  startMap fields.length ++ fields.flatMap fun f => pushMapK f.1 ++ f.2

/-- mirrors executor/crates/calldata/src/codec/se.rs:173-182 -/
def encode_option {α : Type} (elem : α → Bytes) : Option α → Bytes
  | some x => elem x
  | none => pushNull

/-- mirrors executor/crates/calldata/src/codec/se.rs:230-238 -/
def encode_u256 (n : Nat) : Bytes := pushBigint n

/-! ## Readable bytes -/

/-- The bytes of one value, acceptable or not. -/
def IsWire (bytes : Bytes) : Prop := ∃ t, bytes = wire t

def Readable (budget : Nat) (bytes : Bytes) : Prop := ∃ t, bytes = wire t ∧ t.Ok budget

theorem Readable.isWire {b : Nat} {bytes : Bytes} (h : Readable b bytes) : IsWire bytes := by
  obtain ⟨t, ht, -⟩ := h
  exact ⟨t, ht⟩

theorem readable_wire {b : Nat} {t : Tree} : Readable b (wire t) ↔ t.Ok b := by
  constructor
  · intro h
    obtain ⟨t', ht, hok⟩ := h
    obtain rfl := wire_inj ht
    exact hok
  · exact fun h => ⟨t, rfl, h⟩

/-- A scalar nests nothing. -/
theorem readable_scalar {b : Nat} {t : Tree} (hd : t.depth = 0) (hs : t.Sorted) :
    Readable b (wire t) ↔ t.Fits := by
  rw [readable_wire]
  exact ⟨fun h => h.fits, fun h => ⟨hd ▸ Nat.zero_le b, hs, h⟩⟩

theorem pushBytes_wire (x : Bytes) : pushBytes x = wire (.bytes x) := by
  rw [pushBytes, writeUlebTaggedU64_eq]
  rfl

theorem pushStr_wire (s : String) : pushStr s = wire (.str s) := by
  rw [pushStr, writeUlebTaggedU64_eq]
  rfl

theorem encode_u256_wire (n : Nat) : encode_u256 n = wire (.number n) := by
  rw [encode_u256, pushBigint_eq]
  rfl

theorem pushU64_wire (n : Nat) : pushU64 n = wire (.number n) := by
  rw [pushU64, writeUlebTaggedU64_eq, wire]
  unfold intTag intPayload
  rw [if_neg (by omega), if_neg (by omega), Int.natAbs_natCast]

theorem readable_bytes {b : Nat} {x : Bytes} : Readable b (pushBytes x) ↔ SizeFits x.length := by
  rw [pushBytes_wire]
  exact readable_scalar rfl trivial

theorem readable_str {b : Nat} {s : String} :
    Readable b (pushStr s) ↔ SizeFits (Utf8.bytes s).length := by
  rw [pushStr_wire]
  exact readable_scalar rfl trivial

theorem readable_null {b : Nat} : Readable b pushNull :=
  ⟨.null, rfl, Nat.zero_le b, trivial, trivial⟩

theorem readable_address {b : Nat} (a : Address) : Readable b (pushAddress a) :=
  ⟨.address a, rfl, Nat.zero_le b, trivial, trivial⟩

/-- A `U256` takes 38 groups at most. -/
theorem numFits_u256 {n : Nat} (h : n < U256_BOUND) : NumFits n := by
  refine numFits_iff.mpr (lt_of_lt_of_le ?_ (Nat.pow_le_pow_right (by decide)
    (show 7 * 38 ≤ 7 * NUMBER_GROUPS by unfold NUMBER_GROUPS; omega)))
  have hb : n < 2 ^ 256 := h
  rw [int_code, if_neg (by omega), Int.natAbs_natCast]
  unfold TYPE_PINT
  omega

theorem readable_u256 {b n : Nat} (h : n < U256_BOUND) : Readable b (encode_u256 n) := by
  rw [encode_u256_wire]
  exact (readable_scalar (t := .number n) rfl trivial).mpr (numFits_u256 h)

theorem readable_u64 {b n : Nat} (h : n < 2 ^ 64) : Readable b (pushU64 n) := by
  rw [pushU64_wire]
  exact (readable_scalar (t := .number n) rfl trivial).mpr
    (numFits_u256 (lt_trans h (by unfold U256_BOUND; decide)))

/-! ## Arrays and maps -/

theorem wires {α : Type} {elem : α → Bytes} : ∀ {xs : List α}, (∀ x ∈ xs, IsWire (elem x)) →
    ∃ ts : List Tree, ts.map wire = xs.map elem
  | [], _ => ⟨[], rfl⟩
  | x :: xs, h => by
    obtain ⟨t, ht⟩ := h x List.mem_cons_self
    have htail : ∀ y ∈ xs, IsWire (elem y) := fun y hy => h y (List.mem_cons_of_mem _ hy)
    obtain ⟨ts, hts⟩ := wires htail
    exact ⟨t :: ts, by rw [List.map_cons, List.map_cons, hts, ht]⟩

theorem wireList_flatten (ts : List Tree) : wireList ts = (ts.map wire).flatten := by
  induction ts with
  | nil => rfl
  | cons t ts ih => rw [List.map_cons, List.flatten_cons, ← ih, wireList]

theorem vec_wire {α : Type} {elem : α → Bytes} {xs : List α} {ts : List Tree}
    (h : ts.map wire = xs.map elem) : encode_vec elem xs = wire (.array ts) := by
  have hl : ts.length = xs.length := by simpa using congrArg List.length h
  rw [encode_vec, startArray, writeUlebTaggedU64_eq, wire, hl, wireList_flatten, h,
    List.flatMap_def]

theorem isWire_vec {α : Type} {elem : α → Bytes} {xs : List α} (h : ∀ x ∈ xs, IsWire (elem x)) :
    IsWire (encode_vec elem xs) := by
  obtain ⟨ts, hts⟩ := wires h
  exact ⟨_, vec_wire hts⟩

theorem readable_vec {α : Type} {elem : α → Bytes} {xs : List α} {b : Nat}
    (h : ∀ x ∈ xs, IsWire (elem x)) : Readable b (encode_vec elem xs) ↔
      0 < b ∧ SizeFits xs.length ∧ ∀ x ∈ xs, Readable (b - 1) (elem x) := by
  obtain ⟨ts, hts⟩ := wires h
  have hl : ts.length = xs.length := by simpa using congrArg List.length hts
  have hall : (∀ t ∈ ts, t.Ok (b - 1)) ↔ ∀ x ∈ xs, Readable (b - 1) (elem x) := by
    rw [← List.forall_mem_map (f := elem) (P := Readable (b - 1)), ← hts, List.forall_mem_map]
    simp only [readable_wire]
  rw [vec_wire hts, readable_wire, Tree.ok_array, hl, hall]

theorem wires_map : ∀ {fields : List (String × Bytes)}, (∀ f ∈ fields, IsWire f.2) →
    ∃ kvs : List (String × Tree), kvs.map (fun kv => (kv.1, wire kv.2)) = fields
  | [], _ => ⟨[], rfl⟩
  | (k, x) :: fields, h => by
    obtain ⟨t, ht⟩ := h (k, x) List.mem_cons_self
    obtain ⟨kvs, hkvs⟩ := wires_map fun y hy => h y (List.mem_cons_of_mem _ hy)
    exact ⟨(k, t) :: kvs, by rw [List.map_cons, hkvs, ← ht]⟩

theorem map_wire (kvs : List (String × Tree)) :
    encode_entries (kvs.map fun kv => (kv.1, wire kv.2)) = wire (.map kvs) := by
  have he : ∀ lvs : List (String × Tree),
      ((lvs.map fun kv => (kv.1, wire kv.2)).flatMap fun f => pushMapK f.1 ++ f.2) =
        wireEntries lvs := by
    intro lvs
    induction lvs with
    | nil => rfl
    | cons kv lvs ih =>
      rw [List.map_cons, List.flatMap_cons, ih, wireEntries, pushMapK, writeUlebU64_eq, wireKey,
        List.append_assoc]
  rw [encode_entries, he, List.length_map, startMap, writeUlebTaggedU64_eq, wire]

theorem isWire_map {fields : List (String × Bytes)} (h : ∀ f ∈ fields, IsWire f.2) :
    IsWire (encode_entries fields) := by
  obtain ⟨kvs, rfl⟩ := wires_map h
  exact ⟨_, map_wire kvs⟩

theorem readable_map {fields : List (String × Bytes)} {b : Nat} (h : ∀ f ∈ fields, IsWire f.2) :
    Readable b (encode_entries fields) ↔ 0 < b ∧ SizeFits fields.length ∧
      SortedMap.Sorted keyLt fields ∧
      ∀ f ∈ fields, SizeFits (Utf8.bytes f.1).length ∧ Readable (b - 1) f.2 := by
  obtain ⟨kvs, rfl⟩ := wires_map h
  rw [map_wire, readable_wire, Tree.ok_map, List.length_map, List.forall_mem_map]
  simp only [readable_wire, Tree.EntryOk, SortedMap.Sorted, List.pairwise_map]

/-- The names of a struct: in order, and short. -/
def WellNamed (names : List String) : Prop :=
  names.length < 2 ^ 32 ∧ names.Pairwise keyLt ∧ ∀ name ∈ names, (Utf8.bytes name).length < 2 ^ 32

instance : DecidablePred WellNamed := fun names => by unfold WellNamed; infer_instance

/-- A struct is readable when its fields are. -/
theorem readable_struct {fields : List (String × Bytes)} {b : Nat} (names : List String)
    (hn : WellNamed names) (hf : fields.map Prod.fst = names) (h : ∀ f ∈ fields, IsWire f.2) :
    Readable b (encode_entries fields) ↔ 0 < b ∧ ∀ f ∈ fields, Readable (b - 1) f.2 := by
  subst hf
  obtain ⟨hl, hp, hs⟩ := hn
  rw [List.length_map] at hl
  rw [List.pairwise_map] at hp
  rw [List.forall_mem_map] at hs
  rw [readable_map h]
  constructor
  · intro hr
    exact ⟨hr.1, fun f hf => (hr.2.2.2 f hf).2⟩
  · intro hr
    exact ⟨hr.1, hl, hp, fun f hf => ⟨hs f hf, hr.2 f hf⟩⟩

end GenVM.Vm
