import GenVM.Py.Calldata

/-!
# Encoding Python objects (`genlayer-py-std/src/genlayer/calldata/__init__.py`)

`encode` takes more than what `decode` returns: dataclasses, objects with a
`__to_calldata__`, any sequence and mapping, every buffer. An object is the first
of the kinds of `Object` it is an instance of, in the order in which `impl` asks;
what else a dataclass or a convertible object is, is its `face`.

What is accepted round-trips to the plain value it stands for exactly when no
`memoryview` is among what is encoded (`encode_round_trip_iff`).
-/
namespace GenVM.Py
open GenVM.Lib GenVM.Lib.Except GenVM.Calldata

/-- A text is nothing when it has a lone surrogate, a key also when it is no
`str`. An object whose conversion raises is one of `other`. -/
inductive Object where
  | none
  | bool (b : Bool)
  | int (n : Int)
  | address (a : Address)
  /-- `bytes` or `bytearray` -/
  | bytes (b : Bytes)
  /-- `tolist` has an item for each element, which is nothing when they are not all
  integers of one byte -/
  | memoryview (raw : Bytes) (tolist : Option {items : Bytes // items.length ≤ raw.length})
  | str (s : Option String)
  | sequence (xs : List Object)
  | mapping (kvs : List (Option String × Object))
  | dataclass (fields : List (String × Object)) (face : Object)
  | dataclassType
  | encodable (to_calldata : Object) (face : Object)
  | other

namespace Object

mutual
/-- A mapping has no key twice, a dataclass no field. -/
def WF : Object → Prop
  | .sequence xs => WFList xs
  | .mapping kvs => (kvs.filterMap Prod.fst).Nodup ∧ WFItems kvs
  | .dataclass fields face => (fields.map Prod.fst).Nodup ∧ WFFields fields ∧ WF face
  | .encodable to_calldata face => WF to_calldata ∧ WF face
  | _ => True
def WFList : List Object → Prop
  | [] => True
  | x :: xs => WF x ∧ WFList xs
def WFItems : List (Option String × Object) → Prop
  | [] => True
  | (_, x) :: kvs => WF x ∧ WFItems kvs
def WFFields : List (String × Object) → Prop
  | [] => True
  | (_, x) :: kvs => WF x ∧ WFFields kvs
end

mutual
/-- `impl`, which raises where there is no value: from `default(b)` on, or, when
not `convert`, from the tests on what the conversions left.
mirrors runners/genlayer-py-std/src/genlayer/calldata/__init__.py:116-123, 153-208 -/
def impl : Object → Bool → Option Bytes
  | .none, _ => some (Py.encode .null)
  | .bool b, _ => some (Py.encode (.bool b))
  | .int n, _ => some (Py.encode (.number n))
  | .address a, _ => some (Py.encode (.address a))
  | .bytes b, _ => some (Py.encode (.bytes b))
  -- no tag and no length
  | .memoryview _ tolist, _ => tolist.map (·.1)
  | .str s, _ => s.map fun s => Py.encode (.str s)
  | .sequence xs, _ => do
    let body ← implList xs
    some (appendUleb128 (xs.length <<< 3 ||| TYPE_ARR) ++ body)
  | .mapping kvs, _ => do some (implDict (← implItems kvs))
  | .dataclass fields _, true => do some (implDict (← implFields fields))
  | .dataclass _ face, false => impl face false
  | .dataclassType, _ => .none
  | .encodable to_calldata _, true => impl to_calldata false
  | .encodable _ face, false => impl face false
  | .other, _ => .none
def implList : List Object → Option Bytes
  | [] => some []
  | x :: xs => do
    let b ← impl x true
    let body ← implList xs
    some (b ++ body)
def implItems : List (Option String × Object) → Option (List (String × Bytes))
  | [] => some []
  | (k, x) :: kvs => do
    let k ← k
    let b ← impl x true
    let items ← implItems kvs
    some ((k, b) :: items)
def implFields : List (String × Object) → Option (List (String × Bytes))
  | [] => some []
  | (k, x) :: fields => do
    let b ← impl x true
    let items ← implFields fields
    some ((k, b) :: items)
end

/-- mirrors runners/genlayer-py-std/src/genlayer/calldata/__init__.py:126-211 -/
def encode (x : Object) : Option Bytes := impl x true

mutual
/-- The plain value an object stands for: buffers as `bytes`, sequences as `list`,
dataclasses as their field map, convertible objects as what they convert to. -/
def plain : Object → Bool → Option Tree
  | .none, _ => some .null
  | .bool b, _ => some (.bool b)
  | .int n, _ => some (.number n)
  | .address a, _ => some (.address a)
  | .bytes b, _ => some (.bytes b)
  | .memoryview raw _, _ => some (.bytes raw)
  | .str s, _ => s.map .str
  | .sequence xs, _ => (plainList xs).map .array
  | .mapping kvs, _ => (plainItems kvs).map .map
  | .dataclass fields _, true => (plainFields fields).map .map
  | .dataclass _ face, false => plain face false
  | .dataclassType, _ => .none
  | .encodable to_calldata _, true => plain to_calldata false
  | .encodable _ face, false => plain face false
  | .other, _ => .none
def plainList : List Object → Option (List Tree)
  | [] => some []
  | x :: xs => do
    let t ← plain x true
    let ts ← plainList xs
    some (t :: ts)
def plainItems : List (Option String × Object) → Option (List (String × Tree))
  | [] => some []
  | (k, x) :: kvs => do
    let k ← k
    let t ← plain x true
    let ts ← plainItems kvs
    some ((k, t) :: ts)
def plainFields : List (String × Object) → Option (List (String × Tree))
  | [] => some []
  | (k, x) :: fields => do
    let t ← plain x true
    let ts ← plainFields fields
    some ((k, t) :: ts)
end

mutual
/-- A `memoryview` is among what is encoded. -/
def hasView : Object → Bool → Bool
  | .memoryview _ _, _ => true
  | .sequence xs, _ => hasViewList xs
  | .mapping kvs, _ => hasViewItems kvs
  | .dataclass fields _, true => hasViewFields fields
  | .dataclass _ face, false => hasView face false
  | .encodable to_calldata _, true => hasView to_calldata false
  | .encodable _ face, false => hasView face false
  | _, _ => false
def hasViewList : List Object → Bool
  | [] => false
  | x :: xs => hasView x true || hasViewList xs
def hasViewItems : List (Option String × Object) → Bool
  | [] => false
  | (_, x) :: kvs => hasView x true || hasViewItems kvs
def hasViewFields : List (String × Object) → Bool
  | [] => false
  | (_, x) :: fields => hasView x true || hasViewFields fields
end

/-! ## How far an encoding is from the plain one -/

/-- `b` is what the plain value is encoded to, or, with a view, it is shorter. -/
def Close (b plain : Bytes) (view : Bool) : Prop :=
  if view then b.length < plain.length else b = plain

theorem Close.le {b p : Bytes} {v : Bool} (h : Close b p v) : b.length ≤ p.length := by
  cases v with
  | true => exact Nat.le_of_lt h
  | false => exact Nat.le_of_eq (congrArg List.length h)

theorem Close.append {b p b' p' : Bytes} {v v' : Bool} (h : Close b p v) (h' : Close b' p' v') :
    Close (b ++ b') (p ++ p') (v || v') := by
  have hle := h.le
  have hle' := h'.le
  cases v with
  | true =>
    have hlt : b.length < p.length := h
    show (b ++ b').length < (p ++ p').length
    rw [List.length_append, List.length_append]
    omega
  | false =>
    obtain rfl : b = p := h
    cases v' with
    | true =>
      have hlt : b'.length < p'.length := h'
      show (b ++ b').length < (b ++ p').length
      rw [List.length_append, List.length_append]
      omega
    | false =>
      obtain rfl : b' = p' := h'
      rfl

theorem Close.head {b p : Bytes} {v : Bool} (h : Close b p v) (head : Bytes) :
    Close (head ++ b) (head ++ p) v := by
  have hhead : Close head head false := rfl
  exact hhead.append h

/-- Items under the same keys, each close to the encoding of its plain value. -/
inductive CloseItems : List (String × Bytes) → List (String × Tree) → Bool → Prop
  | nil : CloseItems [] [] false
  | cons {k : String} {b : Bytes} {t : Tree} {items : List (String × Bytes)}
      {ts : List (String × Tree)} {v v' : Bool} : Close b (Py.encode t) v →
      CloseItems items ts v' → CloseItems ((k, b) :: items) ((k, t) :: ts) (v || v')

theorem CloseItems.keys {items : List (String × Bytes)} {ts : List (String × Tree)} {v : Bool}
    (h : CloseItems items ts v) : items.map Prod.fst = ts.map Prod.fst := by
  induction h with
  | nil => rfl
  | cons _ _ ih => rw [List.map_cons, List.map_cons, ih]

theorem CloseItems.eq {items : List (String × Bytes)} {ts : List (String × Tree)}
    (h : CloseItems items ts false) : items = encodeItems ts := by
  generalize hv : false = v at h
  induction h with
  | nil => rfl
  | @cons k b t items ts v v' hb _ ih =>
    obtain ⟨rfl, rfl⟩ := Bool.or_eq_false_iff.mp hv.symm
    obtain rfl : b = Py.encode t := hb
    rw [encodeItems, ← ih rfl]

/-- How long the value under a key is. -/
def lengthAt (items : List (String × Bytes)) (k : String) : Nat := ((items.lookup k).getD []).length

theorem lengthAt_cons (k k' : String) (b : Bytes) (items : List (String × Bytes)) :
    lengthAt ((k, b) :: items) k' = if k' = k then b.length else lengthAt items k' := by
  unfold lengthAt
  rw [SortedMap.lookup_cons]
  split <;> rfl

theorem CloseItems.lengthAt_le {items : List (String × Bytes)} {ts : List (String × Tree)} {v : Bool}
    (h : CloseItems items ts v) (k : String) : lengthAt items k ≤ lengthAt (encodeItems ts) k := by
  induction h with
  | nil => exact le_refl _
  | cons hb _ ih =>
    rw [encodeItems, lengthAt_cons, lengthAt_cons]
    split
    · exact hb.le
    · exact ih

theorem CloseItems.lengthAt_lt {items : List (String × Bytes)} {ts : List (String × Tree)}
    (h : CloseItems items ts true) (hn : (items.map Prod.fst).Nodup) :
    ∃ k ∈ items.map Prod.fst, lengthAt items k < lengthAt (encodeItems ts) k := by
  generalize hv : true = v at h
  induction h with
  | nil => cases hv
  | @cons k b t items ts v v' hb _ ih =>
    obtain ⟨hk, hn⟩ := List.nodup_cons.mp hn
    rw [encodeItems]
    cases v with
    | true =>
      refine ⟨k, List.mem_cons_self, ?_⟩
      rw [lengthAt_cons, lengthAt_cons, if_pos rfl, if_pos rfl]
      exact hb
    | false =>
      obtain ⟨k', hk', hlt⟩ := ih hn hv
      have hne : k' ≠ k := fun he => hk (he ▸ hk')
      refine ⟨k', List.mem_cons_of_mem _ hk', ?_⟩
      rw [lengthAt_cons, lengthAt_cons, if_neg hne, if_neg hne]
      exact hlt

theorem length_implDict (items : List (String × Bytes)) : (implDict items).length =
    (appendUleb128 (items.length <<< 3 ||| TYPE_MAP)).length +
      (((items.map Prod.fst).mergeSort fun a b => decide (a ≤ b)).map fun k =>
        (appendUleb128 (Utf8.bytes k).length ++ Utf8.bytes k).length + lengthAt items k).sum := by
  unfold implDict
  dsimp only
  rw [List.length_append, List.length_flatMap, List.length_mergeSort, List.length_map]
  simp only [List.length_append, lengthAt]

theorem CloseItems.implDict {items : List (String × Bytes)} {ts : List (String × Tree)} {v : Bool}
    (h : CloseItems items ts v) (hn : (items.map Prod.fst).Nodup) :
    Close (implDict items) (implDict (encodeItems ts)) v := by
  cases v with
  | false =>
    obtain rfl := h.eq
    rfl
  | true =>
    have hkeys : (encodeItems ts).map Prod.fst = items.map Prod.fst := by
      rw [h.keys, encodeItems_eq, List.map_map]
      rfl
    have hlen : (encodeItems ts).length = items.length := by
      have := congrArg List.length hkeys
      rwa [List.length_map, List.length_map] at this
    obtain ⟨k, hk, hlt⟩ := h.lengthAt_lt hn
    show (Py.implDict items).length < (Py.implDict (encodeItems ts)).length
    rw [length_implDict, length_implDict, hkeys, hlen]
    apply Nat.add_lt_add_left
    apply List.sum_lt_sum
    · exact fun k _ => Nat.add_le_add_left (h.lengthAt_le k) _
    · exact ⟨k, (List.mergeSort_perm _ _).symm.subset hk, Nat.add_lt_add_left hlt _⟩

/-! ## What is accepted -/

theorem memoryview_short (raw : Bytes) (items : {items : Bytes // items.length ≤ raw.length}) :
    Close items.1 (Py.encode (.bytes raw)) true := by
  show items.1.length < (Py.encode (.bytes raw)).length
  have hpos := Uleb.encode_length_pos (raw.length <<< 3 ||| TYPE_BYTES)
  have hle := items.2
  rw [Py.encode, List.length_append, appendUleb128_eq]
  omega

mutual
theorem impl_close : ∀ (x : Object) (convert : Bool) {b : Bytes}, WF x → impl x convert = some b →
    ∃ t, plain x convert = some t ∧ DistinctKeys t ∧ Close b (Py.encode t) (hasView x convert)
  | .none, _, b, _, h => ⟨.null, rfl, trivial, (Option.some.inj h).symm⟩
  | .bool v, _, b, _, h => ⟨.bool v, rfl, trivial, (Option.some.inj h).symm⟩
  | .int n, _, b, _, h => ⟨.number n, rfl, trivial, (Option.some.inj h).symm⟩
  | .address a, _, b, _, h => ⟨.address a, rfl, trivial, (Option.some.inj h).symm⟩
  | .bytes v, _, b, _, h => ⟨.bytes v, rfl, trivial, (Option.some.inj h).symm⟩
  | .memoryview raw tolist, _, b, _, h => by
    obtain ⟨items, -, rfl⟩ := Option.map_eq_some_iff.mp h
    exact ⟨.bytes raw, rfl, trivial, memoryview_short raw items⟩
  | .str s, _, b, _, h => by
    obtain ⟨s, rfl, rfl⟩ := Option.map_eq_some_iff.mp h
    exact ⟨.str s, rfl, trivial, rfl⟩
  | .sequence xs, _, b, hx, h => by
    obtain ⟨body, hbody, h⟩ := Option.bind_eq_some_iff.mp h
    obtain rfl := Option.some.inj h
    obtain ⟨ts, hts, hd, hlen, hclose⟩ := implList_close xs hx hbody
    refine ⟨.array ts, ?_, hd, ?_⟩
    · rw [plain, hts]
      rfl
    · rw [Py.encode, hlen]
      exact hclose.head _
  | .mapping kvs, _, b, hx, h => by
    obtain ⟨items, hitems, h⟩ := Option.bind_eq_some_iff.mp h
    obtain rfl := Option.some.inj h
    obtain ⟨ts, hts, hd, hkeys, hclose⟩ := implItems_close kvs hx.2 hitems
    have hn : (items.map Prod.fst).Nodup := hkeys ▸ hx.1
    refine ⟨.map ts, ?_, ⟨hclose.keys ▸ hn, hd⟩, ?_⟩
    · rw [plain, hts]
      rfl
    · exact hclose.implDict hn
  | .dataclass fields face, true, b, hx, h => by
    obtain ⟨items, hitems, h⟩ := Option.bind_eq_some_iff.mp h
    obtain rfl := Option.some.inj h
    obtain ⟨ts, hts, hd, hkeys, hclose⟩ := implFields_close fields hx.2.1 hitems
    have hn : (items.map Prod.fst).Nodup := hkeys ▸ hx.1
    refine ⟨.map ts, ?_, ⟨hclose.keys ▸ hn, hd⟩, ?_⟩
    · rw [plain, hts]
      rfl
    · exact hclose.implDict hn
  | .dataclass _ face, false, b, hx, h => impl_close face false hx.2.2 h
  | .encodable to_calldata _, true, b, hx, h => impl_close to_calldata false hx.1 h
  | .encodable _ face, false, b, hx, h => impl_close face false hx.2 h
theorem implList_close : ∀ (xs : List Object) {body : Bytes}, WFList xs → implList xs = some body →
    ∃ ts, plainList xs = some ts ∧ DistinctList ts ∧ xs.length = ts.length ∧
      Close body (encodeList ts) (hasViewList xs)
  | [], body, _, h => ⟨[], rfl, trivial, rfl, (Option.some.inj h).symm⟩
  | x :: xs, body, hx, h => by
    obtain ⟨b, hb, h⟩ := Option.bind_eq_some_iff.mp h
    obtain ⟨rest, hrest, h⟩ := Option.bind_eq_some_iff.mp h
    obtain rfl := Option.some.inj h
    obtain ⟨t, ht, hdt, hct⟩ := impl_close x true hx.1 hb
    obtain ⟨ts, hts, hd, hlen, hc⟩ := implList_close xs hx.2 hrest
    refine ⟨t :: ts, ?_, ⟨hdt, hd⟩, congrArg (· + 1) hlen, hct.append hc⟩
    rw [plainList, ht, hts]
    rfl
theorem implItems_close : ∀ (kvs : List (Option String × Object)) {items : List (String × Bytes)},
    WFItems kvs → implItems kvs = some items →
    ∃ ts, plainItems kvs = some ts ∧ DistinctItems ts ∧
      items.map Prod.fst = kvs.filterMap Prod.fst ∧ CloseItems items ts (hasViewItems kvs)
  | [], items, _, h => by
    obtain rfl := Option.some.inj h
    exact ⟨[], rfl, trivial, rfl, .nil⟩
  | (k, x) :: kvs, items, hx, h => by
    obtain ⟨k, rfl, h⟩ := Option.bind_eq_some_iff.mp h
    obtain ⟨b, hb, h⟩ := Option.bind_eq_some_iff.mp h
    obtain ⟨rest, hrest, h⟩ := Option.bind_eq_some_iff.mp h
    obtain rfl := Option.some.inj h
    obtain ⟨t, ht, hdt, hct⟩ := impl_close x true hx.1 hb
    obtain ⟨ts, hts, hd, hkeys, hc⟩ := implItems_close kvs hx.2 hrest
    refine ⟨(k, t) :: ts, ?_, ⟨hdt, hd⟩, congrArg (k :: ·) hkeys, .cons hct hc⟩
    rw [plainItems, ht, hts]
    rfl
theorem implFields_close : ∀ (fields : List (String × Object)) {items : List (String × Bytes)},
    WFFields fields → implFields fields = some items →
    ∃ ts, plainFields fields = some ts ∧ DistinctItems ts ∧
      items.map Prod.fst = fields.map Prod.fst ∧ CloseItems items ts (hasViewFields fields)
  | [], items, _, h => by
    obtain rfl := Option.some.inj h
    exact ⟨[], rfl, trivial, rfl, .nil⟩
  | (k, x) :: fields, items, hx, h => by
    obtain ⟨b, hb, h⟩ := Option.bind_eq_some_iff.mp h
    obtain ⟨rest, hrest, h⟩ := Option.bind_eq_some_iff.mp h
    obtain rfl := Option.some.inj h
    obtain ⟨t, ht, hdt, hct⟩ := impl_close x true hx.1 hb
    obtain ⟨ts, hts, hd, hkeys, hc⟩ := implFields_close fields hx.2 hrest
    refine ⟨(k, t) :: ts, ?_, ⟨hdt, hd⟩, congrArg (k :: ·) hkeys, .cons hct hc⟩
    rw [plainFields, ht, hts]
    rfl
end

/-- `x`, as it was encoded to `b`, comes back: what `decode` returns is the plain
value of `x`, up to the order of the items of a `dict`. -/
def RoundTrips (x : Object) (b : Bytes) : Prop :=
  ∃ t p, Py.decode b = .ok t ∧ plain x true = some p ∧ toValue t = toValue p

/-- **Round trip.** What `encode` accepts decodes to the plain value it stands for if
and only if no `memoryview` is among what is encoded. -/
theorem encode_round_trip_iff {x : Object} {b : Bytes} (hx : x.WF) (h : encode x = some b) :
    RoundTrips x b ↔ hasView x true = false := by
  obtain ⟨p, hp, hd, hclose⟩ := impl_close x true hx h
  rw [encode_eq hd] at hclose
  constructor
  · intro ⟨t, p', ht, hp', heq⟩
    obtain rfl : p = p' := Option.some.inj (hp.symm.trans hp')
    obtain ⟨rfl, hs⟩ := decode_iff.mp ht
    rw [toValue_of_sorted hs] at heq
    subst heq
    by_contra hv
    rw [Bool.not_eq_false] at hv
    rw [hv] at hclose
    exact Nat.lt_irrefl _ hclose
  · intro hv
    rw [hv] at hclose
    obtain rfl : b = wire (toValue p) := hclose
    exact ⟨toValue p, p, decode_iff.mpr ⟨rfl, toValue_sorted p⟩, hp,
      toValue_of_sorted (toValue_sorted p)⟩

/-- A dataclass with a convertible object in it. -/
theorem encode_round_trip_iff_point :
    let x : Object := .dataclass [("y", .encodable (.sequence [.int 2]) .other), ("x", .none)] .other
    RoundTrips x ((encode x).getD []) ↔ hasView x true = false := by
  intro x
  have hx : x.WF := by
    refine ⟨by decide, ⟨⟨⟨trivial, trivial⟩, trivial⟩, trivial, trivial⟩, trivial⟩
  have hsome : ∃ b, encode x = some b := ⟨_, rfl⟩
  obtain ⟨b, hb⟩ := hsome
  rw [hb]
  exact encode_round_trip_iff hx hb

/-- A view of two bytes is written without tag and length. -/
theorem memoryview_lost :
    let x : Object := .memoryview [1, 2] (some ⟨[1, 2], by decide⟩)
    encode x = some [1, 2] ∧ ¬ RoundTrips x [1, 2] := by
  intro x
  refine ⟨rfl, fun ⟨t, p, ht, hp, heq⟩ => ?_⟩
  obtain ⟨hb, hs⟩ := decode_iff.mp ht
  obtain rfl : Tree.bytes [1, 2] = p := Option.some.inj hp
  have hshort : [1, 2].length < (wire (toValue (.bytes [1, 2]))).length := by
    rw [← encode_eq (t := .bytes [1, 2]) trivial]
    exact memoryview_short [1, 2] ⟨[1, 2], by decide⟩
  rw [← heq, toValue_of_sorted hs, ← hb] at hshort
  exact Nat.lt_irrefl _ hshort

end Object
end GenVM.Py
