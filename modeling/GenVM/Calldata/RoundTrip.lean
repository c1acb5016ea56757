import GenVM.Calldata.Parser

/-!
# Encoding and decoding are inverse

* `decode_encode_iff`: a value that nests at most `max_depth` containers and
  whose sizes fit 32 bits decodes back to itself exactly when its integers stay
  under the shift bound of the ULEB reader (`InRange`): a tagged number of at
  most `NUMBER_GROUPS` groups. `checked_add(7)` on the `u64` shift refuses
  anything longer as `NumberTooBig`.
* `encode_decode`: whatever decodes is re-encoded to the same bytes, so no value
  has a second encoding.
-/
namespace GenVM.Calldata
open GenVM.Lib

/-! ## The range of integers -/

/-- Groups a ULEB number can have before the shift of the next one leaves a `u64`. -/
def NUMBER_GROUPS : Nat := 2635249153387078803

/-- The tagged number, sign and magnitude packed, fits the groups. -/
def InRange (n : Int) : Prop := intPayload n * 8 + intTag n < 2 ^ (7 * NUMBER_GROUPS)

theorem shift_groups {g : Nat} : Uleb.Fits shiftBound 0 g ↔ g ≤ NUMBER_GROUPS := by
  unfold Uleb.Fits shiftBound NUMBER_GROUPS
  constructor
  · intro h
    by_contra hg
    have := h (2 ^ 64) rfl (by omega)
    omega
  · rintro h L hL -
    cases hL; omega

theorem length_le_iff {n k : Nat} : (Uleb.encode n).length ≤ k + 1 ↔ n < 2 ^ (7 * (k + 1)) := by
  constructor
  · intro h
    by_contra hn
    have := Uleb.lt_encode_length (k + 1) n (not_lt.mp hn)
    omega
  · exact Uleb.encode_length_le k n

theorem numFits_iff {n : Int} : NumFits n ↔ InRange n := by
  rw [NumFits, InRange, shift_groups, tagged, show NUMBER_GROUPS = 2635249153387078802 + 1 from rfl,
    length_le_iff]

/-- Integers of a few groups are in range. -/
theorem inRange_of_lt {n : Int} (h : intPayload n * 8 + intTag n < 2 ^ (7 * 1)) : InRange n :=
  lt_of_lt_of_le h (Nat.pow_le_pow_right (by decide) (by unfold NUMBER_GROUPS; omega))

theorem not_inRange_pow {k : Nat} (hk : 7 * NUMBER_GROUPS ≤ k) : ¬ InRange (2 ^ k : Nat) := by
  have hp : 2 ^ (7 * NUMBER_GROUPS) ≤ 2 ^ k := Nat.pow_le_pow_right (by decide) hk
  have hn : ¬ ((2 ^ k : Nat) : Int) < 0 := by simp
  rw [InRange, int_code, if_neg hn, Int.natAbs_natCast]
  omega

/-! ## Decoding what was encoded -/

/-- Byte strings, strings, arrays and maps are shorter than `2 ^ 32`. -/
def Tree.SizesFit (t : Tree) : Prop := t.Within SizeFits fun _ => True

/-- Every integer in the tree is in range. -/
def Tree.NumbersFit (t : Tree) : Prop := t.Within (fun _ => True) InRange

theorem fits_iff {t : Tree} : t.Fits ↔ t.SizesFit ∧ t.NumbersFit := by
  rw [Tree.SizesFit, Tree.NumbersFit, Tree.within_and, Tree.Fits]
  have : NumFits = InRange := funext fun n => propext numFits_iff
  simp only [this, and_true, true_and]

/-- **Round trip.** -/
theorem decode_encode_iff (v : Value) (hd : v.tree.depth ≤ 128) (hl : v.tree.SizesFit) :
    decode (encode v.tree) = .ok v.tree ↔ v.tree.NumbersFit := by
  rw [encode_eq_wire, decode_iff]
  constructor
  · exact fun h => (fits_iff.mp h.2.fits).2
  · exact fun h => ⟨rfl, hd, v.sorted, fits_iff.mpr ⟨hl, h⟩⟩

/-- A negative integer inside a map inside an array. -/
theorem decode_encode_nested :
    decode (encode (.array [.map [("a", .number (-3))]])) = .ok (.array [.map [("a", .number (-3))]]) := by
  have hs : Tree.Sorted (.array [.map [("a", .number (-3))]]) :=
    ⟨⟨List.pairwise_singleton _ _, trivial, trivial⟩, trivial⟩
  have hd : Tree.depth (.array [.map [("a", .number (-3))]]) ≤ 128 := by decide
  refine (decode_encode_iff ⟨_, hs⟩ hd ?_).mpr ?_
  · have h : (Utf8.bytes "a").length = 1 := by decide
    simp [Tree.SizesFit, Tree.Within, Tree.WithinList, Tree.WithinEntries, SizeFits, h]
  · simpa [Tree.NumbersFit, Tree.Within, Tree.WithinList, Tree.WithinEntries] using
      inRange_of_lt (by decide)

/-- The reader's shift bound refuses `2 ^ (7 * NUMBER_GROUPS)`, whose encoding
has more groups than a `u64` shift can count. -/
theorem decode_encode_huge : ¬ ∀ v : Value, v.tree.depth ≤ 128 → v.tree.SizesFit →
    decode (encode v.tree) = .ok v.tree := by
  intro h
  have hr := (decode_iff.mp (h ⟨.number (2 ^ (7 * NUMBER_GROUPS) : Nat), trivial⟩ (Nat.zero_le _) trivial)).2.fits
  exact not_inRange_pow le_rfl (numFits_iff.mp hr)

/-! ## Re-encoding what was decoded -/

/-- **Canonicity.** A decoded value is encoded to the bytes it came from, its
maps are `BTreeMap`s, and no other bytes decode to it. -/
theorem encode_decode (b : Bytes) (v : Tree) (h : decode b = .ok v) :
    encode v = b ∧ v.Sorted ∧ ∀ b', decode b' = .ok v → b' = b := by
  obtain ⟨rfl, hok⟩ := decode_iff.mp h
  refine ⟨encode_eq_wire v, hok.sorted, fun b' h' => ?_⟩
  exact (decode_iff.mp h').1

/-- `[1, null]`, the one byte string for it. -/
theorem encode_decode_pair : encode (.array [.number 1, .null]) = [21, 9, 0] ∧
    (Tree.array [.number 1, .null]).Sorted ∧
    ∀ b', decode b' = .ok (.array [.number 1, .null]) → b' = [21, 9, 0] := by
  refine encode_decode [21, 9, 0] _ (decode_iff.mpr ⟨?_, by decide, ⟨trivial, trivial, trivial⟩, ?_⟩)
  · simp only [wire, wireList, tagged]
    rw [Uleb.encode_small (by decide), Uleb.encode_small (by decide)]
    decide
  · refine ⟨by unfold SizeFits; decide, ?_, trivial, trivial⟩
    exact numFits_iff.mpr (inRange_of_lt (by decide))

/-! ## A tree from its bytes -/

theorem int_code_inj {n m : Int} (h : intPayload n * 8 + intTag n = intPayload m * 8 + intTag m) :
    n = m := by
  rw [int_code, int_code] at h
  unfold TYPE_NINT TYPE_PINT at h
  split at h <;> split at h <;> omega

theorem intTag_cases (n : Int) : intTag n = 1 ∨ intTag n = 2 := by
  unfold intTag
  split
  · exact .inr rfl
  · exact .inl rfl

theorem address_ext {a b : Address} (h : a.raw = b.raw) : a = b := by
  cases a
  cases b
  cases h
  rfl

/-- The number in front tells the heads apart, but for what a scalar has after it. -/
theorem event_ext {ev ev' : Event} (h : ev.code = ev'.code)
    (hb : ev.body.length = ev'.body.length → ev.body = ev'.body) : ev = ev' := by
  cases ev <;> cases ev'
  all_goals
    simp only [Event.code, Event.body, SPECIAL_NULL, SPECIAL_TRUE, SPECIAL_FALSE, SPECIAL_ADDR,
      TYPE_BYTES, TYPE_STR, TYPE_ARR, TYPE_MAP] at h hb
  all_goals
    grind [intTag_cases, int_code_inj, Utf8.bytes_inj, address_ext, Address.size]

theorem body_length {ev ev' : Event} (h : ev.code = ev'.code) : ev.body.length = ev'.body.length := by
  cases ev <;> cases ev'
  all_goals
    simp only [Event.code, Event.body, SPECIAL_NULL, SPECIAL_TRUE, SPECIAL_FALSE, SPECIAL_ADDR,
      TYPE_BYTES, TYPE_STR, TYPE_ARR, TYPE_MAP] at h ⊢
  all_goals
    grind [intTag_cases, Address.size]

/-- No head starts another one. -/
theorem event_append {ev ev' : Event} {r r' : Bytes} (h : ev.wire ++ r = ev'.wire ++ r') :
    ev = ev' ∧ r = r' := by
  unfold Event.wire at h
  rw [List.append_assoc, List.append_assoc] at h
  obtain ⟨hc, hb⟩ := Uleb.encode_append h
  obtain ⟨hbody, hr⟩ := List.append_inj hb (body_length hc)
  exact ⟨event_ext hc fun _ => hbody, hr⟩

theorem wireKey_append {k k' : String} {r r' : Bytes} (h : wireKey k ++ r = wireKey k' ++ r') :
    k = k' ∧ r = r' := by
  unfold wireKey at h
  rw [List.append_assoc, List.append_assoc] at h
  obtain ⟨hl, hb⟩ := Uleb.encode_append h
  obtain ⟨hk, hr⟩ := List.append_inj hb hl
  exact ⟨Utf8.bytes_inj hk, hr⟩

/-- `t` is read off the front of any bytes that start with it. -/
def Leads (t : Tree) : Prop := ∀ (t' : Tree) (r r' : Bytes), wire t ++ r = wire t' ++ r' → t = t' ∧ r = r'

theorem wireList_append_inj : ∀ {xs ys : List Tree} {r r' : Bytes}, (∀ x ∈ xs, Leads x) →
    xs.length = ys.length → wireList xs ++ r = wireList ys ++ r' → xs = ys ∧ r = r'
  | [], [], _, _, _, _, h => ⟨rfl, h⟩
  | x :: xs, y :: ys, r, r', hx, hl, h => by
    rw [wireList, wireList, List.append_assoc, List.append_assoc] at h
    obtain ⟨rfl, ht⟩ := hx x List.mem_cons_self y _ _ h
    obtain ⟨rfl, hr⟩ := wireList_append_inj (fun z hz => hx z (List.mem_cons_of_mem _ hz))
      (Nat.succ.inj hl) ht
    exact ⟨rfl, hr⟩

theorem wireEntries_append_inj : ∀ {kvs lvs : List (String × Tree)} {r r' : Bytes},
    (∀ kv ∈ kvs, Leads kv.2) → kvs.length = lvs.length →
    wireEntries kvs ++ r = wireEntries lvs ++ r' → kvs = lvs ∧ r = r'
  | [], [], _, _, _, _, h => ⟨rfl, h⟩
  | (k, x) :: kvs, (l, y) :: lvs, r, r', hx, hl, h => by
    rw [wireEntries, wireEntries, List.append_assoc, List.append_assoc, List.append_assoc,
      List.append_assoc] at h
    obtain ⟨rfl, hv⟩ := wireKey_append h
    obtain ⟨rfl, ht⟩ := hx (k, x) List.mem_cons_self y _ _ hv
    obtain ⟨rfl, hr⟩ := wireEntries_append_inj (fun z hz => hx z (List.mem_cons_of_mem _ hz))
      (Nat.succ.inj hl) ht
    exact ⟨rfl, hr⟩

/-- Trees of one head differ in what comes after it. -/
theorem tree_of_event {t t' : Tree} (h : t.event = t'.event) :
    t = t' ∨ (∃ xs ys, t = .array xs ∧ t' = .array ys ∧ xs.length = ys.length) ∨
      ∃ kvs lvs, t = .map kvs ∧ t' = .map lvs ∧ kvs.length = lvs.length := by
  cases t with
  | array xs =>
    cases t' with
    | array ys => exact .inr (.inl ⟨xs, ys, rfl, rfl, Event.seq.inj h⟩)
    | _ => cases h
  | map kvs =>
    cases t' with
    | map lvs => exact .inr (.inr ⟨kvs, lvs, rfl, rfl, Event.map.inj h⟩)
    | _ => cases h
  | _ =>
    cases t' <;> cases h
    exact .inl rfl

/-- **Unique reading.** No tree starts another one. -/
theorem leads (t : Tree) : Leads t := by
  have hstart : ∀ (t t' : Tree) (r r' : Bytes), wire t ++ r = wire t' ++ r' →
      t.event = t'.event ∧ t.tail ++ r = t'.tail ++ r' := by
    intro t t' r r' h
    rw [wire_eq_event, wire_eq_event, List.append_assoc, List.append_assoc] at h
    exact event_append h
  induction t using Tree.inductOn with
  | array xs ih =>
    intro t' r r' h
    obtain ⟨he, ht⟩ := hstart _ _ _ _ h
    rcases tree_of_event he with rfl | ⟨xs', ys, hx, rfl, hl⟩ | ⟨_, _, hx, _⟩
    · exact ⟨rfl, List.append_cancel_left h⟩
    · cases hx
      obtain ⟨rfl, hr⟩ := wireList_append_inj ih hl ht
      exact ⟨rfl, hr⟩
    · cases hx
  | map kvs ih =>
    intro t' r r' h
    obtain ⟨he, ht⟩ := hstart _ _ _ _ h
    rcases tree_of_event he with rfl | ⟨_, _, hx, _⟩ | ⟨kvs', lvs, hx, rfl, hl⟩
    · exact ⟨rfl, List.append_cancel_left h⟩
    · cases hx
    · cases hx
      obtain ⟨rfl, hr⟩ := wireEntries_append_inj ih hl ht
      exact ⟨rfl, hr⟩
  | _ =>
    intro t' r r' h
    rcases tree_of_event (hstart _ _ _ _ h).1 with rfl | ⟨_, _, hx, _⟩ | ⟨_, _, hx, _⟩
    · exact ⟨rfl, List.append_cancel_left h⟩
    · cases hx
    · cases hx

theorem wire_inj {t t' : Tree} (h : wire t = wire t') : t = t' :=
  (leads t t' [] [] (by rw [h])).1

end GenVM.Calldata
