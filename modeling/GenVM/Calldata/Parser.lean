import GenVM.Calldata.Grammar

/-!
# The iterative decoder (`calldata/src/bin.rs`)

`Parser::fetch_val` keeps its own stack of open containers. One turn of the
outer loop reads an item (`fetchItem`), which either opens a container or
completes a value, and hands a completed value to the innermost open container
(`unwind`), closing containers as they fill up.

* `decode_iff`: `decode` succeeds exactly on the wire form of an acceptable tree.

The proof reads the stack as what is still expected (`Resumes`): the remaining
elements of each open container, innermost first.
-/
namespace GenVM.Calldata
open GenVM.Lib GenVM.Lib.Except

namespace Parser

def raises : Raises where
  ulebEnd := .unterminatedUleb
  badSpecial := .invalidSpecialValue

/-- mirrors executor/crates/calldata/src/bin.rs:127-137 -/
inductive Frame where
  | array (collected : List Tree) (remaining : Nat)
  | map (collected : List (String × Tree)) (remaining : Nat) (currentKey : String)

/-- An item is a completed value or a container to fill. -/
inductive Fetched where
  | completed (v : Tree)
  | opened (f : Frame)

/-- mirrors executor/crates/calldata/src/bin.rs:141-247 -/
def fetchItem (maxDepth : Nat) (stack : List Frame) (data : Bytes) :
    Except BinDecodeError (Fetched × Bytes) := do
  let (ev, data) ← headWith raises (maxDepth - stack.length) data
  match ev with
  | .null => .ok (.completed .null, data)
  | .bool b => .ok (.completed (.bool b), data)
  | .address a => .ok (.completed (.address a), data)
  | .bytes b => .ok (.completed (.bytes b), data)
  | .str s => .ok (.completed (.str s), data)
  | .bigint n => .ok (.completed (.number n), data)
  | .seq fullSize =>
    if fullSize = 0 then .ok (.completed (.array []), data)
    else .ok (.opened (.array [] fullSize), data)
  | .map fullSize =>
    if fullSize = 0 then .ok (.completed (.map []), data)
    else do
      let (currentKey, data) ← fetchKeyWith raises data
      .ok (.opened (.map [] fullSize currentKey), data)

/-- `return Ok(completed)`, or `continue 'parse` with a new stack. -/
inductive Turn where
  | done (v : Tree)
  | next (stack : List Frame)

/-- `collected.last_key_value()` is `Some((k, _))` and `k >= new_key`. -/
def lastNotBelow (collected : List (String × Tree)) (newKey : String) : Option String :=
  match collected.getLast? with
  | some (k, _) => if keyLt k newKey then none else some k
  | none => none

/-- mirrors executor/crates/calldata/src/bin.rs:249-297 -/
def unwind : List Frame → Tree → Bytes → Except BinDecodeError (Turn × Bytes)
  | [], completed, data => .ok (.done completed, data)
  | .array collected remaining :: stack, completed, data =>
    let collected := collected ++ [completed]
    let remaining := remaining - 1
    if remaining > 0 then .ok (.next (.array collected remaining :: stack), data)
    else unwind stack (.array collected) data
  | .map collected remaining currentKey :: stack, completed, data =>
    let collected := SortedMap.insert keyLt currentKey completed collected
    let remaining := remaining - 1
    if remaining > 0 then do
      let (newKey, data) ← fetchKeyWith raises data
      match lastNotBelow collected newKey with
      | some k => .error (.invalidMapOrdering k newKey)
      | none => .ok (.next (.map collected remaining newKey :: stack), data)
    else unwind stack (.map collected) data

/-- One turn of `'parse`. -/
def step (maxDepth : Nat) (stack : List Frame) (data : Bytes) :
    Except BinDecodeError (Turn × Bytes) := do
  let (item, data) ← fetchItem maxDepth stack data
  match item with
  | .opened f => .ok (.next (f :: stack), data)
  | .completed v => unwind stack v data

/-! ## Every turn reads something -/

theorem fetchKey_length {data rest : Bytes} {k : String}
    (h : fetchKeyWith raises data = .ok (k, rest)) : rest.length < data.length := by
  obtain ⟨rfl, -⟩ := fetchKeyWith_iff.mp h
  have := wireKey_length_pos k
  rw [List.length_append]; omega

theorem fetchItem_length {m : Nat} {S : List Frame} {data rest : Bytes} {item : Fetched}
    (h : fetchItem m S data = .ok (item, rest)) : rest.length < data.length := by
  simp only [fetchItem, bind_ok, Prod.exists] at h
  obtain ⟨ev, d, he, h⟩ := h
  obtain ⟨rfl, -⟩ := head_iff.mp he
  have hw := event_wire_pos ev
  rw [List.length_append]
  cases ev with
  | seq n =>
    dsimp only at h
    split at h <;> cases h <;> omega
  | map n =>
    dsimp only at h
    split at h
    · cases h; omega
    · simp only [bind_ok, Prod.exists] at h
      obtain ⟨k, d', hk, h⟩ := h
      cases h
      have := fetchKey_length hk
      omega
  | _ => cases h; omega

theorem unwind_length {S : List Frame} : ∀ {x : Tree} {data rest : Bytes} {u : Turn},
    unwind S x data = .ok (u, rest) → rest.length ≤ data.length := by
  induction S with
  | nil => intro x data rest u h; cases h; exact le_refl _
  | cons f S ih =>
    intro x data rest u h
    cases f with
    | array coll rem =>
      simp only [unwind] at h
      split at h
      · cases h; exact le_refl _
      · exact ih h
    | map coll rem key =>
      simp only [unwind] at h
      split at h
      · simp only [bind_ok, Prod.exists] at h
        obtain ⟨k, d, hk, h⟩ := h
        have := fetchKey_length hk
        split at h <;> cases h
        omega
      · exact ih h

theorem step_length {m : Nat} {S : List Frame} {data rest : Bytes} {u : Turn}
    (h : step m S data = .ok (u, rest)) : rest.length < data.length := by
  simp only [step, bind_ok, Prod.exists] at h
  obtain ⟨item, d, hi, h⟩ := h
  have := fetchItem_length hi
  cases item with
  | opened f => cases h; exact this
  | completed v => exact lt_of_le_of_lt (unwind_length h) this

/-- mirrors executor/crates/calldata/src/bin.rs:126-300 -/
def fetchVal (maxDepth : Nat) (stack : List Frame) (data : Bytes) :
    Except BinDecodeError (Tree × Bytes) :=
  match _h : step maxDepth stack data with
  | .error e => .error e
  | .ok (.done v, rest) => .ok (v, rest)
  | .ok (.next stack', rest) => fetchVal maxDepth stack' rest
termination_by data.length
decreasing_by exact step_length _h

/-! ## What the stack still expects -/

def Frame.Inv : Frame → Prop
  | .array _ remaining => 0 < remaining
  | .map collected remaining currentKey => 0 < remaining ∧ SizeFits (Utf8.bytes currentKey).length ∧
      SortedMap.Sorted keyLt collected ∧ ∀ e ∈ collected, keyLt e.1 currentKey

/-- With `x` completed, the open containers `S` read `data` down to `rest` and
yield `t`: each container gets its missing elements, then is an element itself. -/
def Resumes (m : Nat) : List Frame → Tree → Bytes → Tree → Bytes → Prop
  | [], x, data, t, rest => t = x ∧ rest = data
  | .array coll rem :: S, x, data, t, rest => ∃ xs data', xs.length + 1 = rem ∧
      data = wireList xs ++ data' ∧ (∀ y ∈ xs, y.Ok (m - (S.length + 1))) ∧
      Resumes m S (.array (coll ++ x :: xs)) data' t rest
  | .map coll rem key :: S, x, data, t, rest => ∃ kvs data', kvs.length + 1 = rem ∧
      data = wireEntries kvs ++ data' ∧ (∀ kv ∈ kvs, Tree.EntryOk (m - (S.length + 1)) kv) ∧
      SortedMap.Sorted keyLt (coll ++ (key, x) :: kvs) ∧
      Resumes m S (.map (coll ++ (key, x) :: kvs)) data' t rest

/-- The stack at the start of a turn: a value is read, then `Resumes`. -/
def Expects (m : Nat) (S : List Frame) (data : Bytes) (t : Tree) (rest : Bytes) : Prop :=
  ∃ x data', data = wire x ++ data' ∧ x.Ok (m - S.length) ∧ Resumes m S x data' t rest

/-- What a turn leaves to do. -/
def After (m : Nat) (data : Bytes) (t : Tree) (rest : Bytes) : Turn → Prop
  | .done v => t = v ∧ rest = data
  | .next S => Expects m S data t rest

theorem lastNotBelow_none {coll : List (String × Tree)} {key k : String} {x : Tree} :
    lastNotBelow (coll ++ [(key, x)]) k = none ↔ keyLt key k := by
  rw [lastNotBelow, List.getLast?_append, List.getLast?_singleton]
  simp

theorem unwind_inv {S : List Frame} : ∀ {x : Tree} {data rest : Bytes} {S' : List Frame},
    (∀ f ∈ S, f.Inv) → unwind S x data = .ok (.next S', rest) → ∀ f ∈ S', f.Inv := by
  induction S with
  | nil => intro x data rest S' _ h; cases h
  | cons f S ih =>
    intro x data rest S' hS h
    rw [List.forall_mem_cons] at hS
    obtain ⟨hf, hS⟩ := hS
    cases f with
    | array coll rem =>
      simp only [unwind] at h
      split at h
      · next hr => cases h; exact List.forall_mem_cons.mpr ⟨hr, hS⟩
      · exact ih hS h
    | map coll rem key =>
      obtain ⟨hrem, hkey, hsort, hlt⟩ := hf
      simp only [unwind, SortedMap.insert_last keyLt_order x hlt] at h
      split at h
      · next hr =>
        simp only [bind_ok, Prod.exists] at h
        obtain ⟨k, d, hk, h⟩ := h
        split at h
        · cases h
        · next hl =>
          cases h
          have hkk := lastNotBelow_none.mp hl
          refine List.forall_mem_cons.mpr ⟨⟨hr, (fetchKeyWith_iff.mp hk).2,
            SortedMap.sorted_append_last hsort hlt, ?_⟩, hS⟩
          intro e he
          rcases List.mem_append.mp he with he | he
          · exact keyLt_order.trans _ _ _ (hlt e he) hkk
          · rw [List.mem_singleton] at he; subst he; exact hkk
      · exact ih hS h

theorem unwind_iff {m : Nat} {S : List Frame} : ∀ {x : Tree} {data rest : Bytes} {t : Tree},
    (∀ f ∈ S, f.Inv) →
      (Resumes m S x data t rest ↔
        ∃ u data', unwind S x data = .ok (u, data') ∧ After m data' t rest u) := by
  induction S with
  | nil => intro x data rest t _; simp [Resumes, unwind, After]
  | cons f S ih =>
    intro x data rest t hS
    have hf := hS f (List.mem_cons_self ..)
    have hS' : ∀ g ∈ S, g.Inv := fun g hg => hS g (List.mem_cons_of_mem _ hg)
    cases f with
    | array coll rem =>
      simp only [Frame.Inv] at hf
      simp only [Resumes, unwind]
      by_cases hr : rem - 1 > 0
      · -- more elements to come
        rw [if_pos hr]
        constructor
        · rintro ⟨xs, d, hl, rfl, hok, hres⟩
          obtain ⟨y, ys, rfl⟩ := List.exists_cons_of_ne_nil (l := xs) (by rintro rfl; simp at hl; omega)
          refine ⟨_, _, rfl, y, wireList ys ++ d, ?_, ?_, ys, d, ?_, rfl, ?_, ?_⟩
          · rw [wireList, List.append_assoc]
          · exact hok y (List.mem_cons_self ..)
          · simp only [List.length_cons] at hl; omega
          · exact fun z hz => hok z (List.mem_cons_of_mem _ hz)
          · rwa [List.append_assoc]
        · rintro ⟨u, d, h, hA⟩
          cases h
          obtain ⟨y, d, rfl, hy, ys, d', hl, rfl, hok, hres⟩ := hA
          refine ⟨y :: ys, d', ?_, ?_, ?_, ?_⟩
          · simp only [List.length_cons]; omega
          · rw [wireList, List.append_assoc]
          · intro z hz
            rcases List.mem_cons.mp hz with rfl | hz
            · exact hy
            · exact hok z hz
          · rwa [List.append_assoc] at hres
      · -- the container is full
        rw [if_neg hr, ← ih hS']
        constructor
        · rintro ⟨xs, d, hl, rfl, hok, hres⟩
          obtain rfl : xs = [] := List.eq_nil_of_length_eq_zero (by omega)
          exact hres
        · intro hres
          exact ⟨[], data, by simp only [List.length_nil]; omega, rfl, by simp, hres⟩
    | map coll rem key =>
      obtain ⟨hrem, hkey, hsort, hlt⟩ := hf
      simp only [Resumes, unwind, SortedMap.insert_last keyLt_order x hlt]
      have hsort' := SortedMap.sorted_append_last (v := x) hsort hlt
      by_cases hr : rem - 1 > 0
      · rw [if_pos hr]
        simp only [bind_ok, Prod.exists]
        constructor
        · rintro ⟨kvs, d, hl, rfl, hok, hs, hres⟩
          obtain ⟨⟨k, y⟩, kvs, rfl⟩ :=
            List.exists_cons_of_ne_nil (l := kvs) (by rintro rfl; simp at hl; omega)
          have hk : Tree.EntryOk _ (k, y) := hok (k, y) (List.mem_cons_self ..)
          have hall : SortedMap.Sorted keyLt ((coll ++ [(key, x)]) ++ (k, y) :: kvs) := by
            simpa using hs
          have hbelow : ∀ e ∈ coll ++ [(key, x)], keyLt e.1 k := fun e he =>
            (List.pairwise_append.mp hall).2.2 e he (k, y) (List.mem_cons_self ..)
          have hkk : keyLt key k := hbelow (key, x) (by simp)
          refine ⟨.next (.map (coll ++ [(key, x)]) (rem - 1) k :: S), wire y ++ (wireEntries kvs ++ d),
            ⟨k, wire y ++ (wireEntries kvs ++ d), ?_, ?_⟩, y, wireEntries kvs ++ d,
            rfl, hk.2, kvs, d, ?_, rfl, ?_, hall, ?_⟩
          · exact fetchKeyWith_iff.mpr ⟨by simp [wireEntries], hk.1⟩
          · rw [lastNotBelow_none.mpr hkk]
          · simp only [List.length_cons] at hl; omega
          · exact fun kv hkv => hok kv (List.mem_cons_of_mem _ hkv)
          · simpa using hres
        · rintro ⟨u, d, ⟨k, d', hk, h⟩, hA⟩
          obtain ⟨rfl, hkf⟩ := fetchKeyWith_iff.mp hk
          split at h
          · cases h
          · cases h
            obtain ⟨y, d, rfl, hy, kvs, d'', hl, rfl, hok, hs, hres⟩ := hA
            refine ⟨(k, y) :: kvs, d'', ?_, ?_, ?_, by simpa using hs, by simpa using hres⟩
            · simp only [List.length_cons]; omega
            · simp [wireEntries]
            · intro z hz
              rcases List.mem_cons.mp hz with rfl | hz
              · exact ⟨hkf, hy⟩
              · exact hok z hz
      · rw [if_neg hr, ← ih hS']
        constructor
        · rintro ⟨kvs, d, hl, rfl, hok, hs, hres⟩
          obtain rfl : kvs = [] := List.eq_nil_of_length_eq_zero (by omega)
          exact hres
        · intro hres
          exact ⟨[], data, by simp only [List.length_nil]; omega, rfl, by simp, hsort', hres⟩

theorem fetchItem_completed {m : Nat} {S : List Frame} {data d : Bytes} {x : Tree} :
    fetchItem m S data = .ok (.completed x, d) ↔
      x.tail = [] ∧ data = wire x ++ d ∧ x.Ok (m - S.length) := by
  constructor
  · intro h
    simp only [fetchItem, bind_ok, Prod.exists] at h
    obtain ⟨ev, d', he, h⟩ := h
    obtain ⟨rfl, hg, hc⟩ := head_iff.mp he
    have leaf : ∀ t : Tree, t.event = ev → t.tail = [] → t.depth = 0 → t.Sorted → t.Fits →
        t.tail = [] ∧ ev.wire ++ d' = wire t ++ d' ∧ t.Ok (m - S.length) := by
      rintro t rfl ht hd hs hf
      exact ⟨ht, by rw [wire_eq_event, ht, List.append_nil], by omega, hs, hf⟩
    cases ev with
    | null => cases h; exact leaf .null rfl rfl rfl trivial trivial
    | bool b => cases h; exact leaf (.bool b) rfl rfl rfl trivial trivial
    | address a => cases h; exact leaf (.address a) rfl rfl rfl trivial trivial
    | bigint n => cases h; exact leaf (.number n) rfl rfl rfl trivial hc
    | bytes b => cases h; exact leaf (.bytes b) rfl rfl rfl trivial hg
    | str s => cases h; exact leaf (.str s) rfl rfl rfl trivial hg
    | seq n =>
      dsimp only at h
      split at h <;> cases h
      next hn =>
      subst hn
      exact ⟨rfl, by rw [wire_array, wireList, List.append_nil]; rfl, Tree.ok_array.mpr ⟨hg.1, hg.2.1, by simp⟩⟩
    | map n =>
      dsimp only at h
      split at h
      · next hn =>
        cases h; subst hn
        refine ⟨rfl, by rw [wire_map, wireEntries, List.append_nil]; rfl, ?_⟩
        exact Tree.ok_map.mpr ⟨hg.1, hg.2.1, SortedMap.sorted_nil, by simp⟩
      · simp only [bind_ok, Prod.exists] at h
        obtain ⟨k, d, -, h⟩ := h
        cases h
  · rintro ⟨ht, rfl, hok⟩
    rw [fetchItem, head_tree hok, ht]
    cases x with
    | array xs =>
      have := length_le_wireList xs
      rw [show wireList xs = [] from ht, List.length_nil] at this
      obtain rfl : xs = [] := List.eq_nil_of_length_eq_zero (by omega)
      rfl
    | map kvs =>
      have := length_le_wireEntries kvs
      rw [show wireEntries kvs = [] from ht, List.length_nil] at this
      obtain rfl : kvs = [] := List.eq_nil_of_length_eq_zero (by omega)
      rfl
    | _ => rfl

/-- What an opened frame was read from. -/
def Frame.Opens (budget : Nat) (data d : Bytes) : Frame → Prop
  | .array coll rem => coll = [] ∧ 0 < rem ∧ 0 < budget ∧ SizeFits rem ∧ rem ≤ d.length ∧
      data = (Event.seq rem).wire ++ d
  | .map coll rem key => coll = [] ∧ 0 < rem ∧ 0 < budget ∧ SizeFits rem ∧
      SizeFits (Utf8.bytes key).length ∧ 2 * rem ≤ (wireKey key ++ d).length ∧
      data = (Event.map rem).wire ++ (wireKey key ++ d)

theorem fetchItem_opened {m : Nat} {S : List Frame} {data d : Bytes} {f : Frame} :
    fetchItem m S data = .ok (.opened f, d) ↔ f.Opens (m - S.length) data d := by
  constructor
  · intro h
    simp only [fetchItem, bind_ok, Prod.exists] at h
    obtain ⟨ev, d', he, h⟩ := h
    obtain ⟨rfl, hg, hc⟩ := head_iff.mp he
    cases ev with
    | seq n =>
      dsimp only at h
      split at h <;> cases h
      exact ⟨rfl, by omega, hg.1, hg.2.1, hg.2.2, rfl⟩
    | map n =>
      dsimp only at h
      split at h
      · cases h
      · simp only [bind_ok, Prod.exists] at h
        obtain ⟨k, d'', hk, h⟩ := h
        cases h
        obtain ⟨rfl, hkf⟩ := fetchKeyWith_iff.mp hk
        exact ⟨rfl, by omega, hg.1, hg.2.1, hkf, hg.2.2, rfl⟩
    | _ => cases h
  · intro h
    cases f with
    | array coll rem =>
      obtain ⟨rfl, hr, hb, hs, hl, rfl⟩ := h
      refine bind_ok.mpr ⟨(.seq rem, d), head_iff.mpr ⟨rfl, ⟨hb, hs, hl⟩, trivial⟩, ?_⟩
      exact if_neg (by omega)
    | map coll rem key =>
      obtain ⟨rfl, hr, hb, hs, hk, hl, rfl⟩ := h
      refine bind_ok.mpr ⟨(.map rem, _), head_iff.mpr ⟨rfl, ⟨hb, hs, hl⟩, trivial⟩, ?_⟩
      dsimp only
      rw [if_neg (by omega)]
      exact bind_ok.mpr ⟨(key, d), fetchKeyWith_iff.mpr ⟨rfl, hk⟩, rfl⟩

theorem step_inv {m : Nat} {S S' : List Frame} {data rest : Bytes} (hS : ∀ f ∈ S, f.Inv)
    (h : step m S data = .ok (.next S', rest)) : ∀ f ∈ S', f.Inv := by
  simp only [step, bind_ok, Prod.exists] at h
  obtain ⟨item, d, hi, h⟩ := h
  cases item with
  | completed v => exact unwind_inv hS h
  | opened f =>
    cases h
    have ho := fetchItem_opened.mp hi
    refine List.forall_mem_cons.mpr ⟨?_, hS⟩
    cases f with
    | array coll rem => exact ho.2.1
    | map coll rem key =>
      obtain ⟨rfl, hr, -, -, hk, -⟩ := ho
      exact ⟨hr, hk, SortedMap.sorted_nil, by simp⟩

/-- A container with elements: its frame is opened, then its first element is expected. -/
theorem open_array {m : Nat} {S : List Frame} {y : Tree} {ys : List Tree} {d rest : Bytes} {t : Tree}
    (hok : (Tree.array (y :: ys)).Ok (m - S.length)) (hres : Resumes m S (.array (y :: ys)) d t rest) :
    ∃ u d', step m S (wire (.array (y :: ys)) ++ d) = .ok (u, d') ∧ After m d' t rest u := by
  obtain ⟨hb, hs, h⟩ := Tree.ok_array.mp hok
  have hb' : m - S.length - 1 = m - (S.length + 1) := by omega
  rw [hb'] at h
  have hlen := length_le_wireList (y :: ys)
  refine ⟨.next (.array [] (ys.length + 1) :: S), wire y ++ (wireList ys ++ d), ?_, y, _, rfl,
    h y (List.mem_cons_self ..), ys, d, rfl, rfl, fun z hz => h z (List.mem_cons_of_mem _ hz), hres⟩
  refine bind_ok.mpr ⟨(.opened (.array [] (ys.length + 1)), wire y ++ (wireList ys ++ d)),
    fetchItem_opened.mpr ⟨rfl, Nat.succ_pos _, hb, hs, ?_, ?_⟩, rfl⟩
  · rw [wireList, List.length_append, List.length_cons] at hlen
    rw [List.length_append, List.length_append]; omega
  · simp [wire_array, wireList]

theorem open_map {m : Nat} {S : List Frame} {k : String} {y : Tree} {kvs : List (String × Tree)}
    {d rest : Bytes} {t : Tree} (hok : (Tree.map ((k, y) :: kvs)).Ok (m - S.length))
    (hres : Resumes m S (.map ((k, y) :: kvs)) d t rest) :
    ∃ u d', step m S (wire (.map ((k, y) :: kvs)) ++ d) = .ok (u, d') ∧ After m d' t rest u := by
  obtain ⟨hb, hs, ho, h⟩ := Tree.ok_map.mp hok
  have hb' : m - S.length - 1 = m - (S.length + 1) := by omega
  rw [hb'] at h
  have hk := h (k, y) (List.mem_cons_self ..)
  have hlen := length_le_wireEntries ((k, y) :: kvs)
  refine ⟨.next (.map [] (kvs.length + 1) k :: S), wire y ++ (wireEntries kvs ++ d), ?_, y, _, rfl,
    hk.2, kvs, d, rfl, rfl, fun z hz => h z (List.mem_cons_of_mem _ hz), ho, hres⟩
  refine bind_ok.mpr ⟨(.opened (.map [] (kvs.length + 1) k), wire y ++ (wireEntries kvs ++ d)),
    fetchItem_opened.mpr ⟨rfl, Nat.succ_pos _, hb, hs, hk.1, ?_, ?_⟩, rfl⟩
  · rw [wireEntries, List.length_append, List.length_append, List.length_cons] at hlen
    rw [List.length_append, List.length_append, List.length_append]; omega
  · simp [wire_map, wireEntries]

/-- One turn, from both sides. -/
theorem step_iff {m : Nat} {S : List Frame} {data rest : Bytes} {t : Tree} (hS : ∀ f ∈ S, f.Inv) :
    Expects m S data t rest ↔ ∃ u data', step m S data = .ok (u, data') ∧ After m data' t rest u := by
  constructor
  · rintro ⟨x, d, rfl, hok, hres⟩
    have leaf : x.tail = [] → ∃ u d', step m S (wire x ++ d) = .ok (u, d') ∧ After m d' t rest u := by
      intro ht
      obtain ⟨u, d', hu, hA⟩ := (unwind_iff hS).mp hres
      exact ⟨u, d', bind_ok.mpr ⟨(.completed x, d), fetchItem_completed.mpr ⟨ht, rfl, hok⟩, hu⟩, hA⟩
    match x, hok, hres, leaf with
    | .array (y :: ys), hok, hres, _ => exact open_array hok hres
    | .map ((k, y) :: kvs), hok, hres, _ => exact open_map hok hres
    | .array [], _, _, leaf | .map [], _, _, leaf | .null, _, _, leaf | .bool _, _, _, leaf
    | .address _, _, _, leaf | .number _, _, _, leaf | .bytes _, _, _, leaf | .str _, _, _, leaf =>
      exact leaf rfl
  · rintro ⟨u, d', hstep, hA⟩
    simp only [step, bind_ok, Prod.exists] at hstep
    obtain ⟨item, d, hi, hstep⟩ := hstep
    cases item with
    | completed v =>
      obtain ⟨-, rfl, hok⟩ := fetchItem_completed.mp hi
      exact ⟨v, d, rfl, hok, (unwind_iff hS).mpr ⟨u, d', hstep, hA⟩⟩
    | opened f =>
      cases hstep
      have ho := fetchItem_opened.mp hi
      obtain ⟨y, d', rfl, hy, hres⟩ := hA
      cases f with
      | array coll rem =>
        obtain ⟨rfl, hr, hb, hs, hl, rfl⟩ := ho
        obtain ⟨ys, d'', rfl, rfl, hys, hres⟩ := hres
        have hb' : m - (S.length + 1) = m - S.length - 1 := by omega
        refine ⟨.array (y :: ys), d'', ?_, Tree.ok_array.mpr ⟨hb, hs, ?_⟩, hres⟩
        · simp [wire_array, wireList]
        · rw [← hb']; exact List.forall_mem_cons.mpr ⟨hy, hys⟩
      | map coll rem key =>
        obtain ⟨rfl, hr, hb, hs, hk, hl, rfl⟩ := ho
        obtain ⟨kvs, d'', rfl, rfl, hkvs, hsort, hres⟩ := hres
        have hb' : m - (S.length + 1) = m - S.length - 1 := by omega
        refine ⟨.map ((key, y) :: kvs), d'', ?_, Tree.ok_map.mpr ⟨hb, hs, hsort, ?_⟩, hres⟩
        · simp [wire_map, wireEntries]
        · rw [← hb']; exact List.forall_mem_cons.mpr ⟨⟨hk, hy⟩, hkvs⟩

theorem fetchVal_iff {m : Nat} (data : Bytes) : ∀ {S : List Frame} {rest : Bytes} {t : Tree},
    (∀ f ∈ S, f.Inv) → (fetchVal m S data = .ok (t, rest) ↔ Expects m S data t rest) := by
  induction hn : data.length using Nat.strongRecOn generalizing data with
  | ind n ih =>
    intro S rest t hS
    rw [step_iff hS, fetchVal]
    split
    · next e he => simp [he]
    · next v d he =>
      simp only [he, Except.ok.injEq, Prod.mk.injEq]
      constructor
      · rintro ⟨rfl, rfl⟩; exact ⟨_, _, ⟨rfl, rfl⟩, rfl, rfl⟩
      · rintro ⟨_, _, ⟨rfl, rfl⟩, rfl, rfl⟩; exact ⟨rfl, rfl⟩
    · next S' d he =>
      rw [ih d.length (by have := step_length he; omega) d rfl (step_inv hS he)]
      simp only [he, Except.ok.injEq, Prod.mk.injEq]
      constructor
      · intro h; exact ⟨_, _, ⟨rfl, rfl⟩, h⟩
      · rintro ⟨_, _, ⟨rfl, rfl⟩, h⟩; exact h

end Parser

/-- mirrors executor/crates/calldata/src/bin.rs:302-311 -/
structure Options where
  maxDepth : Nat := 128

/-- mirrors executor/crates/calldata/src/bin.rs:318-331 -/
def decode (data : Bytes) : Except BinDecodeError Tree := do
  let (ret, rest) ← Parser.fetchVal ({} : Options).maxDepth [] data
  if rest ≠ [] then .error (.unexpectedEnd 0 rest.length)
  else .ok ret

/-- **Acceptance.** `decode` succeeds exactly on the wire form of a tree that
nests at most `max_depth` containers, with sorted maps and sizes in bounds. -/
theorem decode_iff {data : Bytes} {t : Tree} :
    decode data = .ok t ↔ data = wire t ∧ t.Ok 128 := by
  unfold decode
  simp only [bind_ok, Prod.exists, Parser.fetchVal_iff data (S := []) (by simp)]
  constructor
  · rintro ⟨v, rest, ⟨x, d, rfl, hok, rfl, rfl⟩, h⟩
    split at h
    · cases h
    · next hr =>
      cases h
      rw [not_not] at hr; subst hr
      exact ⟨List.append_nil _, hok⟩
  · rintro ⟨rfl, hok⟩
    exact ⟨t, [], ⟨t, [], (List.append_nil _).symm, hok, rfl, rfl⟩, by simp⟩

end GenVM.Calldata
