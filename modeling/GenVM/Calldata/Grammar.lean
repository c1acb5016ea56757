import GenVM.Calldata.Head

/-!
# What a reader accepts

`Tree.Ok budget` collects the conditions under which a tree can be read inside
`max_depth - budget` open containers: it nests at most `budget` deep, its maps
are sorted, its sizes fit 32 bits and its integers the shift bound. Every reader
of this development is characterised by it: it succeeds on `data` with `t` and
`rest` exactly when `data = wire t ++ rest` and `t.Ok budget`.

The wire form of a tree starts with its head event (`wire_eq_event`), and each
element of a container takes at least one byte (`length_le_wireList`,
`length_le_wireEntries`), so the remaining-length guards of the readers refuse
nothing that could be read. `seqLoop` is the loop over array elements that the
recursive readers share.
-/
namespace GenVM.Calldata
open GenVM.Lib Encoder

namespace Tree

mutual
/-- Every size satisfies `S` and every integer `P`. -/
def Within (S : Nat → Prop) (P : Int → Prop) : Tree → Prop
  | str s => S (Utf8.bytes s).length
  | bytes b => S b.length
  | number n => P n
  | map kvs => S kvs.length ∧ WithinEntries S P kvs
  | array xs => S xs.length ∧ WithinList S P xs
  | _ => True
def WithinList (S : Nat → Prop) (P : Int → Prop) : List Tree → Prop
  | [] => True
  | x :: xs => Within S P x ∧ WithinList S P xs
def WithinEntries (S : Nat → Prop) (P : Int → Prop) : List (String × Tree) → Prop
  | [] => True
  | (k, x) :: kvs => (S (Utf8.bytes k).length ∧ Within S P x) ∧ WithinEntries S P kvs
end

section
variable {S T : Nat → Prop} {P Q : Int → Prop}

theorem withinList_iff : ∀ {xs : List Tree}, WithinList S P xs ↔ ∀ x ∈ xs, Within S P x
  | [] => by simp [WithinList]
  | x :: xs => by simp [WithinList, @withinList_iff xs]

theorem withinEntries_iff : ∀ {kvs : List (String × Tree)},
    WithinEntries S P kvs ↔ ∀ kv ∈ kvs, S (Utf8.bytes kv.1).length ∧ Within S P kv.2
  | [] => by simp [WithinEntries]
  | (k, x) :: kvs => by simp [WithinEntries, @withinEntries_iff kvs]

/-- Two sets of bounds hold together when both hold. -/
theorem within_and {t : Tree} : Within S P t ∧ Within T Q t ↔
    Within (fun n => S n ∧ T n) (fun n => P n ∧ Q n) t := by
  induction t using inductOn with
  | map kvs ih =>
    simp only [Within, withinEntries_iff]
    constructor
    · rintro ⟨⟨h1, h2⟩, h3, h4⟩
      exact ⟨⟨h1, h3⟩, fun kv hkv =>
        ⟨⟨(h2 kv hkv).1, (h4 kv hkv).1⟩, (ih kv hkv).mp ⟨(h2 kv hkv).2, (h4 kv hkv).2⟩⟩⟩
    · rintro ⟨⟨h1, h3⟩, h⟩
      exact ⟨⟨h1, fun kv hkv => ⟨(h kv hkv).1.1, ((ih kv hkv).mpr (h kv hkv).2).1⟩⟩,
        h3, fun kv hkv => ⟨(h kv hkv).1.2, ((ih kv hkv).mpr (h kv hkv).2).2⟩⟩
  | array xs ih =>
    simp only [Within, withinList_iff]
    constructor
    · rintro ⟨⟨h1, h2⟩, h3, h4⟩
      exact ⟨⟨h1, h3⟩, fun x hx => (ih x hx).mp ⟨h2 x hx, h4 x hx⟩⟩
    · rintro ⟨⟨h1, h3⟩, h⟩
      exact ⟨⟨h1, fun x hx => ((ih x hx).mpr (h x hx)).1⟩, h3, fun x hx => ((ih x hx).mpr (h x hx)).2⟩
  | null | address | bool | str | bytes | number => simp [Within]

end

abbrev Fits (t : Tree) : Prop := t.Within SizeFits NumFits

structure Ok (budget : Nat) (t : Tree) : Prop where
  depth : t.depth ≤ budget
  sorted : t.Sorted
  fits : t.Fits

/-- An entry of a map inside `budget` more containers. -/
def EntryOk (budget : Nat) (kv : String × Tree) : Prop :=
  SizeFits (Utf8.bytes kv.1).length ∧ Ok budget kv.2

theorem ok_array {budget : Nat} {xs : List Tree} :
    Ok budget (array xs) ↔ 0 < budget ∧ SizeFits xs.length ∧ ∀ x ∈ xs, Ok (budget - 1) x := by
  constructor
  · rintro ⟨hd, hs, hf⟩
    simp only [Tree.depth] at hd
    have hd' := depthList_le.mp (Nat.le_sub_of_add_le hd)
    refine ⟨by omega, hf.1, fun x hx => ⟨hd' x hx, sortedList_iff.mp hs x hx, withinList_iff.mp hf.2 x hx⟩⟩
  · rintro ⟨hb, hl, h⟩
    refine ⟨?_, sortedList_iff.mpr fun x hx => (h x hx).sorted, hl,
      withinList_iff.mpr fun x hx => (h x hx).fits⟩
    have := depthList_le.mpr fun x hx => (h x hx).depth
    simp only [Tree.depth]; omega

theorem ok_map {budget : Nat} {kvs : List (String × Tree)} :
    Ok budget (map kvs) ↔ 0 < budget ∧ SizeFits kvs.length ∧ SortedMap.Sorted keyLt kvs ∧
      ∀ kv ∈ kvs, EntryOk (budget - 1) kv := by
  constructor
  · rintro ⟨hd, hs, hf⟩
    simp only [Tree.depth] at hd
    have hd' := depthEntries_le.mp (Nat.le_sub_of_add_le hd)
    refine ⟨by omega, hf.1, hs.1, fun kv hkv => ?_⟩
    have hf' := withinEntries_iff.mp hf.2 kv hkv
    exact ⟨hf'.1, hd' kv hkv, sortedEntries_iff.mp hs.2 kv hkv, hf'.2⟩
  · rintro ⟨hb, hl, ho, h⟩
    refine ⟨?_, ⟨ho, sortedEntries_iff.mpr fun kv hkv => (h kv hkv).2.sorted⟩, hl,
      withinEntries_iff.mpr fun kv hkv => ⟨(h kv hkv).1, (h kv hkv).2.fits⟩⟩
    have := depthEntries_le.mpr fun kv hkv => (h kv hkv).2.depth
    simp only [Tree.depth]; omega

theorem Ok.mono {b b' : Nat} {t : Tree} (h : Ok b t) (hb : b ≤ b') : Ok b' t :=
  ⟨le_trans h.depth hb, h.sorted, h.fits⟩

/-- The head a reader sees. -/
def event : Tree → Event
  | null => .null
  | bool b => .bool b
  | address a => .address a
  | number n => .bigint n
  | bytes b => .bytes b
  | str s => .str s
  | array xs => .seq xs.length
  | map kvs => .map kvs.length

/-- The elements after the head. -/
def tail : Tree → Bytes
  | array xs => wireList xs
  | map kvs => wireEntries kvs
  | _ => []

end Tree

/-! ## The wire form -/

theorem pushBool_eq (b : Bool) : pushBool b = (Event.bool b).wire := by
  cases b <;> rw [Event.wire, Event.code, Uleb.encode_small (by decide)] <;> rfl

theorem wire_eq_event (t : Tree) : wire t = t.event.wire ++ t.tail := by
  cases t with
  | null => rw [Tree.event, Event.wire, Event.code, Uleb.encode_small (by decide)]; rfl
  | bool b => rw [wire, pushBool_eq]; exact (List.append_nil _).symm
  | address a => rw [Tree.event, Event.wire, Event.code, Uleb.encode_small (by decide)]; simp [wire, pushAddress, Tree.tail, Event.body]
  | number n => simp [wire, Tree.event, Tree.tail, Event.wire, Event.code, Event.body, tagged]
  | bytes b => simp [wire, Tree.event, Tree.tail, Event.wire, Event.code, Event.body, tagged]
  | str s => simp [wire, Tree.event, Tree.tail, Event.wire, Event.code, Event.body, tagged]
  | array xs => simp [wire, Tree.event, Tree.tail, Event.wire, Event.code, Event.body, tagged]
  | map kvs => simp [wire, Tree.event, Tree.tail, Event.wire, Event.code, Event.body, tagged]

theorem wire_array (xs : List Tree) : wire (.array xs) = (Event.seq xs.length).wire ++ wireList xs :=
  wire_eq_event (.array xs)

theorem wire_map (kvs : List (String × Tree)) :
    wire (.map kvs) = (Event.map kvs.length).wire ++ wireEntries kvs := wire_eq_event (.map kvs)

theorem event_wire_pos (ev : Event) : 0 < ev.wire.length := by
  have := Uleb.encode_length_pos ev.code
  rw [Event.wire, List.length_append]; omega

theorem wire_length_pos (t : Tree) : 0 < (wire t).length := by
  have := event_wire_pos t.event
  rw [wire_eq_event, List.length_append]; omega

theorem wireKey_length_pos (k : String) : 0 < (wireKey k).length := by
  have := Uleb.encode_length_pos (Utf8.bytes k).length
  rw [wireKey, List.length_append]; omega

theorem length_le_wireList : ∀ xs : List Tree, xs.length ≤ (wireList xs).length
  | [] => le_refl 0
  | x :: xs => by
    have := wire_length_pos x; have := length_le_wireList xs
    rw [wireList, List.length_append, List.length_cons]; omega

theorem length_le_wireEntries : ∀ kvs : List (String × Tree), 2 * kvs.length ≤ (wireEntries kvs).length
  | [] => le_refl 0
  | (k, x) :: kvs => by
    have := wire_length_pos x; have := wireKey_length_pos k; have := length_le_wireEntries kvs
    rw [wireEntries, List.length_append, List.length_append, List.length_cons]; omega

theorem wire_le_wireList {x : Tree} : ∀ {xs : List Tree}, x ∈ xs → (wire x).length ≤ (wireList xs).length
  | y :: xs, h => by
    rw [wireList, List.length_append]
    rcases List.mem_cons.mp h with rfl | h
    · omega
    · have := wire_le_wireList h; omega

theorem wire_le_wireEntries {kv : String × Tree} : ∀ {kvs : List (String × Tree)}, kv ∈ kvs →
    (wire kv.2).length ≤ (wireEntries kvs).length
  | (k, y) :: kvs, h => by
    rw [wireEntries, List.length_append, List.length_append]
    rcases List.mem_cons.mp h with rfl | h
    · dsimp only; omega
    · have := wire_le_wireEntries h; omega

/-- Each level of nesting takes a byte. -/
theorem depth_le_wire (t : Tree) : t.depth ≤ (wire t).length := by
  induction t using Tree.inductOn with
  | array xs ih =>
    have hw := event_wire_pos (.seq xs.length)
    have hd : Tree.depthList xs ≤ (wireList xs).length :=
      Tree.depthList_le.mpr fun x hx => le_trans (ih x hx) (wire_le_wireList hx)
    rw [wire_array, List.length_append, Tree.depth]; omega
  | map kvs ih =>
    have hw := event_wire_pos (.map kvs.length)
    have hd : Tree.depthEntries kvs ≤ (wireEntries kvs).length :=
      Tree.depthEntries_le.mpr fun kv hkv => le_trans (ih kv hkv) (wire_le_wireEntries hkv)
    rw [wire_map, List.length_append, Tree.depth]; omega
  | _ => exact Nat.zero_le _

/-- Any acceptable tree starts with its head event, whatever follows it. -/
theorem head_tree {r : Raises} {budget : Nat} {t : Tree} (h : t.Ok budget) (rest : Bytes) :
    headWith r budget (wire t ++ rest) = .ok (t.event, t.tail ++ rest) := by
  refine head_iff.mpr ⟨by rw [wire_eq_event, List.append_assoc], ?_, ?_⟩
  · cases t with
    | array xs =>
      obtain ⟨hb, hl, -⟩ := Tree.ok_array.mp h
      have := length_le_wireList xs
      exact ⟨hb, hl, by rw [Tree.tail, List.length_append]; omega⟩
    | map kvs =>
      obtain ⟨hb, hl, -⟩ := Tree.ok_map.mp h
      have := length_le_wireEntries kvs
      exact ⟨hb, hl, by rw [Tree.tail, List.length_append]; omega⟩
    | bytes b => exact h.fits
    | str s => exact h.fits
    | _ => trivial
  · cases t with
    | number n => exact h.fits
    | _ => trivial

/-! ## Element loops -/

/-- Read `remaining` elements one after the other:
`while let Some(elem) = seq.next_element()? { result.push(elem) }`.
mirrors executor/crates/calldata/src/codec/de/bin.rs:248-267 -/
def seqLoop {ε α : Type} (next : Bytes → Except ε (α × Bytes)) :
    Nat → Bytes → Except ε (List α × Bytes)
  | 0, data => .ok ([], data)
  | remaining + 1, data => do
    let (elem, data) ← next data
    let (elems, data) ← seqLoop next remaining data
    .ok (elem :: elems, data)

/-- If `next` reads the trees in `P` and converts them by `f`, the loop reads lists of them. -/
theorem seqLoop_iff {ε α : Type} {next : Bytes → Except ε (α × Bytes)} {P : Tree → Prop}
    {f : Tree → Option α}
    (h : ∀ d v r, next d = .ok (v, r) ↔ ∃ t, d = wire t ++ r ∧ P t ∧ f t = some v) :
    ∀ {n : Nat} {d : Bytes} {vs : List α} {r : Bytes}, seqLoop next n d = .ok (vs, r) ↔
      ∃ ts, ts.length = n ∧ d = wireList ts ++ r ∧ (∀ t ∈ ts, P t) ∧ ts.mapM f = some vs
  | 0, d, vs, r => by
    simp only [seqLoop, Except.ok.injEq, Prod.mk.injEq, List.length_eq_zero_iff]
    constructor
    · rintro ⟨rfl, rfl⟩; exact ⟨[], rfl, rfl, by simp, rfl⟩
    · rintro ⟨ts, rfl, rfl, -, hm⟩
      rw [List.mapM_nil] at hm
      exact ⟨Option.some.inj hm, rfl⟩
  | n + 1, d, vs, r => by
    simp only [seqLoop, Lib.Except.bind_ok, Prod.exists, h, seqLoop_iff h, Except.ok.injEq,
      Prod.mk.injEq]
    constructor
    · rintro ⟨v, d', ⟨t, rfl, hok, hf⟩, vs', d'', ⟨ts, rfl, rfl, hall, hm⟩, rfl, rfl⟩
      refine ⟨t :: ts, rfl, by rw [wireList, List.append_assoc],
        List.forall_mem_cons.mpr ⟨hok, hall⟩, ?_⟩
      rw [List.mapM_cons, hf, hm]; rfl
    · rintro ⟨ts, hl, rfl, hall, hm⟩
      obtain ⟨t, ts, rfl⟩ := List.exists_cons_of_length_eq_add_one hl
      rw [List.forall_mem_cons] at hall
      simp only [List.mapM_cons, Option.bind_eq_bind, Option.bind_eq_some_iff, Option.pure_def] at hm
      obtain ⟨v, hf, vs', hm, hvs⟩ := hm
      cases hvs
      refine ⟨v, wireList ts ++ r, ⟨t, ?_, hall.1, hf⟩, vs', r, ⟨ts, ?_, rfl, hall.2, hm⟩, rfl, rfl⟩
      · rw [wireList, List.append_assoc]
      · simpa using hl

theorem mapM_some {α : Type} (xs : List α) : xs.mapM (fun x => some x) = some xs := by
  induction xs with
  | nil => rfl
  | cons x xs ih => rw [List.mapM_cons, ih]; rfl

/-- The keys collected so far do not pass the previous one. -/
def UpTo {α : Type} (prev : Option String) (acc : List (String × α)) : Prop :=
  ∀ e ∈ acc, ∃ p, prev = some p ∧ (keyLt e.1 p ∨ e.1 = p)

theorem UpTo.below {α : Type} {prev : Option String} {acc : List (String × α)} {k : String} (h : UpTo prev acc)
    (hk : ∀ p, prev = some p → keyLt p k) : ∀ e ∈ acc, keyLt e.1 k := by
  intro e he
  obtain ⟨p, hp, hle | rfl⟩ := h e he
  · exact keyLt_order.trans _ _ _ hle (hk p hp)
  · exact hk _ hp

theorem UpTo.step {α : Type} {prev : Option String} {acc : List (String × α)} {k : String} (h : UpTo prev acc)
    (hk : ∀ p, prev = some p → keyLt p k) (v : α) : UpTo (some k) (acc ++ [(k, v)]) := by
  intro e he
  refine ⟨k, rfl, ?_⟩
  rcases List.mem_append.mp he with he | he
  · exact .inl (h.below hk e he)
  · rw [List.mem_singleton] at he; subst he; exact .inr rfl

end GenVM.Calldata
