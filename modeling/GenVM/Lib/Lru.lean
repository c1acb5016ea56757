import GenVM.Lib.SortedMap

/-!
# A least-recently-used map of fixed capacity

The entries are kept from the most to the least recently used. `get` moves a
hit to the front, `insert` puts the entry in front and drops what no longer
fits.

`above es k` is the set of keys used more recently than `k`, `none` when `k` is
not there. A key survives an insertion exactly while that set, with the new
key, is smaller than the capacity (`above_insert`).
-/
namespace GenVM.Lib

variable {K V : Type} [DecidableEq K] {cap : Nat}

structure Lru (K V : Type) [DecidableEq K] (cap : Nat) where
  entries : List (K × V)
  nodup : (entries.map Prod.fst).Nodup
  size : entries.length ≤ cap

namespace Lru

def new (K V : Type) [DecidableEq K] (cap : Nat) : Lru K V cap := ⟨[], List.nodup_nil, Nat.zero_le _⟩

def peek (l : Lru K V cap) (k : K) : Option V := l.entries.lookup k

/-- The entries with `k` first, wherever it was. -/
def front (k : K) (v : V) (es : List (K × V)) : List (K × V) := (k, v) :: es.filter (·.1 ≠ k)

theorem front_nodup (k : K) (v : V) {es : List (K × V)} (h : (es.map Prod.fst).Nodup) :
    ((front k v es).map Prod.fst).Nodup := by
  unfold front
  rw [List.map_cons, List.nodup_cons]
  constructor
  · intro hk
    obtain ⟨e, he, rfl⟩ := List.mem_map.mp hk
    simpa using (List.mem_filter.mp he).2
  · exact (List.filter_sublist.map _).nodup h

theorem front_size {k : K} {es : List (K × V)} (v : V) (hk : k ∈ es.map Prod.fst) :
    (front k v es).length ≤ es.length := by
  obtain ⟨e, he, rfl⟩ := List.mem_map.mp hk
  unfold front
  rw [List.length_cons]
  exact Nat.lt_of_le_of_ne (List.length_filter_le _ _) fun h =>
    by simpa using List.length_filter_eq_length_iff.mp h e he

theorem lookup_isSome {k : K} : ∀ {es : List (K × V)},
    (es.lookup k).isSome ↔ k ∈ es.map Prod.fst
  | [] => by simp
  | (k', v') :: es => by
    rw [List.lookup_cons, List.map_cons, List.mem_cons]
    split
    · next hk => simp [eq_of_beq hk]
    · next hk =>
      have hne : k ≠ k' := fun h => by simp [h] at hk
      simp [hne, @lookup_isSome k es]

def get (l : Lru K V cap) (k : K) : Option V × Lru K V cap :=
  match h : l.entries.lookup k with
  | some v =>
    (some v, ⟨front k v l.entries, front_nodup k v l.nodup,
      (front_size v (lookup_isSome.mp (by rw [h]; rfl))).trans l.size⟩)
  | none => (none, l)

def insert (l : Lru K V cap) (k : K) (v : V) : Lru K V cap where
  entries := (front k v l.entries).take cap
  nodup := ((List.take_sublist _ _).map _).nodup (front_nodup k v l.nodup)
  size := List.length_take_le _ _

/-- `k` has an entry. -/
def Has (l : Lru K V cap) (k : K) : Prop := (l.peek k).isSome

instance (l : Lru K V cap) (k : K) : Decidable (l.Has k) := by unfold Has; infer_instance

/-- Every entry satisfies `P`. -/
def All (P : K → V → Prop) (l : Lru K V cap) : Prop := ∀ e ∈ l.entries, P e.1 e.2

@[simp] theorem get_fst (l : Lru K V cap) (k : K) : (l.get k).1 = l.peek k := by
  unfold get peek
  split
  · next h => exact h.symm
  · next h => exact h.symm

theorem get_miss {l : Lru K V cap} {k : K} (h : ¬ l.Has k) : (l.get k).2 = l := by
  unfold get
  split
  · next v hv => exact absurd (by rw [Has, peek, hv]; rfl) h
  · rfl

theorem get_hit {l : Lru K V cap} {k : K} (h : l.Has k) :
    ∃ v, l.peek k = some v ∧ (l.get k).2.entries = front k v l.entries := by
  obtain ⟨v, hv⟩ := Option.isSome_iff_exists.mp h
  refine ⟨v, hv, ?_⟩
  unfold get
  split
  · next w hw =>
    obtain rfl : w = v := Option.some.inj (hw.symm.trans hv)
    rfl
  · next hw => rw [peek, hw] at hv; cases hv

@[simp] theorem not_has_new (k : K) : ¬ (new K V cap).Has k := by simp [Has, peek, new]

theorem has_iff {l : Lru K V cap} {k : K} : l.Has k ↔ k ∈ l.entries.map Prod.fst := lookup_isSome

theorem mem_front {k k' : K} {v : V} {es : List (K × V)} :
    k' ∈ (front k v es).map Prod.fst ↔ k' = k ∨ k' ∈ es.map Prod.fst := by
  unfold front
  rw [List.map_cons, List.mem_cons]
  by_cases h : k' = k
  · simp [h]
  · simp only [h, false_or, List.mem_map, List.mem_filter]
    refine exists_congr fun e => and_congr_left fun he => ?_
    rw [and_iff_left_iff_imp]
    intro _
    simpa [he] using h

@[simp] theorem has_get {l : Lru K V cap} {k k' : K} : (l.get k).2.Has k' ↔ l.Has k' := by
  by_cases h : l.Has k
  · obtain ⟨v, -, he⟩ := get_hit h
    rw [has_iff, he, mem_front, ← has_iff]
    exact or_iff_right_of_imp fun hk => hk ▸ h
  · rw [get_miss h]

theorem has_insert {l : Lru K V cap} {k k' : K} {v : V} (h : (l.insert k v).Has k') :
    k' = k ∨ l.Has k' := by
  rw [has_iff] at h ⊢
  exact mem_front.mp ((List.take_sublist _ _).map _ |>.subset h)

/-! ## What the entries hold -/

variable {P : K → V → Prop}

theorem all_new : All P (new K V cap) := by simp [All, new]

theorem All.peek {l : Lru K V cap} (h : All P l) {k : K} {v : V} (hv : l.peek k = some v) : P k v :=
  h (k, v) (SortedMap.mem_of_lookup hv)

theorem All.front {l : Lru K V cap} (h : All P l) {k : K} {v : V} (hv : P k v) :
    ∀ e ∈ front k v l.entries, P e.1 e.2 := by
  intro e he
  rcases List.mem_cons.mp he with rfl | he
  · exact hv
  · exact h e (List.mem_filter.mp he).1

theorem All.get {l : Lru K V cap} (h : All P l) (k : K) : All P (l.get k).2 := by
  by_cases hk : l.Has k
  · obtain ⟨v, hv, he⟩ := get_hit hk
    unfold All
    rw [he]
    exact h.front (h.peek hv)
  · rw [get_miss hk]
    exact h

theorem All.insert {l : Lru K V cap} (h : All P l) {k : K} {v : V} (hv : P k v) :
    All P (l.insert k v) :=
  fun e he => h.front hv e (List.mem_of_mem_take he)

/-! ## Recency -/

/-- The keys in front of `k`. -/
def above : List (K × V) → K → Option (Finset K)
  | [], _ => none
  | (k', _) :: es, k => if k' = k then some ∅ else (above es k).map (Insert.insert k')

theorem above_isSome : ∀ {es : List (K × V)} {k : K}, (above es k).isSome ↔ k ∈ es.map Prod.fst
  | [], k => by simp [above]
  | (k', v') :: es, k => by
    rw [above, List.map_cons, List.mem_cons]
    split
    · next h => simp [h]
    · next h => simp [Ne.symm h, @above_isSome es k]

theorem above_subset : ∀ {es : List (K × V)} {k : K} {S : Finset K}, above es k = some S →
    ∀ q ∈ S, q ∈ es.map Prod.fst
  | [], k, S, h => by simp [above] at h
  | (k', v') :: es, k, S, h => by
    rw [above] at h
    split at h
    · obtain rfl := Option.some.inj h
      simp
    · obtain ⟨S', hS', rfl⟩ := Option.map_eq_some_iff.mp h
      intro q hq
      rw [List.map_cons, List.mem_cons]
      exact (Finset.mem_insert.mp hq).imp_right (above_subset hS' q)

/-- The keys in front are as many as the position. -/
theorem above_take : ∀ {es : List (K × V)} (_ : (es.map Prod.fst).Nodup) (n : Nat) (k : K),
    above (es.take n) k = (above es k).filter fun S => S.card < n
  | [], _, n, k => by simp [above]
  | (k', v') :: es, h, 0, k => by simp [above]
  | (k', v') :: es, h, n + 1, k => by
    rw [List.map_cons, List.nodup_cons] at h
    rw [List.take_succ_cons, above, above]
    split
    · simp [Option.filter]
    · rw [above_take h.2 n k]
      cases hS : above es k with
      | none => rfl
      | some S =>
        have hnot : k' ∉ S := fun hk => h.1 (above_subset hS k' hk)
        have hcard : (Insert.insert k' S).card = S.card + 1 := Finset.card_insert_of_notMem hnot
        simp only [Option.filter, Option.map_some, hcard]
        split <;> simp_all

theorem above_filter {q k : K} (hq : q ≠ k) : ∀ (es : List (K × V)),
    above (es.filter (·.1 ≠ q)) k = (above es k).map (·.erase q)
  | [] => rfl
  | (k', v') :: es => by
    by_cases hk : k' = q
    · subst hk
      rw [List.filter_cons_of_neg (by simp), above_filter hq es, above, if_neg hq, Option.map_map]
      congr 1
      funext S
      exact (Finset.erase_insert_eq_erase S k').symm
    · rw [List.filter_cons_of_pos (by simpa using hk), above, above]
      split
      · simp
      · rw [above_filter hq es, Option.map_map, Option.map_map]
        congr 1
        funext S
        exact (Finset.erase_insert_of_ne hk).symm

theorem above_front {q k : K} (hq : q ≠ k) (v : V) (es : List (K × V)) :
    above (front q v es) k = (above es k).map (Insert.insert q) := by
  rw [front, above, if_neg hq, above_filter hq, Option.map_map]
  congr 1
  funext S
  ext x
  by_cases hx : x = q <;> simp [hx]

/-- The keys used more recently than `k`. -/
def newer (l : Lru K V cap) (k : K) : Option (Finset K) := above l.entries k

theorem newer_isSome {l : Lru K V cap} {k : K} : (l.newer k).isSome ↔ l.Has k :=
  above_isSome.trans has_iff.symm

theorem newer_get_self {l : Lru K V cap} {k : K} (h : l.Has k) : (l.get k).2.newer k = some ∅ := by
  obtain ⟨v, -, he⟩ := get_hit h
  rw [newer, he, front, above, if_pos rfl]

theorem newer_get {l : Lru K V cap} {q k : K} (hq : q ≠ k) (h : l.Has q) :
    (l.get q).2.newer k = (l.newer k).map (Insert.insert q) := by
  obtain ⟨v, -, he⟩ := get_hit h
  rw [newer, he, above_front hq]
  rfl

theorem newer_insert {l : Lru K V cap} {q k : K} (hq : q ≠ k) (v : V) :
    (l.insert q v).newer k = ((l.newer k).map (Insert.insert q)).filter fun S => S.card < cap := by
  rw [newer, insert, above_take (front_nodup q v l.nodup), above_front hq]
  rfl

theorem newer_card {l : Lru K V cap} {k : K} {S : Finset K} (h : l.newer k = some S) :
    S.card < cap := by
  have ht := above_take l.nodup cap k
  rw [List.take_of_length_le l.size, show above l.entries k = some S from h] at ht
  have := Option.filter_eq_some_iff.mp ht.symm
  exact of_decide_eq_true this.2

end Lru

end GenVM.Lib
