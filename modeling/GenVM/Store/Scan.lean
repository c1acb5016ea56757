import GenVM.Store.Fill

/-!
# Cutting the known ends of a range

Both loops look up pages as long as they are known, so all they do to the state
is refresh those pages in the cache (`touch`). `u` and `b` are the first and
the last unknown page of a range: between them the host is asked.
-/
namespace GenVM.Store
open GenVM.Lib
open GenVM.Calldata (Bytes)

/-- Look the pages up one after the other. -/
def touch (slot : SlotID) (qs : List Nat) (s : Storage) : Storage :=
  qs.foldl (fun s q => (s.lookup ⟨slot, q⟩).2) s

/-- The keys of the pages of a slot. -/
def keysOf (slot : SlotID) (A : Finset Nat) : Finset PageID := A.image (PageID.mk slot)

section
variable {host : Content} {slot : SlotID} {s : Storage}

theorem card_keysOf (A : Finset Nat) : (keysOf slot A).card = A.card :=
  Finset.card_image_of_injective A fun _ _ h => congrArg PageID.index h

theorem insert_keysOf (q : Nat) (A : Finset Nat) :
    insert ⟨slot, q⟩ (keysOf slot A) = keysOf slot (insert q A) := by
  unfold keysOf
  rw [Finset.image_insert]

theorem touch_cons (q : Nat) (qs : List Nat) :
    touch slot (q :: qs) s = touch slot qs (s.lookup ⟨slot, q⟩).2 := rfl

theorem touch_append (qs rs : List Nat) :
    touch slot (qs ++ rs) s = touch slot rs (touch slot qs s) := List.foldl_append

@[simp] theorem touch_pages (qs : List Nat) : ∀ s, (touch slot qs s).pages = s.pages := by
  induction qs with
  | nil => exact fun s => rfl
  | cons q qs ih => exact fun s => (ih _).trans (lookup_pages s _)

theorem touch_has (qs : List Nat) (k : PageID) :
    ∀ s, (touch slot qs s).cache.Has k ↔ s.cache.Has k := by
  induction qs with
  | nil => exact fun s => Iff.rfl
  | cons q qs ih => exact fun s => (ih _).trans lookup_has

theorem touch_known (qs : List Nat) (k : PageID) : (touch slot qs s).Known k ↔ s.Known k :=
  or_congr (overridden_congr (touch_pages qs s)) (touch_has qs k s)

theorem touch_coherent (qs : List Nat) :
    ∀ s : Storage, s.Coherent host → (touch slot qs s).Coherent host := by
  induction qs with
  | nil => exact fun s h => h
  | cons q qs ih => exact fun s h => ih _ (lookup_coherent h _)

/-- The loop stops at the first page of `rest`. -/
theorem cutKnown_eq (bound : Nat → Nat) {rest : List Nat} : ∀ (ks : List Nat) (acc : Nat)
    (s : Storage), (∀ q ∈ ks, s.Known ⟨slot, q⟩) → (∀ q ∈ rest.head?, ¬ s.Known ⟨slot, q⟩) →
    cutKnown slot bound (ks ++ rest) acc s = ((ks.getLast?.map bound).getD acc, touch slot ks s)
  | [], acc, s, _, hr => by
    cases rest with
    | nil => rfl
    | cons q rest =>
      rw [List.nil_append, cutKnown, lookup_none (hr q rfl)]
      rfl
  | q :: ks, acc, s, hk, hr => by
    rw [List.forall_mem_cons] at hk
    obtain ⟨page, hp⟩ := lookup_some hk.1
    have hks : ∀ p ∈ ks, (s.lookup ⟨slot, q⟩).2.Known ⟨slot, p⟩ :=
      fun p hp => lookup_known.mpr (hk.2 p hp)
    have hrest : ∀ p ∈ rest.head?, ¬ (s.lookup ⟨slot, q⟩).2.Known ⟨slot, p⟩ :=
      fun p hp h => hr p hp (lookup_known.mp h)
    rw [List.cons_append, cutKnown, hp]
    dsimp only
    rw [cutKnown_eq bound ks _ _ hks hrest, touch_cons]
    cases ks with
    | nil => rfl
    | cons p ks =>
      rw [List.getLast?_cons_cons]
      cases h : (p :: ks).getLast? with
      | none => simp at h
      | some x => rfl

/-- What looking known pages up does to the recency of another page. -/
theorem touch_newer {p : Nat} : ∀ (qs : List Nat) (s : Storage), p ∉ qs →
    (∀ q ∈ qs, s.Known ⟨slot, q⟩) →
    (touch slot qs s).cache.newer ⟨slot, p⟩ = (s.cache.newer ⟨slot, p⟩).map
      (keysOf slot (qs.filter fun q => ¬ s.Overridden ⟨slot, q⟩).toFinset ∪ ·)
  | [], s, _, _ => by simp [touch, keysOf]
  | q :: qs, s, hp, hk => by
    rw [List.mem_cons, not_or] at hp
    rw [List.forall_mem_cons] at hk
    have hks : ∀ r ∈ qs, (s.lookup ⟨slot, q⟩).2.Known ⟨slot, r⟩ :=
      fun r hr => lookup_known.mpr (hk.2 r hr)
    have hov : ∀ r, (s.lookup ⟨slot, q⟩).2.Overridden ⟨slot, r⟩ ↔ s.Overridden ⟨slot, r⟩ :=
      fun r => overridden_congr (lookup_pages s _)
    rw [touch_cons, touch_newer qs _ hp.2 hks]
    simp only [hov]
    by_cases ho : s.Overridden ⟨slot, q⟩
    · obtain ⟨page, -, hl⟩ := lookup_overridden ho
      rw [hl, List.filter_cons_of_neg (by simpa using ho)]
    · have hne : (⟨slot, q⟩ : PageID) ≠ ⟨slot, p⟩ := fun h => hp.1 (congrArg PageID.index h).symm
      rw [(lookup_not_overridden ho).2, Lru.newer_get hne (hk.1.resolve_left ho), Option.map_map,
        List.filter_cons_of_pos (by simpa using ho), List.toFinset_cons, ← insert_keysOf]
      congr 1
      funext S
      show keysOf slot _ ∪ insert _ S = insert _ (keysOf slot _) ∪ S
      rw [Finset.union_insert, Finset.insert_union]

theorem touch_newer_self {p : Nat} {qs : List Nat} (ho : ¬ s.Overridden ⟨slot, p⟩)
    (hc : s.cache.Has ⟨slot, p⟩) (hp : p ∉ qs) (hk : ∀ q ∈ qs, s.Known ⟨slot, q⟩) :
    (touch slot (p :: qs) s).cache.newer ⟨slot, p⟩ =
      some (keysOf slot (qs.filter fun q => ¬ s.Overridden ⟨slot, q⟩).toFinset) := by
  have hov : ∀ r, (s.lookup ⟨slot, p⟩).2.Overridden ⟨slot, r⟩ ↔ s.Overridden ⟨slot, r⟩ :=
    fun r => overridden_congr (lookup_pages s _)
  rw [touch_cons, touch_newer qs _ hp fun r hr => lookup_known.mpr (hk r hr)]
  simp only [hov]
  rw [(lookup_not_overridden ho).2, Lru.newer_get_self hc]
  simp

/-! ## The first and the last unknown page -/

/-- The unknown pages of `start_page..=end_page` lie from `u` to `b`. -/
structure Unknown (s : Storage) (slot : SlotID) (sp ep u b : Nat) : Prop where
  first : ¬ s.Known ⟨slot, u⟩
  last : ¬ s.Known ⟨slot, b⟩
  sp_le : sp ≤ u
  le : u ≤ b
  le_ep : b ≤ ep
  before : ∀ q, sp ≤ q → q < u → s.Known ⟨slot, q⟩
  after : ∀ q, b < q → q ≤ ep → s.Known ⟨slot, q⟩

theorem exists_unknown {sp ep q : Nat} (h1 : sp ≤ q) (h2 : q ≤ ep) (hq : ¬ s.Known ⟨slot, q⟩) :
    ∃ u b, Unknown s slot sp ep u b := by
  obtain ⟨A, hA⟩ : ∃ A : Finset Nat, ∀ r, r ∈ A ↔ (sp ≤ r ∧ r ≤ ep) ∧ ¬ s.Known ⟨slot, r⟩ :=
    ⟨(Finset.Icc sp ep).filter fun r => ¬ s.Known ⟨slot, r⟩, by simp⟩
  have hne : A.Nonempty := ⟨q, (hA q).mpr ⟨⟨h1, h2⟩, hq⟩⟩
  obtain ⟨hu, hu'⟩ := (hA _).mp (A.min'_mem hne)
  obtain ⟨hb, hb'⟩ := (hA _).mp (A.max'_mem hne)
  refine ⟨_, _, hu', hb', hu.1, A.min'_le_max' hne, hb.2, ?_, ?_⟩
  · intro r hr hlt
    by_contra hk
    have := A.min'_le r ((hA r).mpr ⟨⟨hr, by omega⟩, hk⟩)
    omega
  · intro r hlt hr
    by_contra hk
    have := A.le_max' r ((hA r).mpr ⟨⟨by omega, hr⟩, hk⟩)
    omega

theorem range'_split {sp m ep : Nat} (h1 : sp ≤ m) (h2 : m ≤ ep + 1) :
    List.range' sp (ep + 1 - sp) = List.range' sp (m - sp) ++ List.range' m (ep + 1 - m) := by
  rw [show ep + 1 - sp = m - sp + (ep + 1 - m) by omega, ← List.range'_append_1,
    show sp + (m - sp) = m by omega]

/-- The first loop, when some page is unknown. -/
theorem cut_head {sp ep u b : Nat} (h : Unknown s slot sp ep u b) (acc : Nat) :
    cutKnown slot (fun p => (p + 1) * 32) (List.range' sp (ep + 1 - sp)) acc s =
      (if u = sp then acc else u * 32, touch slot (List.range' sp (u - sp)) s) := by
  have hle := h.le.trans h.le_ep
  rw [range'_split h.sp_le (hle.trans (Nat.le_succ ep)), cutKnown_eq]
  · congr 1
    split
    · next hu => simp [hu]
    · have := h.sp_le
      rw [List.getLast?_range', if_neg (by omega)]
      show (sp + (u - sp) - 1 + 1) * 32 = u * 32
      omega
  · intro q hq
    rw [List.mem_range'_1] at hq
    exact h.before q hq.1 (by omega)
  · intro q hq
    rw [List.head?_range', if_neg (by omega)] at hq
    obtain rfl := Option.some.inj hq
    exact h.first

/-- The second loop, when some page is unknown. -/
theorem cut_suffix {sp ep u b : Nat} (h : Unknown s slot sp ep u b) (acc : Nat) :
    cutKnown slot (fun p => p * 32) (List.range' sp (ep + 1 - sp)).reverse acc s =
      (if b = ep then acc else (b + 1) * 32,
        touch slot (List.range' (b + 1) (ep - b)).reverse s) := by
  have hle := h.sp_le.trans h.le
  rw [range'_split (show sp ≤ b + 1 by omega) (Nat.succ_le_succ h.le_ep), List.reverse_append,
    Nat.add_sub_add_right, cutKnown_eq]
  · congr 1
    rw [List.getLast?_reverse, List.head?_range']
    have := h.le_ep
    split
    · rw [if_pos (by omega)]
      rfl
    · rw [if_neg (by omega)]
      rfl
  · intro q hq
    rw [List.mem_reverse, List.mem_range'_1] at hq
    exact h.after q (by omega) (by have := h.le_ep; omega)
  · intro q hq
    rw [List.head?_reverse, List.getLast?_range', if_neg (by omega)] at hq
    obtain rfl := Option.some.inj hq
    rw [show sp + (b + 1 - sp) - 1 = b by omega]
    exact h.last

/-- Either loop, when every page is known. -/
theorem cut_all (bound : Nat → Nat) {ks : List Nat} (hk : ∀ q ∈ ks, s.Known ⟨slot, q⟩) (acc : Nat) :
    cutKnown slot bound ks acc s = ((ks.getLast?.map bound).getD acc, touch slot ks s) := by
  have hrest : ∀ q ∈ ([] : List Nat).head?, ¬ s.Known ⟨slot, q⟩ := by simp
  have h := cutKnown_eq bound ks acc s hk hrest
  rwa [List.append_nil] at h

end

end GenVM.Store
