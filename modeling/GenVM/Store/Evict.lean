import GenVM.Store.Scan

/-!
# Which pages a read loses on the way

Between the scan for the known suffix and the turn of one of its pages `p`, the
loop refreshes or inserts other pages. `moved` says which: the cached pages, and
the unknown whole pages once the staging buffer is full. `p` is still there at
its turn exactly when they are fewer than the capacity (`kept_iff`).
-/
namespace GenVM.Store
open GenVM.Lib
open GenVM.Calldata (Bytes)

/-- The page is not known and the range covers it from its first byte. -/
def UnknownWhole (s : Storage) (slot : SlotID) (start_index q : Nat) : Prop :=
  ¬ s.Known ⟨slot, q⟩ ∧ start_index ≤ q * 32

instance (s : Storage) (slot : SlotID) (start_index q : Nat) :
    Decidable (UnknownWhole s slot start_index q) := by unfold UnknownWhole; infer_instance

/-- How many pages before `n` the read has to put to the cache. -/
def unknownBefore (s : Storage) (slot : SlotID) (start_index n : Nat) : Nat :=
  ((Finset.Ico (start_index / 32) n).filter (UnknownWhole s slot start_index)).card

/-- Page `q` becomes more recent than the suffix before the loop gets there: it
is in the cache, or it is fetched when the staging buffer is already full. -/
def Moved (s : Storage) (slot : SlotID) (start_index q : Nat) : Prop :=
  ¬ s.Overridden ⟨slot, q⟩ ∧ (s.cache.Has ⟨slot, q⟩ ∨
    start_index ≤ q * 32 ∧ PUT_TO_CACHE_SIZE ≤ unknownBefore s slot start_index q)

instance (s : Storage) (slot : SlotID) (start_index q : Nat) :
    Decidable (Moved s slot start_index q) := by unfold Moved; infer_instance

/-- The pages before `n` that become more recent. -/
def moved (s : Storage) (slot : SlotID) (start_index n : Nat) : Finset Nat :=
  (Finset.Ico (start_index / 32) n).filter (Moved s slot start_index)

/-- The loop, over the first `k` pages. -/
def fillTo (slot : SlotID) (start_index end_index nhs nhe : Nat) (f : Fill) (k : Nat) : Fill :=
  (List.range' (start_index / 32) k).foldl (fillPage slot start_index end_index nhs nhe) f

section
variable {s : Storage} {slot : SlotID} {start_index end_index nhs nhe : Nat} {f : Fill}

theorem fillTo_succ (k : Nat) : fillTo slot start_index end_index nhs nhe f (k + 1) =
    fillPage slot start_index end_index nhs nhe
      (fillTo slot start_index end_index nhs nhe f k) (start_index / 32 + k) := by
  rw [fillTo, List.range'_1_concat, List.foldl_append]
  rfl

theorem unknownBefore_succ {n : Nat} (h : start_index / 32 ≤ n) :
    unknownBefore s slot start_index (n + 1) = unknownBefore s slot start_index n +
      if UnknownWhole s slot start_index n then 1 else 0 := by
  unfold unknownBefore
  rw [← Finset.insert_Ico_right_eq_Ico_add_one h, Finset.filter_insert]
  split
  · exact Finset.card_insert_of_notMem (by simp)
  · rfl

theorem moved_succ {n : Nat} (h : start_index / 32 ≤ n) : moved s slot start_index (n + 1) =
    if Moved s slot start_index n then insert n (moved s slot start_index n)
    else moved s slot start_index n := by
  unfold moved
  rw [← Finset.insert_Ico_right_eq_Ico_add_one h, Finset.filter_insert]

/-! ## Before the first unknown page -/

/-- Over known pages the loop puts nothing into the cache. -/
theorem fillTo_known : ∀ {k : Nat}, (∀ i < k, f.storage.Known ⟨slot, start_index / 32 + i⟩) →
    ∀ key, (fillTo slot start_index end_index nhs nhe f k).storage.Known key ↔ f.storage.Known key
  | 0, _, _ => Iff.rfl
  | k + 1, h, key => by
    have ih := @fillTo_known k fun i hi => h i (by omega)
    rw [fillTo_succ]
    rcases fillPage_cases slot start_index end_index nhs nhe
      (fillTo slot start_index end_index nhs nhe f k) (start_index / 32 + k) with
      ⟨-, hs, -⟩ | ⟨hn, -⟩
    · rw [hs, lookup_known]
      exact ih key
    · exact absurd ((ih _).mpr (h k (by omega))) hn

/-! ## After the last unknown page -/

/-- The keys in front of the page followed, if it is still there. -/
def capped (slot : SlotID) (A : Finset Nat) : Option (Finset PageID) :=
  if A.card < STORAGE_CACHE_SIZE then some (keysOf slot A) else none

theorem capped_insert (q : Nat) (A : Finset Nat) :
    ((capped slot A).map (insert ⟨slot, q⟩)).filter (fun S => S.card < STORAGE_CACHE_SIZE) =
      capped slot (insert q A) := by
  have hle := Finset.card_le_card (Finset.subset_insert q A)
  unfold capped
  by_cases h : A.card < STORAGE_CACHE_SIZE
  · rw [if_pos h, Option.map_some, insert_keysOf, Option.filter_some, card_keysOf]
    split <;> simp_all
  · rw [if_neg h, if_neg (by omega)]
    rfl

theorem capped_get {l : Lru PageID Page STORAGE_CACHE_SIZE} {p q : Nat} {A : Finset Nat}
    (hne : q ≠ p) (hq : l.Has ⟨slot, q⟩) (h : l.newer ⟨slot, p⟩ = capped slot A) :
    (l.get ⟨slot, q⟩).2.newer ⟨slot, p⟩ = capped slot (insert q A) := by
  have hk : (⟨slot, q⟩ : PageID) ≠ ⟨slot, p⟩ := fun hk => hne (congrArg PageID.index hk)
  rw [← capped_insert, ← h, ← Lru.newer_get hk hq]
  cases hS : (l.get ⟨slot, q⟩).2.newer ⟨slot, p⟩ with
  | none => rfl
  | some S => rw [Option.filter_some, if_pos (by simpa using Lru.newer_card hS)]

theorem capped_put {l : Lru PageID Page STORAGE_CACHE_SIZE} {p q : Nat} {A : Finset Nat}
    (page : Page) (hne : q ≠ p) (h : l.newer ⟨slot, p⟩ = capped slot A) :
    (l.insert ⟨slot, q⟩ page).newer ⟨slot, p⟩ = capped slot (insert q A) := by
  have hk : (⟨slot, q⟩ : PageID) ≠ ⟨slot, p⟩ := fun hk => hne (congrArg PageID.index hk)
  rw [Lru.newer_insert hk, h, capped_insert]

/-- What holds of the loop before page `n`, for a cached page `p` that the scan
for the suffix refreshed; `A` are the pages that scan refreshed after `p`. -/
structure Following (s : Storage) (slot : SlotID) (start_index p : Nat) (A : Finset Nat) (n : Nat)
    (f : Fill) : Prop where
  pages : f.storage.pages = s.pages
  staged : f.put_to_cache.length = min PUT_TO_CACHE_SIZE (unknownBefore s slot start_index n)
  /-- The pages still to come are cached only if they were. -/
  old : ∀ q, n ≤ q → f.storage.cache.Has ⟨slot, q⟩ → s.cache.Has ⟨slot, q⟩
  /-- Nothing leaves the cache while the staging buffer takes the new pages. -/
  keep : unknownBefore s slot start_index n ≤ PUT_TO_CACHE_SIZE →
    ∀ k, f.storage.cache.Has k ↔ s.cache.Has k
  newer : f.storage.cache.newer ⟨slot, p⟩ = capped slot (A ∪ moved s slot start_index n)

theorem insert_union_moved {A : Finset Nat} {n : Nat} (h : start_index / 32 ≤ n)
    (hm : Moved s slot start_index n) :
    insert n (A ∪ moved s slot start_index n) = A ∪ moved s slot start_index (n + 1) := by
  rw [moved_succ h, if_pos hm, Finset.union_insert]

theorem moved_of_not {n : Nat} (h : start_index / 32 ≤ n) (hm : ¬ Moved s slot start_index n) :
    moved s slot start_index (n + 1) = moved s slot start_index n := by
  rw [moved_succ h, if_neg hm]

/-- An unknown page before `n`, once some were counted. -/
theorem exists_of_unknownBefore {n : Nat} (h : 0 < unknownBefore s slot start_index n) :
    ∃ q, start_index / 32 ≤ q ∧ q < n ∧ ¬ s.Known ⟨slot, q⟩ := by
  obtain ⟨q, hq⟩ := Finset.card_pos.mp h
  obtain ⟨hI, hU⟩ := Finset.mem_filter.mp hq
  rw [Finset.mem_Ico] at hI
  exact ⟨q, hI.1, hI.2, hU.1⟩

/-- The turn of a page that is known by then. -/
theorem Following.step_known {p : Nat} {A : Finset Nat} {n : Nat}
    (h : Following s slot start_index p A n f) (hn : start_index / 32 ≤ n) (hp : n < p)
    (hk : f.storage.Known ⟨slot, n⟩) {f' : Fill}
    (hs : f'.storage = (f.storage.lookup ⟨slot, n⟩).2) (hc : f'.put_to_cache = f.put_to_cache) :
    Following s slot start_index p A (n + 1) f' := by
  have hov := @overridden_congr s ⟨slot, n⟩ f.storage h.pages
  have hsk : s.Known ⟨slot, n⟩ := hk.imp hov.mp (h.old n le_rfl)
  have hub : unknownBefore s slot start_index (n + 1) = unknownBefore s slot start_index n := by
    rw [unknownBefore_succ hn, if_neg fun hu => hu.1 hsk, Nat.add_zero]
  refine ⟨?_, ?_, ?_, ?_, ?_⟩
  · rw [hs, lookup_pages]
    exact h.pages
  · rw [hc, hub]
    exact h.staged
  · intro q hq hhas
    rw [hs, lookup_has] at hhas
    exact h.old q (by omega) hhas
  · intro hle k
    rw [hub] at hle
    rw [hs, lookup_has]
    exact h.keep hle k
  · rw [hs]
    by_cases ho : f.storage.Overridden ⟨slot, n⟩
    · obtain ⟨page, -, hl⟩ := lookup_overridden ho
      rw [hl, moved_of_not hn fun hm => hm.1 (hov.mp ho)]
      exact h.newer
    · have hhas := hk.resolve_left ho
      have hm : Moved s slot start_index n := ⟨fun h' => ho (hov.mpr h'), .inl (h.old n le_rfl hhas)⟩
      rw [(lookup_not_overridden ho).2, ← insert_union_moved hn hm]
      exact capped_get (by omega) hhas h.newer

/-- The turn of a page the host read and the staging buffer takes. -/
theorem Following.step_stage {p : Nat} {A : Finset Nat} {n : Nat}
    (h : Following s slot start_index p A n f) (hn : start_index / 32 ≤ n)
    (hu : UnknownWhole s slot start_index n)
    (hl : f.put_to_cache.length < PUT_TO_CACHE_SIZE) {f' : Fill} {item : PageID × Page}
    (hs : f'.storage = f.storage) (hc : f'.put_to_cache = f.put_to_cache ++ [item]) :
    Following s slot start_index p A (n + 1) f' := by
  have hst := h.staged
  have hub : unknownBefore s slot start_index (n + 1) = unknownBefore s slot start_index n + 1 := by
    rw [unknownBefore_succ hn, if_pos hu]
  have hm : ¬ Moved s slot start_index n := by
    rintro ⟨ho, hc | ⟨-, h8⟩⟩
    · exact hu.1 (.inr hc)
    · omega
  refine ⟨by rw [hs]; exact h.pages, ?_, ?_, ?_, ?_⟩
  · rw [hc, hub, List.length_append, List.length_singleton]
    omega
  · intro q hq
    rw [hs]
    exact h.old q (by omega)
  · intro _
    rw [hs]
    exact h.keep (by omega)
  · rw [hs, moved_of_not hn hm]
    exact h.newer

/-- The turn of a page that goes straight to the cache. -/
theorem Following.step_insert {p : Nat} {A : Finset Nat} {n : Nat}
    (h : Following s slot start_index p A n f) (hn : start_index / 32 ≤ n) (hp : n < p)
    (hm : Moved s slot start_index n)
    (hfull : UnknownWhole s slot start_index n ∨
      PUT_TO_CACHE_SIZE < unknownBefore s slot start_index n)
    (hl : PUT_TO_CACHE_SIZE ≤ f.put_to_cache.length) {f' : Fill} {page : Page}
    (hs : f'.storage = { f.storage with cache := f.storage.cache.insert ⟨slot, n⟩ page })
    (hc : f'.put_to_cache = f.put_to_cache) :
    Following s slot start_index p A (n + 1) f' := by
  have hst := h.staged
  have hlt : PUT_TO_CACHE_SIZE < unknownBefore s slot start_index (n + 1) := by
    rw [unknownBefore_succ hn]
    rcases hfull with hu | hb
    · rw [if_pos hu]
      omega
    · exact Nat.lt_of_lt_of_le hb (Nat.le_add_right _ _)
  refine ⟨by rw [hs]; exact h.pages, ?_, ?_, ?_, ?_⟩
  · rw [hc]
    omega
  · intro q hq hhas
    rw [hs] at hhas
    rcases Lru.has_insert hhas with he | hhas
    · have : q = n := congrArg PageID.index he
      omega
    · exact h.old q (by omega) hhas
  · intro hle
    omega
  · rw [hs, ← insert_union_moved hn hm]
    exact capped_put page (by omega) h.newer

/-- The turn of a page the loop skips. -/
theorem Following.step_skip {p : Nat} {A : Finset Nat} {n : Nat}
    (h : Following s slot start_index p A n f) (hn : start_index / 32 ≤ n)
    (hu : ¬ UnknownWhole s slot start_index n) (hm : Moved s slot start_index n → n ∈ A) :
    Following s slot start_index p A (n + 1) f := by
  have hub : unknownBefore s slot start_index (n + 1) = unknownBefore s slot start_index n := by
    rw [unknownBefore_succ hn, if_neg hu, Nat.add_zero]
  refine ⟨h.pages, hub ▸ h.staged, fun q hq => h.old q (by omega), hub ▸ h.keep, ?_⟩
  by_cases hM : Moved s slot start_index n
  · rw [← insert_union_moved hn hM,
      Finset.insert_eq_of_mem (Finset.mem_union_left _ (hm hM))]
    exact h.newer
  · rw [moved_of_not hn hM]
    exact h.newer

/-- The bounds the host is asked for when `u` is the first and `b` the last
unknown page, and `b` is not the last page of the range. -/
structure Bounds (start_index u b nhs nhe : Nat) : Prop where
  nhs_eq : nhs = if u = start_index / 32 then start_index else u * 32
  nhe_eq : nhe = (b + 1) * 32

theorem Following.step {ep u b p : Nat} {A : Finset Nat} {n : Nat}
    (hU : Unknown s slot (start_index / 32) ep u b) (hB : Bounds start_index u b nhs nhe)
    (hA : ∀ q, b < q → q < p → ¬ s.Overridden ⟨slot, q⟩ → q ∈ A)
    (h : Following s slot start_index p A n f) (hn : start_index / 32 ≤ n) (hp : n < p)
    (hep : p ≤ ep) :
    Following s slot start_index p A (n + 1)
      (fillPage slot start_index end_index nhs nhe f n) := by
  obtain ⟨hnhs, hnhe⟩ := hB
  have hsp := hU.sp_le
  have hub := hU.le
  have hov := @overridden_congr s ⟨slot, n⟩ f.storage h.pages
  rcases fillPage_cases slot start_index end_index nhs nhe f n with ⟨hk, hs, hc⟩ | ⟨hk, -, hcase⟩
  · exact h.step_known hn hp hk hs hc
  have hno : ¬ s.Overridden ⟨slot, n⟩ := fun ho => hk (.inl (hov.mpr ho))
  by_cases hhas : s.cache.Has ⟨slot, n⟩
  · -- the page was cached and is gone: an insertion took its place, so the buffer is full
    have hfull : PUT_TO_CACHE_SIZE < unknownBefore s slot start_index n := by
      by_contra hle
      exact hk (.inr ((h.keep (not_lt.mp hle) _).mpr hhas))
    obtain ⟨r, hr1, hr2, hr3⟩ := exists_of_unknownBefore (Nat.zero_lt_of_lt hfull)
    have hur : u ≤ r := by
      by_contra hlt
      exact hr3 (hU.before r hr1 (not_le.mp hlt))
    have hnb : n ≠ b := fun hnb => hU.last (.inr (hnb ▸ hhas))
    rcases hcase with ⟨-, page, -, hput⟩ | ⟨hout, hf⟩
    · rcases hput with ⟨hl, -⟩ | ⟨hl, hs, hc⟩
      · have := h.staged
        omega
      · exact h.step_insert hn hp ⟨hno, .inl hhas⟩ (.inr hfull) hl hs hc
    · rw [hf]
      have hbn : b < n := by
        by_contra hlt
        refine hout ⟨?_, by omega⟩
        rw [hnhs]
        split <;> omega
      exact h.step_skip hn (fun hu => hu.1 (.inr hhas)) fun _ => hA n hbn hp hno
  · have hunk : ¬ s.Known ⟨slot, n⟩ := not_or.mpr ⟨hno, hhas⟩
    have hun : u ≤ n := by
      by_contra hlt
      exact hunk (hU.before n hn (not_le.mp hlt))
    have hnb : n ≤ b := by
      by_contra hlt
      exact hunk (hU.after n (not_le.mp hlt) (by omega))
    rcases hcase with ⟨hin, page, -, hput⟩ | ⟨hout, hf⟩
    · have hw : start_index ≤ n * 32 := by
        have := hin.1
        rw [hnhs] at this
        split at this <;> omega
      rcases hput with ⟨hl, hs, hc⟩ | ⟨hl, hs, hc⟩
      · exact h.step_stage hn ⟨hunk, hw⟩ hl hs hc
      · have h8 : PUT_TO_CACHE_SIZE ≤ unknownBefore s slot start_index n := by
          have := h.staged
          omega
        exact h.step_insert hn hp ⟨hno, .inr ⟨hw, h8⟩⟩ (.inl ⟨hunk, hw⟩) hl hs hc
    · rw [hf]
      have hpart : ¬ start_index ≤ n * 32 := by
        intro hw
        refine hout ⟨?_, by omega⟩
        rw [hnhs]
        split <;> omega
      refine h.step_skip hn (fun hu => hpart hu.2) fun hm => ?_
      exact absurd hm.2 (not_or.mpr ⟨hhas, fun h' => hpart h'.1⟩)

theorem Following.run {ep u b p : Nat} {A : Finset Nat}
    (hU : Unknown s slot (start_index / 32) ep u b) (hB : Bounds start_index u b nhs nhe)
    (hA : ∀ q, b < q → q < p → ¬ s.Overridden ⟨slot, q⟩ → q ∈ A) (hep : p ≤ ep)
    (h : Following s slot start_index p A (start_index / 32) f) :
    ∀ {k : Nat}, start_index / 32 + k ≤ p →
      Following s slot start_index p A (start_index / 32 + k)
        (fillTo slot start_index end_index nhs nhe f k)
  | 0, _ => h
  | k + 1, hk => by
    have hn : start_index / 32 ≤ start_index / 32 + k := Nat.le_add_right _ _
    have hp : start_index / 32 + k < p := hk
    rw [fillTo_succ]
    exact (Following.run hU hB hA hep h hp.le).step hU hB hA hn hp hep

/-- **Eviction.** A cached page of the known suffix is still cached at its turn
exactly when fewer pages than the capacity became more recent. -/
theorem kept_iff {ep u b p : Nat} {A : Finset Nat}
    (hU : Unknown s slot (start_index / 32) ep u b) (hB : Bounds start_index u b nhs nhe)
    (hA : ∀ q, q ∈ A ↔ b < q ∧ q < p ∧ ¬ s.Overridden ⟨slot, q⟩) (hbp : b < p) (hep : p ≤ ep)
    (h : Following s slot start_index p A (start_index / 32) f) :
    (fillTo slot start_index end_index nhs nhe f (p - start_index / 32)).storage.cache.Has
        ⟨slot, p⟩ ↔ (moved s slot start_index p).card < STORAGE_CACHE_SIZE := by
  have hsp := hU.sp_le
  have hub := hU.le
  have hA' : A ∪ moved s slot start_index p = moved s slot start_index p := by
    refine Finset.union_eq_right.mpr fun q hq => ?_
    obtain ⟨h1, h2, h3⟩ := (hA q).mp hq
    refine Finset.mem_filter.mpr ⟨Finset.mem_Ico.mpr ⟨by omega, h2⟩, h3, .inl ?_⟩
    exact (hU.after q h1 (by omega)).resolve_left h3
  have hpk : start_index / 32 + (p - start_index / 32) = p := by omega
  have hrun : Following s slot start_index p A (start_index / 32 + (p - start_index / 32))
      (fillTo slot start_index end_index nhs nhe f (p - start_index / 32)) :=
    h.run hU hB (fun q h1 h2 h3 => (hA q).mpr ⟨h1, h2, h3⟩) hep hpk.le
  rw [hpk] at hrun
  rw [← Lru.newer_isSome, hrun.newer, hA', capped]
  split
  · next hlt => simp [hlt]
  · next hge => simp [hge]

end

end GenVM.Store
