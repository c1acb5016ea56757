import GenVM.Store.Evict

/-!
# What a read returns

`read_byte` gives every byte of the buffer after a read: the right one, unless
its page was evicted on the way, and then whatever the buffer held. The read
keeps the cache coherent all the same (`read_coherent`).
-/
namespace GenVM.Store
open GenVM.Lib
open GenVM.Calldata (Bytes)

/-- Page `p` of the range is lost: it is a cached page of the known suffix,
some page before it is fetched, and too many pages become more recent. -/
structure Evicted (s : Storage) (slot : SlotID) (index len p : Nat) : Prop where
  mem : p ∈ pageRange index (index + len)
  cached : ¬ s.Overridden ⟨slot, p⟩ ∧ s.cache.Has ⟨slot, p⟩
  gap : ∃ q ∈ pageRange index (index + len), q < p ∧ ¬ s.Known ⟨slot, q⟩
  suffix : ∀ q ∈ pageRange index (index + len), p < q → s.Known ⟨slot, q⟩
  pushed : STORAGE_CACHE_SIZE ≤ (moved s slot index p).card

section
variable {host : Content} {s : Storage} {slot : SlotID} {start_index end_index nhs nhe : Nat}
  {f : Fill}

theorem mem_pageRange {index len q : Nat} (h : 0 < len) :
    q ∈ pageRange index (index + len) ↔ index / 32 ≤ q ∧ q ≤ (index + len - 1) / 32 := by
  unfold pageRange
  rw [List.mem_range'_1]
  omega

/-! ## The loop -/

/-- What holds of the loop before page `n`: what it has put or will put to the
cache are the host's pages, since the bytes fetched for the pages to come are
still in the buffer. -/
structure Filling (host : Content) (s : Storage) (slot : SlotID)
    (start_index end_index nhs nhe n : Nat) (f : Fill) : Prop where
  pages : f.storage.pages = s.pages
  coherent : f.storage.Coherent host
  length : f.buf.length = end_index - start_index
  staged : ∀ item ∈ f.put_to_cache, ∀ i < 32,
    item.2.byte i = host item.1.slot (item.1.index * 32 + i)
  rest : ∀ a, n ≤ a / 32 → nhs ≤ a → a < nhe → f.buf[a - start_index]? = some (host slot a)

theorem Filling.page_byte {n : Nat} (h : Filling host s slot start_index end_index nhs nhe n f)
    (hs : start_index ≤ nhs) (hin : nhs ≤ n * 32 ∧ n * 32 + 32 ≤ nhe) {i : Nat} (hi : i < 32) :
    (Page.zero.copy 0 ((f.buf.drop (n * 32 - start_index)).take 32)).byte i =
      host slot (n * 32 + i) := by
  have hbyte := h.rest (n * 32 + i) (by omega) (by omega) (by omega)
  apply Page.byte_copy_in _ (Nat.zero_le _) hi
  rw [Nat.sub_zero, List.getElem?_take, if_pos hi, List.getElem?_drop, ← hbyte]
  congr 1
  omega

theorem Filling.step {n : Nat} (h : Filling host s slot start_index end_index nhs nhe n f)
    (hs : start_index ≤ nhs) :
    Filling host s slot start_index end_index nhs nhe (n + 1)
      (fillPage slot start_index end_index nhs nhe f n) := by
  have hrest : ∀ a, n + 1 ≤ a / 32 → nhs ≤ a → a < nhe →
      (fillPage slot start_index end_index nhs nhe f n).buf[a - start_index]? =
        some (host slot a) := by
    intro a hn h1 h2
    rw [fillPage_other (hs.trans h1) (by omega)]
    exact h.rest a (by omega) h1 h2
  have hlen : (fillPage slot start_index end_index nhs nhe f n).buf.length =
      end_index - start_index := (fillPage_length f n).trans h.length
  rcases fillPage_cases slot start_index end_index nhs nhe f n with ⟨-, hst, hc⟩ | ⟨-, -, hcase⟩
  · refine ⟨?_, ?_, hlen, ?_, hrest⟩
    · rw [hst, lookup_pages]
      exact h.pages
    · rw [hst]
      exact lookup_coherent h.coherent _
    · rw [hc]
      exact h.staged
  · rcases hcase with ⟨hin, page, rfl, hput⟩ | ⟨-, hf⟩
    · have hpage : ∀ i < 32, _ := fun i hi => h.page_byte hs hin hi
      rcases hput with ⟨-, hst, hc⟩ | ⟨-, hst, hc⟩
      · refine ⟨by rw [hst]; exact h.pages, by rw [hst]; exact h.coherent, hlen, ?_, hrest⟩
        intro item hitem
        rw [hc, List.mem_append, List.mem_singleton] at hitem
        rcases hitem with hitem | rfl
        · exact h.staged item hitem
        · exact hpage
      · refine ⟨by rw [hst]; exact h.pages, ?_, hlen, by rw [hc]; exact h.staged, hrest⟩
        rw [hst]
        exact Lru.All.insert h.coherent hpage
    · rw [hf]
      exact ⟨h.pages, h.coherent, h.length, h.staged, fun a hn => h.rest a (by omega)⟩

theorem Filling.run (h : Filling host s slot start_index end_index nhs nhe (start_index / 32) f)
    (hs : start_index ≤ nhs) : ∀ k, Filling host s slot start_index end_index nhs nhe
      (start_index / 32 + k) (fillTo slot start_index end_index nhs nhe f k)
  | 0 => h
  | k + 1 => by
    rw [fillTo_succ]
    exact (h.run hs k).step hs

/-- The byte of a page after `k` turns. -/
theorem Filling.byte (h : Filling host s slot start_index end_index nhs nhe (start_index / 32) f)
    (hs : start_index ≤ nhs) {a : Nat} (h1 : start_index ≤ a) (h2 : a < end_index) : ∀ k,
    (fillTo slot start_index end_index nhs nhe f k).buf[a - start_index]? =
      if a / 32 < start_index / 32 + k ∧
          (fillTo slot start_index end_index nhs nhe f
            (a / 32 - start_index / 32)).storage.Known ⟨slot, a / 32⟩
      then some (s.byte host slot a) else f.buf[a - start_index]?
  | 0 => by
    rw [if_neg (by omega)]
    rfl
  | k + 1 => by
    have ih := h.byte hs h1 h2 k
    have hk := h.run hs k
    have hle : start_index / 32 ≤ a / 32 := Nat.div_le_div_right h1
    rw [fillTo_succ]
    by_cases hq : start_index / 32 + k = a / 32
    · rw [if_neg (fun h' => by omega)] at ih
      rw [hq, fillPage_self hk.coherent hk.length h1 h2, ih, byte_congr hk.pages,
        show a / 32 - start_index / 32 = k by omega]
      have hlt : a / 32 < start_index / 32 + (k + 1) := by omega
      simp only [hlt, true_and]
    · rw [fillPage_other h1 (Ne.symm hq), ih]
      have hlt : a / 32 < start_index / 32 + (k + 1) ↔ a / 32 < start_index / 32 + k := by omega
      simp only [hlt]

/-! ## The read -/

/-- The buffer after the host was asked. -/
def hostRead (host : Content) (slot : SlotID) (start_index nhs nhe : Nat) (buf : Bytes) : Bytes :=
  if nhs < nhe then copyInto buf (nhs - start_index) (storage_read host slot nhs (nhe - nhs))
  else buf

theorem length_hostRead (buf : Bytes) :
    (hostRead host slot start_index nhs nhe buf).length = buf.length := by
  unfold hostRead
  split
  · exact length_copyInto _ _ _
  · rfl

theorem hostRead_in {buf : Bytes} {a : Nat} (hs : start_index ≤ nhs)
    (he : nhe ≤ start_index + buf.length) (h1 : nhs ≤ a) (h2 : a < nhe) :
    (hostRead host slot start_index nhs nhe buf)[a - start_index]? = some (host slot a) := by
  rw [hostRead, if_pos (by omega), copyInto_in (by omega) (by simp; omega) (by omega),
    getElem?_storage_read _ _ _ (by omega)]
  congr 2
  omega

theorem hostRead_out {buf : Bytes} {a : Nat} (hs : start_index ≤ nhs)
    (ha : start_index ≤ a) (h : a < nhs ∨ nhe ≤ a) :
    (hostRead host slot start_index nhs nhe buf)[a - start_index]? = buf[a - start_index]? := by
  unfold hostRead
  split
  · apply copyInto_out
    simp only [length_storage_read]
    omega
  · rfl

/-- The state and the buffer the loop of a read starts from. -/
def beforeFill (host : Content) (s : Storage) (slot : SlotID) (start_index nhs nhe : Nat)
    (buf : Bytes) : Fill :=
  ⟨s, hostRead host slot start_index nhs nhe buf, []⟩

theorem read_eq {buf : Bytes} (hb : buf ≠ []) {index nhs nhe : Nat} {s1 s2 : Storage}
    (h1 : cutKnown slot (fun p => (p + 1) * 32) (pageRange index (index + buf.length)) index s =
      (nhs, s1))
    (h2 : cutKnown slot (fun p => p * 32) (pageRange index (index + buf.length)).reverse
      (index + buf.length) s1 = (nhe, s2)) :
    read host s slot index buf =
      let f := fillTo slot index (index + buf.length) nhs nhe
        (beforeFill host s2 slot index nhs nhe buf)
        ((index + buf.length - 1) / 32 + 1 - index / 32)
      (f.buf, putStaged f.storage f.put_to_cache) := by
  rw [read, if_neg hb]
  dsimp only
  rw [h1]
  dsimp only
  rw [h2]
  rfl

theorem beforeFill_filling {index : Nat} {buf : Bytes} {s2 : Storage} (hp : s2.pages = s.pages)
    (hc : s2.Coherent host) (hs : index ≤ nhs) (he : nhe ≤ index + buf.length) :
    Filling host s slot index (index + buf.length) nhs nhe (index / 32)
      (beforeFill host s2 slot index nhs nhe buf) where
  pages := hp
  coherent := hc
  length := (length_hostRead buf).trans (Nat.add_sub_cancel_left ..).symm
  staged _ h := absurd h List.not_mem_nil
  rest _ _ h1 h2 := hostRead_in hs he h1 h2

/-- What a read does, seen from one of its bytes: the two cut ends, the state
after both scans, and the loop. -/
structure Reading (host : Content) (s : Storage) (slot : SlotID) (index : Nat) (buf : Bytes)
    (nhs nhe : Nat) (s2 : Storage) : Prop where
  start_le : index ≤ nhs
  le_end : nhe ≤ index + buf.length
  pages : s2.pages = s.pages
  has : ∀ k, s2.cache.Has k ↔ s.cache.Has k
  coherent : s.Coherent host → s2.Coherent host
  run : read host s slot index buf =
    let f := fillTo slot index (index + buf.length) nhs nhe
      (beforeFill host s2 slot index nhs nhe buf) ((index + buf.length - 1) / 32 + 1 - index / 32)
    (f.buf, putStaged f.storage f.put_to_cache)

theorem Reading.known {index : Nat} {buf : Bytes} {s2 : Storage}
    (h : Reading host s slot index buf nhs nhe s2) (k : PageID) : s2.Known k ↔ s.Known k :=
  or_congr (overridden_congr h.pages) (h.has k)

/-- A byte of the result: right if its page is known at its turn, else what the
host read or the buffer had. -/
theorem Reading.byte {index : Nat} {buf : Bytes} {s2 : Storage}
    (h : Reading host s slot index buf nhs nhe s2) (hc : s.Coherent host) {a : Nat}
    (h1 : index ≤ a) (h2 : a < index + buf.length) :
    (read host s slot index buf).1[a - index]? =
      if (fillTo slot index (index + buf.length) nhs nhe
          (beforeFill host s2 slot index nhs nhe buf)
          (a / 32 - index / 32)).storage.Known ⟨slot, a / 32⟩
      then some (s.byte host slot a)
      else (hostRead host slot index nhs nhe buf)[a - index]? := by
  have hf : Filling host s slot index (index + buf.length) nhs nhe (index / 32)
      (beforeFill host s2 slot index nhs nhe buf) :=
    beforeFill_filling h.pages (h.coherent hc) h.start_le h.le_end
  have hlt : a / 32 < index / 32 + ((index + buf.length - 1) / 32 + 1 - index / 32) := by omega
  rw [h.run]
  show (fillTo slot index _ nhs nhe _ _).buf[a - index]? = _
  rw [hf.byte h.start_le h1 h2]
  simp only [hlt, true_and]
  rfl

theorem Reading.loop {index : Nat} {buf : Bytes} {s2 : Storage}
    (h : Reading host s slot index buf nhs nhe s2) (hc : s.Coherent host) (k : Nat) :
    Filling host s slot index (index + buf.length) nhs nhe (index / 32 + k)
      (fillTo slot index (index + buf.length) nhs nhe
        (beforeFill host s2 slot index nhs nhe buf) k) :=
  (beforeFill_filling h.pages (h.coherent hc) h.start_le h.le_end).run h.start_le k

/-- Some page is unknown. -/
theorem reading_unknown {index u b : Nat} {buf : Bytes} (hb : buf ≠ [])
    (hU : Unknown s slot (index / 32) ((index + buf.length - 1) / 32) u b) :
    Reading host s slot index buf (if u = index / 32 then index else u * 32)
      (if b = (index + buf.length - 1) / 32 then index + buf.length else (b + 1) * 32)
      (touch slot (List.range' (b + 1) ((index + buf.length - 1) / 32 - b)).reverse
        (touch slot (List.range' (index / 32) (u - index / 32)) s)) := by
  have hpos := List.length_pos_iff.mpr hb
  have hU2 : Unknown (touch slot (List.range' (index / 32) (u - index / 32)) s) slot (index / 32)
      ((index + buf.length - 1) / 32) u b := by
    obtain ⟨h1, h2, h3, h4, h5, h6, h7⟩ := hU
    exact ⟨by rwa [touch_known], by rwa [touch_known], h3, h4, h5,
      fun q a b => (touch_known _ _).mpr (h6 q a b), fun q a b => (touch_known _ _).mpr (h7 q a b)⟩
  have := hU.sp_le
  have := hU.le_ep
  refine ⟨?_, ?_, ?_, ?_, ?_, read_eq hb (cut_head hU _) (cut_suffix hU2 _)⟩
  · split <;> omega
  · split <;> omega
  · rw [touch_pages, touch_pages]
  · intro k
    rw [touch_has, touch_has]
  · exact fun hc => touch_coherent _ _ (touch_coherent _ _ hc)

/-- Every page is known. -/
theorem reading_known {index : Nat} {buf : Bytes} (hb : buf ≠ [])
    (hk : ∀ q ∈ pageRange index (index + buf.length), s.Known ⟨slot, q⟩) :
    Reading host s slot index buf (((index + buf.length - 1) / 32 + 1) * 32) (index / 32 * 32)
      (touch slot (pageRange index (index + buf.length)).reverse
        (touch slot (pageRange index (index + buf.length)) s)) := by
  have hpos := List.length_pos_iff.mpr hb
  have hk2 : ∀ q ∈ (pageRange index (index + buf.length)).reverse,
      (touch slot (pageRange index (index + buf.length)) s).Known ⟨slot, q⟩ :=
    fun q hq => (touch_known _ _).mpr (hk q (List.mem_reverse.mp hq))
  have h1 := cut_all (fun p => (p + 1) * 32) hk index
  have h2 := cut_all (fun p => p * 32) hk2 (index + buf.length)
  have hne : (index + buf.length - 1) / 32 + 1 - index / 32 ≠ 0 := by omega
  have hlast : (pageRange index (index + buf.length)).getLast? =
      some ((index + buf.length - 1) / 32) := by
    rw [pageRange, List.getLast?_range', if_neg hne]
    congr 1
    omega
  have hhead : (pageRange index (index + buf.length)).reverse.getLast? = some (index / 32) := by
    rw [List.getLast?_reverse, pageRange, List.head?_range', if_neg hne]
  rw [hlast] at h1
  rw [hhead] at h2
  refine ⟨by omega, by omega, ?_, ?_, ?_, read_eq hb h1 h2⟩
  · rw [touch_pages, touch_pages]
  · intro k
    rw [touch_has, touch_has]
  · exact fun hc => touch_coherent _ _ (touch_coherent _ _ hc)

theorem exists_reading (host : Content) (s : Storage) (slot : SlotID) (index : Nat) {buf : Bytes}
    (hb : buf ≠ []) : ∃ nhs nhe s2, Reading host s slot index buf nhs nhe s2 := by
  have hpos := List.length_pos_iff.mpr hb
  by_cases hk : ∀ q ∈ pageRange index (index + buf.length), s.Known ⟨slot, q⟩
  · exact ⟨_, _, _, reading_known hb hk⟩
  · simp only [not_forall] at hk
    obtain ⟨q, hq, hu⟩ := hk
    obtain ⟨h1, h2⟩ := (mem_pageRange hpos).mp hq
    obtain ⟨u, b, hU⟩ := exists_unknown h1 h2 hu
    exact ⟨_, _, _, reading_unknown hb hU⟩

/-! ## The state after a read -/

theorem putStaged_coherent : ∀ {items : List (PageID × Page)} {s : Storage}, s.Coherent host →
    (∀ item ∈ items, ∀ i < 32, item.2.byte i = host item.1.slot (item.1.index * 32 + i)) →
    (putStaged s items).Coherent host
  | [], _, h, _ => h
  | item :: items, s, h, hi => by
    rw [List.forall_mem_cons] at hi
    have hs : Storage.Coherent host { s with cache := s.cache.insert item.1 item.2 } :=
      Lru.All.insert h hi.1
    exact @putStaged_coherent items _ hs hi.2

theorem read_coherent (hc : s.Coherent host) (slot : SlotID) (index : Nat) (buf : Bytes) :
    (read host s slot index buf).2.Coherent host := by
  by_cases hb : buf = []
  · rw [read, if_pos hb]
    exact hc
  · obtain ⟨nhs, nhe, s2, h⟩ := exists_reading host s slot index hb
    have hl := h.loop hc ((index + buf.length - 1) / 32 + 1 - index / 32)
    rw [h.run]
    exact putStaged_coherent hl.coherent hl.staged

theorem read_pages (hc : s.Coherent host) (slot : SlotID) (index : Nat) (buf : Bytes) :
    (read host s slot index buf).2.pages = s.pages := by
  by_cases hb : buf = []
  · rw [read, if_pos hb]
  · obtain ⟨nhs, nhe, s2, h⟩ := exists_reading host s slot index hb
    rw [h.run]
    exact (h.loop hc ((index + buf.length - 1) / 32 + 1 - index / 32)).pages

theorem read_length (hc : s.Coherent host) (slot : SlotID) (index : Nat) (buf : Bytes) :
    (read host s slot index buf).1.length = buf.length := by
  by_cases hb : buf = []
  · rw [read, if_pos hb]
  · obtain ⟨nhs, nhe, s2, h⟩ := exists_reading host s slot index hb
    have hl := (h.loop hc ((index + buf.length - 1) / 32 + 1 - index / 32)).length
    rw [h.run]
    exact hl.trans (Nat.add_sub_cancel_left ..)

/-! ## The bytes of a read -/

/-- A page before the first unknown one is known at its turn. -/
theorem Reading.turn_known {index : Nat} {buf : Bytes} {s2 : Storage}
    (h : Reading host s slot index buf nhs nhe s2) {p : Nat} (hp : index / 32 ≤ p)
    (hk : ∀ q, index / 32 ≤ q → q ≤ p → s.Known ⟨slot, q⟩) :
    (fillTo slot index (index + buf.length) nhs nhe (beforeFill host s2 slot index nhs nhe buf)
      (p - index / 32)).storage.Known ⟨slot, p⟩ := by
  rw [fillTo_known fun i hi => (h.known _).mpr (hk _ (Nat.le_add_right _ _) (by omega))]
  exact (h.known _).mpr (hk p hp le_rfl)

/-- An overridden page is known at its turn, and a page that is not overridden
is known then exactly when it is cached. -/
theorem Reading.turn_iff {index : Nat} {buf : Bytes} {s2 : Storage}
    (h : Reading host s slot index buf nhs nhe s2) (hc : s.Coherent host) (p k : Nat) :
    (fillTo slot index (index + buf.length) nhs nhe (beforeFill host s2 slot index nhs nhe buf)
      k).storage.Known ⟨slot, p⟩ ↔ s.Overridden ⟨slot, p⟩ ∨
    (fillTo slot index (index + buf.length) nhs nhe (beforeFill host s2 slot index nhs nhe buf)
      k).storage.cache.Has ⟨slot, p⟩ :=
  or_congr_left (overridden_congr (h.loop hc k).pages)

/-- The scan for the suffix starts following a cached page of it. -/
theorem following_start {index u b p : Nat} {buf : Bytes}
    (hU : Unknown s slot (index / 32) ((index + buf.length - 1) / 32) u b)
    (ho : ¬ s.Overridden ⟨slot, p⟩) (hbp : b < p) (hep : p ≤ (index + buf.length - 1) / 32) :
    ∃ A : Finset Nat, (∀ q, q ∈ A ↔ b < q ∧ q < p ∧ ¬ s.Overridden ⟨slot, q⟩) ∧
      Following s slot index p A (index / 32) (beforeFill host
        (touch slot (List.range' (b + 1) ((index + buf.length - 1) / 32 - b)).reverse
          (touch slot (List.range' (index / 32) (u - index / 32)) s)) slot index nhs nhe buf) := by
  have hsplit : (List.range' (b + 1) ((index + buf.length - 1) / 32 - b)).reverse =
      (List.range' (p + 1) ((index + buf.length - 1) / 32 - p)).reverse ++
        p :: (List.range' (b + 1) (p - (b + 1))).reverse := by
    rw [show (index + buf.length - 1) / 32 - b = (index + buf.length - 1) / 32 + 1 - (b + 1) by omega,
      range'_split (show b + 1 ≤ p by omega) (show p ≤ (index + buf.length - 1) / 32 + 1 by omega),
      show (index + buf.length - 1) / 32 + 1 - p = (index + buf.length - 1) / 32 - p + 1 by omega,
      List.range'_succ, List.reverse_append, List.reverse_cons, List.append_assoc]
    rfl
  have hzero : unknownBefore s slot index (index / 32) = 0 := by
    rw [unknownBefore, Finset.Ico_self]
    rfl
  have hmoved : moved s slot index (index / 32) = ∅ := by
    rw [moved, Finset.Ico_self]
    rfl
  have hhas := (hU.after p hbp hep).resolve_left ho
  refine ⟨((List.range' (b + 1) (p - (b + 1))).reverse.filter
    fun q => ¬ s.Overridden ⟨slot, q⟩).toFinset, ?_, ?_⟩
  · intro q
    simp only [List.mem_toFinset, List.mem_filter, List.mem_reverse, List.mem_range'_1,
      decide_eq_true_eq]
    constructor
    · exact fun h => ⟨by omega, by omega, h.2⟩
    · exact fun h => ⟨⟨by omega, by omega⟩, h.2.2⟩
  · refine ⟨?_, ?_, ?_, ?_, ?_⟩
    · exact (touch_pages _ _).trans (touch_pages _ _)
    · rw [hzero]
      rfl
    · exact fun q _ h => (touch_has _ _ _).mp ((touch_has _ _ _).mp h)
    · exact fun _ k => (touch_has _ _ _).trans (touch_has _ _ _)
    · obtain ⟨s', hs'⟩ : ∃ s' : Storage, s' = touch slot
          (List.range' (p + 1) ((index + buf.length - 1) / 32 - p)).reverse
          (touch slot (List.range' (index / 32) (u - index / 32)) s) := ⟨_, rfl⟩
      have hpages : s'.pages = s.pages := by rw [hs', touch_pages, touch_pages]
      have hhas' : ∀ k, s'.cache.Has k ↔ s.cache.Has k := fun k => by
        rw [hs', touch_has, touch_has]
      have hov : ∀ q, s'.Overridden ⟨slot, q⟩ ↔ s.Overridden ⟨slot, q⟩ :=
        fun q => overridden_congr hpages
      have hmid : ∀ q ∈ (List.range' (b + 1) (p - (b + 1))).reverse, s'.Known ⟨slot, q⟩ := by
        intro q hq
        rw [List.mem_reverse, List.mem_range'_1] at hq
        exact (or_congr (hov q) (hhas' _)).mpr (hU.after q (by omega) (by omega))
      have hnot : p ∉ (List.range' (b + 1) (p - (b + 1))).reverse := by
        rw [List.mem_reverse, List.mem_range'_1]
        omega
      have hself := touch_newer_self (fun h => ho ((hov p).mp h)) ((hhas' _).mpr hhas) hnot hmid
      show (touch slot _ _).cache.newer ⟨slot, p⟩ = _
      rw [hmoved, Finset.union_empty, hsplit, touch_append, ← hs', hself]
      have hcard := Lru.newer_card hself
      rw [card_keysOf] at hcard
      simp only [hov] at hcard ⊢
      rw [capped, if_pos hcard]

/-- Nothing is fetched, so nothing is lost. -/
theorem byte_known (hc : s.Coherent host) {index : Nat} {buf : Bytes} {a : Nat} (h1 : index ≤ a)
    (h2 : a < index + buf.length)
    (hk : ∀ q ∈ pageRange index (index + buf.length), s.Known ⟨slot, q⟩) :
    (read host s slot index buf).1[a - index]? = some (s.byte host slot a) := by
  have hpos : 0 < buf.length := by omega
  have hR := @reading_known host _ _ _ _ (List.length_pos_iff.mp hpos) hk
  have hturn := hR.turn_known (Nat.div_le_div_right h1) fun q hq1 hq2 =>
    hk q ((mem_pageRange hpos).mpr ⟨hq1, by omega⟩)
  rw [hR.byte hc h1 h2, if_pos hturn]

/-- A page up to the last unknown one is known at its turn, or it was fetched. -/
theorem byte_fetched (hc : s.Coherent host) {index u b : Nat} {buf : Bytes} {a : Nat}
    (h1 : index ≤ a) (h2 : a < index + buf.length)
    (hU : Unknown s slot (index / 32) ((index + buf.length - 1) / 32) u b) (hab : a / 32 ≤ b) :
    (read host s slot index buf).1[a - index]? = some (s.byte host slot a) := by
  have hpos : 0 < buf.length := by omega
  have hR := @reading_unknown host _ _ _ _ _ _ (List.length_pos_iff.mp hpos) hU
  obtain ⟨nhs, hnhs⟩ : ∃ n, n = if u = index / 32 then index else u * 32 := ⟨_, rfl⟩
  obtain ⟨nhe, hnhe⟩ : ∃ n, n = if b = (index + buf.length - 1) / 32 then index + buf.length
    else (b + 1) * 32 := ⟨_, rfl⟩
  rw [← hnhs, ← hnhe] at hR
  rw [hR.byte hc h1 h2]
  split
  · rfl
  · next hn =>
    have hno : ¬ s.Overridden ⟨slot, a / 32⟩ := fun ho => hn ((hR.turn_iff hc _ _).mpr (.inl ho))
    have hua : u ≤ a / 32 := by
      by_contra hlt
      refine hn (hR.turn_known (Nat.div_le_div_right h1) fun r hr1 hr2 => ?_)
      exact hU.before r hr1 (by omega)
    have hin : nhs ≤ a ∧ a < nhe := by
      rw [hnhs, hnhe]
      constructor <;> split <;> omega
    rw [hostRead_in hR.start_le hR.le_end hin.1 hin.2, byte_host hno]

/-- A page after the last unknown one is overridden, kept, or lost. -/
theorem byte_suffix (hc : s.Coherent host) {index u b : Nat} {buf : Bytes} {a : Nat}
    (h1 : index ≤ a) (h2 : a < index + buf.length)
    (hU : Unknown s slot (index / 32) ((index + buf.length - 1) / 32) u b) (hab : b < a / 32) :
    (read host s slot index buf).1[a - index]? =
      if s.Overridden ⟨slot, a / 32⟩ ∨ (moved s slot index (a / 32)).card < STORAGE_CACHE_SIZE
      then some (s.byte host slot a) else buf[a - index]? := by
  have hep : a / 32 ≤ (index + buf.length - 1) / 32 := by omega
  have hR := @reading_unknown host _ _ _ _ _ _ (List.length_pos_iff.mp (by omega)) hU
  obtain ⟨nhs, hnhs⟩ : ∃ n, n = if u = index / 32 then index else u * 32 := ⟨_, rfl⟩
  obtain ⟨nhe, hnhe⟩ : ∃ n, n = (b + 1) * 32 := ⟨_, rfl⟩
  rw [if_neg (show b ≠ (index + buf.length - 1) / 32 by omega), ← hnhs, ← hnhe] at hR
  have hout : (hostRead host slot index nhs nhe buf)[a - index]? = buf[a - index]? :=
    hostRead_out hR.start_le h1 (by omega)
  have hturn := hR.turn_iff hc (a / 32) (a / 32 - index / 32)
  rw [hR.byte hc h1 h2, hout]
  by_cases ho : s.Overridden ⟨slot, a / 32⟩
  · rw [if_pos (hturn.mpr (.inl ho)), if_pos (.inl ho)]
  · obtain ⟨A, hA, hF⟩ := @following_start host _ _ nhs nhe _ _ _ _ _ hU ho hab hep
    have hkept := @kept_iff _ _ _ (index + buf.length) _ _ _ _ _ _ _ _ hU ⟨hnhs, hnhe⟩ hA hab hep hF
    rw [or_iff_right ho, hkept] at hturn
    simp only [hturn, or_iff_right ho]

/-- **What a read returns.** Byte `a` of the range is the byte of the overlaid
content, unless its page is evicted on the way. -/
theorem read_byte (hc : s.Coherent host) {index : Nat} {buf : Bytes} {a : Nat} (h1 : index ≤ a)
    (h2 : a < index + buf.length) :
    (¬ Evicted s slot index buf.length (a / 32) →
      (read host s slot index buf).1[a - index]? = some (s.byte host slot a)) ∧
    (Evicted s slot index buf.length (a / 32) →
      (read host s slot index buf).1[a - index]? = buf[a - index]?) := by
  have hpos : 0 < buf.length := by omega
  have hsp : index / 32 ≤ a / 32 := Nat.div_le_div_right h1
  have hep : a / 32 ≤ (index + buf.length - 1) / 32 := by omega
  by_cases hk : ∀ q ∈ pageRange index (index + buf.length), s.Known ⟨slot, q⟩
  · refine ⟨fun _ => byte_known hc h1 h2 hk, fun he => ?_⟩
    obtain ⟨q, hq, -, hu⟩ := he.gap
    exact absurd (hk q hq) hu
  simp only [not_forall] at hk
  obtain ⟨q, hq, hu⟩ := hk
  obtain ⟨hq1, hq2⟩ := (mem_pageRange hpos).mp hq
  obtain ⟨u, b, hU⟩ := exists_unknown hq1 hq2 hu
  have hub := hU.le.trans hU.le_ep
  have hb : b ∈ pageRange index (index + buf.length) :=
    (mem_pageRange hpos).mpr ⟨hU.sp_le.trans hU.le, hU.le_ep⟩
  by_cases hab : a / 32 ≤ b
  · refine ⟨fun _ => byte_fetched hc h1 h2 hU hab, fun he => ?_⟩
    exfalso
    by_cases heq : a / 32 = b
    · exact hU.last (.inr (heq ▸ he.cached.2))
    · exact hU.last (he.suffix b hb (by omega))
  · have hba : b < a / 32 := not_le.mp hab
    rw [byte_suffix hc h1 h2 hU hba]
    constructor
    · intro hne
      rw [if_pos]
      by_contra hor
      rw [not_or, not_lt] at hor
      refine hne ⟨(mem_pageRange hpos).mpr ⟨hsp, hep⟩,
        ⟨hor.1, (hU.after _ hba hep).resolve_left hor.1⟩, ⟨b, hb, hba, hU.last⟩, ?_, hor.2⟩
      intro r hr hlt
      exact hU.after r (by omega) ((mem_pageRange hpos).mp hr).2
    · intro he
      rw [if_neg]
      exact not_or.mpr ⟨he.cached.1, not_lt.mpr he.pushed⟩

end

end GenVM.Store
