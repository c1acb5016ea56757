import GenVM.Store.Read
import GenVM.Store.Write

/-!
# The overlay as a flat byte array

A run reads and successfully writes, starting from an empty overlay and an
empty cache. Its flat content is the host's, overwritten by each write in turn.
In every state of a run the overlay shows exactly that content and the cache is
coherent (`Run.inv`).

A read of a range returns it whatever the buffer held exactly when no page of
the range is evicted on the way (`read_refines`). A read can evict one
(`read_evicted`).
-/
namespace GenVM.Store
open GenVM.Lib
open GenVM.Calldata (Bytes)

section
variable {ε L : Type}

/-- The states a sequence of reads and successful writes reaches, with the
state of the page limiter and the flat content. -/
inductive Run (host : Content) (consume : L → Except ε L) : Storage → L → Content → Prop
  | start (l : L) : Run host consume Storage.new l host
  | read {s : Storage} {l : L} {c : Content} (slot : SlotID) (index : Nat) (buf : Bytes) :
      Run host consume s l c → index + buf.length < 2 ^ 32 →
      Run host consume (read host s slot index buf).2 l c
  | write {s s' : Storage} {l l' : L} {c : Content} (slot : SlotID) (index : Nat) (buf : Bytes) :
      Run host consume s l c → index + buf.length < 2 ^ 32 →
      write host consume slot index buf (s, l) = (.ok (), (s', l')) →
      Run host consume s' l' (overwrite c slot index buf)

variable {host : Content} {consume : L → Except ε L} {s : Storage} {l : L} {c : Content}

theorem coherent_congr {s' : Storage} (h : s'.cache = s.cache) (hc : s.Coherent host) :
    s'.Coherent host := by
  unfold Storage.Coherent
  rw [h]
  exact hc

/-- The overlay shows the flat content. -/
theorem Run.inv (h : Run host consume s l c) : s.Coherent host ∧ s.byte host = c := by
  induction h with
  | start l => exact ⟨Lru.all_new, rfl⟩
  | read slot index buf _ _ ih =>
    obtain ⟨hc, hb⟩ := ih
    exact ⟨read_coherent hc slot index buf, (byte_congr (read_pages hc slot index buf)).trans hb⟩
  | write slot index buf _ _ hw ih =>
    obtain ⟨hc, hb⟩ := ih
    obtain ⟨hcache, hbyte⟩ := write_ok hw
    exact ⟨coherent_congr hcache hc, hb ▸ hbyte⟩

/-- **A read refines the flat array** exactly when none of its pages is evicted
on the way. -/
theorem read_refines (h : Run host consume s l c) (slot : SlotID) (index len : Nat)
    (hlen : index + len < 2 ^ 32) :
    (∀ buf : Bytes, buf.length = len →
      (read host s slot index buf).1 = storage_read c slot index len) ↔
    ∀ p, ¬ Evicted s slot index len p := by
  obtain ⟨hc, rfl⟩ := h.inv
  constructor
  · intro hall p he
    -- fill the buffer with something the lost byte is not
    have hpos : 0 < len := by
      by_contra hlen0
      obtain ⟨q, hq, hlt, -⟩ := he.gap
      have hp := he.mem
      rw [pageRange, List.mem_range'_1] at hp hq
      omega
    obtain ⟨h1, h2⟩ := (mem_pageRange hpos).mp he.mem
    obtain ⟨a, ha1, ha2, rfl⟩ : ∃ a, index ≤ a ∧ a < index + len ∧ a / 32 = p :=
      ⟨max index (p * 32), by omega, by omega, by omega⟩
    obtain ⟨x, hx⟩ : ∃ x, x ≠ s.byte host slot a := ⟨s.byte host slot a + 1, by simp⟩
    have hread := hall (List.replicate len x) List.length_replicate
    have hbuf : (List.replicate len x).length = len := List.length_replicate
    have hlost := (@read_byte host s slot hc index (List.replicate len x) a ha1 (by rwa [hbuf])).2
      (hbuf.symm ▸ he)
    rw [hread, getElem?_storage_read _ _ _ (show a - index < len by omega),
      List.getElem?_replicate, if_pos (by omega), show index + (a - index) = a by omega] at hlost
    exact hx (Option.some.inj hlost).symm
  · intro hne buf hbuf
    subst hbuf
    refine List.ext_getElem? fun i => ?_
    by_cases hi : i < buf.length
    · have hbyte := (@read_byte host s slot hc index buf (index + i) (by omega) (by omega)).1 (hne _)
      rw [Nat.add_sub_cancel_left] at hbyte
      rw [hbyte, getElem?_storage_read _ _ _ hi]
    · rw [List.getElem?_eq_none (by rw [read_length hc]; omega),
        List.getElem?_eq_none (by simp; omega)]

/-- The range of `read_refines` after one write, with nothing cached. -/
theorem read_refines_written :
    let host : Content := fun _ _ => 7
    let consume : Unit → Except Unit Unit := .ok
    let s := (write host consume SlotID.ZERO 4 [1, 2, 3] (Storage.new, ())).2.1
    ∀ buf : Bytes, buf.length = 40 → (read host s SlotID.ZERO 3 buf).1 =
      storage_read (overwrite host SlotID.ZERO 4 [1, 2, 3]) SlotID.ZERO 3 40 := by
  intro host consume s
  have hw : write host consume SlotID.ZERO 4 [1, 2, 3] (Storage.new, ()) = (.ok (), (s, ())) := rfl
  have hrun : Run host consume s () (overwrite host SlotID.ZERO 4 [1, 2, 3]) :=
    Run.write SlotID.ZERO 4 [1, 2, 3] (Run.start ()) (by decide) hw
  have hcache : s.cache = Storage.new.cache := (write_ok hw).1
  refine (read_refines hrun SlotID.ZERO 3 40 (by decide)).mpr fun p he => ?_
  have hhas := he.cached.2
  rw [hcache] at hhas
  exact Lru.not_has_new _ hhas

/-! ## An evicted page -/

/-- Fetching `n` whole pages from the start of a slot moves all but the staged ones. -/
theorem moved_of_unknown {slot : SlotID} {n : Nat} (h : ∀ q < n, ¬ s.Known ⟨slot, q⟩) :
    moved s slot 0 n = Finset.Ico PUT_TO_CACHE_SIZE n := by
  have hcount : ∀ q ≤ n, unknownBefore s slot 0 q = q := by
    intro q hq
    have hall : (Finset.Ico (0 / 32) q).filter (UnknownWhole s slot 0) = Finset.Ico 0 q := by
      refine Finset.filter_true_of_mem fun r hr => ⟨h r ?_, Nat.zero_le _⟩
      exact Nat.lt_of_lt_of_le (Finset.mem_Ico.mp hr).2 hq
    rw [unknownBefore, hall, Nat.card_Ico, Nat.sub_zero]
  ext q
  rw [moved, Finset.mem_filter, Finset.mem_Ico, Finset.mem_Ico]
  constructor
  · intro hm
    obtain ⟨⟨-, hq⟩, -, hc | ⟨-, h8⟩⟩ := hm
    · exact absurd (.inr hc) (h q hq)
    · rw [hcount q hq.le] at h8
      exact ⟨h8, hq⟩
  · intro hq
    have hu := not_or.mp (h q hq.2)
    exact ⟨⟨Nat.zero_le _, hq.2⟩, hu.1, .inr ⟨Nat.zero_le _, by rw [hcount q hq.2.le]; exact hq.1⟩⟩

/-- A contract reads page 136 of a slot of ones, then the pages 0 to 136 into a
zeroed buffer: page 136 is cut from the host's read as known, and it is gone from
the cache when the loop gets there. The last 32 bytes stay zero. -/
theorem read_evicted :
    let host : Content := fun _ _ => 1
    let consume : Unit → Except Unit Unit := .ok
    let s := (read host Storage.new SlotID.ZERO 4352 (List.replicate 32 0)).2
    Run host consume s () host ∧
      (read host s SlotID.ZERO 0 (List.replicate 4384 0)).1 ≠ storage_read host SlotID.ZERO 0 4384 := by
  intro host consume s
  have hrun : Run host consume s () host :=
    Run.read SlotID.ZERO 4352 (List.replicate 32 0) (Run.start ()) (by simp)
  have hkeys : s.cache.entries.map Prod.fst = [⟨SlotID.ZERO, 136⟩] := rfl
  have hpages : s.pages = [] := rfl
  have hno : ∀ k, ¬ s.Overridden k := by
    intro k ho
    rw [Storage.Overridden, Storage.read_page_override, hpages] at ho
    cases ho
  have hhas : ∀ q, s.cache.Has ⟨SlotID.ZERO, q⟩ ↔ q = 136 := by
    intro q
    rw [Lru.has_iff, hkeys, List.mem_singleton, PageID.mk.injEq]
    exact and_iff_right rfl
  have hunknown : ∀ q < 136, ¬ s.Known ⟨SlotID.ZERO, q⟩ := by
    intro q hq hk
    have := (hhas q).mp (hk.resolve_left (hno _))
    omega
  have hlen : (List.replicate 4384 (0 : UInt8)).length = 4384 := List.length_replicate
  have he : Evicted s SlotID.ZERO 0 (List.replicate 4384 (0 : UInt8)).length (4383 / 32) := by
    rw [hlen]
    refine ⟨(mem_pageRange (by omega)).mpr (by omega), ⟨hno _, (hhas _).mpr rfl⟩, ?_, ?_, ?_⟩
    · exact ⟨0, (mem_pageRange (by omega)).mpr (by omega), by omega, hunknown 0 (by omega)⟩
    · intro q hq hlt
      have := ((mem_pageRange (by omega)).mp hq).2
      omega
    · rw [moved_of_unknown hunknown, Nat.card_Ico]
      decide
  refine ⟨hrun, fun heq => ?_⟩
  have hbyte := (@read_byte host s SlotID.ZERO hrun.inv.1 0 (List.replicate 4384 0) 4383
    (Nat.zero_le _) (by rw [hlen]; omega)).2 he
  rw [heq, getElem?_storage_read _ _ _ (by omega), List.getElem?_replicate, if_pos (by omega)] at hbyte
  exact absurd hbyte (by decide)

end

end GenVM.Store
