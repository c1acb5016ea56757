import GenVM.Lib.Except
import GenVM.Store.Fill

/-!
# What a successful write changes

A write that succeeds puts one page for every page of its range; each holds the
new bytes inside the range and what the contract saw before outside of it
(`Written`). So the overlaid content after it is the content before, with the
data written over it (`write_ok`).
-/
namespace GenVM.Store
open GenVM.Lib GenVM.Lib.Except
open GenVM.Calldata (Bytes)

/-- The content after `data` is written at `index` of `slot`. -/
def overwrite (c : Content) (slot : SlotID) (index : Nat) (data : Bytes) : Content :=
  fun slot' a => if slot' = slot ∧ index ≤ a then (data[a - index]?).getD (c slot' a) else c slot' a

section
variable {ε L : Type} {consume : L → Except ε L} {host : Content} {slot : SlotID} {index : Nat}
  {buf : Bytes} {s s' : Storage} {l l' : L}

theorem override_putPage (s : Storage) (k key : PageID) (value : Page) :
    (s.putPage key value).read_page_override k =
      if k = key then some value else s.read_page_override k :=
  SortedMap.lookup_insert pageLt_order key k value s.pages

theorem write_page_ok {key : PageID} {value : Page} {u : Unit}
    (h : write_page consume key value (s, l) = (.ok u, (s', l'))) : s' = s.putPage key value := by
  unfold write_page at h
  dsimp only at h
  split at h
  · exact (Prod.mk.inj (Prod.mk.inj h).2).1.symm
  · split at h
    · exact (Prod.mk.inj (Prod.mk.inj h).2).1.symm
    · cases h

theorem existingPage_ok {q : Nat} {page : Page}
    (h : (existingPage host ⟨slot, q⟩ : WriteM ε L Page) (s, l) = (.ok page, (s', l'))) :
    s' = s ∧ l' = l ∧ ∀ i < 32, page.byte i = s.byte host slot (q * 32 + i) := by
  unfold existingPage at h
  dsimp only at h
  obtain ⟨hp, hs⟩ := Prod.mk.inj h
  obtain ⟨rfl, rfl⟩ := Prod.mk.inj hs
  refine ⟨rfl, rfl, fun i hi => ?_⟩
  have hq : (q * 32 + i) / 32 = q := by omega
  have hm : (q * 32 + i) % 32 = i := by omega
  rw [← Except.ok.inj hp, Storage.byte, hq, hm]
  cases s.read_page_override ⟨slot, q⟩ with
  | some page' => exact Page.byte_copy_in _ (Nat.zero_le _) hi (page'.getElem?_raw hi)
  | none => exact Page.byte_copy_in _ (Nat.zero_le _) hi (getElem?_storage_read _ _ _ hi)

/-- `s'` is `s` with the pages in `done` rewritten for a write of `buf`. -/
structure Written (host : Content) (s : Storage) (slot : SlotID) (index : Nat) (buf : Bytes)
    (done : Nat → Prop) (s' : Storage) : Prop where
  cache : s'.cache = s.cache
  done_page : ∀ q, done q → ∃ page, s'.read_page_override ⟨slot, q⟩ = some page ∧
    ∀ i < 32, page.byte i = overwrite (s.byte host) slot index buf slot (q * 32 + i)
  other : ∀ k : PageID, ¬ (k.slot = slot ∧ done k.index) →
    s'.read_page_override k = s.read_page_override k

theorem Written.start : Written host s slot index buf (fun _ => False) s :=
  ⟨rfl, fun _ h => h.elim, fun _ _ => rfl⟩

/-- A page that is not rewritten yet is as it was. -/
theorem Written.byte {done : Nat → Prop} (h : Written host s slot index buf done s') {q i : Nat}
    (hq : ¬ done q) (hi : i < 32) : s'.byte host slot (q * 32 + i) = s.byte host slot (q * 32 + i) := by
  have hd : (q * 32 + i) / 32 = q := by omega
  rw [Storage.byte, Storage.byte, h.other _ fun h' => hq (hd ▸ h'.2)]

theorem Written.put {done : Nat → Prop} (h : Written host s slot index buf done s') {q : Nat}
    {page : Page} (hp : ∀ i < 32,
      page.byte i = overwrite (s.byte host) slot index buf slot (q * 32 + i)) :
    Written host s slot index buf (fun p => p = q ∨ done p) (s'.putPage ⟨slot, q⟩ page) := by
  refine ⟨h.cache, ?_, ?_⟩
  · intro p hd
    rw [override_putPage]
    by_cases hpq : p = q
    · exact ⟨page, by rw [if_pos (by rw [hpq])], hpq ▸ hp⟩
    · rw [if_neg fun he => hpq (congrArg PageID.index he)]
      exact h.done_page p (hd.resolve_left hpq)
  · intro k hk
    rw [override_putPage, if_neg]
    · exact h.other k fun h' => hk ⟨h'.1, .inr h'.2⟩
    · intro he
      exact hk (he ▸ ⟨rfl, .inl rfl⟩)

/-- The bytes a copy into the page must bring. -/
theorem overwrite_byte {q off : Nat} {src : Bytes} {page : Page}
    (hpage : ∀ i < 32, page.byte i = s.byte host slot (q * 32 + i))
    (hin : ∀ i, off ≤ i → i < off + src.length → index ≤ q * 32 + i ∧
      q * 32 + i - index < buf.length ∧ src[i - off]? = buf[q * 32 + i - index]?)
    (hout : ∀ i < 32, i < off ∨ off + src.length ≤ i →
      q * 32 + i < index ∨ index + buf.length ≤ q * 32 + i) :
    ∀ i < 32, (page.copy off src).byte i =
      overwrite (s.byte host) slot index buf slot (q * 32 + i) := by
  intro i hi
  unfold overwrite
  by_cases hi' : off ≤ i ∧ i < off + src.length
  · obtain ⟨h1, h2, h3⟩ := hin i hi'.1 hi'.2
    rw [List.getElem?_eq_getElem h2] at h3
    rw [Page.byte_copy_in page hi'.1 hi h3, if_pos ⟨rfl, h1⟩, List.getElem?_eq_getElem h2,
      Option.getD_some]
  · rw [Page.byte_copy_out page (by omega), hpage i hi]
    rcases hout i hi (by omega) with h | h
    · rw [if_neg (by omega)]
    · split
      · rw [List.getElem?_eq_none (by omega), Option.getD_none]
      · rfl

theorem write_single_page_ok (hpos : 0 < buf.length)
    (hq : index / 32 = (index + buf.length - 1) / 32) {u : Unit}
    (h : write_single_page host consume ⟨slot, index / 32⟩ (index % 32) buf (s, l) =
      (.ok u, (s', l'))) :
    Written host s slot index buf (fun p => p = index / 32 ∨ False) s' := by
  have hm : index % 32 + buf.length ≤ 32 := by omega
  unfold write_single_page at h
  split at h
  · next hfull =>
    rw [write_page_ok h]
    refine Written.start.put fun i hi => ?_
    have hle : index ≤ index / 32 * 32 + i := by omega
    have hlt : index / 32 * 32 + i - index < buf.length := by omega
    rw [overwrite, if_pos ⟨rfl, hle⟩, List.getElem?_eq_getElem hlt, Option.getD_some]
    apply Page.byte_copy_in _ (Nat.zero_le _) hi
    rw [show i - 0 = index / 32 * 32 + i - index by omega, List.getElem?_eq_getElem hlt]
  · obtain ⟨page, ⟨s1, l1⟩, h1, h2⟩ := run_bind_ok.mp h
    obtain ⟨rfl, rfl, hpage⟩ := existingPage_ok h1
    rw [write_page_ok h2]
    refine Written.start.put (overwrite_byte hpage ?_ ?_)
    · intro j hj1 hj2
      refine ⟨by omega, by omega, ?_⟩
      congr 1
      omega
    · intro j hj hor
      omega

theorem writeFirst_ok (hq : index / 32 < (index + buf.length - 1) / 32) {u : Unit}
    (h : writeFirst host consume slot index buf (s, l) = (.ok u, (s', l'))) :
    Written host s slot index buf
      (fun p => p = index / 32 ∧ index / 32 * 32 < index) s' := by
  unfold writeFirst at h
  dsimp only at h
  split at h
  · next hpart =>
    obtain ⟨page, ⟨s1, l1⟩, h1, h2⟩ := run_bind_ok.mp h
    obtain ⟨rfl, rfl, hpage⟩ := existingPage_ok h1
    have hlen : (buf.take (32 - index % 32)).length = 32 - index % 32 := by
      rw [List.length_take]
      omega
    have hnew : ∀ i < 32, (page.copy (index % 32) (buf.take (32 - index % 32))).byte i =
        overwrite (s1.byte host) slot index buf slot (index / 32 * 32 + i) := by
      apply overwrite_byte hpage
      · intro j hj1 hj2
        rw [hlen] at hj2
        refine ⟨by omega, by omega, ?_⟩
        rw [List.getElem?_take, if_pos (by omega)]
        congr 1
        omega
      · intro j hj hor
        omega
    rw [write_page_ok h2]
    simpa [hpart] using Written.start.put hnew
  · next hpart =>
    obtain ⟨-, h2⟩ := run_pure_ok.mp h
    obtain ⟨rfl, -⟩ := Prod.mk.inj h2
    simpa [hpart] using Written.start

theorem writeLast_ok {done : Nat → Prop} {s0 : Storage}
    (hw : Written host s0 slot index buf done s)
    (hq : index / 32 < (index + buf.length - 1) / 32) (hd : ¬ done ((index + buf.length - 1) / 32))
    {u : Unit} (h : writeLast host consume slot (index + buf.length) buf (s, l) = (.ok u, (s', l'))) :
    Written host s0 slot index buf (fun p => (p = (index + buf.length - 1) / 32 ∧
      index + buf.length < (index + buf.length - 1) / 32 * 32 + 32) ∨ done p) s' := by
  unfold writeLast at h
  dsimp only at h
  split at h
  · next hpart =>
    obtain ⟨page, ⟨s1, l1⟩, h1, h2⟩ := run_bind_ok.mp h
    obtain ⟨rfl, rfl, hpage⟩ := existingPage_ok h1
    have hlen : (buf.drop (buf.length - (index + buf.length) % 32)).length =
        (index + buf.length) % 32 := by
      rw [List.length_drop]
      omega
    have hnew : ∀ i < 32,
        (page.copy 0 (buf.drop (buf.length - (index + buf.length) % 32))).byte i =
          overwrite (s0.byte host) slot index buf slot
            ((index + buf.length - 1) / 32 * 32 + i) := by
      apply overwrite_byte fun i hi => (hpage i hi).trans (hw.byte hd hi)
      · intro j hj1 hj2
        rw [hlen] at hj2
        refine ⟨by omega, by omega, ?_⟩
        rw [List.getElem?_drop]
        congr 1
        omega
      · intro j hj hor
        omega
    rw [write_page_ok h2]
    simpa [hpart] using hw.put hnew
  · next hpart =>
    obtain ⟨-, h2⟩ := run_pure_ok.mp h
    obtain ⟨rfl, -⟩ := Prod.mk.inj h2
    simpa [hpart] using hw

/-- The pages `writeFull` leaves to the partial writes. -/
def Partial (index len q : Nat) : Prop :=
  (q = index / 32 ∧ q * 32 < index) ∨ (q = (index + len - 1) / 32 ∧ index + len < q * 32 + 32)

theorem full_page {s0 : Storage} {q : Nat} (h1 : index / 32 ≤ q)
    (h2 : q ≤ (index + buf.length - 1) / 32) (hp : ¬ Partial index buf.length q) :
    ∀ i < 32, (Page.zero.copy 0 ((buf.drop (q * 32 - index)).take 32)).byte i =
      overwrite (s0.byte host) slot index buf slot (q * 32 + i) := by
  intro i hi
  unfold Partial at hp
  have hle : index ≤ q * 32 + i := by omega
  have hlt : q * 32 + i - index < buf.length := by omega
  rw [overwrite, if_pos ⟨rfl, hle⟩, List.getElem?_eq_getElem hlt, Option.getD_some]
  apply Page.byte_copy_in _ (Nat.zero_le _) hi
  rw [Nat.sub_zero, List.getElem?_take, if_pos hi, List.getElem?_drop,
    show q * 32 - index + i = q * 32 + i - index by omega, List.getElem?_eq_getElem hlt]

theorem writeFull_ok {s0 : Storage} : ∀ {qs : List Nat} {done : Nat → Prop} {s : Storage} {l : L}
    {u : Unit}, (∀ q ∈ qs, index / 32 ≤ q ∧ q ≤ (index + buf.length - 1) / 32) →
    Written host s0 slot index buf done s →
    writeFull consume slot index (index + buf.length) buf qs (s, l) = (.ok u, (s', l')) →
    Written host s0 slot index buf
      (fun p => (p ∈ qs ∧ ¬ Partial index buf.length p) ∨ done p) s'
  | [], done, s, l, u, _, hw, h => by
    obtain ⟨-, h2⟩ := run_pure_ok.mp h
    obtain ⟨rfl, -⟩ := Prod.mk.inj h2
    simpa using hw
  | q :: qs, done, s, l, u, hqs, hw, h => by
    rw [List.forall_mem_cons] at hqs
    rw [writeFull] at h
    dsimp only at h
    split at h
    · next hpart =>
      have hp : Partial index buf.length q := hpart
      have ih := writeFull_ok hqs.2 hw h
      refine ⟨ih.cache, fun p hd => ih.done_page p ?_, fun k hk => ih.other k fun hd => hk ?_⟩
      · refine hd.imp_left fun hm => ⟨?_, hm.2⟩
        refine (List.mem_cons.mp hm.1).resolve_left fun he => hm.2 (he ▸ hp)
      · exact ⟨hd.1, hd.2.imp_left fun hm => ⟨List.mem_cons_of_mem _ hm.1, hm.2⟩⟩
    · next hpart =>
      have hp : ¬ Partial index buf.length q := hpart
      obtain ⟨_, ⟨s1, l1⟩, h1, h2⟩ := run_bind_ok.mp h
      have hput := hw.put (full_page hqs.1.1 hqs.1.2 hp)
      rw [← write_page_ok h1] at hput
      have ih := writeFull_ok hqs.2 hput h2
      refine ⟨ih.cache, fun p hd => ih.done_page p ?_, fun k hk => ih.other k fun hd => hk ?_⟩
      · rcases hd with ⟨hm, hnp⟩ | hd
        · rcases List.mem_cons.mp hm with he | hm
          · exact .inr (.inl he)
          · exact .inl ⟨hm, hnp⟩
        · exact .inr (.inr hd)
      · refine ⟨hd.1, ?_⟩
        rcases hd.2 with ⟨hm, hnp⟩ | he | hd
        · exact .inl ⟨List.mem_cons_of_mem _ hm, hnp⟩
        · exact .inl ⟨he ▸ List.mem_cons_self .., he ▸ hp⟩
        · exact .inr hd

/-- When every page of the range is rewritten, so is the content. -/
theorem Written.content {done : Nat → Prop} (h : Written host s slot index buf done s')
    (hdone : ∀ q, index / 32 ≤ q → q ≤ (index + buf.length - 1) / 32 → done q) :
    s'.byte host = overwrite (s.byte host) slot index buf := by
  funext slot' a
  have hd := Nat.div_add_mod' a 32
  by_cases hk : slot' = slot ∧ done (a / 32)
  · obtain ⟨rfl, hdone'⟩ := hk
    obtain ⟨page, hp, hb⟩ := h.done_page _ hdone'
    rw [Storage.byte, hp]
    show page.byte (a % 32) = _
    rw [hb _ (Nat.mod_lt a (by omega)), hd]
  · rw [Storage.byte, h.other ⟨slot', a / 32⟩ hk, ← Storage.byte, overwrite]
    split
    · next hs =>
      have hout : index + buf.length ≤ a := by
        by_contra hlt
        exact hk ⟨hs.1, hdone _ (Nat.div_le_div_right hs.2) (by omega)⟩
      rw [List.getElem?_eq_none (by omega), Option.getD_none]
    · rfl

/-- **Writing.** A write that succeeds leaves the cache alone and writes the
data over the content. -/
theorem write_ok {u : Unit}
    (h : write host consume slot index buf (s, l) = (.ok u, (s', l'))) :
    s'.cache = s.cache ∧ s'.byte host = overwrite (s.byte host) slot index buf := by
  unfold write at h
  split at h
  · next hb =>
    obtain ⟨-, h2⟩ := run_pure_ok.mp h
    obtain ⟨rfl, -⟩ := Prod.mk.inj h2
    refine ⟨rfl, ?_⟩
    funext slot' a
    simp [overwrite, hb]
  · next hb =>
    have hpos : 0 < buf.length := List.length_pos_iff.mpr hb
    dsimp only at h
    split at h
    · next hq =>
      have hw := write_single_page_ok hpos hq h
      exact ⟨hw.cache, hw.content fun q h1 h2 => .inl (by omega)⟩
    · next hq =>
      have hlt : index / 32 < (index + buf.length - 1) / 32 := by omega
      obtain ⟨_, ⟨s1, l1⟩, h1, h'⟩ := run_bind_ok.mp h
      obtain ⟨_, ⟨s2, l2⟩, h2, h3⟩ := run_bind_ok.mp h'
      have hw1 := writeFirst_ok hlt h1
      have hw2 := writeLast_ok hw1 hlt (fun hd => by omega) h2
      have hmem : ∀ q ∈ pageRange index (index + buf.length),
          index / 32 ≤ q ∧ q ≤ (index + buf.length - 1) / 32 := by
        intro q hq'
        rw [pageRange, List.mem_range'_1] at hq'
        omega
      have hw3 := writeFull_ok hmem hw2 h3
      refine ⟨hw3.cache, hw3.content fun q hq1 hq2 => ?_⟩
      by_cases hp : Partial index buf.length q
      · rcases hp with ⟨he, hp⟩ | ⟨he, hp⟩
        · exact .inr (.inr ⟨he, he ▸ hp⟩)
        · exact .inr (.inl ⟨he, he ▸ hp⟩)
      · refine .inl ⟨?_, hp⟩
        rw [pageRange, List.mem_range'_1]
        omega

end

end GenVM.Store
