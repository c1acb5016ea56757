import GenVM.Store.Types
import GenVM.Store.Root

/-!
# Deltas (`executor/src/rt/vm/storage.rs`)

The overlay is reported as deltas, one for each run of consecutive pages of a
slot. They cover the overridden pages, each once and in order
(`make_delta_pages`); in particular a delta to extend is always there.
-/
namespace GenVM.Store
open GenVM.Lib
open GenVM.Calldata (Bytes)

/-- The big-endian bytes of a `u32`. -/
def u32_to_be (n : Nat) : Bytes := (u32_to_le n).reverse

def u32_from_be (b : Bytes) : Nat := b.foldl (fun acc x => acc * 256 + x.toNat) 0

/-- mirrors executor/src/rt/vm/storage.rs:15-20 -/
def PageID.to_bytes (p : PageID) : Bytes := p.slot.raw ++ u32_to_be p.index

theorem length_u32_to_be (n : Nat) : (u32_to_be n).length = 4 := rfl

theorem PageID.length_to_bytes (p : PageID) : p.to_bytes.length = 36 := by
  rw [PageID.to_bytes, List.length_append, p.slot.size, length_u32_to_be]

/-- mirrors executor/src/rt/vm/storage.rs:22-30 -/
def PageID.from_bytes (data : {b : Bytes // b.length = 36}) : PageID :=
  ⟨⟨data.1.take 32, by rw [List.length_take, data.2]; rfl⟩, u32_from_be (data.1.drop 32)⟩

/-- mirrors executor/src/rt/vm/storage.rs:33-37 -/
structure Delta where
  key : {b : Bytes // b.length = 36}
  data : Bytes

/-- `res.last_mut().expect(..).1.extend_from_slice(v)`, which panics on no deltas.
mirrors executor/src/rt/vm/storage.rs:152-157 -/
def extendLast (v : Bytes) : List Delta → Option (List Delta)
  | [] => none
  | [d] => some [⟨d.key, d.data ++ v⟩]
  | d :: d' :: ds => (d :: ·) <$> extendLast v (d' :: ds)

/-- mirrors executor/src/rt/vm/storage.rs:148-161 -/
def deltaLoop (s : Storage) : List (PageID × Page) → List Delta → Option (List Delta)
  | [], res => some res
  | (k, v) :: rest, res =>
    if k.index ≠ 0 ∧ (s.read_page_override ⟨k.slot, k.index - 1⟩).isSome then do
      deltaLoop s rest (← extendLast v.raw res)
    else deltaLoop s rest (res ++ [⟨⟨k.to_bytes, k.length_to_bytes⟩, v.raw⟩])

/-- mirrors executor/src/rt/vm/storage.rs:145-164 -/
def make_delta (s : Storage) : Option (List Delta) := deltaLoop s s.pages []

/-- The pages a delta is about, 32 bytes each from its key on. -/
def Delta.pages (d : Delta) : List PageID :=
  let first := PageID.from_bytes d.key
  (List.range (d.data.length / 32)).map fun i => ⟨first.slot, first.index + i⟩

/-! ## The deltas cover the overlay -/

theorem u32_from_be_to_be {n : Nat} (h : n < 2 ^ 32) : u32_from_be (u32_to_be n) = n := by
  have h4 : u32_to_be n = [UInt8.ofNat (n / 16777216), UInt8.ofNat (n / 65536),
      UInt8.ofNat (n / 256), UInt8.ofNat (n / 1)] := rfl
  rw [h4]
  simp only [u32_from_be, List.foldl_cons, List.foldl_nil, UInt8.toNat_ofNat']
  omega

theorem PageID.from_to_bytes {p : PageID} (h : p.index < 2 ^ 32) :
    PageID.from_bytes ⟨p.to_bytes, p.length_to_bytes⟩ = p := by
  apply PageID.ext_raw
  · show (p.slot.raw ++ u32_to_be p.index).take 32 = p.slot.raw
    rw [List.take_append_of_le_length p.slot.size.ge, List.take_of_length_le p.slot.size.le]
  · show u32_from_be ((p.slot.raw ++ u32_to_be p.index).drop 32) = p.index
    rw [List.drop_append_of_le_length p.slot.size.ge, List.drop_of_length_le p.slot.size.le,
      List.nil_append, u32_from_be_to_be h]

/-- Every delta covers whole pages, and together they cover `keys`. -/
def Covers (res : List Delta) (keys : List PageID) : Prop :=
  res.flatMap Delta.pages = keys ∧ ∀ d ∈ res, 32 ∣ d.data.length ∧ 0 < d.data.length

theorem Delta.pages_extend {d : Delta} {k : PageID} {v : Page} (hd : 32 ∣ d.data.length)
    (hlast : d.pages.getLast? = some ⟨k.slot, k.index - 1⟩) (hk : k.index ≠ 0) :
    Delta.pages ⟨d.key, d.data ++ v.raw⟩ = d.pages ++ [k] := by
  obtain ⟨n, hn⟩ := hd
  have hdiv : d.data.length / 32 = n := by omega
  have hdiv' : (d.data ++ v.raw).length / 32 = n + 1 := by
    rw [List.length_append, v.size]
    omega
  unfold Delta.pages at hlast ⊢
  dsimp only at hlast ⊢
  rw [hdiv] at hlast ⊢
  rw [hdiv', List.range_succ, List.map_append]
  cases n with
  | zero => cases hlast
  | succ n =>
    rw [List.range_succ, List.map_append, List.map_singleton, List.getLast?_concat] at hlast
    obtain ⟨hs, hi⟩ := PageID.mk.inj (Option.some.inj hlast)
    have hkey : (⟨(PageID.from_bytes d.key).slot, (PageID.from_bytes d.key).index + (n + 1)⟩ :
        PageID) = k := PageID.ext_raw (congrArg SlotID.raw hs) (by dsimp only; omega)
    rw [List.map_singleton, hkey]

/-- The last delta takes the page after its last one. -/
theorem extendLast_covers {k : PageID} {v : Page} (hk : k.index ≠ 0) :
    ∀ {res : List Delta} {keys : List PageID}, Covers res keys →
      keys.getLast? = some ⟨k.slot, k.index - 1⟩ →
      ∃ res', extendLast v.raw res = some res' ∧ Covers res' (keys ++ [k])
  | [], keys, hc, hlast => by
    obtain ⟨rfl, -⟩ := hc
    cases hlast
  | [d], keys, hc, hlast => by
    obtain ⟨rfl, hall⟩ := hc
    obtain ⟨hd, hpos⟩ := hall d (List.mem_singleton.mpr rfl)
    rw [List.flatMap_singleton] at hlast
    refine ⟨_, rfl, ?_, ?_⟩
    · rw [List.flatMap_singleton, List.flatMap_singleton, Delta.pages_extend hd hlast hk]
    · intro d' hd'
      obtain rfl := List.mem_singleton.mp hd'
      rw [List.length_append, v.size]
      exact ⟨by omega, by omega⟩
  | d :: d' :: ds, keys, hc, hlast => by
    obtain ⟨rfl, hall⟩ := hc
    have hne : (d' :: ds).flatMap Delta.pages ≠ [] := by
      obtain ⟨hd, hpos⟩ := hall d' (List.mem_cons_of_mem _ (List.mem_cons_self ..))
      intro hnil
      have hnil' := (List.append_eq_nil_iff.mp (List.flatMap_cons ▸ hnil)).1
      have hlen := congrArg List.length hnil'
      unfold Delta.pages at hlen
      rw [List.length_map, List.length_range, List.length_nil] at hlen
      omega
    rw [List.flatMap_cons, List.getLast?_append_of_ne_nil _ hne] at hlast
    obtain ⟨res', hres, hcov, hall'⟩ :=
      extendLast_covers hk ⟨rfl, fun x hx => hall x (List.mem_cons_of_mem _ hx)⟩ hlast
    refine ⟨d :: res', by rw [extendLast, hres]; rfl, ?_, ?_⟩
    · rw [List.flatMap_cons, hcov]
      simp only [List.flatMap_cons, List.append_assoc]
    · intro x hx
      rcases List.mem_cons.mp hx with rfl | hx
      · exact hall x (List.mem_cons_self ..)
      · exact hall' x hx

theorem covers_push {res : List Delta} {keys : List PageID} {k : PageID} {v : Page}
    (h : Covers res keys) (hk : k.index < 2 ^ 32) :
    Covers (res ++ [⟨⟨k.to_bytes, k.length_to_bytes⟩, v.raw⟩]) (keys ++ [k]) := by
  obtain ⟨rfl, hall⟩ := h
  have hone : Delta.pages ⟨⟨k.to_bytes, k.length_to_bytes⟩, v.raw⟩ = [k] := by
    unfold Delta.pages
    dsimp only
    rw [PageID.from_to_bytes hk, v.size]
    rfl
  refine ⟨?_, ?_⟩
  · rw [List.flatMap_append, List.flatMap_singleton, hone]
  · intro d hd
    rcases List.mem_append.mp hd with hd | hd
    · exact hall d hd
    · obtain rfl := List.mem_singleton.mp hd
      rw [v.size]
      exact ⟨dvd_refl 32, by omega⟩

/-- Nothing sorts between two consecutive pages. -/
theorem pageLt_gap {p q k : PageID} (hs : p.slot = k.slot) (hi : p.index + 1 = k.index)
    (h1 : pageLt p q) (h2 : pageLt q k) : False := by
  unfold pageLt at h1 h2
  rw [hs] at h1
  rcases h1 with h1 | ⟨e1, h1⟩
  · rcases h2 with h2 | ⟨e2, h2⟩
    · exact List.lt_asymm h1 h2
    · exact List.lt_irrefl _ (e2 ▸ h1)
  · rcases h2 with h2 | ⟨e2, h2⟩
    · exact List.lt_irrefl _ (e1 ▸ h2)
    · omega

/-- The page before the current one is the last one done, if it is there at all. -/
theorem prev_getLast {s : Storage} {done rest : List (PageID × Page)} {k : PageID} {v : Page}
    (hsplit : s.pages = done ++ (k, v) :: rest) (hk : k.index ≠ 0)
    (h : (s.read_page_override ⟨k.slot, k.index - 1⟩).isSome) :
    (done.map Prod.fst).getLast? = some ⟨k.slot, k.index - 1⟩ := by
  obtain ⟨w, hw⟩ := Option.isSome_iff_exists.mp h
  have hmem : ((⟨k.slot, k.index - 1⟩ : PageID), w) ∈ s.pages := SortedMap.mem_of_lookup hw
  have hsorted := s.sorted
  rw [hsplit] at hmem hsorted
  obtain ⟨hdone, hrest, hcross⟩ := List.pairwise_append.mp hsorted
  have hlt : pageLt (⟨k.slot, k.index - 1⟩ : PageID) k := .inr ⟨rfl, by dsimp only; omega⟩
  -- it sorts before the current page, so it is among the ones done
  have hin : ((⟨k.slot, k.index - 1⟩ : PageID), w) ∈ done := by
    rcases List.mem_append.mp hmem with hin | hin
    · exact hin
    · rcases List.mem_cons.mp hin with he | hin
      · rw [(Prod.mk.inj he).1] at hlt
        exact absurd hlt (pageLt_order.irrefl k)
      · exact absurd hlt (pageLt_order.asymm ((List.pairwise_cons.mp hrest).1 _ hin))
  rw [List.getLast?_map]
  rcases List.eq_nil_or_concat done with rfl | ⟨init, last, rfl⟩
  · cases hin
  · rw [List.concat_eq_append] at hin hdone hcross ⊢
    rw [List.getLast?_concat, Option.map_some]
    congr 1
    have hlast : pageLt last.1 k :=
      hcross last (List.mem_append_right _ (List.mem_singleton.mpr rfl)) (k, v) (List.mem_cons_self ..)
    rcases List.mem_append.mp hin with hin | hin
    · have hbetween := (List.pairwise_append.mp hdone).2.2 _ hin last (List.mem_singleton.mpr rfl)
      exact (@pageLt_gap ⟨k.slot, k.index - 1⟩ last.1 k rfl (by dsimp only; omega) hbetween hlast).elim
    · rw [← List.mem_singleton.mp hin]

theorem deltaLoop_covers {s : Storage} (hb : ∀ p ∈ s.pages, p.1.index < 2 ^ 32) :
    ∀ {rest done : List (PageID × Page)} {res : List Delta}, s.pages = done ++ rest →
      Covers res (done.map Prod.fst) →
      ∃ ds, deltaLoop s rest res = some ds ∧ Covers ds (s.pages.map Prod.fst)
  | [], done, res, hsplit, hc => ⟨res, rfl, by rwa [hsplit, List.append_nil]⟩
  | (k, v) :: rest, done, res, hsplit, hc => by
    have hsplit' : s.pages = (done ++ [(k, v)]) ++ rest := by
      rw [hsplit, List.append_assoc, List.singleton_append]
    have hkeys : (done ++ [(k, v)]).map Prod.fst = done.map Prod.fst ++ [k] := List.map_append
    rw [deltaLoop]
    split
    · next hprev =>
      obtain ⟨res', hres, hc'⟩ :=
        extendLast_covers (v := v) hprev.1 hc (prev_getLast hsplit hprev.1 hprev.2)
      rw [hres]
      exact deltaLoop_covers hb hsplit' (hkeys ▸ hc')
    · have hk : k.index < 2 ^ 32 :=
        hb (k, v) (hsplit ▸ List.mem_append_right _ (List.mem_cons_self ..))
      exact deltaLoop_covers hb hsplit' (hkeys ▸ covers_push hc hk)

/-- The deltas are about the overridden pages, each once and in their order. -/
theorem make_delta_pages {s : Storage} (hb : ∀ p ∈ s.pages, p.1.index < 2 ^ 32) :
    ∃ ds, make_delta s = some ds ∧ ds.flatMap Delta.pages = s.pages.map Prod.fst := by
  obtain ⟨ds, hds, hc⟩ := @deltaLoop_covers s hb s.pages [] [] rfl ⟨rfl, fun _ h => nomatch h⟩
  exact ⟨ds, hds, hc.1⟩

end GenVM.Store
