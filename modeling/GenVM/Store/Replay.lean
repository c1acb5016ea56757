import GenVM.Store.Overlay
import GenVM.Store.Write

/-!
# Deltas are the overlay

The deltas of an overlay are its maximal runs of consecutive pages: sorted,
apart from each other, on every overridden page once and on no other
(`ExactDeltas`). Replayed in order over the host's content they give the
content the overlay shows.

Results: `make_delta_exact` over the states that reads and writes reach, failed
writes included.
-/
namespace GenVM.Store
open GenVM.Lib
open GenVM.Calldata (Bytes)

/-! ## Replaying -/

/-- Where a delta starts. -/
def Delta.first (d : Delta) : PageID := PageID.from_bytes d.key

/-- A delta written over the content. -/
def Delta.apply (c : Content) (d : Delta) : Content :=
  overwrite c d.first.slot (d.first.index * 32) d.data

/-- The deltas written one after the other. -/
def replay (c : Content) (ds : List Delta) : Content := ds.foldl Delta.apply c

/-- `b` goes on where `a` ends, so the two could be one. -/
def Adjacent (a b : Delta) : Prop :=
  b.first.slot = a.first.slot ∧ b.first.index * 32 = a.first.index * 32 + a.data.length

theorem overwrite_append (c : Content) (slot : SlotID) (index : Nat) (xs ys : Bytes) :
    overwrite c slot index (xs ++ ys) =
      overwrite (overwrite c slot index xs) slot (index + xs.length) ys := by
  funext slot' a
  unfold overwrite
  by_cases hs : slot' = slot
  · by_cases h1 : index ≤ a
    · rw [if_pos ⟨hs, h1⟩]
      by_cases h2 : index + xs.length ≤ a
      · rw [if_pos ⟨hs, h2⟩, if_pos ⟨hs, h1⟩, List.getElem?_append_right (by omega),
          List.getElem?_eq_none (show xs.length ≤ a - index by omega), Nat.sub_sub]
        rfl
      · rw [if_neg fun h => h2 h.2, if_pos ⟨hs, h1⟩, List.getElem?_append_left (by omega)]
    · rw [if_neg fun h => h1 h.2, if_neg fun h => h1 (by omega), if_neg fun h => h1 h.2]
  · rw [if_neg fun h => hs h.1, if_neg fun h => hs h.1, if_neg fun h => hs h.1]

/-- One page written over the content. -/
def putContent (c : Content) (e : PageID × Page) : Content :=
  overwrite c e.1.slot (e.1.index * 32) e.2.raw

theorem putContent_apply (c : Content) (k : PageID) (v : Page) (slot : SlotID) (a : Nat) :
    putContent c (k, v) slot a =
      if (⟨slot, a / 32⟩ : PageID) = k then v.byte (a % 32) else c slot a := by
  unfold putContent overwrite
  dsimp only
  by_cases hk : (⟨slot, a / 32⟩ : PageID) = k
  · obtain rfl := hk
    have hlt : a - a / 32 * 32 = a % 32 := by omega
    rw [if_pos ⟨rfl, by dsimp only; omega⟩, if_pos rfl, hlt, v.getElem?_raw (Nat.mod_lt _ (by decide)),
      Option.getD_some]
  · rw [if_neg hk]
    split
    · next h =>
      -- past the page
      have hne : a / 32 ≠ k.index := fun he => hk (PageID.ext_raw (congrArg SlotID.raw h.1) he)
      rw [List.getElem?_eq_none (by rw [v.size]; omega)]
      rfl
    · rfl

/-- Pages with distinct keys, written one after the other. -/
theorem putContents_apply : ∀ {pages : List (PageID × Page)} (c : Content),
    SortedMap.Sorted pageLt pages → ∀ slot a, pages.foldl putContent c slot a =
      match pages.lookup ⟨slot, a / 32⟩ with
      | some page => page.byte (a % 32)
      | none => c slot a
  | [], c, _, slot, a => rfl
  | (k, v) :: pages, c, hs, slot, a => by
    obtain ⟨hall, hs⟩ := SortedMap.sorted_cons.mp hs
    rw [List.foldl_cons, putContents_apply _ hs, SortedMap.lookup_cons, putContent_apply]
    by_cases hk : (⟨slot, a / 32⟩ : PageID) = k
    · have hnone : pages.lookup ⟨slot, a / 32⟩ = none := by
        cases hv : pages.lookup ⟨slot, a / 32⟩ with
        | none => rfl
        | some w =>
          have hlt := hall _ (SortedMap.mem_of_lookup hv)
          rw [hk] at hlt
          exact absurd hlt (pageLt_order.irrefl k)
      rw [hnone, if_pos hk, if_pos hk]
    · rw [if_neg hk, if_neg hk]

theorem putContents_eq (s : Storage) (host : Content) :
    s.pages.foldl putContent host = s.byte host := by
  funext slot a
  exact putContents_apply host s.sorted slot a

/-! ## One step of the loop -/

theorem replay_push (c : Content) (res : List Delta) {k : PageID} (v : Page)
    (hk : k.index < 2 ^ 32) :
    replay c (res ++ [⟨⟨k.to_bytes, k.length_to_bytes⟩, v.raw⟩]) = putContent (replay c res) (k, v) := by
  unfold replay
  rw [List.foldl_append]
  show overwrite _ (PageID.from_bytes ⟨k.to_bytes, k.length_to_bytes⟩).slot _ v.raw = _
  rw [Delta.first, PageID.from_to_bytes hk]
  rfl

/-- A delta whose last page is the one before `k` ends where `k` starts. -/
theorem Delta.end_of_last {d : Delta} {k : PageID} (hd : 32 ∣ d.data.length) (hk : k.index ≠ 0)
    (hlast : d.pages.getLast? = some ⟨k.slot, k.index - 1⟩) :
    d.first.slot = k.slot ∧ d.first.index * 32 + d.data.length = k.index * 32 := by
  obtain ⟨n, hn⟩ := hd
  have hdiv : d.data.length / 32 = n := by omega
  unfold Delta.pages at hlast
  dsimp only at hlast
  rw [hdiv] at hlast
  cases n with
  | zero => cases hlast
  | succ n =>
    rw [List.range_succ, List.map_append, List.map_singleton, List.getLast?_concat] at hlast
    obtain ⟨hs, hi⟩ := PageID.mk.inj (Option.some.inj hlast)
    refine ⟨hs, ?_⟩
    show (PageID.from_bytes d.key).index * 32 + d.data.length = k.index * 32
    omega

/-- Extending the last delta by a page writes that page and moves no key. -/
theorem extendLast_replay {k : PageID} {v : Page} (hk : k.index ≠ 0) : ∀ {res res' : List Delta}
    {keys : List PageID} (c : Content), Covers res keys →
    keys.getLast? = some ⟨k.slot, k.index - 1⟩ → extendLast v.raw res = some res' →
    replay c res' = putContent (replay c res) (k, v) ∧
      res'.map Delta.first = res.map Delta.first
  | [], _, _, _, _, _, h => nomatch h
  | [d], res', keys, c, hc, hlast, h => by
    obtain rfl := Option.some.inj h
    obtain ⟨rfl, hall⟩ := hc
    obtain ⟨hd, -⟩ := hall d (List.mem_singleton.mpr rfl)
    rw [List.flatMap_singleton] at hlast
    obtain ⟨hslot, hend⟩ := Delta.end_of_last hd hk hlast
    refine ⟨?_, rfl⟩
    show overwrite c d.first.slot (d.first.index * 32) (d.data ++ v.raw) =
      overwrite (overwrite c d.first.slot (d.first.index * 32) d.data) k.slot (k.index * 32) v.raw
    rw [overwrite_append, hend, hslot]
  | d :: d' :: ds, res', keys, c, hc, hlast, h => by
    obtain ⟨rfl, hall⟩ := hc
    obtain ⟨res1, hres, rfl⟩ := Option.map_eq_some_iff.mp h
    have hall' : ∀ x ∈ d' :: ds, 32 ∣ x.data.length ∧ 0 < x.data.length :=
      fun x hx => hall x (List.mem_cons_of_mem _ hx)
    have hne : (d' :: ds).flatMap Delta.pages ≠ [] := by
      intro hnil
      have hlen := congrArg List.length hnil
      have hd' := hall' d' List.mem_cons_self
      rw [List.flatMap_cons, List.length_append, Delta.pages, List.length_map, List.length_range,
        List.length_nil] at hlen
      omega
    rw [List.flatMap_cons, List.getLast?_append_of_ne_nil _ hne] at hlast
    obtain ⟨hrep, hkeys⟩ := extendLast_replay hk (d.apply c) ⟨rfl, hall'⟩ hlast hres
    exact ⟨hrep, congrArg (d.first :: ·) hkeys⟩

/-- No delta starts right after an overridden page. -/
def Starts (s : Storage) (firsts : List PageID) : Prop :=
  ∀ p ∈ firsts, p.index ≠ 0 → ¬ s.Overridden ⟨p.slot, p.index - 1⟩

/-- The deltas of the pages in `done`. -/
structure DoneDeltas (host : Content) (s : Storage) (done : List (PageID × Page))
    (res : List Delta) : Prop where
  covers : Covers res (done.map Prod.fst)
  starts : Starts s (res.map Delta.first)
  replay : replay host res = done.foldl putContent host

theorem DoneDeltas.step {host : Content} {s : Storage} {done rest : List (PageID × Page)}
    {res : List Delta} {k : PageID} {v : Page} (h : DoneDeltas host s done res)
    (hsplit : s.pages = done ++ (k, v) :: rest) (hk : k.index < 2 ^ 32) :
    ∃ res', deltaLoop s ((k, v) :: rest) res = deltaLoop s rest res' ∧
      DoneDeltas host s (done ++ [(k, v)]) res' := by
  have hkeys : (done ++ [(k, v)]).map Prod.fst = done.map Prod.fst ++ [k] := List.map_append
  have hfold : (done ++ [(k, v)]).foldl putContent host =
      putContent (done.foldl putContent host) (k, v) := by rw [List.foldl_append]; rfl
  by_cases hprev : k.index ≠ 0 ∧ (s.read_page_override ⟨k.slot, k.index - 1⟩).isSome
  · have hlast := prev_getLast hsplit hprev.1 hprev.2
    obtain ⟨res', hres, hc'⟩ := extendLast_covers (v := v) hprev.1 h.covers hlast
    obtain ⟨hrep, hfirst⟩ := extendLast_replay hprev.1 host h.covers hlast hres
    refine ⟨res', ?_, hkeys ▸ hc', hfirst ▸ h.starts, ?_⟩
    · rw [deltaLoop, if_pos hprev, hres]
      rfl
    · rw [hrep, h.replay, hfold]
  · refine ⟨res ++ [⟨⟨k.to_bytes, k.length_to_bytes⟩, v.raw⟩], ?_, hkeys ▸ covers_push h.covers hk,
      ?_, ?_⟩
    · rw [deltaLoop, if_neg hprev]
    · intro p hp
      rw [List.map_append] at hp
      rcases List.mem_append.mp hp with hp | hp
      · exact h.starts p hp
      · obtain rfl := List.mem_singleton.mp hp
        rw [Delta.first, PageID.from_to_bytes hk]
        exact fun h0 ho => hprev ⟨h0, ho⟩
    · rw [replay_push host res v hk, h.replay, hfold]

theorem deltaLoop_done {host : Content} {s : Storage} (hb : ∀ p ∈ s.pages, p.1.index < 2 ^ 32) :
    ∀ {rest done : List (PageID × Page)} {res : List Delta}, s.pages = done ++ rest →
      DoneDeltas host s done res →
      ∃ ds, deltaLoop s rest res = some ds ∧ DoneDeltas host s s.pages ds
  | [], done, res, hsplit, h => ⟨res, rfl, by rwa [hsplit, List.append_nil]⟩
  | (k, v) :: rest, done, res, hsplit, h => by
    have hk : k.index < 2 ^ 32 :=
      hb (k, v) (hsplit ▸ List.mem_append_right _ List.mem_cons_self)
    obtain ⟨res', hloop, hres⟩ := h.step hsplit hk
    have hsplit' : s.pages = (done ++ [(k, v)]) ++ rest := by
      rw [hsplit, List.append_assoc, List.singleton_append]
    rw [hloop]
    exact deltaLoop_done hb hsplit' hres

/-! ## The deltas of an overlay -/

/-- What the deltas of an overlay are. -/
structure ExactDeltas (host : Content) (s : Storage) (ds : List Delta) : Prop where
  whole : ∀ d ∈ ds, d.data.length = 32 * d.pages.length ∧ d.first ∈ d.pages
  sorted : ds.Pairwise fun a b => pageLt a.first b.first
  disjoint : ds.Pairwise fun a b => ∀ p ∈ a.pages, p ∉ b.pages
  maximal : ∀ a ∈ ds, ∀ b ∈ ds, ¬ Adjacent a b
  once : (ds.flatMap Delta.pages).Nodup
  covered : ∀ p, p ∈ ds.flatMap Delta.pages ↔ s.Overridden p
  replay : replay host ds = s.byte host

theorem Delta.mem_pages {d : Delta} {p : PageID} : p ∈ d.pages ↔
    p.slot = d.first.slot ∧ d.first.index ≤ p.index ∧ p.index < d.first.index + d.data.length / 32 := by
  unfold Delta.pages
  simp only [List.mem_map, List.mem_range]
  constructor
  · rintro ⟨i, hi, rfl⟩
    exact ⟨rfl, Nat.le_add_right _ _, Nat.add_lt_add_left hi _⟩
  · intro ⟨hs, h1, h2⟩
    refine ⟨p.index - d.first.index, by omega, ?_⟩
    apply PageID.ext_raw
    · exact congrArg SlotID.raw hs.symm
    · show d.first.index + (p.index - d.first.index) = p.index
      omega

theorem mem_keys_iff (s : Storage) (p : PageID) : p ∈ s.pages.map Prod.fst ↔ s.Overridden p := by
  unfold Storage.Overridden Storage.read_page_override
  constructor
  · intro h
    by_contra hno
    obtain ⟨e, he, rfl⟩ := List.mem_map.mp h
    have hnone := List.lookup_eq_none_iff.mp (Option.not_isSome_iff_eq_none.mp hno) e he
    simp at hnone
  · intro h
    obtain ⟨v, hv⟩ := Option.isSome_iff_exists.mp h
    exact List.mem_map_of_mem (SortedMap.mem_of_lookup hv)

theorem DoneDeltas.exact {host : Content} {s : Storage} {ds : List Delta}
    (h : DoneDeltas host s s.pages ds) : ExactDeltas host s ds := by
  obtain ⟨hpages, hdata⟩ := h.covers
  have hfirst : ∀ d ∈ ds, d.first ∈ d.pages := by
    intro d hd
    obtain ⟨hdvd, hpos⟩ := hdata d hd
    refine Delta.mem_pages.mpr ⟨rfl, le_refl _, ?_⟩
    omega
  have hkeys : (ds.flatMap Delta.pages).Pairwise pageLt := by
    rw [hpages]
    exact List.pairwise_map.mpr s.sorted
  have hcovered : ∀ p, p ∈ ds.flatMap Delta.pages ↔ s.Overridden p := by
    intro p
    rw [hpages]
    exact mem_keys_iff s p
  have hcross := (List.pairwise_flatMap.mp hkeys).2
  refine ⟨fun d hd => ⟨?_, hfirst d hd⟩, ?_, ?_, ?_, ?_, hcovered, ?_⟩
  · obtain ⟨hdvd, -⟩ := hdata d hd
    rw [Delta.pages, List.length_map, List.length_range]
    omega
  · refine hcross.imp_of_mem fun ha hb hab => ?_
    exact hab _ (hfirst _ ha) _ (hfirst _ hb)
  · refine hcross.imp fun hab p hp hq => ?_
    exact pageLt_order.irrefl p (hab p hp p hq)
  · -- the page before the start of `b` would be the last one of `a`
    intro a ha b hb hadj
    obtain ⟨hslot, hindex⟩ := hadj
    obtain ⟨hdvd, hpos⟩ := hdata a ha
    apply h.starts b.first (List.mem_map_of_mem hb) (by omega)
    rw [← hcovered]
    refine List.mem_flatMap.mpr ⟨a, ha, Delta.mem_pages.mpr ⟨hslot, ?_, ?_⟩⟩
    · dsimp only
      omega
    · dsimp only
      omega
  · apply hkeys.imp
    intro a b hab he
    exact pageLt_order.irrefl b (he ▸ hab)
  · rw [h.replay]
    exact putContents_eq s host

/-- The deltas of any overlay whose page numbers are `u32`. -/
theorem make_delta_some {host : Content} {s : Storage}
    (hb : ∀ p ∈ s.pages, p.1.index < 2 ^ 32) :
    ∃ ds, make_delta s = some ds ∧ ExactDeltas host s ds := by
  have hstart : DoneDeltas host s [] [] :=
    ⟨⟨rfl, fun _ hd => absurd hd List.not_mem_nil⟩, fun _ hp => absurd hp List.not_mem_nil, rfl⟩
  obtain ⟨ds, hds, hdone⟩ := @deltaLoop_done host s hb s.pages [] [] rfl hstart
  exact ⟨ds, hds, hdone.exact⟩

/-! ## Every overlay -/

section
variable {ε L : Type}

/-- The storages that reads and writes reach from an empty one. The limiter is
shared, so a write finds it in any state; a write that it stops leaves the pages
it wrote before. -/
inductive Reached (host : Content) (consume : L → Except ε L) : Storage → Prop
  | start : Reached host consume Storage.new
  | read {s : Storage} (slot : SlotID) (index : Nat) (buf : Bytes) : Reached host consume s →
      index + buf.length < 2 ^ 32 → Reached host consume (read host s slot index buf).2
  | write {s : Storage} (l : L) (slot : SlotID) (index : Nat) (buf : Bytes) :
      Reached host consume s → index + buf.length < 2 ^ 32 →
      Reached host consume (write host consume slot index buf (s, l)).2.1

variable {host : Content} {consume : L → Except ε L}

theorem write_page_bounded {slot : SlotID} {k : Nat} (hk : k < 2 ^ 27) (value : Page) :
    Keeps (fun a b : Storage × L => a.1.Bounded → b.1.Bounded)
      (write_page consume ⟨slot, k⟩ value) := by
  intro ⟨s, l⟩ hs
  unfold write_page
  dsimp only
  split
  · exact hs.put hk value
  · split
    · exact hs.put hk value
    · exact hs

theorem reached_bounded {s : Storage} (h : Reached host consume s) : s.Bounded := by
  induction h with
  | start => exact fun p hp => absurd hp List.not_mem_nil
  | read slot index buf _ _ ih =>
    unfold Storage.Bounded
    rw [read_overlay]
    exact ih
  | @write s l slot index buf _ hlen ih =>
    have hkeeps : Keeps (fun a b : Storage × L => a.1.Bounded → b.1.Bounded)
        (write host consume slot index buf) := by
      apply write_keeps
      · exact fun _ hs => hs
      · exact fun _ _ _ hab hbc hs => hbc (hab hs)
      · exact fun k value hk => write_page_bounded (by omega) value
    exact hkeeps (s, l) ih

/-- **Delta extraction is exact.** For every overlay that reads and writes reach,
`make_delta` gets through and returns the maximal runs of overridden pages, and
replaying them gives what the overlay shows. -/
theorem make_delta_exact {s : Storage} (h : Reached host consume s) :
    ∃ ds, make_delta s = some ds ∧ ExactDeltas host s ds :=
  make_delta_some fun p hp => (reached_bounded h p hp).trans (by decide)

/-- Three pages: two in a row and one apart. -/
theorem make_delta_exact_two :
    let host : Content := fun _ _ => 7
    let consume : Unit → Except Unit Unit := .ok
    let s := (write host consume SlotID.ZERO 100 [9]
      (write host consume SlotID.ZERO 30 [1, 2, 3, 4] (Storage.new, ())).2).2.1
    ∃ ds, make_delta s = some ds ∧ ExactDeltas host s ds := by
  intro host consume s
  have h1 := Reached.write () SlotID.ZERO 30 [1, 2, 3, 4] (@Reached.start _ _ host consume)
    (by decide)
  have h2 : Reached host consume s := Reached.write () SlotID.ZERO 100 [9] h1 (by decide)
  exact make_delta_exact h2

end

end GenVM.Store
