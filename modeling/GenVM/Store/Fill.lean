import GenVM.Store.Types

/-!
# What a read leaves in the buffer

`Storage.byte` is the content a contract should see: its overrides over the
host. The loop of `read` gives a page its bytes exactly when the page is known
(overridden or cached) at the loop's turn; the rest of the buffer keeps what
the host read, or nothing, put there (`fill_byte`).
-/
namespace GenVM.Store
open GenVM.Lib
open GenVM.Calldata (Bytes)

namespace Storage

def Overridden (s : Storage) (k : PageID) : Prop := (s.read_page_override k).isSome

/-- `page_is_known` -/
def Known (s : Storage) (k : PageID) : Prop := s.Overridden k ∨ s.cache.Has k

instance (s : Storage) (k : PageID) : Decidable (s.Overridden k) := by
  unfold Overridden; infer_instance

instance (s : Storage) (k : PageID) : Decidable (s.Known k) := by unfold Known; infer_instance

/-- The content as overlaid by the pages written. -/
def byte (host : Content) (s : Storage) (slot : SlotID) (a : Nat) : UInt8 :=
  match s.read_page_override ⟨slot, a / 32⟩ with
  | some page => page.byte (a % 32)
  | none => host slot a

/-- The cache holds the host's pages. -/
def Coherent (host : Content) (s : Storage) : Prop :=
  s.cache.All fun k page => ∀ i < 32, page.byte i = host k.slot (k.index * 32 + i)

end Storage

theorem Page.getElem?_raw (p : Page) {i : Nat} (h : i < 32) : p.raw[i]? = some (p.byte i) := by
  have hi : i < p.raw.length := by rw [p.size]; exact h
  simp [Page.byte, List.getD, List.getElem?_eq_getElem hi]

theorem Page.byte_copy_in (p : Page) {off i : Nat} {b : Bytes} {x : UInt8} (h1 : off ≤ i)
    (h2 : i < 32) (hx : b[i - off]? = some x) : (p.copy off b).byte i = x := by
  obtain ⟨hb, -⟩ := List.getElem?_eq_some_iff.mp hx
  rw [Page.byte, Page.copy, List.getD,
    copyInto_in h1 (by omega) (by rw [p.size]; exact h2), hx, Option.getD_some]

theorem Page.byte_copy_out (p : Page) {off i : Nat} {b : Bytes} (h : i < off ∨ off + b.length ≤ i) :
    (p.copy off b).byte i = p.byte i := by
  rw [Page.byte, Page.copy, List.getD, copyInto_out h, ← List.getD, ← Page.byte]

theorem getElem?_storage_read (host : Content) (slot : SlotID) (index : Nat) {len i : Nat}
    (h : i < len) : (storage_read host slot index len)[i]? = some (host slot (index + i)) := by
  simp [storage_read, h]

@[simp] theorem length_storage_read (host : Content) (slot : SlotID) (index len : Nat) :
    (storage_read host slot index len).length = len := by simp [storage_read]

/-! ## Looking a page up -/

section Lookup
variable {host : Content} {s : Storage} {k q : PageID}

theorem lookup_overridden (h : s.Overridden k) :
    ∃ page, s.read_page_override k = some page ∧ s.lookup k = (some page, s) := by
  obtain ⟨page, hp⟩ := Option.isSome_iff_exists.mp h
  exact ⟨page, hp, by rw [Storage.lookup, hp]⟩

theorem lookup_not_overridden (h : ¬ s.Overridden k) :
    s.read_page_override k = none ∧
      s.lookup k = (s.cache.peek k, { s with cache := (s.cache.get k).2 }) := by
  have hn : s.read_page_override k = none := Option.not_isSome_iff_eq_none.mp h
  exact ⟨hn, by rw [Storage.lookup, hn, Lru.get_fst]⟩

@[simp] theorem lookup_pages (s : Storage) (k : PageID) : (s.lookup k).2.pages = s.pages := by
  unfold Storage.lookup
  split <;> rfl

theorem overridden_congr {s' : Storage} (h : s'.pages = s.pages) :
    s'.Overridden k ↔ s.Overridden k := by
  rw [Storage.Overridden, Storage.read_page_override, h]
  rfl

theorem lookup_isSome : (s.lookup k).1.isSome ↔ s.Known k := by
  by_cases h : s.Overridden k
  · obtain ⟨page, -, hl⟩ := lookup_overridden h
    simp [hl, Storage.Known, h]
  · rw [(lookup_not_overridden h).2, Storage.Known, or_iff_right h]
    rfl

theorem lookup_has : (s.lookup q).2.cache.Has k ↔ s.cache.Has k := by
  by_cases h : s.Overridden q
  · obtain ⟨page, -, hl⟩ := lookup_overridden h
    rw [hl]
  · rw [(lookup_not_overridden h).2]
    exact Lru.has_get

theorem lookup_known : (s.lookup q).2.Known k ↔ s.Known k :=
  or_congr (overridden_congr (lookup_pages s q)) lookup_has

theorem lookup_none (h : ¬ s.Known k) : s.lookup k = (none, s) := by
  have ho : ¬ s.Overridden k := fun ho => h (.inl ho)
  have hc : ¬ s.cache.Has k := fun hc => h (.inr hc)
  rw [(lookup_not_overridden ho).2, Lru.get_miss hc, Option.not_isSome_iff_eq_none.mp hc]

theorem lookup_some (h : s.Known k) : ∃ page, s.lookup k = (some page, (s.lookup k).2) := by
  obtain ⟨page, hp⟩ := Option.isSome_iff_exists.mp (lookup_isSome.mpr h)
  exact ⟨page, Prod.ext hp rfl⟩

theorem lookup_coherent (h : s.Coherent host) (k : PageID) : (s.lookup k).2.Coherent host := by
  by_cases ho : s.Overridden k
  · obtain ⟨page, -, hl⟩ := lookup_overridden ho
    rw [hl]
    exact h
  · rw [(lookup_not_overridden ho).2]
    exact Lru.All.get h k

/-- A page that is found holds the bytes it should. -/
theorem lookup_byte (h : s.Coherent host) {slot : SlotID} {a : Nat} {page : Page}
    (hp : (s.lookup ⟨slot, a / 32⟩).1 = some page) : page.byte (a % 32) = s.byte host slot a := by
  by_cases ho : s.Overridden ⟨slot, a / 32⟩
  · obtain ⟨page', hr, hl⟩ := lookup_overridden ho
    rw [hl] at hp
    rw [Storage.byte, hr, ← Option.some.inj hp]
  · obtain ⟨hr, hl⟩ := lookup_not_overridden ho
    rw [hl] at hp
    rw [Storage.byte, hr, h.peek hp (a % 32) (Nat.mod_lt a (by omega)), Nat.div_add_mod' a 32]

theorem byte_congr {s' : Storage} (h : s'.pages = s.pages) : s'.byte host = s.byte host := by
  funext slot a
  rw [Storage.byte, Storage.read_page_override, h]
  rfl

theorem byte_host {slot : SlotID} {a : Nat} (h : ¬ s.Overridden ⟨slot, a / 32⟩) :
    s.byte host slot a = host slot a := by
  rw [Storage.byte, (lookup_not_overridden h).1]

end Lookup

/-! ## One page -/

section Fill
variable {host : Content} {slot : SlotID} {start_index end_index nhs nhe : Nat}

/-- What one turn of the loop can do: copy a known page, stage or cache an
unknown page the host was asked for, or skip the page. -/
theorem fillPage_cases (slot : SlotID) (start_index end_index nhs nhe : Nat) (f : Fill) (q : Nat) :
    let f' := fillPage slot start_index end_index nhs nhe f q
    (f.storage.Known ⟨slot, q⟩ ∧ f'.storage = (f.storage.lookup ⟨slot, q⟩).2 ∧
      f'.put_to_cache = f.put_to_cache) ∨
    (¬ f.storage.Known ⟨slot, q⟩ ∧ f'.buf = f.buf ∧
      (((nhs ≤ q * 32 ∧ q * 32 + 32 ≤ nhe) ∧
        ∃ page, page = Page.zero.copy 0 ((f.buf.drop (q * 32 - start_index)).take 32) ∧
          (f.put_to_cache.length < PUT_TO_CACHE_SIZE ∧ f'.storage = f.storage ∧
              f'.put_to_cache = f.put_to_cache ++ [(⟨slot, q⟩, page)] ∨
            PUT_TO_CACHE_SIZE ≤ f.put_to_cache.length ∧
              f'.storage = { f.storage with cache := f.storage.cache.insert ⟨slot, q⟩ page } ∧
              f'.put_to_cache = f.put_to_cache)) ∨
        ¬ (nhs ≤ q * 32 ∧ q * 32 + 32 ≤ nhe) ∧ f' = f)) := by
  intro f'
  by_cases hk : f.storage.Known ⟨slot, q⟩
  · obtain ⟨page, hp⟩ := lookup_some hk
    refine .inl ⟨hk, ?_⟩
    show (fillPage slot start_index end_index nhs nhe f q).storage = _ ∧
      (fillPage slot start_index end_index nhs nhe f q).put_to_cache = _
    rw [fillPage, hp]
    dsimp only
    split <;> exact ⟨rfl, rfl⟩
  · refine .inr ⟨hk, ?_⟩
    have hf : f' = fillPage slot start_index end_index nhs nhe f q := rfl
    rw [fillPage, lookup_none hk] at hf
    dsimp only at hf
    by_cases hin : nhs ≤ q * 32 ∧ q * 32 + 32 ≤ nhe
    · rw [if_pos hin] at hf
      by_cases hl : f.put_to_cache.length < PUT_TO_CACHE_SIZE
      · rw [if_pos hl] at hf
        rw [hf]
        exact ⟨rfl, .inl ⟨hin, _, rfl, .inl ⟨hl, rfl, rfl⟩⟩⟩
      · rw [if_neg hl] at hf
        rw [hf]
        exact ⟨rfl, .inl ⟨hin, _, rfl, .inr ⟨not_lt.mp hl, rfl, rfl⟩⟩⟩
    · rw [if_neg hin] at hf
      rw [hf]
      exact ⟨rfl, .inr ⟨hin, rfl⟩⟩

theorem fillPage_length (f : Fill) (q : Nat) :
    (fillPage slot start_index end_index nhs nhe f q).buf.length = f.buf.length := by
  unfold fillPage
  dsimp only
  split
  · split
    · exact length_copyInto _ _ _
    · rfl
  · split
    · split <;> rfl
    · rfl

/-- The buffer after a turn on a known page. -/
theorem fillPage_buf {f : Fill} {q : Nat} {page : Page}
    (h : (f.storage.lookup ⟨slot, q⟩).1 = some page)
    (hlt : max start_index (q * 32) < min end_index (q * 32 + 32)) :
    (fillPage slot start_index end_index nhs nhe f q).buf =
      copyInto f.buf (max start_index (q * 32) - start_index)
        ((page.raw.drop (max start_index (q * 32) - q * 32)).take
          (min end_index (q * 32 + 32) - max start_index (q * 32))) := by
  rw [fillPage, show f.storage.lookup ⟨slot, q⟩ = (some page, (f.storage.lookup ⟨slot, q⟩).2) from
    Prod.ext h rfl]
  dsimp only
  rw [if_pos hlt]

/-- A turn leaves the bytes of the other pages alone. -/
theorem fillPage_other {f : Fill} {q a : Nat} (ha : start_index ≤ a) (hq : a / 32 ≠ q) :
    (fillPage slot start_index end_index nhs nhe f q).buf[a - start_index]? =
      f.buf[a - start_index]? := by
  rcases fillPage_cases slot start_index end_index nhs nhe f q with ⟨hk, -⟩ | ⟨-, hb, -⟩
  · obtain ⟨page, hp⟩ := lookup_some hk
    by_cases hlt : max start_index (q * 32) < min end_index (q * 32 + 32)
    · rw [fillPage_buf (congrArg Prod.fst hp) hlt]
      apply copyInto_out
      rw [List.length_take, List.length_drop, page.size]
      omega
    · rw [fillPage, hp]
      dsimp only
      rw [if_neg hlt]
  · rw [hb]

/-- A turn on an unknown page leaves its bytes as they are, a turn on a known
page makes them right. -/
theorem fillPage_self {f : Fill} {a : Nat} (hc : f.storage.Coherent host)
    (hlen : f.buf.length = end_index - start_index) (h1 : start_index ≤ a) (h2 : a < end_index) :
    (fillPage slot start_index end_index nhs nhe f (a / 32)).buf[a - start_index]? =
      if f.storage.Known ⟨slot, a / 32⟩ then some (f.storage.byte host slot a)
      else f.buf[a - start_index]? := by
  split
  · next hk =>
    obtain ⟨page, hp⟩ := lookup_some hk
    have hpage := congrArg Prod.fst hp
    have hlt : max start_index (a / 32 * 32) < min end_index (a / 32 * 32 + 32) := by omega
    have hm : a % 32 < 32 := Nat.mod_lt a (by omega)
    have hd := Nat.div_add_mod' a 32
    rw [fillPage_buf hpage hlt, copyInto_in (by omega)
        (by rw [List.length_take, List.length_drop, page.size]; omega) (by omega),
      List.getElem?_take, if_pos (by omega), List.getElem?_drop,
      show max start_index (a / 32 * 32) - a / 32 * 32 +
        (a - start_index - (max start_index (a / 32 * 32) - start_index)) = a % 32 by omega,
      page.getElem?_raw hm, lookup_byte hc hpage]
  · next hk =>
    rcases fillPage_cases slot start_index end_index nhs nhe f (a / 32) with ⟨h, -⟩ | ⟨-, hb, -⟩
    · exact absurd h hk
    · rw [hb]

end Fill

end GenVM.Store
