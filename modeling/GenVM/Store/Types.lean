import GenVM.Lib.SortedMap
import GenVM.Lib.Slice
import GenVM.Lib.Lru
import GenVM.Calldata.Types

/-!
# Contract storage (`executor/src/rt/vm/storage.rs`)

A `Storage` overlays the host's content with the pages written so far and keeps
a bounded cache of the pages read from the host. `read` and `write` follow the
source step by step; a buffer is a byte list of fixed length, so
`copy_from_slice` is `copyInto`.

Every range the two functions get satisfies `index + len < 2^32` (`storage_read`
and `storage_write` check it), so no `as u32` of the source truncates and page
numbers are plain naturals. The host answers every read.
-/
namespace GenVM.Store
open GenVM.Lib
open GenVM.Calldata (Bytes)

/-- mirrors executor/src/host/message.rs:41 -/
structure SlotID where
  raw : Bytes
  size : raw.length = 32
  deriving DecidableEq

/-- mirrors executor/src/host/message.rs:55 -/
def SlotID.ZERO : SlotID := ⟨List.replicate 32 0, Calldata.length_zeros_32⟩

/-- mirrors executor/src/rt/vm/storage.rs:12 -/
structure PageID where
  slot : SlotID
  index : Nat
  deriving DecidableEq

/-- The derived order: slot bytes first, then the page number. -/
def pageLt (a b : PageID) : Prop :=
  a.slot.raw < b.slot.raw ∨ a.slot.raw = b.slot.raw ∧ a.index < b.index

instance : DecidableRel pageLt := fun a b => by unfold pageLt; infer_instance

theorem PageID.ext_raw {a b : PageID} (hs : a.slot.raw = b.slot.raw) (hi : a.index = b.index) :
    a = b := by
  obtain ⟨⟨r, h⟩, i⟩ := a
  obtain ⟨⟨r', h'⟩, i'⟩ := b
  cases hs
  cases hi
  rfl

theorem pageLt_order : SortedMap.StrictOrder pageLt where
  irrefl a h := by
    rcases h with h | ⟨-, h⟩
    · exact List.lt_irrefl _ h
    · exact Nat.lt_irrefl _ h
  trans a b c h1 h2 := by
    unfold pageLt at *
    rcases h1 with h1 | ⟨e1, h1⟩
    · rcases h2 with h2 | ⟨e2, -⟩
      · exact .inl (List.lt_trans h1 h2)
      · exact .inl (e2 ▸ h1)
    · rcases h2 with h2 | ⟨e2, h2⟩
      · exact .inl (e1 ▸ h2)
      · exact .inr ⟨e1.trans e2, Nat.lt_trans h1 h2⟩
  tri a b h1 h2 := by
    unfold pageLt at h1 h2
    have hs : a.slot.raw = b.slot.raw :=
      List.le_antisymm (List.not_lt.mp fun h => h2 (.inl h)) (List.not_lt.mp fun h => h1 (.inl h))
    have hi : a.index = b.index :=
      le_antisymm (not_lt.mp fun h => h2 (.inr ⟨hs.symm, h⟩))
        (not_lt.mp fun h => h1 (.inr ⟨hs, h⟩))
    exact PageID.ext_raw hs hi

/-! ## Pages -/

/-- `[u8; 32]` -/
structure Page where
  raw : Bytes
  size : raw.length = 32

def Page.zero : Page := ⟨List.replicate 32 0, rfl⟩

/-- `page[off..off + b.len()].copy_from_slice(b)` -/
def Page.copy (p : Page) (off : Nat) (b : Bytes) : Page :=
  ⟨copyInto p.raw off b, (length_copyInto _ _ _).trans p.size⟩

def Page.byte (p : Page) (i : Nat) : UInt8 := p.raw.getD i 0

/-- What the host holds, byte by byte. -/
abbrev Content := SlotID → Nat → UInt8

/-- mirrors executor/src/rt/vm/storage.rs:49-51 -/
def storage_read (host : Content) (slot : SlotID) (index len : Nat) : Bytes :=
  (List.range len).map fun i => host slot (index + i)

/-! ## The state -/

def STORAGE_CACHE_SIZE : Nat := 128

/-- mirrors executor/src/rt/vm/storage.rs:117-123 -/
structure Storage where
  pages : List (PageID × Page)
  sorted : SortedMap.Sorted pageLt pages
  cache : Lru PageID Page STORAGE_CACHE_SIZE

/-- mirrors executor/src/rt/vm/storage.rs:126-133 -/
def Storage.new : Storage := ⟨[], SortedMap.sorted_nil, Lru.new _ _ _⟩

/-- mirrors executor/src/rt/vm/storage.rs:97-103 -/
def Storage.read_page_override (s : Storage) (key : PageID) : Option Page := s.pages.lookup key

def Storage.putPage (s : Storage) (key : PageID) (value : Page) : Storage :=
  { s with
    pages := SortedMap.insert pageLt key value s.pages
    sorted := SortedMap.sorted_insert pageLt_order s.sorted }

/-! ## Reading -/

/-- `pages.get(id)`, or else `cache.get(id)`, which refreshes a hit.
mirrors executor/src/rt/vm/storage.rs:190-192, 239-242 -/
def Storage.lookup (s : Storage) (id : PageID) : Option Page × Storage :=
  match s.read_page_override id with
  | some page => (some page, s)
  | none => ((s.cache.get id).1, { s with cache := (s.cache.get id).2 })

/-- Both cutting loops: go on while the page is known, `bound` is the new end
of what the host still has to be asked for.
mirrors executor/src/rt/vm/storage.rs:199-206, 209-216 -/
def cutKnown (slot : SlotID) (bound : Nat → Nat) : List Nat → Nat → Storage → Nat × Storage
  | [], acc, s => (acc, s)
  | page_idx :: rest, acc, s =>
    match s.lookup ⟨slot, page_idx⟩ with
    | (some _, s') => cutKnown slot bound rest (bound page_idx) s'
    | (none, s') => (acc, s')

/-- The state of the loop that fills the buffer. -/
structure Fill where
  storage : Storage
  buf : Bytes
  put_to_cache : List (PageID × Page)

def PUT_TO_CACHE_SIZE : Nat := STORAGE_CACHE_SIZE / 16

/-- mirrors executor/src/rt/vm/storage.rs:234-271 -/
def fillPage (slot : SlotID) (start_index end_index need_host_read_start need_host_read_end : Nat)
    (f : Fill) (page_idx : Nat) : Fill :=
  let page_id : PageID := ⟨slot, page_idx⟩
  let page_start_byte := page_idx * 32
  let page_end_byte := page_start_byte + 32
  match f.storage.lookup page_id with
  | (some page_data, s) =>
    let overlap_start := max start_index page_start_byte
    let overlap_end := min end_index page_end_byte
    if overlap_start < overlap_end then
      let src_offset := overlap_start - page_start_byte
      let dst_offset := overlap_start - start_index
      let copy_len := overlap_end - overlap_start
      { f with
        storage := s
        buf := copyInto f.buf dst_offset ((page_data.raw.drop src_offset).take copy_len) }
    else { f with storage := s }
  | (none, s) =>
    if need_host_read_start ≤ page_start_byte ∧ page_end_byte ≤ need_host_read_end then
      let src_offset := page_start_byte - start_index
      let page_data := Page.zero.copy 0 ((f.buf.drop src_offset).take 32)
      if f.put_to_cache.length < PUT_TO_CACHE_SIZE then
        { f with storage := s, put_to_cache := f.put_to_cache ++ [(page_id, page_data)] }
      else { f with storage := { s with cache := s.cache.insert page_id page_data } }
    else { f with storage := s }

/-- mirrors executor/src/rt/vm/storage.rs:273-277 -/
def putStaged (s : Storage) (items : List (PageID × Page)) : Storage :=
  { s with cache := items.foldl (fun cache item => cache.insert item.1 item.2) s.cache }

/-- `start_page..=end_page` for a nonempty range. -/
def pageRange (start_index end_index : Nat) : List Nat :=
  List.range' (start_index / 32) ((end_index - 1) / 32 + 1 - start_index / 32)

/-- mirrors executor/src/rt/vm/storage.rs:172-280 -/
def read (host : Content) (s : Storage) (slot : SlotID) (index : Nat) (buf : Bytes) :
    Bytes × Storage :=
  if buf = [] then (buf, s)
  else
    let start_index := index
    let end_index := start_index + buf.length
    let pages := pageRange start_index end_index
    let (need_host_read_start, s) := cutKnown slot (fun p => (p + 1) * 32) pages start_index s
    let (need_host_read_end, s) := cutKnown slot (fun p => p * 32) pages.reverse end_index s
    let buf :=
      if need_host_read_start < need_host_read_end then
        copyInto buf (need_host_read_start - start_index)
          (storage_read host slot need_host_read_start (need_host_read_end - need_host_read_start))
      else buf
    let f := pages.foldl
      (fillPage slot start_index end_index need_host_read_start need_host_read_end) ⟨s, buf, []⟩
    (f.buf, putStaged f.storage f.put_to_cache)

/-! ## Writing -/

section
variable {ε L : Type}

/-- A step of `write`: it works on the storage and on the state of the page
limiter, which a failure leaves as they are at that point. -/
abbrev WriteM (ε L : Type) := ExceptT ε (StateM (Storage × L))

/-- A page that is not overridden yet is charged to the limiter first.
mirrors executor/src/rt/vm/storage.rs:105-112 -/
def write_page (consume : L → Except ε L) (key : PageID) (value : Page) : WriteM ε L Unit :=
  fun (s, l) =>
    if (s.read_page_override key).isSome then (.ok (), (s.putPage key value, l))
    else
      match consume l with
      | .ok l' => (.ok (), (s.putPage key value, l'))
      | .error e => (.error e, (s, l))

/-- The page as it is now: the override, or else the host's.
mirrors executor/src/rt/vm/storage.rs:296-305, 354-358, 371-375 -/
def existingPage (host : Content) (key : PageID) : WriteM ε L Page :=
  fun (s, l) =>
    let page := match s.read_page_override key with
      | some existing_page => Page.zero.copy 0 existing_page.raw
      | none => Page.zero.copy 0 (storage_read host key.slot (key.index * 32) 32)
    (.ok page, (s, l))

/-- mirrors executor/src/rt/vm/storage.rs:282-313 -/
def write_single_page (host : Content) (consume : L → Except ε L) (page_id : PageID)
    (offset_in_page : Nat) (buf : Bytes) : WriteM ε L Unit :=
  if offset_in_page = 0 ∧ buf.length = 32 then
    write_page consume page_id (Page.zero.copy 0 buf)
  else do
    let page_data ← existingPage host page_id
    write_page consume page_id (page_data.copy offset_in_page buf)

/-- The pages the range covers, in order.
mirrors executor/src/rt/vm/storage.rs:386-402 -/
def writeFull (consume : L → Except ε L) (slot : SlotID) (start_index end_index : Nat)
    (buf : Bytes) : List Nat → WriteM ε L Unit
  | [] => pure ()
  | page_idx :: rest =>
    let page_start := page_idx * 32
    let page_end := page_start + 32
    if (page_idx = start_index / 32 ∧ page_start < start_index) ∨
        (page_idx = (end_index - 1) / 32 ∧ end_index < page_end) then
      writeFull consume slot start_index end_index buf rest
    else do
      let src_offset := page_start - start_index
      write_page consume ⟨slot, page_idx⟩ (Page.zero.copy 0 ((buf.drop src_offset).take 32))
      writeFull consume slot start_index end_index buf rest

/-- The first page of a range that starts inside it.
mirrors executor/src/rt/vm/storage.rs:350-365 -/
def writeFirst (host : Content) (consume : L → Except ε L) (slot : SlotID) (start_index : Nat)
    (buf : Bytes) : WriteM ε L Unit :=
  let start_page := start_index / 32
  if start_page * 32 < start_index then do
    let page_data ← existingPage host ⟨slot, start_page⟩
    let offset_in_page := start_index % 32
    let copy_len := 32 - offset_in_page
    write_page consume ⟨slot, start_page⟩ (page_data.copy offset_in_page (buf.take copy_len))
  else pure ()

/-- The last page of a range that ends inside it.
mirrors executor/src/rt/vm/storage.rs:367-382 -/
def writeLast (host : Content) (consume : L → Except ε L) (slot : SlotID) (end_index : Nat)
    (buf : Bytes) : WriteM ε L Unit :=
  let end_page := (end_index - 1) / 32
  if end_index < end_page * 32 + 32 then do
    let page_data ← existingPage host ⟨slot, end_page⟩
    let src_offset := buf.length - end_index % 32
    write_page consume ⟨slot, end_page⟩ (page_data.copy 0 (buf.drop src_offset))
  else pure ()

/-- mirrors executor/src/rt/vm/storage.rs:315-405 -/
def write (host : Content) (consume : L → Except ε L) (slot : SlotID) (index : Nat) (buf : Bytes) :
    WriteM ε L Unit :=
  if buf = [] then pure ()
  else
    let start_index := index
    let end_index := start_index + buf.length
    let start_page := start_index / 32
    let end_page := (end_index - 1) / 32
    if start_page = end_page then
      write_single_page host consume ⟨slot, start_page⟩ (start_index % 32) buf
    else do
      writeFirst host consume slot start_index buf
      writeLast host consume slot end_index buf
      writeFull consume slot start_index end_index buf (pageRange start_index end_index)

end

end GenVM.Store
