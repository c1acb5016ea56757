import GenVM.Store.Write

/-!
# A write that fails (`executor/src/rt/vm/storage.rs`)

Here the host may refuse a read, as may the limiter a page. `write` is then a
sequence of writes within one page, in the order first partial page, last
partial page, whole pages (`write_pieces`); each of them does all of its work or
none, and what was written before the one that fails stays.

Results: `write_answered`, `write_stops`, `order_perm`.
-/
namespace GenVM.Store.Fallible
open GenVM.Lib GenVM.Lib.Except
open GenVM.Calldata (Bytes)

variable {ε L : Type}

/-- `storage_read` of the host for slot, index and length.
mirrors executor/src/rt/vm/storage.rs:43-52 -/
abbrev Host (ε : Type) := SlotID → Nat → Nat → Except ε Bytes

/-- mirrors executor/src/rt/vm/storage.rs:296-305, 354-358, 371-375 -/
def existingPage (host : Host ε) (key : PageID) : WriteM ε L Page :=
  fun (s, l) =>
    match s.read_page_override key with
    | some existing_page => (.ok (Page.zero.copy 0 existing_page.raw), (s, l))
    | none => ((host key.slot (key.index * 32) 32).map (Page.zero.copy 0), (s, l))

/-- mirrors executor/src/rt/vm/storage.rs:282-313 -/
def write_single_page (host : Host ε) (consume : L → Except ε L) (page_id : PageID)
    (offset_in_page : Nat) (buf : Bytes) : WriteM ε L Unit :=
  if offset_in_page = 0 ∧ buf.length = 32 then
    write_page consume page_id (Page.zero.copy 0 buf)
  else do
    let page_data ← existingPage host page_id
    write_page consume page_id (page_data.copy offset_in_page buf)

/-- mirrors executor/src/rt/vm/storage.rs:350-365 -/
def writeFirst (host : Host ε) (consume : L → Except ε L) (slot : SlotID) (start_index : Nat)
    (buf : Bytes) : WriteM ε L Unit :=
  let start_page := start_index / 32
  if start_page * 32 < start_index then do
    let page_data ← existingPage host ⟨slot, start_page⟩
    let offset_in_page := start_index % 32
    let copy_len := 32 - offset_in_page
    write_page consume ⟨slot, start_page⟩ (page_data.copy offset_in_page (buf.take copy_len))
  else pure ()

/-- mirrors executor/src/rt/vm/storage.rs:367-382 -/
def writeLast (host : Host ε) (consume : L → Except ε L) (slot : SlotID) (end_index : Nat)
    (buf : Bytes) : WriteM ε L Unit :=
  let end_page := (end_index - 1) / 32
  if end_index < end_page * 32 + 32 then do
    let page_data ← existingPage host ⟨slot, end_page⟩
    let src_offset := buf.length - end_index % 32
    write_page consume ⟨slot, end_page⟩ (page_data.copy 0 (buf.drop src_offset))
  else pure ()

/-- mirrors executor/src/rt/vm/storage.rs:315-405; the whole pages need no host. -/
def write (host : Host ε) (consume : L → Except ε L) (slot : SlotID) (index : Nat) (buf : Bytes) :
    WriteM ε L Unit :=
  if buf = [] then pure ()
  else
    let start_index := index
    let end_index := start_index + buf.length
    let start_page := start_index / 32
    let end_page := (end_index - 1) / 32
    if start_page = end_page then
      write_single_page host consume ⟨slot, start_page⟩ (start_index % 32) buf
    else do
      writeFirst host consume slot start_index buf
      writeLast host consume slot end_index buf
      writeFull consume slot start_index end_index buf (pageRange start_index end_index)

/-! ## A host that answers -/

/-- The host that answers every read from a content. -/
def answering (content : Content) : Host ε := fun slot index len =>
  .ok (storage_read content slot index len)

theorem existingPage_answered (content : Content) (key : PageID) :
    (existingPage (answering content) key : WriteM ε L Page) = Store.existingPage content key := by
  funext ⟨s, l⟩
  unfold existingPage Store.existingPage
  dsimp only
  cases s.read_page_override key with
  | some page => rfl
  | none => rfl

/-- With such a host this is the `write` of `GenVM.Store`. -/
theorem write_answered (content : Content) (consume : L → Except ε L) (slot : SlotID)
    (index : Nat) (buf : Bytes) :
    write (answering content) consume slot index buf =
      Store.write content consume slot index buf := by
  unfold write Store.write write_single_page Store.write_single_page writeFirst Store.writeFirst
    writeLast Store.writeLast
  simp only [existingPage_answered]

/-! ## Pieces -/

/-- The part of the buffer that goes into one page. -/
structure Piece where
  page : Nat
  off : Nat
  data : Bytes

variable (host : Host ε) (consume : L → Except ε L) (slot : SlotID) (index : Nat) (buf : Bytes)

/-- The piece of a page of the range. -/
def piece (q : Nat) : Piece :=
  if q * 32 < index then ⟨q, index - q * 32, buf.take (q * 32 + 32 - index)⟩
  else ⟨q, 0, (buf.drop (q * 32 - index)).take 32⟩

instance (len q : Nat) : Decidable (Partial index len q) := by
  unfold Partial
  infer_instance

/-- The pages of the range in the order they are written. -/
def order (len : Nat) : List Nat :=
  if len = 0 then []
  else
    let start_page := index / 32
    let end_page := (index + len - 1) / 32
    if start_page = end_page then [start_page]
    else
      (if start_page * 32 < index then [start_page] else []) ++
        ((if index + len < end_page * 32 + 32 then [end_page] else []) ++
          (pageRange index (index + len)).filter fun q => ¬ Partial index len q)

def putPiece (p : Piece) : WriteM ε L Unit :=
  write_single_page host consume ⟨slot, p.page⟩ p.off p.data

def putAll : List Nat → WriteM ε L Unit
  | [] => pure ()
  | q :: qs => do
    putPiece host consume slot (piece index buf q)
    putAll qs

theorem putAll_append (qs ps : List Nat) :
    putAll host consume slot index buf (qs ++ ps) =
      (putAll host consume slot index buf qs >>= fun _ =>
        putAll host consume slot index buf ps) := by
  induction qs with
  | nil => rfl
  | cons q qs ih =>
    rw [List.cons_append, putAll, ih, putAll, bind_assoc]

theorem putAll_singleton (q : Nat) :
    putAll host consume slot index buf [q] = putPiece host consume slot (piece index buf q) := by
  unfold putAll putAll
  exact bind_pure _

theorem piece_first {q : Nat} (h : q * 32 < index) :
    piece index buf q = ⟨q, index - q * 32, buf.take (q * 32 + 32 - index)⟩ := if_pos h

theorem piece_rest {q : Nat} (h : index ≤ q * 32) :
    piece index buf q = ⟨q, 0, (buf.drop (q * 32 - index)).take 32⟩ := if_neg (Nat.not_lt.mpr h)

/-- A whole page needs nothing of the old one. -/
theorem putPiece_whole {q : Nat} (h1 : index ≤ q * 32) (h2 : q * 32 + 32 ≤ index + buf.length) :
    putPiece host consume slot (piece index buf q) =
      write_page consume ⟨slot, q⟩
        (Page.zero.copy 0 ((buf.drop (q * 32 - index)).take 32)) := by
  have hlen : ((buf.drop (q * 32 - index)).take 32).length = 32 := by
    rw [List.length_take, List.length_drop]
    omega
  rw [putPiece, piece_rest index buf h1]
  exact if_pos ⟨rfl, hlen⟩

theorem writeFull_putAll (qs : List Nat)
    (hqs : ∀ q ∈ qs, index / 32 ≤ q ∧ q ≤ (index + buf.length - 1) / 32) :
    writeFull consume slot index (index + buf.length) buf qs =
      putAll host consume slot index buf (qs.filter fun q => ¬ Partial index buf.length q) := by
  induction qs with
  | nil => rfl
  | cons q qs ih =>
    rw [List.forall_mem_cons] at hqs
    rw [writeFull]
    dsimp only
    by_cases hp : Partial index buf.length q
    · have hskip : ¬ decide (¬ Partial index buf.length q) = true := fun h => of_decide_eq_true h hp
      rw [List.filter_cons_of_neg (p := fun q => decide (¬ Partial index buf.length q)) hskip,
        ← ih hqs.2]
      exact if_pos hp
    · have hkeep : decide (¬ Partial index buf.length q) = true := decide_eq_true hp
      unfold Partial at hp
      rw [List.filter_cons_of_pos (p := fun q => decide (¬ Partial index buf.length q)) hkeep,
        putAll, ← ih hqs.2, if_neg hp,
        putPiece_whole host consume slot index buf (by omega) (by omega)]

theorem mem_range {q : Nat} (hpos : buf ≠ []) (hq : q ∈ pageRange index (index + buf.length)) :
    index / 32 ≤ q ∧ q ≤ (index + buf.length - 1) / 32 := by
  have := List.length_pos_of_ne_nil hpos
  rw [pageRange, List.mem_range'_1] at hq
  omega

/-- A write is a sequence of writes within one page. -/
theorem write_pieces :
    write host consume slot index buf =
      putAll host consume slot index buf (order index buf.length) := by
  unfold write order
  by_cases hb : buf = []
  · rw [if_pos hb, if_pos (by rw [hb]; rfl)]
    rfl
  · have hpos := List.length_pos_of_ne_nil hb
    rw [if_neg hb, if_neg (Nat.ne_of_gt hpos)]
    dsimp only
    by_cases hq : index / 32 = (index + buf.length - 1) / 32
    · rw [if_pos hq, if_pos hq, putAll_singleton]
      by_cases hlt : index / 32 * 32 < index
      · rw [putPiece, piece_first index buf hlt, List.take_of_length_le (by omega),
          show index - index / 32 * 32 = index % 32 by omega]
      · rw [putPiece, piece_rest index buf (Nat.not_lt.mp hlt),
          show index / 32 * 32 - index = 0 by omega, List.drop_zero,
          List.take_of_length_le (by omega), show index % 32 = 0 by omega]
    · rw [if_neg hq, if_neg hq, putAll_append, putAll_append,
        writeFull_putAll host consume slot index buf _ fun q => mem_range index buf hb]
      congr 1
      · -- the first page
        unfold writeFirst
        dsimp only
        by_cases hlt : index / 32 * 32 < index
        · have hpart : ¬ (index % 32 = 0 ∧ (buf.take (32 - index % 32)).length = 32) := by omega
          rw [if_pos hlt, if_pos hlt, putAll_singleton, putPiece, piece_first index buf hlt,
            show index - index / 32 * 32 = index % 32 by omega,
            show index / 32 * 32 + 32 - index = 32 - index % 32 by omega]
          exact (if_neg hpart).symm
        · rw [if_neg hlt, if_neg hlt]
          rfl
      · funext _
        congr 1
        -- the last page
        unfold writeLast
        dsimp only
        by_cases hlt : index + buf.length < (index + buf.length - 1) / 32 * 32 + 32
        · have hdrop : buf.length - (index + buf.length) % 32 =
              (index + buf.length - 1) / 32 * 32 - index := by omega
          have hlen : (buf.drop ((index + buf.length - 1) / 32 * 32 - index)).length < 32 := by
            rw [List.length_drop]
            omega
          have hpart : ¬ (0 = 0 ∧
              (buf.drop ((index + buf.length - 1) / 32 * 32 - index)).length = 32) := by omega
          rw [if_pos hlt, if_pos hlt, putAll_singleton, putPiece,
            piece_rest index buf (by omega), List.take_of_length_le (by omega), hdrop]
          exact (if_neg hpart).symm
        · rw [if_neg hlt, if_neg hlt]
          rfl

/-! ## What is done and what is not -/

/-- The byte of a page before the write, where it can be had. -/
def pageByte (s : Storage) (q i : Nat) : Option UInt8 :=
  match s.read_page_override ⟨slot, q⟩ with
  | some page => some (page.byte i)
  | none => (host slot (q * 32) 32).toOption.map fun b => (Page.zero.copy 0 b).byte i

/-- What page `q` must hold after the write: the bytes of the buffer in the range, its
own outside. -/
def New (s : Storage) (q : Nat) (page : Page) : Prop :=
  ∀ i < 32, (index ≤ q * 32 + i ∧ q * 32 + i < index + buf.length →
      buf[q * 32 + i - index]? = some (page.byte i)) ∧
    (q * 32 + i < index ∨ index + buf.length ≤ q * 32 + i →
      pageByte host slot s q i = some (page.byte i))

/-- `n` pages are charged one by one. -/
def charge : Nat → L → Except ε L
  | 0, l => .ok l
  | n + 1, l => consume l >>= charge n

/-- `(s', l')` is `(s, l)` with the pages `qs` of the range written and nothing else;
each of them that was not overridden is charged once. -/
structure Stored (s : Storage) (l : L) (qs : List Nat) (s' : Storage) (l' : L) : Prop where
  cache : s'.cache = s.cache
  page : ∀ q ∈ qs, ∃ page, s'.read_page_override ⟨slot, q⟩ = some page ∧
    New host slot index buf s q page
  other : ∀ k : PageID, ¬ (k.slot = slot ∧ k.index ∈ qs) →
    s'.read_page_override k = s.read_page_override k
  charged : charge consume
    (qs.countP fun q => (s.read_page_override ⟨slot, q⟩).isNone) l = .ok l'

/-- Page `q` cannot be written: the host refuses the rest of it, or the limiter
refuses it. -/
def Refused (s : Storage) (l : L) (q : Nat) (e : ε) : Prop :=
  s.read_page_override ⟨slot, q⟩ = none ∧ (host slot (q * 32) 32 = .error e ∨ consume l = .error e)

variable {host consume slot index buf} {s s' : Storage} {l l' : L}

variable (consume) in
theorem write_page_cases (key : PageID) (value : Page) (s : Storage) (l : L) :
    (∃ l', write_page consume key value (s, l) = (.ok (), (s.putPage key value, l')) ∧
      charge consume (if (s.read_page_override key).isNone then 1 else 0) l = .ok l') ∨
    ∃ e, write_page consume key value (s, l) = (.error e, (s, l)) ∧
      s.read_page_override key = none ∧ consume l = .error e := by
  unfold write_page
  dsimp only
  cases s.read_page_override key with
  | some page => exact Or.inl ⟨l, rfl, rfl⟩
  | none =>
    rcases hl : consume l with e | l1
    · exact Or.inr ⟨e, rfl, rfl, rfl⟩
    · refine Or.inl ⟨l1, rfl, ?_⟩
      show consume l >>= charge consume 0 = .ok l1
      rw [hl]
      rfl

variable (host slot) in
/-- The page as it is now, or the refusal of the host. -/
theorem existingPage_cases (s : Storage) (l : L) (q : Nat) :
    (∃ page, existingPage host ⟨slot, q⟩ (s, l) = (.ok page, (s, l)) ∧
      ∀ i < 32, pageByte host slot s q i = some (page.byte i)) ∨
    ∃ e, existingPage host ⟨slot, q⟩ (s, l) = (.error e, (s, l)) ∧
      s.read_page_override ⟨slot, q⟩ = none ∧ host slot (q * 32) 32 = .error e := by
  unfold existingPage pageByte
  dsimp only
  cases s.read_page_override ⟨slot, q⟩ with
  | some page =>
    refine Or.inl ⟨_, rfl, fun i hi => ?_⟩
    exact congrArg some (Page.byte_copy_in Page.zero (Nat.zero_le i) hi (page.getElem?_raw hi)).symm
  | none =>
    rcases host slot (q * 32) 32 with e | b
    · exact Or.inr ⟨e, rfl, rfl, rfl⟩
    · exact Or.inl ⟨_, rfl, fun i _ => rfl⟩

theorem run_bind_of_ok {α β σ : Type} {x : ExceptT ε (StateM σ) α} {f : α → ExceptT ε (StateM σ) β}
    {a : α} {m m' : σ} (h : x m = (.ok a, m')) : (x >>= f) m = f a m' := by
  simp only [bind, ExceptT.bind, ExceptT.mk, StateT.bind, h, ExceptT.bindCont]

theorem run_bind_of_error {α β σ : Type} {x : ExceptT ε (StateM σ) α}
    {f : α → ExceptT ε (StateM σ) β} {e : ε} {m m' : σ} (h : x m = (.error e, m')) :
    (x >>= f) m = (.error e, m') := by
  simp only [bind, ExceptT.bind, ExceptT.mk, StateT.bind, h, ExceptT.bindCont]
  rfl

variable (index buf) in
theorem piece_data (q : Nat) {i : Nat} (hi : i < 32) :
    (index ≤ q * 32 + i ∧ q * 32 + i < index + buf.length →
      (piece index buf q).off ≤ i ∧ i < (piece index buf q).off + (piece index buf q).data.length ∧
        (piece index buf q).data[i - (piece index buf q).off]? = buf[q * 32 + i - index]?) ∧
    (q * 32 + i < index ∨ index + buf.length ≤ q * 32 + i →
      i < (piece index buf q).off ∨
        (piece index buf q).off + (piece index buf q).data.length ≤ i) := by
  rcases Nat.lt_or_ge (q * 32) index with hq | hq
  · rw [piece_first index buf hq]
    dsimp only
    rw [List.length_take]
    refine ⟨fun hin => ⟨by omega, by omega, ?_⟩, fun hout => by omega⟩
    rw [List.getElem?_take, if_pos (by omega)]
    congr 1
    omega
  · rw [piece_rest index buf hq]
    dsimp only
    rw [List.length_take, List.length_drop]
    refine ⟨fun hin => ⟨by omega, by omega, ?_⟩, fun hout => by omega⟩
    rw [List.getElem?_take, if_pos (by omega), List.getElem?_drop]
    congr 1
    omega

theorem new_copy {q : Nat} {page : Page}
    (hpage : ∀ i < 32, q * 32 + i < index ∨ index + buf.length ≤ q * 32 + i →
      pageByte host slot s q i = some (page.byte i)) :
    New host slot index buf s q (page.copy (piece index buf q).off (piece index buf q).data) := by
  intro i hi
  obtain ⟨hin, hout⟩ := piece_data index buf q hi
  constructor
  · intro h
    obtain ⟨h1, h2, h3⟩ := hin h
    rw [← h3, List.getElem?_eq_getElem (by omega)]
    rw [Page.byte_copy_in page h1 hi (List.getElem?_eq_getElem (by omega))]
  · intro h
    rw [hpage i hi h, Page.byte_copy_out page (hout h)]

variable (host consume slot index buf) in
/-- One page is all or nothing. -/
theorem putPiece_cases (s : Storage) (l : L) (q : Nat) :
    (∃ page l', putPiece host consume slot (piece index buf q) (s, l) =
        (.ok (), (s.putPage ⟨slot, q⟩ page, l')) ∧ New host slot index buf s q page ∧
      charge consume (if (s.read_page_override ⟨slot, q⟩).isNone then 1 else 0) l = .ok l') ∨
    ∃ e, putPiece host consume slot (piece index buf q) (s, l) = (.error e, (s, l)) ∧
      Refused host consume slot s l q e := by
  have hpage : (piece index buf q).page = q := by
    unfold piece
    split <;> rfl
  unfold putPiece write_single_page
  rw [hpage]
  split
  · next hfull =>
    -- no byte of the page is outside the range
    have hnew : New host slot index buf s q
        (Page.zero.copy (piece index buf q).off (piece index buf q).data) := by
      refine new_copy fun i hi hout => ?_
      have := (piece_data index buf q hi).2 hout
      omega
    rw [hfull.1] at hnew
    rcases write_page_cases consume ⟨slot, q⟩
      (Page.zero.copy 0 (piece index buf q).data) s l with ⟨l', hw, hc⟩ | ⟨e, hw, hn, hc⟩
    · exact Or.inl ⟨_, l', hw, hnew, hc⟩
    · exact Or.inr ⟨e, hw, hn, Or.inr hc⟩
  · rcases existingPage_cases host slot s l q with ⟨old, ho, hb⟩ | ⟨e, ho, hn, hc⟩
    · rw [run_bind_of_ok ho]
      rcases write_page_cases consume ⟨slot, q⟩
        (old.copy (piece index buf q).off (piece index buf q).data) s l with
        ⟨l', hw, hc⟩ | ⟨e, hw, hn, hc⟩
      · exact Or.inl ⟨_, l', hw, new_copy fun i hi _ => hb i hi, hc⟩
      · exact Or.inr ⟨e, hw, hn, Or.inr hc⟩
    · rw [run_bind_of_error ho]
      exact Or.inr ⟨e, rfl, hn, Or.inl hc⟩

/-! ## The whole write -/

theorem charge_add {a b : Nat} {l1 l2 : L} : ∀ {l : L}, charge consume a l = .ok l1 →
    charge consume b l1 = .ok l2 → charge consume (a + b) l = .ok l2 := by
  induction a with
  | zero =>
    intro l ha hb
    rw [Nat.zero_add]
    exact Except.ok.inj ha ▸ hb
  | succ a ih =>
    intro l ha hb
    rw [Nat.succ_add]
    obtain ⟨l', h1, h2⟩ := bind_ok.mp ha
    exact bind_ok.mpr ⟨l', h1, ih h2 hb⟩

theorem Stored.nil (s : Storage) (l : L) : Stored host consume slot index buf s l [] s l :=
  ⟨rfl, fun _ h => absurd h (List.not_mem_nil), fun _ _ => rfl, rfl⟩

theorem override_put_ne {q p : Nat} {page : Page} (hne : p ≠ q) :
    (s.putPage ⟨slot, q⟩ page).read_page_override ⟨slot, p⟩ = s.read_page_override ⟨slot, p⟩ := by
  rw [override_putPage, if_neg fun h => hne (congrArg PageID.index h)]

/-- One page more, and the rest from there. -/
theorem Stored.cons {q : Nat} {qs : List Nat} {page : Page} {l1 : L}
    (hnew : New host slot index buf s q page)
    (hc : charge consume (if (s.read_page_override ⟨slot, q⟩).isNone then 1 else 0) l = .ok l1)
    (hq : q ∉ qs) (h : Stored host consume slot index buf (s.putPage ⟨slot, q⟩ page) l1 qs s' l') :
    Stored host consume slot index buf s l (q :: qs) s' l' := by
  have hne : ∀ p ∈ qs, p ≠ q := fun p hp he => hq (he ▸ hp)
  refine ⟨h.cache, ?_, ?_, ?_⟩
  · intro p hp
    rcases List.mem_cons.mp hp with rfl | hp
    · refine ⟨page, ?_, hnew⟩
      rw [h.other ⟨slot, p⟩ fun hk => hq hk.2, override_putPage, if_pos rfl]
    · obtain ⟨page', hpage', hbytes⟩ := h.page p hp
      refine ⟨page', hpage', fun i hi => ⟨(hbytes i hi).1, fun hout => ?_⟩⟩
      rw [← (hbytes i hi).2 hout, pageByte, pageByte, override_put_ne (hne p hp)]
  · intro k hk
    rw [h.other k fun h' => hk ⟨h'.1, List.mem_cons_of_mem q h'.2⟩, override_putPage, if_neg]
    intro he
    exact hk (he ▸ ⟨rfl, List.mem_cons_self ..⟩)
  · have hcount : (qs.countP fun p =>
          ((s.putPage ⟨slot, q⟩ page).read_page_override ⟨slot, p⟩).isNone) =
        qs.countP fun p => (s.read_page_override ⟨slot, p⟩).isNone := by
      refine List.countP_congr fun p hp => ?_
      rw [override_put_ne (hne p hp)]
    have hcharged := h.charged
    rw [hcount] at hcharged
    rw [List.countP_cons, Nat.add_comm]
    exact charge_add hc hcharged

/-- The pages are written one by one up to the first that is refused. -/
theorem putAll_stops : ∀ {qs : List Nat} (_ : qs.Nodup) (s : Storage) (l : L),
    ∃ done rest s' l', qs = done ++ rest ∧ Stored host consume slot index buf s l done s' l' ∧
      (done = [] → s' = s ∧ l' = l) ∧
      ((putAll host consume slot index buf qs (s, l) = (.ok (), (s', l')) ∧ rest = []) ∨
        ∃ e q rest', putAll host consume slot index buf qs (s, l) = (.error e, (s', l')) ∧
          rest = q :: rest' ∧ Refused host consume slot s' l' q e)
  | [], _, s, l => ⟨[], [], s, l, rfl, Stored.nil s l, fun _ => ⟨rfl, rfl⟩, Or.inl ⟨rfl, rfl⟩⟩
  | q :: qs, hnd, s, l => by
    obtain ⟨hq, hnd⟩ := List.nodup_cons.mp hnd
    rw [putAll]
    rcases putPiece_cases host consume slot index buf s l q with ⟨page, l1, hput, hnew, hc⟩ | ⟨e, hput, href⟩
    · obtain ⟨done, rest, s', l', hsplit, hst, -, hrun⟩ :=
        putAll_stops hnd (s.putPage ⟨slot, q⟩ page) l1
      rw [run_bind_of_ok hput]
      refine ⟨q :: done, rest, s', l', by rw [hsplit, List.cons_append], ?_,
        (fun h => absurd h (List.cons_ne_nil q done)), hrun⟩
      exact hst.cons hnew hc fun h => hq (hsplit ▸ List.mem_append_left rest h)
    · rw [run_bind_of_error hput]
      exact ⟨[], q :: qs, s, l, rfl, Stored.nil s l, fun _ => ⟨rfl, rfl⟩,
        Or.inr ⟨e, q, qs, rfl, rfl, href⟩⟩

/-- The order is an order of the pages of the range. -/
theorem order_perm (index len : Nat) (hpos : 0 < len) :
    (order index len).Perm (pageRange index (index + len)) := by
  unfold order
  rw [if_neg (Nat.ne_of_gt hpos)]
  dsimp only
  by_cases hq : index / 32 = (index + len - 1) / 32
  · rw [if_pos hq, pageRange, ← hq, show index / 32 + 1 - index / 32 = 1 by omega]
    rfl
  · rw [if_neg hq]
    have hnd : (pageRange index (index + len)).Nodup := List.nodup_range'
    have hmem : ∀ q, q ∈ pageRange index (index + len) ↔
        index / 32 ≤ q ∧ q ≤ (index + len - 1) / 32 := by
      intro q
      rw [pageRange, List.mem_range'_1]
      omega
    refine (List.perm_ext_iff_of_nodup ?_ hnd).mpr fun q => ?_
    · refine List.nodup_append.mpr ⟨by split <;> simp, ?_, ?_⟩
      · refine List.nodup_append.mpr ⟨by split <;> simp, hnd.filter _, ?_⟩
        intro a ha b hb he
        subst he
        have hkeep := of_decide_eq_true (List.mem_filter.mp hb).2
        split at ha
        · next hlt => exact hkeep (Or.inr (by
            rw [List.mem_singleton] at ha
            exact ⟨ha, ha ▸ hlt⟩))
        · exact absurd ha List.not_mem_nil
      · intro a ha b hb he
        subst he
        split at ha
        · next hlt =>
          rw [List.mem_singleton] at ha
          rcases List.mem_append.mp hb with hb | hb
          · split at hb
            · exact hq (ha.symm.trans (List.mem_singleton.mp hb))
            · exact absurd hb List.not_mem_nil
          · exact of_decide_eq_true (List.mem_filter.mp hb).2 (Or.inl ⟨ha, ha ▸ hlt⟩)
        · exact absurd ha List.not_mem_nil
    · rw [hmem, List.mem_append, List.mem_append, List.mem_filter, hmem, decide_eq_true_eq]
      unfold Partial
      constructor
      · rintro (h | h | h)
        · split at h
          · rw [List.mem_singleton] at h
            omega
          · exact absurd h List.not_mem_nil
        · split at h
          · rw [List.mem_singleton] at h
            omega
          · exact absurd h List.not_mem_nil
        · exact h.1
      · intro h
        by_cases h1 : q = index / 32 ∧ q * 32 < index
        · exact Or.inl (by rw [if_pos (h1.1 ▸ h1.2)]; exact List.mem_singleton.mpr h1.1)
        · by_cases h2 : q = (index + len - 1) / 32 ∧ index + len < q * 32 + 32
          · exact Or.inr (Or.inl (by rw [if_pos (h2.1 ▸ h2.2)]; exact List.mem_singleton.mpr h2.1))
          · exact Or.inr (Or.inr ⟨h, fun h' => h'.elim h1 h2⟩)

/-- **A write stops at a page.** It writes the pages of the range one by one, first
partial page, last partial page, whole pages. It succeeds with all of them written,
or fails at one that is refused, with those before it written and charged and nothing
else changed; a failure at the first of them changes nothing. -/
theorem write_stops (host : Host ε) (consume : L → Except ε L) (slot : SlotID) (index : Nat)
    (buf : Bytes) (s : Storage) (l : L) :
    ∃ done rest s' l', order index buf.length = done ++ rest ∧
      Stored host consume slot index buf s l done s' l' ∧ (done = [] → s' = s ∧ l' = l) ∧
      ((write host consume slot index buf (s, l) = (.ok (), (s', l')) ∧ rest = []) ∨
        ∃ e q rest', write host consume slot index buf (s, l) = (.error e, (s', l')) ∧
          rest = q :: rest' ∧ Refused host consume slot s' l' q e) := by
  have hnd : (order index buf.length).Nodup := by
    rcases Nat.eq_zero_or_pos buf.length with h0 | hpos
    · rw [h0]
      exact List.nodup_nil
    · exact (order_perm index buf.length hpos).nodup_iff.mpr List.nodup_range'
  rw [write_pieces]
  exact putAll_stops hnd s l

/-- The pages that are left when `n` may still be charged. -/
def budget (n : Nat) : Except Unit Nat := if n = 0 then .error () else .ok (n - 1)

/-- 33 bytes with one page left: the last page is written and charged, then the
first one is refused. -/
theorem write_partial :
    ∃ s', write (answering fun _ _ => 0) budget SlotID.ZERO 0 (List.replicate 33 1)
        (Storage.new, 1) = (.error (), (s', 0)) ∧
      (s'.read_page_override ⟨SlotID.ZERO, 1⟩).isSome ∧
      (Storage.new.read_page_override ⟨SlotID.ZERO, 1⟩) = none :=
  ⟨_, rfl, rfl, rfl⟩

end GenVM.Store.Fallible
