import GenVM.Store.Root
import GenVM.Store.Delta
import GenVM.Store.Read

/-!
# What reads and writes do to the overlay

A read leaves the pages written so far alone. A write works through
`write_page`, so what each page preserves the whole write preserves, a failed
one included (`write_keeps`).
-/
namespace GenVM.Store
open GenVM.Lib
open GenVM.Calldata (Bytes)

/-! ## Reads -/

theorem cutKnown_pages {slot : SlotID} {bound : Nat → Nat} : ∀ (ks : List Nat) (acc : Nat)
    (s : Storage), (cutKnown slot bound ks acc s).2.pages = s.pages
  | [], _, _ => rfl
  | k :: ks, acc, s => by
    have hs := lookup_pages s ⟨slot, k⟩
    unfold cutKnown
    split
    · next hl =>
      rw [cutKnown_pages ks]
      rw [hl] at hs
      exact hs
    · next hl =>
      rw [hl] at hs
      exact hs

theorem fillPage_pages (slot : SlotID) (start_index end_index nhs nhe : Nat) (f : Fill) (q : Nat) :
    (fillPage slot start_index end_index nhs nhe f q).storage.pages = f.storage.pages := by
  have hs := lookup_pages f.storage ⟨slot, q⟩
  unfold fillPage
  dsimp only
  split
  · next hl =>
    rw [hl] at hs
    split <;> exact hs
  · next hl =>
    rw [hl] at hs
    split
    · split <;> exact hs
    · exact hs

theorem read_overlay (host : Content) (s : Storage) (slot : SlotID) (index : Nat) (buf : Bytes) :
    (read host s slot index buf).2.pages = s.pages := by
  unfold read
  split
  · rfl
  · have hfold : ∀ (a b c d : Nat) (ks : List Nat) (f : Fill),
        (ks.foldl (fillPage slot a b c d) f).storage.pages = f.storage.pages := by
      intro a b c d ks
      induction ks with
      | nil => exact fun f => rfl
      | cons k ks ih => exact fun f => (ih _).trans (fillPage_pages slot a b c d f k)
    exact (hfold _ _ _ _ _ _).trans ((cutKnown_pages _ _ _).trans (cutKnown_pages _ _ _))

theorem read_major_overlay (host : Content) (s : Storage) :
    (read_major host s).2.pages = s.pages := by
  unfold read_major
  exact read_overlay host s _ _ _

theorem check_major_overlay {ε : Type} (sha3_256 : Bytes → {b : Bytes // b.length = 32})
    (node_major : Nat) (mismatch : ε) (host : Content) (s : Storage) :
    (check_major_and_resolve_code_slot sha3_256 node_major mismatch host s).2.pages = s.pages := by
  unfold check_major_and_resolve_code_slot
  dsimp only
  split
  · exact read_major_overlay host s
  · refine Eq.trans ?_ (read_major_overlay host s)
    unfold resolve_code_slot
    dsimp only
    split <;> exact read_overlay _ _ _ _ _

/-! ## Writes -/

section
variable {ε L : Type} {α β : Type} {R : Storage × L → Storage × L → Prop}

/-- Every outcome of `x` is related to what it started from. -/
def Keeps (R : Storage × L → Storage × L → Prop) (x : WriteM ε L α) : Prop := ∀ s, R s (x s).2

theorem Keeps.bind (htrans : ∀ a b c, R a b → R b c → R a c) {x : WriteM ε L α}
    {f : α → WriteM ε L β} (hx : Keeps R x) (hf : ∀ a, Keeps R (f a)) : Keeps R (x >>= f) := by
  intro s
  have h := hx s
  have hb : ((x >>= f) s).2 = match x s with
      | (.ok a, s') => (f a s').2
      | (.error _, s') => s' := by
    show (ExceptT.bindCont f (x s).1 (x s).2).2 = _
    rcases x s with ⟨_ | _, _⟩ <;> rfl
  rw [hb]
  rcases hr : x s with ⟨r, s'⟩
  rw [hr] at h
  cases r with
  | error e => exact h
  | ok a => exact htrans _ _ _ h (hf a s')

variable {host : Content} {consume : L → Except ε L} {slot : SlotID}

theorem keeps_pure (hrefl : ∀ s, R s s) (a : α) : Keeps R (pure a : WriteM ε L α) :=
  fun s => hrefl s

theorem keeps_existingPage (hrefl : ∀ s, R s s) (key : PageID) :
    Keeps R (existingPage host key : WriteM ε L Page) := fun s => hrefl s

theorem write_single_page_keeps (hrefl : ∀ s, R s s) (htrans : ∀ a b c, R a b → R b c → R a c)
    {key : PageID} (hput : ∀ value, Keeps R (write_page consume key value)) (off : Nat)
    (buf : Bytes) : Keeps R (write_single_page host consume key off buf) := by
  unfold write_single_page
  split
  · exact hput _
  · exact (keeps_existingPage hrefl key).bind htrans fun _ => hput _

theorem writeFirst_keeps (hrefl : ∀ s, R s s) (htrans : ∀ a b c, R a b → R b c → R a c)
    {index : Nat} (buf : Bytes)
    (hput : ∀ value, Keeps R (write_page consume ⟨slot, index / 32⟩ value)) :
    Keeps R (writeFirst host consume slot index buf) := by
  unfold writeFirst
  dsimp only
  split
  · exact (keeps_existingPage hrefl _).bind htrans fun _ => hput _
  · exact keeps_pure hrefl ()

theorem writeLast_keeps (hrefl : ∀ s, R s s) (htrans : ∀ a b c, R a b → R b c → R a c)
    {end_index : Nat} (buf : Bytes)
    (hput : ∀ value, Keeps R (write_page consume ⟨slot, (end_index - 1) / 32⟩ value)) :
    Keeps R (writeLast host consume slot end_index buf) := by
  unfold writeLast
  dsimp only
  split
  · exact (keeps_existingPage hrefl _).bind htrans fun _ => hput _
  · exact keeps_pure hrefl ()

theorem writeFull_keeps (hrefl : ∀ s, R s s) (htrans : ∀ a b c, R a b → R b c → R a c)
    (start_index end_index : Nat) (buf : Bytes) : ∀ {ks : List Nat},
    (∀ k ∈ ks, ∀ value, Keeps R (write_page consume ⟨slot, k⟩ value)) →
    Keeps R (writeFull consume slot start_index end_index buf ks)
  | [], _ => keeps_pure hrefl ()
  | k :: ks, hput => by
    have htail : ∀ k ∈ ks, ∀ value, Keeps R (write_page consume ⟨slot, k⟩ value) :=
      fun k hk => hput k (List.mem_cons_of_mem _ hk)
    have ih := writeFull_keeps hrefl htrans start_index end_index buf htail
    unfold writeFull
    dsimp only
    split
    · exact ih
    · exact (hput k List.mem_cons_self _).bind htrans fun _ => ih

theorem write_keeps (hrefl : ∀ s, R s s) (htrans : ∀ a b c, R a b → R b c → R a c)
    (index : Nat) (buf : Bytes)
    (hput : ∀ k value, k * 32 < index + buf.length →
      Keeps R (write_page consume ⟨slot, k⟩ value)) :
    Keeps R (write host consume slot index buf) := by
  unfold write
  split
  · exact keeps_pure hrefl ()
  · next hb =>
    have hpos : 0 < buf.length := List.length_pos_of_ne_nil hb
    have hfirst : ∀ value, Keeps R (write_page consume ⟨slot, index / 32⟩ value) :=
      fun value => hput _ value (by omega)
    dsimp only
    split
    · exact write_single_page_keeps hrefl htrans hfirst _ buf
    · refine (writeFirst_keeps hrefl htrans buf hfirst).bind htrans fun _ => ?_
      refine (writeLast_keeps hrefl htrans buf fun value => hput _ value (by omega)).bind htrans
        fun _ => ?_
      refine writeFull_keeps hrefl htrans _ _ _ fun k hk value => hput k value ?_
      rw [mem_pageRange hpos] at hk
      omega

end

/-! ## The pages -/

/-- A new page makes the overlay one longer. -/
theorem length_putPage (s : Storage) (key : PageID) (value : Page) :
    (s.putPage key value).pages.length =
      s.pages.length + if (s.read_page_override key).isSome then 0 else 1 :=
  SortedMap.length_insert pageLt_order s.sorted

/-- Every page lies in the first 4 GiB of its slot. -/
def Storage.Bounded (s : Storage) : Prop := ∀ p ∈ s.pages, p.1.index < 2 ^ 27

theorem Storage.Bounded.put {s : Storage} (h : s.Bounded) {key : PageID} (hk : key.index < 2 ^ 27)
    (value : Page) : (s.putPage key value).Bounded := by
  intro p hp
  rcases (SortedMap.mem_insert hp) with rfl | hp
  · exact hk
  · exact h p hp

end GenVM.Store
