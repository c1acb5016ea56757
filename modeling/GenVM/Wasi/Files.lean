import GenVM.Wasi.GuestMemory
import GenVM.Wasi.Vfs

/-!
# Reading and seeking files (`executor/src/wasi/preview1.rs`)

An open file is its bytes and a position. The guest names the buffers to fill
in its own memory and chooses every offset. A call has no value where the
executor would panic, or where one of the sums and differences of its positions
would wrap; a `usize` has 64 bits.

**Results.**
* `read_spec`, `pread_spec`, `seek_spec`: what each call does to one file.
* `step_spec`: a safe call does what its name says, and any other panics.
* `calls_positional`: along safe calls every position stays inside its file.
-/
namespace GenVM.Wasi
open GenVM.Lib
open GenVM.Calldata (Bytes)

/-! ## One file -/

/-- mirrors executor/src/wasi/preview1.rs:612-624 -/
def FileContents.readLoop (contents : Bytes) :
    List Nat → GuestMemory → Nat → Nat → Option (Except Errno Nat × GuestMemory × Nat)
  | [], memory, pos, written => some (.ok written, memory, pos)
  | iov :: iovs, memory, pos, written =>
    match readIovec memory iov with
    | .error e => some (.error e, memory, pos)
    | .ok iov => do
      let remaining_len ← subU32 (contents.length % 2 ^ 32) pos
      let len := min iov.buf_len remaining_len
      let fin ← addUint 32 pos len
      let cont_slice ← sliceRange contents pos fin
      match copy_from_slice memory cont_slice iov.buf with
      | .error e => some (.error e, memory, pos)
      | .ok memory => do
        let written ← addUint 32 written len
        readLoop contents iovs memory fin written

/-- mirrors executor/src/wasi/preview1.rs:650-664 -/
def FileContents.preadLoop (contents : Bytes) :
    List Nat → GuestMemory → Nat → Nat → Option (Except Errno Nat × GuestMemory)
  | [], memory, _, written => some (.ok (if written < 2 ^ 32 then written else 2 ^ 32 - 1), memory)
  | iov :: iovs, memory, offset, written =>
    match readIovec memory iov with
    | .error e => some (.error e, memory)
    | .ok iov => do
      let remaining_len := contents.length - offset
      let buf_len := min iov.buf_len remaining_len
      let fin ← addUint 64 offset buf_len
      let cont_slice ← sliceRange contents offset fin
      match copy_from_slice memory cont_slice iov.buf with
      | .error e => some (.error e, memory)
      | .ok memory => do
        let written ← addUint 64 written buf_len
        preadLoop contents iovs memory fin written

inductive Whence where
  | set | cur | fin
  deriving DecidableEq

/-- The new position, or nothing where `whence` is refused.
mirrors executor/src/wasi/preview1.rs:801-832 -/
def FileContents.seek (f : FileContents) (offset : Int64) (whence : Whence) : Option (Except Errno Nat) :=
  let len := f.contents.length % 2 ^ 32
  match whence with
  | .cur =>
    if offset.toInt < 0 then
      -- the negation wraps: nothing checks it in a release build
      let offset := (-offset).toUInt64.toNat
      if f.pos < offset then some (.ok 0) else some (.ok (f.pos - offset))
    else do
      let offset := offset.toInt.toNat
      let rem ← subU32 len f.pos
      if rem < offset then some (.ok len) else some (.ok (f.pos + offset))
  | .fin => some (.error .notsup)
  | .set =>
    let offset := if offset.toInt < 0 then 0 else offset.toInt.toNat
    if len < offset then some (.ok len) else some (.ok offset)

/-! ## The calls -/

structure St where
  vfs : VFS
  memory : GuestMemory

def VFS.setPos (v : VFS) (fd : Nat) (f : FileContents) (pos : Nat) : VFS :=
  v.insertFd fd (.file { f with pos := pos })

/-- mirrors executor/src/wasi/preview1.rs:597-630 -/
def fd_read (s : St) (fd : Nat) (iovs : IovecArray) : Option (Except Errno Nat × St) :=
  match s.vfs.fds.lookup fd with
  | none => some (.error .badf, s)
  | some .stdin => some (.ok 0, s)
  | some .stdout => some (.error .acces, s)
  | some .stderr => some (.error .acces, s)
  | some (.file f) => do
    let (res, memory, pos) ← FileContents.readLoop f.contents iovs.iter s.memory f.pos 0
    some (res, ⟨s.vfs.setPos fd f pos, memory⟩)
  | some (.dir _) => some (.error .isdir, s)

/-- mirrors executor/src/wasi/preview1.rs:632-670 -/
def fd_pread (s : St) (fd : Nat) (iovs : IovecArray) (offset : UInt64) : Option (Except Errno Nat × St) :=
  match s.vfs.fds.lookup fd with
  | none => some (.error .badf, s)
  | some .stdin => some (.ok 0, s)
  | some .stdout => some (.error .acces, s)
  | some .stderr => some (.error .acces, s)
  | some (.file f) => do
    let (res, memory) ← FileContents.preadLoop f.contents iovs.iter s.memory offset.toNat 0
    some (res, ⟨s.vfs, memory⟩)
  | some (.dir _) => some (.error .isdir, s)

/-- mirrors executor/src/wasi/preview1.rs:782-838 -/
def fd_seek (s : St) (fd : Nat) (offset : Int64) (whence : Whence) : Option (Except Errno Nat × St) :=
  match s.vfs.fds.lookup fd with
  | none => some (.error .badf, s)
  | some .stdin => some (.error .spipe, s)
  | some .stdout => some (.error .spipe, s)
  | some .stderr => some (.error .spipe, s)
  | some (.file f) => do
    match ← f.seek offset whence with
    | .error e => some (.error e, s)
    | .ok pos => some (.ok pos, ⟨s.vfs.setPos fd f pos, s.memory⟩)
  | some (.dir _) => some (.error .notsup, s)

/-- mirrors executor/src/wasi/preview1.rs:848-869 -/
def fd_tell (s : St) (fd : Nat) : Except Errno Nat × St :=
  match s.vfs.fds.lookup fd with
  | none => (.error .badf, s)
  | some .stdin => (.error .spipe, s)
  | some .stdout => (.error .spipe, s)
  | some .stderr => (.error .spipe, s)
  | some (.file f) => (.ok f.pos, s)
  | some (.dir _) => (.error .notsup, s)

inductive FileCall where
  | fd_read (fd : Nat) (iovs : IovecArray)
  | fd_pread (fd : Nat) (iovs : IovecArray) (offset : UInt64)
  | fd_seek (fd : Nat) (offset : Int64) (whence : Whence)
  | fd_tell (fd : Nat)
  /-- the guest runs and leaves other bytes in its memory -/
  | guest (memory : GuestMemory)

def St.step (s : St) : FileCall → Option (Except Errno Nat × St)
  | .fd_read fd iovs => Wasi.fd_read s fd iovs
  | .fd_pread fd iovs offset => Wasi.fd_pread s fd iovs offset
  | .fd_seek fd offset whence => Wasi.fd_seek s fd offset whence
  | .fd_tell fd => some (Wasi.fd_tell s fd)
  | .guest memory => some (.ok 0, { s with memory := memory })

/-! ## What the calls do to one file -/

/-- The iovec at `ptr` cannot be served: it does not lie in the memory, or the
bytes it would take do not fit where it points. -/
def Blocked (memory : GuestMemory) (ptr : Nat) (bytes : Bytes) : Prop :=
  ∀ iov, readIovec memory ptr = .ok iov →
    memory.length < iov.buf + min iov.buf_len bytes.length

/-- The next `n` bytes went out, after `written` before them: to all the iovecs
where the call succeeded, to those before the first that cannot be served where
the guest was stopped. -/
def Sent (iovs : List Nat) (memory : GuestMemory) (bytes : Bytes) (written : Nat)
    (res : Except Errno Nat) (n : Nat) (memory' : GuestMemory) : Prop :=
  match res with
  | .ok r => r = written + n ∧ Scatter memory iovs bytes n memory'
  | .error e => e = .trap ∧ ∃ k ptr, iovs[k]? = some ptr ∧
      Scatter memory (iovs.take k) bytes n memory' ∧ Blocked memory' ptr (bytes.drop n)

theorem readIovec_error {memory : GuestMemory} {ptr : Nat} {e : Errno}
    (h : readIovec memory ptr = .error e) : e = .trap := by
  unfold readIovec at h
  split at h
  · cases h
  · exact (Except.error.inj h).symm

theorem blocked_unread {memory : GuestMemory} {ptr : Nat} {bytes : Bytes} {e : Errno}
    (h : readIovec memory ptr = .error e) : Blocked memory ptr bytes := by
  intro iov hiov
  rw [h] at hiov
  cases hiov

/-- A copy into an iovec writes all the bytes it takes, or traps. -/
theorem copy_from_slice_cases {memory : GuestMemory} {ptr : Nat} {iov : Iovec}
    (hread : readIovec memory ptr = .ok iov) (bytes : Bytes) :
    copy_from_slice memory (bytes.take iov.buf_len) iov.buf =
        .ok (copyInto memory iov.buf (bytes.take iov.buf_len)) ∨
      copy_from_slice memory (bytes.take iov.buf_len) iov.buf = .error .trap ∧
        Blocked memory ptr bytes := by
  unfold copy_from_slice
  split
  · exact .inl rfl
  · rename_i hfit
    rw [List.length_take, Nat.not_le] at hfit
    refine .inr ⟨rfl, fun iov' hiov => ?_⟩
    obtain rfl := Except.ok.inj (hread.symm.trans hiov)
    exact hfit

/-- A call that is stopped before it sends anything. -/
theorem Sent.trap {ptr : Nat} {memory : GuestMemory} {bytes : Bytes}
    (h : Blocked memory ptr bytes) (iovs : List Nat) (written : Nat) :
    Sent (ptr :: iovs) memory bytes written (.error .trap) 0 memory :=
  ⟨rfl, 0, ptr, rfl, .nil memory bytes, h⟩

/-- The bytes an iovec takes are those the code slices out. -/
theorem take_min (bytes : Bytes) (n : Nat) : bytes.take (min n bytes.length) = bytes.take n := by
  rcases Nat.le_total n bytes.length with h | h
  · rw [Nat.min_eq_left h]
  · rw [Nat.min_eq_right h, List.take_of_length_le h, List.take_length]

theorem drop_min (bytes : Bytes) (n : Nat) : bytes.drop (min n bytes.length) = bytes.drop n := by
  rcases Nat.le_total n bytes.length with h | h
  · rw [Nat.min_eq_left h]
  · rw [Nat.min_eq_right h, List.drop_of_length_le h, List.drop_length]

theorem Sent.cons {iov : Iovec} {ptr : Nat} {iovs : List Nat} {memory memory' : GuestMemory}
    {bytes : Bytes} {res : Except Errno Nat} {n len written : Nat}
    (hread : readIovec memory ptr = .ok iov) (hlen : len = min iov.buf_len bytes.length)
    (h : Sent iovs (copyInto memory iov.buf (bytes.take iov.buf_len)) (bytes.drop iov.buf_len)
      (written + len) res n memory') :
    Sent (ptr :: iovs) memory bytes written res (len + n) memory' := by
  subst hlen
  cases res with
  | ok r =>
    obtain ⟨hr, hs⟩ := h
    exact ⟨hr.trans (Nat.add_assoc _ _ _), .cons hread hs⟩
  | error e =>
    obtain ⟨he, k, ptr', hk, hs, hb⟩ := h
    refine ⟨he, k + 1, ptr', hk, .cons hread hs, ?_⟩
    rw [← List.drop_drop, drop_min]
    exact hb

/-- What follows once an iovec has had its bytes. -/
theorem drop_len {contents : Bytes} {pos len buf_len : Nat}
    (hlen : len = min buf_len (contents.drop pos).length) :
    (contents.drop pos).take len = (contents.drop pos).take buf_len ∧
      contents.drop (pos + len) = (contents.drop pos).drop buf_len := by
  subst hlen
  constructor
  · exact take_min _ _
  · rw [← List.drop_drop]
    exact drop_min _ _

/-- From a position inside the file every iovec gets the next bytes. -/
theorem read_spec (contents : Bytes) (hlen : contents.length < 2 ^ 32) :
    ∀ (iovs : List Nat) (memory : GuestMemory) (pos written : Nat), pos ≤ contents.length →
      written ≤ pos →
      ∃ res memory' n, FileContents.readLoop contents iovs memory pos written =
          some (res, memory', pos + n) ∧ pos + n ≤ contents.length ∧
        Sent iovs memory (contents.drop pos) written res n memory' := by
  intro iovs
  induction iovs with
  | nil =>
    intro memory pos written hpos _
    exact ⟨.ok written, memory, 0, rfl, hpos, rfl, .nil _ _⟩
  | cons p iovs ih =>
    intro memory pos written hpos hw
    unfold FileContents.readLoop
    cases hread : readIovec memory p with
    | error e =>
      rw [readIovec_error hread]
      exact ⟨.error .trap, memory, 0, rfl, hpos, .trap (blocked_unread hread) _ _⟩
    | ok iov =>
      have hdrop : (contents.drop pos).length = contents.length - pos := List.length_drop
      obtain ⟨len, hl⟩ : ∃ len, len = min iov.buf_len (contents.length - pos) := ⟨_, rfl⟩
      obtain ⟨htake, hrest⟩ := drop_len (hl.trans (by rw [hdrop]))
      dsimp only
      rw [Nat.mod_eq_of_lt hlen, subU32_of_le hpos]
      dsimp only [Option.bind_eq_bind, Option.bind_some]
      rw [← hl, addUint_of_lt (by omega)]
      dsimp only [Option.bind_eq_bind, Option.bind_some]
      rw [sliceRange_of_le (by omega) (by omega)]
      dsimp only [Option.bind_eq_bind, Option.bind_some]
      rw [Nat.add_sub_cancel_left, htake]
      rcases copy_from_slice_cases hread (contents.drop pos) with hc | ⟨hc, hblocked⟩
      · rw [hc]
        dsimp only
        rw [addUint_of_lt (by omega)]
        dsimp only [Option.bind_eq_bind, Option.bind_some]
        obtain ⟨res, memory', n, hrun, hn, hsent⟩ :=
          ih (copyInto memory iov.buf ((contents.drop pos).take iov.buf_len)) (pos + len)
            (written + len) (by omega) (by omega)
        rw [hrest] at hsent
        refine ⟨res, memory', len + n, ?_, by omega, .cons hread (hl.trans (by rw [hdrop])) hsent⟩
        rw [hrun, Nat.add_assoc]
      · rw [hc]
        exact ⟨.error .trap, memory, 0, rfl, hpos, .trap hblocked _ _⟩

/-- The same for a read at an offset inside the file. -/
theorem pread_spec (contents : Bytes) (hlen : contents.length < 2 ^ 32) :
    ∀ (iovs : List Nat) (memory : GuestMemory) (offset written : Nat), offset ≤ contents.length →
      written ≤ offset →
      ∃ res memory' n, FileContents.preadLoop contents iovs memory offset written =
          some (res, memory') ∧ Sent iovs memory (contents.drop offset) written res n memory' := by
  intro iovs
  induction iovs with
  | nil =>
    intro memory offset written hoff hw
    refine ⟨.ok written, memory, 0, ?_, rfl, .nil _ _⟩
    unfold FileContents.preadLoop
    rw [if_pos (by omega)]
  | cons p iovs ih =>
    intro memory offset written hoff hw
    unfold FileContents.preadLoop
    cases hread : readIovec memory p with
    | error e =>
      rw [readIovec_error hread]
      exact ⟨.error .trap, memory, 0, rfl, .trap (blocked_unread hread) _ _⟩
    | ok iov =>
      have hdrop : (contents.drop offset).length = contents.length - offset := List.length_drop
      obtain ⟨len, hl⟩ : ∃ len, len = min iov.buf_len (contents.length - offset) := ⟨_, rfl⟩
      obtain ⟨htake, hrest⟩ := drop_len (hl.trans (by rw [hdrop]))
      have h64 : contents.length < 2 ^ 64 := Nat.lt_trans hlen (by decide)
      dsimp only
      rw [← hl, addUint_of_lt (by omega)]
      dsimp only [Option.bind_eq_bind, Option.bind_some]
      rw [sliceRange_of_le (by omega) (by omega)]
      dsimp only [Option.bind_eq_bind, Option.bind_some]
      rw [Nat.add_sub_cancel_left, htake]
      rcases copy_from_slice_cases hread (contents.drop offset) with hc | ⟨hc, hblocked⟩
      · rw [hc]
        dsimp only
        rw [addUint_of_lt (by omega)]
        dsimp only [Option.bind_eq_bind, Option.bind_some]
        obtain ⟨res, memory', n, hrun, hsent⟩ :=
          ih (copyInto memory iov.buf ((contents.drop offset).take iov.buf_len)) (offset + len)
            (written + len) (by omega) (by omega)
        rw [hrest] at hsent
        exact ⟨res, memory', len + n, hrun, .cons hread (hl.trans (by rw [hdrop])) hsent⟩
      · rw [hc]
        exact ⟨.error .trap, memory, 0, rfl, .trap hblocked _ _⟩

/-- Past the end the first iovec that can be read is a panic. -/
theorem pread_past {contents : Bytes} {offset : Nat} (h : contents.length < offset)
    (iovs : List Nat) (memory : GuestMemory) :
    (∃ p iov, iovs.head? = some p ∧ readIovec memory p = .ok iov) →
      FileContents.preadLoop contents iovs memory offset 0 = none := by
  intro hex
  obtain ⟨p, iov, hp, hread⟩ := hex
  cases iovs with
  | nil => cases hp
  | cons q iovs =>
    obtain rfl := Option.some.inj hp
    unfold FileContents.preadLoop
    rw [hread]
    dsimp only
    rw [Nat.sub_eq_zero_of_le (Nat.le_of_lt h), Nat.min_zero]
    cases hfin : addUint 64 offset 0 with
    | none => rfl
    | some fin =>
      have hle : contents.length < fin := by
        unfold addUint at hfin
        split at hfin
        · have := Option.some.inj hfin
          omega
        · cases hfin
      dsimp only [Option.bind_eq_bind, Option.bind_some]
      rw [sliceRange_none hle]
      rfl

/-- Past the end and without an iovec to read, nothing is read. -/
theorem pread_past_none {contents : Bytes} {offset : Nat} {iovs : List Nat} {memory : GuestMemory}
    (h : ¬ ∃ p iov, iovs.head? = some p ∧ readIovec memory p = .ok iov) :
    ∃ res, FileContents.preadLoop contents iovs memory offset 0 = some (res, memory) ∧
      Sent iovs memory [] 0 res 0 memory := by
  cases iovs with
  | nil => exact ⟨.ok 0, rfl, rfl, .nil _ _⟩
  | cons p iovs =>
    unfold FileContents.preadLoop
    cases hread : readIovec memory p with
    | error e =>
      rw [readIovec_error hread]
      exact ⟨.error .trap, rfl, .trap (blocked_unread hread) _ _⟩
    | ok iov => exact absurd ⟨p, iov, rfl, hread⟩ h

/-- The bits of a negated offset are those of its size, also where the negation
wraps. -/
theorem neg_as_u64 {offset : Int64} (h : offset.toInt < 0) :
    (-offset).toUInt64.toNat = (-offset.toInt).toNat := by
  have hint : offset.toInt = offset.toBitVec.toInt := rfl
  have hnat : (-offset).toUInt64.toNat = (-offset.toBitVec).toNat := rfl
  rw [hnat, hint, BitVec.toNat_neg]
  rw [hint, BitVec.toInt_eq_toNat_cond] at h
  rw [BitVec.toInt_eq_toNat_cond]
  split at h
  · omega
  · rename_i hbig
    rw [if_neg hbig]
    have := offset.toBitVec.isLt
    omega

/-- `z` moved into `0..=len`. -/
def clamp (len : Nat) (z : Int) : Nat := min z.toNat len

/-- A seek from the start or from the position lands on the exact sum, moved
into the file; one from the end is refused. -/
theorem seek_spec {f : FileContents} {offset : Int64} {whence : Whence}
    (hlen : f.contents.length < 2 ^ 32) (hpos : f.pos ≤ f.contents.length) :
    f.seek offset whence =
      match whence with
      | .set => some (.ok (clamp f.contents.length offset.toInt))
      | .cur => some (.ok (clamp f.contents.length (f.pos + offset.toInt)))
      | .fin => some (.error .notsup) := by
  unfold FileContents.seek clamp
  rw [Nat.mod_eq_of_lt hlen]
  dsimp only
  cases whence with
  | set =>
    dsimp only
    by_cases hneg : offset.toInt < 0
    · rw [if_pos hneg, if_neg (by omega)]
      congr 2
      omega
    · rw [if_neg hneg]
      by_cases hbig : f.contents.length < offset.toInt.toNat
      · rw [if_pos hbig]
        congr 2
        omega
      · rw [if_neg hbig]
        congr 2
        omega
  | cur =>
    dsimp only
    by_cases hneg : offset.toInt < 0
    · rw [if_pos hneg, neg_as_u64 hneg]
      by_cases hbig : f.pos < (-offset.toInt).toNat
      · rw [if_pos hbig]
        congr 2
        omega
      · rw [if_neg hbig]
        congr 2
        omega
    · rw [if_neg hneg, subU32_of_le hpos]
      dsimp only [Option.bind_eq_bind, Option.bind_some]
      by_cases hbig : f.contents.length - f.pos < offset.toInt.toNat
      · rw [if_pos hbig]
        congr 2
        omega
      · rw [if_neg hbig]
        congr 2
        omega
  | fin => rfl

/-- The least offset wraps to itself, and the position goes to 0. -/
example : FileContents.seek ⟨[7, 8, 9], 2, true⟩ Int64.minValue .cur = some (.ok 0) := by decide

/-! ## Every call of a run -/

/-- Every open file is shorter than a `u32` counts, and its position inside it. -/
def Inside (s : St) : Prop := ∀ fd f, s.vfs.fds.lookup fd = some (.file f) →
  f.pos ≤ f.contents.length ∧ f.contents.length < 2 ^ 32

/-- No read at an offset past the end of the file with an iovec to fill. -/
def Safe (s : St) : FileCall → Prop
  | .fd_pread fd iovs offset => ∀ f, s.vfs.fds.lookup fd = some (.file f) →
      f.contents.length < offset.toNat →
      ¬ ∃ p iov, iovs.iter.head? = some p ∧ readIovec s.memory p = .ok iov
  | _ => True

/-- What a call on an open file does. -/
def Does (s : St) (res : Except Errno Nat) (s' : St) : FileCall → Prop
  | .fd_read fd iovs => ∀ f, s.vfs.fds.lookup fd = some (.file f) →
      ∃ n, f.pos + n ≤ f.contents.length ∧ s'.vfs = s.vfs.setPos fd f (f.pos + n) ∧
        Sent iovs.iter s.memory (f.contents.drop f.pos) 0 res n s'.memory
  | .fd_pread fd iovs offset => ∀ f, s.vfs.fds.lookup fd = some (.file f) →
      ∃ n, s'.vfs = s.vfs ∧
        Sent iovs.iter s.memory (f.contents.drop (min offset.toNat f.contents.length)) 0 res n
          s'.memory
  | .fd_seek fd offset .set => ∀ f, s.vfs.fds.lookup fd = some (.file f) →
      res = .ok (clamp f.contents.length offset.toInt) ∧
        s' = ⟨s.vfs.setPos fd f (clamp f.contents.length offset.toInt), s.memory⟩
  | .fd_seek fd offset .cur => ∀ f, s.vfs.fds.lookup fd = some (.file f) →
      res = .ok (clamp f.contents.length (f.pos + offset.toInt)) ∧
        s' = ⟨s.vfs.setPos fd f (clamp f.contents.length (f.pos + offset.toInt)), s.memory⟩
  | .fd_seek fd _ .fin => ∀ f, s.vfs.fds.lookup fd = some (.file f) →
      res = .error .notsup ∧ s' = s
  | .fd_tell fd => ∀ f, s.vfs.fds.lookup fd = some (.file f) → res = .ok f.pos ∧ s' = s
  | .guest memory => s' = ⟨s.vfs, memory⟩

theorem Inside.setPos {s : St} (h : Inside s) {fd pos : Nat} {f : FileContents}
    (hf : s.vfs.fds.lookup fd = some (.file f)) (hpos : pos ≤ f.contents.length)
    (memory : GuestMemory) : Inside ⟨s.vfs.setPos fd f pos, memory⟩ := by
  intro fd' f' hf'
  have hl : (SortedMap.insert (· < ·) fd (.file { f with pos := pos }) s.vfs.fds).lookup fd' =
      some (.file f') := hf'
  rw [SortedMap.lookup_insert SortedMap.nat_order] at hl
  split at hl
  · obtain rfl := FileDescriptor.file.inj (Option.some.inj hl)
    exact ⟨hpos, (h fd f hf).2⟩
  · exact h fd' f' hl

theorem clamp_le (len : Nat) (z : Int) : clamp len z ≤ len := Nat.min_le_right _ _

/-- The descriptor a call is on. -/
def FileCall.fd : FileCall → Option Nat
  | .fd_read fd _ => some fd
  | .fd_pread fd _ _ => some fd
  | .fd_seek fd _ _ => some fd
  | .fd_tell fd => some fd
  | .guest _ => none

/-- A call on a descriptor that is no file leaves everything as it is. -/
theorem step_no_file {s : St} {c : FileCall} {fd : Nat} (hc : c.fd = some fd)
    (hno : ∀ f, s.vfs.fds.lookup fd ≠ some (.file f)) : ∃ r, s.step c = some (r, s) := by
  cases c with
  | guest memory => cases hc
  | fd_read =>
    obtain rfl := Option.some.inj hc
    unfold St.step fd_read
    dsimp only
    split <;> first | exact ⟨_, rfl⟩ | (rename_i f hf; exact absurd hf (hno f))
  | fd_pread =>
    obtain rfl := Option.some.inj hc
    unfold St.step fd_pread
    dsimp only
    split <;> first | exact ⟨_, rfl⟩ | (rename_i f hf; exact absurd hf (hno f))
  | fd_seek =>
    obtain rfl := Option.some.inj hc
    unfold St.step fd_seek
    dsimp only
    split <;> first | exact ⟨_, rfl⟩ | (rename_i f hf; exact absurd hf (hno f))
  | fd_tell =>
    obtain rfl := Option.some.inj hc
    unfold St.step fd_tell
    dsimp only
    split <;> exact ⟨_, rfl⟩

/-- What is in the table under `fd`, if it is a file. -/
theorem file_or_not (s : St) (fd : Nat) :
    (∃ f, s.vfs.fds.lookup fd = some (.file f)) ∨ ∀ f, s.vfs.fds.lookup fd ≠ some (.file f) := by
  by_cases h : ∃ f, s.vfs.fds.lookup fd = some (.file f)
  · exact .inl h
  · exact .inr fun f hf => h ⟨f, hf⟩

/-- A safe call does what its name says and keeps every position inside its
file; any other panics. -/
theorem step_spec {s : St} (h : Inside s) (c : FileCall) :
    (Safe s c → ∃ r s', s.step c = some (r, s') ∧ Does s r s' c ∧ Inside s') ∧
      (¬ Safe s c → s.step c = none) := by
  cases c with
  | fd_read fd iovs =>
    refine ⟨fun _ => ?_, fun hn => absurd trivial hn⟩
    rcases file_or_not s fd with ⟨f, hf⟩ | hno
    · obtain ⟨hpos, hlen⟩ := h fd f hf
      obtain ⟨res, memory, n, hrun, hn, hsent⟩ :=
        read_spec f.contents hlen iovs.iter s.memory f.pos 0 hpos (Nat.zero_le _)
      refine ⟨res, ⟨s.vfs.setPos fd f (f.pos + n), memory⟩, ?_, ?_, h.setPos hf hn memory⟩
      · unfold St.step fd_read
        dsimp only
        rw [hf]
        dsimp only
        rw [hrun]
        rfl
      · intro f' hf'
        obtain rfl := FileDescriptor.file.inj (Option.some.inj (hf.symm.trans hf'))
        exact ⟨n, hn, rfl, hsent⟩
    · obtain ⟨r, hr⟩ := step_no_file (c := .fd_read fd iovs) rfl hno
      exact ⟨r, s, hr, fun f hf => absurd hf (hno f), h⟩
  | fd_pread fd iovs offset =>
    rcases file_or_not s fd with ⟨f, hf⟩ | hno
    · obtain ⟨hpos, hlen⟩ := h fd f hf
      have hstep : s.step (.fd_pread fd iovs offset) =
          (FileContents.preadLoop f.contents iovs.iter s.memory offset.toNat 0).bind
            fun p => some (p.1, ⟨s.vfs, p.2⟩) := by
        unfold St.step fd_pread
        dsimp only
        rw [hf]
        rfl
      rw [hstep]
      by_cases hoff : offset.toNat ≤ f.contents.length
      · refine ⟨fun _ => ?_, fun hn => absurd ?_ hn⟩
        · obtain ⟨res, memory, n, hrun, hsent⟩ :=
            pread_spec f.contents hlen iovs.iter s.memory offset.toNat 0 hoff (Nat.zero_le _)
          refine ⟨res, ⟨s.vfs, memory⟩, by rw [hrun]; rfl, ?_, h⟩
          intro f' hf'
          obtain rfl := FileDescriptor.file.inj (Option.some.inj (hf.symm.trans hf'))
          rw [Nat.min_eq_left hoff]
          exact ⟨n, rfl, hsent⟩
        · intro f' hf' hlt
          obtain rfl := FileDescriptor.file.inj (Option.some.inj (hf.symm.trans hf'))
          omega
      · constructor
        · intro hs
          obtain ⟨res, hrun, hsent⟩ := pread_past_none (hs f hf (by omega))
          refine ⟨res, s, by rw [hrun]; rfl, ?_, h⟩
          intro f' hf'
          obtain rfl := FileDescriptor.file.inj (Option.some.inj (hf.symm.trans hf'))
          rw [Nat.min_eq_right (by omega), List.drop_length]
          exact ⟨0, rfl, hsent⟩
        · intro hn
          rw [pread_past (by omega)]
          · rfl
          · by_contra hex
            apply hn
            intro f' _ _
            exact hex
    · refine ⟨fun _ => ?_, fun hn => absurd (fun f hf => absurd hf (hno f)) hn⟩
      obtain ⟨r, hr⟩ := step_no_file (c := .fd_pread fd iovs offset) rfl hno
      exact ⟨r, s, hr, fun f hf => absurd hf (hno f), h⟩
  | fd_seek fd offset whence =>
    rcases file_or_not s fd with ⟨f, hf⟩ | hno
    · obtain ⟨hpos, hlen⟩ := h fd f hf
      have hstep : s.step (.fd_seek fd offset whence) =
          (f.seek offset whence).bind fun
            | .error e => some (.error e, s)
            | .ok pos => some (.ok pos, ⟨s.vfs.setPos fd f pos, s.memory⟩) := by
        unfold St.step fd_seek
        dsimp only
        rw [hf]
        rfl
      rw [hstep, seek_spec hlen hpos]
      have hsame : ∀ f', s.vfs.fds.lookup fd = some (.file f') → f' = f := fun f' hf' =>
        FileDescriptor.file.inj (Option.some.inj (hf'.symm.trans hf))
      cases whence with
      | set =>
        refine ⟨fun _ => ⟨_, _, rfl, ?_, h.setPos hf (clamp_le _ _) s.memory⟩,
          fun hn => absurd trivial hn⟩
        intro f' hf'
        obtain rfl := hsame f' hf'
        exact ⟨rfl, rfl⟩
      | cur =>
        refine ⟨fun _ => ⟨_, _, rfl, ?_, h.setPos hf (clamp_le _ _) s.memory⟩,
          fun hn => absurd trivial hn⟩
        intro f' hf'
        obtain rfl := hsame f' hf'
        exact ⟨rfl, rfl⟩
      | fin =>
        exact ⟨fun _ => ⟨_, _, rfl, fun f' _ => ⟨rfl, rfl⟩, h⟩, fun hn => absurd trivial hn⟩
    · obtain ⟨r, hr⟩ := step_no_file (c := .fd_seek fd offset whence) rfl hno
      refine ⟨fun _ => ⟨r, s, hr, ?_, h⟩, fun hn => absurd trivial hn⟩
      cases whence <;> exact fun f hf => absurd hf (hno f)
  | fd_tell fd =>
    refine ⟨fun _ => ?_, fun hn => absurd trivial hn⟩
    rcases file_or_not s fd with ⟨f, hf⟩ | hno
    · refine ⟨.ok f.pos, s, ?_, ?_, h⟩
      · unfold St.step fd_tell
        dsimp only
        rw [hf]
      · intro f' hf'
        obtain rfl := FileDescriptor.file.inj (Option.some.inj (hf.symm.trans hf'))
        exact ⟨rfl, rfl⟩
    · obtain ⟨r, hr⟩ := step_no_file (c := .fd_tell fd) rfl hno
      exact ⟨r, s, hr, fun f hf => absurd hf (hno f), h⟩
  | guest memory => exact ⟨fun _ => ⟨_, _, rfl, rfl, h⟩, fun hn => absurd trivial hn⟩

/-- Safe calls from `s0` on. -/
inductive Ran (s0 : St) : St → Prop
  | start : Ran s0 s0
  | call {s s' : St} {c : FileCall} {r : Except Errno Nat} (h : Ran s0 s) (hsafe : Safe s c)
      (hstep : s.step c = some (r, s')) : Ran s0 s'

theorem Ran.inside {s0 s : St} (h0 : Inside s0) (h : Ran s0 s) : Inside s := by
  induction h with
  | start => exact h0
  | @call s s' c r h hsafe hstep ih =>
    obtain ⟨r', s'', hstep', -, hin⟩ := (step_spec ih c).1 hsafe
    rw [hstep] at hstep'
    cases hstep'
    exact hin

/-- From files shorter than `2^32` bytes and positions inside them, after any
safe calls: every position is still inside its file, the next call does what its
name says if it is safe, and otherwise panics. -/
theorem calls_positional {s0 s : St} (h0 : Inside s0) (h : Ran s0 s) :
    (∀ fd f, s.vfs.fds.lookup fd = some (.file f) → f.pos ≤ f.contents.length) ∧
      ∀ c, (Safe s c ↔ ∃ r s', s.step c = some (r, s')) ∧
        ∀ r s', s.step c = some (r, s') → Does s r s' c := by
  have hin := h.inside h0
  refine ⟨fun fd f hf => (hin fd f hf).1, fun c => ?_⟩
  obtain ⟨hsafe, hpanic⟩ := step_spec hin c
  by_cases hc : Safe s c
  · obtain ⟨r, s', hstep, hdoes, -⟩ := hsafe hc
    refine ⟨⟨fun _ => ⟨r, s', hstep⟩, fun _ => hc⟩, fun r' s'' hstep' => ?_⟩
    rw [hstep] at hstep'
    cases hstep'
    exact hdoes
  · rw [hpanic hc]
    exact ⟨⟨fun hs => absurd hs hc, fun ⟨_, _, hs⟩ => nomatch hs⟩, fun _ _ hs => nomatch hs⟩

/-- One open file of three bytes, and a memory with one iovec at 0: the two
bytes at 8. -/
def threeBytes : St :=
  ⟨⟨[(0, .file ⟨[7, 8, 9], 0, true⟩)], by simp [SortedMap.Sorted], [], 0, Limiter.new⟩,
    [8, 0, 0, 0, 2, 0, 0, 0, 0, 0]⟩

theorem threeBytes_inside : Inside threeBytes := by
  intro fd f hf
  have hl : List.lookup fd [(0, FileDescriptor.file ⟨[7, 8, 9], 0, true⟩)] = some (.file f) := hf
  rw [SortedMap.lookup_cons] at hl
  split at hl
  · obtain rfl := FileDescriptor.file.inj (Option.some.inj hl)
    exact ⟨by decide, by decide⟩
  · cases hl

/-- The same file after its first two bytes were read to the memory. -/
def twoRead : St :=
  ⟨threeBytes.vfs.setPos 0 ⟨[7, 8, 9], 0, true⟩ 2, [8, 0, 0, 0, 2, 0, 0, 0, 7, 8]⟩

theorem read_two : threeBytes.step (.fd_read 0 ⟨0, 1⟩) = some (.ok 2, twoRead) := rfl

/-- After a read of two bytes the position is 2, and the next read has a value:
the one byte that is left. -/
theorem calls_positional_read : (twoRead.vfs.fds.lookup 0 = some (.file ⟨[7, 8, 9], 2, true⟩) ∧
      2 ≤ [7, 8, 9].length) ∧
    (∃ r s', twoRead.step (.fd_read 0 ⟨0, 1⟩) = some (r, s')) ∧
    Sent [0] twoRead.memory [9] 0 (.ok 1) 1 [8, 0, 0, 0, 2, 0, 0, 0, 9, 8] := by
  have h : Ran threeBytes twoRead := .call (c := .fd_read 0 ⟨0, 1⟩) .start trivial read_two
  obtain ⟨hpos, hcalls⟩ := calls_positional threeBytes_inside h
  have hfile : twoRead.vfs.fds.lookup 0 = some (.file ⟨[7, 8, 9], 2, true⟩) := rfl
  have hnext : twoRead.step (.fd_read 0 ⟨0, 1⟩) = some (.ok 1,
      ⟨twoRead.vfs.setPos 0 ⟨[7, 8, 9], 2, true⟩ 3, [8, 0, 0, 0, 2, 0, 0, 0, 9, 8]⟩) := rfl
  obtain ⟨hsafe, hdoes⟩ := hcalls (.fd_read 0 ⟨0, 1⟩)
  refine ⟨⟨hfile, hpos 0 _ hfile⟩, hsafe.mp trivial, ?_⟩
  obtain ⟨n, -, -, hsent⟩ := hdoes _ _ hnext _ hfile
  obtain rfl : 1 = n := by simpa [Sent] using hsent.1
  exact hsent

/-- A read at offset 4 of the three bytes panics. -/
theorem pread_past_end : threeBytes.step (.fd_pread 0 ⟨0, 1⟩ 4) = none := by decide +kernel

end GenVM.Wasi
