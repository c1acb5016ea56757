import GenVM.Lib.Slice
import GenVM.Calldata.Types

/-!
# The guest's memory as the file calls see it

A call that reads or writes past the end of the guest's memory, or at a place
that is not aligned, traps.
-/
namespace GenVM.Wasi
open GenVM.Lib
open GenVM.Calldata (Bytes)

/-- What a call can answer instead of a result. -/
inductive Errno where
  | badf | acces | isdir | spipe | notsup | noent
  /-- not an answer: the guest is stopped -/
  | trap
  deriving DecidableEq

abbrev GuestMemory := Bytes

/-- `memory.copy_from_slice(src, ptr.as_array(src.len()))` -/
def copy_from_slice (memory : GuestMemory) (src : Bytes) (ptr : Nat) : Except Errno GuestMemory :=
  if ptr + src.length ≤ memory.length then .ok (copyInto memory ptr src) else .error .trap

/-- The number in the four bytes at `ptr`. -/
def u32At (memory : GuestMemory) (ptr : Nat) : Nat :=
  (memory.getD ptr 0).toNat + 256 * ((memory.getD (ptr + 1) 0).toNat +
    256 * ((memory.getD (ptr + 2) 0).toNat + 256 * (memory.getD (ptr + 3) 0).toNat))

structure Iovec where
  buf : Nat
  buf_len : Nat
  deriving DecidableEq

/-- `memory.read(iov)` -/
def readIovec (memory : GuestMemory) (ptr : Nat) : Except Errno Iovec :=
  if ptr % 4 = 0 ∧ ptr + 8 ≤ memory.length then .ok ⟨u32At memory ptr, u32At memory (ptr + 4)⟩
  else .error .trap

/-- Where a guest says its iovecs are. -/
structure IovecArray where
  ptr : Nat
  len : Nat
  deriving DecidableEq

/-- `iovs.iter()` -/
def IovecArray.iter (iovs : IovecArray) : List Nat :=
  (List.range iovs.len).map fun i => iovs.ptr + 8 * i

/-! ## Checked arithmetic -/

/-- `a - b` on `u32`, without a value where it wraps. -/
def subU32 (a b : Nat) : Option Nat := if b ≤ a then some (a - b) else none

/-- `a + b` on an integer of `w` bits, without a value where it wraps. -/
def addUint (w a b : Nat) : Option Nat := if a + b < 2 ^ w then some (a + b) else none

/-- `xs[i..j]`, without a value where it panics. -/
def sliceRange {α : Type} (xs : List α) (i j : Nat) : Option (List α) :=
  if i ≤ j ∧ j ≤ xs.length then some ((xs.drop i).take (j - i)) else none

theorem subU32_of_le {a b : Nat} (h : b ≤ a) : subU32 a b = some (a - b) := if_pos h

theorem addUint_of_lt {w a b : Nat} (h : a + b < 2 ^ w) : addUint w a b = some (a + b) := if_pos h

theorem sliceRange_of_le {α : Type} {xs : List α} {i j : Nat} (h1 : i ≤ j) (h2 : j ≤ xs.length) :
    sliceRange xs i j = some ((xs.drop i).take (j - i)) := if_pos ⟨h1, h2⟩

theorem sliceRange_none {α : Type} {xs : List α} {i j : Nat} (h : xs.length < j) :
    sliceRange xs i j = none := if_neg fun hc => Nat.not_lt.mpr hc.2 h

/-! ## Scattering bytes over iovecs -/

/-- Of `bytes`, the first `n` went to the iovecs at `ptrs` in order, each taking
as many as it has room for, and turned the one memory into the other. An iovec
is read when its turn comes, so that an earlier one may have written over it. -/
inductive Scatter : GuestMemory → List Nat → Bytes → Nat → GuestMemory → Prop
  | nil (memory : GuestMemory) (bytes : Bytes) : Scatter memory [] bytes 0 memory
  | cons {memory memory' : GuestMemory} {ptr : Nat} {ptrs : List Nat} {bytes : Bytes} {iov : Iovec}
      {n : Nat} (hread : readIovec memory ptr = .ok iov)
      (hrest : Scatter (copyInto memory iov.buf (bytes.take iov.buf_len)) ptrs
        (bytes.drop iov.buf_len) n memory') :
      Scatter memory (ptr :: ptrs) bytes (min iov.buf_len bytes.length + n) memory'

theorem Scatter.le {memory memory' : GuestMemory} {ptrs : List Nat} {bytes : Bytes} {n : Nat}
    (h : Scatter memory ptrs bytes n memory') : n ≤ bytes.length := by
  induction h with
  | nil => exact Nat.zero_le _
  | @cons memory memory' ptr ptrs bytes iov n hread hrest ih =>
    rw [List.length_drop] at ih
    omega

end GenVM.Wasi
