import GenVM.Store.Types

/-!
# The root slot (`executor/src/rt/vm/storage.rs`)

The fields of a contract's root slot and the functions that read and write them.
-/
namespace GenVM.Store
open GenVM.Lib
open GenVM.Calldata (Bytes)

/-- The little-endian bytes of a `u32`. -/
def u32_to_le (n : Nat) : Bytes := (List.range 4).map fun i => UInt8.ofNat (n / 256 ^ i)

/-! ## Fields of the root slot -/

def MAJOR : Nat := 0
def CODE : Nat := 2
def CODE_SLOT : Nat := 5

/-- `sha3_256` is the hash of the `sha3` crate.
mirrors executor/src/host/message.rs:71-79 -/
def SlotID.indirection (sha3_256 : Bytes → {b : Bytes // b.length = 32}) (slot : SlotID)
    (off : Nat) : SlotID :=
  let digest := sha3_256 (slot.raw ++ u32_to_le off)
  ⟨digest.1, digest.2⟩

/-- mirrors executor/src/rt/vm/storage.rs:167-169 -/
def default_code_slot (sha3_256 : Bytes → {b : Bytes // b.length = 32}) : SlotID :=
  SlotID.ZERO.indirection sha3_256 CODE

/-- mirrors executor/src/rt/vm/storage.rs:424-431 -/
def read_major (host : Content) (s : Storage) : UInt8 × Storage :=
  let (buf, s) := read host s SlotID.ZERO MAJOR [0]
  (buf.headD 0, s)

/-- The root field holds the raw slot, or zeros for the default one.
mirrors executor/src/rt/vm/storage.rs:443-452 -/
def resolve_code_slot (sha3_256 : Bytes → {b : Bytes // b.length = 32}) (host : Content)
    (s : Storage) : SlotID × Storage :=
  let (buf, s) := read host s SlotID.ZERO CODE_SLOT Page.zero.raw
  let raw := Page.zero.copy 0 buf
  if raw.raw = List.replicate 32 0 then (default_code_slot sha3_256, s)
  else (⟨raw.raw, raw.size⟩, s)

/-- `mismatch` is the error of a contract of another major version.
mirrors executor/src/rt/vm/storage.rs:454-469 -/
def check_major_and_resolve_code_slot {ε : Type} (sha3_256 : Bytes → {b : Bytes // b.length = 32})
    (node_major : Nat) (mismatch : ε) (host : Content) (s : Storage) : Except ε SlotID × Storage :=
  let (contract_major, s) := read_major host s
  if contract_major.toNat ≠ node_major then (.error mismatch, s)
  else
    let (slot, s) := resolve_code_slot sha3_256 host s
    (.ok slot, s)

section
variable {ε L : Type}

/-- `oom` is the error of code that is too long.
mirrors executor/src/rt/vm/storage.rs:407-422 -/
def write_code (sha3_256 : Bytes → {b : Bytes // b.length = 32}) (host : Content)
    (consume : L → Except ε L) (oom : ε) (code : Bytes) : WriteM ε L Unit :=
  if code.length > 2 ^ 32 - 1 - 4 then throw oom
  else do
    let code_slot := default_code_slot sha3_256
    write host consume code_slot 0 (u32_to_le code.length)
    write host consume code_slot 4 code

/-- mirrors executor/src/rt/vm/storage.rs:433-441 -/
def write_major (host : Content) (consume : L → Except ε L) (major : UInt8) : WriteM ε L Unit :=
  write host consume SlotID.ZERO MAJOR [major]

end

end GenVM.Store
