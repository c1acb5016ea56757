import GenVM.Lib.SortedMap
import GenVM.Calldata.Types

/-!
# Descriptors (`executor/src/wasi/vfs.rs`, `executor/src/wasi/preview1.rs`)

A VM's descriptor table, the descriptors it may hand out again, and the memory
limiter that pays for new ones. `path_open` takes a descriptor first and looks
for the file afterwards.

A new descriptor costs 96 of at most `2^32 - 1` bytes and nothing gives them
back while the VM runs, so `next_free_descriptor` is a natural.

Results: `descriptors_conserved_iff`, `path_open_leaks`.
-/
namespace GenVM.Wasi
open GenVM.Lib
open GenVM.Calldata (Bytes)

/-! ## The memory limiter -/

/-- mirrors executor/src/rt/memlimiter.rs:7-16 -/
structure Limiter where
  remaining_memory : Nat
  least_remaining_memory : Nat
  consumed_memory : Nat
  deriving DecidableEq

/-- mirrors executor/src/rt/memlimiter.rs:49-58 -/
def Limiter.new : Limiter := ⟨2 ^ 32 - 1, 2 ^ 32 - 1, 0⟩

/-- mirrors executor/src/rt/memlimiter.rs:97-136 -/
def Limiter.consume (l : Limiter) (delta : Nat) : Bool × Limiter :=
  if l.remaining_memory < delta then (false, l)
  else
    (true, ⟨l.remaining_memory - delta,
      min l.least_remaining_memory (l.remaining_memory - delta),
      (l.consumed_memory + delta) % 2 ^ 32⟩)

/-- Without a value where the assertion fails.
mirrors executor/src/rt/memlimiter.rs:31-41, 90-95 -/
def Limiter.release (l : Limiter) (delta : Nat) : Option Limiter :=
  if l.remaining_memory + delta < 2 ^ 32 then
    some ⟨l.remaining_memory + delta, l.least_remaining_memory,
      (l.consumed_memory + (2 ^ 32 - delta)) % 2 ^ 32⟩
  else none

/-! ## Files -/

/-- A component of a mapped path: `..` is refused when files are mapped.
mirrors executor/src/rt/supervisor/actions.rs:35-46 -/
abbrev Name := {s : String // s ≠ ".."}

/-- mirrors executor/src/wasi/preview1.rs:119-126 -/
inductive FilesTrie where
  | dir (children : List (Name × FilesTrie))
  | file (data : Bytes)

/-- mirrors executor/src/wasi/vfs.rs:8-13 -/
structure FileContents where
  contents : Bytes
  pos : Nat
  release_memory : Bool

/-- mirrors executor/src/wasi/vfs.rs:25-31 -/
inductive FileDescriptor where
  | stdin | stdout | stderr
  | file (f : FileContents)
  | dir (path : List Name)

inductive Error where
  | badf | noent
  /-- reading the path out of the guest's memory failed -/
  | fault
  /-- traps: too many descriptors, no memory for one more -/
  | oom_ram_limit | oom_ram
  deriving DecidableEq

/-! ## The table -/

def FD_ALLOCATION : Nat := 96

def MAX_FDS : Nat := 1024

/-- mirrors executor/src/wasi/vfs.rs:36-42 -/
structure VFS where
  fds : List (Nat × FileDescriptor)
  sorted : SortedMap.Sorted (· < ·) fds
  free_descriptors : List Nat
  next_free_descriptor : Nat
  limiter : Limiter

namespace VFS

/-- `fds.insert(fd, d)` -/
def insertFd (v : VFS) (fd : Nat) (d : FileDescriptor) : VFS :=
  { v with
    fds := SortedMap.insert (· < ·) fd d v.fds
    sorted := SortedMap.sorted_insert SortedMap.nat_order v.sorted }

/-- `fds.remove(&fd)` -/
def removeFd (v : VFS) (fd : Nat) : VFS :=
  { v with
    fds := v.fds.filter fun e => e.1 ≠ fd
    sorted := List.Pairwise.filter _ v.sorted }

def setLimiter (v : VFS) (l : Limiter) : VFS := { v with limiter := l }

def setFree (v : VFS) (free : List Nat) : VFS := { v with free_descriptors := free }

def setNext (v : VFS) (fd : Nat) : VFS := { v with next_free_descriptor := fd }

/-- mirrors executor/src/wasi/vfs.rs:60-94 -/
def new (stdin : Bytes) (limiter : Limiter) : Except Error VFS :=
  let (charged, limiter) := limiter.consume (stdin.length % 2 ^ 32)
  if charged then
    .ok ⟨[(0, .file ⟨stdin, 0, true⟩), (1, .stdout), (2, .stderr), (3, .dir [])],
      by simp [SortedMap.Sorted], [], 3, limiter⟩
  else .error .oom_ram

/-- mirrors executor/src/wasi/vfs.rs:97-117 -/
def alloc_fd (v : VFS) : Except Error Nat × VFS :=
  if MAX_FDS ≤ v.fds.length then (.error .oom_ram_limit, v)
  else
    match v.free_descriptors.getLast? with
    | some fd => (.ok fd, v.setFree v.free_descriptors.dropLast)
    | none =>
      match v.limiter.consume FD_ALLOCATION with
      | (false, l) => (.error .oom_ram, v.setLimiter l)
      | (true, l) =>
        (.ok (v.next_free_descriptor + 1), (v.setLimiter l).setNext (v.next_free_descriptor + 1))

/-- mirrors executor/src/wasi/vfs.rs:119-122 -/
def free_fd (v : VFS) (fd : Nat) : VFS := v.setFree (v.free_descriptors ++ [fd])

end VFS

/-- What closing a file gives back to the limiter, as `u32`. -/
def FileContents.charge (f : FileContents) : Nat := f.contents.length % 2 ^ 32

/-- mirrors executor/src/wasi/vfs.rs:149-151 -/
def FileContents.release (f : FileContents) (l : Limiter) : Option Limiter :=
  if f.release_memory then l.release f.charge else some l

/-- mirrors executor/src/wasi/vfs.rs:127-131 -/
def FileDescriptor.release (l : Limiter) : FileDescriptor → Option Limiter
  | .file f => f.release l
  | _ => some l

/-- mirrors executor/src/wasi/vfs.rs:124-139 -/
def pop_fd (v : VFS) (fd : Nat) : Option (Option FileDescriptor × VFS) :=
  match v.fds.lookup fd with
  | none => some (none, v)
  | some d => do
    let l ← d.release v.limiter
    some (some d, ((v.removeFd fd).setLimiter l).free_fd fd)

/-- mirrors executor/src/wasi/vfs.rs:141-157 -/
def place_content (v : VFS) (value : FileContents) : Option (Except Error Nat × VFS) :=
  let (charged, l) :=
    if value.release_memory then v.limiter.consume value.charge else (true, v.limiter)
  if charged then
    match (v.setLimiter l).alloc_fd with
    | (.ok fd, v) => some (.ok fd, v.insertFd fd (.file value))
    | (.error e, v) => do
      let l ← value.release v.limiter
      some (.error e, v.setLimiter l)
  else some (.error .oom_ram, v)

/-- mirrors executor/src/wasi/preview1.rs:412-424 -/
def fd_close (v : VFS) (fd : Nat) : Option (Except Error Unit × VFS) := do
  let (popped, v) ← pop_fd v fd
  some (if popped.isNone then .error .badf else .ok (), v)

/-! ## Paths -/

/-- A component other than `..`, on the way down.
mirrors executor/src/wasi/preview1.rs:1290-1316 -/
def getName (name : Name) (cur_trie : FilesTrie) (path : List Name) :
    Except Error FilesTrie × List Name :=
  if name.1 = "." ∨ name.1 = "" then (.ok cur_trie, path)
  else
    match cur_trie with
    | .file _ => (.error .badf, path)
    | .dir children =>
      match children.lookup name with
      | some new_trie => (.ok new_trie, path ++ [name])
      | none => (.error .noent, path)

/-- mirrors executor/src/wasi/preview1.rs:1318-1329 -/
def dir_fd_follow_trie : List Name → FilesTrie → List Name → Except Error FilesTrie × List Name
  | [], cur_trie, path => (.ok cur_trie, path)
  | dir :: dirs, cur_trie, path =>
    match getName dir cur_trie path with
    | (.ok cur_trie, path) => dir_fd_follow_trie dirs cur_trie path
    | (.error e, path) => (.error e, path)

/-- mirrors executor/src/wasi/preview1.rs:1284-1316 -/
def dir_fd_get_trie (fs : FilesTrie) (dir_path : String) (cur_trie : FilesTrie)
    (path : List Name) : Except Error FilesTrie × List Name :=
  if h : dir_path = ".." then
    let goto := path.dropLast
    match dir_fd_follow_trie goto fs goto with
    | (.error e, path) => (.error e, path)
    | (.ok _, path) =>
      -- what was found is dropped, and the component is looked up like any other
      match cur_trie with
      | .file _ => (.error .badf, path)
      | .dir _ => (.error .noent, path)
  else getName ⟨dir_path, h⟩ cur_trie path

/-- `file_path.split("/")`, `part` being the current component backwards. -/
def splitSlash : List Char → List Char → List String
  | part, [] => [String.ofList part.reverse]
  | part, c :: cs =>
    if c = '/' then String.ofList part.reverse :: splitSlash [] cs else splitSlash (c :: part) cs

/-- mirrors executor/src/wasi/preview1.rs:1081-1083 -/
def followNames (fs : FilesTrie) : List String → FilesTrie → List Name →
    Except Error FilesTrie × List Name
  | [], cur_trie, path => (.ok cur_trie, path)
  | fname :: fnames, cur_trie, path =>
    match dir_fd_get_trie fs fname cur_trie path with
    | (.ok cur_trie, path) => followNames fs fnames cur_trie path
    | (.error e, path) => (.error e, path)

/-- What a path opens, from the directory a descriptor stands for.
mirrors executor/src/wasi/preview1.rs:1075-1101 -/
def openTarget (fs : FilesTrie) (v : VFS) (dirfd : Nat) (file_path : String) :
    Except Error FileDescriptor :=
  match v.fds.lookup dirfd with
  | some (.dir dir_path) =>
    match dir_fd_follow_trie dir_path fs dir_path with
    | (.error e, _) => .error e
    | (.ok cur_trie, resulting_path) =>
      match followNames fs (splitSlash [] file_path.toList) cur_trie resulting_path with
      | (.error e, _) => .error e
      | (.ok (.file data), _) => .ok (.file ⟨data, 0, false⟩)
      | (.ok (.dir _), resulting_path) => .ok (.dir resulting_path)
  | _ => .error .badf

/-- `path` is the string in the guest's memory, if it can be read.
mirrors executor/src/wasi/preview1.rs:1059-1106 -/
def path_open (fs : FilesTrie) (v : VFS) (dirfd : Nat) (path : Except Error String) :
    Except Error Nat × VFS :=
  match path with
  | .error e => (.error e, v)
  | .ok file_path =>
    match v.alloc_fd with
    | (.error e, v) => (.error e, v)
    | (.ok new_fd, v) =>
      match openTarget fs v dirfd file_path with
      -- `return` and `?` leave the function: `inspect_err` only sees what the block ends with
      | .error e => (.error e, v)
      | .ok f => (.ok new_fd, v.insertFd new_fd f)

/-! ## Runs -/

inductive Op where
  | place_content (value : FileContents)
  | path_open (dirfd : Nat) (path : Except Error String)
  | fd_close (fd : Nat)
  /-- any other use of the limiter, which the VM's memory and other VMs share -/
  | charge (l : Limiter)

/-- The error a call returned. -/
def failure {α : Type} : Except Error α → Option Error
  | .error e => some e
  | .ok _ => none

/-- One call, and the error it returned. -/
def step (fs : FilesTrie) (v : VFS) : Op → Option (Option Error × VFS)
  | .place_content value =>
    (place_content v value).map fun r => (failure r.1, r.2)
  | .path_open dirfd path =>
    let r := path_open fs v dirfd path
    some (failure r.1, r.2)
  | .fd_close fd => (fd_close v fd).map fun r => (failure r.1, r.2)
  | .charge l => some (none, v.setLimiter l)

/-! ## What a descriptor is -/

namespace VFS

def Open (v : VFS) (fd : Nat) : Prop := v.fds.lookup fd ≠ none

/-- Every descriptor handed out so far is open or free, and not both. -/
structure Conserved (v : VFS) : Prop where
  disjoint : ∀ fd ∈ v.free_descriptors, ¬ v.Open fd
  nodup : v.free_descriptors.Nodup
  handed_out : ∀ fd, v.Open fd ∨ fd ∈ v.free_descriptors ↔ fd ≤ v.next_free_descriptor

/-- Conserved but for `fd`, which is handed out and neither open nor free. -/
structure Taken (v : VFS) (fd : Nat) : Prop where
  closed : ¬ v.Open fd
  not_free : fd ∉ v.free_descriptors
  disjoint : ∀ x ∈ v.free_descriptors, ¬ v.Open x
  nodup : v.free_descriptors.Nodup
  handed_out : ∀ x, v.Open x ∨ x ∈ v.free_descriptors ∨ x = fd ↔ x ≤ v.next_free_descriptor

theorem open_insertFd (v : VFS) (fd : Nat) (d : FileDescriptor) (x : Nat) :
    (v.insertFd fd d).Open x ↔ x = fd ∨ v.Open x := by
  unfold Open
  show (SortedMap.insert (· < ·) fd d v.fds).lookup x ≠ none ↔ _
  rw [SortedMap.lookup_insert SortedMap.nat_order]
  by_cases hx : x = fd <;> simp [hx]

theorem lookup_filter {V : Type} (fd x : Nat) : ∀ es : List (Nat × V),
    (es.filter fun e => e.1 ≠ fd).lookup x = if x = fd then none else es.lookup x
  | [] => by simp
  | (k, w) :: es => by
    have ih := lookup_filter fd x es
    rw [SortedMap.lookup_cons]
    by_cases hk : k = fd
    · rw [List.filter_cons_of_neg (by simpa using hk), ih]
      by_cases hx : x = fd
      · rw [if_pos hx, if_pos hx]
      · rw [if_neg hx, if_neg hx, if_neg fun h => hx (h.trans hk)]
    · rw [List.filter_cons_of_pos (by simpa using hk), SortedMap.lookup_cons, ih]
      by_cases hx : x = fd
      · rw [if_pos hx, if_pos hx, if_neg fun h => hk (h.symm.trans hx)]
      · rw [if_neg hx, if_neg hx]

theorem open_removeFd (v : VFS) (fd x : Nat) : (v.removeFd fd).Open x ↔ x ≠ fd ∧ v.Open x := by
  unfold Open
  show (v.fds.filter fun e => e.1 ≠ fd).lookup x ≠ none ↔ _
  rw [lookup_filter]
  by_cases hx : x = fd <;> simp [hx]

/-- There is room in the table, and a free descriptor or the memory for a new one. -/
def CanAlloc (v : VFS) : Prop :=
  v.fds.length < MAX_FDS ∧
    (v.free_descriptors ≠ [] ∨ FD_ALLOCATION ≤ v.limiter.remaining_memory)

/-- What `alloc_fd` can do: nothing, take the last free descriptor, or pay for a
new one. -/
theorem alloc_fd_cases (v : VFS) :
    (¬ v.CanAlloc ∧ ∃ e, v.alloc_fd = (.error e, v)) ∨
    (v.CanAlloc ∧ ∃ fd free, v.free_descriptors = free ++ [fd] ∧
      v.alloc_fd = (.ok fd, v.setFree free)) ∨
    (v.CanAlloc ∧ v.free_descriptors = [] ∧ ∃ l, l.remaining_memory < v.limiter.remaining_memory ∧
      v.alloc_fd = (.ok (v.next_free_descriptor + 1),
        (v.setLimiter l).setNext (v.next_free_descriptor + 1))) := by
  unfold alloc_fd CanAlloc
  by_cases hlen : MAX_FDS ≤ v.fds.length
  · rw [if_pos hlen]
    exact .inl ⟨fun h => absurd h.1 (Nat.not_lt.mpr hlen), _, rfl⟩
  · rw [if_neg hlen]
    rcases List.eq_nil_or_concat v.free_descriptors with hfree | ⟨free, fd, hfree⟩
    · rw [hfree, List.getLast?_nil]
      dsimp only
      unfold Limiter.consume
      by_cases hmem : v.limiter.remaining_memory < FD_ALLOCATION
      · rw [if_pos hmem]
        refine .inl ⟨fun h => ?_, _, rfl⟩
        rcases h.2 with h | h
        · exact h rfl
        · omega
      · rw [if_neg hmem]
        refine .inr (.inr ⟨⟨by omega, .inr (by omega)⟩, rfl, _, ?_, rfl⟩)
        have : 0 < FD_ALLOCATION := by decide
        dsimp only
        omega
    · rw [hfree, List.concat_eq_append, List.getLast?_concat, List.dropLast_concat]
      exact .inr (.inl ⟨⟨by omega, .inl (by simp)⟩, fd, free, rfl, rfl⟩)

theorem Conserved.alloc {v v' : VFS} {fd : Nat} (h : v.Conserved)
    (ha : v.alloc_fd = (.ok fd, v')) : v'.Taken fd ∧ v'.fds = v.fds := by
  rcases alloc_fd_cases v with ⟨-, e, he⟩ | ⟨-, fd', free, hfree, he⟩ | ⟨-, hfree, l, -, he⟩
  · rw [he] at ha
    cases ha
  · rw [he] at ha
    obtain ⟨hfd, rfl⟩ := Prod.mk.inj ha
    obtain rfl := Except.ok.inj hfd
    obtain ⟨hdisj, hnodup, hhanded⟩ := h
    rw [hfree] at hdisj hnodup hhanded
    have hnot : fd' ∉ free := fun hm =>
      (List.nodup_append.mp hnodup).2.2 fd' hm fd' (List.mem_singleton.mpr rfl) rfl
    refine ⟨⟨hdisj fd' (by simp), hnot, fun x hx => hdisj x (List.mem_append_left _ hx),
      (List.nodup_append.mp hnodup).1, fun x => ?_⟩, rfl⟩
    have hx := hhanded x
    rw [List.mem_append, List.mem_singleton] at hx
    exact hx
  · rw [he] at ha
    obtain ⟨hfd, rfl⟩ := Prod.mk.inj ha
    obtain rfl := Except.ok.inj hfd
    have hopen : ∀ x, v.Open x ↔ x ≤ v.next_free_descriptor := by
      intro x
      have hx := h.handed_out x
      rw [hfree] at hx
      simpa using hx
    have hnil : ((v.setLimiter l).setNext (v.next_free_descriptor + 1)).free_descriptors = [] := hfree
    refine ⟨⟨fun ho => ?_, ?_, ?_, ?_, fun x => ?_⟩, rfl⟩
    · have := (hopen _).mp ho
      omega
    · rw [hnil]
      exact List.not_mem_nil
    · rw [hnil]
      exact fun x hx => absurd hx List.not_mem_nil
    · rw [hnil]
      exact List.nodup_nil
    · have hx := hopen x
      rw [hnil]
      show v.Open x ∨ x ∈ [] ∨ x = v.next_free_descriptor + 1 ↔ x ≤ v.next_free_descriptor + 1
      rw [hx]
      simp only [List.not_mem_nil, false_or]
      omega

/-- A refused allocation takes nothing. -/
theorem alloc_fd_error {v v' : VFS} {e : Error} (ha : v.alloc_fd = (.error e, v')) :
    ¬ v.CanAlloc ∧ v' = v := by
  rcases alloc_fd_cases v with ⟨hcan, e', he⟩ | ⟨-, fd, free, -, he⟩ | ⟨-, -, l, -, he⟩
  · rw [he] at ha
    exact ⟨hcan, (Prod.mk.inj ha).2.symm⟩
  · rw [he] at ha
    cases ha
  · rw [he] at ha
    cases ha

theorem Taken.insert {v : VFS} {fd : Nat} (h : v.Taken fd) (d : FileDescriptor) :
    (v.insertFd fd d).Conserved := by
  refine ⟨fun x hx ho => ?_, h.nodup, fun x => ?_⟩
  · rcases (open_insertFd v fd d x).mp ho with rfl | ho
    · exact h.not_free hx
    · exact h.disjoint x hx ho
  · rw [open_insertFd]
    have hx := h.handed_out x
    show (x = fd ∨ v.Open x) ∨ x ∈ v.free_descriptors ↔ x ≤ v.next_free_descriptor
    rw [← hx]
    tauto

theorem Taken.not_conserved {v : VFS} {fd : Nat} (h : v.Taken fd) : ¬ v.Conserved := by
  intro hc
  have hle := (h.handed_out fd).mp (.inr (.inr rfl))
  rcases (hc.handed_out fd).mpr hle with ho | hf
  · exact h.closed ho
  · exact h.not_free hf

/-- Only the table, the free list and the counter matter. -/
theorem Conserved.setLimiter {v : VFS} (h : v.Conserved) (l : Limiter) :
    (v.setLimiter l).Conserved := ⟨h.disjoint, h.nodup, h.handed_out⟩

theorem Taken.close {v : VFS} {fd : Nat} (h : v.Taken fd) : (v.free_fd fd).Conserved := by
  refine ⟨fun x hx ho => ?_, ?_, fun x => ?_⟩
  · rcases List.mem_append.mp hx with hx | hx
    · exact h.disjoint x hx ho
    · obtain rfl := List.mem_singleton.mp hx
      exact h.closed ho
  · apply List.nodup_append.mpr
    refine ⟨h.nodup, List.nodup_singleton _, fun a ha b hb he => ?_⟩
    rw [List.mem_singleton.mp hb] at he
    exact h.not_free (he ▸ ha)
  · have hx := h.handed_out x
    show v.Open x ∨ x ∈ v.free_descriptors ++ [fd] ↔ _
    rw [List.mem_append, List.mem_singleton]
    exact hx

theorem Conserved.remove {v : VFS} {fd : Nat} (h : v.Conserved) (ho : v.Open fd) (l : Limiter) :
    ((v.removeFd fd).setLimiter l).Taken fd := by
  have hopen : ∀ x, ((v.removeFd fd).setLimiter l).Open x ↔ x ≠ fd ∧ v.Open x := open_removeFd v fd
  refine ⟨fun hx => ((hopen fd).mp hx).1 rfl, fun hf => h.disjoint fd hf ho,
    fun x hx hox => h.disjoint x hx ((hopen x).mp hox).2, h.nodup, fun x => ?_⟩
  have hx := h.handed_out x
  rw [hopen]
  show _ ↔ x ≤ v.next_free_descriptor
  rw [← hx]
  by_cases he : x = fd
  · subst he
    simp [ho]
  · simp [he]
    rfl

end VFS

/-! ## Which paths resolve -/

/-- One component down: `.` and the empty one stay, any other names an entry of
a directory. -/
def descend (t : FilesTrie) (name : String) : Option FilesTrie :=
  if name = "." ∨ name = "" then some t
  else
    match t with
    | .file _ => none
    | .dir children => if h : name = ".." then none else children.lookup ⟨name, h⟩

/-- `dirfd` is an open directory and its path, then the given one, lead somewhere. -/
def Opens (fs : FilesTrie) (v : VFS) (dirfd : Nat) (file_path : String) : Prop :=
  ∃ dir_path : List Name, v.fds.lookup dirfd = some (.dir dir_path) ∧
    ((dir_path.map Subtype.val ++ splitSlash [] file_path.toList).foldlM descend fs).isSome

theorem getName_descend (name : Name) (t : FilesTrie) (path : List Name) :
    (getName name t path).1.toOption = descend t name.1 := by
  unfold getName descend
  split
  · rfl
  · cases t with
    | file data => rfl
    | dir children =>
      dsimp only
      rw [dif_neg name.2]
      cases children.lookup name <;> rfl

theorem dir_fd_get_trie_descend (fs : FilesTrie) (name : String) (t : FilesTrie)
    (path : List Name) : (dir_fd_get_trie fs name t path).1.toOption = descend t name := by
  unfold dir_fd_get_trie
  split
  · next h =>
    subst h
    have hdown : descend t ".." = none := by
      unfold descend
      rw [if_neg (by decide)]
      cases t <;> rfl
    rw [hdown]
    dsimp only
    split
    · rfl
    · cases t <;> rfl
  · next h => exact getName_descend ⟨name, h⟩ t path

theorem follow_descend : ∀ (dirs : List Name) (t : FilesTrie) (path : List Name),
    (dir_fd_follow_trie dirs t path).1.toOption = (dirs.map Subtype.val).foldlM descend t
  | [], t, path => rfl
  | dir :: dirs, t, path => by
    have hone := getName_descend dir t path
    rw [List.map_cons, List.foldlM_cons, ← hone, dir_fd_follow_trie]
    rcases getName dir t path with ⟨_ | t', path'⟩
    · rfl
    · exact follow_descend dirs t' path'

theorem followNames_descend (fs : FilesTrie) : ∀ (names : List String) (t : FilesTrie)
    (path : List Name), (followNames fs names t path).1.toOption = names.foldlM descend t
  | [], t, path => rfl
  | name :: names, t, path => by
    have hone := dir_fd_get_trie_descend fs name t path
    rw [List.foldlM_cons, ← hone, followNames]
    rcases dir_fd_get_trie fs name t path with ⟨_ | t', path'⟩
    · rfl
    · exact followNames_descend fs names t' path'

theorem openTarget_iff (fs : FilesTrie) (v : VFS) (dirfd : Nat) (file_path : String) :
    (∃ f, openTarget fs v dirfd file_path = .ok f) ↔ Opens fs v dirfd file_path := by
  unfold openTarget Opens
  rcases v.fds.lookup dirfd with _ | d
  · simp
  · cases d with
    | dir dir_path =>
      have hdir := follow_descend dir_path fs dir_path
      simp only [Option.some.injEq, FileDescriptor.dir.injEq, exists_eq_left', List.foldlM_append]
      rw [← hdir]
      rcases dir_fd_follow_trie dir_path fs dir_path with ⟨e | t, path⟩
      · simp [Except.toOption]
      · have hnames := followNames_descend fs (splitSlash [] file_path.toList) t path
        show _ ↔ (List.foldlM descend t (splitSlash [] file_path.toList)).isSome
        rw [← hnames]
        dsimp only
        rcases followNames fs (splitSlash [] file_path.toList) t path with ⟨e | t', path'⟩
        · simp [Except.toOption]
        · cases t' <;> simp [Except.toOption]
    | stdin => simp
    | stdout => simp
    | stderr => simp
    | file f => simp

/-! ## Runs -/

theorem place_content_conserved {v v' : VFS} {value : FileContents} {r : Except Error Nat}
    (h : v.Conserved) (hp : place_content v value = some (r, v')) : v'.Conserved := by
  unfold place_content at hp
  generalize (if value.release_memory then v.limiter.consume value.charge else (true, v.limiter)) =
    q at hp
  obtain ⟨charged, l⟩ := q
  cases charged with
  | false =>
    obtain ⟨-, rfl⟩ := Prod.mk.inj (Option.some.inj hp)
    exact h
  | true =>
    have hl : (v.setLimiter l).Conserved := h.setLimiter l
    dsimp only at hp
    rw [if_pos rfl] at hp
    rcases ha : (v.setLimiter l).alloc_fd with ⟨e | fd, v1⟩
    · rw [ha] at hp
      obtain ⟨l', -, hp⟩ := Option.bind_eq_some_iff.mp hp
      obtain ⟨-, rfl⟩ := Prod.mk.inj (Option.some.inj hp)
      obtain ⟨-, rfl⟩ := VFS.alloc_fd_error ha
      exact hl.setLimiter l'
    · rw [ha] at hp
      obtain ⟨-, rfl⟩ := Prod.mk.inj (Option.some.inj hp)
      exact (hl.alloc ha).1.insert _

theorem fd_close_conserved {v v' : VFS} {fd : Nat} {r : Except Error Unit} (h : v.Conserved)
    (hc : fd_close v fd = some (r, v')) : v'.Conserved := by
  obtain ⟨⟨popped, v1⟩, hp, hc⟩ := Option.bind_eq_some_iff.mp hc
  obtain ⟨-, rfl⟩ := Prod.mk.inj (Option.some.inj hc)
  unfold pop_fd at hp
  split at hp
  · obtain ⟨-, rfl⟩ := Prod.mk.inj (Option.some.inj hp)
    exact h
  · next d hd =>
    obtain ⟨l, -, hp⟩ := Option.bind_eq_some_iff.mp hp
    obtain ⟨-, rfl⟩ := Prod.mk.inj (Option.some.inj hp)
    have ho : v.Open fd := by
      unfold VFS.Open
      rw [hd]
      exact Option.some_ne_none d
    exact (h.remove ho l).close

/-- The descriptors and the limiter are as they were. -/
structure Kept (v v' : VFS) : Prop where
  fds : v'.fds = v.fds
  free_descriptors : v'.free_descriptors = v.free_descriptors
  limiter : v'.limiter = v.limiter

/-- A `path_open` that returns an error changes nothing. -/
def ErrorKeeps (op : Op) (r : Option Error) (v v' : VFS) : Prop :=
  ∀ dirfd path, op = .path_open dirfd path → r ≠ none → Kept v v'

/-- A `path_open` that gets a descriptor has something to open. -/
def Fits (fs : FilesTrie) (v : VFS) : Op → Prop
  | .path_open dirfd (.ok file_path) => v.CanAlloc → Opens fs v dirfd file_path
  | _ => True

/-- What `path_open` does with a path it could read. -/
theorem path_open_iff {fs : FilesTrie} {v v' : VFS} {dirfd : Nat} {file_path : String}
    {r : Except Error Nat} (h : v.Conserved)
    (hp : path_open fs v dirfd (.ok file_path) = (r, v')) :
    (v'.Conserved ∧ (failure r ≠ none → Kept v v')) ↔
      (v.CanAlloc → Opens fs v dirfd file_path) := by
  unfold path_open at hp
  dsimp only at hp
  split at hp
  · next e v1 ha =>
    obtain ⟨hcan, rfl⟩ := VFS.alloc_fd_error ha
    obtain ⟨-, rfl⟩ := Prod.mk.inj hp
    exact ⟨fun _ hc => absurd hc hcan, fun _ => ⟨h, fun _ => ⟨rfl, rfl, rfl⟩⟩⟩
  · next fd v1 ha =>
    obtain ⟨htaken, hfds⟩ := h.alloc ha
    have hcan : v.CanAlloc := by
      rcases VFS.alloc_fd_cases v with ⟨-, e', he⟩ | ⟨hcan, -⟩ | ⟨hcan, -⟩
      · rw [he] at ha
        cases ha
      · exact hcan
      · exact hcan
    have hopens : (∃ f, openTarget fs v1 dirfd file_path = .ok f) ↔ Opens fs v dirfd file_path := by
      rw [openTarget_iff]
      unfold Opens
      rw [hfds]
    split at hp
    · next e he =>
      obtain ⟨-, rfl⟩ := Prod.mk.inj hp
      constructor
      · intro ⟨hc, _⟩
        exact absurd hc htaken.not_conserved
      · intro hfit
        obtain ⟨f, hf⟩ := hopens.mpr (hfit hcan)
        rw [he] at hf
        cases hf
    · next f hf =>
      obtain ⟨rfl, rfl⟩ := Prod.mk.inj hp
      constructor
      · exact fun _ _ => hopens.mp ⟨f, hf⟩
      · exact fun _ => ⟨htaken.insert f, fun hne => absurd rfl hne⟩

/-- What one call keeps, and exactly when. -/
theorem step_conserved_iff {fs : FilesTrie} {v v' : VFS} {op : Op} {r : Option Error}
    (h : v.Conserved) (hs : step fs v op = some (r, v')) :
    (v'.Conserved ∧ ErrorKeeps op r v v') ↔ Fits fs v op := by
  cases op with
  | place_content value =>
    obtain ⟨⟨r1, v1⟩, hp, he⟩ := Option.map_eq_some_iff.mp hs
    obtain ⟨-, rfl⟩ := Prod.mk.inj he
    exact ⟨fun _ => trivial,
      fun _ => ⟨place_content_conserved h hp, fun _ _ he => nomatch he⟩⟩
  | fd_close fd =>
    obtain ⟨⟨r1, v1⟩, hc, he⟩ := Option.map_eq_some_iff.mp hs
    obtain ⟨-, rfl⟩ := Prod.mk.inj he
    exact ⟨fun _ => trivial, fun _ => ⟨fd_close_conserved h hc, fun _ _ he => nomatch he⟩⟩
  | charge l =>
    obtain ⟨-, rfl⟩ := Prod.mk.inj (Option.some.inj hs)
    exact ⟨fun _ => trivial, fun _ => ⟨h.setLimiter l, fun _ _ he => nomatch he⟩⟩
  | path_open dirfd path =>
    obtain ⟨hr, hv⟩ := Prod.mk.inj (Option.some.inj hs)
    cases path with
    | error e =>
      obtain rfl := hv
      exact ⟨fun _ => trivial, fun _ => ⟨h, fun _ _ _ _ => ⟨rfl, rfl, rfl⟩⟩⟩
    | ok file_path =>
      rcases hp : path_open fs v dirfd (.ok file_path) with ⟨r1, v1⟩
      rw [hp] at hr hv
      obtain rfl := hv
      obtain rfl := hr
      have hiff := path_open_iff h hp
      refine Iff.trans ?_ hiff
      constructor
      · exact fun ⟨hc, hk⟩ => ⟨hc, hk dirfd (.ok file_path) rfl⟩
      · exact fun ⟨hc, hk⟩ => ⟨hc, fun _ _ _ hne => hk hne⟩

/-- The states that calls reach in which each `path_open` that gets a descriptor
has something to open. -/
inductive Reached (fs : FilesTrie) : VFS → Prop
  | start {v : VFS} (stdin : Bytes) (limiter : Limiter) : VFS.new stdin limiter = .ok v →
      Reached fs v
  | step {v v' : VFS} {r : Option Error} (op : Op) : Reached fs v → Fits fs v op →
      step fs v op = some (r, v') → Reached fs v'

theorem new_conserved {v : VFS} {stdin : Bytes} {limiter : Limiter}
    (h : VFS.new stdin limiter = .ok v) : v.Conserved := by
  unfold VFS.new at h
  dsimp only at h
  split at h
  · obtain rfl := Except.ok.inj h
    refine ⟨fun fd hfd => absurd hfd List.not_mem_nil, List.nodup_nil, fun fd => ?_⟩
    unfold VFS.Open
    simp only [SortedMap.lookup_cons, List.lookup_nil, List.not_mem_nil, or_false]
    by_cases hle : fd ≤ 3
    · interval_cases fd <;> simp
    · rw [if_neg (by omega), if_neg (by omega), if_neg (by omega), if_neg (by omega)]
      exact ⟨fun hn => absurd rfl hn, fun hle' => absurd hle' hle⟩
  · cases h

theorem reached_conserved {fs : FilesTrie} {v : VFS} (h : Reached fs v) : v.Conserved := by
  induction h with
  | start stdin limiter h0 => exact new_conserved h0
  | step op _ hfit hs ih => exact ((step_conserved_iff ih hs).mpr hfit).1

/-- **Descriptors are conserved** in every run whose `path_open`s, once they have
a descriptor, find what they open: what is handed out is open or free and never
both, a new descriptor is not an open one, and a `path_open` that fails changes
nothing. The next call keeps this exactly when it is of that kind too. -/
theorem descriptors_conserved_iff {fs : FilesTrie} {v : VFS} (h : Reached fs v) :
    v.Conserved ∧ (∀ fd v', v.alloc_fd = (.ok fd, v') → ¬ v.Open fd) ∧
    ∀ op r v', step fs v op = some (r, v') →
      ((v'.Conserved ∧ ErrorKeeps op r v v') ↔ Fits fs v op) := by
  have hc := reached_conserved h
  refine ⟨hc, fun fd v' ha ho => ?_, fun op r v' hs => step_conserved_iff hc hs⟩
  obtain ⟨htaken, hfds⟩ := hc.alloc ha
  apply htaken.closed
  unfold VFS.Open at ho ⊢
  rwa [hfds]

theorem a_ne_dotdot : "a" ≠ ".." := by decide

/-- One file, opened and closed again from a fresh table. -/
def oneFile : FilesTrie := .dir [(⟨"a", a_ne_dotdot⟩, .file [1, 2])]

theorem descriptors_conserved_iff_reopened :
    ∃ v, VFS.new [7] Limiter.new = .ok v ∧ ∃ v1, step oneFile v (.path_open 3 (.ok "a")) =
        some (none, v1) ∧ ∃ v2, step oneFile v1 (.fd_close 4) = some (none, v2) ∧
      v2.Conserved ∧ (∀ fd v', v2.alloc_fd = (.ok fd, v') → ¬ v2.Open fd) ∧
      ∀ op r v', step oneFile v2 op = some (r, v') →
        ((v'.Conserved ∧ ErrorKeeps op r v2 v') ↔ Fits oneFile v2 op) := by
  have hfits : Opens oneFile ⟨[(0, .file ⟨[7], 0, true⟩), (1, .stdout), (2, .stderr), (3, .dir [])],
      by simp [SortedMap.Sorted], [], 3, (Limiter.new.consume 1).2⟩ 3 "a" := by
    refine ⟨[], rfl, ?_⟩
    decide
  refine ⟨_, rfl, _, rfl, _, rfl, descriptors_conserved_iff ?_⟩
  exact .step (.fd_close 4) (.step (.path_open 3 (.ok "a")) (.start [7] Limiter.new rfl)
    (fun _ => hfits) rfl) trivial rfl

/-- Opening `a` relative to the standard output: `badf`, and descriptor 4 is gone. -/
theorem path_open_leaks :
    ∃ v, VFS.new [] Limiter.new = .ok v ∧ ∃ v', step oneFile v (.path_open 1 (.ok "a")) =
        some (some .badf, v') ∧ ¬ v'.Conserved ∧ v'.limiter ≠ v.limiter := by
  refine ⟨_, rfl, _, rfl, fun hc => ?_, by decide⟩
  have hfour := (hc.handed_out 4).mpr (by decide)
  revert hfour
  unfold VFS.Open
  decide

end GenVM.Wasi
