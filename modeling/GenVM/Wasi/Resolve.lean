import GenVM.Wasi.Readdir

/-!
# What a path leads to (`executor/src/wasi/preview1.rs`)

A directory descriptor keeps a path from the root. Every use walks that path
again, and opening something below appends to it. `resolve` says what a path
means: `.` and the empty component stay, `..` goes to the parent and stays at
the root, any other name goes to a child.

**Results.**
* `walk_resolve`: without `..` a walk of the code finds what the path means.
* `openAt_up`: a path with `..` ends there in an error.
* `composes_iff`: in a tree, opening through directories is opening the joined
  path exactly when only the root is opened through on the way to a directory,
  and `..` comes only where the path means the error it is refused with.
-/
namespace GenVM.Wasi
open GenVM.Calldata (Bytes)

/-! ## The meaning of a path -/

/-- The way down to a node, innermost first. -/
abbrev Stack := List (Name × FilesTrie)

def Stack.top (fs : FilesTrie) : Stack → FilesTrie
  | [] => fs
  | (_, t) :: _ => t

def Stack.path (stack : Stack) : List Name := (stack.map Prod.fst).reverse

def resolve (fs : FilesTrie) : Stack → List String → Except Error Stack
  | stack, [] => .ok stack
  | stack, name :: names =>
    if name = "." ∨ name = "" then resolve fs stack names
    else if h : name = ".." then resolve fs stack.tail names
    else
      match stack.top fs with
      | .file _ => .error .badf
      | .dir children =>
        match children.lookup ⟨name, h⟩ with
        | none => .error .noent
        | some t => resolve fs ((⟨name, h⟩, t) :: stack) names

theorem resolve_cons (fs : FilesTrie) (stack : Stack) (name : String) (names : List String) :
    resolve fs stack (name :: names) =
      if name = "." ∨ name = "" then resolve fs stack names
      else if h : name = ".." then resolve fs stack.tail names
      else
        match stack.top fs with
        | .file _ => .error .badf
        | .dir children =>
          match children.lookup ⟨name, h⟩ with
          | none => .error .noent
          | some t => resolve fs ((⟨name, h⟩, t) :: stack) names := rfl

/-- The components of a path. -/
def components (path : String) : List String := splitSlash [] path.toList

/-- The components that are a name. -/
def names (path : String) : List String := (components path).filter fun s => s ≠ "." ∧ s ≠ ""

/-- `p1/p2/..` -/
def slash : List String → String
  | [] => ""
  | [p] => p
  | p :: q :: ps => p ++ "/" ++ slash (q :: ps)

theorem splitSlash_cons (part : List Char) (c : Char) (cs : List Char) :
    splitSlash part (c :: cs) =
      if c = '/' then String.ofList part.reverse :: splitSlash [] cs
      else splitSlash (c :: part) cs := rfl

theorem splitSlash_append (a b : List Char) : ∀ part : List Char,
    splitSlash part (a ++ '/' :: b) = splitSlash part a ++ splitSlash [] b := by
  induction a with
  | nil =>
    intro part
    rfl
  | cons c a ih =>
    intro part
    rw [List.cons_append, splitSlash_cons, splitSlash_cons]
    split
    · rw [ih, List.cons_append]
    · exact ih (c :: part)

theorem components_slash : ∀ (ps : List String) (p : String),
    components (slash (ps ++ [p])) = (ps ++ [p]).flatMap components := by
  intro ps
  induction ps with
  | nil =>
    intro p
    simp [slash]
  | cons q ps ih =>
    intro p
    have hslash : slash ((q :: ps) ++ [p]) = q ++ "/" ++ slash (ps ++ [p]) := by
      cases ps <;> rfl
    rw [hslash, List.cons_append, List.flatMap_cons, ← ih p]
    unfold components
    rw [String.toList_append, String.toList_append, List.append_assoc]
    exact splitSlash_append _ _ _

/-! ## The walks of the code -/

/-- What `path_open` reaches from the directory with a given path, and the path
it builds. -/
def openAt (fs : FilesTrie) (dir_path : List Name) (file_path : String) :
    Except Error (FilesTrie × List Name) :=
  match dir_fd_follow_trie dir_path fs dir_path with
  | (.error e, _) => .error e
  | (.ok cur_trie, resulting_path) =>
    match followNames fs (components file_path) cur_trie resulting_path with
    | (.error e, _) => .error e
    | (.ok cur_trie, resulting_path) => .ok (cur_trie, resulting_path)

/-- The descriptor of what was reached. -/
def descriptor : FilesTrie × List Name → FileDescriptor
  | (.file data, _) => .file ⟨data, 0, false⟩
  | (.dir _, path) => .dir path

theorem openTarget_eq {fs : FilesTrie} {v : VFS} {dirfd : Nat} {dir_path : List Name}
    (h : v.fds.lookup dirfd = some (.dir dir_path)) (file_path : String) :
    openTarget fs v dirfd file_path = (openAt fs dir_path file_path).map descriptor := by
  unfold openTarget openAt components
  rw [h]
  dsimp only
  rcases dir_fd_follow_trie dir_path fs dir_path with ⟨e | t, path⟩
  · rfl
  · dsimp only
    rcases followNames fs (splitSlash [] file_path.toList) t path with ⟨e | t', path'⟩
    · rfl
    · cases t' <;> rfl

structure Filestat where
  filetype : Filetype
  size : Nat
  deriving DecidableEq

/-- mirrors executor/src/wasi/preview1.rs:1001-1024 -/
def filestat : FilesTrie → Filestat
  | .file data => ⟨.regular_file, data.length⟩
  | .dir _ => ⟨.directory, 0⟩

/-- mirrors executor/src/wasi/preview1.rs:981-1026 -/
def path_filestat_get (fs : FilesTrie) (v : VFS) (dirfd : Nat) (path : String) :
    Except Error Filestat :=
  match v.fds.lookup dirfd with
  | some (.dir dir_path) =>
    match dir_fd_follow_trie dir_path fs dir_path with
    | (.error e, _) => .error e
    | (.ok cur_trie, result_path) =>
      match followNames fs (splitSlash [] path.toList) cur_trie result_path with
      | (.error e, _) => .error e
      | (.ok cur_trie, _) => .ok (filestat cur_trie)
  | _ => .error .badf

theorem path_filestat_get_eq {fs : FilesTrie} {v : VFS} {dirfd : Nat} {dir_path : List Name}
    (h : v.fds.lookup dirfd = some (.dir dir_path)) (path : String) :
    path_filestat_get fs v dirfd path = (openAt fs dir_path path).map fun r => filestat r.1 := by
  unfold path_filestat_get openAt components
  rw [h]
  dsimp only
  rcases dir_fd_follow_trie dir_path fs dir_path with ⟨e | t, path'⟩
  · rfl
  · dsimp only
    rcases followNames fs (splitSlash [] path.toList) t path' with ⟨e | t', path''⟩ <;> rfl

/-- Without `..`, a walk finds what the path means and appends its names to the
path it was given. -/
theorem walk_resolve (fs : FilesTrie) (pre : List Name) : ∀ (ns : List String) (stack : Stack),
    ".." ∉ ns →
    (∃ st, resolve fs stack ns = .ok st ∧
      followNames fs ns (stack.top fs) (pre ++ stack.path) = (.ok (st.top fs), pre ++ st.path)) ∨
    (∃ e path, resolve fs stack ns = .error e ∧
      followNames fs ns (stack.top fs) (pre ++ stack.path) = (.error e, path)) := by
  intro ns
  induction ns with
  | nil =>
    intro stack _
    exact .inl ⟨stack, rfl, rfl⟩
  | cons name ns ih =>
    intro stack hno
    have hname : name ≠ ".." := fun h => hno (h ▸ List.mem_cons_self)
    have hrest : ".." ∉ ns := fun h => hno (List.mem_cons_of_mem _ h)
    unfold resolve followNames dir_fd_get_trie getName
    rw [dif_neg hname, dif_neg hname]
    dsimp only
    by_cases hdot : name = "." ∨ name = ""
    · rw [if_pos hdot, if_pos hdot]
      exact ih stack hrest
    · rw [if_neg hdot, if_neg hdot]
      cases htop : stack.top fs with
      | file data => exact .inr ⟨_, _, rfl, rfl⟩
      | dir children =>
        dsimp only
        cases hl : children.lookup ⟨name, hname⟩ with
        | none => exact .inr ⟨_, _, rfl, rfl⟩
        | some t =>
          dsimp only
          have hpath : pre ++ stack.path ++ [⟨name, hname⟩] =
              pre ++ Stack.path ((⟨name, hname⟩, t) :: stack) := by
            unfold Stack.path
            rw [List.map_cons, List.reverse_cons, List.append_assoc]
          rw [hpath]
          exact ih ((⟨name, hname⟩, t) :: stack) hrest

/-- A path with `..` is never walked to its end. -/
theorem walk_dotdot (fs : FilesTrie) {ns : List String} (h : ".." ∈ ns) (t : FilesTrie)
    (path : List Name) : ∃ e, (followNames fs ns t path).1 = .error e := by
  have hnone : ns.foldlM descend t = none := by
    induction ns generalizing t with
    | nil => cases h
    | cons name ns ih =>
      rw [List.foldlM_cons]
      rcases List.mem_cons.mp h with hn | hm
      · subst hn
        have hdown : descend t ".." = none := by
          unfold descend
          rw [if_neg (by decide)]
          cases t <;> rfl
        rw [hdown]
        rfl
      · cases descend t name with
        | none => rfl
        | some t' => exact ih hm t'
  have hwalk := followNames_descend fs ns t path
  rw [hnone] at hwalk
  cases hres : (followNames fs ns t path).1 with
  | error e => exact ⟨e, rfl⟩
  | ok t' =>
    rw [hres] at hwalk
    cases hwalk

theorem openAt_dotdot (fs : FilesTrie) (dir_path : List Name) {path : String}
    (h : ".." ∈ components path) : ∃ e, openAt fs dir_path path = .error e := by
  unfold openAt
  rcases dir_fd_follow_trie dir_path fs dir_path with ⟨e | t, path'⟩
  · exact ⟨e, rfl⟩
  · obtain ⟨e, he⟩ := walk_dotdot fs h t path'
    dsimp only
    rcases hw : followNames fs (components path) t path' with ⟨e' | t', path''⟩
    · exact ⟨e', rfl⟩
    · rw [hw] at he
      cases he

/-- From a directory that is reached by its path, without `..`: the path is
walked to what it means, and the directory's own path is kept twice. -/
theorem openAt_stack {fs : FilesTrie} {stack : Stack} {path : String}
    (hfollow : dir_fd_follow_trie stack.path fs stack.path = (.ok (stack.top fs), stack.path ++ stack.path))
    (h : ".." ∉ components path) :
    openAt fs stack.path path =
      (resolve fs stack (components path)).map fun st => (st.top fs, stack.path ++ st.path) := by
  unfold openAt
  rw [hfollow]
  dsimp only
  rcases walk_resolve fs stack.path (components path) stack h with ⟨st, hr, hw⟩ | ⟨e, p, hr, hw⟩
  · rw [hr, hw]
    rfl
  · rw [hr, hw]
    rfl

/-! ## A stack is the walk of its path -/

theorem follow_cons (dir : Name) (dirs : List Name) (t : FilesTrie) (path : List Name) :
    dir_fd_follow_trie (dir :: dirs) t path =
      match getName dir t path with
      | (.ok t, path) => dir_fd_follow_trie dirs t path
      | (.error e, path) => (.error e, path) := rfl

theorem follow_append (a b : List Name) (t : FilesTrie) (path : List Name) :
    dir_fd_follow_trie (a ++ b) t path =
      match dir_fd_follow_trie a t path with
      | (.ok t, path) => dir_fd_follow_trie b t path
      | (.error e, path) => (.error e, path) := by
  induction a generalizing t path with
  | nil => rfl
  | cons x a ih =>
    rw [List.cons_append, follow_cons, follow_cons]
    rcases getName x t path with ⟨e | t', path'⟩
    · rfl
    · exact ih t' path'

/-- Walking the names of the stack from the root leads to its top. -/
def Stack.Walked (fs : FilesTrie) (stack : Stack) : Prop :=
  ∀ path, dir_fd_follow_trie stack.path fs path = (.ok (stack.top fs), path ++ stack.path)

theorem walked_nil (fs : FilesTrie) : Stack.Walked fs [] := by
  intro path
  exact congrArg (fun p => (Except.ok fs, p)) (List.append_nil path).symm

theorem Stack.Walked.cons {fs : FilesTrie} {stack : Stack} (h : stack.Walked fs) {name : Name}
    {t : FilesTrie} {children : List (Name × FilesTrie)} (hname : ¬ (name.1 = "." ∨ name.1 = ""))
    (htop : stack.top fs = .dir children) (hl : children.lookup name = some t) :
    Stack.Walked fs ((name, t) :: stack) := by
  intro path
  have hpath : Stack.path ((name, t) :: stack) = stack.path ++ [name] := by
    unfold Stack.path
    rw [List.map_cons, List.reverse_cons]
  rw [hpath, follow_append, h path]
  dsimp only
  rw [follow_cons]
  unfold getName
  rw [if_neg hname, htop]
  dsimp only
  rw [hl, ← List.append_assoc]
  rfl

/-- Every prefix of a stack is walked by its path, and what lies on it are the
nodes on the way. -/
theorem resolve_walked (fs : FilesTrie) : ∀ (ns : List String) (stack st : Stack), ".." ∉ ns →
    stack.Walked fs → resolve fs stack ns = .ok st → st.Walked fs := by
  intro ns
  induction ns with
  | nil =>
    intro stack st _ hw hr
    obtain rfl := Except.ok.inj hr
    exact hw
  | cons name ns ih =>
    intro stack st hno hw hr
    have hname : name ≠ ".." := fun h => hno (h ▸ List.mem_cons_self)
    have hrest : ".." ∉ ns := fun h => hno (List.mem_cons_of_mem _ h)
    unfold resolve at hr
    split at hr
    · exact ih stack st hrest hw hr
    · rename_i hdot
      split at hr
      · cases hr
      · rename_i children htop
        split at hr
        · cases hr
        · rename_i t hl
          exact ih _ st hrest (hw.cons hdot htop hl) hr

/-! ## Opening through directories -/

/-- A descriptor with path `dir_path` was opened from the root through `ps`, one
after the other. -/
inductive Opened (fs : FilesTrie) : List String → List Name → Prop
  | root : Opened fs [] []
  | dir {ps : List String} {p : String} {dir_path path : List Name}
      {children : List (Name × FilesTrie)} (h : Opened fs ps dir_path)
      (hopen : openAt fs dir_path p = .ok (.dir children, path)) : Opened fs (ps ++ [p]) path

/-- Opening, asking for and listing `p` below a directory that was opened through
`qs` is what the joined path says from the root. -/
structure Composes (fs : FilesTrie) (qs : List String) (p : String) (dir_path : List Name) :
    Prop where
  same : ∀ v d r, v.fds.lookup d = some (.dir dir_path) → v.fds.lookup r = some (.dir []) →
    openTarget fs v d p = openTarget fs v r (slash (qs ++ [p]))
  resolves : ∀ v r, v.fds.lookup r = some (.dir []) → openTarget fs v r (slash (qs ++ [p])) =
    (resolve fs [] ((qs ++ [p]).flatMap components)).map fun st => descriptor (st.top fs, st.path)
  stat : ∀ v d, v.fds.lookup d = some (.dir dir_path) → path_filestat_get fs v d p =
    (resolve fs [] ((qs ++ [p]).flatMap components)).map fun st => filestat (st.top fs)
  readdir : ∀ v d path st children, openTarget fs v d p = .ok (.dir path) →
    v.fds.lookup d = some (.dir dir_path) →
    resolve fs [] ((qs ++ [p]).flatMap components) = .ok st → st.top fs = .dir children →
    ∀ v' d', v'.fds.lookup d' = some (.dir path) → Stands fs v' d' children

/-- From the root, without `..`, the code does what the path means. -/
theorem openAt_root (fs : FilesTrie) {path : String} (h : ".." ∉ components path) :
    openAt fs [] path =
      (resolve fs [] (components path)).map fun st => (st.top fs, st.path) :=
  @openAt_stack fs [] path (walked_nil fs []) h

theorem resolve_append (fs : FilesTrie) (a b : List String) : ∀ stack : Stack,
    resolve fs stack (a ++ b) = (resolve fs stack a).bind fun st => resolve fs st b := by
  induction a with
  | nil => exact fun stack => rfl
  | cons s a ih =>
    intro stack
    rw [List.cons_append, resolve_cons, resolve_cons]
    split
    · exact ih stack
    · split
      · exact ih stack.tail
      · split
        · rfl
        · split
          · rfl
          · exact ih _

/-- From a file, only `.` and the empty component lead anywhere. -/
theorem resolve_file {fs : FilesTrie} {stack : Stack} {data : Bytes}
    (htop : stack.top fs = .file data) : ∀ {ns : List String} {st : Stack}, ".." ∉ ns →
    resolve fs stack ns = .ok st → st = stack := by
  intro ns
  induction ns with
  | nil =>
    intro st _ hr
    exact (Except.ok.inj hr).symm
  | cons s ns ih =>
    intro st hno hr
    have hup : s ≠ ".." := fun h => hno (h ▸ List.mem_cons_self)
    rw [resolve_cons, dif_neg hup, htop] at hr
    split at hr
    · exact ih (fun h => hno (List.mem_cons_of_mem _ h)) hr
    · cases hr

/-! ## Walking up -/

theorem followNames_cons (fs : FilesTrie) (name : String) (ns : List String) (t : FilesTrie)
    (path : List Name) :
    followNames fs (name :: ns) t path =
      match dir_fd_get_trie fs name t path with
      | (.ok t, path) => followNames fs ns t path
      | (.error e, path) => (.error e, path) := rfl

theorem followNames_append (fs : FilesTrie) (a b : List String) : ∀ (t : FilesTrie) (path : List Name),
    followNames fs (a ++ b) t path =
      match followNames fs a t path with
      | (.ok t, path) => followNames fs b t path
      | (.error e, path) => (.error e, path) := by
  induction a with
  | nil => exact fun t path => rfl
  | cons name a ih =>
    intro t path
    rw [List.cons_append, followNames_cons, followNames_cons]
    rcases dir_fd_get_trie fs name t path with ⟨e | t', path'⟩
    · rfl
    · exact ih t' path'

/-- A directory's path is walked like any path. -/
theorem followNames_map (fs : FilesTrie) : ∀ (dirs : List Name) (t : FilesTrie) (path : List Name),
    followNames fs (dirs.map Subtype.val) t path = dir_fd_follow_trie dirs t path := by
  intro dirs
  induction dirs with
  | nil => exact fun t path => rfl
  | cons dir dirs ih =>
    intro t path
    rw [List.map_cons, follow_cons, followNames_cons]
    unfold dir_fd_get_trie
    rw [dif_neg dir.2]
    rcases getName dir t path with ⟨e | t', path'⟩
    · rfl
    · exact ih t' path'

/-- Walking a directory's path from the root finds what it means. -/
theorem follow_resolve (fs : FilesTrie) (dirs path : List Name) :
    (∃ t path', dir_fd_follow_trie dirs fs path = (.ok t, path') ∧
      ∃ st, resolve fs [] (dirs.map Subtype.val) = .ok st) ∨
    ∃ e path', dir_fd_follow_trie dirs fs path = (.error e, path') ∧
      resolve fs [] (dirs.map Subtype.val) = .error e := by
  have hno : ".." ∉ dirs.map Subtype.val := by
    intro h
    obtain ⟨dir, -, hdir⟩ := List.mem_map.mp h
    exact dir.2 hdir
  rw [← followNames_map fs dirs fs path]
  rcases walk_resolve fs path (dirs.map Subtype.val) [] hno with ⟨st, hr, hw⟩ | ⟨e, p, hr, hw⟩
  · have hpath : path ++ Stack.path [] = path := List.append_nil path
    rw [hpath] at hw
    exact .inl ⟨_, _, hw, st, hr⟩
  · have hpath : path ++ Stack.path [] = path := List.append_nil path
    rw [hpath] at hw
    exact .inr ⟨e, p, hw, hr⟩

/-- What a node answers to a name it has no entry for. -/
def refusal : FilesTrie → Error
  | .file _ => .badf
  | .dir _ => .noent

/-- What `..` at `st` is refused with below the directory at `stack`: the path of
the directory is there twice, and what lies above its end is walked first. -/
def upError (fs : FilesTrie) (stack st : Stack) : Error :=
  match resolve fs [] ((stack.path ++ st.path).dropLast.map Subtype.val) with
  | .error e => e
  | .ok _ => refusal (st.top fs)

/-- A path with `..` ends there in an error, if it gets there. -/
theorem openAt_up {fs : FilesTrie} {stack : Stack} {path : String} {pre post : List String}
    (hwalked : stack.Walked fs) (hpath : components path = pre ++ ".." :: post) (hpre : ".." ∉ pre) :
    openAt fs stack.path path = (resolve fs stack pre).bind fun st => .error (upError fs stack st) := by
  unfold openAt
  rw [hwalked stack.path, hpath]
  dsimp only
  rw [followNames_append]
  rcases walk_resolve fs stack.path pre stack hpre with ⟨st, hr, hw⟩ | ⟨e, p, hr, hw⟩
  · rw [hr, hw]
    dsimp only
    rw [followNames_cons]
    unfold dir_fd_get_trie
    rw [dif_pos rfl]
    dsimp only [Except.bind]
    unfold upError
    rcases follow_resolve fs (stack.path ++ st.path).dropLast (stack.path ++ st.path).dropLast with
      ⟨t, p, hf, st', hr'⟩ | ⟨e, p, hf, hr'⟩
    · rw [hf, hr']
      dsimp only
      cases st.top fs <;> rfl
    · rw [hf, hr']
  · rw [hr, hw]
    rfl

/-- What lies above the end of a walked path is walked as well. -/
theorem Stack.Walked.above {fs : FilesTrie} {stack : Stack} (h : stack.Walked fs) :
    upError fs [] stack = refusal (stack.top fs) := by
  unfold upError
  have hroot : Stack.path [] ++ stack.path = stack.path := rfl
  rw [hroot]
  rcases follow_resolve fs stack.path.dropLast [] with ⟨t, p, -, st, hr⟩ | ⟨e, p, hf, hr⟩
  · rw [hr]
  · have hwalk := h []
    rcases List.eq_nil_or_concat' stack.path with hnil | ⟨dirs, dir, hdirs⟩
    · rw [hnil] at hf
      cases hf
    · rw [hdirs, List.dropLast_concat] at hf
      rw [hdirs, follow_append, hf] at hwalk
      cases hwalk

/-! ## When opens compose -/

/-- A table with the root and one more directory. -/
def twoDirs (dir_path : List Name) : VFS :=
  ⟨[(3, .dir []), (4, .dir dir_path)], by simp [Lib.SortedMap.Sorted], [], 4, Limiter.new⟩

/-- `p` below the directory at `stack` is opened as what it means. -/
structure Below (fs : FilesTrie) (stack : Stack) (p : String) : Prop where
  /-- a directory is only reached from the root -/
  dir : ".." ∉ components p → ∀ st children, resolve fs stack (components p) = .ok st →
    st.top fs = .dir children → stack = []
  /-- where `..` is reached, the path means the error that `..` is refused with -/
  up : ∀ pre post st, components p = pre ++ ".." :: post → ".." ∉ pre →
    resolve fs stack pre = .ok st →
    resolve fs st (".." :: post) = .error (refusal (st.top fs)) ∧
      ∀ e, resolve fs [] ((stack.path ++ st.path).dropLast.map Subtype.val) = .error e →
        e = refusal (st.top fs)

/-- The directory that `qs` lead to from the root. -/
structure Leads (fs : FilesTrie) (qs : List String) (stack : Stack) : Prop where
  plain : ∀ q ∈ qs, ".." ∉ components q
  found : resolve fs [] (qs.flatMap components) = .ok stack
  dir : qs ≠ [] → ∃ children, stack.top fs = .dir children

theorem Leads.no_dotdot {fs : FilesTrie} {qs : List String} {stack : Stack} (h : Leads fs qs stack) :
    ".." ∉ qs.flatMap components := by
  intro hm
  obtain ⟨q, hq, hd⟩ := List.mem_flatMap.mp hm
  exact h.plain q hq hd

theorem Leads.walked {fs : FilesTrie} {qs : List String} {stack : Stack} (h : Leads fs qs stack) :
    stack.Walked fs :=
  resolve_walked fs _ [] stack h.no_dotdot (walked_nil fs) h.found

/-- The joined path from the root means what `p` means below the directory. -/
theorem Leads.joined {fs : FilesTrie} {qs : List String} {stack : Stack} (h : Leads fs qs stack)
    (p : String) : resolve fs [] ((qs ++ [p]).flatMap components) = resolve fs stack (components p) := by
  rw [List.flatMap_append, List.flatMap_singleton, resolve_append, h.found]
  rfl

/-- What opening `p` below the directory gives, and what opening the joined path
from the root gives. -/
theorem Leads.opens {fs : FilesTrie} {qs : List String} {stack : Stack} (h : Leads fs qs stack)
    {p : String} (hno : ".." ∉ components p) :
    openAt fs stack.path p =
        (resolve fs stack (components p)).map (fun st => (st.top fs, stack.path ++ st.path)) ∧
      openAt fs [] (slash (qs ++ [p])) =
        (resolve fs stack (components p)).map fun st => (st.top fs, st.path) := by
  refine ⟨openAt_stack (h.walked stack.path) hno, ?_⟩
  have hall : ".." ∉ (qs ++ [p]).flatMap components := by
    rw [List.flatMap_append, List.flatMap_singleton, List.mem_append]
    exact fun hor => hor.elim h.no_dotdot hno
  rw [openAt_root fs (by rw [components_slash]; exact hall), components_slash, h.joined]

theorem Leads.opens_up {fs : FilesTrie} {qs : List String} {stack : Stack} (h : Leads fs qs stack)
    {p : String} {pre post : List String} (hp : components p = pre ++ ".." :: post)
    (hpre : ".." ∉ pre) :
    openAt fs stack.path p =
        (resolve fs stack pre).bind (fun st => .error (upError fs stack st)) ∧
      openAt fs [] (slash (qs ++ [p])) =
        (resolve fs stack pre).bind fun st => .error (refusal (st.top fs)) := by
  refine ⟨openAt_up h.walked hp hpre, ?_⟩
  have hcomp : components (slash (qs ++ [p])) = (qs.flatMap components ++ pre) ++ ".." :: post := by
    rw [components_slash, List.flatMap_append, List.flatMap_singleton, hp, List.append_assoc]
  have hall : ".." ∉ qs.flatMap components ++ pre := by
    rw [List.mem_append]
    exact fun hor => hor.elim h.no_dotdot hpre
  have hroot := openAt_up (walked_nil fs) hcomp hall
  rw [resolve_append, h.found] at hroot
  refine hroot.trans ?_
  show (resolve fs stack pre).bind _ = _
  cases hr : resolve fs stack pre with
  | error e => rfl
  | ok st =>
    have hwalked := resolve_walked fs pre stack st hpre h.walked hr
    exact congrArg Except.error hwalked.above

/-- One error is a result of opens, whatever they lead to otherwise. -/
theorem composes_error {fs : FilesTrie} {qs : List String} {p : String} {dir_path : List Name}
    {e : Error} (hd : openAt fs dir_path p = .error e)
    (hr : openAt fs [] (slash (qs ++ [p])) = .error e)
    (hres : resolve fs [] ((qs ++ [p]).flatMap components) = .error e) :
    Composes fs qs p dir_path := by
  constructor
  · intro v d r hd' hr'
    rw [openTarget_eq hd', openTarget_eq hr', hd, hr]
  · intro v r hr'
    rw [openTarget_eq hr', hr, hres]
    rfl
  · intro v d hd'
    rw [path_filestat_get_eq hd', hd, hres]
    rfl
  · intro v d path st children hopen hd' hst
    rw [hres] at hst
    cases hst

/-- Without `..`, opening below the directory composes unless a directory is
reached from another one than the root. -/
theorem composes_plain {fs : FilesTrie} {qs : List String} {stack : Stack} (h : Leads fs qs stack)
    {p : String} (hno : ".." ∉ components p) :
    Composes fs qs p stack.path ↔ ∀ st children, resolve fs stack (components p) = .ok st →
      st.top fs = .dir children → stack = [] := by
  obtain ⟨hd, hr⟩ := h.opens hno
  cases hres : resolve fs stack (components p) with
  | error e =>
    rw [hres] at hd hr
    exact ⟨fun _ st children hst => (nomatch hst),
      fun _ => composes_error hd hr ((h.joined p).trans hres)⟩
  | ok st =>
    rw [hres] at hd hr
    have hwalked := resolve_walked fs _ stack st hno h.walked hres
    constructor
    · intro hcomp st' children hst htop
      obtain rfl := Except.ok.inj hst
      have hsame := hcomp.same (twoDirs stack.path) 4 3 rfl rfl
      rw [@openTarget_eq _ _ _ stack.path rfl, @openTarget_eq _ _ _ [] rfl, hd, hr] at hsame
      have hdesc : descriptor (st.top fs, stack.path ++ st.path) = descriptor (st.top fs, st.path) :=
        Except.ok.inj hsame
      rw [htop] at hdesc
      have hlen := congrArg List.length (FileDescriptor.dir.inj hdesc)
      unfold Stack.path at hlen
      rw [List.length_append, List.length_reverse, List.length_map] at hlen
      exact List.eq_nil_of_length_eq_zero (by omega)
    · intro hroot
      have hdesc : descriptor (st.top fs, stack.path ++ st.path) = descriptor (st.top fs, st.path) := by
        cases htop : st.top fs with
        | file data => rfl
        | dir children =>
          rw [hroot st children rfl htop]
          rfl
      constructor
      · intro v d r hd' hr'
        rw [openTarget_eq hd', openTarget_eq hr', hd, hr]
        exact congrArg Except.ok hdesc
      · intro v r hr'
        rw [openTarget_eq hr', hr, h.joined, hres]
        rfl
      · intro v d hd'
        rw [path_filestat_get_eq hd', hd, h.joined, hres]
        rfl
      · intro v d path st' children hopen hd' hst htop v' d' hd''
        rw [h.joined, hres] at hst
        obtain rfl := Except.ok.inj hst
        rw [openTarget_eq hd', hd] at hopen
        have hpath : descriptor (st.top fs, stack.path ++ st.path) = .dir path :=
          Except.ok.inj hopen
        rw [hdesc, htop] at hpath
        refine ⟨path, hd'', ?_⟩
        rw [← FileDescriptor.dir.inj hpath, hwalked [], htop]

/-- A path that reaches `..` composes exactly where it means what `..` is refused
with, above the node itself and above the path that is there twice. -/
theorem composes_up {fs : FilesTrie} {qs : List String} {stack st : Stack} (h : Leads fs qs stack)
    {p : String} {pre post : List String} (hp : components p = pre ++ ".." :: post)
    (hpre : ".." ∉ pre) (hst : resolve fs stack pre = .ok st) :
    Composes fs qs p stack.path ↔
      resolve fs st (".." :: post) = .error (refusal (st.top fs)) ∧
        upError fs stack st = refusal (st.top fs) := by
  obtain ⟨hd, hr⟩ := h.opens_up hp hpre
  rw [hst] at hd hr
  dsimp only [Except.bind] at hd hr
  have hres : resolve fs [] ((qs ++ [p]).flatMap components) = resolve fs st (".." :: post) := by
    rw [h.joined, hp, resolve_append, hst]
    rfl
  constructor
  · intro hcomp
    have hsame := hcomp.same (twoDirs stack.path) 4 3 rfl rfl
    have hroot := hcomp.resolves (twoDirs stack.path) 3 rfl
    rw [@openTarget_eq _ _ _ stack.path rfl, @openTarget_eq _ _ _ [] rfl, hd, hr] at hsame
    rw [@openTarget_eq _ _ _ [] rfl, hr, hres] at hroot
    constructor
    · cases hup : resolve fs st (".." :: post) with
      | error e =>
        rw [hup] at hroot
        exact congrArg Except.error (Except.error.inj hroot).symm
      | ok st' =>
        rw [hup] at hroot
        cases hroot
    · exact Except.error.inj hsame
  · intro hcond
    obtain ⟨hup, herr⟩ := hcond
    rw [herr] at hd
    exact composes_error hd hr (hres.trans hup)

theorem upError_eq {fs : FilesTrie} {stack st : Stack} :
    upError fs stack st = refusal (st.top fs) ↔
      ∀ e, resolve fs [] ((stack.path ++ st.path).dropLast.map Subtype.val) = .error e →
        e = refusal (st.top fs) := by
  unfold upError
  cases resolve fs [] ((stack.path ++ st.path).dropLast.map Subtype.val) <;> simp

/-- Opening below the directory composes exactly under the condition. -/
theorem composes_below {fs : FilesTrie} {qs : List String} {stack : Stack} (h : Leads fs qs stack)
    (p : String) : Composes fs qs p stack.path ↔ Below fs stack p := by
  by_cases hno : ".." ∈ components p
  · constructor
    · intro hcomp
      refine ⟨fun hn => absurd hno hn, fun pre post st hp hpre hst => ?_⟩
      obtain ⟨hup, herr⟩ := (composes_up h hp hpre hst).mp hcomp
      exact ⟨hup, upError_eq.mp herr⟩
    · intro hbelow
      obtain ⟨pre, post, hp, hpre⟩ := List.eq_append_cons_of_mem hno
      cases hst : resolve fs stack pre with
      | ok st =>
        obtain ⟨hup, herr⟩ := hbelow.up pre post st hp hpre hst
        exact (composes_up h hp hpre hst).mpr ⟨hup, upError_eq.mpr herr⟩
      | error e =>
        obtain ⟨hd, hr⟩ := h.opens_up hp hpre
        rw [hst] at hd hr
        refine composes_error hd hr ?_
        rw [h.joined, hp, resolve_append, hst]
        rfl
  · rw [composes_plain h hno]
    refine ⟨fun hroot => ⟨fun _ => hroot, fun pre post st hp => ?_⟩, fun hbelow => hbelow.dir hno⟩
    exact absurd (by rw [hp]; simp) hno

/-- The condition on opening `p` after `qs`. -/
def Meets (fs : FilesTrie) (qs : List String) (p : String) : Prop :=
  ∀ stack, Leads fs qs stack → Below fs stack p

theorem leads_nil (fs : FilesTrie) : Leads fs [] [] :=
  ⟨fun _ hq => absurd hq List.not_mem_nil, rfl, fun hne => absurd rfl hne⟩

/-- Opening one more directory where the condition holds. -/
theorem Leads.step {fs : FilesTrie} {qs : List String} {stack : Stack} (h : Leads fs qs stack)
    {p : String} (hbelow : Below fs stack p) {children : List (Name × FilesTrie)} {path : List Name}
    (hopen : openAt fs stack.path p = .ok (.dir children, path)) :
    ∃ st, Leads fs (qs ++ [p]) st ∧ path = st.path := by
  by_cases hno : ".." ∈ components p
  · obtain ⟨e, he⟩ := openAt_dotdot fs stack.path hno
    rw [he] at hopen
    cases hopen
  · obtain ⟨hd, -⟩ := h.opens hno
    rw [hd] at hopen
    cases hres : resolve fs stack (components p) with
    | error e =>
      rw [hres] at hopen
      cases hopen
    | ok st =>
      rw [hres] at hopen
      obtain ⟨htop, hpath⟩ := Prod.mk.inj (Except.ok.inj hopen)
      refine ⟨st, ⟨?_, (h.joined p).trans hres, fun _ => ⟨children, htop⟩⟩, ?_⟩
      · intro q hq
        rcases List.mem_append.mp hq with hq | hq
        · exact h.plain q hq
        · rw [List.mem_singleton.mp hq]
          exact hno
      · rw [← hpath, hbelow.dir hno st children hres htop]
        rfl

/-- Under the condition a directory that was opened is the one its paths lead to. -/
theorem opened_leads {fs : FilesTrie} {ps : List String} {dir_path : List Name}
    (h : Opened fs ps dir_path) : (∀ qs p, qs ++ [p] <+: ps → Meets fs qs p) →
    ∃ stack, Leads fs ps stack ∧ dir_path = stack.path := by
  induction h with
  | root => exact fun _ => ⟨[], leads_nil fs, rfl⟩
  | @dir ps p dir_path path children h hopen ih =>
    intro hmeets
    obtain ⟨stack, hleads, rfl⟩ := ih fun qs q hq =>
      hmeets qs q (hq.trans (List.prefix_append ps [p]))
    exact hleads.step (hmeets ps p List.prefix_rfl stack hleads) hopen

/-- Where all opens compose, the directory that paths lead to is opened. -/
theorem leads_opened {fs : FilesTrie} {ps : List String}
    (h : ∀ dir_path qs p, qs ++ [p] <+: ps → Opened fs qs dir_path → Composes fs qs p dir_path) :
    ∀ stack, Leads fs ps stack → Opened fs ps stack.path := by
  induction ps using List.reverseRecOn with
  | nil =>
    intro stack hleads
    obtain rfl := Except.ok.inj hleads.found
    exact .root
  | append_singleton ps p ih =>
    intro stack hleads
    obtain ⟨children, htop⟩ := hleads.dir (by simp)
    have hno : ".." ∉ components p := hleads.plain p (by simp)
    have hfound := hleads.found
    rw [List.flatMap_append, List.flatMap_singleton, resolve_append] at hfound
    cases hbefore : resolve fs [] (ps.flatMap components) with
    | error e =>
      rw [hbefore] at hfound
      cases hfound
    | ok before =>
      rw [hbefore] at hfound
      have hres : resolve fs before (components p) = .ok stack := hfound
      have hdir : ∃ children, before.top fs = .dir children := by
        cases hfile : before.top fs with
        | dir children => exact ⟨children, rfl⟩
        | file data =>
          rw [resolve_file hfile hno hres, hfile] at htop
          cases htop
      have hlead : Leads fs ps before :=
        ⟨fun q hq => hleads.plain q (List.mem_append_left _ hq), hbefore, fun _ => hdir⟩
      have hopened := ih (fun dir_path qs q hq => h dir_path qs q (hq.trans (List.prefix_append ps [p])))
        before hlead
      have hbelow := (composes_below hlead p).mp (h before.path ps p List.prefix_rfl hopened)
      apply @Opened.dir _ _ _ _ _ children hopened
      obtain ⟨hd, -⟩ := hlead.opens hno
      rw [hd, hres, ← htop, hbelow.dir hno stack children hres htop]
      rfl

/-- In a tree, for a sequence of paths, each opened below the directory before
it: every open, stat and listing is that of the joined path, exactly when every
path meets the condition below the directory that those before it lead to. -/
theorem composes_iff (fs : FilesTrie) (ps : List String) :
    (∀ dir_path qs p, qs ++ [p] <+: ps → Opened fs qs dir_path → Composes fs qs p dir_path) ↔
      ∀ qs p, qs ++ [p] <+: ps → Meets fs qs p := by
  constructor
  · intro h qs p hprefix stack hleads
    have hopened := leads_opened (fun dir_path qs' p' hq =>
      h dir_path qs' p' (hq.trans ((List.prefix_append qs [p]).trans hprefix))) stack hleads
    exact (composes_below hleads p).mp (h stack.path qs p hprefix hopened)
  · intro h dir_path qs p hprefix hopened
    obtain ⟨stack, hleads, rfl⟩ := opened_leads hopened fun qs' p' hq =>
      h qs' p' (hq.trans ((List.prefix_append qs [p]).trans hprefix))
    exact (composes_below hleads p).mpr (h qs p hprefix stack hleads)

theorem b_ne_dotdot : "b" ≠ ".." := by decide

/-- `a/b`, and nothing else. -/
def oneInOne : FilesTrie := .dir [(⟨"a", a_ne_dotdot⟩, .dir [(⟨"b", b_ne_dotdot⟩, .dir [])])]

/-- `b` below `a` is opened with the path `a/a/b`, which leads nowhere. -/
theorem nested_open_lost : Opened oneInOne ["a"] [⟨"a", by decide⟩] ∧
    ¬ Composes oneInOne ["a"] "b" [⟨"a", by decide⟩] := by
  constructor
  · exact @Opened.dir _ [] _ _ _ _ .root rfl
  · intro h
    have hsame := h.same (twoDirs [⟨"a", by decide⟩]) 4 3 rfl rfl
    have h1 : openTarget oneInOne (twoDirs [⟨"a", by decide⟩]) 4 "b" =
        .ok (.dir [⟨"a", by decide⟩, ⟨"a", by decide⟩, ⟨"b", by decide⟩]) := rfl
    have h2 : openTarget oneInOne (twoDirs [⟨"a", by decide⟩]) 3 (slash (["a"] ++ ["b"])) =
        .ok (.dir [⟨"a", by decide⟩, ⟨"b", by decide⟩]) := rfl
    rw [h1, h2] at hsame
    have hlen := congrArg List.length (FileDescriptor.dir.inj (Except.ok.inj hsame))
    exact absurd hlen (by decide)

end GenVM.Wasi
