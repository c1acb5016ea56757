import GenVM.Wasi.Resolve

/-!
# Mapping files (`executor/src/rt/supervisor/actions.rs`, `executor/src/wasi/preview1.rs`)

Init actions and the guest map files of runner archives into the file tree. A
target is checked as a string; the tree is then built along its components, with
repeated slashes taken as one.

**Results.**
* `insertFile_spec`: what a mapped file changes in the tree.
* `vm_stays_empty`: nothing below `/vm/` is ever there.
* `targets_loop`: the loop over an archive meets exactly the files under the
  directory.
* `mapping_exact`: from every tree that mappings build, nothing under `/vm/`
  opens, and mapping a directory maps its files and nothing else, when no target
  has a component `.` and no file hides an earlier one.
-/
namespace GenVM.Wasi
open GenVM.Lib
open GenVM.Calldata (Bytes)

inductive MapError where
  | malformed_runner | oom_ram | invalid_contract | no_file
  deriving DecidableEq

/-! ## Checking a target -/

/-- mirrors executor/src/rt/supervisor/actions.rs:27-29 -/
def maps_into_vm (target : String) : Bool :=
  (components target).find? (fun component => component ≠ "") = some "vm"

/-- mirrors executor/src/rt/supervisor/actions.rs:35-47 -/
def check_mapping_target (target : String) : Except MapError Unit :=
  if maps_into_vm target then .error .malformed_runner
  else if (components target).any fun component => component = ".." then .error .malformed_runner
  else .ok ()

/-! ## Building the tree -/

/-- mirrors executor/src/wasi/preview1.rs:170-183 -/
def location_patched : Bool → List Char → List Char
  | _, [] => []
  | last_slash, c :: cs =>
    if c = '/' then
      if last_slash then location_patched true cs else c :: location_patched true cs
    else c :: location_patched false cs

def locs_arr (location : String) : List String :=
  splitSlash [] (location_patched true location.toList)

def Name.lt (a b : Name) : Prop := a.1 < b.1

instance : DecidableRel Name.lt := fun a b => inferInstanceAs (Decidable (a.1 < b.1))

theorem name_order : SortedMap.StrictOrder Name.lt where
  irrefl a h := lt_irrefl a.1 h
  trans _ _ _ h1 h2 := lt_trans h1 h2
  tri _ _ h1 h2 := Subtype.ext (le_antisymm (not_lt.mp h2) (not_lt.mp h1))

/-- mirrors executor/src/wasi/preview1.rs:185-227 -/
def insertFile (data : Bytes) : List Name → FilesTrie → Except MapError FilesTrie
  | _, .file _ => .error .invalid_contract
  | [], .dir children => .ok (.dir children)
  | [fname], .dir children => .ok (.dir (SortedMap.insert Name.lt fname (.file data) children))
  | loc :: locs, .dir children => do
    let sub ← insertFile data locs ((children.lookup loc).getD (.dir []))
    .ok (.dir (SortedMap.insert Name.lt loc sub children))

/-- A component, which is not `..` once the target was checked. -/
def nameOf (s : String) : Option Name := if h : s = ".." then none else some ⟨s, h⟩

/-- mirrors executor/src/wasi/preview1.rs:169-230 -/
def map_file (fs : FilesTrie) (location : String) (contents : Bytes) : Except MapError FilesTrie :=
  match (locs_arr location).mapM nameOf with
  | some locs => insertFile contents locs fs
  | none => .error .malformed_runner

/-! ## Mapping out of an archive -/

/-- The files of a runner, in the order of their names. -/
structure Archive where
  data : List (String × Bytes)
  sorted : SortedMap.Sorted (fun a b : String => a < b) data

def FILE_MAPPING : Nat := 256

def endsSlash (s : String) : Bool := s.toList.getLast? = some '/'

/-- mirrors executor/src/rt/supervisor/actions.rs:379-387, 390-396 -/
def mapOne (fs : FilesTrie) (limiter : Limiter) (target : String) (contents : Bytes) :
    Except MapError Unit × FilesTrie × Limiter :=
  match check_mapping_target target with
  | .error e => (.error e, fs, limiter)
  | .ok _ =>
    match limiter.consume ((FILE_MAPPING + (Utf8.bytes target).length % 2 ^ 32) % 2 ^ 32) with
    | (false, limiter) => (.error .oom_ram, fs, limiter)
    | (true, limiter) =>
      match map_file fs target contents with
      | .error e => (.error e, fs, limiter)
      | .ok fs => (.ok (), fs, limiter)

/-- mirrors executor/src/rt/supervisor/actions.rs:373-377 -/
def name_in_fs (target pre name : String) : String :=
  target ++ (if endsSlash target then "" else "/") ++ String.ofList (name.toList.drop pre.toList.length)

/-- mirrors executor/src/rt/supervisor/actions.rs:357-388 -/
def mapLoop (pre target : String) :
    List (String × Bytes) → FilesTrie → Limiter → Except MapError Unit × FilesTrie × Limiter
  | [], fs, limiter => (.ok (), fs, limiter)
  | (name, contents) :: rest, fs, limiter =>
    if endsSlash name then mapLoop pre target rest fs limiter
    else if pre.toList.isPrefixOf name.toList then
      match mapOne fs limiter (name_in_fs target pre name) contents with
      | (.error e, fs, limiter) => (.error e, fs, limiter)
      | (.ok _, fs, limiter) => mapLoop pre target rest fs limiter
    else (.ok (), fs, limiter)

/-- mirrors executor/src/rt/supervisor/actions.rs:339-400 -/
def map_archive_file (fs : FilesTrie) (limiter : Limiter) (arch : Archive) (file target : String) :
    Except MapError Unit × FilesTrie × Limiter :=
  if endsSlash file then
    if file = "/" then mapLoop "" target arch.data fs limiter
    else mapLoop file target (arch.data.dropWhile fun e => e.1 < file) fs limiter
  else
    match arch.data.lookup file with
    | none =>
      -- the target is checked and paid for before the file is looked up
      match check_mapping_target target with
      | .error e => (.error e, fs, limiter)
      | .ok _ =>
        match limiter.consume ((FILE_MAPPING + (Utf8.bytes target).length % 2 ^ 32) % 2 ^ 32) with
        | (false, limiter) => (.error .oom_ram, fs, limiter)
        | (true, limiter) => (.error .no_file, fs, limiter)
    | some contents => mapOne fs limiter target contents

/-- The trees that mappings build, from the empty one on. -/
inductive Mapped : FilesTrie → Prop
  | empty : Mapped (.dir [])
  | map {fs fs' : FilesTrie} {limiter limiter' : Limiter} {arch : Archive} {file target : String}
      {r : Except MapError Unit} (h : Mapped fs)
      (hmap : map_archive_file fs limiter arch file target = (r, fs', limiter')) : Mapped fs'

/-! ## The components of a target -/

/-- Slashes in a row make only empty components. -/
theorem splitSlash_patched (cs : List Char) : ∀ (last : Bool) (part : List Char),
    (last = true → part = []) →
    (splitSlash part (location_patched last cs)).filter (fun s => s ≠ "") =
      (splitSlash part cs).filter fun s => s ≠ "" := by
  induction cs with
  | nil => exact fun _ _ _ => rfl
  | cons c cs ih =>
    intro last part hlast
    unfold location_patched
    rw [splitSlash_cons part c cs]
    by_cases hc : c = '/'
    · rw [if_pos hc, if_pos hc]
      cases last with
      | true =>
        obtain rfl := hlast rfl
        rw [if_pos rfl, ih true [] fun _ => rfl]
        rfl
      | false =>
        rw [if_neg (by decide), splitSlash_cons, if_pos hc, List.filter_cons, List.filter_cons,
          ih true [] fun _ => rfl]
    · rw [if_neg hc, if_neg hc, splitSlash_cons, if_neg hc]
      exact ih false (c :: part) fun h => absurd h (by decide)

theorem locs_arr_filter (location : String) :
    (locs_arr location).filter (fun s => s ≠ "") = (components location).filter fun s => s ≠ "" :=
  splitSlash_patched location.toList true [] fun _ => rfl

/-- A target passes the check only if neither its first name is `vm` nor any `..`. -/
theorem check_mapping_target_ok {target : String} (h : check_mapping_target target = .ok ()) :
    (∀ rest, locs_arr target ≠ "vm" :: rest) ∧ ".." ∉ components target ∧
      ".." ∉ locs_arr target := by
  unfold check_mapping_target at h
  split at h
  · cases h
  · rename_i hvm
    split at h
    · cases h
    · rename_i hdd
      have hno : ".." ∉ components target := by
        intro hm
        exact hdd (List.any_eq_true.mpr ⟨"..", hm, by decide⟩)
      refine ⟨fun rest hl => ?_, hno, fun hm => ?_⟩
      · apply hvm
        unfold maps_into_vm
        have hf := locs_arr_filter target
        rw [hl, List.filter_cons_of_pos (by decide)] at hf
        rw [← List.head?_filter, ← hf]
        exact decide_eq_true rfl
      · have hm' : ".." ∈ (locs_arr target).filter fun s => s ≠ "" :=
          List.mem_filter.mpr ⟨hm, by decide⟩
        rw [locs_arr_filter] at hm'
        exact hno (List.mem_filter.mp hm').1

theorem mapM_nameOf {ss : List String} (h : ".." ∉ ss) :
    ∃ ns : List Name, ss.mapM nameOf = some ns ∧ ns.map Subtype.val = ss := by
  induction ss with
  | nil => exact ⟨[], rfl, rfl⟩
  | cons s ss ih =>
    obtain ⟨ns, hns, hval⟩ := ih fun hm => h (List.mem_cons_of_mem _ hm)
    have hs : s ≠ ".." := fun hs => h (hs ▸ List.mem_cons_self)
    refine ⟨⟨s, hs⟩ :: ns, ?_, ?_⟩
    · have hname : nameOf s = some ⟨s, hs⟩ := dif_neg hs
      simp [List.mapM_cons, hname, hns]
    · rw [List.map_cons, hval]

/-! ## The tree at a path of names -/

def FilesTrie.at : List Name → FilesTrie → Option FilesTrie
  | [], t => some t
  | _ :: _, .file _ => none
  | name :: names, .dir children =>
    match children.lookup name with
    | none => none
    | some t => FilesTrie.at names t

theorem at_cons (name : Name) (ns : List Name) (children : List (Name × FilesTrie)) :
    FilesTrie.at (name :: ns) (.dir children) =
      match children.lookup name with
      | none => none
      | some t => FilesTrie.at ns t := rfl

theorem lookup_insert_name (k k' : Name) (t : FilesTrie) (children : List (Name × FilesTrie)) :
    (SortedMap.insert Name.lt k t children).lookup k' =
      if k' = k then some t else children.lookup k' := by
  have hbeq : (Subtype.instBEq : BEq Name) = instBEqOfDecidableEq := lawful_beq_subsingleton _ _
  rw [hbeq]
  exact SortedMap.lookup_insert name_order k k' t children

/-- A mapped file is there afterwards, every other file that is there was there
before, and one that was there stays unless the new file takes a directory's
place above it or its own. -/
theorem insertFile_spec {data : Bytes} : ∀ {ns : List Name} {fs fs' : FilesTrie}, ns ≠ [] →
    insertFile data ns fs = .ok fs' →
    (∃ children, fs' = .dir children) ∧ FilesTrie.at ns fs' = some (.file data) ∧
    (∀ q d, FilesTrie.at q fs' = some (.file d) →
      FilesTrie.at q fs = some (.file d) ∨ q = ns ∧ d = data) ∧
    ∀ q d, FilesTrie.at q fs = some (.file d) → ¬ ns <+: q → FilesTrie.at q fs' = some (.file d) := by
  intro ns
  induction ns with
  | nil => exact fun h => absurd rfl h
  | cons n ns ih =>
    intro fs fs' _ hins
    cases fs with
    | file d =>
      unfold insertFile at hins
      cases hins
    | dir children =>
      cases ns with
      | nil =>
        obtain rfl := Except.ok.inj hins
        refine ⟨⟨_, rfl⟩, ?_, ?_, ?_⟩
        · rw [at_cons, lookup_insert_name, if_pos rfl]
          rfl
        · intro q d hq
          cases q with
          | nil => cases hq
          | cons a q =>
            rw [at_cons, lookup_insert_name] at hq
            by_cases ha : a = n
            · rw [if_pos ha] at hq
              cases q with
              | nil =>
                obtain rfl := FilesTrie.file.inj (Option.some.inj hq)
                exact .inr ⟨by rw [ha], rfl⟩
              | cons b q => cases hq
            · rw [if_neg ha] at hq
              exact .inl hq
        · intro q d hq hpre
          cases q with
          | nil => cases hq
          | cons a q =>
            have ha : a ≠ n := by
              rintro rfl
              exact hpre ⟨q, rfl⟩
            rw [at_cons, lookup_insert_name, if_neg ha]
            exact hq
      | cons m ms =>
        have hins' : (insertFile data (m :: ms) ((children.lookup n).getD (.dir []))).bind
            (fun sub => .ok (.dir (SortedMap.insert Name.lt n sub children))) = .ok fs' := hins
        cases hsub : insertFile data (m :: ms) ((children.lookup n).getD (.dir [])) with
        | error e =>
          rw [hsub] at hins'
          cases hins'
        | ok sub =>
          rw [hsub] at hins'
          obtain rfl := Except.ok.inj hins'
          obtain ⟨-, hat, hfrom, hkeep⟩ := ih (List.cons_ne_nil _ _) hsub
          refine ⟨⟨_, rfl⟩, ?_, ?_, ?_⟩
          · rw [at_cons, lookup_insert_name, if_pos rfl]
            exact hat
          · intro q d hq
            cases q with
            | nil => cases hq
            | cons a q =>
              rw [at_cons, lookup_insert_name] at hq
              by_cases ha : a = n
              · rw [if_pos ha] at hq
                subst ha
                rcases hfrom q d hq with hold | ⟨rfl, rfl⟩
                · left
                  rw [at_cons]
                  cases hl : children.lookup a with
                  | none =>
                    rw [hl] at hold
                    cases q with
                    | nil => cases hold
                    | cons b q => cases hold
                  | some t =>
                    rw [hl] at hold
                    exact hold
                · exact .inr ⟨rfl, rfl⟩
              · rw [if_neg ha] at hq
                exact .inl hq
          · intro q d hq hpre
            cases q with
            | nil => cases hq
            | cons a q =>
              rw [at_cons, lookup_insert_name]
              by_cases ha : a = n
              · rw [if_pos ha]
                subst ha
                rw [at_cons] at hq
                cases hl : children.lookup a with
                | none =>
                  rw [hl] at hq
                  cases hq
                | some t =>
                  rw [hl] at hq
                  apply hkeep q d
                  · rw [hl]
                    exact hq
                  · intro hp
                    exact hpre (List.prefix_cons_inj a |>.mpr hp)
              · rw [if_neg ha]
                exact hq

theorem splitSlash_ne_nil (cs : List Char) : ∀ part : List Char, splitSlash part cs ≠ [] := by
  induction cs with
  | nil => exact fun part h => nomatch h
  | cons c cs ih =>
    intro part
    rw [splitSlash_cons]
    split
    · exact List.cons_ne_nil _ _
    · exact ih (c :: part)

/-- What `map_file` does, once the target passed the check. -/
theorem map_file_ok {fs fs' : FilesTrie} {location : String} {contents : Bytes}
    (h : map_file fs location contents = .ok fs') :
    ∃ ns : List Name, ns ≠ [] ∧ ns.map Subtype.val = locs_arr location ∧
      insertFile contents ns fs = .ok fs' := by
  unfold map_file at h
  split at h
  · rename_i ns hns
    have hno : ".." ∉ locs_arr location := by
      intro hm
      have hnone : nameOf ".." = none := rfl
      have hall : ∀ ss : List String, ".." ∈ ss → ss.mapM nameOf = none := by
        intro ss
        induction ss with
        | nil => exact fun h => absurd h List.not_mem_nil
        | cons a ss ih =>
          intro ha
          rw [List.mapM_cons]
          rcases List.mem_cons.mp ha with rfl | ha
          · rw [hnone]
            rfl
          · rw [ih ha]
            cases nameOf a <;> rfl
      rw [hall _ hm] at hns
      cases hns
    obtain ⟨ns', hns', hval⟩ := mapM_nameOf hno
    obtain rfl := Option.some.inj (hns.symm.trans hns')
    refine ⟨ns, ?_, hval, h⟩
    rintro rfl
    exact splitSlash_ne_nil _ _ hval.symm
  · cases h

/-! ## Opening what was mapped -/

theorem foldlM_at : ∀ (cs : List String) (ns : List Name) (t : FilesTrie), ".." ∉ cs →
    ns.map Subtype.val = cs.filter (fun s => s ≠ "." ∧ s ≠ "") →
    cs.foldlM descend t = FilesTrie.at ns t := by
  intro cs
  induction cs with
  | nil =>
    intro ns t _ hns
    obtain rfl := List.map_eq_nil_iff.mp hns
    rfl
  | cons c cs ih =>
    intro ns t hno hns
    have hrest : ".." ∉ cs := fun h => hno (List.mem_cons_of_mem _ h)
    have hc : c ≠ ".." := fun h => hno (h ▸ List.mem_cons_self)
    rw [List.foldlM_cons]
    unfold descend
    by_cases hdot : c = "." ∨ c = ""
    · rw [if_pos hdot]
      rw [List.filter_cons_of_neg (by simp; tauto)] at hns
      exact ih ns t hrest hns
    · rw [if_neg hdot]
      rw [List.filter_cons_of_pos (by simp; tauto)] at hns
      cases ns with
      | nil => cases hns
      | cons n ns =>
        rw [List.map_cons] at hns
        obtain ⟨hn, htail⟩ := List.cons.inj hns
        obtain rfl : n = ⟨c, hc⟩ := Subtype.ext hn
        cases t with
        | file data => rfl
        | dir children =>
          dsimp only
          rw [dif_neg hc, at_cons]
          cases children.lookup ⟨c, hc⟩ with
          | none => rfl
          | some t => exact ih ns t hrest htail

/-- Opening a path from the root gives a file with this content. -/
def Reaches (fs : FilesTrie) (path : String) (data : Bytes) : Prop :=
  ∀ v r, v.fds.lookup r = some (.dir []) → openTarget fs v r path = .ok (.file ⟨data, 0, false⟩)

theorem reaches_openAt {fs : FilesTrie} {path : String} {data : Bytes} :
    Reaches fs path data ↔ ∃ p, openAt fs [] path = .ok (.file data, p) := by
  constructor
  · intro h
    have h3 := h (twoDirs []) 3 rfl
    rw [@openTarget_eq _ _ _ [] rfl] at h3
    cases ho : openAt fs [] path with
    | error e =>
      rw [ho] at h3
      cases h3
    | ok r =>
      rw [ho] at h3
      obtain ⟨t, p⟩ := r
      cases t with
      | dir children => cases h3
      | file d =>
        have hd := FileDescriptor.file.inj (Except.ok.inj h3)
        obtain rfl : d = data := congrArg FileContents.contents hd
        exact ⟨p, rfl⟩
  · intro h v r hr
    obtain ⟨p, ho⟩ := h
    rw [openTarget_eq hr, ho]
    rfl

theorem openAt_root_error {fs : FilesTrie} {path : String} {e : Error} {p : List Name}
    (h : followNames fs (components path) fs [] = (.error e, p)) : openAt fs [] path = .error e := by
  unfold openAt dir_fd_follow_trie
  dsimp only
  rw [h]

theorem openAt_root_ok {fs t : FilesTrie} {path : String} {p : List Name}
    (h : followNames fs (components path) fs [] = (.ok t, p)) : openAt fs [] path = .ok (t, p) := by
  unfold openAt dir_fd_follow_trie
  dsimp only
  rw [h]

/-- A path with `..` opens nothing; any other opens what is at its names. -/
theorem reaches_iff {fs : FilesTrie} {path : String} {data : Bytes} :
    Reaches fs path data ↔ ".." ∉ components path ∧
      ∃ ns : List Name, ns.map Subtype.val = names path ∧ FilesTrie.at ns fs = some (.file data) := by
  rw [reaches_openAt]
  by_cases hdd : ".." ∈ components path
  · obtain ⟨e, he⟩ := openAt_dotdot fs [] hdd
    constructor
    · intro h
      obtain ⟨p, ho⟩ := h
      rw [he] at ho
      cases ho
    · exact fun h => absurd hdd h.1
  · have hno : ".." ∉ names path := fun h => hdd (List.mem_filter.mp h).1
    obtain ⟨ns, -, hval⟩ := mapM_nameOf hno
    have hwalk := followNames_descend fs (components path) fs []
    rw [foldlM_at (components path) ns fs hdd hval] at hwalk
    rcases hf : followNames fs (components path) fs [] with ⟨e | t, p⟩
    · rw [hf] at hwalk
      constructor
      · intro h
        obtain ⟨p', ho⟩ := h
        rw [openAt_root_error hf] at ho
        cases ho
      · intro h
        obtain ⟨-, ns', hval', hat⟩ := h
        obtain rfl := List.map_injective_iff.mpr Subtype.val_injective (hval'.trans hval.symm)
        rw [← hwalk] at hat
        cases hat
    · rw [hf] at hwalk
      rw [openAt_root_ok hf]
      constructor
      · intro h
        obtain ⟨p', ho⟩ := h
        obtain rfl : t = .file data := (Prod.mk.inj (Except.ok.inj ho)).1
        exact ⟨hdd, ns, hval, hwalk.symm⟩
      · intro h
        obtain ⟨-, ns', hval', hat⟩ := h
        obtain rfl := List.map_injective_iff.mpr Subtype.val_injective (hval'.trans hval.symm)
        obtain rfl := Option.some.inj (hwalk.trans hat)
        exact ⟨p, rfl⟩

/-! ## Filling the tree -/

/-- Files mapped one after the other, each at a target that passes the check. -/
inductive Fills : List (String × Bytes) → FilesTrie → FilesTrie → Prop
  | nil (fs : FilesTrie) : Fills [] fs fs
  | cons {target : String} {contents : Bytes} {rest : List (String × Bytes)} {fs fs1 fs' : FilesTrie}
      (hcheck : check_mapping_target target = .ok ()) (hmap : map_file fs target contents = .ok fs1)
      (hrest : Fills rest fs1 fs') : Fills ((target, contents) :: rest) fs fs'

theorem mapOne_fills {fs fs' : FilesTrie} {limiter limiter' : Limiter} {target : String}
    {contents : Bytes} {r : Except MapError Unit}
    (h : mapOne fs limiter target contents = (r, fs', limiter')) :
    (r = .ok () ∧ check_mapping_target target = .ok () ∧ map_file fs target contents = .ok fs') ∨
      ((∃ e, r = .error e) ∧ fs' = fs) := by
  unfold mapOne at h
  split at h
  · cases h
    exact .inr ⟨⟨_, rfl⟩, rfl⟩
  · rename_i hcheck
    split at h
    · cases h
      exact .inr ⟨⟨_, rfl⟩, rfl⟩
    · split at h
      · cases h
        exact .inr ⟨⟨_, rfl⟩, rfl⟩
      · rename_i hmap
        cases h
        exact .inl ⟨rfl, hcheck, hmap⟩

/-- The entries the loop maps. -/
def looped (pre target : String) (entries : List (String × Bytes)) : List (String × Bytes) :=
  ((entries.takeWhile fun e => endsSlash e.1 || pre.toList.isPrefixOf e.1.toList).filter
    fun e => !endsSlash e.1).map fun e => (name_in_fs target pre e.1, e.2)

theorem looped_cons (pre target name : String) (contents : Bytes) (rest : List (String × Bytes)) :
    looped pre target ((name, contents) :: rest) =
      if endsSlash name then looped pre target rest
      else if pre.toList.isPrefixOf name.toList then
        (name_in_fs target pre name, contents) :: looped pre target rest
      else [] := by
  unfold looped
  rw [List.takeWhile_cons]
  cases hend : endsSlash name <;> cases hpre : pre.toList.isPrefixOf name.toList <;>
    simp [hend]

theorem mapLoop_fills (pre target : String) : ∀ (entries : List (String × Bytes))
    {fs fs' : FilesTrie} {limiter limiter' : Limiter} {r : Except MapError Unit},
    mapLoop pre target entries fs limiter = (r, fs', limiter') →
    ∃ done, Fills done fs fs' ∧ (r = .ok () → done = looped pre target entries) := by
  intro entries
  induction entries with
  | nil =>
    intro fs fs' limiter limiter' r h
    cases h
    exact ⟨[], .nil fs, fun _ => rfl⟩
  | cons e rest ih =>
    intro fs fs' limiter limiter' r h
    obtain ⟨name, contents⟩ := e
    rw [looped_cons]
    unfold mapLoop at h
    split at h
    · rename_i hend
      rw [if_pos hend]
      exact ih h
    · rename_i hend
      rw [if_neg hend]
      split at h
      · rename_i hpre
        rw [if_pos hpre]
        rcases hone : mapOne fs limiter (name_in_fs target pre name) contents with ⟨e | u, fs1, l1⟩
        · rw [hone] at h
          cases h
          rcases mapOne_fills hone with ⟨hr, -, -⟩ | ⟨-, rfl⟩
          · cases hr
          · exact ⟨[], .nil _, fun hr => nomatch hr⟩
        · rw [hone] at h
          rcases mapOne_fills hone with ⟨-, hcheck, hmap⟩ | ⟨⟨e, hr⟩, -⟩
          · obtain ⟨done, hfills, hdone⟩ := ih h
            exact ⟨_, .cons hcheck hmap hfills, fun hr => by rw [hdone hr]⟩
          · cases hr
      · rename_i hpre
        rw [if_neg hpre]
        cases h
        exact ⟨[], .nil _, fun _ => rfl⟩

/-- What the loop runs over. -/
def range (arch : Archive) (file : String) : List (String × Bytes) :=
  if file = "/" then arch.data else arch.data.dropWhile fun e => e.1 < file

def prefixOf (file : String) : String := if file = "/" then "" else file

/-- Whatever a mapping returns, it filled the tree with files at checked targets. -/
theorem map_archive_file_fills {fs fs' : FilesTrie} {limiter limiter' : Limiter} {arch : Archive}
    {file target : String} {r : Except MapError Unit}
    (h : map_archive_file fs limiter arch file target = (r, fs', limiter')) :
    ∃ done, Fills done fs fs' ∧ (endsSlash file = true → r = .ok () →
      done = looped (prefixOf file) target (range arch file)) := by
  unfold map_archive_file at h
  unfold prefixOf range
  split at h
  · split at h
    · rename_i hroot
      obtain ⟨done, hfills, hdone⟩ := mapLoop_fills _ _ _ h
      exact ⟨done, hfills, fun _ hr => by rw [if_pos hroot, if_pos hroot, hdone hr]⟩
    · rename_i hroot
      obtain ⟨done, hfills, hdone⟩ := mapLoop_fills _ _ _ h
      exact ⟨done, hfills, fun _ hr => by rw [if_neg hroot, if_neg hroot, hdone hr]⟩
  · rename_i hend
    split at h
    · split at h
      · cases h
        exact ⟨[], .nil _, fun he => absurd he hend⟩
      · split at h
        · cases h
          exact ⟨[], .nil _, fun he => absurd he hend⟩
        · cases h
          exact ⟨[], .nil _, fun he => absurd he hend⟩
    · rcases mapOne_fills h with ⟨-, hcheck, hmap⟩ | ⟨-, rfl⟩
      · exact ⟨_, .cons hcheck hmap (.nil _), fun he => absurd he hend⟩
      · exact ⟨[], .nil _, fun he => absurd he hend⟩

/-! ## Nothing below `/vm/` -/

def vm : Name := ⟨"vm", by decide⟩

/-- The root is a directory without an entry `vm`. -/
def NoVm (fs : FilesTrie) : Prop :=
  ∃ children : List (Name × FilesTrie), fs = .dir children ∧ children.lookup vm = none

theorem NoVm.insert {fs fs' : FilesTrie} {data : Bytes} {n : Name} {ns : List Name} (h : NoVm fs)
    (hn : n ≠ vm) (hins : insertFile data (n :: ns) fs = .ok fs') : NoVm fs' := by
  obtain ⟨children, rfl, hvm⟩ := h
  have hlook : ∀ t, (SortedMap.insert Name.lt n t children).lookup vm = none := by
    intro t
    rw [lookup_insert_name, if_neg (Ne.symm hn)]
    exact hvm
  cases ns with
  | nil =>
    obtain rfl := Except.ok.inj hins
    exact ⟨_, rfl, hlook _⟩
  | cons m ms =>
    have hins' : (insertFile data (m :: ms) ((children.lookup n).getD (.dir []))).bind
        (fun sub => .ok (.dir (SortedMap.insert Name.lt n sub children))) = .ok fs' := hins
    cases hsub : insertFile data (m :: ms) ((children.lookup n).getD (.dir [])) with
    | error e =>
      rw [hsub] at hins'
      cases hins'
    | ok sub =>
      rw [hsub] at hins'
      obtain rfl := Except.ok.inj hins'
      exact ⟨_, rfl, hlook _⟩

theorem NoVm.fills {ts : List (String × Bytes)} {fs fs' : FilesTrie} (hf : Fills ts fs fs') :
    NoVm fs → NoVm fs' := by
  induction hf with
  | nil fs => exact id
  | @cons target contents rest fs fs1 fs' hcheck hmap hrest ih =>
    intro h
    apply ih
    obtain ⟨ns, hne, hval, hins⟩ := map_file_ok hmap
    cases ns with
    | nil => exact absurd rfl hne
    | cons n ns =>
      apply h.insert ?_ hins
      rintro rfl
      exact (check_mapping_target_ok hcheck).1 (ns.map Subtype.val) hval.symm

/-- No mapping ever makes an entry `vm` in the root. -/
theorem vm_stays_empty {fs : FilesTrie} (h : Mapped fs) : NoVm fs := by
  induction h with
  | empty => exact ⟨[], rfl, rfl⟩
  | map h hmap ih =>
    obtain ⟨done, hfills, -⟩ := map_archive_file_fills hmap
    exact NoVm.fills hfills ih

/-- The names a path leads through, with `.` and empty components left out and
`..` taking one back. -/
def lexical (components : List String) : List String :=
  components.foldl (fun stack s => if s = "." ∨ s = "" then stack
    else if s = ".." then stack.dropLast else stack ++ [s]) []

theorem lexical_filter {cs : List String} (h : ".." ∉ cs) :
    lexical cs = cs.filter fun s => s ≠ "." ∧ s ≠ "" := by
  have key : ∀ (cs : List String) (stack : List String), ".." ∉ cs →
      cs.foldl (fun stack s => if s = "." ∨ s = "" then stack
        else if s = ".." then stack.dropLast else stack ++ [s]) stack =
      stack ++ cs.filter fun s => s ≠ "." ∧ s ≠ "" := by
    intro cs
    induction cs with
    | nil =>
      intro stack _
      exact (List.append_nil stack).symm
    | cons c cs ih =>
      intro stack hno
      have hc : c ≠ ".." := fun h => hno (h ▸ List.mem_cons_self)
      rw [List.foldl_cons, ih _ fun h => hno (List.mem_cons_of_mem _ h)]
      by_cases hdot : c = "." ∨ c = ""
      · rw [if_pos hdot, List.filter_cons_of_neg (by simp; tauto)]
      · rw [if_neg hdot, if_neg hc, List.filter_cons_of_pos (by simp; tauto), List.append_assoc]
        rfl
  exact key cs [] h

theorem descend_dotdot {cs : List String} (h : ".." ∈ cs) (t : FilesTrie) :
    cs.foldlM descend t = none := by
  obtain ⟨e, he⟩ := walk_dotdot t h t []
  have := followNames_descend t cs t []
  rw [he] at this
  exact this.symm

/-- However it is spelled and wherever it starts, a path below `/vm/` opens
nothing. -/
theorem NoVm.closed {fs : FilesTrie} (h : NoVm fs) {v : VFS} {d : Nat} {dir_path : List Name}
    {path : String} (hd : v.fds.lookup d = some (.dir dir_path))
    (hvm : (lexical (dir_path.map Subtype.val ++ components path)).head? = some "vm")
    (f : FileDescriptor) : openTarget fs v d path ≠ .ok f := by
  intro hopen
  obtain ⟨dir_path', hd', hwalk⟩ := (openTarget_iff fs v d path).mp ⟨f, hopen⟩
  obtain rfl := FileDescriptor.dir.inj (Option.some.inj (hd.symm.trans hd'))
  generalize hcs : dir_path.map Subtype.val ++ components path = cs at hvm
  have hwalk' : (cs.foldlM descend fs).isSome := by
    rw [← hcs]
    exact hwalk
  have hno : ".." ∉ cs := by
    intro hm
    rw [descend_dotdot hm] at hwalk'
    cases hwalk'
  rw [lexical_filter hno] at hvm
  obtain ⟨ns, -, hval⟩ := @mapM_nameOf (cs.filter fun s => s ≠ "." ∧ s ≠ "")
    fun hm => hno (List.mem_filter.mp hm).1
  rw [foldlM_at cs ns fs hno hval] at hwalk'
  rw [← hval] at hvm
  obtain ⟨children, rfl, hnone⟩ := h
  cases ns with
  | nil => cases hvm
  | cons n ns =>
    obtain rfl : n = vm := Subtype.ext (Option.some.inj hvm)
    rw [at_cons, hnone] at hwalk'
    cases hwalk'

/-! ## The files of a directory -/

/-- The files under a directory of an archive and where they go. -/
def targets (arch : Archive) (file target : String) : List (String × Bytes) :=
  (arch.data.filter fun e => (prefixOf file).toList.isPrefixOf e.1.toList && !endsSlash e.1).map
    fun e => (name_in_fs target (prefixOf file) e.1, e.2)

/-- What lies between a word and one that it begins begins with it too. -/
theorem prefix_between : ∀ {pre a b : List Char}, ¬ a < pre → a < b → pre <+: b → pre <+: a := by
  intro pre
  induction pre with
  | nil => exact fun {a b} _ _ _ => List.nil_prefix
  | cons c pre ih =>
    intro a b ha hab hb
    obtain ⟨rest, rfl⟩ := hb
    cases a with
    | nil => exact absurd (List.nil_lt_cons c pre) ha
    | cons d a =>
      rw [List.cons_lt_cons_iff] at ha
      rw [List.cons_append, List.cons_lt_cons_iff] at hab
      rcases hab with hlt | ⟨rfl, hlt⟩
      · exact absurd (.inl hlt) ha
      · have hrest := ih (fun h => ha (.inr ⟨rfl, h⟩)) hlt ⟨rest, rfl⟩
        exact (List.prefix_cons_inj d).mpr hrest

theorem not_lt_of_prefix : ∀ {pre a : List Char}, pre <+: a → ¬ a < pre := by
  intro pre
  induction pre with
  | nil => exact fun {a} _ => List.not_lt_nil a
  | cons c pre ih =>
    intro a h hlt
    obtain ⟨rest, rfl⟩ := h
    rw [List.cons_append, List.cons_lt_cons_iff] at hlt
    rcases hlt with hlt | ⟨-, hlt⟩
    · exact lt_irrefl c hlt
    · exact ih ⟨rest, rfl⟩ hlt

/-- From the directory's name on, the loop meets its files and stops behind them. -/
theorem looped_filter (pre target : String) : ∀ {entries : List (String × Bytes)},
    SortedMap.Sorted (fun a b : String => a < b) entries → (∀ e ∈ entries, ¬ e.1 < pre) →
    looped pre target entries = (entries.filter fun e =>
      pre.toList.isPrefixOf e.1.toList && !endsSlash e.1).map
        fun e => (name_in_fs target pre e.1, e.2) := by
  intro entries
  induction entries with
  | nil => exact fun _ _ => rfl
  | cons e rest ih =>
    intro hsorted hge
    obtain ⟨name, contents⟩ := e
    obtain ⟨hall, hrest⟩ := SortedMap.sorted_cons.mp hsorted
    have htail := ih hrest fun e he => hge e (List.mem_cons_of_mem _ he)
    rw [looped_cons]
    by_cases hend : endsSlash name = true
    · rw [if_pos hend, List.filter_cons_of_neg (by simp [hend])]
      exact htail
    · rw [if_neg hend]
      by_cases hpre : pre.toList.isPrefixOf name.toList = true
      · rw [if_pos hpre, List.filter_cons_of_pos (by simp [hend, hpre]), List.map_cons, htail]
      · rw [if_neg hpre, List.filter_cons_of_neg (by simp [hpre])]
        have hnone : rest.filter (fun e => pre.toList.isPrefixOf e.1.toList && !endsSlash e.1) = [] := by
          rw [List.filter_eq_nil_iff]
          intro e he hkeep
          have hkeep' := (Bool.and_eq_true_iff.mp hkeep).1
          apply hpre
          apply List.isPrefixOf_iff_prefix.mpr
          apply prefix_between (b := e.1.toList)
          · intro hlt
            exact hge (name, contents) List.mem_cons_self (String.lt_iff_toList_lt.mpr hlt)
          · exact String.lt_iff_toList_lt.mp (hall e he)
          · exact List.isPrefixOf_iff_prefix.mp hkeep'
        rw [hnone]
        rfl

theorem range_spec (arch : Archive) (file : String) :
    SortedMap.Sorted (fun a b : String => a < b) (range arch file) ∧
      (∀ e ∈ range arch file, ¬ e.1 < prefixOf file) ∧
      ((range arch file).filter fun e => (prefixOf file).toList.isPrefixOf e.1.toList &&
        !endsSlash e.1) =
      arch.data.filter fun e => (prefixOf file).toList.isPrefixOf e.1.toList && !endsSlash e.1 := by
  unfold range prefixOf
  by_cases hroot : file = "/"
  · rw [if_pos hroot, if_pos hroot]
    refine ⟨arch.sorted, fun e _ h => ?_, rfl⟩
    exact List.not_lt_nil _ (String.lt_iff_toList_lt.mp h)
  · rw [if_neg hroot, if_neg hroot]
    have hkey : ∀ data : List (String × Bytes), SortedMap.Sorted (fun a b : String => a < b) data →
        (∀ e ∈ data.dropWhile (fun e => decide (e.1 < file)), ¬ e.1 < file) ∧
        ((data.dropWhile fun e => decide (e.1 < file)).filter fun e =>
          file.toList.isPrefixOf e.1.toList && !endsSlash e.1) =
        data.filter fun e => file.toList.isPrefixOf e.1.toList && !endsSlash e.1 := by
      intro data
      induction data with
      | nil =>
        intro _
        exact ⟨fun e he => absurd he List.not_mem_nil, rfl⟩
      | cons e rest ih =>
        intro hsorted
        obtain ⟨hall, hrest⟩ := SortedMap.sorted_cons.mp hsorted
        rw [List.dropWhile_cons]
        by_cases hlt : e.1 < file
        · rw [if_pos (decide_eq_true hlt), List.filter_cons_of_neg]
          · exact ih hrest
          · intro hkeep
            have hpre := List.isPrefixOf_iff_prefix.mp (Bool.and_eq_true_iff.mp hkeep).1
            exact not_lt_of_prefix hpre (String.lt_iff_toList_lt.mp hlt)
        · rw [if_neg (by simpa using hlt)]
          refine ⟨fun x hx => ?_, rfl⟩
          rcases List.mem_cons.mp hx with rfl | hx
          · exact hlt
          · intro hxf
            exact hlt (lt_trans (hall x hx) hxf)
    refine ⟨?_, hkey arch.data arch.sorted⟩
    exact List.Pairwise.sublist (List.dropWhile_sublist _) arch.sorted

theorem targets_loop (arch : Archive) (file target : String) :
    looped (prefixOf file) target (range arch file) = targets arch file target := by
  obtain ⟨hsorted, hge, hfilter⟩ := range_spec arch file
  rw [looped_filter (prefixOf file) target hsorted hge, hfilter]
  rfl

/-! ## Mapping is exact -/

/-- Every target consists of names, and none begins one that is mapped before it. -/
structure Apart (ts : List (String × Bytes)) : Prop where
  plain : ∀ e ∈ ts, ∀ s ∈ locs_arr e.1, s ≠ "." ∧ s ≠ ""
  apart : ts.Pairwise fun a b => ¬ locs_arr b.1 <+: locs_arr a.1

theorem Fills.spec {ts : List (String × Bytes)} {fs fs' : FilesTrie} (hf : Fills ts fs fs') :
    Apart ts →
    (∀ e ∈ ts, ∀ ns : List Name, ns.map Subtype.val = locs_arr e.1 →
      FilesTrie.at ns fs' = some (.file e.2)) ∧
    (∀ q d, FilesTrie.at q fs' = some (.file d) → FilesTrie.at q fs = some (.file d) ∨
      ∃ e ∈ ts, q.map Subtype.val = locs_arr e.1 ∧ e.2 = d) ∧
    ∀ q d, FilesTrie.at q fs = some (.file d) →
      (∀ e ∈ ts, ¬ locs_arr e.1 <+: q.map Subtype.val) → FilesTrie.at q fs' = some (.file d) := by
  induction hf with
  | nil fs =>
    intro _
    exact ⟨fun e he => absurd he List.not_mem_nil, fun q d h => .inl h, fun q d h _ => h⟩
  | @cons target contents rest fs fs1 fs' hcheck hmap hrest ih =>
    intro hapart
    obtain ⟨hplain, hpair⟩ := hapart
    obtain ⟨hfirst, hpair⟩ := List.pairwise_cons.mp hpair
    obtain ⟨hin, hfrom, hkeep⟩ := ih ⟨fun e he => hplain e (List.mem_cons_of_mem _ he), hpair⟩
    obtain ⟨ns, hne, hval, hins⟩ := map_file_ok hmap
    obtain ⟨-, hat, hfrom1, hkeep1⟩ := insertFile_spec hne hins
    refine ⟨fun e he ns' hns' => ?_, fun q d hq => ?_, fun q d hq hpre => ?_⟩
    · rcases List.mem_cons.mp he with rfl | he
      · obtain rfl := List.map_injective_iff.mpr Subtype.val_injective (hns'.trans hval.symm)
        apply hkeep _ _ hat
        intro e he
        rw [hval]
        exact hfirst e he
      · exact hin e he ns' hns'
    · rcases hfrom q d hq with hold | ⟨e, he, hqe, hd⟩
      · rcases hfrom1 q d hold with hold | ⟨rfl, rfl⟩
        · exact .inl hold
        · exact .inr ⟨_, List.mem_cons_self, hval, rfl⟩
      · exact .inr ⟨e, List.mem_cons_of_mem _ he, hqe, hd⟩
    · apply hkeep q d
      · apply hkeep1 q d hq
        intro hp
        have := hp.map Subtype.val
        rw [hval] at this
        exact hpre _ List.mem_cons_self this
      · exact fun e he => hpre e (List.mem_cons_of_mem _ he)

/-- Of plain targets the tree and the walks see the same names. -/
theorem names_plain {target : String} (h : ∀ s ∈ locs_arr target, s ≠ "." ∧ s ≠ "") :
    names target = locs_arr target := by
  have hf := locs_arr_filter target
  have hsame : (locs_arr target).filter (fun s => s ≠ "") = locs_arr target :=
    List.filter_eq_self.mpr fun s hs => decide_eq_true (h s hs).2
  rw [hsame] at hf
  have hsplit : names target =
      ((components target).filter fun s => s ≠ "").filter fun s => s ≠ "." := by
    unfold names
    rw [List.filter_filter]
    congr 1
    funext s
    simp
  rw [hsplit, ← hf]
  exact List.filter_eq_self.mpr fun s hs => decide_eq_true (h s hs).1

theorem Fills.checked {ts : List (String × Bytes)} {fs fs' : FilesTrie} (hf : Fills ts fs fs') :
    ∀ e ∈ ts, check_mapping_target e.1 = .ok () := by
  induction hf with
  | nil => exact fun e he => absurd he List.not_mem_nil
  | cons hcheck hmap hrest ih =>
    intro e he
    rcases List.mem_cons.mp he with rfl | he
    · exact hcheck
    · exact ih e he

/-- In every tree that mappings build, nothing below `/vm/` opens, from any
directory and in any spelling; and a mapping of an archive directory that
succeeds, with every target made of names and none beginning an earlier one,
makes each file under the directory open at its target and no other file. -/
theorem mapping_exact {fs : FilesTrie} (h : Mapped fs) :
    (∀ v d dir_path path, v.fds.lookup d = some (.dir dir_path) →
      (lexical (dir_path.map Subtype.val ++ components path)).head? = some "vm" →
      ∀ f, openTarget fs v d path ≠ .ok f) ∧
    ∀ limiter arch file target fs' limiter', endsSlash file = true →
      map_archive_file fs limiter arch file target = (.ok (), fs', limiter') →
      Apart (targets arch file target) →
      (∀ e ∈ targets arch file target, Reaches fs' e.1 e.2) ∧
      ∀ path data, Reaches fs' path data → Reaches fs path data ∨
        ∃ e ∈ targets arch file target, names path = names e.1 ∧ e.2 = data := by
  refine ⟨fun v d dir_path path hd hvm f => (vm_stays_empty h).closed hd hvm f, ?_⟩
  intro limiter arch file target fs' limiter' hend hmap hapart
  obtain ⟨done, hfills, hdone⟩ := map_archive_file_fills hmap
  obtain rfl := hdone hend rfl
  rw [targets_loop] at hfills
  obtain ⟨hin, hfrom, -⟩ := hfills.spec hapart
  have hcheck := hfills.checked
  constructor
  · intro e he
    obtain ⟨-, hdd, hddl⟩ := check_mapping_target_ok (hcheck e he)
    obtain ⟨ns, -, hval⟩ := mapM_nameOf hddl
    have hnames := names_plain (hapart.plain e he)
    exact reaches_iff.mpr ⟨hdd, ns, hval.trans hnames.symm, hin e he ns hval⟩
  · intro path data hreach
    obtain ⟨hdd, ns, hval, hat⟩ := reaches_iff.mp hreach
    rcases hfrom ns data hat with hold | ⟨e, he, hqe, hd⟩
    · exact .inl (reaches_iff.mpr ⟨hdd, ns, hval, hold⟩)
    · right
      refine ⟨e, he, ?_, hd⟩
      rw [← hval, hqe, names_plain (hapart.plain e he)]

/-- One file, at a name. -/
def oneArchive (name : String) : Archive := ⟨[(name, [1])], List.pairwise_singleton _ _⟩

def mapT (name : String) : Except MapError Unit × FilesTrie × Limiter :=
  map_archive_file (.dir []) Limiter.new (oneArchive name) "d/" "/t"

/-- Two files below one directory, the one a level deeper. -/
def twoArchive : Archive :=
  ⟨[("d/x", [1]), ("d/y/z", [2])], List.pairwise_pair.mpr (by decide +kernel)⟩

def mapTwo : Except MapError Unit × FilesTrie × Limiter :=
  map_archive_file (.dir []) Limiter.new twoArchive "d/" "/t"

/-- Both open at their targets, and nothing else does. -/
theorem mapping_exact_two : Reaches mapTwo.2.1 "/t/x" [1] ∧ Reaches mapTwo.2.1 "/t/y/z" [2] ∧
    ∀ path data, Reaches mapTwo.2.1 path data → Reaches (.dir []) path data ∨
      names path = ["t", "x"] ∧ data = [1] ∨ names path = ["t", "y", "z"] ∧ data = [2] := by
  have hok : mapTwo.1 = .ok () := rfl
  have htargets : targets twoArchive "d/" "/t" = [("/t/x", [1]), ("/t/y/z", [2])] := by decide +kernel
  have hapart : Apart (targets twoArchive "d/" "/t") := by
    rw [htargets]
    exact ⟨by decide +kernel, by decide +kernel⟩
  obtain ⟨hin, hfrom⟩ := (mapping_exact .empty).2 Limiter.new twoArchive "d/" "/t" mapTwo.2.1
    mapTwo.2.2 (by decide +kernel) (by rw [← hok]; rfl) hapart
  rw [htargets] at hin hfrom
  refine ⟨hin ("/t/x", [1]) (by simp), hin ("/t/y/z", [2]) (by simp), fun path data hreach => ?_⟩
  rcases hfrom path data hreach with hold | ⟨e, he, hnames, hdata⟩
  · exact .inl hold
  · have hx : names "/t/x" = ["t", "x"] := by decide +kernel
    have hz : names "/t/y/z" = ["t", "y", "z"] := by decide +kernel
    simp only [List.mem_cons, List.not_mem_nil, or_false] at he
    rcases he with rfl | rfl
    · exact .inr (.inl ⟨hnames.trans hx, hdata.symm⟩)
    · exact .inr (.inr ⟨hnames.trans hz, hdata.symm⟩)

/-- `d/./x` is mapped to `/t/./x`, and nothing is there. -/
theorem dot_unreachable : (mapT "d/./x").1 = .ok () ∧
    targets (oneArchive "d/./x") "d/" "/t" = [("/t/./x", [1])] ∧
    ¬ Reaches (mapT "d/./x").2.1 "/t/./x" [1] := by
  refine ⟨rfl, by decide +kernel, fun h => ?_⟩
  have h1 := h (twoDirs []) 3 rfl
  have h2 : openTarget (mapT "d/./x").2.1 (twoDirs []) 3 "/t/./x" = .error .noent := rfl
  rw [h2] at h1
  cases h1

end GenVM.Wasi
