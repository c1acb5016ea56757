import GenVM.Py.Objects

/-!
# Contract events (`genlayer-py-std/src/genlayer/chain.py`)

A subclass of `Event` declares its indexed fields as positional-only parameters
of its constructor. `do_init` replaces the constructor by one that binds the
arguments to the *sorted* names, one by one, so an argument reaches the name it
was declared for exactly when sorting does not move it.

Results: `names_kept_iff`, `every_call_iff`.
-/
namespace GenVM.Py.Event
open GenVM.Calldata

/-! ## The class -/

/-- `inspect.Parameter.kind` -/
inductive Kind where
  | POSITIONAL_ONLY
  | POSITIONAL_OR_KEYWORD
  | VAR_POSITIONAL
  | KEYWORD_ONLY
  | VAR_KEYWORD
  deriving DecidableEq

structure Parameter where
  name : String
  kind : Kind

/-- The signature of a constructor: Python takes no name twice. -/
structure Signature where
  parameters : List Parameter
  distinct : (parameters.map Parameter.name).Nodup

/-- What is raised. The context note of a parameter is kept as its name. -/
inductive Raised where
  | AssertionError
  | TypeError (parameter message : String)
  /-- the constructor got another number of positional arguments -/
  | mismatch (expected : List String) (got : Nat)
  /-- a keyword that is an indexed field, or `self` -/
  | keyword (name : String)
  | KeyError (name : String)
  /-- what `calldata.encode` raises for this field -/
  | encode (name : String)

/-- What `__init_subclass__` leaves on the class; `warned` when it warned of too
many indexed fields. -/
structure Klass where
  name : String
  signature : String
  indexed : List String
  warned : Bool

def EVENT_MAX_TOPICS : Nat := 4

/-- mirrors runners/genlayer-py-std/src/genlayer/chain.py:174-191 -/
def indexed_args_lst : List Parameter → Except Raised (List String)
  | [] => .ok []
  | p :: ps =>
    match p.kind with
    | .VAR_POSITIONAL => .error (.TypeError p.name "`*args` is forbidden")
    | .KEYWORD_ONLY => .error (.TypeError p.name "keyword-only arguments are forbidden")
    | .POSITIONAL_OR_KEYWORD => .error (.TypeError p.name "specify `/` after indexed fields")
    | .VAR_KEYWORD => indexed_args_lst ps
    | .POSITIONAL_ONLY => (indexed_args_lst ps).map (p.name :: ·)

/-- mirrors runners/genlayer-py-std/src/genlayer/chain.py:174-178 -/
def scan : List Parameter → Except Raised (List String)
  | [] => .ok []
  | p :: ps =>
    if p.name ≠ "self" then .error (.TypeError p.name "first argument must be `self`")
    else indexed_args_lst ps

/-- `sorted` of a list of `str` -/
def sorted (names : List String) : List String := names.insertionSort (· ≤ ·)

/-- `old_init` is nothing when it is the one of `Event`, `name` when the class has no
such attribute. mirrors runners/genlayer-py-std/src/genlayer/chain.py:161-223 -/
def do_init (class_name : String) (name : Option String) (old_init : Option Signature) :
    Except Raised Klass :=
  match old_init with
  | none => .error .AssertionError
  | some sig => do
    let lst ← scan sig.parameters
    let event_name := name.getD class_name
    let indexed_args := sorted lst
    .ok {
      name := event_name
      signature := event_name ++ "(" ++ ",".intercalate indexed_args ++ ")"
      indexed := indexed_args
      warned := EVENT_MAX_TOPICS < indexed_args.length }

/-! ## An event -/

/-- `kwargs`, and the `_blob` it becomes, in insertion order -/
abbrev Blob := List (String × Object)

/-- mirrors runners/genlayer-py-std/src/genlayer/chain.py:201-204 -/
def bindLoop : List (String × Object) → Blob → Except Raised Blob
  | [], kwargs => .ok kwargs
  | (name, val) :: rest, kwargs =>
    if (kwargs.lookup name).isSome then .error (.keyword name)
    else bindLoop rest (kwargs ++ [(name, val)])

/-- The constructor that `do_init` makes; a keyword `self` does not get there.
mirrors runners/genlayer-py-std/src/genlayer/chain.py:195-206 -/
def Klass.init (k : Klass) (args : List Object) (kwargs : Blob) : Except Raised Blob :=
  if (kwargs.lookup "self").isSome then .error (.keyword "self")
  else if args.length ≠ k.indexed.length then .error (.mismatch k.indexed args.length)
  else bindLoop (k.indexed.zip args) kwargs

section
variable (Keccak256 : Bytes → Bytes)

/-- The topic of field `i`, whose value is `d`.
mirrors runners/genlayer-py-std/src/genlayer/chain.py:236-242 -/
def topic (i : String) (d : Option Object) : Except Raised Bytes :=
  match d with
  | none => .error (.KeyError i)
  | some d =>
    match Object.encode d with
    | none => .error (.encode i)
    | some as_cd =>
      if 32 < as_cd.length then .ok (Keccak256 as_cd)
      else .ok (as_cd ++ List.replicate (32 - as_cd.length) 0)

/-- The topics and the blob of the `EmitEvent` request.
mirrors runners/genlayer-py-std/src/genlayer/chain.py:230-244 -/
def Klass.emit (k : Klass) (blob : Blob) : Except Raised (List Bytes × Blob) := do
  let topics ← k.indexed.mapM fun i => topic Keccak256 i (blob.lookup i)
  .ok (Keccak256 (String.toUTF8 k.signature).data.toList :: topics, blob)

/-! ## What a call promises -/

/-- The names of the indexed fields, as declared. -/
def Signature.declared (sig : Signature) : List String :=
  ((sig.parameters.tail).filter fun p => p.kind = .POSITIONAL_ONLY).map Parameter.name

/-- The argument in the declared position of a name. -/
def argument (declared : List String) (args : List Object) (name : String) : Option Object :=
  args[declared.idxOf name]?

/-- Keywords that a call may have. -/
structure Admissible (declared : List String) (kwargs : Blob) : Prop where
  distinct : (kwargs.map Prod.fst).Nodup
  other : ∀ kv ∈ kwargs, kv.1 ∉ declared ∧ kv.1 ≠ "self"

/-- The event binds every field to its argument and every keyword to its value, and
is emitted with a topic for each field, in the order of the signature. -/
def NamesKept (k : Klass) (declared : List String) (args : List Object) (kwargs : Blob) : Prop :=
  ∃ blob, k.init args kwargs = .ok blob ∧
    (∀ name ∈ declared, blob.lookup name = argument declared args name) ∧
    (∀ name v, (name, v) ∈ kwargs → blob.lookup name = some v) ∧
    k.emit Keccak256 blob = do
      let topics ← k.indexed.mapM fun i => topic Keccak256 i (argument declared args i)
      .ok (Keccak256 (String.toUTF8 k.signature).data.toList :: topics, blob)

/-- Every field has the same argument in the declared and in the sorted order. -/
def InPlace (declared : List String) (args : List Object) : Prop :=
  ∀ name ∈ declared, args[(sorted declared).idxOf name]? = args[declared.idxOf name]?

/-! ## Lemmas -/

theorem lookup_zip {V : Type} (name : String) : ∀ {names : List String} {vs : List V},
    vs.length ≤ names.length → (names.zip vs).lookup name = vs[names.idxOf name]?
  | [], [], _ => rfl
  | n :: names, [], _ => by
    rw [List.zip_nil_right, List.getElem?_nil]
    rfl
  | n :: names, v :: vs, h => by
    by_cases hn : name = n
    · subst hn
      rw [List.zip_cons_cons, List.lookup_cons_self, List.idxOf_cons_self]
      rfl
    · have hf : (name == n) = false := beq_eq_false_iff_ne.mpr hn
      rw [List.zip_cons_cons, List.lookup_cons, hf, List.idxOf_cons_ne names (Ne.symm hn),
        List.getElem?_cons_succ]
      exact lookup_zip name (Nat.le_of_succ_le_succ h)

theorem lookup_eq_none {V : Type} {m : List (String × V)} {name : String}
    (h : name ∉ m.map Prod.fst) : m.lookup name = none := by
  rw [List.lookup_eq_none_iff]
  intro p hp
  have hne : name ≠ p.1 := by
    rintro rfl
    exact h (List.mem_map_of_mem hp)
  exact bne_iff_ne.mpr hne

theorem lookup_of_mem {V : Type} {m : List (String × V)} (hm : (m.map Prod.fst).Nodup)
    {name : String} {v : V} (h : (name, v) ∈ m) : m.lookup name = some v := by
  induction m with
  | nil => exact absurd h List.not_mem_nil
  | cons p m ih =>
    rw [List.map_cons, List.nodup_cons] at hm
    rcases List.mem_cons.mp h with rfl | h
    · exact List.lookup_cons_self
    · have hne : name ≠ p.1 := by
        rintro rfl
        exact hm.1 (List.mem_map.mpr ⟨_, h, rfl⟩)
      rw [List.lookup_cons, beq_eq_false_iff_ne.mpr hne]
      exact ih hm.2 h

theorem mapM_congr_mem {A B : Type} {f g : A → Except Raised B} {l : List A}
    (h : ∀ a ∈ l, f a = g a) : l.mapM f = l.mapM g := by
  induction l with
  | nil => rfl
  | cons a l ih =>
    rw [List.forall_mem_cons] at h
    rw [List.mapM_cons, List.mapM_cons, h.1, ih h.2]

theorem indexed_args_lst_ok : ∀ {ps : List Parameter} {lst : List String},
    indexed_args_lst ps = .ok lst →
      lst = (ps.filter fun p => p.kind = .POSITIONAL_ONLY).map Parameter.name
  | [], lst, h => (Except.ok.inj h).symm
  | p :: ps, lst, h => by
    unfold indexed_args_lst at h
    cases hk : p.kind with
    | POSITIONAL_ONLY =>
      rw [hk] at h
      obtain ⟨rest, hrest, rfl⟩ := GenVM.Lib.Except.map_ok.mp h
      rw [List.filter_cons_of_pos (by rw [hk]; rfl), List.map_cons, indexed_args_lst_ok hrest]
    | VAR_KEYWORD =>
      rw [hk] at h
      rw [List.filter_cons_of_neg (by rw [hk]; decide), indexed_args_lst_ok h]
    | POSITIONAL_OR_KEYWORD =>
      rw [hk] at h
      cases h
    | VAR_POSITIONAL =>
      rw [hk] at h
      cases h
    | KEYWORD_ONLY =>
      rw [hk] at h
      cases h

/-- What the class lists is what was declared, sorted. -/
theorem do_init_ok {class_name : String} {name : Option String} {sig : Signature} {k : Klass}
    (h : do_init class_name name (some sig) = .ok k) :
    k.indexed = sorted sig.declared ∧
      k.signature = name.getD class_name ++ "(" ++ ",".intercalate k.indexed ++ ")" := by
  obtain ⟨lst, hscan, hk⟩ := GenVM.Lib.Except.bind_ok.mp h
  obtain rfl := Except.ok.inj hk
  refine ⟨congrArg sorted ?_, rfl⟩
  unfold scan at hscan
  unfold Signature.declared
  cases hp : sig.parameters with
  | nil =>
    rw [hp] at hscan
    exact (Except.ok.inj hscan).symm
  | cons p ps =>
    rw [hp] at hscan
    dsimp only at hscan
    split at hscan
    · cases hscan
    · exact indexed_args_lst_ok hscan

theorem declared_nodup (sig : Signature) : sig.declared.Nodup := by
  have hsub : sig.declared.Sublist (sig.parameters.map Parameter.name) :=
    (List.filter_sublist.trans (List.tail_sublist _)).map _
  exact hsub.nodup sig.distinct

theorem bindLoop_ok : ∀ {fields : List (String × Object)} {kwargs : Blob},
    (fields.map Prod.fst).Nodup → (∀ name ∈ fields.map Prod.fst, name ∉ kwargs.map Prod.fst) →
    bindLoop fields kwargs = .ok (kwargs ++ fields)
  | [], kwargs, _, _ => by rw [bindLoop, List.append_nil]
  | (name, val) :: rest, kwargs, hnd, hfresh => by
    rw [List.map_cons, List.nodup_cons] at hnd
    rw [List.map_cons, List.forall_mem_cons] at hfresh
    rw [bindLoop, lookup_eq_none hfresh.1, if_neg (by decide), bindLoop_ok hnd.2,
      List.append_assoc, List.singleton_append]
    intro name' hname'
    rw [List.map_append, List.mem_append]
    rintro (h | h)
    · exact hfresh.2 name' hname' h
    · exact hnd.1 (List.mem_singleton.mp h ▸ hname')

theorem sorted_perm (names : List String) : (sorted names).Perm names :=
  List.perm_insertionSort (· ≤ ·) names

/-- The event binds the sorted names to the arguments. -/
theorem init_eq {k : Klass} {declared : List String} {args : List Object} {kwargs : Blob}
    (hk : k.indexed = sorted declared) (hnd : declared.Nodup) (hlen : args.length = declared.length)
    (hadm : Admissible declared kwargs) :
    k.init args kwargs = .ok (kwargs ++ (sorted declared).zip args) := by
  have hsorted := sorted_perm declared
  have hself : kwargs.lookup "self" = none := by
    refine lookup_eq_none fun h => ?_
    obtain ⟨kv, hkv, he⟩ := List.mem_map.mp h
    exact (hadm.other kv hkv).2 he
  have hfst : ((sorted declared).zip args).map Prod.fst = sorted declared :=
    List.map_fst_zip (by rw [hsorted.length_eq, hlen])
  unfold Klass.init
  rw [hself, if_neg (by decide), hk, hsorted.length_eq, if_neg (not_not_intro hlen), bindLoop_ok]
  · rw [hfst]
    exact hsorted.nodup_iff.mpr hnd
  · rw [hfst]
    intro name hname h
    obtain ⟨kv, hkv, rfl⟩ := List.mem_map.mp h
    exact (hadm.other kv hkv).1 (hsorted.subset hname)

/-- What the event holds for a field: the argument in the place of its name among the
sorted ones. -/
theorem lookup_field {declared : List String} {args : List Object} {kwargs : Blob}
    (hlen : args.length = declared.length) (hadm : Admissible declared kwargs) {name : String}
    (hname : name ∈ declared) :
    (kwargs ++ (sorted declared).zip args).lookup name = args[(sorted declared).idxOf name]? := by
  have hnone : kwargs.lookup name = none := by
    refine lookup_eq_none fun h => ?_
    obtain ⟨kv, hkv, rfl⟩ := List.mem_map.mp h
    exact (hadm.other kv hkv).1 hname
  rw [List.lookup_append, hnone, Option.none_or, lookup_zip]
  rw [(sorted_perm declared).length_eq, hlen]

/-- **Arguments and names.** A call with an argument for each declared parameter keeps
the names exactly when sorting them moves no argument to another. -/
theorem names_kept_iff {class_name : String} {name : Option String} {sig : Signature} {k : Klass}
    (hk : do_init class_name name (some sig) = .ok k) {args : List Object} {kwargs : Blob}
    (hlen : args.length = sig.declared.length) (hadm : Admissible sig.declared kwargs) :
    NamesKept Keccak256 k sig.declared args kwargs ↔ InPlace sig.declared args := by
  have hindexed := (do_init_ok hk).1
  have hinit := init_eq hindexed (declared_nodup sig) hlen hadm
  constructor
  · rintro ⟨blob, hblob, hfield, -, -⟩ n hn
    obtain rfl := Except.ok.inj (hinit.symm.trans hblob)
    exact (lookup_field hlen hadm hn).symm.trans (hfield n hn)
  · intro hplace
    have hfield : ∀ n ∈ sig.declared, (kwargs ++ (sorted sig.declared).zip args).lookup n =
        argument sig.declared args n := by
      intro n hn
      rw [lookup_field hlen hadm hn, hplace n hn, argument]
    refine ⟨_, hinit, hfield, ?_, ?_⟩
    · intro n v hv
      rw [List.lookup_append, lookup_of_mem hadm.distinct hv, Option.some_or]
    · -- the topics only read the fields
      have hcongr : (k.indexed.mapM fun i => topic Keccak256 i
            ((kwargs ++ (sorted sig.declared).zip args).lookup i)) =
          k.indexed.mapM fun i => topic Keccak256 i (argument sig.declared args i) := by
        refine mapM_congr_mem fun i hi => ?_
        rw [hindexed] at hi
        rw [hfield i ((sorted_perm sig.declared).subset hi)]
      unfold Klass.emit
      rw [hcongr]

end

/-- `def __init__(self, b, a, /, **blob): ...` -/
def sorts : Signature :=
  ⟨[⟨"self", .POSITIONAL_ONLY⟩, ⟨"b", .POSITIONAL_ONLY⟩, ⟨"a", .POSITIONAL_ONLY⟩,
    ⟨"blob", .VAR_KEYWORD⟩], by decide⟩

theorem names_kept_iff_sorts : ∃ k, do_init "Sorts" none (some sorts) = .ok k ∧
    (NamesKept id k sorts.declared [.int 1, .int 2] [("gg", .int 5)] ↔
      InPlace sorts.declared [.int 1, .int 2]) :=
  ⟨_, rfl, names_kept_iff id (show do_init "Sorts" none (some sorts) = .ok _ from rfl) rfl
    ⟨List.nodup_singleton _, by
      intro kv hkv
      rw [List.mem_singleton] at hkv
      subst hkv
      decide⟩⟩

/-- `Sorts(1, 2)` binds `a` to 1 and `b` to 2. -/
theorem sorts_swapped : ∃ k, do_init "Sorts" none (some sorts) = .ok k ∧
    k.init [.int 1, .int 2] [] = .ok [("a", .int 1), ("b", .int 2)] ∧
    argument sorts.declared [.int 1, .int 2] "b" = some (.int 1) ∧
    ¬ NamesKept id k sorts.declared [.int 1, .int 2] [] := by
  refine ⟨_, rfl, rfl, rfl, ?_⟩
  rintro ⟨blob, hblob, hfield, -, -⟩
  obtain rfl := Except.ok.inj hblob
  have hb : some (Object.int 2) = some (Object.int 1) := hfield "b" (by decide)
  exact absurd (Object.int.inj (Option.some.inj hb)) (by decide)

/-! ## The class as a whole -/

/-- Every call keeps the names exactly when they are declared in sorted order. -/
theorem every_call_iff (Keccak256 : Bytes → Bytes) {class_name : String} {name : Option String}
    {sig : Signature} {k : Klass} (hk : do_init class_name name (some sig) = .ok k) :
    (∀ args kwargs, args.length = sig.declared.length → Admissible sig.declared kwargs →
        NamesKept Keccak256 k sig.declared args kwargs) ↔
      sorted sig.declared = sig.declared := by
  have hperm := sorted_perm sig.declared
  constructor
  · intro h
    -- numbers, all different, show where each argument goes
    have hlen : ((List.range sig.declared.length).map fun (i : Nat) => Object.int i).length =
        sig.declared.length := by rw [List.length_map, List.length_range]
    have hadm : Admissible sig.declared [] := ⟨List.nodup_nil, fun _ h => absurd h List.not_mem_nil⟩
    have hplace := (names_kept_iff Keccak256 hk hlen hadm).mp (h _ [] hlen hadm)
    refine List.ext_getElem hperm.length_eq fun i hi hi' => ?_
    have hmem : (sorted sig.declared)[i] ∈ sig.declared := hperm.subset (List.getElem_mem hi)
    have hnd : (sorted sig.declared).Nodup := hperm.nodup_iff.mpr (declared_nodup sig)
    have hat := hplace _ hmem
    have hlt : sig.declared.idxOf (sorted sig.declared)[i] < sig.declared.length :=
      List.idxOf_lt_length_of_mem hmem
    rw [hnd.idxOf_getElem i hi, List.getElem?_map, List.getElem?_map,
      List.getElem?_range hi', List.getElem?_range hlt, Option.map_some, Option.map_some] at hat
    have hidx : i = sig.declared.idxOf (sorted sig.declared)[i] := by
      have := Object.int.inj (Option.some.inj hat)
      omega
    have hget := List.getElem_idxOf hlt
    exact hget.symm.trans (by congr 1; exact hidx.symm)
  · intro h args kwargs hlen hadm
    refine (names_kept_iff Keccak256 hk hlen hadm).mpr fun n _ => ?_
    rw [h]

end GenVM.Py.Event
