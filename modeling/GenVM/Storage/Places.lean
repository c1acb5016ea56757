import GenVM.Storage.Copy

/-!
# Access paths and assignment

A path leads from the root of a type to a place in it: a slot and an offset.
Different paths of one root lead to regions that share nothing, unless one
goes on where the other ends. Assignment between two places of one type is a
deep copy; between a place and itself it empties every `VLA` of the value,
because the destination is truncated before the source is read.

**Results.**
* `build_spec`: every type keeps `Spec`.
* `paths_disjoint`: regions of paths that part.
* `assign_iff`: when assignment is a deep copy.
-/
namespace GenVM.Storage

open ByteMem SlotTree

/-! ## Types that can be laid out -/

mutual
/-- The bytes a type takes in its slot; `none` goes on to the end. -/
def extent : Ty → Option Nat
  | .fixed n => some n
  | .bool => some 1
  | .strBytes => some 4
  | .bigint => some 4
  | .record fields => extents fields
  | .array item n => (extent item).map (n * ·)
  | .dynArray _ => some 4
  | .indirection _ => some 1
  | .vla _ => none

def extents : List Ty → Option Nat
  | [] => some 0
  | [t] => extent t
  | t :: t' :: ts => (extent t).bind fun n => (extents (t' :: ts)).map (n + ·)
end

mutual
/-- The bytes of a type in its slot, `desc.size`. -/
def slotSize : Ty → Nat
  | .fixed n => n
  | .bool => 1
  | .strBytes => 4
  | .bigint => 4
  | .record fields => slotSizes fields
  | .array item n => n * slotSize item
  | .dynArray _ => 4
  | .indirection _ => 1
  | .vla _ => vlaSize

def slotSizes : List Ty → Nat
  | [] => 0
  | t :: ts => slotSize t + slotSizes ts
end

mutual
/-- A `VLA` is the last field of its slot. -/
def VlaLast : Ty → Prop
  | .fixed _ => True
  | .bool => True
  | .strBytes => True
  | .bigint => True
  | .record fields => VlaLastAll fields
  | .array item _ => VlaLast item ∧ extent item ≠ none
  | .dynArray item => VlaLast item ∧ extent item ≠ none
  | .indirection item => VlaLast item
  | .vla item => VlaLast item ∧ extent item ≠ none

def VlaLastAll : List Ty → Prop
  | [] => True
  | [t] => VlaLast t
  | t :: t' :: ts => VlaLast t ∧ extent t ≠ none ∧ VlaLastAll (t' :: ts)
end

mutual
/-- What a value is after it was assigned to its own place. -/
def clearVla : Ty → Val → Val
  | .fixed _ => id
  | .bool => id
  | .strBytes => id
  | .bigint => id
  | .record fields => onList (clearAll fields)
  | .array item _ => onList (List.map (clearVla item))
  | .dynArray item => onList (List.map (clearVla item))
  | .indirection item => clearVla item
  | .vla _ => onList fun _ => []

def clearAll : List Ty → List Val → List Val
  | [] => id
  | [t] => onCons (clearVla t) id
  | t :: t' :: ts => onCons (clearVla t) (clearAll (t' :: ts))
end

variable {S : Type} [DecidableEq S] {T : Slots S}

mutual
theorem build_size (indirect : S → Nat → S) : ∀ t : Ty, (build indirect t).size = slotSize t
  | .fixed _ => rfl
  | .bool => rfl
  | .strBytes => rfl
  | .bigint => rfl
  | .record fields => buildAll_size indirect fields
  | .array item n => congrArg (n * ·) (build_size indirect item)
  | .dynArray _ => rfl
  | .indirection _ => rfl
  | .vla _ => rfl

theorem buildAll_size (indirect : S → Nat → S) :
    ∀ ts : List Ty, ((buildAll indirect ts).map Desc.size).sum = slotSizes ts
  | [] => rfl
  | t :: ts => by
    rw [buildAll, List.map_cons, List.sum_cons, build_size indirect t, buildAll_size indirect ts]
    rfl
end

theorem spec_some {ext : Option Nat} {d : Desc S} {cl : Val → Val} (h : Spec T ext d cl)
    (hn : ext ≠ none) : Spec T (some d.size) d cl := by
  cases ext with
  | none => exact absurd rfl hn
  | some n =>
    have hd := h.extent n rfl
    subst hd
    exact h

mutual
theorem build_spec : ∀ t : Ty, VlaLast t → Spec T (extent t) (build T.child t) (clearVla t)
  | .fixed n, _ => fixed_spec n
  | .bool, _ => bool_spec
  | .strBytes, _ => strBytes_spec
  | .bigint, _ => bigint_spec
  | .record fields, h => record_spec (buildAll_spec fields h)
  | .array item n, h => by
    have hi := build_spec item h.1
    have hs := array_spec (spec_some hi h.2) n
    have hext : extent (.array item n) = some (n * (build T.child item).size) := by
      unfold extent
      cases he : extent item with
      | none => exact absurd he h.2
      | some k => rw [Option.map_some, hi.extent k he]
    rw [hext]
    exact hs
  | .dynArray item, h => dyn_spec (spec_some (build_spec item h.1) h.2)
  | .indirection item, h => indirection_spec (build_spec item h)
  | .vla item, h => vla_spec (spec_some (build_spec item h.1) h.2)

theorem buildAll_spec : ∀ ts : List Ty, VlaLastAll ts →
    SeqSpec T (extents ts) (buildAll T.child ts) (clearAll ts)
  | [], _ => seq_nil
  | [t], h => seq_last (build_spec t h)
  | t :: t' :: ts, h => by
    have ht := build_spec t h.1
    have hs := seq_cons (spec_some ht h.2.1) (buildAll_spec (t' :: ts) h.2.2)
    have hext : extents (t :: t' :: ts)
        = (extents (t' :: ts)).map ((build T.child t).size + ·) := by
      rw [extents]
      cases he : extent t with
      | none => exact absurd he h.2.1
      | some k => rw [Option.bind_some, ht.extent k he]
    rw [hext]
    exact hs
end

/-! ## Paths -/

inductive Step where
  | field (i : Nat)
  | index (i : Nat)
  | deref
  deriving DecidableEq

/-- A place of a known type: the offsets on the way to its slot, and its own. -/
structure Place where
  ty : Ty
  slot : List Nat
  off : Nat

/-- mirrors generate.py:411-417, array.py:72-76, core.py:299-305 and 376-381 -/
def Place.step (pl : Place) (st : Step) : Option Place :=
  match pl.ty, st with
  | .record fields, .field i =>
    fields[i]?.map fun t => ⟨t, pl.slot, pl.off + slotSizes (fields.take i)⟩
  | .array item n, .index i => if i < n then some ⟨item, pl.slot, pl.off + i * slotSize item⟩ else none
  | .dynArray item, .index i => some ⟨item, pl.off :: pl.slot, i * slotSize item⟩
  | .indirection item, .deref => some ⟨item, pl.off :: pl.slot, 0⟩
  | .vla item, .index i => some ⟨item, pl.slot, pl.off + 4 + i * slotSize item⟩
  | _, _ => none

def Place.follow (pl : Place) : List Step → Option Place
  | [] => some pl
  | st :: path => (pl.step st).bind fun pl => pl.follow path

/-- The bytes a place and everything below it are kept in. -/
def Place.region (T : Slots S) (pl : Place) : Set (S × Nat) :=
  SlotTree.region T pl.slot pl.off (extent pl.ty)

def Place.get (T : Slots S) (pl : Place) (m : Mem S) : Val :=
  (build T.child pl.ty).get m (addr T pl.slot) pl.off

/-- `desc.set(dst, desc.get(src))` -/
def assign (T : Slots S) (dst src : Place) (m : Mem S) : Mem S :=
  (build T.child dst.ty).assign m (addr T dst.slot) dst.off (addr T src.slot) src.off

/-! ## Plain values -/

/-- The items of a list one after the other. -/
def setItems (set : Val → Mem S → Nat → Mem S) (stride : Nat) : List Val → Mem S → Nat → Mem S
  | [], m, _ => m
  | v :: vs, m, off => setItems set stride vs (set v m off) (off + stride)

/-- `desc.set` of a value that is no view; where the library raises nothing is
written. Mirrors the `set` of each description. -/
def setPlain (indirect : S → Nat → S) : Ty → Val → Mem S → S → Nat → Mem S
  | .fixed n, .bytes b, m, s, off => if b.length = n then write m s off b else m
  | .bool, .bool b, m, s, off => write m s off [if b then 1 else 0]
  | .strBytes, .bytes b, m, s, off => setContents indirect m s off b
  | .bigint, .int i, m, s, off => setContents indirect m s off (toBytes (bigintSize i) i)
  | .array item n, .list vs, m, s, off =>
    if vs.length = n then
      setItems (fun v m off => setPlain indirect item v m s off) (slotSize item) vs m off
    else m
  | .dynArray item, .list vs, m, s, off =>
    setItems (fun v m o => setPlain indirect item v m (indirect s off) o) (slotSize item) vs
      (store m s off 4 vs.length) 0
  | .indirection item, v, m, s, off => setPlain indirect item v m (indirect s off) 0
  | _, _, m, _, _ => m

omit [DecidableEq S] in
theorem setItems_frame {set : Val → Mem S → Nat → Mem S} {stride : Nat} {p : List Nat}
    (hset : ∀ v m off, Frame (SlotTree.region T p off (some stride)) m (set v m off)) :
    ∀ (vs : List Val) (m : Mem S) (off : Nat),
      Frame (SlotTree.region T p off (some (vs.length * stride))) m (setItems set stride vs m off) := by
  intro vs
  induction vs with
  | nil =>
    intro m off
    exact Frame.refl _ _
  | cons v vs ih =>
    intro m off
    have hlen : (v :: vs).length * stride = stride + vs.length * stride := by
      rw [List.length_cons]
      ring
    rw [hlen]
    have h1 : SlotTree.region T p (off + 0) (some stride)
        ⊆ SlotTree.region T p off (some (stride + vs.length * stride)) := by
      apply region_sub
      intro a ha
      have := within_some.mp ha
      exact within_some.mpr (by omega)
    have h2 : SlotTree.region T p (off + stride) (some (vs.length * stride))
        ⊆ SlotTree.region T p off (some (stride + vs.length * stride)) := by
      apply region_sub
      intro a ha
      have := within_some.mp ha
      exact within_some.mpr (by omega)
    exact ((hset v m off).mono h1).trans ((ih (set v m off) (off + stride)).mono h2)

theorem setPlain_frame : ∀ (t : Ty) (_ : VlaLast t) (v : Val) (m : Mem S) (p : List Nat) (off : Nat),
    Frame (SlotTree.region T p off (extent t)) m (setPlain T.child t v m (addr T p) off)
  | .fixed n, _, v, m, p, off => by
    cases v with
    | bytes b =>
      unfold setPlain
      split
      · rename_i h
        exact write_region h
      · exact Frame.refl _ _
    | bool _ => exact Frame.refl _ _
    | int _ => exact Frame.refl _ _
    | list _ => exact Frame.refl _ _
  | .bool, _, v, m, p, off => by
    cases v with
    | bool b => exact write_region rfl
    | bytes _ => exact Frame.refl _ _
    | int _ => exact Frame.refl _ _
    | list _ => exact Frame.refl _ _
  | .strBytes, _, v, m, p, off => by
    cases v with
    | bytes b => exact setContents_frame m p off b
    | bool _ => exact Frame.refl _ _
    | int _ => exact Frame.refl _ _
    | list _ => exact Frame.refl _ _
  | .bigint, _, v, m, p, off => by
    cases v with
    | int i => exact setContents_frame m p off _
    | bytes _ => exact Frame.refl _ _
    | bool _ => exact Frame.refl _ _
    | list _ => exact Frame.refl _ _
  | .record _, _, v, m, p, off => by
    cases v <;> exact Frame.refl _ _
  | .vla _, _, v, m, p, off => by
    cases v <;> exact Frame.refl _ _
  | .indirection item, h, v, m, p, off => by
    have hsub : SlotTree.region T (off :: p) 0 (extent item)
        ⊆ SlotTree.region T p off (some 1) := region_child (a := 0) (within_some.mpr (by decide))
    have hset := (setPlain_frame item h v m (off :: p) 0).mono hsub
    unfold setPlain
    exact hset
  | .array item n, h, v, m, p, off => by
    cases v with
    | list vs =>
      unfold setPlain
      split
      · rename_i hn
        have hext : extent item = some (slotSize item) := by
          have hs := build_spec (T := T) item h.1
          cases he : extent item with
          | none => exact absurd he h.2
          | some k => rw [hs.extent k he, build_size]
        have hitem : ∀ v m off, Frame (SlotTree.region T p off (some (slotSize item))) m
            (setPlain T.child item v m (addr T p) off) := by
          intro v m off
          rw [← hext]
          exact setPlain_frame item h.1 v m p off
        have hall := setItems_frame hitem vs m off
        rw [hn] at hall
        unfold extent
        rw [hext]
        exact hall
      · exact Frame.refl _ _
    | bytes _ => exact Frame.refl _ _
    | bool _ => exact Frame.refl _ _
    | int _ => exact Frame.refl _ _
  | .dynArray item, h, v, m, p, off => by
    cases v with
    | list vs =>
      have hsub : ∀ ext, SlotTree.region T (off :: p) 0 ext ⊆ SlotTree.region T p off (some 4) :=
        fun ext => region_child (a := 0) (within_some.mpr (by decide))
      have hext : extent item = some (slotSize item) := by
        have hs := build_spec (T := T) item h.1
        cases he : extent item with
        | none => exact absurd he h.2
        | some k => rw [hs.extent k he, build_size]
      have hitem : ∀ v m o, Frame (SlotTree.region T (off :: p) o (some (slotSize item))) m
          (setPlain T.child item v m (addr T (off :: p)) o) := by
        intro v m o
        rw [← hext]
        exact setPlain_frame item h.1 v m (off :: p) o
      have hlen : Frame (SlotTree.region T p off (some 4)) m
          (store m (addr T p) off 4 vs.length) :=
        (store_frame _ _ _ _ _).mono (cells_subset within_of_lt)
      have hall := (setItems_frame hitem vs (store m (addr T p) off 4 vs.length) 0).mono (hsub _)
      unfold setPlain
      exact hlen.trans hall
    | bytes _ => exact Frame.refl _ _
    | bool _ => exact Frame.refl _ _
    | int _ => exact Frame.refl _ _

/-! ## Steps from a place -/

theorem extent_size {t : Ty} (T : Slots S) (h : VlaLast t) {n : Nat} (he : extent t = some n) :
    n = slotSize t := by
  have hs := (build_spec (T := T) t h).extent n he
  rw [hs, build_size]

theorem extent_some {t : Ty} (T : Slots S) (h : VlaLast t) (he : extent t ≠ none) :
    extent t = some (slotSize t) := by
  cases hn : extent t with
  | none => exact absurd hn he
  | some n => rw [extent_size T h hn]

/-- A field lies inside its record. -/
theorem field_within (T : Slots S) : ∀ (fields : List Ty), VlaLastAll fields →
    ∀ (i : Nat) (t : Ty), fields[i]? = some t → VlaLast t ∧
      ∀ a, Within (extent t) a → Within (extents fields) (slotSizes (fields.take i) + a)
  | [], _, i, t, hi => by simp at hi
  | [u], h, i, t, hi => by
    cases i with
    | zero =>
      cases hi
      refine ⟨h, ?_⟩
      intro a ha
      show Within (extent u) (0 + a)
      rw [Nat.zero_add]
      exact ha
    | succ i => simp at hi
  | u :: u' :: us, h, i, t, hi => by
    have hu := extent_some T h.1 h.2.1
    have hext : extents (u :: u' :: us) = (extents (u' :: us)).map (slotSize u + ·) := by
      rw [extents, hu, Option.bind_some]
    rw [hext]
    cases i with
    | zero =>
      cases hi
      refine ⟨h.1, ?_⟩
      intro a ha n hn
      obtain ⟨k, -, rfl⟩ := Option.map_eq_some_iff.mp hn
      rw [hu] at ha
      have := within_some.mp ha
      show 0 + a < _
      omega
    | succ i =>
      obtain ⟨h1, h2⟩ := field_within T (u' :: us) h.2.2 i t hi
      refine ⟨h1, ?_⟩
      intro a ha n hn
      obtain ⟨k, hk, rfl⟩ := Option.map_eq_some_iff.mp hn
      have := h2 a ha k hk
      rw [List.take_succ_cons, slotSizes]
      omega

/-- A field ends before the next ones start. -/
theorem fields_apart (T : Slots S) : ∀ (fields : List Ty), VlaLastAll fields →
    ∀ (i j : Nat) (t u : Ty), i < j → fields[i]? = some t → fields[j]? = some u →
      ∀ a, Within (extent t) a → slotSizes (fields.take i) + a < slotSizes (fields.take j)
  | [], _, i, j, t, u, _, hi, _ => by simp at hi
  | [w], h, i, j, t, u, hij, hi, hj => by
    cases j with
    | zero => omega
    | succ j => simp at hj
  | w :: w' :: ws, h, i, j, t, u, hij, hi, hj => by
    intro a ha
    cases j with
    | zero => omega
    | succ j =>
      rw [List.take_succ_cons, slotSizes]
      cases i with
      | zero =>
        cases hi
        rw [extent_some T h.1 h.2.1] at ha
        have := within_some.mp ha
        show 0 + a < _
        omega
      | succ i =>
        have hrec := fields_apart T (w' :: ws) h.2.2 i j t u (by omega) hi hj a ha
        rw [List.take_succ_cons, slotSizes]
        omega

/-- The elements of a run end one before the next. -/
theorem items_apart {i j n : Nat} (hij : i < j) {a : Nat} (ha : a < n) : i * n + a < j * n := by
  have h1 : (i + 1) * n ≤ j * n := Nat.mul_le_mul_right n hij
  have h2 : (i + 1) * n = i * n + n := by ring
  omega

theorem step_inside {pl pl' : Place} {st : Step} (h : VlaLast pl.ty) (hs : pl.step st = some pl') :
    VlaLast pl'.ty ∧ pl'.region T ⊆ pl.region T ∧ sizeOf pl'.ty < sizeOf pl.ty := by
  obtain ⟨t, p, off⟩ := pl
  unfold Place.step at hs
  dsimp only at hs h
  split at hs
  · rename_i fields i
    obtain ⟨u, hu, rfl⟩ := Option.map_eq_some_iff.mp hs
    obtain ⟨h1, h2⟩ := field_within T fields h i u hu
    have hmem := List.mem_of_getElem? hu
    have hlt := List.sizeOf_lt_of_mem hmem
    refine ⟨h1, region_sub h2, ?_⟩
    simp only [Ty.record.sizeOf_spec]
    omega
  · rename_i item n i
    split at hs
    · rename_i hi
      cases hs
      refine ⟨h.1, ?_, by simp only [Ty.array.sizeOf_spec]; omega⟩
      apply region_sub
      intro a ha
      have hext := extent_some T h.1 h.2
      dsimp only at ha
      rw [hext] at ha
      unfold extent
      rw [hext]
      exact within_some.mpr (items_apart hi (within_some.mp ha))
    · cases hs
  · cases hs
    refine ⟨h.1, ?_, by simp only [Ty.dynArray.sizeOf_spec]; omega⟩
    exact region_child (a := 0) (within_some.mpr (by decide))
  · cases hs
    refine ⟨h, ?_, by simp only [Ty.indirection.sizeOf_spec]; omega⟩
    exact region_child (a := 0) (within_some.mpr (by decide))
  · cases hs
    refine ⟨h.1, ?_, by simp only [Ty.vla.sizeOf_spec]; omega⟩
    unfold Place.region
    dsimp only
    rw [Nat.add_assoc]
    apply region_sub
    intro a _
    exact within_none _
  · cases hs

theorem step_apart {pl pl1 pl2 : Place} {st st' : Step} (h : VlaLast pl.ty)
    (h1 : pl.step st = some pl1) (h2 : pl.step st' = some pl2) (hne : st ≠ st') :
    Disjoint (pl1.region T) (pl2.region T) := by
  obtain ⟨t, p, off⟩ := pl
  unfold Place.step at h1 h2
  dsimp only at h1 h2 h
  cases t with
  | record fields =>
    cases st with
    | field i =>
      cases st' with
      | field j =>
        obtain ⟨u, hu, rfl⟩ := Option.map_eq_some_iff.mp h1
        obtain ⟨w, hw, rfl⟩ := Option.map_eq_some_iff.mp h2
        apply region_disjoint
        intro a a' ha ha'
        dsimp only at ha ha' ⊢
        rcases Nat.lt_trichotomy i j with hij | rfl | hij
        · have := fields_apart T fields h i j u w hij hu hw a ha
          omega
        · exact absurd rfl hne
        · have := fields_apart T fields h j i w u hij hw hu a' ha'
          omega
      | index j => cases h2
      | deref => cases h2
    | index i => cases h1
    | deref => cases h1
  | array item n =>
    have hext := extent_some T h.1 h.2
    cases st with
    | index i =>
      cases st' with
      | index j =>
        dsimp only at h1 h2
        split at h1
        · split at h2
          · cases h1
            cases h2
            apply region_disjoint
            intro a a' ha ha'
            dsimp only at ha ha' ⊢
            rw [hext] at ha ha'
            rcases Nat.lt_trichotomy i j with hij | rfl | hij
            · have := items_apart hij (within_some.mp ha)
              omega
            · exact absurd rfl hne
            · have := items_apart hij (within_some.mp ha')
              omega
          · cases h2
        · cases h1
      | field j => cases h2
      | deref => cases h2
    | field i => cases h1
    | deref => cases h1
  | dynArray item =>
    have hext := extent_some T h.1 h.2
    cases st with
    | index i =>
      cases st' with
      | index j =>
        cases h1
        cases h2
        apply region_disjoint
        intro a a' ha ha'
        dsimp only at ha ha' ⊢
        rw [hext] at ha ha'
        rcases Nat.lt_trichotomy i j with hij | rfl | hij
        · have := items_apart hij (within_some.mp ha)
          omega
        · exact absurd rfl hne
        · have := items_apart hij (within_some.mp ha')
          omega
      | field j => cases h2
      | deref => cases h2
    | field i => cases h1
    | deref => cases h1
  | indirection item =>
    cases st with
    | deref =>
      cases st' with
      | deref => exact absurd rfl hne
      | field j => cases h2
      | index j => cases h2
    | field i => cases h1
    | index i => cases h1
  | vla item =>
    have hext := extent_some T h.1 h.2
    cases st with
    | index i =>
      cases st' with
      | index j =>
        cases h1
        cases h2
        apply region_disjoint
        intro a a' ha ha'
        dsimp only at ha ha' ⊢
        rw [hext] at ha ha'
        rcases Nat.lt_trichotomy i j with hij | rfl | hij
        · have := items_apart hij (within_some.mp ha)
          omega
        · exact absurd rfl hne
        · have := items_apart hij (within_some.mp ha')
          omega
      | field j => cases h2
      | deref => cases h2
    | field i => cases h1
    | deref => cases h1
  | fixed n => cases h1
  | bool => cases h1
  | strBytes => cases h1
  | bigint => cases h1

theorem follow_inside {pl pl' : Place} (h : VlaLast pl.ty) {path : List Step}
    (hp : pl.follow path = some pl') :
    VlaLast pl'.ty ∧ pl'.region T ⊆ pl.region T ∧ (path ≠ [] → sizeOf pl'.ty < sizeOf pl.ty) := by
  induction path generalizing pl with
  | nil =>
    cases hp
    exact ⟨h, subset_rfl, fun hne => absurd rfl hne⟩
  | cons st path ih =>
    obtain ⟨pl1, h1, h2⟩ := Option.bind_eq_some_iff.mp hp
    obtain ⟨h3, h4, h5⟩ := step_inside (T := T) h h1
    obtain ⟨h6, h7, h8⟩ := ih h3 h2
    refine ⟨h6, h7.trans h4, ?_⟩
    intro _
    by_cases hpath : path = []
    · subst hpath
      cases h2
      exact h5
    · exact lt_trans (h8 hpath) h5

theorem paths_disjoint {pl pl1 pl2 : Place} (h : VlaLast pl.ty) {path1 path2 : List Step}
    (h1 : pl.follow path1 = some pl1) (h2 : pl.follow path2 = some pl2)
    (hn1 : ¬ path1 <+: path2) (hn2 : ¬ path2 <+: path1) :
    Disjoint (pl1.region T) (pl2.region T) := by
  induction path1 generalizing pl path2 with
  | nil => exact absurd (List.nil_prefix) hn1
  | cons st path1 ih =>
    cases path2 with
    | nil => exact absurd (List.nil_prefix) hn2
    | cons st' path2 =>
      obtain ⟨q1, hq1, hr1⟩ := Option.bind_eq_some_iff.mp h1
      obtain ⟨q2, hq2, hr2⟩ := Option.bind_eq_some_iff.mp h2
      have hi1 := step_inside (T := T) h hq1
      have hi2 := step_inside (T := T) h hq2
      by_cases hst : st = st'
      · subst hst
        rw [hq1] at hq2
        cases hq2
        apply ih hi1.1 hr1 hr2
        · exact fun hp => hn1 (List.prefix_cons_inj st |>.mpr hp)
        · exact fun hp => hn2 (List.prefix_cons_inj st |>.mpr hp)
      · exact (step_apart h hq1 hq2 hst).mono (follow_inside hi1.1 hr1).2.1 (follow_inside hi2.1 hr2).2.1

theorem follow_append (pl : Place) (path rest : List Step) :
    pl.follow (path ++ rest) = (pl.follow path).bind fun pl => pl.follow rest := by
  induction path generalizing pl with
  | nil => rfl
  | cons st path ih =>
    show (pl.step st).bind _ = ((pl.step st).bind _).bind _
    rw [Option.bind_assoc]
    congr 1
    funext pl'
    exact ih pl'

/-- Paths to places of one type part, when they are not the same. -/
theorem paths_part {pl pl1 pl2 : Place} (h : VlaLast pl.ty) {path1 path2 : List Step}
    (h1 : pl.follow path1 = some pl1) (h2 : pl.follow path2 = some pl2) (hty : pl1.ty = pl2.ty)
    (T : Slots S) (hp : path1 <+: path2) : path1 = path2 := by
  obtain ⟨rest, rfl⟩ := hp
  rw [follow_append, h1, Option.bind_some] at h2
  have hv := (follow_inside (T := T) h h1).1
  have hlt := (follow_inside (T := T) hv h2).2.2
  by_cases hr : rest = []
  · rw [hr, List.append_nil]
  · have := hlt hr
    rw [hty] at this
    omega

/-! ## Assignment -/

mutual
/-- No `VLA` of the value has elements. -/
def VlaEmpty : Ty → Val → Prop
  | .record fields, .list vs => VlaEmptyAll fields vs
  | .array item _, .list vs => ∀ v ∈ vs, VlaEmpty item v
  | .dynArray item, .list vs => ∀ v ∈ vs, VlaEmpty item v
  | .indirection item, v => VlaEmpty item v
  | .vla _, .list vs => vs = []
  | _, _ => True

def VlaEmptyAll : List Ty → List Val → Prop
  | t :: ts, v :: vs => VlaEmpty t v ∧ VlaEmptyAll ts vs
  | _, _ => True
end

theorem map_eq_self {f : Val → Val} {vs : List Val} : vs.map f = vs ↔ ∀ v ∈ vs, f v = v := by
  conv_lhs => rhs; rw [← List.map_id vs]
  exact List.map_inj_left

mutual
theorem clear_iff : ∀ (t : Ty) (v : Val), clearVla t v = v ↔ VlaEmpty t v
  | .fixed _, v => by simp [clearVla, VlaEmpty]
  | .bool, v => by simp [clearVla, VlaEmpty]
  | .strBytes, v => by simp [clearVla, VlaEmpty]
  | .bigint, v => by simp [clearVla, VlaEmpty]
  | .record fields, v => by
    cases v with
    | list vs =>
      have h := clearAll_iff fields vs
      simp only [clearVla, VlaEmpty, onList, Val.list.injEq]
      exact h
    | bytes _ => simp [clearVla, VlaEmpty, onList]
    | bool _ => simp [clearVla, VlaEmpty, onList]
    | int _ => simp [clearVla, VlaEmpty, onList]
  | .array item _, v => by
    cases v with
    | list vs =>
      simp only [clearVla, VlaEmpty, onList, Val.list.injEq, map_eq_self]
      exact forall₂_congr fun v _ => clear_iff item v
    | bytes _ => simp [clearVla, VlaEmpty, onList]
    | bool _ => simp [clearVla, VlaEmpty, onList]
    | int _ => simp [clearVla, VlaEmpty, onList]
  | .dynArray item, v => by
    cases v with
    | list vs =>
      simp only [clearVla, VlaEmpty, onList, Val.list.injEq, map_eq_self]
      exact forall₂_congr fun v _ => clear_iff item v
    | bytes _ => simp [clearVla, VlaEmpty, onList]
    | bool _ => simp [clearVla, VlaEmpty, onList]
    | int _ => simp [clearVla, VlaEmpty, onList]
  | .indirection item, v => by
    have h := clear_iff item v
    simp only [clearVla, VlaEmpty]
    exact h
  | .vla _, v => by
    cases v with
    | list vs =>
      simp only [clearVla, VlaEmpty, onList, Val.list.injEq]
      exact eq_comm
    | bytes _ => simp [clearVla, VlaEmpty, onList]
    | bool _ => simp [clearVla, VlaEmpty, onList]
    | int _ => simp [clearVla, VlaEmpty, onList]

theorem clearAll_iff : ∀ (ts : List Ty) (vs : List Val), clearAll ts vs = vs ↔ VlaEmptyAll ts vs
  | [], vs => by simp [clearAll, VlaEmptyAll]
  | [t], vs => by
    cases vs with
    | nil => simp [clearAll, VlaEmptyAll, onCons]
    | cons v vs =>
      have h := clear_iff t v
      simp only [clearAll, VlaEmptyAll, onCons, id_eq, List.cons.injEq, and_true]
      exact h
  | t :: t' :: ts, vs => by
    cases vs with
    | nil => simp [clearAll, VlaEmptyAll, onCons]
    | cons v vs =>
      have h1 := clear_iff t v
      have h2 := clearAll_iff (t' :: ts) vs
      rw [clearAll, VlaEmptyAll]
      simp only [onCons, List.cons.injEq]
      exact and_congr h1 h2
end

/-- The destination reads as the source did, the source and everything
outside the destination are as before. -/
structure DeepCopy (T : Slots S) (dst src : Place) (m : Mem S) : Prop where
  reads : dst.get T (assign T dst src m) = src.get T m
  source : src.get T (assign T dst src m) = src.get T m
  frame : Frame (dst.region T) m (assign T dst src m)

theorem get_of_frame {pl pl' : Place} (h : VlaLast pl.ty)
    (hd : Disjoint (pl'.region T) (pl.region T)) {m m' : Mem S} (hf : Frame (pl'.region T) m m') :
    pl.get T m' = pl.get T m :=
  (build_spec (T := T) pl.ty h).get_congr _ _ _ _ (hf.agreeOn hd)

theorem assign_apart {dst src : Place} (h : VlaLast dst.ty) (hty : dst.ty = src.ty) {m : Mem S}
    (hfits : Fits (src.get T m)) (hd : Disjoint (dst.region T) (src.region T)) :
    DeepCopy T dst src m := by
  obtain ⟨t, p, off⟩ := dst
  obtain ⟨t', q, off'⟩ := src
  dsimp only at hty h
  subst hty
  have hp : Places T false p off q off' (extent t) := by
    constructor
    · intro hs
      cases hs
    · intro _
      exact hd
  obtain ⟨hframe, hget⟩ := (build_spec (T := T) t h).assign false p off q off' m hp
  exact ⟨hget hfits, get_of_frame (show VlaLast (Place.mk t q off').ty from h) hd hframe, hframe⟩

theorem assign_self {pl : Place} (h : VlaLast pl.ty) {m : Mem S} (hfits : Fits (pl.get T m)) :
    Frame (pl.region T) m (assign T pl pl m) ∧
      pl.get T (assign T pl pl m) = clearVla pl.ty (pl.get T m) := by
  have hp : Places T true pl.slot pl.off pl.slot pl.off (extent pl.ty) := by
    constructor
    · intro _
      exact ⟨rfl, rfl⟩
    · intro hs
      cases hs
  obtain ⟨hframe, hget⟩ := (build_spec (T := T) pl.ty h).assign true _ _ _ _ m hp
  exact ⟨hframe, hget hfits⟩

/-- For every type tree: paths that part lead to regions that share nothing,
so that no write through the one is read through the other; and assignment
between two places of one type is a deep copy exactly when they are different
places or no `VLA` of the value has elements. -/
theorem assign_iff (T : Slots S) (t : Ty) (h : VlaLast t) (path1 path2 : List Step)
    (pl1 pl2 : Place) (h1 : Place.follow ⟨t, [], 0⟩ path1 = some pl1)
    (h2 : Place.follow ⟨t, [], 0⟩ path2 = some pl2) :
    (¬ path1 <+: path2 → ¬ path2 <+: path1 →
      Disjoint (pl1.region T) (pl2.region T) ∧
        ∀ m m' : Mem S, Frame (pl1.region T) m m' → pl2.get T m' = pl2.get T m) ∧
    (∀ v m, Frame (pl1.region T) m (setPlain T.child pl1.ty v m (addr T pl1.slot) pl1.off)) ∧
    (pl1.ty = pl2.ty → ∀ m : Mem S, Fits (pl2.get T m) →
      (path1 ≠ path2 → Disjoint (pl1.region T) (pl2.region T)) ∧
      (DeepCopy T pl1 pl2 m ↔ path1 ≠ path2 ∨ VlaEmpty pl2.ty (pl2.get T m))) := by
  have hv1 := (follow_inside (T := T) h h1).1
  have hv2 := (follow_inside (T := T) h h2).1
  refine ⟨?_, ?_, ?_⟩
  · intro hn1 hn2
    have hd : Disjoint (pl1.region T) (pl2.region T) := paths_disjoint h h1 h2 hn1 hn2
    exact ⟨hd, fun m m' hf => get_of_frame hv2 hd hf⟩
  · intro v m
    exact setPlain_frame pl1.ty hv1 v m pl1.slot pl1.off
  · intro hty m hfits
    have hd : path1 ≠ path2 → Disjoint (pl1.region T) (pl2.region T) := by
      intro hne
      apply paths_disjoint h h1 h2
      · exact fun hp => hne (paths_part h h1 h2 hty T hp)
      · exact fun hp => hne (paths_part h h2 h1 hty.symm T hp).symm
    refine ⟨hd, ?_⟩
    by_cases hne : path1 = path2
    · subst hne
      rw [h1] at h2
      cases h2
      obtain ⟨hframe, hget⟩ := assign_self hv1 hfits
      constructor
      · intro hcopy
        refine .inr ((clear_iff _ _).mp ?_)
        rw [← hget]
        exact hcopy.reads
      · intro hor
        have hclear := (clear_iff _ _).mpr (hor.resolve_left fun hne => hne rfl)
        have hsame := hget.trans hclear
        exact ⟨hsame, hsame, hframe⟩
    · constructor
      · intro _
        exact .inl hne
      · intro _
        exact assign_apart hv1 hty hfits (hd hne)

/-! ## Slots named by their offsets -/

def pathSlots : Slots (List Nat) where
  root := []
  child s o := o :: s
  child_inj s o s' o' h := by
    obtain ⟨h1, h2⟩ := List.cons.inj h
    exact ⟨h2, h1⟩
  child_ne_root s o h := by cases h

/-- Two arrays of strings, the second with the one string "hi". -/
def twoArrays : Ty := .record [.dynArray .strBytes, .dynArray .strBytes]

def oneString : Mem (List Nat) := fun s o =>
  if s = [] ∧ o = 4 then 1
  else if s = [4] ∧ o = 0 then 2
  else if s = [0, 4] then [104, 105].getD o 0
  else 0

/-- The first array is given the second, whose string is in a slot of its own. -/
theorem assign_iff_arrays :
    Place.get pathSlots ⟨.dynArray .strBytes, [], 4⟩ oneString = .list [.bytes [104, 105]] ∧
    DeepCopy pathSlots ⟨.dynArray .strBytes, [], 0⟩ ⟨.dynArray .strBytes, [], 4⟩ oneString := by
  have hget : Place.get pathSlots ⟨.dynArray .strBytes, [], 4⟩ oneString =
      .list [.bytes [104, 105]] := rfl
  have hfits : Fits (Place.get pathSlots ⟨.dynArray .strBytes, [], 4⟩ oneString) := by
    rw [hget]
    refine .list _ fun v hv => ?_
    rw [List.mem_singleton.mp hv]
    exact .bytes _
  have hlast : VlaLast twoArrays := ⟨⟨trivial, by decide⟩, by decide, trivial, by decide⟩
  obtain ⟨-, -, h⟩ := assign_iff pathSlots twoArrays hlast [.field 0] [.field 1]
    ⟨.dynArray .strBytes, [], 0⟩ ⟨.dynArray .strBytes, [], 4⟩ rfl rfl
  exact ⟨hget, (h rfl oneString hfits).2.mpr (.inl (by decide))⟩

/-- A `VLA` with one element, assigned to itself. -/
theorem vla_emptied : ¬ DeepCopy pathSlots ⟨.vla (.fixed 1), [], 0⟩ ⟨.vla (.fixed 1), [], 0⟩
    (fun s o => if s = [] ∧ o = 0 then 1 else 0) := by
  intro h
  have h1 : Place.get pathSlots ⟨.vla (.fixed 1), [], 0⟩
      (assign pathSlots ⟨.vla (.fixed 1), [], 0⟩ ⟨.vla (.fixed 1), [], 0⟩
        (fun s o => if s = [] ∧ o = 0 then 1 else 0)) = .list [] := rfl
  have h2 : Place.get pathSlots ⟨.vla (.fixed 1), [], 0⟩
      (fun s o => if s = [] ∧ o = 0 then 1 else 0) = .list [.bytes [0]] := rfl
  have h3 := h.reads
  rw [h1, h2] at h3
  cases h3

end GenVM.Storage
