import GenVM.Storage.Desc

/-!
# Copying a place

`Spec` is what every description keeps: reading looks at the region of the
place only, and copying, whether by `set` or by the copy actions, writes that
region only and makes the destination read as the source did. When both are
the same place the value read is `cl` of the one before. Descriptions are
built of others, and so is `Spec`.

**Results.**
* `applyCopy_fields`: the merged actions of a record copy one field after the other.
* `record_spec`, `array_spec`, `dyn_spec`, `indirection_spec`, `vla_spec`: one for
  each way of building.
-/
namespace GenVM.Storage

open ByteMem SlotTree

variable {S : Type} [DecidableEq S] {T : Slots S}

/-! ## Reading and writing bytes -/

/-- The bytes of a slot from `off` on. -/
def cells (s : S) (off n : Nat) : Set (S × Nat) := {x | x.1 = s ∧ off ≤ x.2 ∧ x.2 < off + n}

omit [DecidableEq S] in
theorem cells_subset {p : List Nat} {off n : Nat} {ext : Option Nat}
    (h : ∀ a, a < n → Within ext a) : cells (addr T p) off n ⊆ region T p off ext := by
  intro x hx
  obtain ⟨h1, h2, h3⟩ := hx
  have hx : x = (addr T p, off + (x.2 - off)) := by
    apply Prod.ext
    · exact h1
    · dsimp only
      omega
  rw [hx]
  exact region_own (h _ (by omega))

omit [DecidableEq S] in
/-- The bytes of a slot are not among those derived from it. -/
theorem cells_disjoint_child {p : List Nat} {off n a lo : Nat} {ext : Option Nat} :
    Disjoint (cells (addr T p) off n) (region T (a :: p) lo ext) := by
  rw [Set.disjoint_left]
  intro x hx hr
  obtain ⟨c, b, a', rfl, -, hs⟩ := hr
  have hc := addr_injective T c p hx.1
  rw [hc] at hs
  have hle := hs.length_le
  simp only [List.length_cons] at hle
  omega

theorem write_frame (m : Mem S) (s : S) (off : Nat) (b : List Byte) :
    Frame (cells s off b.length) m (write m s off b) := by
  intro x hx
  exact if_neg hx

theorem store_frame (m : Mem S) (s : S) (off w n : Nat) :
    Frame (cells s off w) m (store m s off w n) := by
  intro x hx
  exact if_neg hx

omit [DecidableEq S] in
theorem length_read (m : Mem S) (s : S) (off n : Nat) : (read m s off n).length = n := by
  unfold read
  rw [List.length_map, List.length_range]

omit [DecidableEq S] in
theorem read_congr {m m' : Mem S} {s : S} {off n : Nat} (h : AgreeOn (cells s off n) m m') :
    read m s off n = read m' s off n := by
  unfold read
  apply List.map_congr_left
  intro i hi
  have hi := List.mem_range.mp hi
  exact h (s, off + i) ⟨rfl, by dsimp only; omega, by dsimp only; omega⟩

omit [DecidableEq S] in
theorem load_agree {m m' : Mem S} {s : S} {off w : Nat} (h : AgreeOn (cells s off w) m m') :
    load m s off w = load m' s off w :=
  load_congr fun o h1 h2 => h (s, o) ⟨rfl, h1, h2⟩

theorem read_write (m : Mem S) (s : S) (off : Nat) (b : List Byte) :
    read (write m s off b) s off b.length = b := by
  apply List.ext_getElem
  · rw [length_read]
  · intro i h1 h2
    unfold read write
    simp only [List.getElem_map, List.getElem_range]
    rw [if_pos ⟨trivial, by omega, by omega⟩, Nat.add_sub_cancel_left, List.getD_eq_getElem _ _ h2]

/-- A `memcpy`, byte by byte. -/
theorem memcpy_apply (m : Mem S) (dst : S) (dstOff : Nat) (src : S) (srcOff n : Nat) (s : S)
    (o : Nat) : write m dst dstOff (read m src srcOff n) s o
      = if s = dst ∧ dstOff ≤ o ∧ o < dstOff + n then m src (srcOff + (o - dstOff)) else m s o := by
  unfold write
  rw [length_read]
  by_cases h : s = dst ∧ dstOff ≤ o ∧ o < dstOff + n
  · rw [if_pos h, if_pos h, List.getD_eq_getElem _ _ (by rw [length_read]; omega)]
    unfold read
    rw [List.getElem_map, List.getElem_range]
  · rw [if_neg h, if_neg h]

/-! ## Merged runs -/

/-- Two ranges of `n` bytes that are the same or share none. -/
def Sep (dst : S) (dstOff : Nat) (src : S) (srcOff n : Nat) : Prop :=
  dst = src → dstOff = srcOff ∨ dstOff + n ≤ srcOff ∨ srcOff + n ≤ dstOff

omit [DecidableEq S] in
theorem Sep.shift {dst src : S} {dstOff srcOff n k j : Nat} (h : Sep dst dstOff src srcOff n)
    (hk : k + j ≤ n) : Sep dst (dstOff + k) src (srcOff + k) j := by
  intro he
  have := h he
  omega

theorem memcpy_merge {m : Mem S} {dst src : S} {dstOff srcOff a b : Nat}
    (h : Sep dst dstOff src srcOff (a + b)) :
    write m dst dstOff (read m src srcOff (a + b))
      = (fun m1 => write m1 dst (dstOff + a) (read m1 src (srcOff + a) b))
          (write m dst dstOff (read m src srcOff a)) := by
  funext s o
  dsimp only
  rw [memcpy_apply, memcpy_apply]
  by_cases h1 : s = dst ∧ dstOff + a ≤ o ∧ o < dstOff + a + b
  · rw [if_pos h1, if_pos ⟨h1.1, by omega, by omega⟩, memcpy_apply, if_neg]
    · congr 1
      omega
    · -- the second run is not read from where the first was written
      intro hin
      have := h hin.1.symm
      omega
  · rw [if_neg h1, memcpy_apply]
    by_cases h2 : s = dst ∧ dstOff ≤ o ∧ o < dstOff + a
    · rw [if_pos h2, if_pos ⟨h2.1, by omega, by omega⟩]
    · rw [if_neg h2, if_neg]
      intro hin
      by_cases ho : o < dstOff + a
      · exact h2 ⟨hin.1, hin.2.1, ho⟩
      · exact h1 ⟨hin.1, by omega, by omega⟩

omit [DecidableEq S] in
theorem span_append (l r : List (Action S)) : span (l ++ r) = span l + span r := by
  unfold span
  rw [List.map_append, List.sum_append]

omit [DecidableEq S] in
theorem span_cons (a : Action S) (l : List (Action S)) : span (a :: l) = a.covers + span l := rfl

omit [DecidableEq S] in
theorem actionsAppend_cases (l r : List (Action S)) :
    actionsAppend l r = l ++ r ∨ ∃ l' a b r', l = l' ++ [.bytes a] ∧ r = .bytes b :: r' ∧
      actionsAppend l r = l' ++ .bytes (a + b) :: r' := by
  unfold actionsAppend
  split
  · rename_i a b r' hl
    refine .inr ⟨l.dropLast, a, b, r', ?_, rfl, rfl⟩
    exact (List.dropLast_append_getLast? _ hl).symm
  · exact .inl rfl

omit [DecidableEq S] in
theorem span_actionsAppend (l r : List (Action S)) :
    span (actionsAppend l r) = span l + span r := by
  rcases actionsAppend_cases l r with h | ⟨l', a, b, r', rfl, rfl, h⟩
  · rw [h, span_append]
  · rw [h]
    simp only [span_append, span_cons, Action.covers]
    simp only [span, List.map_nil, List.sum_nil]
    omega

theorem applyCopy_bytes (n : Nat) (acts : List (Action S)) (m : Mem S) (dst : S) (dstOff : Nat)
    (src : S) (srcOff : Nat) : applyCopy (.bytes n :: acts) m dst dstOff src srcOff
      = applyCopy acts (write m dst dstOff (read m src srcOff n)) dst (dstOff + n)
          src (srcOff + n) := rfl

theorem applyCopy_nil (m : Mem S) (dst : S) (dstOff : Nat) (src : S) (srcOff : Nat) :
    applyCopy [] m dst dstOff src srcOff = m := rfl

theorem applyCopy_append (l r : List (Action S)) (m : Mem S) (dst : S) (dstOff : Nat) (src : S)
    (srcOff : Nat) : applyCopy (l ++ r) m dst dstOff src srcOff
      = applyCopy r (applyCopy l m dst dstOff src srcOff) dst (dstOff + span l)
          src (srcOff + span l) := by
  induction l generalizing m dstOff srcOff with
  | nil => rfl
  | cons a l ih =>
    rw [span_cons, ← Nat.add_assoc, ← Nat.add_assoc]
    cases a with
    | bytes n => exact ih _ _ _
    | hook n copy => exact ih _ _ _

theorem applyCopy_actionsAppend {l r : List (Action S)} {m : Mem S} {dst src : S}
    {dstOff srcOff : Nat} (h : Sep dst dstOff src srcOff (span l + span r)) :
    applyCopy (actionsAppend l r) m dst dstOff src srcOff
      = applyCopy r (applyCopy l m dst dstOff src srcOff) dst (dstOff + span l)
          src (srcOff + span l) := by
  rcases actionsAppend_cases l r with heq | ⟨l', a, b, r', rfl, rfl, heq⟩
  · rw [heq, applyCopy_append]
  · rw [heq, applyCopy_append, applyCopy_append]
    have hspan : span (l' ++ [Action.bytes (S := S) a]) = span l' + a := by
      rw [span_append]
      rfl
    have hsep : Sep dst (dstOff + span l') src (srcOff + span l') (a + b) := by
      apply h.shift
      rw [hspan, span_cons]
      simp only [Action.covers]
      omega
    rw [hspan, applyCopy_bytes, applyCopy_bytes, applyCopy_bytes, applyCopy_nil,
      memcpy_merge hsep]
    dsimp only
    simp only [Nat.add_assoc]

/-- The fields one after the other, each by its own actions. -/
def copyFields : List (Desc S) → Mem S → S → Nat → S → Nat → Mem S
  | [], m, _, _, _, _ => m
  | d :: ds, m, dst, dstOff, src, srcOff =>
    copyFields ds (applyCopy d.actions m dst dstOff src srcOff) dst (dstOff + d.size)
      src (srcOff + d.size)

theorem copyFields_cons (d : Desc S) (ds : List (Desc S)) (m : Mem S) (dst : S) (dstOff : Nat)
    (src : S) (srcOff : Nat) : copyFields (d :: ds) m dst dstOff src srcOff
      = copyFields ds (applyCopy d.actions m dst dstOff src srcOff) dst (dstOff + d.size)
          src (srcOff + d.size) := rfl

def total (ds : List (Desc S)) : Nat := (ds.map Desc.size).sum

theorem applyCopy_fields {ds : List (Desc S)} (hs : ∀ d ∈ ds, span d.actions = d.size)
    {dst src : S} {dstOff srcOff : Nat} : ∀ (acc : List (Action S)) (m : Mem S),
      Sep dst dstOff src srcOff (span acc + total ds) →
      applyCopy (ds.foldl (fun l d => actionsAppend l d.actions) acc) m dst dstOff src srcOff
        = copyFields ds (applyCopy acc m dst dstOff src srcOff) dst (dstOff + span acc)
            src (srcOff + span acc) := by
  induction ds with
  | nil =>
    intro acc m _
    rfl
  | cons d ds ih =>
    intro acc m hsep
    have hd := hs d (by simp)
    have htotal : total (d :: ds) = d.size + total ds := rfl
    have hspan : span (actionsAppend acc d.actions) = span acc + d.size := by
      rw [span_actionsAppend, hd]
    have hfirst : Sep dst dstOff src srcOff (span acc + span d.actions) := by
      intro he
      have := hsep he
      omega
    have hrest := ih (fun d' hd' => hs d' (by simp [hd'])) (actionsAppend acc d.actions) m (by
      rw [hspan]
      intro he
      have := hsep he
      omega)
    rw [List.foldl_cons, hrest, applyCopy_actionsAppend hfirst, hspan, copyFields_cons,
      ← Nat.add_assoc, ← Nat.add_assoc]

/-! ## What a description keeps -/

/-- Lengths that fit: only those of integers depend on more than the bytes read. -/
inductive Fits : Val → Prop where
  | bytes (b : List Byte) : Fits (.bytes b)
  | bool (b : Bool) : Fits (.bool b)
  | int (i : Int) (h : bigintSize i < 2 ^ 32) : Fits (.int i)
  | list (vs : List Val) (h : ∀ v ∈ vs, Fits v) : Fits (.list vs)

theorem Fits.mem {vs : List Val} (h : Fits (.list vs)) {v : Val} (hv : v ∈ vs) : Fits v := by
  cases h with
  | list _ h => exact h v hv

/-- Both places are the same, or they share no byte. -/
structure Places (T : Slots S) (same : Bool) (p : List Nat) (off : Nat) (q : List Nat)
    (off' : Nat) (ext : Option Nat) : Prop where
  eq : same = true → p = q ∧ off = off'
  apart : same = false → Disjoint (region T p off ext) (region T q off' ext)

def pick {α : Type} (same : Bool) (cl : α → α) (v : α) : α := if same then cl v else v

structure Copied (T : Slots S) (same : Bool) (ext : Option Nat) {α : Type} (fits : α → Prop)
    (get : Mem S → S → Nat → α) (cl : α → α) (p : List Nat) (off : Nat) (q : List Nat)
    (off' : Nat) (m m' : Mem S) : Prop where
  frame : Frame (region T p off ext) m m'
  get : fits (get m (addr T q) off') →
    get m' (addr T p) off = pick same cl (get m (addr T q) off')

structure Spec (T : Slots S) (ext : Option Nat) (d : Desc S) (cl : Val → Val) : Prop where
  extent : ∀ n, ext = some n → n = d.size
  get_congr : ∀ p off m m', AgreeOn (region T p off ext) m m' →
    d.get m (addr T p) off = d.get m' (addr T p) off
  assign : ∀ same p off q off' m, Places T same p off q off' ext →
    Copied T same ext Fits d.get cl p off q off' m (d.assign m (addr T p) off (addr T q) off')
  actions : ∀ same p off q off' m, Places T same p off q off' ext →
    Copied T same ext Fits d.get cl p off q off' m
      (applyCopy d.actions m (addr T p) off (addr T q) off')
  spanned : span d.actions = d.size

section Geometry

omit [DecidableEq S]

variable {same : Bool} {p q : List Nat} {off off' : Nat} {ext : Option Nat}

theorem Places.child (h : Places T same p off q off' ext) {a lo : Nat} {ext' : Option Nat}
    (ha : Within ext a) :
    Places T same ((off + a) :: p) lo ((off' + a) :: q) lo ext' where
  eq hs := by
    obtain ⟨rfl, rfl⟩ := h.eq hs
    exact ⟨rfl, rfl⟩
  apart hs := (h.apart hs).mono (region_child ha) (region_child ha)

theorem Places.sub (h : Places T same p off q off' ext) {d : Nat} {ext' : Option Nat}
    (hd : ∀ a, Within ext' a → Within ext (d + a)) :
    Places T same p (off + d) q (off' + d) ext' where
  eq hs := by
    obtain ⟨rfl, rfl⟩ := h.eq hs
    exact ⟨rfl, rfl⟩
  apart hs := (h.apart hs).mono (region_sub hd) (region_sub hd)

/-- Parts of the two places are apart when they would be in one place. -/
theorem Places.parts (h : Places T same p off q off' ext) {A B : Set (S × Nat)}
    (hA : A ⊆ region T p off ext) (hB : B ⊆ region T q off' ext)
    (hs : p = q → off = off' → Disjoint A B) : Disjoint A B := by
  cases same with
  | true =>
    obtain ⟨h1, h2⟩ := h.eq rfl
    exact hs h1 h2
  | false => exact (h.apart rfl).mono hA hB

theorem Places.sep (h : Places T same p off q off' ext) {n : Nat}
    (hn : ∀ k, ext = some k → k = n) : Sep (addr T p) off (addr T q) off' n := by
  intro he
  have hpq := addr_injective T p q he
  subst hpq
  cases same with
  | true => exact .inl (h.eq rfl).2
  | false =>
    have hd := Set.disjoint_left.mp (h.apart rfl)
    by_contra hno
    have hwithin : ∀ a, a < n → Within ext a := fun a ha k hk => hn k hk ▸ ha
    rcases Nat.le_total off off' with hle | hle
    · have h1 : (addr T p, off + (off' - off)) ∈ region T p off ext :=
        region_own (hwithin _ (by omega))
      have h2 : (addr T p, off' + 0) ∈ region T p off' ext := region_own (hwithin _ (by omega))
      rw [Nat.add_sub_cancel' hle] at h1
      exact hd h1 h2
    · have h1 : (addr T p, off' + (off - off')) ∈ region T p off' ext :=
        region_own (hwithin _ (by omega))
      have h2 : (addr T p, off + 0) ∈ region T p off ext := region_own (hwithin _ (by omega))
      rw [Nat.add_sub_cancel' hle] at h1
      exact hd h2 h1

end Geometry

theorem within_of_lt {n : Nat} : ∀ a, a < n → Within (some n) a := fun _ ha => within_some.mpr ha

omit [DecidableEq S] in
theorem pick_id {α : Type} (same : Bool) (v : α) : pick same id v = v := by
  unfold pick
  split <;> rfl

/-! ## Descriptions of one value -/

theorem applyCopy_one (n : Nat) (m : Mem S) (dst : S) (dstOff : Nat) (src : S) (srcOff : Nat) :
    applyCopy [.bytes n] m dst dstOff src srcOff = write m dst dstOff (read m src srcOff n) := rfl

theorem applyCopy_hook (n : Nat) (copy : Mem S → S → Nat → S → Nat → Mem S) (m : Mem S) (dst : S)
    (dstOff : Nat) (src : S) (srcOff : Nat) :
    applyCopy [.hook n copy] m dst dstOff src srcOff = copy m src srcOff dst dstOff := rfl

theorem write_region {m : Mem S} {p : List Nat} {off n : Nat} {b : List Byte} (hb : b.length = n) :
    Frame (region T p off (some n)) m (write m (addr T p) off b) := by
  apply (write_frame m (addr T p) off b).mono
  rw [hb]
  exact cells_subset within_of_lt

theorem fixed_spec (n : Nat) : Spec T (some n) (fixedDesc n) id := by
  have hcopied : ∀ same p off q off' m, Places T same p off q off' (some n) →
      Copied T same (some n) Fits (fixedDesc n).get id p off q off' m
        (write m (addr T p) off (read m (addr T q) off' n)) := by
    intro same p off q off' m _
    constructor
    · exact write_region (length_read _ _ _ _)
    · intro _
      rw [pick_id]
      unfold fixedDesc
      dsimp only
      have h := read_write m (addr T p) off (read m (addr T q) off' n)
      rw [length_read] at h
      rw [h]
  constructor
  · intro k hk
    exact (Option.some.inj hk).symm
  · intro p off m m' h
    unfold fixedDesc
    dsimp only
    rw [read_congr (h.mono (cells_subset within_of_lt))]
  · exact hcopied
  · exact hcopied
  · rfl

theorem bool_spec : Spec T (some 1) boolDesc id := by
  have hat : ∀ (m : Mem S) (s : S) (off : Nat) (b : Byte), write m s off [b] s off = b := by
    intro m s off b
    have h := read_write m s off [b]
    unfold read at h
    simpa using h
  constructor
  · intro k hk
    exact (Option.some.inj hk).symm
  · intro p off m m' h
    unfold boolDesc
    dsimp only
    have hbyte : m (addr T p) off = m' (addr T p) off :=
      h (addr T p, off + 0) (region_own (within_some.mpr Nat.one_pos))
    rw [hbyte]
  · intro same p off q off' m _
    refine ⟨write_region rfl, ?_⟩
    intro _
    rw [pick_id]
    unfold boolDesc
    dsimp only
    rw [hat]
    by_cases h : m (addr T q) off' = 0
    · simp [h]
    · simp [h]
  · intro same p off q off' m _
    refine ⟨write_region (length_read _ _ _ _), ?_⟩
    intro _
    rw [pick_id]
    unfold boolDesc
    dsimp only
    rw [applyCopy_one]
    have hread : read m (addr T q) off' 1 = [m (addr T q) off'] := rfl
    rw [hread, hat]
  · rfl

/-! ## Contents behind a length -/

omit [DecidableEq S] in
/-- `Slot.indirect` -/
theorem addr_cons (o : Nat) (p : List Nat) : addr T (o :: p) = T.child (addr T p) o := rfl

omit [DecidableEq S] in
theorem contents_congr {p : List Nat} {off : Nat} {m m' : Mem S}
    (h : AgreeOn (region T p off (some 4)) m m') :
    contents T.child m (addr T p) off = contents T.child m' (addr T p) off := by
  unfold contents
  rw [load_agree (h.mono (cells_subset within_of_lt)), ← addr_cons]
  apply read_congr
  have hsub : region T ((off + 0) :: p) 0 none ⊆ region T p off (some 4) :=
    region_child (within_some.mpr (by decide))
  exact h.mono ((cells_subset fun _ _ => within_none _).trans hsub)

theorem setContents_frame (m : Mem S) (p : List Nat) (off : Nat) (enc : List Byte) :
    Frame (region T p off (some 4)) m (setContents T.child m (addr T p) off enc) := by
  unfold setContents
  have h1 : Frame (region T p off (some 4)) m (store m (addr T p) off 4 enc.length) :=
    (store_frame _ _ _ _ _).mono (cells_subset within_of_lt)
  apply h1.trans
  rw [← addr_cons]
  have hsub : region T ((off + 0) :: p) 0 none ⊆ region T p off (some 4) :=
    region_child (within_some.mpr (by decide))
  exact (write_frame _ _ _ _).mono ((cells_subset fun _ _ => within_none _).trans hsub)

omit [DecidableEq S] in
/-- Writing a derived slot keeps the length. -/
theorem load_child {m m' : Mem S} {p : List Nat} {off a lo : Nat} {ext : Option Nat}
    (h : Frame (region T (a :: p) lo ext) m m') :
    load m' (addr T p) off 4 = load m (addr T p) off 4 :=
  load_agree (h.agreeOn cells_disjoint_child.symm)

theorem contents_setContents (m : Mem S) (p : List Nat) (off : Nat) {enc : List Byte}
    (hl : enc.length < 2 ^ 32) :
    contents T.child (setContents T.child m (addr T p) off enc) (addr T p) off = enc := by
  have hframe : Frame (region T (off :: p) 0 none) (store m (addr T p) off 4 enc.length)
      (setContents T.child m (addr T p) off enc) := by
    unfold setContents
    rw [← addr_cons]
    exact (write_frame _ _ _ _).mono (cells_subset fun _ _ => within_none _)
  unfold contents
  rw [load_child hframe, load_store _ _ _ (by norm_num; exact hl)]
  unfold setContents
  exact read_write _ _ _ _

omit [DecidableEq S] in
theorem length_contents (m : Mem S) (s : S) (off : Nat) (indirect : S → Nat → S) :
    (contents indirect m s off).length = load m s off 4 := by
  unfold contents
  rw [length_read]

omit [DecidableEq S] in
theorem load_lt_u32 (m : Mem S) (s : S) (off : Nat) : load m s off 4 < 2 ^ 32 := by
  have h := load_lt m s off 4
  norm_num at h ⊢
  exact h

/-- The copy hook sets what it has read. -/
theorem copyStrBytes_eq {same : Bool} {p q : List Nat} {off off' : Nat} (m : Mem S)
    (h : Places T same p off q off' (some 4)) :
    copyStrBytes T.child m (addr T q) off' (addr T p) off
      = setContents T.child m (addr T p) off (contents T.child m (addr T q) off') := by
  unfold copyStrBytes setContents
  dsimp only
  rw [length_contents]
  congr 1
  -- the contents are read after the length was written
  unfold contents
  rw [← addr_cons]
  apply read_congr
  have hsub : region T ((off' + 0) :: q) 0 none ⊆ region T q off' (some 4) :=
    region_child (within_some.mpr (by decide))
  have hdisj : Disjoint (cells (addr T p) off 4) (region T (off' :: q) 0 none) := by
    apply h.parts (cells_subset within_of_lt) hsub
    rintro rfl rfl
    exact cells_disjoint_child
  exact ((store_frame _ _ _ _ _).agreeOn hdisj).mono (cells_subset fun _ _ => within_none _)

theorem strBytes_spec : Spec T (some 4) (strBytesDesc T.child) id := by
  have hset : ∀ same p off q off' m,
      Copied T same (some 4) Fits (strBytesDesc T.child).get id p off q off' m
        (setContents T.child m (addr T p) off (contents T.child m (addr T q) off')) := by
    intro same p off q off' m
    refine ⟨setContents_frame _ _ _ _, ?_⟩
    intro _
    rw [pick_id]
    unfold strBytesDesc
    dsimp only
    rw [contents_setContents]
    rw [length_contents]
    exact load_lt_u32 _ _ _
  constructor
  · intro k hk
    exact (Option.some.inj hk).symm
  · intro p off m m' h
    unfold strBytesDesc
    dsimp only
    rw [contents_congr h]
  · intro same p off q off' m _
    exact hset same p off q off' m
  · intro same p off q off' m h
    unfold strBytesDesc
    dsimp only
    rw [applyCopy_hook, copyStrBytes_eq m h]
    exact hset same p off q off' m
  · rfl

theorem ofDigits_bytes (u n : Nat) :
    Nat.ofDigits 256 ((List.range n).map fun i => (byteAt u i).val) = u % 256 ^ n := by
  induction n with
  | zero => simp [Nat.mod_one]
  | succ n ih =>
    rw [List.range_succ, List.map_append, Nat.ofDigits_append, ih, List.length_map,
      List.length_range, Nat.pow_succ, Nat.mod_mul]
    simp [byteAt]

theorem fromBytes_toBytes (i : Int) : fromBytes (toBytes (bigintSize i) i) = i := by
  unfold fromBytes toBytes
  dsimp only
  rw [List.map_map, List.length_map, List.length_range]
  have hdigits := ofDigits_bytes (i % (256 ^ bigintSize i : Nat)).toNat (bigintSize i)
  have hcomp : (Fin.val ∘ byteAt (i % (256 ^ bigintSize i : Nat)).toNat)
      = fun k => (byteAt (i % (256 ^ bigintSize i : Nat)).toNat k).val := rfl
  rw [hcomp, hdigits]
  have habs : i.natAbs < 256 ^ (Nat.digits 256 i.natAbs).length :=
    Nat.lt_base_pow_length_digits (by decide)
  have hpow : 256 ^ bigintSize i = 256 ^ 2 * 256 ^ (Nat.digits 256 i.natAbs).length := by
    unfold bigintSize
    rw [Nat.pow_add]
  generalize 256 ^ (Nat.digits 256 i.natAbs).length = k at habs hpow
  generalize 256 ^ bigintSize i = n at hpow ⊢
  have hn : 2 * i.natAbs < n := by
    rw [hpow]
    omega
  have hmod : (i % (n : Int)).toNat % n = (i % (n : Int)).toNat := by
    apply Nat.mod_eq_of_lt
    have := Int.emod_lt_of_pos i (show (0 : Int) < n by omega)
    have := Int.emod_nonneg i (show (n : Int) ≠ 0 by omega)
    omega
  rw [hmod]
  rcases Int.le_total 0 i with hi | hi
  · have hval : i % (n : Int) = i := Int.emod_eq_of_lt hi (by omega)
    rw [hval, if_pos (by omega)]
    omega
  · rcases Int.lt_or_eq_of_le hi with hlt | rfl
    · have hval : i % (n : Int) = i + n := by
        rw [← Int.add_emod_right]
        exact Int.emod_eq_of_lt (by omega) (by omega)
      rw [hval, if_neg (by omega)]
      omega
    · rw [Int.zero_emod, if_pos (by omega)]
      rfl

theorem bigint_spec : Spec T (some 4) (bigintDesc T.child) id := by
  constructor
  · intro k hk
    exact (Option.some.inj hk).symm
  · intro p off m m' h
    unfold bigintDesc
    dsimp only
    rw [contents_congr h]
  · intro same p off q off' m _
    refine ⟨setContents_frame _ _ _ _, ?_⟩
    intro hfits
    rw [pick_id]
    unfold bigintDesc at hfits ⊢
    dsimp only at hfits ⊢
    cases hfits with
    | int _ hlt =>
      rw [contents_setContents, fromBytes_toBytes]
      unfold toBytes
      rw [List.length_map, List.length_range]
      exact hlt
  · intro same p off q off' m h
    unfold bigintDesc
    dsimp only
    rw [applyCopy_hook, copyStrBytes_eq m h]
    refine ⟨setContents_frame _ _ _ _, ?_⟩
    intro _
    rw [pick_id, contents_setContents]
    rw [length_contents]
    exact load_lt_u32 _ _ _
  · rfl

/-! ## Fields one after the other -/

/-- `Spec` of the fields of a record, read as a list. -/
structure SeqSpec (T : Slots S) (ext : Option Nat) (ds : List (Desc S))
    (cl : List Val → List Val) : Prop where
  extent : ∀ n, ext = some n → n = total ds
  get_congr : ∀ p off m m', AgreeOn (region T p off ext) m m' →
    readFields ds m (addr T p) off = readFields ds m' (addr T p) off
  copies : ∀ same p off q off' m, Places T same p off q off' ext →
    Copied T same ext (fun vs => Fits (.list vs)) (readFields ds) cl p off q off' m
      (copyFields ds m (addr T p) off (addr T q) off')
  spanned : ∀ d ∈ ds, span d.actions = d.size

theorem seq_nil : SeqSpec T (some 0) [] id where
  extent n h := by
    cases h
    rfl
  get_congr _ _ _ _ _ := rfl
  copies same p off q off' m _ := ⟨Frame.refl _ _, fun _ => (pick_id same []).symm⟩
  spanned d hd := (List.not_mem_nil hd).elim

/-- On the first value of a list and on the others. -/
def onCons (cl : Val → Val) (cls : List Val → List Val) : List Val → List Val
  | [] => []
  | v :: vs => cl v :: cls vs

omit [DecidableEq S] in
theorem pick_cons (same : Bool) (cl : Val → Val) (cls : List Val → List Val) (v : Val)
    (vs : List Val) :
    pick same (onCons cl cls) (v :: vs) = pick same cl v :: pick same cls vs := by
  cases same <;> rfl

/-- A last field may go on to the end of the slot. -/
theorem seq_last {ext : Option Nat} {d : Desc S} {cl : Val → Val} (h : Spec T ext d cl) :
    SeqSpec T ext [d] (onCons cl id) where
  extent n hn := h.extent n hn
  get_congr p off m m' ha := by
    unfold readFields
    rw [h.get_congr p off m m' ha]
    rfl
  copies same p off q off' m hp := by
    obtain ⟨hframe, hget⟩ := h.actions same p off q off' m hp
    refine ⟨hframe, ?_⟩
    intro hfits
    have hv : Fits (d.get m (addr T q) off') := hfits.mem (by simp [readFields])
    show [d.get _ _ _] = pick same (onCons cl id) [d.get m (addr T q) off']
    rw [pick_cons, pick_id]
    rw [← hget hv]
    rfl
  spanned d' hd' := by
    rw [List.mem_singleton.mp hd']
    exact h.spanned

theorem seq_cons {ext : Option Nat} {d : Desc S} {ds : List (Desc S)} {cl : Val → Val}
    {cls : List Val → List Val} (h : Spec T (some d.size) d cl) (hs : SeqSpec T ext ds cls) :
    SeqSpec T (ext.map (d.size + ·)) (d :: ds) (onCons cl cls) := by
  have hfirst : ∀ a, Within (some d.size) a → Within (ext.map (d.size + ·)) (0 + a) := by
    intro a ha n hn
    obtain ⟨k, -, rfl⟩ := Option.map_eq_some_iff.mp hn
    have := within_some.mp ha
    omega
  have hrest : ∀ a, Within ext a → Within (ext.map (d.size + ·)) (d.size + a) := by
    intro a ha n hn
    obtain ⟨k, hk, rfl⟩ := Option.map_eq_some_iff.mp hn
    have := ha k hk
    omega
  have hapart : ∀ p off, Disjoint (region T p off (some d.size)) (region T p (off + d.size) ext) := by
    intro p off
    apply region_disjoint
    intro a a' ha _
    have := within_some.mp ha
    omega
  constructor
  · intro n hn
    obtain ⟨k, hk, rfl⟩ := Option.map_eq_some_iff.mp hn
    rw [hs.extent k hk]
    rfl
  · intro p off m m' ha
    unfold readFields
    rw [h.get_congr p off m m' (ha.mono (region_sub hfirst)),
      hs.get_congr p (off + d.size) m m' (ha.mono (region_sub hrest))]
  · intro same p off q off' m hp
    have hp1 : Places T same p off q off' (some d.size) := hp.sub hfirst
    have hp2 := hp.sub hrest
    obtain ⟨hframe1, hget1⟩ := h.actions same p off q off' m hp1
    rw [copyFields_cons]
    generalize applyCopy d.actions m (addr T p) off (addr T q) off' = m1 at hframe1 hget1 ⊢
    obtain ⟨hframe2, hget2⟩ := hs.copies same p (off + d.size) q (off' + d.size) m1 hp2
    generalize copyFields ds m1 (addr T p) (off + d.size) (addr T q) (off' + d.size) = m2
      at hframe2 hget2 ⊢
    -- the other fields of the source are not where the first one was written
    have hsrc : readFields ds m1 (addr T q) (off' + d.size)
        = readFields ds m (addr T q) (off' + d.size) := by
      apply hs.get_congr
      apply hframe1.agreeOn
      apply hp.parts (region_sub hfirst) (region_sub hrest)
      rintro rfl rfl
      exact hapart p off
    have hdst : d.get m2 (addr T p) off = d.get m1 (addr T p) off := by
      apply h.get_congr
      exact hframe2.agreeOn (hapart p off).symm
    constructor
    · exact (hframe1.mono (region_sub hfirst)).trans (hframe2.mono (region_sub hrest))
    · intro hfits
      have hv : Fits (d.get m (addr T q) off') := hfits.mem (by simp [readFields])
      have hvs : Fits (.list (readFields ds m (addr T q) (off' + d.size))) :=
        .list _ fun v hv => hfits.mem (by simp [readFields, hv])
      show d.get m2 (addr T p) off :: readFields ds m2 (addr T p) (off + d.size)
        = pick same (onCons cl cls)
            (d.get m (addr T q) off' :: readFields ds m (addr T q) (off' + d.size))
      rw [pick_cons, hdst, hget1 hv, hget2 (hsrc ▸ hvs), hsrc]
  · intro d' hd'
    rcases List.mem_cons.mp hd' with rfl | hd'
    · exact h.spanned
    · exact hs.spanned d' hd'

/-! ## Records and arrays -/

/-- A change of the elements of a list. -/
def onList (cl : List Val → List Val) : Val → Val
  | .list vs => .list (cl vs)
  | v => v

omit [DecidableEq S] in
theorem pick_list (same : Bool) (cl : List Val → List Val) (vs : List Val) :
    pick same (onList cl) (.list vs) = .list (pick same cl vs) := by
  cases same <;> rfl

omit [DecidableEq S] in
theorem span_fields {ds : List (Desc S)} (h : ∀ d ∈ ds, span d.actions = d.size)
    (acc : List (Action S)) :
    span (ds.foldl (fun l d => actionsAppend l d.actions) acc) = span acc + total ds := by
  induction ds generalizing acc with
  | nil => rfl
  | cons d ds ih =>
    rw [List.foldl_cons, ih fun d' hd' => h d' (by simp [hd']), span_actionsAppend, h d (by simp)]
    unfold total
    rw [List.map_cons, List.sum_cons, Nat.add_assoc]

/-- The merged actions of the fields. -/
theorem seq_actions {ext : Option Nat} {ds : List (Desc S)} {cls : List Val → List Val}
    (hs : SeqSpec T ext ds cls) {same : Bool} {p q : List Nat} {off off' : Nat} {m : Mem S}
    (hp : Places T same p off q off' ext) :
    Copied T same ext (fun vs => Fits (.list vs)) (readFields ds) cls p off q off' m
      (applyCopy (fieldsActions ds) m (addr T p) off (addr T q) off') := by
  have hsep : Sep (addr T p) off (addr T q) off' (span ([] : List (Action S)) + total ds) := by
    have h0 : span ([] : List (Action S)) = 0 := rfl
    rw [h0, Nat.zero_add]
    exact hp.sep hs.extent
  have heq := applyCopy_fields hs.spanned [] m hsep
  unfold fieldsActions
  rw [heq]
  exact hs.copies same p off q off' m hp

theorem record_spec {ext : Option Nat} {ds : List (Desc S)} {cls : List Val → List Val}
    (hs : SeqSpec T ext ds cls) : Spec T ext (recordDesc ds) (onList cls) := by
  have hcopied : ∀ same p off q off' m, Places T same p off q off' ext →
      Copied T same ext Fits (recordDesc ds).get (onList cls) p off q off' m
        (applyCopy (fieldsActions ds) m (addr T p) off (addr T q) off') := by
    intro same p off q off' m hp
    obtain ⟨hframe, hget⟩ := seq_actions (m := m) hs hp
    refine ⟨hframe, ?_⟩
    intro hfits
    unfold recordDesc at hfits ⊢
    dsimp only at hfits ⊢
    rw [hget hfits, pick_list]
  constructor
  · exact hs.extent
  · intro p off m m' h
    unfold recordDesc
    dsimp only
    rw [hs.get_congr p off m m' h]
  · exact hcopied
  · exact hcopied
  · unfold recordDesc fieldsActions
    dsimp only
    rw [span_fields hs.spanned]
    exact Nat.zero_add _

/-- Equal elements are the fields of a record. -/
theorem seq_replicate {item : Desc S} {cl : Val → Val} (h : Spec T (some item.size) item cl)
    (n : Nat) : ∃ cls, SeqSpec T (some (n * item.size)) (List.replicate n item) cls ∧
      ∀ vs : List Val, vs.length = n → cls vs = vs.map cl := by
  induction n with
  | zero =>
    refine ⟨id, ?_, ?_⟩
    · rw [Nat.zero_mul]
      exact seq_nil
    · intro vs hvs
      rw [List.length_eq_zero_iff.mp hvs]
      rfl
  | succ n ih =>
    obtain ⟨cls, hs, hcls⟩ := ih
    refine ⟨onCons cl cls, ?_, ?_⟩
    · have hcons := seq_cons h hs
      rw [Option.map_some] at hcons
      rw [List.replicate_succ, Nat.succ_mul, Nat.add_comm]
      exact hcons
    · intro vs hvs
      cases vs with
      | nil => cases hvs
      | cons v vs =>
        rw [List.length_cons] at hvs
        show cl v :: cls vs = _
        rw [hcls vs (by omega)]
        rfl

omit [DecidableEq S] in
theorem readFields_replicate (item : Desc S) (m : Mem S) (s : S) (n off : Nat) :
    readFields (List.replicate n item) m s off = readItems item m s off n := by
  induction n generalizing off with
  | zero => rfl
  | succ n ih =>
    rw [List.replicate_succ]
    unfold readFields
    rw [ih]
    unfold readItems
    rw [List.range_succ_eq_map, List.map_cons, List.map_map, Nat.zero_mul, Nat.add_zero]
    congr 1
    apply List.map_congr_left
    intro i _
    dsimp only [Function.comp]
    rw [Nat.succ_mul]
    congr 1
    omega

omit [DecidableEq S] in
theorem length_readItems (item : Desc S) (m : Mem S) (s : S) (off n : Nat) :
    (readItems item m s off n).length = n := by
  unfold readItems
  rw [List.length_map, List.length_range]

omit [DecidableEq S] in
theorem pick_map (same : Bool) (cl : Val → Val) (vs : List Val) (cls : List Val → List Val)
    (h : cls vs = vs.map cl) : pick same cls vs = pick same (List.map cl) vs := by
  cases same
  · rfl
  · exact h

omit [DecidableEq S] in
theorem foldl_range_replicate (item : Desc S) (n : Nat) (acc : List (Action S)) :
    (List.range n).foldl (fun l _ => actionsAppend l item.actions) acc
      = (List.replicate n item).foldl (fun l d => actionsAppend l d.actions) acc := by
  induction n with
  | zero => rfl
  | succ n ih => rw [List.range_succ, List.replicate_succ', List.foldl_append, List.foldl_append, ih]; rfl

theorem array_spec {item : Desc S} {cl : Val → Val} (h : Spec T (some item.size) item cl)
    (n : Nat) : Spec T (some (n * item.size)) (arrayDesc item n) (onList (List.map cl)) := by
  obtain ⟨cls, hs, hcls⟩ := seq_replicate h n
  have hcopied : ∀ same p off q off' m, Places T same p off q off' (some (n * item.size)) →
      Copied T same (some (n * item.size)) Fits (arrayDesc item n).get (onList (List.map cl))
        p off q off' m (applyCopy ((List.range n).foldl (fun l _ => actionsAppend l item.actions) [])
          m (addr T p) off (addr T q) off') := by
    intro same p off q off' m hp
    obtain ⟨hframe, hget⟩ := seq_actions (m := m) hs hp
    unfold fieldsActions at hframe hget
    rw [← foldl_range_replicate] at hframe hget
    refine ⟨hframe, ?_⟩
    intro hfits
    unfold arrayDesc at hfits ⊢
    dsimp only at hfits ⊢
    rw [readFields_replicate, readFields_replicate] at hget
    rw [hget hfits, pick_list, pick_map same cl _ cls (hcls _ (length_readItems _ _ _ _ _))]
  constructor
  · intro k hk
    exact (Option.some.inj hk).symm
  · intro p off m m' ha
    unfold arrayDesc
    dsimp only
    rw [← readFields_replicate, ← readFields_replicate, hs.get_congr p off m m' ha]
  · exact hcopied
  · exact hcopied
  · unfold arrayDesc
    dsimp only
    rw [foldl_range_replicate, span_fields hs.spanned, ← hs.extent _ rfl]
    exact Nat.zero_add _

/-! ## Elements in a slot of their own -/

theorem copyItems_succ (acts : List (Action S)) (n : Nat) (m : Mem S) (dst : S) (dstOff : Nat)
    (src : S) (srcOff : Nat) : copyItems acts (n + 1) m dst dstOff src srcOff
      = copyItems acts n (applyCopy acts m dst dstOff src srcOff) dst (dstOff + span acts)
          src (srcOff + span acts) := rfl

theorem copyItems_eq {item : Desc S} (h : span item.actions = item.size) (n : Nat) (m : Mem S)
    (dst : S) (dstOff : Nat) (src : S) (srcOff : Nat) :
    copyItems item.actions n m dst dstOff src srcOff
      = copyFields (List.replicate n item) m dst dstOff src srcOff := by
  induction n generalizing m dstOff srcOff with
  | zero => rfl
  | succ n ih =>
    rw [List.replicate_succ, copyFields_cons, ← ih, copyItems_succ, h]

/-- All elements in one run. -/
theorem copyFields_memcpy {item : Desc S} {k : Nat} (ha : item.actions = [.bytes k])
    (hk : item.size = k) (n : Nat) (m : Mem S) {dst src : S} {dstOff srcOff : Nat}
    (hsep : Sep dst dstOff src srcOff (k * n)) :
    copyFields (List.replicate n item) m dst dstOff src srcOff
      = write m dst dstOff (read m src srcOff (k * n)) := by
  induction n generalizing m dstOff srcOff with
  | zero =>
    funext s o
    rw [memcpy_apply, if_neg (by omega)]
    rfl
  | succ n ih =>
    rw [List.replicate_succ, copyFields_cons, ha, hk, applyCopy_one]
    have hmul : k * (n + 1) = k + k * n := by ring
    rw [hmul] at hsep ⊢
    rw [ih _ (hsep.shift (le_refl _)), memcpy_merge hsep]

/-- The elements of a `DynArray`, in one run or one by one. -/
theorem copyDyn_eq {item : Desc S} (h : span item.actions = item.size) {m : Mem S}
    {p q : List Nat} {off off' : Nat}
    (hsep : Sep (addr T (off :: p)) 0 (addr T (off' :: q)) 0
      (load m (addr T q) off' 4 * item.size)) :
    copyDyn T.child item m (addr T q) off' (addr T p) off
      = copyFields (List.replicate (load m (addr T q) off' 4) item)
          (store m (addr T p) off 4 (load m (addr T q) off' 4))
          (addr T (off :: p)) 0 (addr T (off' :: q)) 0 := by
  unfold copyDyn
  dsimp only
  split
  · rename_i k hk
    have hsize : item.size = k := by
      rw [← h, hk]
      rfl
    rw [copyFields_memcpy hk hsize]
    · rfl
    · rw [hsize, Nat.mul_comm] at hsep
      exact hsep
  · exact copyItems_eq h _ _ _ _ _ _

theorem dyn_spec {item : Desc S} {cl : Val → Val} (h : Spec T (some item.size) item cl) :
    Spec T (some 4) (dynDesc T.child item) (onList (List.map cl)) := by
  have hsub : ∀ p off ext, region T (off :: p) 0 ext ⊆ region T p off (some 4) := by
    intro p off ext
    exact region_child (a := 0) (within_some.mpr (by decide))
  have hcopied : ∀ same p off q off' m, Places T same p off q off' (some 4) →
      Copied T same (some 4) Fits (dynDesc T.child item).get (onList (List.map cl)) p off q off' m
        (copyDyn T.child item m (addr T q) off' (addr T p) off) := by
    intro same p off q off' m hp
    obtain ⟨cls, hs, hcls⟩ := seq_replicate h (load m (addr T q) off' 4)
    have hp' : Places T same (off :: p) 0 (off' :: q) 0
        (some (load m (addr T q) off' 4 * item.size)) :=
      hp.child (a := 0) (within_some.mpr (by decide))
    rw [copyDyn_eq h.spanned (hp'.sep fun k hk => (Option.some.inj hk).symm)]
    have hframe1 := store_frame m (addr T p) off 4 (load m (addr T q) off' 4)
    have hlen : load (store m (addr T p) off 4 (load m (addr T q) off' 4)) (addr T p) off 4
        = load m (addr T q) off' 4 := load_store _ _ _ (load_lt _ _ _ _)
    generalize store m (addr T p) off 4 (load m (addr T q) off' 4) = m1 at hframe1 hlen ⊢
    obtain ⟨hframe2, hget⟩ := hs.copies same (off :: p) 0 (off' :: q) 0 m1 hp'
    generalize copyFields (List.replicate (load m (addr T q) off' 4) item) m1 (addr T (off :: p)) 0
      (addr T (off' :: q)) 0 = m2 at hframe2 hget ⊢
    -- the elements of the source are not where the length was written
    have hsrc : readFields (List.replicate (load m (addr T q) off' 4) item) m1 (addr T (off' :: q)) 0
        = readFields (List.replicate (load m (addr T q) off' 4) item) m (addr T (off' :: q)) 0 := by
      apply hs.get_congr
      apply hframe1.agreeOn
      apply hp.parts (cells_subset within_of_lt) (hsub q off' _)
      intro h1 h2
      subst h1
      subst h2
      exact cells_disjoint_child
    have hlen2 : load m2 (addr T p) off 4 = load m (addr T q) off' 4 :=
      (load_child hframe2).trans hlen
    constructor
    · exact (hframe1.mono (cells_subset within_of_lt)).trans (hframe2.mono (hsub p off _))
    · intro hfits
      unfold dynDesc at hfits ⊢
      dsimp only at hfits ⊢
      rw [← addr_cons] at hfits
      rw [hlen2, ← addr_cons, ← addr_cons]
      rw [hsrc, readFields_replicate, readFields_replicate] at hget
      rw [hget hfits, pick_list, pick_map same cl _ cls (hcls _ (length_readItems _ _ _ _ _))]
  constructor
  · intro k hk
    exact (Option.some.inj hk).symm
  · intro p off m m' ha
    obtain ⟨cls, hs, -⟩ := seq_replicate h (load m (addr T p) off 4)
    unfold dynDesc
    dsimp only
    rw [← load_agree (ha.mono (cells_subset within_of_lt)), ← addr_cons, ← readFields_replicate,
      ← readFields_replicate, hs.get_congr (off :: p) 0 m m' (ha.mono (hsub p off _))]
  · exact hcopied
  · exact hcopied
  · rfl

theorem indirection_spec {ext : Option Nat} {item : Desc S} {cl : Val → Val}
    (h : Spec T ext item cl) : Spec T (some 1) (indirectionDesc T.child item) cl := by
  have hsub : ∀ p off, region T (off :: p) 0 ext ⊆ region T p off (some 1) := by
    intro p off
    exact region_child (a := 0) (within_some.mpr (by decide))
  have hcopied : ∀ same p off q off' m, Places T same p off q off' (some 1) →
      Copied T same (some 1) Fits (indirectionDesc T.child item).get cl p off q off' m
        (copyIndirection T.child item m (addr T q) off' (addr T p) off) := by
    intro same p off q off' m hp
    have hp' : Places T same (off :: p) 0 (off' :: q) 0 ext :=
      hp.child (a := 0) (within_some.mpr (by decide))
    obtain ⟨hframe, hget⟩ := h.assign same (off :: p) 0 (off' :: q) 0 m hp'
    exact ⟨hframe.mono (hsub p off), hget⟩
  constructor
  · intro k hk
    exact (Option.some.inj hk).symm
  · intro p off m m' ha
    exact h.get_congr (off :: p) 0 m m' (ha.mono (hsub p off))
  · exact hcopied
  · exact hcopied
  · rfl

/-! ## Arrays of variable length -/

theorem foldl_range_invariant {α : Type} (P : Nat → α → Prop) (f : α → Nat → α) {a : α} {n : Nat}
    (h0 : P 0 a) (hstep : ∀ i b, i < n → P i b → P (i + 1) (f b i)) :
    P n ((List.range n).foldl f a) := by
  induction n with
  | zero => exact h0
  | succ n ih =>
    rw [List.range_succ, List.foldl_append]
    exact hstep n _ (Nat.lt_succ_self n) (ih fun i b hi => hstep i b (by omega))

/-- The elements `append` has stored so far. -/
structure Appended (T : Slots S) (item : Desc S) (p : List Nat) (off : Nat) (q : List Nat)
    (off' : Nat) (m : Mem S) (i : Nat) (mi : Mem S) : Prop where
  frame : Frame (region T p off none) m mi
  len : load mi (addr T p) off 4 = i
  items : (∀ v ∈ readItems item m (addr T q) (off' + 4) i, Fits v) →
    readItems item mi (addr T p) (off + 4) i = readItems item m (addr T q) (off' + 4) i

omit [DecidableEq S] in
theorem readItems_succ (item : Desc S) (m : Mem S) (s : S) (off n : Nat) :
    readItems item m s off (n + 1)
      = readItems item m s off n ++ [item.get m s (off + n * item.size)] := by
  unfold readItems
  rw [List.range_succ, List.map_append]
  rfl

omit [DecidableEq S] in
theorem readItems_congr {item : Desc S} {cl : Val → Val} [DecidableEq S]
    (h : Spec T (some item.size) item cl) {m m' : Mem S} {p : List Nat} {off n : Nat}
    (ha : AgreeOn (region T p off (some (n * item.size))) m m') :
    readItems item m (addr T p) off n = readItems item m' (addr T p) off n := by
  obtain ⟨cls, hs, -⟩ := seq_replicate h n
  rw [← readFields_replicate, ← readFields_replicate, hs.get_congr p off m m' ha]

theorem appended_step {item : Desc S} {cl : Val → Val} (h : Spec T (some item.size) item cl)
    {p q : List Nat} {off off' : Nat} {m mi : Mem S} {i : Nat}
    (hd : Disjoint (region T p off none) (region T q off' none)) (hi : i + 1 < 2 ^ 32)
    (ha : Appended T item p off q off' m i mi) :
    Appended T item p off q off' m (i + 1)
      (appendItem item mi (addr T p) off (addr T q) off' i) := by
  obtain ⟨hframe, hlen, hitems⟩ := ha
  have hin : ∀ (p : List Nat) (off d : Nat) (ext : Option Nat),
      region T p (off + d) ext ⊆ region T p off none :=
    fun p off d ext => region_sub fun _ _ => within_none _
  have hfrom : ∀ (o : Nat), o + 4 + i * item.size = o + (4 + i * item.size) := fun o => by omega
  unfold appendItem
  dsimp only
  rw [hlen]
  have hp : Places T false p (off + (4 + i * item.size)) q (off' + (4 + i * item.size))
      (some item.size) := by
    constructor
    · intro hs
      cases hs
    · intro _
      exact hd.mono (hin _ _ _ _) (hin _ _ _ _)
  obtain ⟨hframe1, hget1⟩ := h.assign false _ _ _ _ mi hp
  rw [hfrom off, hfrom off']
  generalize item.assign mi (addr T p) (off + (4 + i * item.size)) (addr T q)
    (off' + (4 + i * item.size)) = m1 at hframe1 hget1 ⊢
  have hframe2 := store_frame m1 (addr T p) off 4 (i + 1)
  have hlen2 : load (store m1 (addr T p) off 4 (i + 1)) (addr T p) off 4 = i + 1 :=
    load_store _ _ _ (by norm_num at hi ⊢; exact hi)
  generalize store m1 (addr T p) off 4 (i + 1) = m2 at hframe2 hlen2 ⊢
  have hcells : cells (addr T p) off 4 ⊆ region T p off none :=
    cells_subset fun _ _ => within_none _
  -- writing the length does not touch the elements
  have hbehind : ∀ d ext, Disjoint (cells (addr T p) off 4) (region T p (off + 4 + d) ext) := by
    intro d ext
    apply Disjoint.mono_left (cells_subset within_of_lt : _ ⊆ region T p off (some 4))
    apply region_disjoint
    intro a a' ha _
    have := within_some.mp ha
    omega
  refine ⟨?_, hlen2, ?_⟩
  · exact (hframe.trans (hframe1.mono (hin _ _ _ _))).trans (hframe2.mono hcells)
  · intro hfits
    rw [readItems_succ] at hfits
    have hold : readItems item m2 (addr T p) (off + 4) i = readItems item mi (addr T p) (off + 4) i := by
      apply readItems_congr h
      have h1 : AgreeOn (region T p (off + 4) (some (i * item.size))) m2 m1 :=
        hframe2.agreeOn (hbehind 0 _)
      have h2 : AgreeOn (region T p (off + 4) (some (i * item.size))) m1 mi := by
        apply hframe1.agreeOn
        apply region_disjoint
        intro a a' _ ha'
        have := within_some.mp ha'
        omega
      exact fun x hx => (h1 x hx).trans (h2 x hx)
    have hnew : item.get m2 (addr T p) (off + 4 + i * item.size)
        = item.get m1 (addr T p) (off + 4 + i * item.size) := by
      apply h.get_congr
      exact hframe2.agreeOn (hbehind _ _)
    have hsrc : item.get mi (addr T q) (off' + 4 + i * item.size)
        = item.get m (addr T q) (off' + 4 + i * item.size) := by
      apply h.get_congr
      rw [hfrom off']
      exact hframe.agreeOn (hd.mono_right (hin _ _ _ _))
    rw [← hfrom off, ← hfrom off', hsrc] at hget1
    have hv : Fits (item.get m (addr T q) (off' + 4 + i * item.size)) := hfits _ (by simp)
    rw [readItems_succ, readItems_succ, hold, hnew, hget1 hv,
      hitems fun v hv => hfits v (by simp [hv])]
    rfl

theorem vla_spec {item : Desc S} {cl : Val → Val} (h : Spec T (some item.size) item cl) :
    Spec T none (vlaDesc item) (onList fun _ => []) := by
  have hcells : ∀ p off, cells (addr T p) off 4 ⊆ region T p off none :=
    fun p off => cells_subset fun _ _ => within_none _
  have hsub : ∀ p off n, region T p (off + 4) (some n) ⊆ region T p off none :=
    fun p off n => region_sub fun _ _ => within_none _
  have hcopied : ∀ same p off q off' m, Places T same p off q off' none →
      Copied T same none Fits (vlaDesc item).get (onList fun _ => []) p off q off' m
        (copyVla item m (addr T q) off' (addr T p) off) := by
    intro same p off q off' m hp
    have hframe1 := store_frame m (addr T p) off 4 0
    have hlen1 : load (store m (addr T p) off 4 0) (addr T p) off 4 = 0 :=
      load_store _ _ _ (by norm_num)
    unfold copyVla
    dsimp only
    generalize store m (addr T p) off 4 0 = m1 at hframe1 hlen1 ⊢
    cases same with
    | true =>
      -- the source is the destination, and empty by now
      obtain ⟨rfl, rfl⟩ := hp.eq rfl
      rw [hlen1]
      refine ⟨hframe1.mono (hcells p off), ?_⟩
      intro _
      unfold vlaDesc
      dsimp only
      rw [List.range_zero, List.foldl_nil, hlen1]
      rfl
    | false =>
      have hd := hp.apart rfl
      have hsrc : load m1 (addr T q) off' 4 = load m (addr T q) off' 4 :=
        load_agree (hframe1.agreeOn (hd.mono (hcells p off) (hcells q off')))
      rw [hsrc]
      have hlt := load_lt_u32 m (addr T q) off'
      have hall := foldl_range_invariant (Appended T item p off q off' m)
        (fun m i => appendItem item m (addr T p) off (addr T q) off' i) (a := m1)
        (n := load m (addr T q) off' 4)
        ⟨hframe1.mono (hcells p off), hlen1, fun _ => rfl⟩
        (fun i mi hi ha => appended_step h hd (by omega) ha)
      obtain ⟨hframe, hlen, hitems⟩ := hall
      refine ⟨hframe, ?_⟩
      intro hfits
      unfold vlaDesc at hfits ⊢
      dsimp only at hfits ⊢
      rw [hlen, hitems fun v hv => hfits.mem hv]
      rfl
  constructor
  · intro k hk
    cases hk
  · intro p off m m' ha
    unfold vlaDesc
    dsimp only
    rw [← load_agree (ha.mono (hcells p off)), readItems_congr h (ha.mono (hsub p off _))]
  · exact hcopied
  · exact hcopied
  · rfl

end GenVM.Storage
