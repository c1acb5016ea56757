import GenVM.Lib.Except
import GenVM.Storage.DynArray

/-!
# `DynArray` follows a list

Each loop of the source is a sequence of moves: the shift and the two fills
of a slice assignment, the compaction of a deletion, the shift of an
insertion. Where no move reads an overwritten index the sequence is a
simultaneous assignment, and its contents are read off.

**Results.**
* `step_refines_list`: one operation that a list accepts and that meets
  `Meets` does to the array what it does to the list.
* `run_refines_list`: so does every run of such operations.
* `run_diverges`: runs that a list accepts and after which the array holds
  something else: an extended slice whose span the step does not divide, and
  the array assigned to a slice of itself.
-/
namespace GenVM.Storage.DynArray

open Moves PySlice

variable {V : Type}

/-! ## Contents -/

@[simp] theorem length_contents (a : DynArray V) : a.contents.length = a.len := by
  simp [contents]

theorem contents_getElem? (a : DynArray V) (i : Nat) :
    a.contents[i]? = if i < a.len then some (a.items i) else none := by
  simp [contents]
  split <;> simp_all

theorem contents_of_eq {a : DynArray V} {l : List V} (hlen : l.length = a.len)
    (h : ∀ i, i < a.len → l[i]? = some (a.items i)) : a.contents = l := by
  apply List.ext_getElem?
  intro i
  rw [contents_getElem?]
  split
  · exact (h i ‹_›).symm
  · exact (List.getElem?_eq_none (by omega)).symm

theorem contents_take (a : DynArray V) {k : Nat} (h : k ≤ a.len) :
    a.contents.take k = (List.range k).map a.items := by
  unfold contents
  rw [← List.map_take, List.take_range, Nat.min_eq_left h]

theorem contents_drop (a : DynArray V) (k : Nat) :
    a.contents.drop k = (List.range' k (a.len - k)).map a.items := by
  unfold contents
  rw [← List.map_drop, List.range_eq_range', List.drop_range']
  simp

theorem listItem_contents {a : DynArray V} {x : Item V} {v : V}
    (h : listItem a.contents x = some v) : x.eval a.items = v ∧ ∀ j, x = .slot j → j < a.len := by
  cases x with
  | value w =>
    simp only [listItem, Option.some.injEq] at h
    exact ⟨h, fun j hj => by cases hj⟩
  | slot i =>
    simp only [listItem, contents_getElem?] at h
    split at h
    · simp only [Option.some.injEq] at h
      refine ⟨h, ?_⟩
      intro j hj
      cases hj
      assumption
    · cases h

theorem listItems_contents {a : DynArray V} {xs : List (Item V)} {vs : List V}
    (h : xs.mapM (listItem a.contents) = some vs) :
    vs = xs.map (·.eval a.items) ∧ ∀ j, Src.slot j ∈ xs → j < a.len := by
  induction xs generalizing vs with
  | nil =>
    simp only [List.mapM_nil, Option.pure_def, Option.some.injEq] at h
    exact ⟨h.symm, fun j hj => by cases hj⟩
  | cons x xs ih =>
    simp only [List.mapM_cons, Option.bind_eq_bind, Option.bind_eq_some_iff, Option.pure_def,
      Option.some.injEq] at h
    obtain ⟨v, hv, ws, hws, rfl⟩ := h
    obtain ⟨hx, hxb⟩ := listItem_contents hv
    obtain ⟨rfl, hb⟩ := ih hws
    refine ⟨by rw [List.map_cons, hx], ?_⟩
    intro j hj
    rcases List.mem_cons.mp hj with hj | hj
    · exact hxb j hj.symm
    · exact hb j hj

theorem listRhs_contents {a : DynArray V} {rhs : Rhs V} {vs : List V}
    (h : listRhs a.contents rhs = some vs) :
    vs = (rhs.toList a.len).map (·.eval a.items) ∧
      ∀ j, Src.slot j ∈ rhs.toList a.len → j < a.len := by
  cases rhs with
  | items xs => exact listItems_contents h
  | self =>
    simp only [listRhs, Option.some.injEq] at h
    subst h
    simp [Rhs.toList, contents]

/-! ## Assignments read off -/

/-- Filling `vs` in from `s` on: what lies before and after is as it was. -/
theorem map_assign_zip (f : Nat → V) (s : Nat) (vs : List V) (c : Nat) :
    (List.range (s + vs.length + c)).map (Moves.assign f ((List.range' s vs.length).zip vs))
      = (List.range s).map f ++ vs ++ (List.range' (s + vs.length) c).map f := by
  have hkeys : ((List.range' s vs.length).zip vs).map Prod.fst = List.range' s vs.length := by
    rw [List.map_fst_zip]
    simp
  have hnodup : (((List.range' s vs.length).zip vs).map Prod.fst).Nodup := by
    rw [hkeys]
    exact List.nodup_range'
  have hout : ∀ p, p < s ∨ s + vs.length ≤ p →
      Moves.assign f ((List.range' s vs.length).zip vs) p = f p := by
    intro p hp
    apply Moves.assign_of_not_mem
    rw [hkeys, List.mem_range'_1]
    omega
  have hin : ∀ i (h : i < vs.length),
      Moves.assign f ((List.range' s vs.length).zip vs) (s + i) = vs[i] := by
    intro i h
    have hmem : (s + i, vs[i]) ∈ (List.range' s vs.length).zip vs := by
      apply List.mem_iff_getElem.mpr
      refine ⟨i, by simpa using h, ?_⟩
      simp
    exact Moves.assign_of_mem hnodup hmem f
  have hsplit : List.range (s + vs.length + c)
      = List.range s ++ List.range' s vs.length ++ List.range' (s + vs.length) c := by
    rw [List.range_eq_range', List.range_eq_range', ← List.range'_append_1, ← List.range'_append_1]
    simp
  rw [hsplit, List.map_append, List.map_append]
  congr 1
  · congr 1
    · apply List.map_congr_left
      intro p hp
      exact hout p (.inl (List.mem_range.mp hp))
    · apply List.ext_getElem
      · simp
      · intro i hi hi'
        simp only [List.getElem_map, List.getElem_range', Nat.one_mul]
        exact hin i hi'
  · apply List.map_congr_left
    intro p hp
    rw [List.mem_range'_1] at hp
    exact hout p (.inr hp.1)

/-- Assignments to items are assignments to the elements of the contents. -/
theorem contents_assign (a : DynArray V) (ws : List (Nat × V)) :
    contents { a with items := Moves.assign a.items ws }
      = ws.foldl (fun l w => l.set w.1 w.2) a.contents := by
  induction ws generalizing a with
  | nil => rfl
  | cons w ws ih =>
    have hset : contents { a with items := Function.update a.items w.1 w.2 }
        = a.contents.set w.1 w.2 := by
      apply contents_of_eq
      · simp
      · intro i hi
        rw [List.getElem?_set]
        by_cases h : w.1 = i
        · subst h
          simpa using hi
        · rw [if_neg h, contents_getElem?, if_pos hi]
          show some (a.items i) = some (Function.update a.items w.1 w.2 i)
          rw [Function.update_of_ne (Ne.symm h)]
    rw [List.foldl_cons, ← hset]
    exact ih { a with items := Function.update a.items w.1 w.2 }

/-! ## Loops as moves -/

theorem mapIndex_natCast {len i : Nat} (h : i < len) : mapIndex len (i : Int) = .ok i := by
  unfold mapIndex
  dsimp only
  rw [if_neg (by omega), if_neg (by omega)]
  simp

/-- Items at `start, start + step, ..` that are assigned to themselves stay as they are. -/
def SelfKept (desc : ItemDesc V) (f : Nat → V) (start step : Nat) (xs : List (Item V)) : Prop :=
  ∀ i j : Nat, xs[i]? = some (.slot j) → j = start + i * step → desc.selfSet (f j) = f j

section Kept

variable {desc : ItemDesc V} {f : Nat → V} {start step : Nat} {xs : List (Item V)}

theorem SelfKept.head {x : Item V} (h : SelfKept desc f start step (x :: xs)) (hx : x = .slot start) :
    desc.selfSet (f start) = f start :=
  h 0 start (by rw [hx]; rfl) (by omega)

/-- An item past the first is not the one that was written. -/
theorem SelfKept.tail {x : Item V} (h : SelfKept desc f start step (x :: xs)) (hstep : 0 < step)
    (v : V) : SelfKept desc (Function.update f start v) (start + step) step xs := by
  intro i j hij hj
  have hmul : (i + 1) * step = i * step + step := Nat.succ_mul i step
  have hne : j ≠ start := by omega
  rw [Function.update_of_ne hne]
  exact h (i + 1) j hij (by omega)

theorem SelfKept.take (h : SelfKept desc f start step xs) (n : Nat) :
    SelfKept desc f start step (xs.take n) := by
  intro i j hij hj
  rw [List.getElem?_take] at hij
  split at hij
  · exact h i j hij hj
  · cases hij

theorem SelfKept.drop (h : SelfKept desc f start 1 xs) (n : Nat) :
    SelfKept desc f (start + n) 1 (xs.drop n) := by
  intro i j hij hj
  rw [List.getElem?_drop] at hij
  exact h (n + i) j hij (by omega)

theorem SelfKept.congr {g : Nat → V} (h : SelfKept desc f start step xs)
    (hg : ∀ i, i < xs.length → g (start + i * step) = f (start + i * step)) :
    SelfKept desc g start step xs := by
  intro i j hij hj
  have hi : i < xs.length := (List.getElem?_eq_some_iff.mp hij).1
  have hgj : g j = f j := by
    rw [hj]
    exact hg i hi
  rw [hgj]
  exact h i j hij hj

end Kept

theorem itemSet_eq {desc : ItemDesc V} (a : DynArray V) {i : Nat} (h : i < desc.cap) (x : Item V)
    (hself : x = .slot i → desc.selfSet (a.items i) = a.items i) :
    itemSet desc a i x = .ok { a with items := Function.update a.items i (x.eval a.items) } := by
  unfold itemSet
  rw [if_pos (by omega), Int.toNat_natCast]
  cases x with
  | value v => rfl
  | slot j =>
    dsimp only [Src.eval]
    by_cases hj : j = i
    · subst hj
      rw [if_pos rfl, hself rfl]
    · rw [if_neg hj]

theorem setInt_eq {desc : ItemDesc V} (a : DynArray V) {i : Nat} (h : i < a.len) (hc : i < desc.cap)
    (x : Item V) (hself : x = .slot i → desc.selfSet (a.items i) = a.items i) :
    setInt desc a i x = .ok { a with items := Function.update a.items i (x.eval a.items) } := by
  unfold setInt
  rw [mapIndex_natCast h]
  exact itemSet_eq a hc x hself

theorem setLen_eq (a : DynArray V) {n : Nat} (h : n < 2 ^ 32) :
    setLen a n = .ok { a with len := n } := by
  unfold setLen
  rw [if_pos (by omega), Int.toNat_natCast]

theorem setLen_zero (a : DynArray V) : setLen a 0 = .ok { a with len := 0 } := by
  rw [← Nat.cast_zero]
  exact setLen_eq a (by omega)

theorem overwrite_eq {desc : ItemDesc V} {step : Nat} (hstep : 0 < step) (xs : List (Item V))
    (start : Nat) (a : DynArray V) (h : ∀ i, i < xs.length → start + i * step < a.len)
    (hcap : a.len ≤ desc.cap) (hself : SelfKept desc a.items start step xs) :
    overwrite desc start step xs a
      = .ok { a with items := Moves.run a.items ((List.range' start xs.length step).zip xs) } := by
  induction xs generalizing start a with
  | nil => rfl
  | cons x xs ih =>
    have h0 : start < a.len := by simpa using h 0 (by simp)
    unfold overwrite
    rw [setInt_eq a h0 (by omega) x hself.head, ← Nat.cast_add]
    apply ih (start + step) { a with items := Function.update a.items start (x.eval a.items) } _ hcap
      (hself.tail hstep _)
    intro i hi
    have hi' := h (i + 1) (by simpa using hi)
    rw [Nat.add_mul, Nat.one_mul] at hi'
    show start + step + i * step < a.len
    omega

/-- The moves that shift `n` items from `start` on by `width`, the last one first. -/
def shiftMoves (start width : Nat) : Nat → List (Nat × Item V)
  | 0 => []
  | n + 1 => (start + n + width, .slot (start + n)) :: shiftMoves start width n

/-- No item is moved to its own place. -/
theorem slot_ne {desc : ItemDesc V} {f : Nat → V} {i j : Nat} (h : i ≠ j) :
    (Src.slot j : Item V) = .slot i → desc.selfSet (f i) = f i := by
  intro he
  cases he
  exact absurd rfl h

theorem shift_eq {desc : ItemDesc V} (start : Nat) {width : Nat} (hw : 0 < width) (n : Nat)
    (a : DynArray V) (h : start + n ≤ a.len) (hcap : start + n + width ≤ desc.cap) :
    shift desc start width n a
      = .ok { a with items := Moves.run a.items (shiftMoves start width n) } := by
  induction n generalizing a with
  | zero => rfl
  | succ n ih =>
    unfold shift
    rw [← Nat.cast_add, mapIndex_natCast (by omega), ← Nat.cast_add]
    show (itemSet desc a ((start + n + width : Nat) : Int) (.slot (start + n))).bind _ = _
    rw [itemSet_eq a (by omega) _ (slot_ne (by omega))]
    exact ih _ (by show start + n ≤ a.len; omega) (by omega)

theorem insertLoop_eq {desc : ItemDesc V} (index n : Nat) (a : DynArray V) (h : index + n < a.len)
    (hcap : a.len ≤ desc.cap) :
    insertLoop desc index n a
      = .ok { a with items := Moves.run a.items (shiftMoves index 1 n) } := by
  induction n generalizing a with
  | zero => rfl
  | succ n ih =>
    unfold insertLoop
    have hc : (index : Int) + (n : Int) + 1 = ((index + n + 1 : Nat) : Int) := by omega
    rw [hc, ← Nat.cast_add, mapIndex_natCast (by omega)]
    show (setInt desc a ((index + n + 1 : Nat) : Int) (.slot (index + n))).bind _ = _
    rw [setInt_eq a (by omega) (by omega) _ (slot_ne (by omega))]
    exact ih _ (by show index + n < a.len; omega) hcap

theorem fill_eq {desc : ItemDesc V} (xs : List (Item V)) (start : Nat) (a : DynArray V)
    (hcap : start + xs.length ≤ desc.cap) (hself : SelfKept desc a.items start 1 xs) :
    fill desc start xs.length xs a
      = .ok { a with items := Moves.run a.items ((List.range' start xs.length).zip xs) } := by
  induction xs generalizing start a with
  | nil => rfl
  | cons x xs ih =>
    rw [List.length_cons] at hcap ⊢
    unfold fill
    rw [itemSet_eq a (by omega) x hself.head]
    have hc : (start : Int) + 1 = ((start + 1 : Nat) : Int) := by omega
    rw [hc]
    exact ih (start + 1) _ (by omega) (hself.tail Nat.one_pos _)

theorem assignLoop_eq {desc : ItemDesc V} (xs : List (Item V)) (idx : Nat) (a : DynArray V)
    (hcap : idx + xs.length ≤ desc.cap) (hself : SelfKept desc a.items idx 1 xs) :
    assignLoop desc idx xs a
      = .ok { a with items := Moves.run a.items ((List.range' idx xs.length).zip xs) } := by
  induction xs generalizing idx a with
  | nil => rfl
  | cons x xs ih =>
    rw [List.length_cons] at hcap
    unfold assignLoop
    rw [itemSet_eq a (by omega) x hself.head]
    exact ih (idx + 1) _ (by omega) (hself.tail Nat.one_pos _)

theorem map_eval_zip (f : Nat → V) (ts : List Nat) (xs : List (Item V)) :
    ((ts.zip xs).map fun m => (m.1, m.2.eval f)) = ts.zip (xs.map (·.eval f)) := by
  rw [List.zip_map_right]
  rfl

/-! ## Deletion -/

/-- `j` is one of `start, start + step, ..` below `stop`. -/
def Selects (start stop step : Int) (j : Nat) : Prop :=
  start ≤ j ∧ (j : Int) < stop ∧ step ∣ j - start

instance (start stop step : Int) (j : Nat) : Decidable (Selects start stop step j) := by
  unfold Selects
  infer_instance

/-- The indices of a list that a deletion keeps. -/
def kept (start stop step : Int) (is : List Nat) : List Nat :=
  is.filter fun j => ¬ Selects start stop step j

/-- Where the running target stands: at the first selected index from `i` on, or nowhere. -/
def NextDeletion (b e k : Int) (i : Nat) (next : Int) : Prop :=
  (next = -1 ∧ ∀ j, i ≤ j → ¬ Selects b e k j) ∨
    ∃ n : Nat, next = n ∧ i ≤ n ∧ Selects b e k n ∧ ∀ j, i ≤ j → j < n → ¬ Selects b e k j

theorem NextDeletion.hit {b e k : Int} (hk : 0 < k) {i : Nat} {next : Int}
    (h : NextDeletion b e k i next) (hi : (i : Int) = next) :
    Selects b e k i ∧
      NextDeletion b e k (i + 1) (if (i : Int) + k ≥ e then -1 else (i : Int) + k) := by
  rcases h with ⟨hn, -⟩ | ⟨n, hn, -, hsel, -⟩
  · omega
  · have hin : n = i := by omega
    subst hin
    refine ⟨hsel, ?_⟩
    obtain ⟨hb, -, hd⟩ := hsel
    -- the next selected index is one step away: both lie at multiples of the step
    have hgap : ∀ j : Nat, n + 1 ≤ j → Selects b e k j → (n : Int) + k ≤ j := by
      intro j hj hs
      have hdiv : k ∣ (j : Int) - n := by
        have hsub := Int.dvd_sub hs.2.2 hd
        rwa [show (j : Int) - b - (n - b) = j - n by omega] at hsub
      have := Int.le_of_dvd (by omega) hdiv
      omega
    split
    · left
      refine ⟨rfl, ?_⟩
      intro j hj hs
      have := hgap j hj hs
      have := hs.2.1
      omega
    · right
      refine ⟨(n + k.toNat), by omega, by omega, ?_, ?_⟩
      · refine ⟨by omega, by omega, ?_⟩
        have hadd := Int.dvd_add hd (Int.dvd_refl k)
        rwa [show (n : Int) - b + k = ((n + k.toNat : Nat) : Int) - b by omega] at hadd
      · intro j hj hlt hs
        have := hgap j hj hs
        omega

theorem NextDeletion.miss {b e k : Int} {i : Nat} {next : Int}
    (h : NextDeletion b e k i next) (hi : (i : Int) ≠ next) :
    ¬ Selects b e k i ∧ NextDeletion b e k (i + 1) next := by
  rcases h with ⟨hn, hnone⟩ | ⟨n, hn, hle, hsel, hbefore⟩
  · refine ⟨hnone i (le_refl i), .inl ⟨hn, ?_⟩⟩
    intro j hj
    exact hnone j (by omega)
  · refine ⟨hbefore i (le_refl i) (by omega), .inr ⟨n, hn, by omega, hsel, ?_⟩⟩
    intro j hj
    exact hbefore j (by omega)

/-- The moves of a compaction: the kept items one after the other from `ins` on. -/
def compactMoves (ins : Nat) (js : List Nat) : List (Nat × Item V) :=
  (List.range' ins js.length).zip (js.map Src.slot)

theorem compact_eq {desc : ItemDesc V} {b e k : Int} (hk : 0 < k) (n i : Nat) (next : Int)
    (ins : Nat) (a : DynArray V) (hlen : i + n = a.len) (hcap : a.len ≤ desc.cap)
    (hins : ins < i ∨ ins = i ∧ (i : Int) = next)
    (hnext : NextDeletion b e k i next) :
    compact desc e k (List.range' i n) next ins a
      = .ok ({ a with items :=
                Moves.run a.items (compactMoves ins (kept b e k (List.range' i n))) },
             ins + (kept b e k (List.range' i n)).length) := by
  induction n generalizing i next ins a with
  | zero => rfl
  | succ n ih =>
    rw [List.range'_succ]
    unfold compact
    by_cases hi : (i : Int) = next
    · obtain ⟨hsel, hnext'⟩ := hnext.hit hk hi
      rw [if_pos hi]
      dsimp only
      have hkept : kept b e k (i :: List.range' (i + 1) n) = kept b e k (List.range' (i + 1) n) := by
        simp [kept, hsel]
      rw [hkept]
      exact ih (i + 1) _ ins a (by omega) hcap (by omega) hnext'
    · obtain ⟨hsel, hnext'⟩ := hnext.miss hi
      have hlt : ins < i := hins.resolve_right fun h => hi h.2
      rw [if_neg hi, setInt_eq a (by omega) (by omega) _ (slot_ne (by omega))]
      have hkept : kept b e k (i :: List.range' (i + 1) n)
          = i :: kept b e k (List.range' (i + 1) n) := by
        simp [kept, hsel]
      rw [hkept]
      show compact desc e k (List.range' (i + 1) n) next (ins + 1) _ = _
      rw [ih (i + 1) next (ins + 1) { a with items := Function.update a.items ins ((Src.slot i : Item V).eval a.items) }
        (by show i + 1 + n = a.len; omega) hcap (by omega) hnext', List.length_cons, Nat.add_assoc,
        Nat.add_comm 1]
      rfl

/-- Compaction reads ahead of what it writes. -/
theorem fresh_compact (js : List Nat) (ins : Nat) (hsorted : js.Pairwise (· < ·))
    (hge : ∀ j ∈ js, ins ≤ j) :
    Fresh (compactMoves (V := V) ins js) := by
  induction js generalizing ins with
  | nil => exact List.Pairwise.nil
  | cons j js ih =>
    obtain ⟨hj, hjs⟩ := List.pairwise_cons.mp hsorted
    have hins := hge j (by simp)
    apply List.pairwise_cons.mpr
    refine ⟨?_, ?_⟩
    · intro m hm he
      obtain ⟨-, hm⟩ := List.of_mem_zip hm
      obtain ⟨j', hj', hjm⟩ := List.mem_map.mp hm
      rw [← hjm] at he
      have hlt := hj j' hj'
      cases he
      omega
    · apply ih (ins + 1) hjs
      intro j' hj'
      have := hj j' hj'
      omega

theorem kept_sorted (b e k : Int) (i n : Nat) : (kept b e k (List.range' i n)).Pairwise (· < ·) :=
  (List.pairwise_lt_range').filter _

theorem kept_ge {b e k : Int} {i n j : Nat} (h : j ∈ kept b e k (List.range' i n)) : i ≤ j := by
  have := (List.mem_filter.mp h).1
  rw [List.mem_range'_1] at this
  exact this.1

theorem delRange_eq {desc : ItemDesc V} {a c : DynArray V} {b e k : Int} {n : Nat} (h : ¬ e ≤ b)
    (hc : compact desc e k (List.range' b.toNat (a.len - b.toNat)) b b.toNat a = .ok (c, n)) :
    delRange desc a b e k = setLen c n := by
  unfold delRange
  rw [if_neg h, hc, Lib.Except.ok_bind]

/-- What a deletion of a normalised range leaves. -/
theorem delRange_contents (desc : ItemDesc V) {a : DynArray V} {b e k : Int} (hk : 0 < k)
    (hb : 0 ≤ b) (he : e ≤ a.len) (hcap : a.len ≤ desc.cap) (hlen : a.len < 2 ^ 32) :
    ∃ a', delRange desc a b e k = .ok a' ∧ a'.len ≤ a.len ∧
      a'.contents = (kept b e k (List.range a.len)).map a.items := by
  by_cases hle : e ≤ b
  · refine ⟨a, by unfold delRange; rw [if_pos hle], le_refl _, ?_⟩
    have hall : kept b e k (List.range a.len) = List.range a.len := by
      apply List.filter_eq_self.mpr
      intro j _
      have : ¬ Selects b e k j := fun h => by
        have := h.1
        have := h.2.1
        omega
      simpa using this
    rw [hall]
    rfl
  · obtain ⟨s, rfl⟩ := Int.eq_ofNat_of_zero_le hb
    have hs : s ≤ a.len := by omega
    have hnext : NextDeletion (s : Int) e k s s := by
      right
      refine ⟨s, rfl, le_refl s, ⟨le_refl _, by omega, by simp⟩, ?_⟩
      intro j hj hlt
      omega
    rw [delRange_eq hle (compact_eq hk (a.len - s) s s s a (by omega) hcap (.inr ⟨rfl, rfl⟩) hnext)]
    have hcount : (kept (s : Int) e k (List.range' s (a.len - s))).length ≤ a.len - s := by
      have := List.length_filter_le (fun j => decide ¬ Selects (s : Int) e k j)
        (List.range' s (a.len - s))
      rwa [List.length_range'] at this
    rw [setLen_eq _ (by omega)]
    refine ⟨_, rfl, by dsimp only; omega, ?_⟩
    have hfresh := fresh_compact (V := V) _ s (kept_sorted (s : Int) e k s (a.len - s))
      (fun j hj => kept_ge hj)
    rw [Moves.run_of_fresh hfresh, compactMoves, map_eval_zip]
    have hread := map_assign_zip a.items s
      ((kept (s : Int) e k (List.range' s (a.len - s))).map a.items) 0
    rw [List.length_map] at hread
    have hsplit : List.range a.len = List.range s ++ List.range' s (a.len - s) := by
      rw [List.range_eq_range', List.range_eq_range']
      have := List.range'_append_1 (s := 0) (m := s) (n := a.len - s)
      rw [Nat.zero_add, Nat.add_sub_cancel' hs] at this
      exact this.symm
    have hfirst : kept (s : Int) e k (List.range s) = List.range s := by
      apply List.filter_eq_self.mpr
      intro j hj
      have hj := List.mem_range.mp hj
      have : ¬ Selects (s : Int) e k j := fun h => by
        have := h.1
        omega
      simpa using this
    have hkept : kept (s : Int) e k (List.range a.len)
        = List.range s ++ kept (s : Int) e k (List.range' s (a.len - s)) := by
      rw [hsplit]
      unfold kept at hfirst ⊢
      rw [List.filter_append, hfirst]
    rw [hkept, List.map_append]
    unfold contents
    simpa [Function.comp_def] using hread

/-- Keeping everything outside a contiguous stretch. -/
theorem kept_contiguous {s e len : Nat} (hs : s ≤ e) (he : e ≤ len) :
    kept s e 1 (List.range len) = List.range s ++ List.range' e (len - e) := by
  have hsplit : List.range len
      = List.range s ++ List.range' s (e - s) ++ List.range' e (len - e) := by
    rw [List.range_eq_range', List.range_eq_range']
    have h1 := List.range'_append_1 (s := 0) (m := s) (n := e - s)
    have h2 := List.range'_append_1 (s := 0) (m := e) (n := len - e)
    rw [Nat.zero_add, Nat.add_sub_cancel' hs] at h1
    rw [Nat.zero_add, Nat.add_sub_cancel' he] at h2
    rw [h1, h2]
  unfold kept
  rw [hsplit, List.filter_append, List.filter_append]
  have h1 : (List.range s).filter (fun j => decide ¬ Selects (s : Int) e 1 j) = List.range s := by
    apply List.filter_eq_self.mpr
    intro j hj
    have hj := List.mem_range.mp hj
    simp [Selects]
    omega
  have h2 : (List.range' s (e - s)).filter (fun j => decide ¬ Selects (s : Int) e 1 j) = [] := by
    apply List.filter_eq_nil_iff.mpr
    intro j hj
    rw [List.mem_range'_1] at hj
    simp [Selects]
    omega
  have h3 : (List.range' e (len - e)).filter (fun j => decide ¬ Selects (s : Int) e 1 j)
      = List.range' e (len - e) := by
    apply List.filter_eq_self.mpr
    intro j hj
    rw [List.mem_range'_1] at hj
    simp [Selects]
    omega
  rw [h1, h2, h3, List.append_nil]

/-- Deleting a contiguous stretch. -/
theorem delRange_contiguous (desc : ItemDesc V) {a : DynArray V} {s e : Nat} (hs : s ≤ e)
    (he : e ≤ a.len) (hcap : a.len ≤ desc.cap) (hlen : a.len < 2 ^ 32) :
    ∃ a', delRange desc a s e 1 = .ok a' ∧ a'.len ≤ a.len ∧
      a'.contents = a.contents.take s ++ a.contents.drop e := by
  obtain ⟨a', hrun, hle, hcont⟩ := delRange_contents desc (a := a) (b := s) (e := e)
    (k := 1) (by omega) (by omega) (by omega) hcap hlen
  refine ⟨a', hrun, hle, ?_⟩
  rw [hcont, kept_contiguous hs he, List.map_append, contents_take a (by omega), contents_drop]

/-! ## Insertion -/

theorem mem_shiftMoves {start width n : Nat} {m : Nat × Item V} :
    m ∈ shiftMoves start width n ↔
      ∃ i, i < n ∧ m = (start + i + width, Src.slot (start + i)) := by
  induction n with
  | zero => simp [shiftMoves]
  | succ n ih =>
    unfold shiftMoves
    rw [List.mem_cons, ih]
    constructor
    · rintro (h | ⟨i, hi, h⟩)
      · exact ⟨n, by omega, h⟩
      · exact ⟨i, by omega, h⟩
    · intro h
      obtain ⟨i, hi, h⟩ := h
      by_cases hin : i = n
      · subst hin
        exact .inl h
      · exact .inr ⟨i, by omega, h⟩

theorem shiftMoves_nodup (start width n : Nat) :
    ((shiftMoves (V := V) start width n).map Prod.fst).Nodup := by
  induction n with
  | zero => exact List.nodup_nil
  | succ n ih =>
    unfold shiftMoves
    rw [List.map_cons, List.nodup_cons]
    refine ⟨?_, ih⟩
    intro h
    obtain ⟨m, hm, he⟩ := List.mem_map.mp h
    obtain ⟨i, hi, rfl⟩ := mem_shiftMoves.mp hm
    dsimp only at he
    omega

/-- Shifting the last item first never reads what it wrote. -/
theorem fresh_shift {start width n : Nat} (hw : 0 < width) :
    Fresh (shiftMoves (V := V) start width n) := by
  induction n with
  | zero => exact List.Pairwise.nil
  | succ n ih =>
    apply List.pairwise_cons.mpr
    refine ⟨?_, ih⟩
    intro m hm he
    obtain ⟨i, hi, rfl⟩ := mem_shiftMoves.mp hm
    simp only [Src.slot.injEq] at he
    omega

/-- A fill is fresh when every view is read before its index is filled. -/
theorem fresh_zip (start step : Nat) {xs : List (Item V)}
    (h : ∀ i j : Nat, xs[i]? = some (.slot j) → ∀ i', i' < i → j ≠ start + i' * step) :
    Fresh ((List.range' start xs.length step).zip xs) := by
  apply List.pairwise_iff_getElem.mpr
  intro i' i hi' hi hlt he
  rw [List.length_zip, List.length_range', Nat.min_self] at hi hi'
  simp only [List.getElem_zip, List.getElem_range'] at he
  have := h i _ (by rw [List.getElem?_eq_getElem hi, he]) i' hlt
  rw [Nat.mul_comm] at this
  exact this rfl

/-- The moves of a slice assignment that grows the array: the slice is
overwritten, its tail moved right, and the gap filled. -/
def growMoves (b n count : Nat) (newVal : List (Item V)) : List (Nat × Item V) :=
  (List.range' b n).zip (newVal.take n) ++
    (shiftMoves (b + n) (newVal.length - n) count ++
      (List.range' (b + n) (newVal.length - n)).zip (newVal.drop n))

theorem growMoves_perm (b count : Nat) {n : Nat} {newVal : List (Item V)} (h : n ≤ newVal.length) :
    (growMoves b n count newVal).Perm
      (shiftMoves (b + n) (newVal.length - n) count ++ (List.range' b newVal.length).zip newVal) := by
  have hzip : (List.range' b newVal.length).zip newVal
      = (List.range' b n).zip (newVal.take n) ++
        (List.range' (b + n) (newVal.length - n)).zip (newVal.drop n) := by
    rw [← List.zip_append (by simp [h]), List.take_append_drop]
    congr 1
    have := List.range'_append_1 (s := b) (m := n) (n := newVal.length - n)
    rw [Nat.add_sub_cancel' h] at this
    exact this.symm
  rw [hzip]
  unfold growMoves
  rw [← List.append_assoc, ← List.append_assoc]
  exact List.Perm.append_right _ List.perm_append_comm

theorem growMoves_fresh {b n count : Nat} {newVal : List (Item V)} (h : n < newVal.length)
    (hin : Intact b 1 n newVal) : Fresh (growMoves b n count newVal) := by
  have hview : ∀ i j : Nat, newVal[i]? = some (.slot j) →
      (∀ i', i' < i → j ≠ b + i') ∧ (n ≤ i → j < b + newVal.length) := by
    intro i j hij
    obtain ⟨h1, h2⟩ := hin i j hij
    refine ⟨?_, ?_⟩
    · intro i' hi' he
      exact h1 i' hi' (by omega)
    · intro hle
      have := h2 (by omega)
      omega
  have hfill : ∀ m, m ∈ (List.range' (b + n) (newVal.length - n)).zip (newVal.drop n) →
      ∃ i, i + n < newVal.length ∧ m.1 = b + n + i ∧ newVal[n + i]? = some m.2 := by
    intro m hm
    obtain ⟨i, hi, rfl⟩ := List.mem_iff_getElem.mp hm
    rw [List.length_zip, List.length_range', List.length_drop, Nat.min_self] at hi
    refine ⟨i, by omega, by simp, ?_⟩
    simp only [List.getElem_zip, List.getElem_drop]
    exact List.getElem?_eq_getElem (by omega)
  have hover : ∀ m, m ∈ (List.range' b n).zip (newVal.take n) → ∃ i, i < n ∧ m.1 = b + i := by
    intro m hm
    have hk := (List.of_mem_zip hm).1
    rw [List.mem_range'_1] at hk
    exact ⟨m.1 - b, by omega, by omega⟩
  unfold growMoves
  apply List.pairwise_append.mpr
  refine ⟨?_, ?_, ?_⟩
  · have hlen : (newVal.take n).length = n := by simp; omega
    have := @fresh_zip V b 1 (newVal.take n) ?_
    · rwa [hlen] at this
    · intro i j hij i' hi'
      rw [List.getElem?_take] at hij
      split at hij
      · have := (hview i j hij).1 i' hi'
        omega
      · cases hij
  · apply List.pairwise_append.mpr
    refine ⟨fresh_shift (by omega), ?_, ?_⟩
    · have hlen : (newVal.drop n).length = newVal.length - n := by simp
      have := @fresh_zip V (b + n) 1 (newVal.drop n) ?_
      · rwa [hlen] at this
      · intro i j hij i' hi'
        rw [List.getElem?_drop] at hij
        have := (hview (n + i) j hij).1 (n + i') (by omega)
        omega
    · -- a filled item is read below what the shift has moved
      intro m hm m' hm' he
      obtain ⟨i, hi, rfl⟩ := mem_shiftMoves.mp hm
      obtain ⟨i', hi', -, hget⟩ := hfill m' hm'
      rw [he] at hget
      have := (hview _ _ hget).2 (by omega)
      omega
  · intro m hm m' hm' he
    obtain ⟨i, hi, hm1⟩ := hover m hm
    rcases List.mem_append.mp hm' with hm' | hm'
    · obtain ⟨i', hi', rfl⟩ := mem_shiftMoves.mp hm'
      simp only [Src.slot.injEq] at he
      omega
    · obtain ⟨i', hi', -, hget⟩ := hfill m' hm'
      rw [he] at hget
      exact (hview _ _ hget).1 i (by omega) hm1

theorem grow_contents (a : DynArray V) {b n : Nat} {newVal : List (Item V)}
    (h : n < newVal.length) (hb : b + n ≤ a.len) (hin : Intact b 1 n newVal) :
    contents { len := a.len + (newVal.length - n),
               items := Moves.run a.items (growMoves b n (a.len - (b + n)) newVal) }
      = a.contents.take b ++ newVal.map (·.eval a.items) ++ a.contents.drop (b + n) := by
  have hfst : ∀ ms : List (Nat × Item V),
      (ms.map fun m => (m.1, m.2.eval a.items)).map Prod.fst = ms.map Prod.fst := by
    intro ms
    rw [List.map_map]
    rfl
  have hperm := growMoves_perm b (a.len - (b + n)) (Nat.le_of_lt h)
  have hkeys : ((List.range' b newVal.length).zip newVal).map Prod.fst
      = List.range' b newVal.length := by
    rw [List.map_fst_zip]
    simp
  have hnodup : ((growMoves b n (a.len - (b + n)) newVal).map Prod.fst).Nodup := by
    rw [(hperm.map Prod.fst).nodup_iff, List.map_append, hkeys]
    apply List.nodup_append.mpr
    refine ⟨shiftMoves_nodup _ _ _, List.nodup_range', ?_⟩
    intro t ht u hu
    obtain ⟨m, hm, rfl⟩ := List.mem_map.mp ht
    obtain ⟨i, hi, rfl⟩ := mem_shiftMoves.mp hm
    rw [List.mem_range'_1] at hu
    dsimp only
    omega
  rw [Moves.run_of_fresh (growMoves_fresh h hin),
    Moves.assign_perm (hperm.map _) (by rw [hfst]; exact hnodup), List.map_append,
    Moves.assign_append, map_eval_zip]
  have hshiftNodup := shiftMoves_nodup (V := V) (b + n) (newVal.length - n) (a.len - (b + n))
  rw [← hfst] at hshiftNodup
  generalize hg : Moves.assign a.items
    ((shiftMoves (b + n) (newVal.length - n) (a.len - (b + n))).map
      fun m => (m.1, m.2.eval a.items)) = g
  have hlow : ∀ p, p < b + newVal.length → g p = a.items p := by
    intro p hp
    rw [← hg]
    apply Moves.assign_of_not_mem
    rw [hfst]
    intro hmem
    obtain ⟨m, hm, rfl⟩ := List.mem_map.mp hmem
    obtain ⟨i, hi, rfl⟩ := mem_shiftMoves.mp hm
    dsimp only at hp
    omega
  have hhigh : ∀ i, i < a.len - (b + n) → g (b + newVal.length + i) = a.items (b + n + i) := by
    intro i hi
    have hmem : (b + newVal.length + i, a.items (b + n + i)) ∈
        (shiftMoves (b + n) (newVal.length - n) (a.len - (b + n))).map
          fun m => (m.1, m.2.eval a.items) := by
      apply List.mem_map.mpr
      refine ⟨(b + n + i + (newVal.length - n), Src.slot (b + n + i)),
        mem_shiftMoves.mpr ⟨i, hi, rfl⟩, ?_⟩
      rw [show b + n + i + (newVal.length - n) = b + newVal.length + i by omega]
      rfl
    rw [← hg]
    exact Moves.assign_of_mem hshiftNodup hmem a.items
  have hread := map_assign_zip g b (newVal.map (·.eval a.items)) (a.len - (b + n))
  rw [List.length_map] at hread
  unfold contents
  dsimp only
  rw [show a.len + (newVal.length - n) = b + newVal.length + (a.len - (b + n)) by omega, hread,
    ← contents, contents_take a (by omega), contents_drop]
  congr 1
  · congr 1
    apply List.map_congr_left
    intro p hp
    exact hlow p (by have := List.mem_range.mp hp; omega)
  · apply List.ext_getElem
    · simp
    · intro i hi hi'
      rw [List.length_map, List.length_range'] at hi
      simp only [List.getElem_map, List.getElem_range', Nat.one_mul]
      exact hhigh i hi

/-! ## Slice assignment -/

/-- A slice assignment after its first loop, for `n` items in the slice of
which the first `c` were overwritten. -/
theorem setRange_eq (desc : ItemDesc V) (a : DynArray V) {b e k n : Nat} (hk : 0 < k)
    (newVal : List (Item V)) (hcap : a.len ≤ desc.cap) (hspan : ((e : Int) - b) / k = n)
    (hfit : ∀ i, i < min newVal.length n → b + i * k < a.len)
    (hself : SelfKept desc a.items b k newVal) :
    setRange desc a b e k newVal =
      (let c := min newVal.length n
       let a1 := { a with items := Moves.run a.items ((List.range' b c k).zip (newVal.take c)) }
       if (n : Int) - c > 0 then delSlice desc a1 ⟨some ((b : Int) + c), some (e : Int), some (k : Int)⟩
       else if (newVal.length : Int) - c > 0 then
         insertRest desc a1 (b + c) ((newVal.length : Int) - c) (newVal.drop c)
       else .ok a1) := by
  unfold setRange
  dsimp only
  rw [hspan]
  have hc : min (newVal.length : Int) (n : Int) = ((min newVal.length n : Nat) : Int) := by
    rw [Nat.cast_min]
  rw [hc, Int.toNat_natCast]
  have hlen : (newVal.take (min newVal.length n)).length = min newVal.length n := by
    rw [List.length_take]
    omega
  have hover := overwrite_eq hk (newVal.take (min newVal.length n)) b a
    (by rw [hlen]; exact hfit) hcap (hself.take _)
  rw [hlen] at hover
  rw [hover, Lib.Except.ok_bind]

/-- As many items as the slice has: they are overwritten in place. -/
theorem setRange_overwrite (desc : ItemDesc V) (a : DynArray V) {b e k n : Nat} (hk : 0 < k)
    {newVal : List (Item V)} (hcap : a.len ≤ desc.cap) (hspan : ((e : Int) - b) / k = n)
    (hn : newVal.length = n) (hfit : ∀ i, i < n → b + i * k < a.len)
    (hin : Intact b k n newVal) (hself : SelfKept desc a.items b k newVal) :
    ∃ a', setRange desc a b e k newVal = .ok a' ∧ a'.len = a.len ∧
      a'.contents = ((List.range' b n k).zip (newVal.map (·.eval a.items))).foldl
        (fun l w => l.set w.1 w.2) a.contents := by
  have hmin : min newVal.length n = n := by omega
  rw [setRange_eq desc a hk newVal hcap hspan (by rw [hmin]; exact hfit) hself, hmin]
  dsimp only
  rw [if_neg (by omega), if_neg (by omega)]
  refine ⟨_, rfl, rfl, ?_⟩
  have htake : newVal.take n = newVal := List.take_of_length_le (by omega)
  have hfresh := @fresh_zip V b k newVal (by
    intro i j hij i' hi'
    have := (hin i j hij).1 i' hi'
    intro he
    apply this
    rw [he]
    push_cast
    rfl)
  rw [hn] at hfresh
  rw [htake, Moves.run_of_fresh hfresh, map_eval_zip, contents_assign]

/-- Fewer items than the contiguous slice has: the rest of it is deleted. -/
theorem setRange_shrink (desc : ItemDesc V) (a : DynArray V) {b n : Nat} {newVal : List (Item V)}
    (hcap : a.len ≤ desc.cap) (hlen : a.len < 2 ^ 32) (hb : b + n ≤ a.len)
    (hn : newVal.length < n) (hin : Intact b 1 n newVal)
    (hself : SelfKept desc a.items b 1 newVal) :
    ∃ a', setRange desc a b ((b + n : Nat) : Int) 1 newVal = .ok a' ∧ a'.len ≤ a.len ∧
      a'.contents
        = a.contents.take b ++ newVal.map (·.eval a.items) ++ a.contents.drop (b + n) := by
  have hmin : min newVal.length n = newVal.length := by omega
  have hspan : (((b + n : Nat) : Int) - b) / ((1 : Nat) : Int) = n := by
    rw [Nat.cast_one, Int.ediv_one]
    omega
  have heq := setRange_eq desc a Nat.one_pos newVal hcap hspan
    (by intro i hi; omega) hself
  rw [Nat.cast_one] at heq
  rw [heq, hmin]
  dsimp only
  rw [if_pos (by omega), List.take_length]
  have hfresh := @fresh_zip V b 1 newVal (by
    intro i j hij i' hi' he
    exact (hin i j hij).1 i' hi' (by omega))
  rw [Moves.run_of_fresh hfresh, map_eval_zip]
  generalize ha1 : (⟨a.len, Moves.assign a.items
    ((List.range' b newVal.length).zip (newVal.map (·.eval a.items)))⟩ : DynArray V) = a1
  have hlen1 : a1.len = a.len := by rw [← ha1]
  have hcont1 : a1.contents = a.contents.take b ++ newVal.map (·.eval a.items)
      ++ a.contents.drop (b + newVal.length) := by
    have hread := map_assign_zip a.items b (newVal.map (·.eval a.items))
      (a.len - (b + newVal.length))
    rw [List.length_map, show b + newVal.length + (a.len - (b + newVal.length)) = a.len by omega]
      at hread
    rw [← ha1, contents_take a (by omega), contents_drop]
    exact hread
  unfold delSlice
  have hidx : sliceToIdx ⟨some ((b : Int) + newVal.length), some ((b + n : Nat) : Int), some 1⟩
      a1.len = .ok (((b + newVal.length : Nat) : Int), ((b + n : Nat) : Int), 1) := by
    unfold sliceToIdx Slice.indices clamp
    simp only [Option.getD_some]
    rw [if_neg (by omega)]
    simp only [show ¬ (1 : Int) < 0 by omega, if_false]
    rw [if_neg (by omega), if_neg (by omega), min_eq_left (by omega), min_eq_left (by omega)]
    push_cast
    rfl
  rw [hidx, Lib.Except.ok_bind]
  obtain ⟨a', hrun, hle, hcont⟩ := delRange_contiguous desc (a := a1)
    (s := b + newVal.length) (e := b + n) (by omega) (by omega) (by omega) (by omega)
  refine ⟨a', hrun, by omega, ?_⟩
  rw [hcont, hcont1]
  have hpre : (a.contents.take b ++ newVal.map (·.eval a.items)).length = b + newVal.length := by
    simp
    omega
  rw [List.take_append_of_le_length (by omega), List.take_of_length_le (by omega),
    List.drop_append, List.drop_eq_nil_of_le (by omega), List.nil_append, List.drop_drop, hpre]
  congr 2
  omega

/-- More items than the contiguous slice has: the tail moves right. -/
theorem setRange_grow (desc : ItemDesc V) (a : DynArray V) {b n : Nat} {newVal : List (Item V)}
    (hb : b + n ≤ a.len) (hn : n < newVal.length)
    (hfit : Holds desc.cap (a.len + (newVal.length - n : Nat))) (hin : Intact b 1 n newVal)
    (hself : SelfKept desc a.items b 1 newVal) :
    ∃ a', setRange desc a b ((b + n : Nat) : Int) 1 newVal = .ok a' ∧
      a'.len = a.len + (newVal.length - n) ∧
      a'.contents
        = a.contents.take b ++ newVal.map (·.eval a.items) ++ a.contents.drop (b + n) := by
  obtain ⟨hfit32, hfitcap⟩ := hfit
  have hmin : min newVal.length n = n := by omega
  have hspan : (((b + n : Nat) : Int) - b) / ((1 : Nat) : Int) = n := by
    rw [Nat.cast_one, Int.ediv_one]
    omega
  have heq := setRange_eq desc a Nat.one_pos newVal (by omega) hspan
    (by intro i hi; omega) hself
  rw [Nat.cast_one] at heq
  rw [heq, hmin]
  dsimp only
  rw [if_neg (by omega), if_pos (by omega)]
  unfold insertRest
  dsimp only
  have hw : (newVal.length : Int) - n = ((newVal.length - n : Nat) : Int) := by omega
  have hs : (b : Int) + n = ((b + n : Nat) : Int) := by omega
  have hcount : ((a.len : Int) - ((b + n : Nat) : Int)).toNat = a.len - (b + n) := by omega
  rw [hw, hs, hcount, shift_eq _ (by omega) _ _ (by dsimp only; omega) (by omega), Lib.Except.ok_bind,
    Int.toNat_natCast]
  have hdrop : (newVal.drop n).length = newVal.length - n := by simp
  have hread : SelfKept desc (Moves.run (Moves.run a.items ((List.range' b n 1).zip (newVal.take n)))
      (shiftMoves (b + n) (newVal.length - n) (a.len - (b + n)))) (b + n) 1 (newVal.drop n) := by
    -- the gap lies past what was overwritten and before what was moved
    refine (hself.drop n).congr fun i hi => ?_
    rw [List.length_drop] at hi
    rw [Moves.run_of_not_mem, Moves.run_of_not_mem]
    · intro hmem
      obtain ⟨m, hm, he⟩ := List.mem_map.mp hmem
      have hlt := List.mem_range'_1.mp (List.of_mem_zip hm).1
      omega
    · intro hmem
      obtain ⟨m, hm, he⟩ := List.mem_map.mp hmem
      obtain ⟨i', -, rfl⟩ := mem_shiftMoves.mp hm
      dsimp only at he
      omega
  have hfill := fill_eq (newVal.drop n) (b + n)
    ⟨a.len, Moves.run (Moves.run a.items ((List.range' b n 1).zip (newVal.take n)))
      (shiftMoves (b + n) (newVal.length - n) (a.len - (b + n)))⟩ (by omega) hread
  rw [hdrop] at hfill
  rw [hfill, Lib.Except.ok_bind, ← Nat.cast_add, setLen_eq _ (by dsimp only; omega)]
  refine ⟨_, rfl, rfl, ?_⟩
  rw [← grow_contents a hn hb hin]
  unfold growMoves
  rw [Moves.run_append, Moves.run_append]

/-- Overwriting a contiguous stretch in place. -/
theorem foldl_set_splice (a : DynArray V) {b : Nat} {vs : List V} (h : b + vs.length ≤ a.len) :
    ((List.range' b vs.length).zip vs).foldl (fun l w => l.set w.1 w.2) a.contents
      = a.contents.take b ++ vs ++ a.contents.drop (b + vs.length) := by
  rw [← contents_assign, contents_take a (by omega), contents_drop]
  have hread := map_assign_zip a.items b vs (a.len - (b + vs.length))
  rw [show b + vs.length + (a.len - (b + vs.length)) = a.len by omega] at hread
  exact hread

/-- The slots of a range are assigned like the range. -/
theorem foldl_zip_toNat (r : List Int) (vs l : List V) :
    (r.zip vs).foldl (fun l w => l.set w.1.toNat w.2) l
      = ((r.map Int.toNat).zip vs).foldl (fun l w => l.set w.1 w.2) l := by
  rw [List.zip_map_left, List.foldl_map]
  rfl

/-- A view on the right-hand side that is assigned to itself. -/
theorem Kept.at {desc : ItemDesc V} {a : DynArray V} {op : Op V} (h : Kept desc a.contents op)
    {j : Nat} (hj : AssignsSelf a.len j op) (hlt : j < a.len) :
    desc.selfSet (a.items j) = a.items j := by
  refine h j (a.items j) (by rw [length_contents]; exact hj) ?_
  rw [contents_getElem?, if_pos hlt]

theorem setSlice_selfKept {desc : ItemDesc V} {a : DynArray V} {s : Slice} {rhs : Rhs V}
    {newVal : List (Item V)} {b k : Nat} {e : Int}
    (h : Kept desc a.contents (.setSlice s rhs)) (hto : sliceToIdx s a.len = .ok (b, e, k))
    (hnew : (if s.step.getD 1 < 0 then (rhs.toList a.len).reverse else rhs.toList a.len) = newVal)
    (hin : ∀ j, Src.slot j ∈ newVal → j < a.len) : SelfKept desc a.items b k newVal := by
  intro i j hij hj
  refine h.at ⟨b, e, k, hto, i, ?_, ?_⟩ (hin j (List.mem_of_getElem? hij))
  · rw [hj]
    push_cast
    rfl
  · rw [hnew]
    exact hij

theorem setSlice_refines {desc : ItemDesc V} {a : DynArray V} {s : Slice} {rhs : Rhs V}
    {vs l' : List V} (hh : Holds desc.cap a.len) (hrhs : listRhs a.contents rhs = some vs)
    (hset : PySlice.setSlice a.contents s vs = some l')
    (hm : Meets desc.cap a.len (.setSlice s rhs)) (hkept : Kept desc a.contents (.setSlice s rhs)) :
    ∃ a', setSlice desc a s rhs = .ok a' ∧ Holds desc.cap a'.len ∧ a'.contents = l' := by
  obtain ⟨hvs, hviews⟩ := listRhs_contents hrhs
  obtain ⟨h32, hcap⟩ := hh
  unfold PySlice.setSlice at hset
  rw [length_contents] at hset
  obtain ⟨⟨start, stop, stp⟩, hidx, hl⟩ := Option.bind_eq_some_iff.mp hset
  dsimp only at hl
  obtain ⟨hexact, hm⟩ := hm start stop stp hidx
  obtain ⟨hne, hstep⟩ := indices_step hidx
  unfold setSlice
  unfold Exact at hexact
  have hcount : vs.length = (rhs.toList a.len).length := by rw [hvs, List.length_map]
  by_cases hpos : 0 < stp
  · -- an ascending slice is taken as it stands
    rw [if_pos hpos] at hexact
    obtain ⟨hle, hdvd⟩ := hexact
    obtain ⟨hs0, hs1, ht0, ht1⟩ := indices_pos hidx hpos
    have hto : sliceToIdx s a.len = .ok (start, stop, stp) := by
      unfold sliceToIdx
      rw [hidx]
      dsimp only
      rw [if_neg (by omega)]
    obtain ⟨hfit, hin⟩ := hm start stop stp hto
    rw [hto, Lib.Except.ok_bind]
    dsimp only
    rw [← hstep, if_neg (by omega)] at hin ⊢
    have hlenr := rangeLen_of_dvd hpos hle hdvd
    obtain ⟨b, rfl⟩ := Int.eq_ofNat_of_zero_le hs0
    obtain ⟨e, rfl⟩ := Int.eq_ofNat_of_zero_le ht0
    obtain ⟨k, rfl⟩ := Int.eq_ofNat_of_zero_le (Int.le_of_lt hpos)
    rw [← hlenr] at hfit hin
    have hnew : (if s.step.getD 1 < 0 then (rhs.toList a.len).reverse else rhs.toList a.len) =
        rhs.toList a.len := by
      rw [← hstep, if_neg (by omega)]
    by_cases hk : (k : Int) = 1
    · have hk1 : k = 1 := by omega
      subst hk1
      have hself := setSlice_selfKept hkept hto hnew hviews
      rw [if_pos hk, max_eq_right hle, Int.toNat_natCast, Int.toNat_natCast] at hl
      have hn : rangeLen (b : Int) e ((1 : Nat) : Int) = e - b := by
        rw [Nat.cast_one, rangeLen_one]
        omega
      rw [hn] at hfit hin
      obtain ⟨n, rfl⟩ : ∃ n, e = b + n := ⟨e - b, by omega⟩
      rw [Nat.add_sub_cancel_left] at hfit hin
      have hl : a.contents.take b ++ vs ++ a.contents.drop (b + n) = l' := Option.some.inj hl
      rw [Nat.cast_one] at hin ⊢
      rcases lt_trichotomy (rhs.toList a.len).length n with hlt | heq | hgt
      · obtain ⟨a', hrun, hle', hcont⟩ :=
          setRange_shrink desc a (by omega) (by omega) (by omega) hlt hin hself
        exact ⟨a', hrun, ⟨by omega, by omega⟩, by rw [hcont, ← hvs, hl]⟩
      · obtain ⟨a', hrun, hlen', hcont⟩ :=
          setRange_overwrite desc (b := b) a Nat.one_pos (by omega) (e := b + n) (n := n)
            (by rw [Nat.cast_one, Int.ediv_one]; omega) heq (by intro i hi; omega)
            (by rw [Nat.cast_one]; exact hin) hself
        rw [Nat.cast_one] at hrun
        refine ⟨a', hrun, ⟨by omega, by omega⟩, ?_⟩
        rw [hcont, ← hvs, ← hl, ← heq, ← hcount]
        exact foldl_set_splice a (by omega)
      · obtain ⟨a', hrun, hlen', hcont⟩ :=
          setRange_grow desc a (by omega) hgt
            ⟨by have := hfit.1; omega, by have := hfit.2; omega⟩ hin hself
        refine ⟨a', hrun, ⟨?_, ?_⟩, by rw [hcont, ← hvs, hl]⟩
        · have := hfit.1
          omega
        · have := hfit.2
          omega
    · rw [if_neg hk] at hl
      split at hl
      · rename_i hcnt
        have hmem : ∀ i, i < rangeLen (b : Int) e k → b + i * k < a.len := by
          intro i hi
          have hi : (b : Int) + i * k ∈ range (b : Int) e k :=
            List.mem_map.mpr ⟨i, List.mem_range.mpr hi, rfl⟩
          have := ((mem_range_pos hpos).mp hi).2.1
          have hc : ((b + i * k : Nat) : Int) = (b : Int) + i * k := by push_cast; rfl
          omega
        obtain ⟨a', hrun, hlen', hcont⟩ :=
          setRange_overwrite desc a (by omega) (by omega) (e := e) (n := rangeLen (b : Int) e k)
            hlenr.symm (by omega) hmem hin (setSlice_selfKept hkept hto hnew hviews)
        refine ⟨a', hrun, ⟨by omega, by omega⟩, ?_⟩
        rw [hcont, ← hvs, ← Option.some.inj hl, foldl_zip_toNat, range_toNat hpos (by omega),
          Int.toNat_natCast, Int.toNat_natCast]
      · cases hl
  · -- a descending slice by one is the ascending one over the reversed items
    rw [if_neg hpos] at hexact
    obtain ⟨rfl, hle⟩ := hexact
    obtain ⟨hs0, hs1, ht0, ht1⟩ := indices_neg hidx (by omega)
    have hto : sliceToIdx s a.len = .ok (stop + 1, start + 1, 1) := by
      unfold sliceToIdx
      rw [hidx]
      dsimp only
      rw [if_pos (by omega)]
      have hq : start - (start - stop - 1) / (-1 * -1) * (-1 * -1) = stop + 1 := by
        rw [show (-1 : Int) * -1 = 1 by rfl, Int.ediv_one]
        omega
      rw [hq]
      rfl
    obtain ⟨hfit, hin⟩ := hm (stop + 1) (start + 1) 1 hto
    rw [hto, Lib.Except.ok_bind]
    dsimp only
    have hnew : (if s.step.getD 1 < 0 then (rhs.toList a.len).reverse else rhs.toList a.len) =
        (rhs.toList a.len).reverse := by
      rw [← hstep, if_pos (by omega)]
    rw [← hstep, if_pos (by omega)] at hin ⊢
    rw [if_neg (by omega)] at hl
    split at hl
    · rename_i hcnt
      rw [rangeLen_neg_one] at hcnt
      obtain ⟨b, hb⟩ := Int.eq_ofNat_of_zero_le (show 0 ≤ stop + 1 by omega)
      obtain ⟨n, hn⟩ := Int.eq_ofNat_of_zero_le (show 0 ≤ start - stop by omega)
      have hb : stop + 1 = (b : Int) := hb
      have hn : start - stop = (n : Int) := hn
      have he : start + 1 = ((b + n : Nat) : Int) := by omega
      rw [Int.ediv_one, show start + 1 - (stop + 1) = (n : Int) by omega, hb] at hin
      rw [he, hb]
      rw [hb] at hto
      have hself := setSlice_selfKept hkept hto hnew fun j hj => hviews j (List.mem_reverse.mp hj)
      have hrev : (rhs.toList a.len).reverse.length = n := by
        rw [List.length_reverse]
        omega
      obtain ⟨a', hrun, hlen', hcont⟩ :=
        setRange_overwrite desc (b := b) a Nat.one_pos (by omega) (e := b + n) (n := n)
          (by rw [Nat.cast_one, Int.ediv_one]; omega) hrev (by intro i hi; omega)
          (by rw [Nat.cast_one]; exact hin) hself
      rw [Nat.cast_one] at hrun
      refine ⟨a', hrun, ⟨by omega, by omega⟩, ?_⟩
      have hb' : (stop + 1).toNat = b := by omega
      have hn' : rangeLen start stop (-1) = n := by
        rw [rangeLen_neg_one]
        omega
      have hzip : (List.range' b n).reverse.zip vs = ((List.range' b n).zip vs.reverse).reverse := by
        rw [List.zip_eq_zipWith, List.zip_eq_zipWith, List.reverse_zipWith (by simp; omega),
          List.reverse_reverse]
      rw [← Option.some.inj hl, foldl_zip_toNat, range_neg_one_toNat (by omega), hb', hn', hzip,
        hcont, ← contents_assign, ← contents_assign, List.map_reverse, ← hvs]
      congr 2
      apply Moves.assign_perm (List.reverse_perm _).symm
      rw [List.map_fst_zip (by simp; omega)]
      exact List.nodup_range'
    · cases hl

/-! ## The other operations -/

theorem listIndex_mapIndex {len : Nat} {i : Int} {k : Nat} (h : listIndex len i = some k) :
    mapIndex len i = .ok k ∧ k < len ∧ (k : Int) = if i < 0 then i + len else i := by
  unfold listIndex at h
  unfold mapIndex
  dsimp only at h ⊢
  generalize (if i < 0 then i + (len : Int) else i) = i' at h ⊢
  split at h
  · rename_i hin
    have hk : i'.toNat = k := Option.some.inj h
    rw [if_neg (by omega), hk]
    exact ⟨rfl, by omega, by omega⟩
  · cases h

theorem append_refines {desc : ItemDesc V} {a : DynArray V} {x : Item V} {v : V}
    (hx : listItem a.contents x = some v) (hm : Holds desc.cap (a.len + 1)) :
    ∃ a', append desc a x = .ok a' ∧ Holds desc.cap a'.len ∧ a'.contents = a.contents ++ [v] := by
  obtain ⟨h32, hcap⟩ := hm
  obtain ⟨hv, hview⟩ := listItem_contents hx
  unfold append
  dsimp only
  rw [← Nat.cast_succ, setLen_eq _ (by omega), Lib.Except.ok_bind,
    itemSet_eq _ (by omega) _ fun he => absurd (hview _ he) (Nat.lt_irrefl _)]
  refine ⟨_, rfl, ⟨by dsimp only; omega, by dsimp only; omega⟩, ?_⟩
  have hread := map_assign_zip a.items a.len [v] 0
  dsimp only
  rw [hv]
  simpa [contents, Moves.assign] using hread

theorem insert_refines {desc : ItemDesc V} {a : DynArray V} {i : Int} {x : Item V} {v : V} {k : Nat}
    (hk : listIndex a.contents.length i = some k) (hx : listItem a.contents x = some v)
    (hm : Meets desc.cap a.len (.insert i x)) (hkept : Kept desc a.contents (.insert i x)) :
    ∃ a', insert desc a i x = .ok a' ∧ Holds desc.cap a'.len ∧
      a'.contents = a.contents.take k ++ v :: a.contents.drop k := by
  obtain ⟨⟨h32, hcap⟩, hview⟩ := hm
  rw [length_contents] at hk
  obtain ⟨hmap, hlt, hval⟩ := listIndex_mapIndex hk
  rw [← hval] at hview
  obtain ⟨hv, -⟩ := listItem_contents hx
  have hin : Intact (k : Int) 1 (0 : Nat) [x] := by
    intro p j hp
    cases p with
    | succ p => simp at hp
    | zero =>
      have hj := hview j (by simpa using hp)
      refine ⟨by intro i' hi'; omega, ?_⟩
      intro _
      simp
      omega
  have hgrow := grow_contents a (b := k) (n := 0) (by simp) (by omega) hin
  have hself : x = .slot k →
      desc.selfSet (Moves.run a.items (shiftMoves k 1 (a.len - k)) k) =
        Moves.run a.items (shiftMoves k 1 (a.len - k)) k := by
    intro hx
    -- everything from `k` on went one further
    rw [Moves.run_of_not_mem]
    · exact hkept.at ⟨hx, hmap⟩ hlt
    · intro hmem
      obtain ⟨m, hm, he⟩ := List.mem_map.mp hmem
      obtain ⟨i', -, rfl⟩ := mem_shiftMoves.mp hm
      dsimp only at he
      omega
  unfold insert
  rw [hmap, Lib.Except.ok_bind]
  dsimp only
  rw [← Nat.cast_succ, setLen_eq _ (by omega), Lib.Except.ok_bind,
    insertLoop_eq _ _ _ (by dsimp only; omega) (by dsimp only; omega), Lib.Except.ok_bind,
    setInt_eq _ (by dsimp only; omega) (by omega) _ hself]
  refine ⟨_, rfl, ⟨by dsimp only; omega, by dsimp only; omega⟩, ?_⟩
  have hmoves : growMoves k 0 (a.len - (k + 0)) [x] = shiftMoves k 1 (a.len - k) ++ [(k, x)] := by
    simp [growMoves]
  rw [hmoves, Moves.run_append] at hgrow
  have hread : contents ⟨a.len + 1, Moves.run (Moves.run a.items (shiftMoves k 1 (a.len - k)))
      [(k, x)]⟩ = a.contents.take k ++ v :: a.contents.drop k := by
    simpa [hv] using hgrow
  exact hread

theorem assign_refines {desc : ItemDesc V} {a : DynArray V} {rhs : Rhs V} {vs : List V}
    (hrhs : listRhs a.contents rhs = some vs) (hm : Meets desc.cap a.len (.assign rhs))
    (hkept : Kept desc a.contents (.assign rhs)) :
    ∃ a', assign desc a rhs = .ok a' ∧ Holds desc.cap a'.len ∧ a'.contents = vs := by
  obtain ⟨hvs, hviews⟩ := listRhs_contents hrhs
  unfold assign
  rw [setLen_zero, Lib.Except.ok_bind]
  dsimp only
  cases rhs with
  | self =>
    have hlen : a.len = 0 := hm
    have hnil : vs = [] := by
      rw [hvs, hlen]
      rfl
    have hself : (Rhs.self : Rhs V).toList 0 = [] := rfl
    refine ⟨⟨0, a.items⟩, ?_, ⟨by dsimp only; omega, by dsimp only; omega⟩, hnil.symm⟩
    rw [hself, List.length_nil, Nat.cast_zero]
    unfold assignLoop
    rw [Lib.Except.ok_bind, setLen_zero]
  | items xs =>
    obtain ⟨⟨h32, hcap⟩, hview⟩ := hm
    dsimp only [Rhs.toList] at hvs ⊢
    have hkeeps : SelfKept desc a.items 0 1 xs := by
      intro i j hij hj
      have hij' : xs[j]? = some (.slot j) := by rw [← hij, hj, Nat.zero_add, Nat.mul_one]
      exact hkept.at hij' (hviews j (List.mem_of_getElem? hij))
    have hloop := @assignLoop_eq V desc xs 0 { a with len := 0 } (by omega) hkeeps
    rw [hloop, Lib.Except.ok_bind, setLen_eq _ (by omega)]
    refine ⟨_, rfl, ⟨h32, hcap⟩, ?_⟩
    have hfresh := @fresh_zip V 0 1 xs (by
      intro p j hp i' hi' he
      have := hview p j hp
      omega)
    have hread := map_assign_zip a.items 0 vs 0
    rw [hvs, List.length_map] at hread
    dsimp only
    rw [Moves.run_of_fresh hfresh, map_eval_zip, hvs]
    simpa [contents] using hread

theorem set_refines {desc : ItemDesc V} {a : DynArray V} {i : Int} {x : Item V} {v : V} {k : Nat}
    (hh : Holds desc.cap a.len) (hk : listIndex a.contents.length i = some k)
    (hx : listItem a.contents x = some v) (hkept : Kept desc a.contents (.set i x)) :
    ∃ a', setInt desc a i x = .ok a' ∧ Holds desc.cap a'.len ∧
      a'.contents = a.contents.set k v := by
  obtain ⟨h32, hcap⟩ := hh
  rw [length_contents] at hk
  obtain ⟨hmap, hlt, -⟩ := listIndex_mapIndex hk
  obtain ⟨hv, -⟩ := listItem_contents hx
  unfold setInt
  rw [hmap, Lib.Except.ok_bind, itemSet_eq _ (by omega) _ fun hx => hkept.at ⟨hx, hmap⟩ hlt, hv]
  refine ⟨_, rfl, ⟨h32, hcap⟩, ?_⟩
  exact contents_assign a [(k, v)]

theorem pop_refines {cap : Nat} {a : DynArray V} (hh : Holds cap a.len) (hne : a.contents ≠ []) :
    ∃ a', pop a = .ok a' ∧ Holds cap a'.len ∧ a'.contents = a.contents.dropLast := by
  obtain ⟨h32, hcap⟩ := hh
  have hpos : a.len ≠ 0 := by
    intro h0
    apply hne
    rw [← List.length_eq_zero_iff, length_contents, h0]
  unfold pop
  rw [if_neg hpos, show (a.len : Int) - 1 = ((a.len - 1 : Nat) : Int) by omega,
    setLen_eq _ (by omega)]
  refine ⟨_, rfl, ⟨by dsimp only; omega, by dsimp only; omega⟩, ?_⟩
  rw [List.dropLast_eq_take, length_contents, contents_take a (by omega)]
  rfl

theorem delInt_refines {desc : ItemDesc V} {a : DynArray V} {i : Int} {k : Nat}
    (hh : Holds desc.cap a.len) (hk : listIndex a.contents.length i = some k) :
    ∃ a', delInt desc a i = .ok a' ∧ Holds desc.cap a'.len ∧
      a'.contents = a.contents.take k ++ a.contents.drop (k + 1) := by
  obtain ⟨h32, hcap⟩ := hh
  rw [length_contents] at hk
  obtain ⟨hmap, hlt, -⟩ := listIndex_mapIndex hk
  unfold delInt
  rw [hmap, Lib.Except.ok_bind, ← Nat.cast_succ]
  obtain ⟨a', hrun, hle, hcont⟩ := delRange_contiguous desc (a := a) (s := k) (e := k + 1)
    (by omega) (by omega) (by omega) (by omega)
  exact ⟨a', hrun, ⟨by omega, by omega⟩, hcont⟩

/-- The normalised bounds of a deletion and the members of the slice. -/
theorem sliceToIdx_spec {s : Slice} {len : Nat} {start stop stp : Int}
    (h : s.indices len = some (start, stop, stp)) :
    ∃ b e k, sliceToIdx s len = .ok (b, e, k) ∧ 0 < k ∧ 0 ≤ b ∧ e ≤ len ∧
      ∀ j : Nat, Selects b e k j ↔ (j : Int) ∈ range start stop stp := by
  obtain ⟨hne, -⟩ := indices_step h
  unfold sliceToIdx
  rw [h]
  dsimp only
  by_cases hneg : stp < 0
  · rw [if_pos hneg]
    obtain ⟨hs0, hs1, ht0, ht1⟩ := indices_neg h hneg
    obtain ⟨k, hk⟩ : ∃ k, stp = -k := ⟨-stp, by omega⟩
    subst hk
    have hmul : -k * -1 = k := by omega
    rw [hmul]
    have hkpos : 0 < k := by omega
    refine ⟨_, _, _, rfl, hkpos, ?_, by omega, ?_⟩
    · have hlow := Int.ediv_mul_le (start - stop - 1) (Int.ne_of_gt hkpos)
      omega
    · intro j
      exact (mem_ascending hkpos).symm
  · rw [if_neg hneg]
    obtain ⟨hs0, hs1, ht0, ht1⟩ := indices_pos h (by omega)
    refine ⟨_, _, _, rfl, by omega, hs0, ht1, ?_⟩
    intro j
    exact (mem_range_pos (by omega)).symm

theorem delSlice_refines {desc : ItemDesc V} {a : DynArray V} {s : Slice} {l' : List V}
    (hh : Holds desc.cap a.len) (hdel : PySlice.delSlice a.contents s = some l') :
    ∃ a', delSlice desc a s = .ok a' ∧ Holds desc.cap a'.len ∧ a'.contents = l' := by
  obtain ⟨h32, hcap⟩ := hh
  unfold PySlice.delSlice at hdel
  rw [length_contents] at hdel
  obtain ⟨⟨start, stop, stp⟩, hidx, hl⟩ := Option.map_eq_some_iff.mp hdel
  obtain ⟨b, e, k, hto, hk, hb, he, hsel⟩ := sliceToIdx_spec hidx
  unfold delSlice
  rw [hto, Lib.Except.ok_bind]
  obtain ⟨a', hrun, hle, hcont⟩ := delRange_contents desc hk hb he (by omega) (by omega)
  refine ⟨a', hrun, ⟨by omega, by omega⟩, ?_⟩
  rw [hcont, ← hl]
  unfold kept
  dsimp only
  have hfilter : (List.range a.len).filter (fun j => decide ¬ Selects b e k j)
      = (List.range a.len).filter fun j : Nat => decide ((j : Int) ∉ range start stop stp) := by
    apply List.filter_congr
    intro j _
    simp [hsel j]
  rw [hfilter, ← List.filterMap_eq_map]
  apply List.filterMap_congr
  intro j hj
  have hj := List.mem_range.mp (List.mem_filter.mp hj).1
  rw [contents_getElem?, if_pos hj]
  rfl

/-- The reading loop visits the members of the range. -/
theorem getLoop_eq {a : DynArray V} {stop stp : Int} (hne : stp ≠ 0) (fuel : Nat) (start : Int)
    (hin : ∀ x ∈ range start stop stp, 0 ≤ x ∧ x < a.len)
    (hfuel : rangeLen start stop stp ≤ fuel) :
    getLoop a stop stp fuel start
      = .ok ((range start stop stp).filterMap fun i => a.contents[i.toNat]?) := by
  induction fuel generalizing start with
  | zero =>
    have hnil : range start stop stp = [] := by
      rw [← List.length_eq_zero_iff, length_range]
      omega
    rw [hnil]
    rfl
  | succ fuel ih =>
    unfold getLoop
    dsimp only
    by_cases hmore : start * (if stp ≥ 0 then 1 else -1) < stop * (if stp ≥ 0 then 1 else -1)
    · have hsucc : rangeLen start stop stp = rangeLen (start + stp) stop stp + 1 := by
        by_cases hs : 0 < stp
        · rw [if_pos (by omega), Int.mul_one, Int.mul_one] at hmore
          exact rangeLen_pos_succ hs hmore
        · rw [if_neg (by omega)] at hmore
          exact rangeLen_neg_succ (by omega) (by omega)
      have hcons := range_of_succ hsucc
      rw [hcons] at hin ⊢
      obtain ⟨h0, hlt⟩ := hin start (by simp)
      obtain ⟨i, rfl⟩ := Int.eq_ofNat_of_zero_le h0
      have hget : getInt a (i : Int) = .ok (a.items i) := by
        unfold getInt
        rw [mapIndex_natCast (by omega)]
        rfl
      rw [if_pos hmore, hget, Lib.Except.ok_bind, ih _ (fun x hx => hin x (by simp [hx])) (by omega),
        Lib.Except.ok_bind, List.filterMap_cons_some]
      rw [Int.toNat_natCast, contents_getElem?, if_pos (by omega)]
    · have hnil : range start stop stp = [] := by
        by_cases hs : 0 < stp
        · rw [if_pos (by omega), Int.mul_one, Int.mul_one] at hmore
          exact range_pos_nil hs (by omega)
        · rw [if_neg (by omega)] at hmore
          exact range_neg_nil (by omega) (by omega)
      rw [if_neg hmore, hnil]
      rfl

theorem getSlice_refines {a : DynArray V} {s : Slice} {vs : List V}
    (h : PySlice.getSlice a.contents s = some vs) : getSlice a s = .ok vs := by
  unfold PySlice.getSlice at h
  rw [length_contents] at h
  obtain ⟨⟨start, stop, stp⟩, hidx, hl⟩ := Option.map_eq_some_iff.mp h
  obtain ⟨hne, -⟩ := indices_step hidx
  unfold getSlice
  rw [hidx]
  dsimp only
  rw [← hl]
  apply getLoop_eq hne
  · intro x hx
    by_cases hs : 0 < stp
    · obtain ⟨hs0, hs1, ht0, ht1⟩ := indices_pos hidx hs
      have := (mem_range_pos hs).mp hx
      omega
    · obtain ⟨hs0, hs1, ht0, ht1⟩ := indices_neg hidx (by omega)
      have := (mem_range_neg (by omega)).mp hx
      omega
  · unfold rangeLen
    split
    · split
      · have := Int.ediv_le_self stp (show 0 ≤ stop - start - 1 by omega)
        omega
      · omega
    · split
      · have := Int.ediv_le_self (-stp) (show 0 ≤ start - stop - 1 by omega)
        omega
      · omega

/-! ## One operation and a run -/

theorem map_ok {α β : Type} {x : Except Err α} {v : α} (h : x = .ok v) (f : α → β) :
    x.map f = .ok (f v) := by
  rw [h]
  rfl

theorem step_refines_list {desc : ItemDesc V} {a : DynArray V} {op : Op V} {l' : List V} {r : Ret V}
    (hh : Holds desc.cap a.len) (hlist : listStep a.contents op = some (l', r))
    (hm : Meets desc.cap a.len op) (hkept : Kept desc a.contents op) :
    ∃ a', step desc a op = .ok (a', r) ∧ Holds desc.cap a'.len ∧ a'.contents = l' := by
  cases op with
  | append x =>
    obtain ⟨v, hv, he⟩ := Option.map_eq_some_iff.mp hlist
    obtain ⟨rfl, rfl⟩ := Prod.mk.inj he
    obtain ⟨a', hrun, hfit, hcont⟩ := append_refines hv hm
    exact ⟨a', by unfold step; exact map_ok hrun _, hfit, hcont⟩
  | insert i x =>
    obtain ⟨k, hk, hlist⟩ := Option.bind_eq_some_iff.mp hlist
    obtain ⟨v, hv, he⟩ := Option.map_eq_some_iff.mp hlist
    obtain ⟨rfl, rfl⟩ := Prod.mk.inj he
    obtain ⟨a', hrun, hfit, hcont⟩ := insert_refines hk hv hm hkept
    exact ⟨a', by unfold step; exact map_ok hrun _, hfit, hcont⟩
  | pop =>
    simp only [listStep] at hlist
    split at hlist
    · cases hlist
    · rename_i hne
      obtain ⟨rfl, rfl⟩ := Prod.mk.inj (Option.some.inj hlist)
      obtain ⟨a', hrun, hfit, hcont⟩ := pop_refines hh hne
      exact ⟨a', by unfold step; exact map_ok hrun _, hfit, hcont⟩
  | clear =>
    obtain ⟨rfl, rfl⟩ := Prod.mk.inj (Option.some.inj hlist)
    exact ⟨{ a with len := 0 }, by unfold step clear; exact map_ok (setLen_zero a) _,
      ⟨by dsimp only; omega, by dsimp only; omega⟩, rfl⟩
  | assign rhs =>
    obtain ⟨vs, hvs, he⟩ := Option.map_eq_some_iff.mp hlist
    obtain ⟨rfl, rfl⟩ := Prod.mk.inj he
    obtain ⟨a', hrun, hfit, hcont⟩ := assign_refines hvs hm hkept
    exact ⟨a', by unfold step; exact map_ok hrun _, hfit, hcont⟩
  | get i =>
    obtain ⟨k, hk, hlist⟩ := Option.bind_eq_some_iff.mp hlist
    obtain ⟨v, hv, he⟩ := Option.map_eq_some_iff.mp hlist
    obtain ⟨rfl, rfl⟩ := Prod.mk.inj he
    rw [length_contents] at hk
    obtain ⟨hmap, hlt, -⟩ := listIndex_mapIndex hk
    rw [contents_getElem?, if_pos hlt] at hv
    refine ⟨a, ?_, hh, rfl⟩
    simp [step, getInt, hmap, Except.map, Option.some.inj hv]
  | getSlice s =>
    obtain ⟨vs, hvs, he⟩ := Option.map_eq_some_iff.mp hlist
    obtain ⟨rfl, rfl⟩ := Prod.mk.inj he
    exact ⟨a, by unfold step; exact map_ok (getSlice_refines hvs) _, hh, rfl⟩
  | set i x =>
    obtain ⟨k, hk, hlist⟩ := Option.bind_eq_some_iff.mp hlist
    obtain ⟨v, hv, he⟩ := Option.map_eq_some_iff.mp hlist
    obtain ⟨rfl, rfl⟩ := Prod.mk.inj he
    obtain ⟨a', hrun, hfit, hcont⟩ := set_refines hh hk hv hkept
    exact ⟨a', by unfold step; exact map_ok hrun _, hfit, hcont⟩
  | setSlice s rhs =>
    obtain ⟨vs, hvs, hlist⟩ := Option.bind_eq_some_iff.mp hlist
    obtain ⟨l1, hl1, he⟩ := Option.map_eq_some_iff.mp hlist
    obtain ⟨rfl, rfl⟩ := Prod.mk.inj he
    obtain ⟨a', hrun, hfit, hcont⟩ := setSlice_refines hh hvs hl1 hm hkept
    exact ⟨a', by unfold step; exact map_ok hrun _, hfit, hcont⟩
  | del i =>
    obtain ⟨k, hk, he⟩ := Option.map_eq_some_iff.mp hlist
    obtain ⟨rfl, rfl⟩ := Prod.mk.inj he
    obtain ⟨a', hrun, hfit, hcont⟩ := delInt_refines hh hk
    exact ⟨a', by unfold step; exact map_ok hrun _, hfit, hcont⟩
  | delSlice s =>
    obtain ⟨l1, hl1, he⟩ := Option.map_eq_some_iff.mp hlist
    obtain ⟨rfl, rfl⟩ := Prod.mk.inj he
    obtain ⟨a', hrun, hfit, hcont⟩ := delSlice_refines hh hl1
    exact ⟨a', by unfold step; exact map_ok hrun _, hfit, hcont⟩

/-- In every run whose operations meet the condition the array holds what
the list holds, and every read returns the list's result. -/
theorem run_refines_list {desc : ItemDesc V} {a : DynArray V} {ops : List (Op V)} {l' : List V}
    {rs : List (Ret V)} (hh : Holds desc.cap a.len)
    (hlist : listRun a.contents ops = some (l', rs)) (hm : AllMeet desc a.contents ops) :
    ∃ a', run desc a ops = .ok (a', rs) ∧ a'.contents = l' ∧ a'.len = l'.length := by
  induction ops generalizing a l' rs with
  | nil =>
    obtain ⟨rfl, rfl⟩ := Prod.mk.inj (Option.some.inj hlist)
    exact ⟨a, rfl, rfl, (length_contents a).symm⟩
  | cons op ops ih =>
    simp only [listRun, Option.bind_eq_bind, Option.bind_eq_some_iff] at hlist
    obtain ⟨⟨l1, r⟩, hstep, ⟨l2, rs2⟩, hrest, he⟩ := hlist
    obtain ⟨rfl, rfl⟩ := Prod.mk.inj (Option.some.inj he)
    obtain ⟨hmeet, hkept, hmrest⟩ := hm
    rw [length_contents] at hmeet
    obtain ⟨a1, hrun1, hfit1, hcont1⟩ := step_refines_list hh hstep hmeet hkept
    have hmrest := hmrest l1 r hstep
    rw [← hcont1] at hrest hmrest
    obtain ⟨a', hrun, hcont, hlen⟩ := ih hfit1 hrest hmrest
    refine ⟨a', ?_, hcont, hlen⟩
    unfold run
    rw [hrun1, Lib.Except.ok_bind]
    dsimp only
    rw [hrun, Lib.Except.ok_bind]

/-- Items that are emptied when they are assigned to themselves. -/
def emptying (cap : Nat) : ItemDesc Nat := ⟨cap, fun _ => 0⟩

/-- `a.append(1)`, `a[1:] = a` and `a[-1]` assign no item to itself. -/
theorem run_refines_list_at :
    listRun [] [.append (.value 1), .setSlice ⟨some 1, none, none⟩ .self, .get (-1)]
        = some ([1, 1], [.unit, .unit, .item 1]) ∧
      ∃ a' : DynArray Nat,
        run (emptying 100) ⟨0, id⟩ [.append (.value 1), .setSlice ⟨some 1, none, none⟩ .self, .get (-1)]
          = .ok (a', [.unit, .unit, .item 1]) ∧ a'.contents = [1, 1] ∧ a'.len = 2 := by
  have hh : Holds 100 ((0 : Nat) : Int) := by decide
  have hlist : listRun ([] : List Nat)
      [.append (.value 1), .setSlice ⟨some 1, none, none⟩ .self, .get (-1)]
        = some ([1, 1], [.unit, .unit, .item 1]) := by decide
  refine ⟨hlist, ?_⟩
  apply @run_refines_list Nat (emptying 100) ⟨0, id⟩ _ _ _ hh hlist
  refine ⟨by show Holds 100 1; decide, fun j v h => h.elim, ?_⟩
  intro l' r h
  obtain ⟨rfl, rfl⟩ := Prod.mk.inj (Option.some.inj h)
  refine ⟨?_, ?_, ?_⟩
  · -- the slice past the end takes the array's one element
    intro start stop stp hidx
    have hidx : some ((1 : Int), (1 : Int), (1 : Int)) = some (start, stop, stp) := hidx
    simp only [Option.some.injEq, Prod.mk.injEq] at hidx
    obtain ⟨rfl, rfl, rfl⟩ := hidx
    refine ⟨by decide, ?_⟩
    intro b e k hto
    have hto : (Except.ok ((1 : Int), (1 : Int), (1 : Int)) : Except Err _) = .ok (b, e, k) := hto
    simp only [Except.ok.injEq, Prod.mk.injEq] at hto
    obtain ⟨rfl, rfl, rfl⟩ := hto
    refine ⟨by show Holds 100 2; decide, ?_⟩
    intro i j hij
    cases i with
    | succ i => simp [Rhs.toList] at hij
    | zero =>
      have hj : 0 = j := by simpa [Rhs.toList] using hij
      subst hj
      exact ⟨by intro i' hi'; omega, by intro _; decide⟩
  · -- the element 0 goes to 1
    rintro j v ⟨b, e, k, hto, i, hj, hij⟩ -
    have hto : (Except.ok ((1 : Int), (1 : Int), (1 : Int)) : Except Err _) = .ok (b, e, k) := hto
    simp only [Except.ok.injEq, Prod.mk.injEq] at hto
    obtain ⟨rfl, rfl, rfl⟩ := hto
    have hij : [(Src.slot 0 : Item Nat)][i]? = some (.slot j) := hij
    obtain ⟨hi, hij⟩ := List.getElem?_eq_some_iff.mp hij
    simp only [List.getElem_singleton, Src.slot.injEq] at hij
    omega
  · intro l' r h
    obtain ⟨rfl, rfl⟩ := Prod.mk.inj (Option.some.inj h)
    exact ⟨trivial, fun j v h => h.elim, fun _ _ _ => trivial⟩

/-- Items that stay as they are. -/
def copying (cap : Nat) : ItemDesc V := ⟨cap, id⟩

/-- `a[::2] = [7, 8, 9]` on five elements grows the array, and `a[1:1] = a`
reads elements it has already overwritten. -/
theorem run_diverges :
    listRun [0, 1, 2, 3, 4]
        [.setSlice ⟨none, none, some 2⟩ (.items [.value 7, .value 8, .value 9])]
      = some ([7, 1, 8, 3, 9], [.unit]) ∧
    (run (copying 100) ⟨5, fun i => i⟩
        [.setSlice ⟨none, none, some 2⟩ (.items [.value 7, .value 8, .value 9])]).toOption.map
      (·.1.contents) = some [7, 1, 9, 8, 3, 4] ∧
    listRun [1, 2, 3] [.setSlice ⟨some 1, some 1, none⟩ .self]
      = some ([1, 1, 2, 3, 2, 3], [.unit]) ∧
    (run (copying 100) ⟨3, fun i => i + 1⟩ [.setSlice ⟨some 1, some 1, none⟩ .self]).toOption.map
      (·.1.contents) = some [1, 1, 1, 1, 2, 3] := by
  decide +kernel

end GenVM.Storage.DynArray
