import GenVM.VecDb.Run

/-!
# Searching the nearest vectors

The search walks the tree depth first with the best `k` elements so far and
leaves out a child when even its closest descendant would be too far. After
any run the bound it uses holds, also across an edge that is not covered: the
elements below a node only move up.

**Results.**
* `searchLoop_spec`: the search ends with every element that matters.
* `knn_exact`: the results are the `k` smallest distances over the live elements.
-/
namespace GenVM.VecDb

variable {X 𝕜 : Type} [Field 𝕜] [LinearOrder 𝕜]

/-! ## The code -/

/-- The order of tuples `(neg_dist, element_id)`. -/
def heapLe (a b : 𝕜 × Nat) : Prop := a.1 < b.1 ∨ (a.1 = b.1 ∧ a.2 ≤ b.2)

instance (a b : 𝕜 × Nat) : Decidable (heapLe a b) := by
  unfold heapLe
  infer_instance

/-- `best_kth_dist() ≥ d`, mirrors vecdb.py:465-468; `best` is the heap as a
sorted list, with `best[0]` first. -/
def withinKth (k : Int) (best : List (𝕜 × Nat)) (d : 𝕜) : Bool :=
  if (best.length : Int) < k then true
  else match best with
    | [] => true
    | b :: _ => decide (d ≤ -b.1)

/-- mirrors vecdb.py:481-486 -/
def visit (s : DB X) (k : Int) (best : List (𝕜 × Nat)) (e : Nat) (d : 𝕜) : List (𝕜 × Nat) :=
  if e ∈ s.freeIdx then best
  else if (best.length : Int) < k then best.orderedInsert heapLe (-d, e)
  else match best with
    | [] => best
    | b :: rest => if d < -b.1 then rest.orderedInsert heapLe (-d, e) else best

variable (P : Params X 𝕜)

/-- mirrors vecdb.py:490-498 -/
def openChildren (s : DB X) (v : X) (k : Int) (best : List (𝕜 × Nat)) (n : Nat) :
    List (Nat × 𝕜) :=
  (s.nodes n).children.filterMap fun c =>
    let d := P.dist (s.keys (s.nodes c).elem) v
    if withinKth k best (d - maxDescendantDist (s.nodes c).level) then some (c, d) else none

/-- Farthest first, mirrors vecdb.py:501. -/
def farthestFirst (l : List (Nat × 𝕜)) : List (Nat × 𝕜) := l.insertionSort fun a b => b.2 ≤ a.2

/-- mirrors vecdb.py:475-503 -/
def searchLoop (s : DB X) (v : X) (k : Int) :
    Nat → List (𝕜 × Nat) → List (Nat × 𝕜) → Option (List (𝕜 × Nat))
  | _, best, [] => some best
  | 0, _, _ :: _ => none
  | fuel + 1, best, (n, d) :: stack =>
    if n ∈ s.freeNodes then searchLoop s v k fuel best stack
    else
      let best := visit s k best (s.nodes n).elem d
      let children := farthestFirst (openChildren P s v k best n)
      searchLoop s v k fuel best (children.reverse ++ stack)

/-- mirrors vecdb.py:451-508: the distances and ids it yields -/
def knn (s : DB X) (v : X) (k : Int) : Option (List (𝕜 × Nat)) :=
  match s.root with
  | none => some []
  | some r =>
    if k ≤ 0 then some []
    else
      (searchLoop P s v k (s.nodesLen + 1) [] [(r, P.dist (s.keys (s.nodes r).elem) v)]).map
        fun best => (best.map fun b => (-b.1, b.2)).insertionSort heapLe

/-! ## The smallest of a list -/

omit [Field 𝕜] in
/-- A part of a list below all the rest is the head of the sorted list. -/
theorem sorted_take {all part rest : List 𝕜} (hp : all.Perm (part ++ rest))
    (hle : ∀ a ∈ part, ∀ b ∈ rest, a ≤ b) :
    part.insertionSort (· ≤ ·) = (all.insertionSort (· ≤ ·)).take part.length := by
  have hsorted : (part.insertionSort (· ≤ ·) ++ rest.insertionSort (· ≤ ·)).Pairwise (· ≤ ·) := by
    apply List.pairwise_append.mpr
    refine ⟨List.pairwise_insertionSort _ _, List.pairwise_insertionSort _ _, ?_⟩
    intro a ha b hb
    exact hle a ((List.mem_insertionSort _).mp ha) b ((List.mem_insertionSort _).mp hb)
  have hperm : (part.insertionSort (· ≤ ·) ++ rest.insertionSort (· ≤ ·)).Perm
      (all.insertionSort (· ≤ ·)) := by
    apply List.Perm.trans _ (List.perm_insertionSort _ all).symm
    exact ((List.perm_insertionSort _ part).append (List.perm_insertionSort _ rest)).trans hp.symm
  have heq := hperm.eq_of_pairwise' hsorted (List.pairwise_insertionSort (· ≤ ·) all)
  rw [← heq, List.take_left']
  exact List.length_insertionSort _ _

/-! ## The best elements so far -/

/-- What the heap has: at most `k` different elements, sorted. -/
structure Best (k : Int) (best : List (𝕜 × Nat)) : Prop where
  sorted : best.Pairwise heapLe
  nodup : (best.map Prod.snd).Nodup
  len : (best.length : Int) ≤ k

/-- The heap is full and nothing in it is farther than `d`. -/
def Full (k : Int) (best : List (𝕜 × Nat)) (d : 𝕜) : Prop :=
  (best.length : Int) = k ∧ ∀ b ∈ best, -b.1 ≤ d

instance : Std.Total (heapLe : 𝕜 × Nat → 𝕜 × Nat → Prop) where
  total a b := by
    unfold heapLe
    rcases lt_trichotomy a.1 b.1 with h | h | h
    · exact .inl (.inl h)
    · rcases Nat.le_total a.2 b.2 with h' | h'
      · exact .inl (.inr ⟨h, h'⟩)
      · exact .inr (.inr ⟨h.symm, h'⟩)
    · exact .inr (.inl h)

instance : IsTrans (𝕜 × Nat) heapLe where
  trans a b c := by
    unfold heapLe
    intro h1 h2
    rcases h1 with h1 | ⟨h1, h1'⟩
    · rcases h2 with h2 | ⟨h2, -⟩
      · exact .inl (lt_trans h1 h2)
      · exact .inl (h2 ▸ h1)
    · rcases h2 with h2 | ⟨h2, h2'⟩
      · exact .inl (h1 ▸ h2)
      · exact .inr ⟨h1.trans h2, le_trans h1' h2'⟩

omit [Field 𝕜] in
theorem heapLe_fst {a b : 𝕜 × Nat} (h : heapLe a b) : a.1 ≤ b.1 := by
  rcases h with h | ⟨h, -⟩
  · exact le_of_lt h
  · exact le_of_eq h

omit [Field 𝕜] in
theorem best_insert {k : Int} {best : List (𝕜 × Nat)} {x : 𝕜 × Nat}
    (hs : best.Pairwise heapLe) (hd : (best.map Prod.snd).Nodup) (hx : x.2 ∉ best.map Prod.snd)
    (hl : ((best.length + 1 : Nat) : Int) ≤ k) : Best k (best.orderedInsert heapLe x) := by
  have hperm := List.perm_orderedInsert heapLe x best
  constructor
  · exact hs.orderedInsert x best
  · rw [(hperm.map Prod.snd).nodup_iff]
    exact List.nodup_cons.mpr ⟨hx, hd⟩
  · rw [List.orderedInsert_length]
    exact hl

/-- What one visit does to the heap: the element is in it, or the heap is full
of elements no farther; the same goes for each element that fell out. -/
structure Visited (k : Int) (best best' : List (𝕜 × Nat)) (x : 𝕜 × Nat) : Prop where
  heap : Best k best'
  sub : ∀ b ∈ best', b = x ∨ b ∈ best
  new : x ∈ best' ∨ Full k best' (-x.1)
  old : ∀ b ∈ best, b ∈ best' ∨ Full k best' (-b.1)
  full : ∀ d, Full k best d → Full k best' d

variable [IsStrictOrderedRing 𝕜]

theorem visit_spec {s : DB X} {k : Int} {best : List (𝕜 × Nat)} {e : Nat} (d : 𝕜) (hk : 0 < k)
    (h : Best k best) (he : e ∉ s.freeIdx) (hb : e ∉ best.map Prod.snd) :
    Visited k best (visit s k best e d) (-d, e) := by
  unfold visit
  rw [if_neg he]
  by_cases hlen : (best.length : Int) < k
  · rw [if_pos hlen]
    have hmem : ∀ b, b ∈ best.orderedInsert heapLe (-d, e) ↔ b = (-d, e) ∨ b ∈ best :=
      fun b => List.mem_orderedInsert heapLe
    constructor
    · apply best_insert h.sorted h.nodup hb
      push_cast
      omega
    · exact fun b hbm => (hmem b).mp hbm
    · exact .inl ((hmem _).mpr (.inl rfl))
    · exact fun b hbm => .inl ((hmem b).mpr (.inr hbm))
    · intro d' hf
      exact absurd hf.1 (ne_of_lt hlen)
  · rw [if_neg hlen]
    have hlen' : (best.length : Int) = k := le_antisymm h.len (not_lt.mp hlen)
    cases best with
    | nil =>
      rw [List.length_nil] at hlen'
      omega
    | cons b rest =>
      dsimp only
      obtain ⟨hhead, hrest⟩ := List.pairwise_cons.mp h.sorted
      have hmax : ∀ x ∈ rest, -x.1 ≤ -b.1 := fun x hx => neg_le_neg (heapLe_fst (hhead x hx))
      by_cases hd : d < -b.1
      · rw [if_pos hd]
        have hmem : ∀ x, x ∈ rest.orderedInsert heapLe (-d, e) ↔ x = (-d, e) ∨ x ∈ rest :=
          fun x => List.mem_orderedInsert heapLe
        have hnd := List.nodup_cons.mp (List.map_cons ▸ h.nodup)
        have hlen'' : ((rest.orderedInsert heapLe (-d, e)).length : Int) = k := by
          rw [List.orderedInsert_length]
          exact hlen'
        have hfull : ∀ d', -b.1 ≤ d' → Full k (rest.orderedInsert heapLe (-d, e)) d' := by
          intro d' hd'
          refine ⟨hlen'', ?_⟩
          intro x hx
          rcases (hmem x).mp hx with rfl | hx
          · dsimp only
            rw [neg_neg]
            exact le_trans (le_of_lt hd) hd'
          · exact le_trans (hmax x hx) hd'
        constructor
        · exact best_insert hrest hnd.2 (fun hm => hb (by simp [List.mem_map.mp hm])) (le_of_eq hlen')
        · intro x hx
          rcases (hmem x).mp hx with hx | hx
          · exact .inl hx
          · exact .inr (List.mem_cons_of_mem b hx)
        · exact .inl ((hmem _).mpr (.inl rfl))
        · intro x hx
          rcases List.mem_cons.mp hx with rfl | hx
          · exact .inr (hfull _ le_rfl)
          · exact .inl ((hmem x).mpr (.inr hx))
        · intro d' hf
          exact hfull d' (hf.2 b (by simp))
      · rw [if_neg hd]
        refine ⟨h, fun x hx => .inr hx, .inr ⟨hlen', ?_⟩, fun x hx => .inl hx, fun _ hf => hf⟩
        intro x hx
        dsimp only
        rw [neg_neg]
        rcases List.mem_cons.mp hx with rfl | hx
        · exact not_lt.mp hd
        · exact le_trans (hmax x hx) (not_lt.mp hd)

theorem full_of_not_withinKth {k : Int} {best : List (𝕜 × Nat)} {d d' : 𝕜} (hk : 0 < k)
    (h : Best k best) (hw : withinKth k best d = false) (hd : d ≤ d') : Full k best d' := by
  unfold withinKth at hw
  split at hw
  · cases hw
  · rename_i hlen
    have hlen' : (best.length : Int) = k := le_antisymm h.len (not_lt.mp hlen)
    refine ⟨hlen', ?_⟩
    cases best with
    | nil =>
      rw [List.length_nil] at hlen'
      omega
    | cons b rest =>
      have hlt : -b.1 < d := not_le.mp (of_decide_eq_false hw)
      intro x hx
      rcases List.mem_cons.mp hx with rfl | hx
      · exact le_trans (le_of_lt hlt) hd
      · have h1 := neg_le_neg (heapLe_fst ((List.pairwise_cons.mp h.sorted).1 x hx))
        exact le_trans h1 (le_trans (le_of_lt hlt) hd)

/-! ## The search -/

variable {P : Params X 𝕜} {strict : Prop}

/-- The invariant of the search: whatever is in the tree is still to be
visited, among the best, or no nearer than any of them. -/
structure Searching (P : Params X 𝕜) (s : DB X) (v : X) (k : Int) (best : List (𝕜 × Nat))
    (stack : List (Nat × 𝕜)) : Prop where
  frontier : Frontier s (stack.map Prod.fst)
  dists : ∀ p ∈ stack, p.2 = P.dist (s.keys (s.nodes p.1).elem) v
  heap : Best k best
  found : ∀ b ∈ best, ∃ n, Used s n ∧ (s.nodes n).elem = b.2 ∧ b.1 = -P.dist (s.keys b.2) v ∧
    ∀ m ∈ stack.map Prod.fst, ¬ Under s m n
  rest : ∀ n, Used s n → (∃ m ∈ stack.map Prod.fst, Under s m n) ∨
    (-P.dist (s.keys (s.nodes n).elem) v, (s.nodes n).elem) ∈ best ∨
      Full k best (P.dist (s.keys (s.nodes n).elem) v)

omit [IsStrictOrderedRing 𝕜] in
theorem elem_inj {s : DB X} (h : Good P strict s) {n m : Nat} (hn : Used s n) (hm : Used s m)
    (he : (s.nodes n).elem = (s.nodes m).elem) : n = m := by
  have h1 := h.inv.elems.elem_node n hn (by simp)
  have h2 := h.inv.elems.elem_node m hm (by simp)
  rw [he, h2] at h1
  exact (Option.some.inj h1).symm

omit [IsStrictOrderedRing 𝕜] in
theorem elem_live {s : DB X} (h : Good P strict s) {n : Nat} (hn : Used s n) :
    Live s (s.nodes n).elem :=
  (h.held _).mp ⟨n, h.inv.elems.elem_node n hn (by simp)⟩

omit [IsStrictOrderedRing 𝕜] in
theorem openChildren_fst (s : DB X) (v : X) (k : Int) (best : List (𝕜 × Nat)) (n : Nat) :
    (openChildren P s v k best n).map Prod.fst = (s.nodes n).children.filter fun c =>
      withinKth k best (P.dist (s.keys (s.nodes c).elem) v - maxDescendantDist (s.nodes c).level) := by
  unfold openChildren
  induction (s.nodes n).children with
  | nil => rfl
  | cons c cs ih =>
    rw [List.filterMap_cons, List.filter_cons]
    by_cases hw : withinKth k best
        (P.dist (s.keys (s.nodes c).elem) v - maxDescendantDist (s.nodes c).level) = true
    · simp [hw, ih]
    · simp [hw, ih]

/-- The closest thing below a child is no closer than the bound says. -/
theorem dist_below (hM : Metric P) {s : DB X} (h : Good P strict s) {c x : Nat} (v : X)
    (hc : Used s c) (hx : Under s c x) :
    P.dist (s.keys (s.nodes c).elem) v - maxDescendantDist (s.nodes c).level
      ≤ P.dist (s.keys (s.nodes x).elem) v := by
  have h1 : P.dist (s.keys (s.nodes c).elem) (s.keys (s.nodes x).elem)
      ≤ maxDescendantDist (s.nodes c).level :=
    within_of_edges hM h.inv.links (fun n m hn hm => h.inv.edges n m hn List.not_mem_nil hm) hc hx
  have h2 := hM.triangle (s.keys (s.nodes c).elem) (s.keys (s.nodes x).elem) v
  linarith

theorem searching_step (hM : Metric P) {s : DB X} (h : Good P strict s) {v : X} {k : Int}
    (hk : 0 < k) {best : List (𝕜 × Nat)} {n : Nat} {d : 𝕜} {stack : List (Nat × 𝕜)}
    (hs : Searching P s v k best ((n, d) :: stack)) :
    let best' := visit s k best (s.nodes n).elem d
    let children := farthestFirst (openChildren P s v k best' n)
    Searching P s v k best' (children.reverse ++ stack) ∧
      ∀ c ∈ children.reverse.map Prod.fst, c ∈ (s.nodes n).children := by
  intro best' children
  have hlinks := h.inv.links
  have hn : Used s n := hs.frontier.used n (by simp)
  have hd : d = P.dist (s.keys (s.nodes n).elem) v := hs.dists (n, d) (by simp)
  have hfresh : (s.nodes n).elem ∉ best.map Prod.snd := by
    intro hm
    obtain ⟨b, hb, hbe⟩ := List.mem_map.mp hm
    obtain ⟨m, hm, hme, -, hnot⟩ := hs.found b hb
    have hmn : m = n := elem_inj h hm hn (hme.trans hbe)
    exact hnot n (by simp) (hmn ▸ Under.refl s n)
  have hv : Visited k best best' (-d, (s.nodes n).elem) :=
    visit_spec d hk hs.heap (elem_live h hn).2 hfresh
  -- the children that are not pruned
  have hperm : children.reverse.Perm (openChildren P s v k best' n) :=
    (List.reverse_perm _).trans (List.perm_insertionSort _ _)
  have hfst := hperm.map Prod.fst
  rw [openChildren_fst] at hfst
  have hch : ∀ c ∈ children.reverse.map Prod.fst, c ∈ (s.nodes n).children :=
    fun c hc => (List.mem_filter.mp (hfst.mem_iff.mp hc)).1
  have hnd : (children.reverse.map Prod.fst).Nodup := by
    rw [hfst.nodup_iff]
    exact (hlinks.nodup n hn).filter _
  obtain ⟨hapart, -⟩ := List.pairwise_cons.mp hs.frontier.apart
  refine ⟨?_, hch⟩
  constructor
  · rw [List.map_append]
    exact frontier_pop hlinks hs.frontier hnd hch
  · intro p hp
    rcases List.mem_append.mp hp with hp | hp
    · have hp := hperm.mem_iff.mp hp
      unfold openChildren at hp
      obtain ⟨c, -, hc⟩ := List.mem_filterMap.mp hp
      dsimp only at hc
      split at hc
      · cases hc
        rfl
      · cases hc
    · exact hs.dists p (by simp [hp])
  · exact hv.heap
  · intro b hb
    rcases hv.sub b hb with rfl | hb
    · refine ⟨n, hn, rfl, by rw [hd], ?_⟩
      intro m hm
      rw [List.map_append, List.mem_append] at hm
      rcases hm with hm | hm
      · exact not_under_parent hlinks hn (hch m hm)
      · exact (hapart m hm).2
    · obtain ⟨x, hx, hxe, hxd, hnot⟩ := hs.found b hb
      refine ⟨x, hx, hxe, hxd, ?_⟩
      intro m hm hmx
      rw [List.map_append, List.mem_append] at hm
      rcases hm with hm | hm
      · exact hnot n (by simp) ((Under.child (hch m hm)).trans hmx)
      · exact hnot m (by simp [List.mem_map.mp hm]) hmx
  · intro x hx
    rcases hs.rest x hx with ⟨m, hm, hmx⟩ | hb | hfull
    · rw [List.map_cons, List.mem_cons] at hm
      rcases hm with rfl | hm
      · rcases Relation.ReflTransGen.cases_head hmx with rfl | ⟨c, hc, hcx⟩
        · rcases hv.new with hnew | hnew
          · rw [hd] at hnew
            exact .inr (.inl hnew)
          · rw [neg_neg, hd] at hnew
            exact .inr (.inr hnew)
        · by_cases hcm : c ∈ children.reverse.map Prod.fst
          · exact .inl ⟨c, by simp only [List.map_append, List.mem_append]; exact .inl hcm, hcx⟩
          · -- a child left out has nothing near enough below it
            have hpruned : withinKth k best' (P.dist (s.keys (s.nodes c).elem) v
                - maxDescendantDist (s.nodes c).level) = false := by
              rw [hfst.mem_iff, List.mem_filter, not_and, Bool.not_eq_true] at hcm
              exact hcm hc
            have hcu := (hlinks.child _ c hn hc).1
            exact .inr (.inr (full_of_not_withinKth hk hv.heap hpruned (dist_below hM h v hcu hcx)))
      · exact .inl ⟨m, by simp only [List.map_append, List.mem_append]; exact .inr hm, hmx⟩
    · rcases hv.old _ hb with hb | hfull
      · exact .inr (.inl hb)
      · rw [neg_neg] at hfull
        exact .inr (.inr hfull)
    · exact .inr (.inr (hv.full _ hfull))

theorem searchLoop_spec (hM : Metric P) {s : DB X} (h : Good P strict s) {v : X} {k : Int}
    (hk : 0 < k) : ∀ (fuel : Nat) (best : List (𝕜 × Nat)) (stack : List (Nat × 𝕜)),
      Searching P s v k best stack → (below s (stack.map Prod.fst)).card < fuel →
      ∃ best', searchLoop P s v k fuel best stack = some best' ∧ Searching P s v k best' [] := by
  intro fuel
  induction fuel with
  | zero =>
    intro best stack _ hlt
    exact absurd hlt (Nat.not_lt_zero _)
  | succ fuel ih =>
    intro best stack hs hlt
    cases stack with
    | nil => exact ⟨best, rfl, hs⟩
    | cons p stack =>
      obtain ⟨n, d⟩ := p
      have hn : Used s n := hs.frontier.used n (by simp)
      obtain ⟨hstep, hch⟩ := searching_step hM h hk hs
      unfold searchLoop
      rw [if_neg hn.2]
      apply ih _ _ hstep
      have hcard := below_pop h.inv.links hs.frontier hch
      rw [List.map_append]
      rw [List.map_cons] at hlt
      omega

/-! ## Against exhaustive search -/

/-- The ids of the elements in the store, mirrors `__iter__` (vecdb.py:510-515). -/
def liveIds (s : DB X) : List Nat := (List.range s.keysLen).filter fun e => e ∉ s.freeIdx

theorem mem_liveIds {s : DB X} {e : Nat} : e ∈ liveIds s ↔ Live s e := by
  unfold liveIds Live
  rw [List.mem_filter, List.mem_range, decide_eq_true_eq]

/-- The distances from `v` to all of them, in order. -/
def allDistances (P : Params X 𝕜) (s : DB X) (v : X) : List 𝕜 :=
  ((liveIds s).map fun e => P.dist (s.keys e) v).insertionSort (· ≤ ·)

omit [IsStrictOrderedRing 𝕜] in
theorem map_results (best : List (𝕜 × Nat)) :
    (((best.map fun b => (-b.1, b.2)).insertionSort heapLe).map Prod.fst)
      = (best.map fun b => -b.1).insertionSort (· ≤ ·) := by
  have hperm : (((best.map fun b => (-b.1, b.2)).insertionSort heapLe).map Prod.fst).Perm
      ((best.map fun b => -b.1).insertionSort (· ≤ ·)) := by
    apply List.Perm.trans _ (List.perm_insertionSort _ _).symm
    apply ((List.perm_insertionSort heapLe _).map Prod.fst).trans
    rw [List.map_map]
    exact List.Perm.refl _
  have hsorted : (((best.map fun b => (-b.1, b.2)).insertionSort heapLe).map Prod.fst).Pairwise
      (· ≤ ·) := by
    apply List.pairwise_map.mpr
    exact (List.pairwise_insertionSort heapLe _).imp fun hab => heapLe_fst hab
  exact hperm.eq_of_pairwise' hsorted (List.pairwise_insertionSort (· ≤ ·) _)

theorem knn_good (hM : Metric P) {s : DB X} (h : Good P strict s) (v : X) (k : Int) :
    ∃ results, knn P s v k = some results ∧ (results.map Prod.snd).Nodup ∧
      (∀ r ∈ results, Live s r.2 ∧ r.1 = P.dist (s.keys r.2) v) ∧
      results.length = min k.toNat (liveIds s).length ∧
      results.map Prod.fst = (allDistances P s v).take k.toNat := by
  unfold knn
  cases hr : s.root with
  | none =>
    have hempty : liveIds s = [] := by
      apply List.eq_nil_iff_forall_not_mem.mpr
      intro e he
      obtain ⟨n, hn⟩ := (h.held e).mpr (mem_liveIds.mp he)
      have hu := (h.inv.elems.node_elem e n hn).1
      obtain ⟨r, hrm, -⟩ := under_some_root h.inv.links hu
      rw [List.nil_append, hr] at hrm
      cases hrm
    refine ⟨[], rfl, by simp, by simp, by simp [hempty], ?_⟩
    unfold allDistances
    simp [hempty]
  | some r =>
    dsimp only
    by_cases hk : k ≤ 0
    · rw [if_pos hk]
      have hk0 : k.toNat = 0 := by omega
      exact ⟨[], rfl, by simp, by simp, by simp [hk0], by simp [hk0]⟩
    · rw [if_neg hk]
      have hk : 0 < k := not_le.mp hk
      have hf := frontier_root h.inv.links
      rw [hr, Option.toList_some] at hf
      have hstart : Searching P s v k [] [(r, P.dist (s.keys (s.nodes r).elem) v)] := by
        refine ⟨hf, ?_, ⟨List.Pairwise.nil, by simp, by simp [le_of_lt hk]⟩, by simp, ?_⟩
        · intro p hp
          rw [List.mem_singleton.mp hp]
        · intro n hn
          obtain ⟨q, hq, hu⟩ := (reachable_iff_used h.inv n).mpr hn
          rw [hr] at hq
          cases hq
          exact .inl ⟨r, by simp, hu⟩
      obtain ⟨best, hloop, hb⟩ := searchLoop_spec hM h hk (s.nodesLen + 1) [] _ hstart
        (Nat.lt_succ_of_le (below_card_le s _))
      rw [hloop]
      have hlen : (((best.map fun b => (-b.1, b.2)).insertionSort heapLe)).length = best.length := by
        rw [List.length_insertionSort, List.length_map]
      have hlive : ∀ b ∈ best, Live s b.2 ∧ b.1 = -P.dist (s.keys b.2) v := by
        intro b hbm
        obtain ⟨n, hn, hne, hnd, -⟩ := hb.found b hbm
        exact ⟨hne ▸ elem_live h hn, hnd⟩
      -- the live elements are the best and the others
      have hids : (liveIds s).Perm (best.map Prod.snd
          ++ (liveIds s).filter fun e => e ∉ best.map Prod.snd) := by
        have h1 : ((liveIds s).filter fun e => e ∈ best.map Prod.snd).Perm (best.map Prod.snd) := by
          apply (List.perm_ext_iff_of_nodup _ hb.heap.nodup).mpr
          · intro e
            rw [List.mem_filter, decide_eq_true_eq]
            constructor
            · exact fun he => he.2
            · intro he
              obtain ⟨b, hbm, hbe⟩ := List.mem_map.mp he
              exact ⟨mem_liveIds.mpr (hbe ▸ (hlive b hbm).1), he⟩
          · exact (List.nodup_range.filter _).filter _
        have h2 := List.filter_append_perm (fun e => decide (e ∈ best.map Prod.snd)) (liveIds s)
        have h3 : ((liveIds s).filter fun e => !decide (e ∈ best.map Prod.snd))
            = (liveIds s).filter fun e => e ∉ best.map Prod.snd := by
          apply List.filter_congr
          intro e _
          simp
        rw [h3] at h2
        exact h2.symm.trans (h1.append_right _)
      have hother : ∀ e ∈ (liveIds s).filter (fun e => e ∉ best.map Prod.snd),
          Full k best (P.dist (s.keys e) v) := by
        intro e he
        obtain ⟨hel, hen⟩ := List.mem_filter.mp he
        obtain ⟨n, hn⟩ := (h.held e).mpr (mem_liveIds.mp hel)
        obtain ⟨hu, -, hne⟩ := h.inv.elems.node_elem e n hn
        rcases hb.rest n hu with ⟨m, hm, -⟩ | hm | hm
        · cases hm
        · rw [hne] at hm
          exact absurd (List.mem_map_of_mem hm) (of_decide_eq_true hen)
        · rw [hne] at hm
          exact hm
      have hcount : best.length = min k.toNat (liveIds s).length := by
        have h1 := hids.length_eq
        rw [List.length_append, List.length_map] at h1
        have h2 := hb.heap.len
        cases hrest : (liveIds s).filter (fun e => e ∉ best.map Prod.snd) with
        | nil =>
          rw [hrest, List.length_nil] at h1
          omega
        | cons e es =>
          have h3 := (hother e (by rw [hrest]; simp)).1
          omega
      refine ⟨_, rfl, ?_, ?_, by rw [hlen, hcount], ?_⟩
      · rw [((List.perm_insertionSort heapLe _).map Prod.snd).nodup_iff, List.map_map]
        exact hb.heap.nodup
      · intro x hx
        rw [List.mem_insertionSort] at hx
        obtain ⟨b, hbm, rfl⟩ := List.mem_map.mp hx
        obtain ⟨h1, h2⟩ := hlive b hbm
        refine ⟨h1, ?_⟩
        dsimp only
        rw [h2, neg_neg]
      · rw [map_results]
        have hpart : (best.map fun b => -b.1) = (best.map Prod.snd).map fun e => P.dist (s.keys e) v := by
          rw [List.map_map]
          apply List.map_congr_left
          intro b hbm
          rw [Function.comp_apply, (hlive b hbm).2, neg_neg]
        have hall := hids.map fun e => P.dist (s.keys e) v
        rw [List.map_append, ← hpart] at hall
        have htake := sorted_take hall (by
          intro a ha b hbm
          obtain ⟨x, hx, rfl⟩ := List.mem_map.mp ha
          obtain ⟨e, he, rfl⟩ := List.mem_map.mp hbm
          exact (hother e he).2 x hx)
        unfold allDistances
        rw [htake, List.length_map, hcount]
        -- past its end the list has nothing to take
        rcases Nat.le_total k.toNat (liveIds s).length with hle | hle
        · rw [min_eq_left hle]
        · rw [min_eq_right hle, List.take_of_length_le, List.take_of_length_le]
          · rw [List.length_insertionSort, List.length_map]
            exact hle
          · rw [List.length_insertionSort, List.length_map]

/-- After every run the store holds what was put in and not taken out, and for
every query the search yields distinct elements of it whose distances are the `k`
smallest, in order. -/
theorem knn_exact (hM : Metric P) (x : X) (ops : List (Op X)) (v : X) (k : Int) :
    ∃ s results, run P (DB.empty x) ops = some s ∧ Stores (fun _ => none) ops (contents s) ∧
      knn P s v k = some results ∧ (results.map Prod.snd).Nodup ∧
      (∀ r ∈ results, Live s r.2 ∧ r.1 = P.dist (s.keys r.2) v) ∧
      results.length = min k.toNat (liveIds s).length ∧
      results.map Prod.fst = (allDistances P s v).take k.toNat ∧
      (results.map Prod.fst).Pairwise (· ≤ ·) := by
  have hstart : Good P False (DB.empty x) := good_empty x
  obtain ⟨s, h1, h2, hstores⟩ := run_good hM ops (DB.empty x) hstart False.elim
  rw [contents_empty] at hstores
  obtain ⟨results, h3, h4, h5, h6, h7⟩ := knn_good hM h2 v k
  refine ⟨s, results, h1, hstores, h3, h4, h5, h6, h7, ?_⟩
  rw [h7]
  exact (List.pairwise_insertionSort _ _).sublist (List.take_sublist _ _)

/-- With an edge that is not covered in the tree. -/
theorem knn_exact_line : ∃ s results,
    run line (DB.empty 0) [.insert 9, .insert 0, .insert 29, .remove 0] = some s ∧
      Stores (fun _ => none) [.insert 9, .insert 0, .insert 29, .remove 0] (contents s) ∧
      knn line s 3 1 = some results ∧ (results.map Prod.snd).Nodup ∧
      (∀ r ∈ results, Live s r.2 ∧ r.1 = line.dist (s.keys r.2) 3) ∧
      results.length = min (1 : Int).toNat (liveIds s).length ∧
      results.map Prod.fst = (allDistances line s 3).take (1 : Int).toNat ∧
      (results.map Prod.fst).Pairwise (· ≤ ·) :=
  knn_exact line_metric 0 _ 3 1

end GenVM.VecDb
