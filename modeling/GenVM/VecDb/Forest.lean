import GenVM.VecDb.Types

/-!
# Links between the nodes

`Links s roots` says of every node in use that its children point back at it
and lie on lower levels, and that it is a root or a child of its parent. A
detached subtree is one more root, so each mutation of the store keeps the
predicate with other roots: allocating and detaching add one, attaching
takes one away, freeing a root leaves its children in its place.

**Results.**
* `links_allocate`, `links_attach`, `links_detach`, `links_free`: the mutations.
* `under_child`: what is above a child is the child or above its parent.
-/
namespace GenVM.VecDb

variable {X : Type}

/-- An entry of the node array that is not free. -/
def Used (s : DB X) (n : Nat) : Prop := n < s.nodesLen ∧ n ∉ s.freeNodes

structure Links (s : DB X) (roots : List Nat) : Prop where
  root_used : ∀ r ∈ roots, Used s r
  roots_nodup : roots.Nodup
  child : ∀ n c, Used s n → c ∈ (s.nodes n).children →
    Used s c ∧ (s.nodes c).parent = some n ∧ (s.nodes c).level < (s.nodes n).level ∧ c ∉ roots
  nodup : ∀ n, Used s n → (s.nodes n).children.Nodup
  up : ∀ n, Used s n → n ∉ roots →
    ∃ p, (s.nodes n).parent = some p ∧ Used s p ∧ n ∈ (s.nodes p).children
  low : ∀ n, Used s n → minLevelBound ≤ (s.nodes n).level
  free_lt : ∀ n ∈ s.freeNodes, n < s.nodesLen
  free_nodup : s.freeNodes.Nodup

/-- `x` is `n` or below it. -/
def Under (s : DB X) : Nat → Nat → Prop :=
  Relation.ReflTransGen fun a b => b ∈ (s.nodes a).children

theorem Under.refl (s : DB X) (n : Nat) : Under s n n := Relation.ReflTransGen.refl

theorem Under.trans {s : DB X} {a b c : Nat} (h1 : Under s a b) (h2 : Under s b c) :
    Under s a c := Relation.ReflTransGen.trans h1 h2

theorem Under.child {s : DB X} {a b : Nat} (h : b ∈ (s.nodes a).children) : Under s a b :=
  Relation.ReflTransGen.single h

theorem under_used {s : DB X} {roots : List Nat} (h : Links s roots) {a b : Nat}
    (ha : Used s a) (hab : Under s a b) : Used s b := by
  induction hab with
  | refl => exact ha
  | tail _ hbc ih => exact (h.child _ _ ih hbc).1

theorem under_level {s : DB X} {roots : List Nat} (h : Links s roots) {a b : Nat}
    (ha : Used s a) (hab : Under s a b) : a = b ∨ (s.nodes b).level < (s.nodes a).level := by
  induction hab with
  | refl => exact .inl rfl
  | @tail b c hab hbc ih =>
    have hlt := (h.child _ _ (under_used h ha hab) hbc).2.2.1
    rcases ih with rfl | ih
    · exact .inr hlt
    · exact .inr (lt_trans hlt ih)

/-- Links are read upwards too: a child has one parent. -/
theorem under_child {s : DB X} {roots : List Nat} (h : Links s roots) {a n c : Nat}
    (ha : Used s a) (hn : Used s n) (hc : c ∈ (s.nodes n).children) (hac : Under s a c) :
    a = c ∨ Under s a n := by
  rcases Relation.ReflTransGen.cases_tail hac with rfl | ⟨p, hap, hpc⟩
  · exact .inl rfl
  · have hp := under_used h ha hap
    have h1 := (h.child p c hp hpc).2.1
    have h2 := (h.child n c hn hc).2.1
    rw [h1] at h2
    cases h2
    exact .inr hap

/-- Nothing but a root itself lies above it. -/
theorem under_root {s : DB X} {roots : List Nat} (h : Links s roots) {a r : Nat} (ha : Used s a)
    (hr : r ∈ roots) (har : Under s a r) : a = r := by
  rcases Relation.ReflTransGen.cases_tail har with rfl | ⟨p, hap, hpr⟩
  · rfl
  · exact absurd hr (h.child p r (under_used h ha hap) hpr).2.2.2

theorem level_bound (s : DB X) : ∃ M, ∀ n, n < s.nodesLen → (s.nodes n).level ≤ M := by
  obtain ⟨M, hM⟩ := ((Finset.range s.nodesLen).image fun n => (s.nodes n).level).exists_le
  refine ⟨M, ?_⟩
  intro n hn
  exact hM _ (Finset.mem_image_of_mem _ (Finset.mem_range.mpr hn))

/-- Going up from a node in use ends at a root: levels grow, and have a bound. -/
theorem under_some_root {s : DB X} {roots : List Nat} (h : Links s roots) {n : Nat}
    (hn : Used s n) : ∃ r ∈ roots, Under s r n := by
  obtain ⟨M, hM⟩ := level_bound s
  generalize hk : (M - (s.nodes n).level).toNat = k
  induction k using Nat.strong_induction_on generalizing n with
  | _ k ih =>
    by_cases hr : n ∈ roots
    · exact ⟨n, hr, Under.refl s n⟩
    · obtain ⟨p, -, hp, hc⟩ := h.up n hn hr
      have hlt := (h.child p n hp hc).2.2.1
      have hle := hM p hp.1
      obtain ⟨r, hr', hu⟩ := ih (M - (s.nodes p).level).toNat (by omega) hp rfl
      exact ⟨r, hr', hu.tail hc⟩

/-- The part of the store the links depend on. -/
structure SameLinks (s s' : DB X) : Prop where
  len : s'.nodesLen = s.nodesLen
  free : s'.freeNodes = s.freeNodes
  level : ∀ n, (s'.nodes n).level = (s.nodes n).level
  children : ∀ n, (s'.nodes n).children = (s.nodes n).children
  parent : ∀ n, (s'.nodes n).parent = (s.nodes n).parent

theorem SameLinks.used {s s' : DB X} (h : SameLinks s s') (n : Nat) : Used s' n ↔ Used s n := by
  unfold Used
  rw [h.len, h.free]

theorem SameLinks.under {s s' : DB X} (h : SameLinks s s') {a b : Nat} :
    Under s' a b ↔ Under s a b := by
  unfold Under
  simp only [h.children]

theorem SameLinks.links {s s' : DB X} {roots : List Nat} (h : SameLinks s s')
    (hl : Links s roots) : Links s' roots where
  root_used r hr := (h.used r).mpr (hl.root_used r hr)
  roots_nodup := hl.roots_nodup
  child n c hn hc := by
    rw [h.used] at hn ⊢
    rw [h.children] at hc
    rw [h.parent, h.level, h.level]
    exact hl.child n c hn hc
  nodup n hn := by
    rw [h.children]
    exact hl.nodup n ((h.used n).mp hn)
  up n hn hr := by
    obtain ⟨p, h1, h2, h3⟩ := hl.up n ((h.used n).mp hn) hr
    exact ⟨p, by rw [h.parent, h1], (h.used p).mpr h2, by rw [h.children]; exact h3⟩
  low n hn := by
    rw [h.level]
    exact hl.low n ((h.used n).mp hn)
  free_lt n hn := by
    rw [h.free] at hn
    rw [h.len]
    exact hl.free_lt n hn
  free_nodup := by
    rw [h.free]
    exact hl.free_nodup

theorem links_perm {s : DB X} {roots roots' : List Nat} (h : Links s roots)
    (hp : roots.Perm roots') : Links s roots' where
  root_used r hr := h.root_used r (hp.mem_iff.mpr hr)
  roots_nodup := hp.nodup_iff.mp h.roots_nodup
  child n c hn hc := by
    obtain ⟨h1, h2, h3, h4⟩ := h.child n c hn hc
    exact ⟨h1, h2, h3, fun hm => h4 (hp.mem_iff.mpr hm)⟩
  nodup := h.nodup
  up n hn hr := h.up n hn fun hm => hr (hp.mem_iff.mp hm)
  low := h.low
  free_lt := h.free_lt
  free_nodup := h.free_nodup

/-! ## Allocating -/

/-- A new node, in use with no links, over an entry that was not in use. -/
structure Allocated (s : DB X) (elem : Nat) (level : Int) (n : Nat) (s' : DB X) : Prop where
  fresh : ¬ Used s n
  used : ∀ x, Used s' x ↔ Used s x ∨ x = n
  elem_n : (s'.nodes n).elem = elem
  level_n : (s'.nodes n).level = level
  children_n : (s'.nodes n).children = []
  other : ∀ x, x ≠ n → s'.nodes x = s.nodes x
  free_sub : ∀ x ∈ s'.freeNodes, x ∈ s.freeNodes
  free_nodup : s.freeNodes.Nodup → s'.freeNodes.Nodup
  len_le : s.nodesLen ≤ s'.nodesLen
  keys : s'.keys = s.keys
  keysLen : s'.keysLen = s.keysLen
  freeIdx : s'.freeIdx = s.freeIdx
  elemToNode : s'.elemToNode = s.elemToNode
  root : s'.root = s.root

theorem allocate_spec {s : DB X} {roots : List Nat} (h : Links s roots) (elem : Nat)
    (level : Int) :
    Allocated s elem level (allocateNode s elem level).1 (allocateNode s elem level).2 := by
  unfold allocateNode
  cases hf : s.freeNodes with
  | cons n rest =>
    have hnodup := h.free_nodup
    rw [hf] at hnodup
    obtain ⟨hn, -⟩ := List.nodup_cons.mp hnodup
    have hlt := h.free_lt n (by rw [hf]; simp)
    constructor
    · intro hu
      apply hu.2
      rw [hf]
      simp
    · intro x
      unfold Used DB.setNode
      dsimp only
      rw [hf, List.mem_cons, not_or]
      constructor
      · intro hx
        by_cases hxn : x = n
        · exact .inr hxn
        · exact .inl ⟨hx.1, hxn, hx.2⟩
      · intro hx
        rcases hx with hx | rfl
        · exact ⟨hx.1, hx.2.2⟩
        · exact ⟨hlt, hn⟩
    · simp [DB.setNode]
    · simp [DB.setNode]
    · simp [DB.setNode]
    · intro x hx
      simp [DB.setNode, Function.update_of_ne hx]
    · intro x hx
      exact hf ▸ List.mem_cons_of_mem n hx
    · intro hd
      exact (List.nodup_cons.mp (hf ▸ hd)).2
    · exact le_refl _
    all_goals rfl
  | nil =>
    dsimp only
    constructor
    · intro hu
      exact absurd hu.1 (lt_irrefl _)
    · intro x
      unfold Used DB.setNode
      dsimp only
      rw [hf]
      simp only [List.not_mem_nil, not_false_eq_true, and_true]
      omega
    · simp [DB.setNode]
    · simp [DB.setNode]
    · simp [DB.setNode]
    · intro x hx
      simp [DB.setNode, Function.update_of_ne hx]
    · intro x hx
      have hx : x ∈ ([] : List Nat) := hx
      cases hx
    · intro _
      exact List.nodup_nil
    · exact Nat.le_succ _
    all_goals rfl

/-- Its parent is written next. -/
theorem Allocated.setParent {s s' : DB X} {elem n : Nat} {level : Int}
    (h : Allocated s elem level n s') (q : Option Nat) :
    Allocated s elem level n (s'.setNode n { s'.nodes n with parent := q }) where
  fresh := h.fresh
  used := h.used
  elem_n := by simp [DB.setNode, h.elem_n]
  level_n := by simp [DB.setNode, h.level_n]
  children_n := by simp [DB.setNode, h.children_n]
  other x hx := by simp [DB.setNode, Function.update_of_ne hx, h.other x hx]
  free_sub := h.free_sub
  free_nodup := h.free_nodup
  len_le := h.len_le
  keys := h.keys
  keysLen := h.keysLen
  freeIdx := h.freeIdx
  elemToNode := h.elemToNode
  root := h.root

theorem links_allocate {s s' : DB X} {roots : List Nat} {elem n : Nat} {level : Int}
    (h : Links s roots) (ha : Allocated s elem level n s') (hl : minLevelBound ≤ level) :
    Links s' (n :: roots) where
  root_used r hr := by
    rw [ha.used]
    rcases List.mem_cons.mp hr with rfl | hr
    · exact .inr rfl
    · exact .inl (h.root_used r hr)
  roots_nodup := by
    apply List.nodup_cons.mpr
    exact ⟨fun hm => ha.fresh (h.root_used n hm), h.roots_nodup⟩
  child m c hm hc := by
    by_cases hmn : m = n
    · subst hmn
      rw [ha.children_n] at hc
      cases hc
    · have hm : Used s m := ((ha.used m).mp hm).resolve_right hmn
      rw [ha.other m hmn] at hc ⊢
      obtain ⟨h1, h2, h3, h4⟩ := h.child m c hm hc
      have hcn : c ≠ n := fun e => ha.fresh (e ▸ h1)
      rw [ha.other c hcn]
      refine ⟨(ha.used c).mpr (.inl h1), h2, h3, ?_⟩
      rw [List.mem_cons, not_or]
      exact ⟨hcn, h4⟩
  nodup m hm := by
    by_cases hmn : m = n
    · subst hmn
      rw [ha.children_n]
      exact List.nodup_nil
    · rw [ha.other m hmn]
      exact h.nodup m (((ha.used m).mp hm).resolve_right hmn)
  up m hm hr := by
    rw [List.mem_cons, not_or] at hr
    obtain ⟨p, h1, h2, h3⟩ := h.up m (((ha.used m).mp hm).resolve_right hr.1) hr.2
    have hpn : p ≠ n := fun e => ha.fresh (e ▸ h2)
    exact ⟨p, by rw [ha.other m hr.1, h1], (ha.used p).mpr (.inl h2), by rw [ha.other p hpn]; exact h3⟩
  low m hm := by
    by_cases hmn : m = n
    · subst hmn
      rw [ha.level_n]
      exact hl
    · rw [ha.other m hmn]
      exact h.low m (((ha.used m).mp hm).resolve_right hmn)
  free_lt m hm := lt_of_lt_of_le (h.free_lt m (ha.free_sub m hm)) ha.len_le
  free_nodup := ha.free_nodup h.free_nodup

/-! ## Attaching a root below another node -/

/-- `child` hangs below `p`, at the end of its children. -/
structure Attached (s : DB X) (p child : Nat) (s' : DB X) : Prop where
  used : ∀ x, Used s' x ↔ Used s x
  level : ∀ x, (s'.nodes x).level = (s.nodes x).level
  elem : ∀ x, (s'.nodes x).elem = (s.nodes x).elem
  children_p : (s'.nodes p).children = (s.nodes p).children ++ [child]
  children : ∀ x, x ≠ p → (s'.nodes x).children = (s.nodes x).children
  parent_child : (s'.nodes child).parent = some p
  parent : ∀ x, x ≠ child → (s'.nodes x).parent = (s.nodes x).parent
  len : s'.nodesLen = s.nodesLen
  free : s'.freeNodes = s.freeNodes

theorem Attached.congr {s s' s'' : DB X} {p child : Nat} (h : Attached s p child s')
    (hn : s''.nodes = s'.nodes) (hl : s''.nodesLen = s'.nodesLen)
    (hf : s''.freeNodes = s'.freeNodes) : Attached s p child s'' := by
  constructor
  · intro x
    rw [← h.used x]
    unfold Used
    rw [hl, hf]
  all_goals first
    | exact hl.trans h.len
    | exact hf.trans h.free
    | rw [hn]
  · exact h.level
  · exact h.elem
  · exact h.children_p
  · exact h.children
  · exact h.parent_child
  · exact h.parent

/-- The parent of the child is written first. -/
theorem attached_parent_first (s : DB X) {p c : Nat} (hpc : p ≠ c) :
    let s1 := s.setNode c { s.nodes c with parent := some p }
    Attached s p c (s1.setNode p { s1.nodes p with children := (s1.nodes p).children ++ [c] }) := by
  intro s1
  have hp : s1.nodes p = s.nodes p := Function.update_of_ne hpc _ _
  have hc : s1.nodes c = { s.nodes c with parent := some p } := Function.update_self _ _ _
  have ho : ∀ x, x ≠ c → s1.nodes x = s.nodes x := fun x hx => Function.update_of_ne hx _ _
  constructor
  · intro x
    exact Iff.rfl
  · intro x
    by_cases hxp : x = p
    · subst hxp
      simp [DB.setNode, hp]
    · by_cases hxc : x = c
      · subst hxc
        simp [DB.setNode, Function.update_of_ne hxp, hc]
      · simp [DB.setNode, Function.update_of_ne hxp, ho x hxc]
  · intro x
    by_cases hxp : x = p
    · subst hxp
      simp [DB.setNode, hp]
    · by_cases hxc : x = c
      · subst hxc
        simp [DB.setNode, Function.update_of_ne hxp, hc]
      · simp [DB.setNode, Function.update_of_ne hxp, ho x hxc]
  · simp [DB.setNode, hp]
  · intro x hxp
    by_cases hxc : x = c
    · subst hxc
      simp [DB.setNode, Function.update_of_ne hxp, hc]
    · simp [DB.setNode, Function.update_of_ne hxp, ho x hxc]
  · simp [DB.setNode, Function.update_of_ne hpc.symm, hc]
  · intro x hxc
    by_cases hxp : x = p
    · subst hxp
      simp [DB.setNode, hp]
    · simp [DB.setNode, Function.update_of_ne hxp, ho x hxc]
  · rfl
  · rfl

/-- The children of the parent are written first. -/
theorem attached_children_first (s : DB X) {p c : Nat} (hpc : p ≠ c) :
    let s1 := s.setNode p { s.nodes p with children := (s.nodes p).children ++ [c] }
    Attached s p c (s1.setNode c { s1.nodes c with parent := some p }) := by
  intro s1
  apply (attached_parent_first s hpc).congr
  · have hc : s1.nodes c = s.nodes c := Function.update_of_ne hpc.symm _ _
    show Function.update s1.nodes c _ = Function.update (Function.update s.nodes c _) p _
    rw [hc, Function.update_comm hpc.symm]
    simp [s1, DB.setNode, Function.update_of_ne hpc]
  · rfl
  · rfl

theorem links_attach {s s' : DB X} {roots : List Nat} {p c : Nat} (h : Links s (c :: roots))
    (ha : Attached s p c s') (hp : Used s p) (hlev : (s.nodes c).level < (s.nodes p).level) :
    Links s' roots where
  root_used r hr := (ha.used r).mpr (h.root_used r (List.mem_cons_of_mem c hr))
  roots_nodup := (List.nodup_cons.mp h.roots_nodup).2
  child n x hn hx := by
    rw [ha.used] at hn ⊢
    rw [ha.level, ha.level]
    have hold : x ∈ (s.nodes n).children →
        Used s x ∧ (s'.nodes x).parent = some n ∧ (s.nodes x).level < (s.nodes n).level ∧
          x ∉ roots := by
      intro hx
      obtain ⟨h1, h2, h3, h4⟩ := h.child n x hn hx
      rw [List.mem_cons, not_or] at h4
      exact ⟨h1, by rw [ha.parent x h4.1, h2], h3, h4.2⟩
    by_cases hnp : n = p
    · subst hnp
      rw [ha.children_p, List.mem_append, List.mem_singleton] at hx
      rcases hx with hx | rfl
      · exact hold hx
      · exact ⟨h.root_used x (by simp), ha.parent_child, hlev,
          (List.nodup_cons.mp h.roots_nodup).1⟩
    · rw [ha.children n hnp] at hx
      exact hold hx
  nodup n hn := by
    rw [ha.used] at hn
    by_cases hnp : n = p
    · subst hnp
      rw [ha.children_p]
      apply List.nodup_append.mpr
      refine ⟨h.nodup n hn, List.nodup_singleton c, ?_⟩
      intro x hx y hy hxy
      rw [List.mem_singleton] at hy
      subst hy
      subst hxy
      exact (h.child n x hn hx).2.2.2 (by simp)
    · rw [ha.children n hnp]
      exact h.nodup n hn
  up n hn hr := by
    rw [ha.used] at hn
    by_cases hnc : n = c
    · subst hnc
      refine ⟨p, ha.parent_child, (ha.used p).mpr hp, ?_⟩
      rw [ha.children_p]
      simp
    · obtain ⟨q, h1, h2, h3⟩ := h.up n hn (by simp [hnc, hr])
      refine ⟨q, by rw [ha.parent n hnc, h1], (ha.used q).mpr h2, ?_⟩
      by_cases hqp : q = p
      · subst hqp
        rw [ha.children_p]
        exact List.mem_append_left _ h3
      · rw [ha.children q hqp]
        exact h3
  low n hn := by
    rw [ha.level]
    exact h.low n ((ha.used n).mp hn)
  free_lt n hn := by
    rw [ha.free] at hn
    rw [ha.len]
    exact h.free_lt n hn
  free_nodup := by
    rw [ha.free]
    exact h.free_nodup

/-! ## Detaching children -/

theorem links_detach {s : DB X} {roots keep out : List Nat} {n : Nat} (h : Links s roots)
    (hn : Used s n) (hp : (s.nodes n).children.Perm (keep ++ out)) :
    Links (s.setNode n { s.nodes n with children := keep }) (out ++ roots) := by
  have hnode : ∀ x, x ≠ n →
      (s.setNode n { s.nodes n with children := keep }).nodes x = s.nodes x := by
    intro x hx
    simp [DB.setNode, Function.update_of_ne hx]
  have hself : (s.setNode n { s.nodes n with children := keep }).nodes n
      = { s.nodes n with children := keep } := by
    simp [DB.setNode]
  generalize hs' : s.setNode n { s.nodes n with children := keep } = s' at hnode hself
  have hused : ∀ x, Used s' x ↔ Used s x := by
    intro x
    rw [← hs']
    exact Iff.rfl
  have hlevel : ∀ x, (s'.nodes x).level = (s.nodes x).level := by
    intro x
    by_cases hx : x = n
    · subst hx
      rw [hself]
    · rw [hnode x hx]
  have hparent : ∀ x, (s'.nodes x).parent = (s.nodes x).parent := by
    intro x
    by_cases hx : x = n
    · subst hx
      rw [hself]
    · rw [hnode x hx]
  have hnd := hp.nodup_iff.mp (h.nodup n hn)
  obtain ⟨hkeep, hout, hdisj⟩ := List.nodup_append.mp hnd
  have hchild : ∀ x ∈ keep ++ out, x ∈ (s.nodes n).children := fun x hx => hp.mem_iff.mpr hx
  -- a child of another node is not a child of `n`
  have hother : ∀ m x, Used s m → m ≠ n → x ∈ (s.nodes m).children → x ∉ out := by
    intro m x hm hmn hx ho
    have h1 := (h.child m x hm hx).2.1
    have h2 := (h.child n x hn (hchild x (List.mem_append_right _ ho))).2.1
    rw [h1] at h2
    exact hmn (Option.some.inj h2)
  constructor
  · intro r hr
    rw [hused]
    rcases List.mem_append.mp hr with hr | hr
    · exact (h.child n r hn (hchild r (List.mem_append_right _ hr))).1
    · exact h.root_used r hr
  · apply List.nodup_append.mpr
    refine ⟨hout, h.roots_nodup, ?_⟩
    intro x hx y hy hxy
    subst hxy
    exact (h.child n x hn (hchild x (List.mem_append_right _ hx))).2.2.2 hy
  · intro m x hm hx
    rw [hused] at hm ⊢
    rw [hparent, hlevel, hlevel, List.mem_append, not_or]
    by_cases hmn : m = n
    · subst hmn
      rw [hself] at hx
      have hx : x ∈ keep := hx
      obtain ⟨h1, h2, h3, h4⟩ := h.child m x hm (hchild x (List.mem_append_left _ hx))
      exact ⟨h1, h2, h3, fun ho => hdisj x hx x ho rfl, h4⟩
    · rw [hnode m hmn] at hx
      obtain ⟨h1, h2, h3, h4⟩ := h.child m x hm hx
      exact ⟨h1, h2, h3, hother m x hm hmn hx, h4⟩
  · intro m hm
    by_cases hmn : m = n
    · subst hmn
      rw [hself]
      exact hkeep
    · rw [hnode m hmn]
      exact h.nodup m ((hused m).mp hm)
  · intro m hm hr
    rw [List.mem_append, not_or] at hr
    obtain ⟨p, h1, h2, h3⟩ := h.up m ((hused m).mp hm) hr.2
    refine ⟨p, by rw [hparent, h1], (hused p).mpr h2, ?_⟩
    by_cases hpn : p = n
    · subst hpn
      rw [hself]
      exact (List.mem_append.mp (hp.mem_iff.mp h3)).resolve_right hr.1
    · rw [hnode p hpn]
      exact h3
  · intro m hm
    rw [hlevel]
    exact h.low m ((hused m).mp hm)
  · intro m hm
    rw [← hs'] at hm ⊢
    exact h.free_lt m hm
  · rw [← hs']
    exact h.free_nodup

/-! ## Freeing a root -/

theorem mem_setAdd {x y : Nat} {l : List Nat} : y ∈ setAdd x l ↔ y = x ∨ y ∈ l := by
  unfold setAdd
  split
  · rename_i h
    constructor
    · exact .inr
    · intro hy
      rcases hy with rfl | hy
      · exact h
      · exact hy
  · rw [List.mem_orderedInsert]

theorem setAdd_nodup {x : Nat} {l : List Nat} (h : l.Nodup) : (setAdd x l).Nodup := by
  unfold setAdd
  split
  · exact h
  · rename_i hx
    exact ((List.perm_orderedInsert (· ≤ ·) x l).nodup_iff).mpr (List.nodup_cons.mpr ⟨hx, h⟩)

theorem used_freeNode (s : DB X) (n x : Nat) : Used (freeNode s n) x ↔ Used s x ∧ x ≠ n := by
  unfold Used freeNode
  dsimp only
  rw [mem_setAdd, not_or]
  tauto

theorem links_free {s : DB X} {roots : List Nat} {n : Nat} (h : Links s (n :: roots)) :
    Links (freeNode s n) ((s.nodes n).children.reverse ++ roots) := by
  have hn := h.root_used n (by simp)
  obtain ⟨hnr, hroots⟩ := List.nodup_cons.mp h.roots_nodup
  have hself : n ∉ (s.nodes n).children := fun hm => (h.child n n hn hm).2.2.2 (by simp)
  constructor
  · intro r hr
    rw [used_freeNode]
    rcases List.mem_append.mp hr with hr | hr
    · have hr := List.mem_reverse.mp hr
      exact ⟨(h.child n r hn hr).1, fun e => hself (e ▸ hr)⟩
    · exact ⟨h.root_used r (by simp [hr]), fun e => hnr (e ▸ hr)⟩
  · apply List.nodup_append.mpr
    refine ⟨List.nodup_reverse.mpr (h.nodup n hn), hroots, ?_⟩
    intro x hx y hy hxy
    subst hxy
    exact (h.child n x hn (List.mem_reverse.mp hx)).2.2.2 (by simp [hy])
  · intro m x hm hx
    rw [used_freeNode] at hm ⊢
    obtain ⟨h1, h2, h3, h4⟩ := h.child m x hm.1 hx
    rw [List.mem_cons, not_or] at h4
    refine ⟨⟨h1, h4.1⟩, h2, h3, ?_⟩
    rw [List.mem_append, not_or, List.mem_reverse]
    refine ⟨?_, h4.2⟩
    intro hxn
    have h5 := (h.child n x hn hxn).2.1
    rw [h2] at h5
    exact hm.2 (Option.some.inj h5)
  · intro m hm
    exact h.nodup m ((used_freeNode s n m).mp hm).1
  · intro m hm hr
    rw [used_freeNode] at hm
    rw [List.mem_append, not_or, List.mem_reverse] at hr
    obtain ⟨p, h1, h2, h3⟩ := h.up m hm.1 (by simp [hm.2, hr.2])
    refine ⟨p, h1, (used_freeNode s n p).mpr ⟨h2, ?_⟩, h3⟩
    intro e
    exact hr.1 (e ▸ h3)
  · intro m hm
    exact h.low m ((used_freeNode s n m).mp hm).1
  · intro m hm
    have hm : m = n ∨ m ∈ s.freeNodes := mem_setAdd.mp hm
    rcases hm with rfl | hm
    · exact hn.1
    · exact h.free_lt m hm
  · exact setAdd_nodup h.free_nodup

/-! ## What lies below a node after a mutation -/

/-- A new node is not below those that were in use. -/
theorem under_allocate {s s' : DB X} {roots : List Nat} {elem n : Nat} {level : Int}
    (h : Links s roots) (ha : Allocated s elem level n s') {a x : Nat} (hu : Used s a) :
    Under s' a x ↔ Under s a x := by
  constructor
  · intro hax
    induction hax with
    | refl => exact Under.refl s a
    | @tail b c _ hbc ih =>
      have hb := under_used h hu ih
      rw [ha.other b fun e => ha.fresh (e ▸ hb)] at hbc
      exact ih.tail hbc
  · intro hax
    induction hax with
    | refl => exact Under.refl s' a
    | @tail b c hab hbc ih =>
      have hb := under_used h hu hab
      rw [← ha.other b fun e => ha.fresh (e ▸ hb)] at hbc
      exact ih.tail hbc

/-- Attaching adds what is below the attached node, to what is above its new parent. -/
theorem under_attach {s s' : DB X} {p c : Nat} (ha : Attached s p c s') {a x : Nat}
    (hax : Under s' a x) : Under s a x ∨ (Under s a p ∧ Under s c x) := by
  induction hax with
  | refl => exact .inl (Under.refl s a)
  | @tail y z _ hyz ih =>
    by_cases hyp : y = p
    · subst hyp
      rw [ha.children_p, List.mem_append, List.mem_singleton] at hyz
      rcases hyz with hyz | rfl
      · rcases ih with ih | ⟨ih, hcy⟩
        · exact .inl (ih.tail hyz)
        · exact .inr ⟨ih, hcy.tail hyz⟩
      · rcases ih with ih | ⟨ih, -⟩
        · exact .inr ⟨ih, Under.refl s z⟩
        · exact .inr ⟨ih, Under.refl s z⟩
    · rw [ha.children y hyp] at hyz
      rcases ih with ih | ⟨ih, hcy⟩
      · exact .inl (ih.tail hyz)
      · exact .inr ⟨ih, hcy.tail hyz⟩

theorem under_attach_mono {s s' : DB X} {p c : Nat} (ha : Attached s p c s') {a x : Nat}
    (hax : Under s a x) : Under s' a x := by
  refine Relation.ReflTransGen.mono ?_ _ _ hax
  intro y z hyz
  by_cases hyp : y = p
  · subst hyp
    rw [ha.children_p]
    exact List.mem_append_left _ hyz
  · rw [ha.children y hyp]
    exact hyz

/-- Taking children away from one node. -/
structure Shrunk (s s' : DB X) (out : List Nat) : Prop where
  sub : ∀ n c, c ∈ (s'.nodes n).children → c ∈ (s.nodes n).children
  kept : ∀ n c, c ∈ (s.nodes n).children → c ∉ out → c ∈ (s'.nodes n).children
  elem : ∀ n, (s'.nodes n).elem = (s.nodes n).elem
  level : ∀ n, (s'.nodes n).level = (s.nodes n).level

theorem under_shrunk {s s' : DB X} {out : List Nat} (h : Shrunk s s' out) {a x : Nat}
    (hax : Under s' a x) : Under s a x :=
  Relation.ReflTransGen.mono (fun y z hyz => h.sub y z hyz) _ _ hax

/-- What is not below the children taken away stays where it is. -/
theorem under_shrunk_kept {s s' : DB X} {out : List Nat} (h : Shrunk s s' out) {a b : Nat}
    (hab : Under s a b) (hb : ∀ o ∈ out, ¬ Under s o b) : Under s' a b := by
  induction hab using Relation.ReflTransGen.head_induction_on with
  | refl => exact Under.refl s' b
  | @head a c hac hcb ih =>
    exact Relation.ReflTransGen.head (h.kept a c hac fun ho => hb c ho hcb) ih

end GenVM.VecDb
