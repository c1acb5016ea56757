import GenVM.VecDb.Cover

/-!
# Inserting an element into the tree

The descent keeps candidates whose ancestors all cover the new element, so the
new leaf is within the bound of everything above it. A new root is given a
level that covers the old one.

**Results.**
* `descend_spec`: the descent ends, with candidates below which the element fits.
* `insertIntoTree_spec`: the insertion ends, keeps `Inv`, and adds the element.
-/
namespace GenVM.VecDb

variable {X 𝕜 : Type} [Field 𝕜] [LinearOrder 𝕜]

/-- The elements some node holds. -/
def Held (s : DB X) (e : Nat) : Prop := ∃ n, s.elemToNode e = some n

/-- What an insertion of `e` leaves as it was, and what it adds. -/
structure Grown (s s' : DB X) (e : Nat) : Prop where
  used : ∀ n, Used s n → Used s' n
  elem : ∀ n, Used s n → (s'.nodes n).elem = (s.nodes n).elem
  level : ∀ n, Used s n → (s'.nodes n).level = (s.nodes n).level
  held : ∀ x, Held s' x ↔ x = e ∨ Held s x
  keys : s'.keys = s.keys
  keysLen : s'.keysLen = s.keysLen
  freeIdx : s'.freeIdx = s.freeIdx

/-! ## The element beside the others -/

theorem elems_allocate {s s1 s' : DB X} {e n : Nat} {level : Int} (h : Elems s none)
    (ha : Allocated s e level n s1) (hu : ∀ x, Used s' x ↔ Used s1 x)
    (hel : ∀ x, (s'.nodes x).elem = (s1.nodes x).elem)
    (hm : s'.elemToNode = Function.update s.elemToNode e (some n)) (he : ¬ Held s e) :
    Elems s' none := by
  constructor
  · intro x hx _
    rw [hu, ha.used] at hx
    rw [hel, hm]
    rcases hx with hx | rfl
    · have hxn : x ≠ n := fun e => ha.fresh (e ▸ hx)
      have hold := h.elem_node x hx (by simp)
      rw [ha.other x hxn, Function.update_of_ne]
      · exact hold
      · intro hxe
        exact he ⟨x, hxe ▸ hold⟩
    · rw [ha.elem_n, Function.update_self]
  · intro x m hxm
    rw [hm] at hxm
    rw [hu, ha.used, hel]
    by_cases hxe : x = e
    · subst hxe
      rw [Function.update_self] at hxm
      cases hxm
      exact ⟨.inr rfl, by simp, ha.elem_n⟩
    · rw [Function.update_of_ne hxe] at hxm
      obtain ⟨h1, h2, h3⟩ := h.node_elem x m hxm
      have hmn : m ≠ n := fun e => ha.fresh (e ▸ h1)
      exact ⟨.inl h1, h2, by rw [ha.other m hmn]; exact h3⟩

theorem grown_allocate {s s1 s' : DB X} {e n : Nat} {level : Int}
    (ha : Allocated s e level n s1) (hu : ∀ x, Used s' x ↔ Used s1 x)
    (hel : ∀ x, (s'.nodes x).elem = (s1.nodes x).elem)
    (hlev : ∀ x, (s'.nodes x).level = (s1.nodes x).level)
    (hm : s'.elemToNode = Function.update s.elemToNode e (some n))
    (hk : s'.keys = s1.keys) (hkl : s'.keysLen = s1.keysLen) (hf : s'.freeIdx = s1.freeIdx) :
    Grown s s' e := by
  constructor
  · intro x hx
    exact (hu x).mpr ((ha.used x).mpr (.inl hx))
  · intro x hx
    rw [hel, ha.other x fun e => ha.fresh (e ▸ hx)]
  · intro x hx
    rw [hlev, ha.other x fun e => ha.fresh (e ▸ hx)]
  · intro x
    unfold Held
    rw [hm]
    by_cases hxe : x = e
    · subst hxe
      simp
    · simp [hxe]
  · exact hk.trans ha.keys
  · exact hkl.trans ha.keysLen
  · exact hf.trans ha.freeIdx

variable {P : Params X 𝕜} {strict : Prop}

/-! ## The three places an element can go -/

theorem inv_first {s s1 s' : DB X} {extra bad : List Nat} {e n : Nat}
    (h : Inv P strict s extra bad) (hr : s.root = none) (ha : Allocated s e 0 n s1)
    (hn : s'.nodes = s1.nodes) (hl : s'.nodesLen = s1.nodesLen)
    (hf : s'.freeNodes = s1.freeNodes) (hp : (s1.nodes n).parent = none)
    (hroot : s'.root = some n) (hk : s'.keys = s1.keys)
    (hm : s'.elemToNode = Function.update s.elemToNode e (some n)) (he : ¬ Held s e) :
    Inv P strict s' extra bad := by
  have hsame : SameLinks s1 s' :=
    ⟨hl, hf, fun x => by rw [hn], fun x => by rw [hn], fun x => by rw [hn]⟩
  have hlinks := h.links
  rw [hr] at hlinks
  have hl1 := links_allocate hlinks ha (by decide)
  constructor
  · rw [hroot]
    apply hsame.links
    apply links_perm hl1
    rw [Option.toList_none, List.append_nil]
    exact (List.perm_append_singleton n extra).symm
  · exact elems_allocate h.elems ha hsame.used (fun x => by rw [hn]) hm he
  · constructor
    · intro r hr
      rw [hroot] at hr
      cases hr
      rw [hn]
      exact hp
    · intro r hr
      rw [hroot] at hr
      cases hr
      rw [hn, ha.level_n]
  · intro m c hmu hmb hc
    rw [hsame.used, ha.used] at hmu
    rw [hn] at hc
    rcases hmu with hmu | rfl
    · have hmn : m ≠ n := fun e => ha.fresh (e ▸ hmu)
      rw [ha.other m hmn] at hc
      have hcu := (h.links.child m c hmu hc).1
      have hcn : c ≠ n := fun e => ha.fresh (e ▸ hcu)
      rcases h.edges m c hmu hmb hc with hcov | ⟨hs, hfar⟩
      · apply Or.inl
        unfold Cov DB.distance
        rw [hk, ha.keys, hn, ha.other m hmn, ha.other c hcn]
        exact hcov
      · apply Or.inr
        refine ⟨hs, ?_⟩
        intro x hx
        rw [hsame.under, under_allocate h.links ha hcu] at hx
        have hxu := under_used h.links hcu hx
        unfold DB.distance
        rw [hk, ha.keys, hn, ha.other m hmn, ha.other x fun e => ha.fresh (e ▸ hxu)]
        exact hfar x hx
    · rw [ha.children_n] at hc
      cases hc
  · intro b hb
    obtain ⟨r, h1, -⟩ := h.bad_under b hb
    rw [hr] at h1
    cases h1

theorem inv_leaf [IsStrictOrderedRing 𝕜] (hM : Metric P) {s s1 s' : DB X} {extra bad : List Nat} {e n near : Nat}
    {level : Int} (h : Inv P strict s extra bad) (ha : Allocated s e level n s1)
    (hat : Attached s1 near n s') (hnear : Used s near)
    (hlow : minLevelBound ≤ level) (hlev : level < (s.nodes near).level)
    (hcov : ∀ a, Used s a → Under s a near → s.distance P e (s.nodes a).elem ≤ cover (s.nodes a).level)
    (hroot : s'.root = s.root) (hk : s'.keys = s.keys)
    (hm : s'.elemToNode = Function.update s.elemToNode e (some n)) (he : ¬ Held s e) :
    Inv P strict s' extra bad := by
  have hl1 := links_allocate h.links ha hlow
  have hold : ∀ x, Used s x → s1.nodes x = s.nodes x :=
    fun x hx => ha.other x fun e => ha.fresh (e ▸ hx)
  have hnot : ∀ x, Used s x → x ≠ n := fun x hx e => ha.fresh (e ▸ hx)
  have hnr : ∀ r, s.root = some r → Used s r := fun r hr => root_used h.links hr
  constructor
  · rw [hroot]
    apply links_attach hl1 hat
    · exact (ha.used near).mpr (.inl hnear)
    · rw [ha.level_n, hold near hnear]
      exact hlev
  · exact elems_allocate h.elems ha hat.used hat.elem hm he
  · constructor
    · intro r hr
      rw [hroot] at hr
      rw [hat.parent r (hnot r (hnr r hr)), hold r (hnr r hr)]
      exact h.rooted.parent r hr
    · intro r hr
      rw [hroot] at hr
      rw [hat.level, hold r (hnr r hr)]
      exact h.rooted.level r hr
  · intro m c hmu hmb hc
    rw [hat.used, ha.used] at hmu
    rcases hmu with hmu | rfl
    swap
    · have hmn : m ≠ near := fun e => ha.fresh (e ▸ hnear)
      rw [hat.children m hmn, ha.children_n] at hc
      cases hc
    have hcs : (m = near ∧ c = n) ∨ c ∈ (s.nodes m).children := by
      by_cases hmn : m = near
      · subst hmn
        rw [hat.children_p, hold m hmu, List.mem_append, List.mem_singleton] at hc
        rcases hc with hc | rfl
        · exact .inr hc
        · exact .inl ⟨rfl, rfl⟩
      · rw [hat.children m hmn, hold m hmu] at hc
        exact .inr hc
    rcases hcs with ⟨rfl, rfl⟩ | hcs
    · apply Or.inl
      unfold Cov DB.distance
      rw [hk, hat.elem, hat.elem, hat.level, hold m hmu, ha.elem_n, hM.symm]
      exact hcov m hmu (Under.refl s m)
    · have hcu := (h.links.child m c hmu hcs).1
      rcases h.edges m c hmu hmb hcs with hcv | ⟨hs, hfar⟩
      · apply Or.inl
        unfold Cov DB.distance
        rw [hk, hat.elem, hat.elem, hat.level, hold m hmu, hold c hcu]
        exact hcv
      · apply Or.inr
        refine ⟨hs, ?_⟩
        intro x hx
        unfold DB.distance
        rw [hk, hat.elem, hat.elem, hat.level, hold m hmu]
        rcases under_attach hat hx with hx | ⟨hcn, hx⟩
        · rw [under_allocate h.links ha hcu] at hx
          rw [hold x (under_used h.links hcu hx)]
          exact hfar x hx
        · -- the new element lies below `c`, so all above it cover the new element
          rw [under_allocate h.links ha hcu] at hcn
          have hxn : x = n := by
            rcases Relation.ReflTransGen.cases_head hx with rfl | ⟨y, hy, -⟩
            · rfl
            · rw [ha.children_n] at hy
              cases hy
          subst hxn
          rw [ha.elem_n, hM.symm]
          apply le_trans (hcov m hmu ((Under.child hcs).trans hcn))
          exact cover_le_maxDescendantDist _
  · intro b hb
    obtain ⟨r, hr, hrb⟩ := h.bad_under b hb
    refine ⟨r, hroot.trans hr, ?_⟩
    apply under_attach_mono hat
    exact (under_allocate h.links ha (hnr r hr)).mpr hrb

theorem inv_root {s s1 s' : DB X} {extra bad : List Nat} {e n r : Nat}
    {level : Int} (h : Inv P strict s extra bad) (hr : s.root = some r)
    (ha : Allocated s e level n s1) (hat : Attached s1 n r s')
    (hlev : (s.nodes r).level < level)
    (hcov : P.dist (s.keys e) (s.keys (s.nodes r).elem) ≤ cover level)
    (hp : (s1.nodes n).parent = none)
    (hroot : s'.root = some n) (hk : s'.keys = s.keys)
    (hm : s'.elemToNode = Function.update s.elemToNode e (some n)) (he : ¬ Held s e) :
    Inv P strict s' extra bad := by
  have hru := root_used h.links hr
  have hlow : minLevelBound ≤ level := le_trans (h.links.low r hru) (le_of_lt hlev)
  have hl1 := links_allocate h.links ha hlow
  have hold : ∀ x, Used s x → s1.nodes x = s.nodes x :=
    fun x hx => ha.other x fun e => ha.fresh (e ▸ hx)
  have hnot : ∀ x, Used s x → x ≠ n := fun x hx e => ha.fresh (e ▸ hx)
  constructor
  · rw [hroot]
    have hl2 : Links s1 (r :: (extra ++ [n])) := by
      apply links_perm hl1
      rw [hr, Option.toList_some]
      have h1 : (n :: (extra ++ [r])).Perm (n :: r :: extra) :=
        (List.perm_append_singleton r extra).cons n
      have h2 : (r :: (extra ++ [n])).Perm (r :: n :: extra) :=
        (List.perm_append_singleton n extra).cons r
      exact h1.trans ((List.Perm.swap r n extra).trans h2.symm)
    apply links_attach hl2 hat
    · exact (ha.used n).mpr (.inr rfl)
    · rw [ha.level_n, hold r hru]
      exact hlev
  · exact elems_allocate h.elems ha hat.used hat.elem hm he
  · constructor
    · intro q hq
      rw [hroot] at hq
      cases hq
      rw [hat.parent n (hnot r hru).symm]
      exact hp
    · intro q hq
      rw [hroot] at hq
      cases hq
      rw [hat.level, ha.level_n]
      exact le_trans (h.rooted.level r hr) (le_of_lt hlev)
  · intro m c hmu hmb hc
    rw [hat.used, ha.used] at hmu
    rcases hmu with hmu | rfl
    · have hmn := hnot m hmu
      rw [hat.children m hmn, hold m hmu] at hc
      have hcu := (h.links.child m c hmu hc).1
      rcases h.edges m c hmu hmb hc with hcv | ⟨hs, hfar⟩
      · apply Or.inl
        unfold Cov DB.distance
        rw [hk, hat.elem, hat.elem, hat.level, hold m hmu, hold c hcu]
        exact hcv
      · apply Or.inr
        refine ⟨hs, ?_⟩
        intro x hx
        unfold DB.distance
        rw [hk, hat.elem, hat.elem, hat.level, hold m hmu]
        rcases under_attach hat hx with hx | ⟨hcn, -⟩
        · rw [under_allocate h.links ha hcu] at hx
          rw [hold x (under_used h.links hcu hx)]
          exact hfar x hx
        · rw [under_allocate h.links ha hcu] at hcn
          exact absurd (under_used h.links hcu hcn) ha.fresh
    · rw [hat.children_p, ha.children_n, List.nil_append, List.mem_singleton] at hc
      subst hc
      apply Or.inl
      unfold Cov DB.distance
      rw [hk, hat.elem, hat.elem, hat.level, ha.elem_n, ha.level_n, hold c hru]
      exact hcov
  · intro b hb
    obtain ⟨q, hq, hqb⟩ := h.bad_under b hb
    rw [hr] at hq
    cases hq
    refine ⟨n, hroot, ?_⟩
    apply Under.trans (b := r)
    · apply Under.child
      rw [hat.children_p]
      simp
    · apply under_attach_mono hat
      exact (under_allocate h.links ha hru).mpr hqb

/-! ## The descent -/

/-- A candidate lies below the root, and all above it cover the new element. -/
structure Candidate (P : Params X 𝕜) (s : DB X) (e : Nat) (c : Nat × 𝕜) : Prop where
  used : Used s c.1
  level : minLevelBound < (s.nodes c.1).level
  cov : ∀ a, Used s a → Under s a c.1 →
    s.distance P e (s.nodes a).elem ≤ cover (s.nodes a).level

theorem candidate_child {s : DB X} {roots : List Nat} (hl : Links s roots) {e : Nat}
    {c c' : Nat × 𝕜} (h : Candidate P s e c) (hc : c' ∈ coveringChildren P s e c.1) :
    Candidate P s e c' ∧ (s.nodes c'.1).level < (s.nodes c.1).level := by
  unfold coveringChildren at hc
  obtain ⟨x, hx, hxc⟩ := List.mem_filterMap.mp hc
  split at hxc
  · cases hxc
  · rename_i hlow
    dsimp only at hxc
    split at hxc
    · rename_i hcov
      cases hxc
      obtain ⟨h1, -, h3, -⟩ := hl.child c.1 x h.used hx
      refine ⟨⟨h1, not_le.mp hlow, ?_⟩, h3⟩
      intro a ha hax
      rcases under_child hl ha h.used hx hax with rfl | hac
      · exact hcov
      · exact h.cov a ha hac
    · cases hxc

theorem descend_spec {s : DB X} {roots : List Nat} (hl : Links s roots) {e : Nat} :
    ∀ (fuel : Nat) (cs : List (Nat × 𝕜)) (m : 𝕜), cs ≠ [] → (∀ c ∈ cs, Candidate P s e c) →
      (∀ c ∈ cs, (s.nodes c.1).level - minLevelBound < fuel) →
      ∃ cs' m', descend P s e fuel cs m = some (cs', m') ∧ cs' ≠ [] ∧
        ∀ c ∈ cs', Candidate P s e c := by
  intro fuel
  induction fuel with
  | zero =>
    intro cs m hne hc hf
    obtain ⟨c, hcm⟩ := List.exists_mem_of_ne_nil cs hne
    have h1 := (hc c hcm).level
    have h2 := hf c hcm
    omega
  | succ fuel ih =>
    intro cs m hne hc hf
    unfold descend
    dsimp only
    split
    · exact ⟨cs, _, rfl, hne, hc⟩
    · rename_i hnext
      apply ih _ _ hnext
      · intro c' hc'
        obtain ⟨c, hcm, hc'⟩ := List.mem_flatMap.mp hc'
        exact (candidate_child hl (hc c hcm) hc').1
      · intro c' hc'
        obtain ⟨c, hcm, hc'⟩ := List.mem_flatMap.mp hc'
        have h1 := (candidate_child hl (hc c hcm) hc').2
        have h2 := hf c hcm
        omega

omit [Field 𝕜] in
theorem nearest_mem (cs : List (Nat × 𝕜)) (first : Nat × 𝕜) :
    nearest first cs ∈ first :: cs := by
  unfold nearest
  induction cs generalizing first with
  | nil => simp
  | cons c cs ih =>
    rw [List.foldl_cons]
    split
    · exact List.mem_cons_of_mem first (ih c)
    · have h := ih first
      rw [List.mem_cons] at h ⊢
      rw [List.mem_cons]
      tauto

theorem insertFirst_spec {s : DB X} {extra bad : List Nat} {e : Nat}
    (h : Inv P strict s extra bad) (he : ¬ Held s e) (hr : s.root = none) :
    Inv P strict (insertFirst s e) extra bad ∧ Grown s (insertFirst s e) e := by
  have ha := (allocate_spec h.links e 0).setParent none
  unfold insertFirst
  generalize allocateNode s e 0 = a at ha ⊢
  obtain ⟨n, s1⟩ := a
  dsimp only at ha ⊢
  generalize hs2 : s1.setNode n { s1.nodes n with parent := none } = s2 at ha ⊢
  have hp : (s2.nodes n).parent = none := by
    rw [← hs2]
    simp [DB.setNode]
  have hm : Function.update s2.elemToNode e (some n) = Function.update s.elemToNode e (some n) := by
    rw [ha.elemToNode]
  constructor
  · exact inv_first h hr ha rfl rfl rfl hp rfl rfl hm he
  · exact grown_allocate ha (fun x => Iff.rfl) (fun x => rfl) (fun x => rfl) hm rfl rfl rfl

theorem insertAbove_spec [IsStrictOrderedRing 𝕜] (hM : Metric P) {s : DB X}
    {extra bad : List Nat} {e r : Nat} (h : Inv P strict s extra bad) (he : ¬ Held s e)
    (hr : s.root = some r)
    (hd : cover (s.nodes r).level < s.distance P e (s.nodes r).elem) :
    Inv P strict (insertAbove P s e r (s.distance P e (s.nodes r).elem)) extra bad ∧
      Grown s (insertAbove P s e r (s.distance P e (s.nodes r).elem)) e := by
  obtain ⟨hlev, hcov⟩ := cover_ceilLog hM hd
  have hru := root_used h.links hr
  unfold insertAbove
  unfold DB.distance
  dsimp only
  generalize min (max (P.ceilLog (P.dist (s.keys e) (s.keys (s.nodes r).elem)))
    ((s.nodes r).level + 1)) maxLevelBound = needed at hlev hcov ⊢
  have ha := (allocate_spec h.links e needed).setParent none
  generalize allocateNode s e needed = a at ha ⊢
  obtain ⟨n, s1⟩ := a
  dsimp only at ha ⊢
  generalize hs2 : s1.setNode n { s1.nodes n with parent := none } = s2 at ha ⊢
  have hp : (s2.nodes n).parent = none := by
    rw [← hs2]
    simp [DB.setNode]
  have hne : n ≠ r := fun e => ha.fresh (e ▸ hru)
  have hat := attached_children_first s2 hne
  dsimp only at hat
  have hm : Function.update s2.elemToNode e (some n) = Function.update s.elemToNode e (some n) := by
    rw [ha.elemToNode]
  constructor
  · exact inv_root h hr ha (hat.congr rfl rfl rfl) hlev hcov hp rfl ha.keys hm he
  · exact grown_allocate ha hat.used hat.elem hat.level hm rfl rfl rfl

theorem insertBelow_spec [IsStrictOrderedRing 𝕜] (hM : Metric P) {s : DB X}
    {extra bad : List Nat} {e near : Nat} (minCover : 𝕜) (h : Inv P strict s extra bad)
    (he : ¬ Held s e) {d : 𝕜} (hc : Candidate P s e (near, d)) :
    Inv P strict (insertBelow P s e near minCover) extra bad ∧
      Grown s (insertBelow P s e near minCover) e ∧
      (insertBelow P s e near minCover).root = s.root := by
  have hlev : max (min (levelForDist P minCover) ((s.nodes near).level - 1)) minLevelBound
      < (s.nodes near).level := by
    apply max_lt
    · exact lt_of_le_of_lt (min_le_right _ _) (Int.sub_one_lt_iff.mpr le_rfl)
    · exact hc.level
  have hlow : minLevelBound
      ≤ max (min (levelForDist P minCover) ((s.nodes near).level - 1)) minLevelBound :=
    le_max_right _ _
  unfold insertBelow
  dsimp only
  generalize max (min (levelForDist P minCover) ((s.nodes near).level - 1)) minLevelBound = level
    at hlev hlow ⊢
  have ha := allocate_spec h.links e level
  generalize allocateNode s e level = a at ha ⊢
  obtain ⟨n, s1⟩ := a
  dsimp only at ha ⊢
  have hne : near ≠ n := fun e => ha.fresh (e ▸ hc.used)
  have hat := attached_parent_first s1 hne
  dsimp only at hat
  have hm : Function.update s1.elemToNode e (some n) = Function.update s.elemToNode e (some n) := by
    rw [ha.elemToNode]
  refine ⟨?_, ?_, ha.root⟩
  · exact inv_leaf hM h ha (hat.congr rfl rfl rfl) hc.used hlow hlev hc.cov ha.root ha.keys hm he
  · exact grown_allocate ha hat.used hat.elem hat.level hm rfl rfl rfl

theorem insertIntoTree_spec [IsStrictOrderedRing 𝕜] (hM : Metric P) {s : DB X}
    {extra bad : List Nat} {e : Nat} (h : Inv P strict s extra bad) (he : ¬ Held s e) :
    ∃ s', insertIntoTree P s e = some s' ∧ Inv P strict s' extra bad ∧ Grown s s' e := by
  unfold insertIntoTree
  cases hr : s.root with
  | none =>
    obtain ⟨h1, h2⟩ := insertFirst_spec h he hr
    exact ⟨_, rfl, h1, h2⟩
  | some r =>
    have hru := root_used h.links hr
    dsimp only
    split
    · rename_i hd
      obtain ⟨h1, h2⟩ := insertAbove_spec hM h he hr hd
      exact ⟨_, rfl, h1, h2⟩
    · rename_i hd
      have hroot : Candidate P s e (r, s.distance P e (s.nodes r).elem) := by
        refine ⟨hru, ?_, ?_⟩
        · exact lt_of_lt_of_le (by decide) (h.rooted.level r hr)
        · intro a hau har
          have hrm : r ∈ extra ++ s.root.toList := by
            rw [hr]
            simp
          rw [under_root h.links hau hrm har]
          exact not_lt.mp hd
      have hlow := h.links.low r hru
      obtain ⟨cs, m, hdesc, hne, hcs⟩ := descend_spec (P := P) h.links (e := e)
        ((s.nodes r).level - minLevelBound + 1).toNat
        [(r, s.distance P e (s.nodes r).elem)] (s.distance P e (s.nodes r).elem) (by simp)
        (by
          intro c hc
          rw [List.mem_singleton.mp hc]
          exact hroot)
        (by
          intro c hc
          rw [List.mem_singleton.mp hc]
          show (s.nodes r).level - minLevelBound < _
          omega)
      rw [hdesc]
      dsimp only
      have hmem : nearest (cs.headD (r, s.distance P e (s.nodes r).elem)) cs ∈ cs := by
        have h1 := nearest_mem cs (cs.headD (r, s.distance P e (s.nodes r).elem))
        cases cs with
        | nil => exact absurd rfl hne
        | cons c cs =>
          rw [List.headD_cons] at h1 ⊢
          simp only [List.mem_cons] at h1 ⊢
          tauto
      obtain ⟨h1, h2, -⟩ := insertBelow_spec hM m h he (hcs _ hmem)
      exact ⟨_, rfl, h1, h2⟩

end GenVM.VecDb
