import GenVM.VecDb.Reinsert
import GenVM.VecDb.Search

/-!
# Removing an element from the tree

`Mid` is the invariant of the descent: the nodes on the path have got their
child's element and their edges are open, the current node's element is gone.
The edge above the first node of the path is never looked at again: it is in
order when `EdgeAbove` says so of the state before.

**Results.**
* `mid_adopt`: one swap.
* `removeFromTree_spec`: the removal ends, keeps `Inv` and takes the element away.
-/
namespace GenVM.VecDb

variable {X 𝕜 : Type} [Field 𝕜] [LinearOrder 𝕜]
variable {P : Params X 𝕜} {strict : Prop}

structure Mid (P : Params X 𝕜) (strict : Prop) (s : DB X) (cur : Nat) (path : List Nat) : Prop where
  links : Links s s.root.toList
  elems : Elems s (some cur)
  rooted : Rooted s
  edges : ∀ n c, Used s n → n ∉ path → c ∈ (s.nodes n).children → EdgeOk P strict s n c
  under : ∃ r, s.root = some r ∧ Under s r cur
  path_under : ∀ b ∈ path, ∃ r, s.root = some r ∧ Under s r b
  path_level : ∀ b ∈ path, (s.nodes cur).level < (s.nodes b).level
  path_sorted : path.Pairwise fun a b => (s.nodes b).level < (s.nodes a).level
  above : path ≠ [] → ∃ p ∈ path, Used s p ∧ cur ∈ (s.nodes p).children

theorem Mid.cur_used {s : DB X} {cur : Nat} {path : List Nat} (h : Mid P strict s cur path) :
    Used s cur := by
  obtain ⟨r, hr, hu⟩ := h.under
  apply under_used h.links _ hu
  apply h.links.root_used
  rw [hr]
  simp

/-! ## One swap -/

theorem adopt_same (s : DB X) (cur near : Nat) : SameLinks s (adopt s cur near) := by
  have hnode : ∀ n, ((adopt s cur near).nodes n).level = (s.nodes n).level ∧
      ((adopt s cur near).nodes n).children = (s.nodes n).children ∧
      ((adopt s cur near).nodes n).parent = (s.nodes n).parent := by
    intro n
    by_cases hn : n = cur
    · subst hn
      simp [adopt, DB.setNode]
    · simp [adopt, DB.setNode, Function.update_of_ne hn]
  exact ⟨rfl, rfl, fun n => (hnode n).1, fun n => (hnode n).2.1, fun n => (hnode n).2.2⟩

theorem adopt_elem_self (s : DB X) (cur near : Nat) :
    ((adopt s cur near).nodes cur).elem = (s.nodes near).elem := by
  simp [adopt, DB.setNode]

theorem adopt_elem_other (s : DB X) {cur n : Nat} (near : Nat) (h : n ≠ cur) :
    ((adopt s cur near).nodes n).elem = (s.nodes n).elem := by
  simp [adopt, DB.setNode, Function.update_of_ne h]

/-- The elements below a node after a swap were below it before. -/
theorem adopt_elem_under {s : DB X} {cur near a x : Nat}
    (hnear : near ∈ (s.nodes cur).children) (hx : Under s a x) :
    ∃ y, Under s a y ∧ ((adopt s cur near).nodes x).elem = (s.nodes y).elem := by
  by_cases hxc : x = cur
  · subst hxc
    exact ⟨near, hx.tail hnear, adopt_elem_self s x near⟩
  · exact ⟨x, hx, adopt_elem_other s near hxc⟩

theorem elems_adopt {s : DB X} {cur near : Nat} (h : Elems s (some cur)) (hcur : Used s cur)
    (hnear : Used s near) (hne : near ≠ cur) : Elems (adopt s cur near) (some near) := by
  have hsame := adopt_same s cur near
  have hmap : (adopt s cur near).elemToNode
      = Function.update s.elemToNode (s.nodes near).elem (some cur) := rfl
  have hold := h.elem_node near hnear (by simp [hne.symm])
  constructor
  · intro n hn hnn
    rw [hsame.used] at hn
    have hnn : near ≠ n := fun e => hnn (congrArg some e)
    by_cases hnc : n = cur
    · subst hnc
      rw [adopt_elem_self, hmap, Function.update_self]
    · have hn' := h.elem_node n hn (by simp [Ne.symm hnc])
      rw [adopt_elem_other s near hnc, hmap, Function.update_of_ne]
      · exact hn'
      · intro he
        rw [he, hold] at hn'
        exact hnn (Option.some.inj hn')
  · intro e n hn
    rw [hmap] at hn
    rw [hsame.used]
    by_cases he : e = (s.nodes near).elem
    · rw [he, Function.update_self] at hn
      cases hn
      exact ⟨hcur, by simp [hne], by rw [adopt_elem_self, he]⟩
    · rw [Function.update_of_ne he] at hn
      obtain ⟨h1, h2, h3⟩ := h.node_elem e n hn
      have hnc : n ≠ cur := fun e => h2 (congrArg some e.symm)
      refine ⟨h1, ?_, ?_⟩
      · intro hnn
        have hnn : near = n := Option.some.inj hnn
        exact he (by rw [hnn, h3])
      · rw [adopt_elem_other s near hnc]
        exact h3

theorem held_adopt {s : DB X} {cur near : Nat} (h : Elems s (some cur)) (hnear : Used s near)
    (hne : near ≠ cur) (x : Nat) : Held (adopt s cur near) x ↔ Held s x := by
  have hold := h.elem_node near hnear (by simp [hne.symm])
  unfold Held
  show (∃ n, Function.update s.elemToNode (s.nodes near).elem (some cur) x = some n) ↔ _
  by_cases hx : x = (s.nodes near).elem
  · rw [hx, Function.update_self, hold]
    simp
  · rw [Function.update_of_ne hx]

theorem mid_adopt {s : DB X} {cur near : Nat} {path : List Nat} (h : Mid P strict s cur path)
    (hnear : near ∈ (s.nodes cur).children)
    (hfirst : path = [] → ∀ q, Used s q → cur ∈ (s.nodes q).children →
      EdgeOk P strict (adopt s cur near) q cur) :
    Mid P strict (adopt s cur near) near (path ++ [cur]) := by
  have hsame := adopt_same s cur near
  have hcur := h.cur_used
  obtain ⟨hnu, -, hlt, -⟩ := h.links.child cur near hcur hnear
  have hne : near ≠ cur := fun e => lt_irrefl _ (e ▸ hlt)
  obtain ⟨r, hr, hrc⟩ := h.under
  constructor
  · exact hsame.links h.links
  · exact elems_adopt h.elems hcur hnu hne
  · constructor
    · intro r hr
      rw [hsame.parent]
      exact h.rooted.parent r hr
    · intro r hr
      rw [hsame.level]
      exact h.rooted.level r hr
  · intro n c hn hnp hc
    rw [hsame.used] at hn
    rw [hsame.children] at hc
    rw [List.mem_append, List.mem_singleton, not_or] at hnp
    by_cases hcc : c = cur
    · subst hcc
      by_cases hp : path = []
      · exact hfirst hp n hn hc
      · -- the node above the current one is on the path
        obtain ⟨p, hpp, hpu, hpc⟩ := h.above hp
        have h1 := (h.links.child p c hpu hpc).2.1
        have h2 := (h.links.child n c hn hc).2.1
        rw [h1] at h2
        exact absurd (Option.some.inj h2 ▸ hpp) hnp.1
    · rcases h.edges n c hn hnp.1 hc with hcov | ⟨hs, hfar⟩
      · apply Or.inl
        unfold Cov
        rw [adopt_elem_other s near hnp.2, adopt_elem_other s near hcc, hsame.level]
        exact hcov
      · refine .inr ⟨hs, ?_⟩
        intro x hx
        rw [hsame.under] at hx
        obtain ⟨y, hy, hxy⟩ := adopt_elem_under hnear hx
        rw [adopt_elem_other s near hnp.2, hxy, hsame.level]
        exact hfar y hy
  · refine ⟨r, hr, ?_⟩
    rw [hsame.under]
    exact hrc.tail hnear
  · intro b hb
    rcases List.mem_append.mp hb with hb | hb
    · obtain ⟨r', hr', hrb⟩ := h.path_under b hb
      exact ⟨r', hr', hsame.under.mpr hrb⟩
    · rw [List.mem_singleton.mp hb]
      exact ⟨r, hr, hsame.under.mpr hrc⟩
  · intro b hb
    rw [hsame.level, hsame.level]
    rcases List.mem_append.mp hb with hb | hb
    · exact lt_trans hlt (h.path_level b hb)
    · rw [List.mem_singleton.mp hb]
      exact hlt
  · simp only [hsame.level]
    apply List.pairwise_append.mpr
    refine ⟨h.path_sorted, List.pairwise_singleton _ _, ?_⟩
    intro b hb c hc
    rw [List.mem_singleton.mp hc]
    exact h.path_level b hb
  · intro _
    refine ⟨cur, by simp, (hsame.used cur).mpr hcur, ?_⟩
    rw [hsame.children]
    exact hnear

/-- `c` is the first of the children that are nearest to the node. -/
def FirstNearest (P : Params X 𝕜) (s : DB X) (n : Nat) (children : List Nat) (c : Nat) : Prop :=
  ∃ l r, children = l ++ c :: r ∧
    (∀ x ∈ l, s.distance P (s.nodes n).elem (s.nodes c).elem
      < s.distance P (s.nodes n).elem (s.nodes x).elem) ∧
    (∀ x ∈ r, s.distance P (s.nodes n).elem (s.nodes c).elem
      ≤ s.distance P (s.nodes n).elem (s.nodes x).elem)

omit [Field 𝕜] in
theorem nearestChild_first (s : DB X) (n first : Nat) (rest : List Nat) :
    FirstNearest P s n (first :: rest) (nearestChild P s n first rest) := by
  suffices h : ∀ (rest seen : List Nat) (best : Nat), FirstNearest P s n seen best →
      FirstNearest P s n (seen ++ rest) (nearestChild P s n best rest) by
    apply h rest [first] first
    exact ⟨[], [], rfl, by simp, by simp⟩
  intro rest
  induction rest with
  | nil =>
    intro seen best h
    rw [List.append_nil]
    exact h
  | cons c cs ih =>
    intro seen best h
    obtain ⟨l, r, hseen, hl, hr⟩ := h
    unfold nearestChild
    rw [List.foldl_cons, List.append_cons]
    split
    · rename_i hlt
      apply ih (seen ++ [c]) c
      refine ⟨seen, [], rfl, ?_, by simp⟩
      intro x hx
      rw [hseen] at hx
      rcases List.mem_append.mp hx with hx | hx
      · exact lt_trans hlt (hl x hx)
      · rcases List.mem_cons.mp hx with rfl | hx
        · exact hlt
        · exact lt_of_lt_of_le hlt (hr x hx)
    · rename_i hge
      apply ih (seen ++ [c]) best
      refine ⟨l, r ++ [c], by rw [hseen]; simp, hl, ?_⟩
      intro x hx
      rcases List.mem_append.mp hx with hx | hx
      · exact hr x hx
      · rw [List.mem_singleton.mp hx]
        exact not_lt.mp hge

omit [Field 𝕜] in
theorem nearestChild_mem (s : DB X) (n first : Nat) (rest : List Nat) :
    nearestChild P s n first rest ∈ first :: rest := by
  obtain ⟨l, r, h, -⟩ := nearestChild_first (P := P) s n first rest
  rw [h]
  simp

theorem swapDescent_spec : ∀ (fuel : Nat) (s : DB X) (cur : Nat) (path : List Nat),
    Mid P strict s cur path → (s.nodes cur).level - minLevelBound < fuel →
    (path = [] → ∀ c cs, (s.nodes cur).children = c :: cs → ∀ q, Used s q →
      cur ∈ (s.nodes q).children →
        EdgeOk P strict (adopt s cur (nearestChild P s cur c cs)) q cur) →
    ∃ s' leaf path', swapDescent P fuel s cur path = some (s', leaf, path') ∧
      Mid P strict s' leaf path' ∧ (s'.nodes leaf).children = [] ∧
      (∀ x, Held s' x ↔ Held s x) ∧ Kept s s' [] := by
  intro fuel
  induction fuel with
  | zero =>
    intro s cur path h hf _
    have hlow := h.links.low cur h.cur_used
    omega
  | succ fuel ih =>
    intro s cur path h hf hfirst
    unfold swapDescent
    cases hc : (s.nodes cur).children with
    | nil => exact ⟨s, cur, path, rfl, h, hc, fun _ => Iff.rfl, ⟨fun _ _ => rfl, rfl, rfl, rfl⟩⟩
    | cons c cs =>
      dsimp only
      have hnear : nearestChild P s cur c cs ∈ (s.nodes cur).children := by
        rw [hc]
        exact nearestChild_mem s cur c cs
      generalize hn : nearestChild P s cur c cs = near at hnear ⊢
      have hmid := mid_adopt h hnear fun hp q hq hqc => hn ▸ hfirst hp c cs hc q hq hqc
      have hlt := h.links.child cur near h.cur_used hnear
      have hne : near ≠ cur := fun e => lt_irrefl _ (e ▸ hlt.2.2.1)
      obtain ⟨s', leaf, path', h1, h2, h3, h4, h5⟩ := ih (adopt s cur near) near (path ++ [cur])
        hmid (by
          rw [(adopt_same s cur near).level]
          have := hlt.2.2.1
          omega) (by
          intro hp
          simp at hp)
      refine ⟨s', leaf, path', h1, h2, h3, ?_, ?_⟩
      · intro x
        rw [h4, held_adopt h.elems hlt.1 hne]
      · exact ⟨fun _ hb => (List.not_mem_nil hb).elim, h5.keys, h5.keysLen, h5.freeIdx⟩

/-! ## The leaf -/

theorem inv_freed {s s' : DB X} {leaf : Nat} {path : List Nat} (h : Mid P strict s leaf path)
    (hsh : Shrunk s s' [leaf]) (hused : ∀ x, Used s' x ↔ Used s x ∧ x ≠ leaf)
    (hlinks : Links s' s'.root.toList) (hparent : ∀ x, (s'.nodes x).parent = (s.nodes x).parent)
    (hroot : ∀ r, s'.root = some r → s.root = some r)
    (hpath : ∀ b ∈ path, s'.root = s.root)
    (hmap : s'.elemToNode = s.elemToNode) (hkeys : s'.keys = s.keys) :
    Inv P strict s' [] path.reverse := by
  have hleaf := h.cur_used
  constructor
  · exact hlinks
  · constructor
    · intro n hn _
      rw [hused] at hn
      rw [hsh.elem, hmap]
      exact h.elems.elem_node n hn.1 fun e => hn.2 (Option.some.inj e).symm
    · intro e n hn
      rw [hmap] at hn
      obtain ⟨h1, h2, h3⟩ := h.elems.node_elem e n hn
      rw [hused, hsh.elem]
      exact ⟨⟨h1, fun e => h2 (congrArg some e.symm)⟩, by simp, h3⟩
  · constructor
    · intro r hr
      rw [hparent]
      exact h.rooted.parent r (hroot r hr)
    · intro r hr
      rw [hsh.level]
      exact h.rooted.level r (hroot r hr)
  · intro m c hm hmb hc
    rw [hused] at hm
    rw [List.mem_reverse] at hmb
    rcases h.edges m c hm.1 hmb (hsh.sub m c hc) with hcov | ⟨hs, hfar⟩
    · apply Or.inl
      unfold Cov DB.distance
      rw [hkeys, hsh.elem, hsh.elem, hsh.level]
      exact hcov
    · refine .inr ⟨hs, ?_⟩
      intro x hx
      unfold DB.distance
      rw [hkeys, hsh.elem, hsh.elem, hsh.level]
      exact hfar x (under_shrunk hsh hx)
  · intro b hb
    rw [List.mem_reverse] at hb
    obtain ⟨r, hr, hrb⟩ := h.path_under b hb
    refine ⟨r, (hpath b hb).trans hr, ?_⟩
    apply under_shrunk_kept hsh hrb
    intro o ho hob
    rw [List.mem_singleton.mp ho] at hob
    have hlt := h.path_level b hb
    rcases under_level h.links hleaf hob with rfl | hlt'
    · exact lt_irrefl _ hlt
    · exact lt_irrefl _ (lt_trans hlt hlt')

theorem removeLeaf_spec {s : DB X} {leaf : Nat} {path : List Nat} (h : Mid P strict s leaf path)
    (hc : (s.nodes leaf).children = []) :
    Inv P strict (removeLeaf s leaf) [] path.reverse ∧
      (∀ x, Held (removeLeaf s leaf) x ↔ Held s x) ∧ Kept s (removeLeaf s leaf) path := by
  have hleaf := h.cur_used
  unfold removeLeaf
  cases hp : (s.nodes leaf).parent with
  | some p =>
    dsimp only
    have hnr : leaf ∉ s.root.toList := by
      intro hm
      rw [Option.mem_toList] at hm
      rw [h.rooted.parent leaf hm] at hp
      cases hp
    obtain ⟨p', hp', hpu, hpc⟩ := h.links.up leaf hleaf hnr
    rw [hp] at hp'
    cases hp'
    have hlp : leaf ≠ p := fun e => lt_irrefl _ (e ▸ (h.links.child p leaf hpu hpc).2.2.1)
    have hperm : (s.nodes p).children.Perm ((s.nodes p).children.erase leaf ++ [leaf]) :=
      (List.perm_cons_erase hpc).trans (List.perm_append_singleton _ _).symm
    have hl1 := links_detach h.links hpu hperm
    generalize hs1 : s.setNode p { s.nodes p with children := (s.nodes p).children.erase leaf } = s1
      at hl1 ⊢
    have hself : s1.nodes p = { s.nodes p with children := (s.nodes p).children.erase leaf } := by
      rw [← hs1]
      exact Function.update_self _ _ _
    have hnode : ∀ x, x ≠ p → s1.nodes x = s.nodes x := by
      intro x hx
      rw [← hs1]
      exact Function.update_of_ne hx _ _
    have hfree := links_free hl1
    rw [hnode leaf hlp, hc] at hfree
    have hroot : s1.root = s.root := by rw [← hs1]; rfl
    have hmap : s1.elemToNode = s.elemToNode := by rw [← hs1]; rfl
    have hkeys : s1.keys = s.keys := by rw [← hs1]; rfl
    have helem : ∀ x, (s1.nodes x).elem = (s.nodes x).elem := by
      intro x
      by_cases hx : x = p
      · rw [hx, hself]
      · rw [hnode x hx]
    have hlevel : ∀ x, (s1.nodes x).level = (s.nodes x).level := by
      intro x
      by_cases hx : x = p
      · rw [hx, hself]
      · rw [hnode x hx]
    have hparent : ∀ x, (s1.nodes x).parent = (s.nodes x).parent := by
      intro x
      by_cases hx : x = p
      · rw [hx, hself]
      · rw [hnode x hx]
    have hsh : Shrunk s (freeNode s1 leaf) [leaf] := by
      refine ⟨?_, ?_, helem, hlevel⟩
      · intro m c hcm
        have hcm : c ∈ (s1.nodes m).children := hcm
        by_cases hm : m = p
        · rw [hm, hself] at hcm
          rw [hm]
          exact List.mem_of_mem_erase hcm
        · rw [hnode m hm] at hcm
          exact hcm
      · intro m c hcm ho
        show c ∈ (s1.nodes m).children
        by_cases hm : m = p
        · rw [hm] at hcm
          rw [hm, hself]
          exact (List.mem_erase_of_ne (by simpa using ho)).mpr hcm
        · rw [hnode m hm]
          exact hcm
    have hused : ∀ x, Used (freeNode s1 leaf) x ↔ Used s x ∧ x ≠ leaf := by
      intro x
      rw [used_freeNode, ← hs1]
      exact Iff.rfl
    refine ⟨inv_freed h hsh hused ?_ hparent ?_ (fun _ _ => hroot) hmap hkeys, ?_, ?_⟩
    · have hr' : (freeNode s1 leaf).root = s.root := hroot
      rw [hr']
      exact hfree
    · intro r hr
      rw [← hroot]
      exact hr
    · intro x
      unfold Held
      show (∃ n, s1.elemToNode x = some n) ↔ _
      rw [hmap]
    · refine ⟨fun b _ => hlevel b, hkeys, ?_, ?_⟩
      · show s1.keysLen = _
        rw [← hs1]
        rfl
      · show s1.freeIdx = _
        rw [← hs1]
        rfl
  | none =>
    dsimp only
    have hr : s.root = some leaf := by
      by_contra hne
      have hnr : leaf ∉ s.root.toList := by
        rw [Option.mem_toList]
        exact hne
      obtain ⟨q, hq, -⟩ := h.links.up leaf hleaf hnr
      rw [hp] at hq
      cases hq
    have hpath : path = [] := by
      apply List.eq_nil_iff_forall_not_mem.mpr
      intro b hb
      obtain ⟨r, hr', hrb⟩ := h.path_under b hb
      rw [hr] at hr'
      cases hr'
      have hlt := h.path_level b hb
      rcases under_level h.links hleaf hrb with rfl | hlt'
      · exact lt_irrefl _ hlt
      · exact lt_irrefl _ (lt_trans hlt hlt')
    rw [if_pos hr]
    have hl := h.links
    rw [hr] at hl
    have hsame : SameLinks s { s with root := none, maxLevel := 0, minLevel := 0 } :=
      ⟨rfl, rfl, fun _ => rfl, fun _ => rfl, fun _ => rfl⟩
    have hfree : Links (freeNode { s with root := none, maxLevel := 0, minLevel := 0 } leaf)
        ((s.nodes leaf).children.reverse ++ []) := links_free (hsame.links hl)
    rw [hc] at hfree
    refine ⟨inv_freed h ?_ ?_ hfree (fun _ => rfl) ?_ ?_ rfl rfl, ?_, ?_⟩
    · exact ⟨fun _ _ hm => hm, fun _ _ hm _ => hm, fun _ => rfl, fun _ => rfl⟩
    · intro x
      exact used_freeNode _ leaf x
    · intro r hr'
      cases hr'
    · intro b hb
      rw [hpath] at hb
      cases hb
    · intro x
      exact Iff.rfl
    · exact ⟨fun _ _ => rfl, rfl, rfl, rfl⟩

/-! ## The removal -/

/-- The element of the child nearest to the node, which the node is going to
adopt, is covered from above. -/
def EdgeAbove (P : Params X 𝕜) (s : DB X) (n : Nat) : Prop :=
  ∀ q c, (s.nodes n).parent = some q → FirstNearest P s n (s.nodes n).children c →
    s.distance P (s.nodes q).elem (s.nodes c).elem ≤ cover (s.nodes q).level

variable [IsStrictOrderedRing 𝕜]

/-- The edge above the first swap is in order afterwards: the condition says
so, or everything below was within the bound and still is. -/
theorem edge_above (hM : Metric P) {s : DB X} {n : Nat} (hl : Links s s.root.toList)
    (hedges : ∀ n c, Used s n → c ∈ (s.nodes n).children → EdgeOk P strict s n c)
    (hcond : strict → EdgeAbove P s n) {c : Nat} {cs : List Nat}
    (hc : (s.nodes n).children = c :: cs) {q : Nat} (hq : Used s q)
    (hqn : n ∈ (s.nodes q).children) :
    EdgeOk P strict (adopt s n (nearestChild P s n c cs)) q n := by
  have hnear : nearestChild P s n c cs ∈ (s.nodes n).children := by
    rw [hc]
    exact nearestChild_mem s n c cs
  have hlt := (hl.child q n hq hqn).2.2.1
  have hne : q ≠ n := fun e => lt_irrefl _ (e ▸ hlt)
  by_cases hs : strict
  · apply Or.inl
    unfold Cov
    rw [adopt_elem_self, adopt_elem_other s _ hne, (adopt_same s n _).level]
    apply hcond hs q _ (hl.child q n hq hqn).2.1
    rw [hc]
    exact nearestChild_first s n c cs
  · refine .inr ⟨hs, ?_⟩
    intro x hx
    rw [(adopt_same s n _).under] at hx
    obtain ⟨y, hy, hxy⟩ := adopt_elem_under hnear hx
    rw [adopt_elem_other s _ hne, hxy, (adopt_same s n _).level]
    exact within_of_edges hM hl hedges hq ((Under.child hqn).trans hy)

theorem removeNode_spec (hM : Metric P) {s : DB X} {n : Nat} (h : Mid P strict s n [])
    (hcond : strict → EdgeAbove P s n) :
    ∃ s', removeNode P s n = some s' ∧ Inv P strict s' [] [] ∧
      (∀ x, Held s' x ↔ Held s x) ∧ Kept s s' [] := by
  have hn := h.cur_used
  have hlow := h.links.low n hn
  obtain ⟨s1, leaf, path, h1, h2, h3, h4, h5⟩ := swapDescent_spec
    ((s.nodes n).level - minLevelBound + 1).toNat s n [] h (by omega)
    (fun _ c cs hc q hq hqn => edge_above hM h.links
      (fun m x hm hx => h.edges m x hm (List.not_mem_nil) hx) hcond hc hq hqn)
  obtain ⟨h6, h7, h8⟩ := removeLeaf_spec h2 h3
  have hsorted : path.reverse.Pairwise
      fun a b => ((removeLeaf s1 leaf).nodes a).level < ((removeLeaf s1 leaf).nodes b).level := by
    rw [List.pairwise_reverse]
    apply h2.path_sorted.imp_of_mem
    intro a b ha hb hab
    rw [h8.level a ha, h8.level b hb]
    exact hab
  obtain ⟨s2, h9, h10, h11, h12⟩ := repair_spec hM _ _ h6 hsorted
  refine ⟨s2, ?_, h10, ?_, ?_⟩
  · unfold removeNode
    rw [h1]
    exact h9
  · intro x
    rw [h11, h7, h4]
  · exact ⟨fun _ hb => (List.not_mem_nil hb).elim, h12.keys.trans (h8.keys.trans h5.keys),
      h12.keysLen.trans (h8.keysLen.trans h5.keysLen),
      h12.freeIdx.trans (h8.freeIdx.trans h5.freeIdx)⟩

theorem removeFromTree_spec (hM : Metric P) {s : DB X} {e : Nat} (h : Inv P strict s [] [])
    (hcond : strict → ∀ n, s.elemToNode e = some n → EdgeAbove P s n) :
    ∃ s', removeFromTree P s e = some s' ∧ Inv P strict s' [] [] ∧
      (∀ x, Held s' x ↔ Held s x ∧ x ≠ e) ∧ Kept s s' [] := by
  have hlinks : Links s s.root.toList := h.links
  unfold removeFromTree
  cases hn : s.elemToNode e with
  | none =>
    have he : ∀ n, Used s n → (s.nodes n).elem ≠ e := by
      intro n hu he
      have h1 := h.elems.elem_node n hu (by simp)
      rw [he, hn] at h1
      cases h1
    have hnone := findNodeById_none hlinks he (s.nodesLen + 1) s.root.toList
      (frontier_root h.links) (Nat.lt_succ_of_le (below_card_le s _))
    dsimp only
    rw [hnone]
    refine ⟨s, rfl, h, ?_, ⟨fun _ _ => rfl, rfl, rfl, rfl⟩⟩
    intro x
    constructor
    · intro hx
      refine ⟨hx, ?_⟩
      rintro rfl
      obtain ⟨n, hx⟩ := hx
      rw [hn] at hx
      cases hx
    · exact fun hx => hx.1
  | some n =>
    dsimp only
    obtain ⟨hnu, -, hne⟩ := h.elems.node_elem e n hn
    generalize hs1 : ({ s with elemToNode := Function.update s.elemToNode e none } : DB X) = s1
    have hnodes : s1.nodes = s.nodes := by rw [← hs1]
    have hroot : s1.root = s.root := by rw [← hs1]
    have hkeys : s1.keys = s.keys := by rw [← hs1]
    have hmap : s1.elemToNode = Function.update s.elemToNode e none := by rw [← hs1]
    have hsame : SameLinks s s1 := by
      rw [← hs1]
      exact ⟨rfl, rfl, fun _ => rfl, fun _ => rfl, fun _ => rfl⟩
    have hkept : Kept s s1 [] := by
      rw [← hs1]
      exact ⟨fun _ _ => rfl, rfl, rfl, rfl⟩
    have hmid : Mid P strict s1 n [] := by
      constructor
      · rw [hroot]
        exact hsame.links hlinks
      · constructor
        · intro m hm hmn
          rw [hsame.used] at hm
          have hold := h.elems.elem_node m hm (by simp)
          rw [hnodes, hmap, Function.update_of_ne]
          · exact hold
          · intro hme
            rw [hme, hn] at hold
            exact hmn hold
        · intro x m hm
          rw [hmap] at hm
          by_cases hx : x = e
          · rw [hx, Function.update_self] at hm
            cases hm
          · rw [Function.update_of_ne hx] at hm
            obtain ⟨h1, -, h3⟩ := h.elems.node_elem x m hm
            rw [hsame.used, hnodes]
            refine ⟨h1, ?_, h3⟩
            intro hnm
            rw [← Option.some.inj hnm, hne] at h3
            exact hx h3.symm
      · constructor
        · intro r hr
          rw [hnodes]
          exact h.rooted.parent r (hroot ▸ hr)
        · intro r hr
          rw [hnodes]
          exact h.rooted.level r (hroot ▸ hr)
      · intro m c hm _ hc
        rw [hsame.used] at hm
        rw [hnodes] at hc
        have hok := h.edges m c hm (List.not_mem_nil) hc
        unfold EdgeOk Cov Far DB.distance at hok ⊢
        simp only [hkeys, hnodes, hsame.under]
        exact hok
      · obtain ⟨r, hr, hrn⟩ := under_some_root hlinks hnu
        exact ⟨r, hroot.trans (Option.mem_toList.mp hr), hsame.under.mpr hrn⟩
      · exact fun b hb => (List.not_mem_nil hb).elim
      · exact fun b hb => (List.not_mem_nil hb).elim
      · exact List.Pairwise.nil
      · exact fun hp => absurd rfl hp
    have hcond1 : strict → EdgeAbove P s1 n := by
      intro hs
      have hold := hcond hs n hn
      rw [← hs1]
      exact hold
    obtain ⟨s2, h1, h2, h3, h4⟩ := removeNode_spec hM hmid hcond1
    refine ⟨s2, h1, h2, ?_, hkept.trans h4⟩
    intro x
    rw [h3]
    unfold Held
    rw [hmap]
    by_cases hx : x = e
    · simp [hx]
    · simp [hx]

end GenVM.VecDb
