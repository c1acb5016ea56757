import GenVM.VecDb.Insert

/-!
# Repairing the nodes whose element was swapped

Going back up, a removal detaches the children a node no longer covers, frees
their subtrees and inserts their elements anew. The nodes still to be checked
lie above, on higher levels, below the root: they are never freed.

**Results.**
* `collect_spec`: a detached subtree is freed and its elements are listed.
* `repair_spec`: after the last node every edge is in order again.
-/
namespace GenVM.VecDb

variable {X 𝕜 : Type} [Field 𝕜] [LinearOrder 𝕜]
variable {P : Params X 𝕜} {strict : Prop}

/-- What a repair leaves as it was. -/
structure Kept (s s' : DB X) (bad : List Nat) : Prop where
  level : ∀ b ∈ bad, (s'.nodes b).level = (s.nodes b).level
  keys : s'.keys = s.keys
  keysLen : s'.keysLen = s.keysLen
  freeIdx : s'.freeIdx = s.freeIdx

theorem Kept.trans {s s' s'' : DB X} {bad : List Nat} (h1 : Kept s s' bad)
    (h2 : Kept s' s'' bad) : Kept s s'' bad where
  level b hb := (h2.level b hb).trans (h1.level b hb)
  keys := h2.keys.trans h1.keys
  keysLen := h2.keysLen.trans h1.keysLen
  freeIdx := h2.freeIdx.trans h1.freeIdx

theorem setAdd_length {x : Nat} {l : List Nat} (h : x ∉ l) :
    (setAdd x l).length = l.length + 1 := by
  unfold setAdd
  rw [if_neg h]
  exact List.orderedInsert_length _ _ _

theorem free_length_le {s : DB X} {roots : List Nat} (h : Links s roots) :
    s.freeNodes.length ≤ s.nodesLen := by
  have hsub : s.freeNodes ⊆ List.range s.nodesLen :=
    fun n hn => List.mem_range.mpr (h.free_lt n hn)
  have hle := (h.free_nodup.subperm hsub).length_le
  rw [List.length_range] at hle
  exact hle

/-! ## Collecting -/

/-- One round of `collect`. -/
def pop (s : DB X) (n : Nat) : DB X :=
  freeNode { s with elemToNode := Function.update s.elemToNode (s.nodes n).elem none } n

theorem inv_pop {s : DB X} {extra bad : List Nat} {n : Nat}
    (h : Inv P strict s (n :: extra) bad) :
    Inv P strict (pop s n) ((s.nodes n).children.reverse ++ extra) bad := by
  have hn : Used s n := h.links.root_used n (by simp)
  have hused : ∀ x, Used (pop s n) x ↔ Used s x ∧ x ≠ n := fun x => used_freeNode _ n x
  have hself := h.elems.elem_node n hn (by simp)
  constructor
  · have hsame : SameLinks s
        { s with elemToNode := Function.update s.elemToNode (s.nodes n).elem none } :=
      ⟨rfl, rfl, fun _ => rfl, fun _ => rfl, fun _ => rfl⟩
    have hl := links_free (hsame.links h.links)
    rw [List.append_assoc]
    exact hl
  · constructor
    · intro m hm _
      rw [hused] at hm
      have hold := h.elems.elem_node m hm.1 (by simp)
      show Function.update _ _ _ _ = _
      rw [Function.update_of_ne]
      · exact hold
      · intro he
        have he : (s.nodes m).elem = (s.nodes n).elem := he
        rw [he, hself] at hold
        exact hm.2 (Option.some.inj hold).symm
    · intro e m hm
      have hm : Function.update s.elemToNode (s.nodes n).elem none e = some m := hm
      by_cases he : e = (s.nodes n).elem
      · rw [he, Function.update_self] at hm
        cases hm
      · rw [Function.update_of_ne he] at hm
        obtain ⟨h1, h2, h3⟩ := h.elems.node_elem e m hm
        rw [hused]
        exact ⟨⟨h1, fun e' => he (e' ▸ h3.symm)⟩, h2, h3⟩
  · exact ⟨h.rooted.parent, h.rooted.level⟩
  · intro m c hm hmb hc
    exact h.edges m c ((hused m).mp hm).1 hmb hc
  · exact h.bad_under

theorem held_pop {s : DB X} {extra bad : List Nat} {n : Nat}
    (h : Inv P strict s (n :: extra) bad) (x : Nat) :
    (Held s x ↔ x = (s.nodes n).elem ∨ Held (pop s n) x) ∧
      (x = (s.nodes n).elem → ¬ Held (pop s n) x) := by
  have hn : Used s n := h.links.root_used n (by simp)
  have hself := h.elems.elem_node n hn (by simp)
  have hp : Held (pop s n) x ↔ x ≠ (s.nodes n).elem ∧ Held s x := by
    unfold Held
    show (∃ m, Function.update s.elemToNode (s.nodes n).elem none x = some m) ↔ _
    by_cases hx : x = (s.nodes n).elem
    · simp [hx]
    · simp [hx]
  constructor
  · rw [hp]
    constructor
    · intro hx
      by_cases he : x = (s.nodes n).elem
      · exact .inl he
      · exact .inr ⟨he, hx⟩
    · intro hx
      rcases hx with rfl | hx
      · exact ⟨n, hself⟩
      · exact hx.2
  · intro he hx
    exact (hp.mp hx).1 he

theorem collect_spec : ∀ (fuel : Nat) (s : DB X) (stack elements extra bad : List Nat),
    Inv P strict s (stack ++ extra) bad → s.nodesLen < fuel + s.freeNodes.length →
    ∃ s' es, collect fuel s stack elements = some (s', elements ++ es) ∧
      Inv P strict s' extra bad ∧ es.Nodup ∧ (∀ x, Held s x ↔ x ∈ es ∨ Held s' x) ∧
      (∀ x ∈ es, ¬ Held s' x) ∧ Kept s s' bad := by
  intro fuel
  induction fuel with
  | zero =>
    intro s stack elements extra bad h hf
    have hle := free_length_le h.links
    omega
  | succ fuel ih =>
    intro s stack elements extra bad h hf
    cases stack with
    | nil =>
      refine ⟨s, [], by simp [collect], h, List.nodup_nil, by simp, by simp, ?_⟩
      exact ⟨fun _ _ => rfl, rfl, rfl, rfl⟩
    | cons n stack =>
      have hn : Used s n := h.links.root_used n (by simp)
      have hpop : Inv P strict (pop s n) ((s.nodes n).children.reverse ++ (stack ++ extra)) bad :=
        inv_pop h
      rw [← List.append_assoc] at hpop
      have hlen : (pop s n).freeNodes.length = s.freeNodes.length + 1 := setAdd_length hn.2
      have hfuel : (pop s n).nodesLen < fuel + (pop s n).freeNodes.length := by
        rw [hlen]
        show s.nodesLen < _
        omega
      obtain ⟨s', es, h1, h2, h3, h4, h5, h6⟩ := ih (pop s n) _ (elements ++ [(s.nodes n).elem])
        extra bad hpop hfuel
      refine ⟨s', (s.nodes n).elem :: es, ?_, h2, ?_, ?_, ?_, ?_⟩
      · rw [List.append_cons]
        exact h1
      · apply List.nodup_cons.mpr
        refine ⟨?_, h3⟩
        intro hm
        exact (held_pop h _).2 rfl ((h4 _).mpr (.inl hm))
      · intro x
        rw [(held_pop h x).1, h4, List.mem_cons, or_assoc]
      · intro x hx hx'
        rcases List.mem_cons.mp hx with rfl | hx
        · exact (held_pop h _).2 rfl ((h4 _).mpr (.inr hx'))
        · exact h5 x hx hx'
      · have hk : Kept s (pop s n) bad := ⟨fun _ _ => rfl, rfl, rfl, rfl⟩
        exact hk.trans h6

/-! ## Inserting anew -/

theorem Grown.kept {s s' : DB X} {extra bad : List Nat} {e : Nat}
    (h : Inv P strict s extra bad) (hg : Grown s s' e) : Kept s s' bad where
  level b hb := hg.level b (h.bad_used hb)
  keys := hg.keys
  keysLen := hg.keysLen
  freeIdx := hg.freeIdx

variable [IsStrictOrderedRing 𝕜]

theorem insertAll_spec (hM : Metric P) {extra bad : List Nat} :
    ∀ (es : List Nat) (s : DB X), Inv P strict s extra bad → es.Nodup → (∀ x ∈ es, ¬ Held s x) →
      ∃ s', insertAll P s es = some s' ∧ Inv P strict s' extra bad ∧
        (∀ x, Held s' x ↔ x ∈ es ∨ Held s x) ∧ Kept s s' bad := by
  intro es
  induction es with
  | nil =>
    intro s h _ _
    exact ⟨s, rfl, h, by simp, ⟨fun _ _ => rfl, rfl, rfl, rfl⟩⟩
  | cons e es ih =>
    intro s h hd hh
    obtain ⟨hne, hd⟩ := List.nodup_cons.mp hd
    obtain ⟨s1, h1, h2, h3⟩ := insertIntoTree_spec hM h (hh e (by simp))
    obtain ⟨s2, h4, h5, h6, h7⟩ := ih s1 h2 hd (by
      intro x hx hx1
      rcases (h3.held x).mp hx1 with rfl | hx1
      · exact hne hx
      · exact hh x (by simp [hx]) hx1)
    refine ⟨s2, ?_, h5, ?_, Kept.trans (h3.kept h) h7⟩
    · unfold insertAll
      rw [h1]
      exact h4
    · intro x
      rw [h6, h3.held, List.mem_cons]
      tauto

theorem reinsertSubtree_spec (hM : Metric P) {s : DB X} {extra bad : List Nat} {n : Nat}
    (h : Inv P strict s (n :: extra) bad) :
    ∃ s', reinsertSubtree P s n = some s' ∧ Inv P strict s' extra bad ∧
      (∀ x, Held s' x ↔ Held s x) ∧ Kept s s' bad := by
  obtain ⟨s1, es, h1, h2, h3, h4, h5, h6⟩ := collect_spec (s.nodesLen + 1) s [n] [] extra bad h
    (by omega)
  obtain ⟨s2, h7, h8, h9, h10⟩ := insertAll_spec hM es s1 h2 h3 h5
  refine ⟨s2, ?_, h8, ?_, h6.trans h10⟩
  · unfold reinsertSubtree
    rw [h1]
    exact h7
  · intro x
    rw [h9, h4]

theorem reinsertAll_spec (hM : Metric P) {extra bad : List Nat} :
    ∀ (ns : List Nat) (s : DB X), Inv P strict s (ns ++ extra) bad →
      ∃ s', reinsertAll P s ns = some s' ∧ Inv P strict s' extra bad ∧
        (∀ x, Held s' x ↔ Held s x) ∧ Kept s s' bad := by
  intro ns
  induction ns with
  | nil =>
    intro s h
    exact ⟨s, rfl, h, fun _ => Iff.rfl, ⟨fun _ _ => rfl, rfl, rfl, rfl⟩⟩
  | cons n ns ih =>
    intro s h
    obtain ⟨s1, h1, h2, h3, h4⟩ := reinsertSubtree_spec hM h
    obtain ⟨s2, h5, h6, h7, h8⟩ := ih s1 h2
    refine ⟨s2, ?_, h6, ?_, h4.trans h8⟩
    · unfold reinsertAll
      rw [h1]
      exact h5
    · intro x
      rw [h7, h3]

/-! ## Walking back up -/

omit [IsStrictOrderedRing 𝕜] in
theorem mem_uncovered {s : DB X} {n c : Nat} (hc : c ∈ (s.nodes n).children) :
    c ∈ uncovered P s n ↔ ¬ Cov P s n c := by
  unfold uncovered Cov
  rw [List.mem_filter, decide_eq_true_eq, gt_iff_lt, not_le]
  exact ⟨fun h => h.2, fun h => ⟨hc, h⟩⟩

omit [IsStrictOrderedRing 𝕜] in
theorem inv_detach {s : DB X} {extra bad : List Nat} {n : Nat}
    (h : Inv P strict s extra (n :: bad)) (hb : ∀ b ∈ bad, (s.nodes n).level < (s.nodes b).level) :
    Inv P strict (detachUncovered P s n) (uncovered P s n ++ extra) bad := by
  have hn : Used s n := h.bad_used (by simp)
  have hout : ∀ o ∈ uncovered P s n, o ∈ (s.nodes n).children :=
    fun o ho => (List.mem_filter.mp ho).1
  have hpart : (s.nodes n).children.Perm
      ((s.nodes n).children.filter (· ∉ uncovered P s n) ++ uncovered P s n) := by
    have h1 : uncovered P s n = (s.nodes n).children.filter (· ∈ uncovered P s n) := by
      unfold uncovered
      apply List.filter_congr
      intro c hc
      simp [hc]
    have h2 := List.filter_append_perm (fun c => decide (c ∉ uncovered P s n)) (s.nodes n).children
    have h3 : (s.nodes n).children.filter (fun c => !decide (c ∉ uncovered P s n))
        = uncovered P s n := by
      conv_rhs => rw [h1]
      apply List.filter_congr
      intro c _
      simp
    rw [h3] at h2
    exact h2.symm
  have hl : Links (detachUncovered P s n) (uncovered P s n ++ (extra ++ s.root.toList)) :=
    links_detach h.links hn hpart
  have hnode : ∀ x, x ≠ n → (detachUncovered P s n).nodes x = s.nodes x :=
    fun x hx => Function.update_of_ne hx _ _
  have hself : (detachUncovered P s n).nodes n
      = { s.nodes n with children := (s.nodes n).children.filter (· ∉ uncovered P s n) } :=
    Function.update_self _ _ _
  have hroot : (detachUncovered P s n).root = s.root := rfl
  have hmap : (detachUncovered P s n).elemToNode = s.elemToNode := rfl
  have hkeys : (detachUncovered P s n).keys = s.keys := rfl
  have hused : ∀ x, Used (detachUncovered P s n) x ↔ Used s x := fun x => Iff.rfl
  generalize detachUncovered P s n = s' at *
  have helem : ∀ x, (s'.nodes x).elem = (s.nodes x).elem := by
    intro x
    by_cases hx : x = n
    · rw [hx, hself]
    · rw [hnode x hx]
  have hlevel : ∀ x, (s'.nodes x).level = (s.nodes x).level := by
    intro x
    by_cases hx : x = n
    · rw [hx, hself]
    · rw [hnode x hx]
  have hparent : ∀ x, (s'.nodes x).parent = (s.nodes x).parent := by
    intro x
    by_cases hx : x = n
    · rw [hx, hself]
    · rw [hnode x hx]
  have hshrunk : Shrunk s s' (uncovered P s n) := by
    refine ⟨?_, ?_, helem, hlevel⟩
    · intro m c hc
      by_cases hm : m = n
      · rw [hm, hself] at hc
        rw [hm]
        exact (List.mem_filter.mp hc).1
      · rw [hnode m hm] at hc
        exact hc
    · intro m c hc ho
      by_cases hm : m = n
      · rw [hm] at hc
        rw [hm, hself]
        exact List.mem_filter.mpr ⟨hc, by simpa using ho⟩
      · rw [hnode m hm]
        exact hc
  constructor
  · rw [List.append_assoc, hroot]
    exact hl
  · constructor
    · intro m hm hh
      rw [helem, hmap]
      exact h.elems.elem_node m ((hused m).mp hm) hh
    · intro e m hm
      rw [hmap] at hm
      rw [hused, helem]
      exact h.elems.node_elem e m hm
  · constructor
    · intro r hr
      rw [hparent]
      exact h.rooted.parent r (hroot ▸ hr)
    · intro r hr
      rw [hlevel]
      exact h.rooted.level r (hroot ▸ hr)
  · intro m c hm hmb hc
    have hcs := hshrunk.sub m c hc
    have hcov : Cov P s m c → Cov P s' m c := by
      unfold Cov DB.distance
      rw [hkeys, helem, helem, hlevel]
      exact id
    by_cases hmn : m = n
    · apply Or.inl
      rw [hmn] at hcs hc hcov ⊢
      apply hcov
      by_contra hnc
      rw [hself] at hc
      have hcn := (List.mem_filter.mp hc).2
      exact (of_decide_eq_true hcn) ((mem_uncovered hcs).mpr hnc)
    · rcases h.edges m c ((hused m).mp hm) (by simp [hmn, hmb]) hcs with hcv | ⟨hs, hfar⟩
      · exact .inl (hcov hcv)
      · refine .inr ⟨hs, ?_⟩
        intro x hx
        unfold DB.distance
        rw [hkeys, helem, helem, hlevel]
        exact hfar x (under_shrunk hshrunk hx)
  · intro b hbm
    obtain ⟨r, hr, hrb⟩ := h.bad_under b (by simp [hbm])
    refine ⟨r, hroot.trans hr, ?_⟩
    apply under_shrunk_kept hshrunk hrb
    -- the nodes still to be checked lie on higher levels than the detached ones
    intro o ho hob
    obtain ⟨hou, -, hlt, -⟩ := h.links.child n o hn (hout o ho)
    have hnb := hb b hbm
    rcases under_level h.links hou hob with rfl | hlt'
    · omega
    · omega

theorem repairNode_spec (hM : Metric P) {s : DB X} {extra bad : List Nat} {n : Nat}
    (h : Inv P strict s extra (n :: bad)) (hb : ∀ b ∈ bad, (s.nodes n).level < (s.nodes b).level) :
    ∃ s', repairNode P s n = some s' ∧ Inv P strict s' extra bad ∧
      (∀ x, Held s' x ↔ Held s x) ∧ Kept s s' bad := by
  have h1 := inv_detach h hb
  obtain ⟨s', h2, h3, h4, h5⟩ := reinsertAll_spec hM _ _ h1
  have hk : Kept s (detachUncovered P s n) bad := by
    refine ⟨?_, rfl, rfl, rfl⟩
    intro b hbm
    have hbn : b ≠ n := fun e => lt_irrefl _ (e ▸ hb b hbm)
    have hnode : (detachUncovered P s n).nodes b = s.nodes b := Function.update_of_ne hbn _ _
    rw [hnode]
  exact ⟨s', h2, h3, h4, hk.trans h5⟩

theorem repair_spec (hM : Metric P) {extra : List Nat} :
    ∀ (ns : List Nat) (s : DB X), Inv P strict s extra ns →
      ns.Pairwise (fun a b => (s.nodes a).level < (s.nodes b).level) →
      ∃ s', repair P s ns = some s' ∧ Inv P strict s' extra [] ∧
        (∀ x, Held s' x ↔ Held s x) ∧ Kept s s' [] := by
  intro ns
  induction ns with
  | nil =>
    intro s h _
    exact ⟨s, rfl, h, fun _ => Iff.rfl, ⟨fun _ _ => rfl, rfl, rfl, rfl⟩⟩
  | cons n ns ih =>
    intro s h hs
    obtain ⟨hn, hs⟩ := List.pairwise_cons.mp hs
    obtain ⟨s1, h1, h2, h3, h4⟩ := repairNode_spec hM h hn
    have hs1 : ns.Pairwise (fun a b => (s1.nodes a).level < (s1.nodes b).level) := by
      apply hs.imp_of_mem
      intro a b ha hb hab
      rw [h4.level a ha, h4.level b hb]
      exact hab
    obtain ⟨s2, h5, h6, h7, h8⟩ := ih s1 h2 hs1
    refine ⟨s2, ?_, h6, ?_, ?_⟩
    · unfold repair
      rw [h1]
      exact h5
    · intro x
      rw [h7, h3]
    · exact ⟨fun b hb => (List.not_mem_nil hb).elim, h8.keys.trans h4.keys,
        h8.keysLen.trans h4.keysLen, h8.freeIdx.trans h4.freeIdx⟩

end GenVM.VecDb
