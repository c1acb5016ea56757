import GenVM.VecDb.Remove

/-!
# Runs of the store

A run is any list of insertions and removals, from a store nothing was put
in. Every operation ends; the bookkeeping of the tree is right after every
run. The covering of each edge is kept by runs whose removals are `Guarded`: a
removal replaces the element of a node, and looks at the edges below that
node and never at the one above it.

**Results.**
* `run_good`: the invariant after a run, and what the store holds then.
* `run_tree`: what was put in and not taken out, the structure of the tree, and
  its covering under the guard.
* `uncovered_edge`: four operations after which an edge is not covered.
-/
namespace GenVM.VecDb

variable {X 𝕜 : Type} [Field 𝕜] [LinearOrder 𝕜]

inductive Op (X : Type) where
  | insert (key : X)
  | remove (id : Nat)

/-- One operation. A handle to remove by exists for the ids that were given out. -/
def step (P : Params X 𝕜) (s : DB X) : Op X → Option (DB X)
  | .insert key => (insert P s key).map Prod.fst
  | .remove e => if e < s.keysLen then remove P s e else some s

def run (P : Params X 𝕜) : DB X → List (Op X) → Option (DB X)
  | s, [] => some s
  | s, op :: ops => (step P s op).bind fun s => run P s ops

/-! ## What a run keeps -/

/-- `get_by_id_or_none` finds the element, mirrors vecdb.py:203-208. -/
def Live (s : DB X) (e : Nat) : Prop := e < s.keysLen ∧ e ∉ s.freeIdx

instance (s : DB X) (e : Nat) : Decidable (Live s e) :=
  inferInstanceAs (Decidable (e < s.keysLen ∧ e ∉ s.freeIdx))

/-- What the store holds, by id. -/
def contents (s : DB X) : Nat → Option X := fun e => if Live s e then some (s.keys e) else none

/-- What operations leave in a store that holds `m`: an insertion puts its key
under an id that is not there, a removal takes its id away. -/
inductive Stores : (Nat → Option X) → List (Op X) → (Nat → Option X) → Prop
  | nil (m : Nat → Option X) : Stores m [] m
  | insert {m m' : Nat → Option X} {ops : List (Op X)} {i : Nat} {key : X} (hi : m i = none)
      (h : Stores (Function.update m i (some key)) ops m') : Stores m (.insert key :: ops) m'
  | remove {m m' : Nat → Option X} {ops : List (Op X)} {e : Nat}
      (h : Stores (Function.update m e none) ops m') : Stores m (.remove e :: ops) m'

structure Good (P : Params X 𝕜) (strict : Prop) (s : DB X) : Prop where
  inv : Inv P strict s [] []
  held : ∀ e, Held s e ↔ Live s e
  free_lt : ∀ e ∈ s.freeIdx, e < s.keysLen
  free_nodup : s.freeIdx.Nodup

/-- What a removal asks of the state before it. -/
def Guard (P : Params X 𝕜) (s : DB X) : Op X → Prop
  | .insert _ => True
  | .remove e => ∀ n, s.elemToNode e = some n → EdgeAbove P s n

def Guarded (P : Params X 𝕜) : DB X → List (Op X) → Prop
  | _, [] => True
  | s, op :: ops => Guard P s op ∧ ∀ s', step P s op = some s' → Guarded P s' ops

variable {P : Params X 𝕜} {strict : Prop}

theorem good_empty (x : X) : Good P strict (DB.empty x) := by
  have hnone : ∀ n, ¬ Used (DB.empty x) n := fun n hn => absurd hn.1 (Nat.not_lt_zero n)
  constructor
  · constructor
    · constructor
      · exact fun r hr => (List.not_mem_nil hr).elim
      · exact List.nodup_nil
      · exact fun n c hn => absurd hn (hnone n)
      · exact fun n hn => absurd hn (hnone n)
      · exact fun n hn => absurd hn (hnone n)
      · exact fun n hn => absurd hn (hnone n)
      · exact fun n hn => (List.not_mem_nil hn).elim
      · exact List.nodup_nil
    · constructor
      · exact fun n hn => absurd hn (hnone n)
      · intro e n hn
        cases hn
    · constructor
      · intro r hr
        cases hr
      · intro r hr
        cases hr
    · exact fun n c hn => absurd hn (hnone n)
    · exact fun b hb => (List.not_mem_nil hb).elim
  · intro e
    constructor
    · intro h
      obtain ⟨n, h⟩ := h
      cases h
    · exact fun h => absurd h.1 (Nat.not_lt_zero e)
  · exact fun e he => (List.not_mem_nil he).elim
  · exact List.nodup_nil

theorem contents_empty (x : X) : contents (DB.empty x) = fun _ => none := by
  funext e
  exact if_neg fun h => Nat.not_lt_zero e h.1

theorem contents_insert {s s' : DB X} {i : Nat} {key : X} (hlive : ∀ e, Live s' e ↔ e = i ∨ Live s e)
    (hkeys : s'.keys = Function.update s.keys i key) :
    contents s' = Function.update (contents s) i (some key) := by
  funext e
  unfold contents
  rw [hkeys]
  by_cases he : e = i
  · subst he
    rw [if_pos ((hlive e).mpr (.inl rfl)), Function.update_self, Function.update_self]
  · rw [Function.update_of_ne he, Function.update_of_ne he]
    exact if_congr ((hlive e).trans (or_iff_right he)) rfl rfl

theorem contents_remove {s s' : DB X} {e : Nat} (hlive : ∀ x, Live s' x ↔ Live s x ∧ x ≠ e)
    (hkeys : s'.keys = s.keys) : contents s' = Function.update (contents s) e none := by
  funext x
  unfold contents
  rw [hkeys]
  by_cases hx : x = e
  · subst hx
    rw [if_neg fun h => ((hlive x).mp h).2 rfl, Function.update_self]
  · rw [Function.update_of_ne hx]
    exact if_congr ((hlive x).trans (and_iff_left hx)) rfl rfl

/-- Writing the key of an element no node holds. -/
theorem inv_key {s s' : DB X} {i : Nat} {key : X} (h : Inv P strict s [] []) (hi : ¬ Held s i)
    (hn : s'.nodes = s.nodes) (hl : s'.nodesLen = s.nodesLen) (hf : s'.freeNodes = s.freeNodes)
    (hm : s'.elemToNode = s.elemToNode) (hr : s'.root = s.root)
    (hk : s'.keys = Function.update s.keys i key) : Inv P strict s' [] [] := by
  have hsame : SameLinks s s' :=
    ⟨hl, hf, fun x => by rw [hn], fun x => by rw [hn], fun x => by rw [hn]⟩
  have hkey : ∀ n, Used s n → s'.keys (s.nodes n).elem = s.keys (s.nodes n).elem := by
    intro n hu
    rw [hk]
    apply Function.update_of_ne
    intro he
    exact hi ⟨n, he ▸ h.elems.elem_node n hu (by simp)⟩
  constructor
  · rw [hr]
    exact hsame.links h.links
  · constructor
    · intro n hu hh
      rw [hn, hm]
      exact h.elems.elem_node n ((hsame.used n).mp hu) hh
    · intro e n he
      rw [hm] at he
      rw [hsame.used, hn]
      exact h.elems.node_elem e n he
  · constructor
    · intro r hr'
      rw [hn]
      exact h.rooted.parent r (hr ▸ hr')
    · intro r hr'
      rw [hn]
      exact h.rooted.level r (hr ▸ hr')
  · intro n c hu hb hc
    rw [hsame.used] at hu
    rw [hn] at hc
    have hcu := (h.links.child n c hu hc).1
    rcases h.edges n c hu hb hc with hcov | ⟨hs, hfar⟩
    · apply Or.inl
      unfold Cov DB.distance
      rw [hn, hkey n hu, hkey c hcu]
      exact hcov
    · refine .inr ⟨hs, ?_⟩
      intro x hx
      rw [hsame.under] at hx
      unfold DB.distance
      rw [hn, hkey n hu, hkey x (under_used h.links hcu hx)]
      exact hfar x hx
  · exact fun b hb => (List.not_mem_nil hb).elim

section Steps

variable [IsStrictOrderedRing 𝕜]

/-- An insertion ends and gives the vector a new id. -/
theorem insert_good (hM : Metric P) {s : DB X} (h : Good P strict s) (key : X) :
    ∃ s' i, insert P s key = some (s', i) ∧ Good P strict s' ∧ ¬ Live s i ∧
      (∀ e, Live s' e ↔ e = i ∨ Live s e) ∧ s'.keys = Function.update s.keys i key := by
  unfold insert
  cases hf : s.freeIdx with
  | cons i rest =>
    dsimp only
    have hnd := hf ▸ h.free_nodup
    obtain ⟨hir, hrest⟩ := List.nodup_cons.mp hnd
    have hlt : i < s.keysLen := h.free_lt i (by rw [hf]; simp)
    have hdead : ¬ Live s i := fun hl => hl.2 (by rw [hf]; simp)
    have hhole : ¬ Held s i := fun hh => hdead ((h.held i).mp hh)
    generalize hs1 : ({ s with freeIdx := rest, keys := Function.update s.keys i key } : DB X) = s1
    have hinv : Inv P strict s1 [] [] := by
      apply inv_key h.inv hhole <;> rw [← hs1]
    have hheld1 : ∀ x, Held s1 x ↔ Held s x := by
      intro x
      rw [← hs1]
      exact Iff.rfl
    obtain ⟨s2, h1, h2, h3⟩ := insertIntoTree_spec hM hinv (e := i)
      fun hh => hhole ((hheld1 i).mp hh)
    have hfree : s2.freeIdx = rest := by rw [h3.freeIdx, ← hs1]
    have hlen : s2.keysLen = s.keysLen := by rw [h3.keysLen, ← hs1]
    have hlive : ∀ e, Live s2 e ↔ e = i ∨ Live s e := by
      intro e
      unfold Live
      rw [hfree, hlen, hf, List.mem_cons, not_or]
      by_cases he : e = i
      · subst he
        simp [hlt, hir]
      · simp [he]
    refine ⟨s2, i, by rw [h1]; rfl, ⟨h2, ?_, ?_, ?_⟩, hdead, hlive, ?_⟩
    · intro e
      rw [h3.held, hheld1, h.held, hlive]
    · intro e he
      rw [hlen]
      exact h.free_lt e (by rw [hf]; exact List.mem_cons_of_mem i (hfree ▸ he))
    · rw [hfree]
      exact hrest
    · rw [h3.keys, ← hs1]
  | nil =>
    dsimp only
    have hdead : ¬ Live s s.keysLen := fun hl => lt_irrefl _ hl.1
    have hhole : ¬ Held s s.keysLen := fun hh => hdead ((h.held _).mp hh)
    generalize hs1 : ({ s with
      keysLen := s.keysLen + 1
      keys := Function.update s.keys s.keysLen key } : DB X) = s1
    rw [hf] at hs1
    have hinv : Inv P strict s1 [] [] := by
      apply inv_key h.inv hhole <;> rw [← hs1]
    have hheld1 : ∀ x, Held s1 x ↔ Held s x := by
      intro x
      rw [← hs1]
      exact Iff.rfl
    obtain ⟨s2, h1, h2, h3⟩ := insertIntoTree_spec hM hinv (e := s.keysLen)
      fun hh => hhole ((hheld1 _).mp hh)
    have hfree : s2.freeIdx = [] := by rw [h3.freeIdx, ← hs1]
    have hlen : s2.keysLen = s.keysLen + 1 := by rw [h3.keysLen, ← hs1]
    have hlive : ∀ e, Live s2 e ↔ e = s.keysLen ∨ Live s e := by
      intro e
      unfold Live
      rw [hfree, hlen, hf]
      simp only [List.not_mem_nil, not_false_eq_true, and_true]
      omega
    refine ⟨s2, s.keysLen, by rw [hs1, h1]; rfl, ⟨h2, ?_, ?_, ?_⟩, hdead, hlive, ?_⟩
    · intro e
      rw [h3.held, hheld1, h.held, hlive]
    · intro e he
      rw [hfree] at he
      cases he
    · rw [hfree]
      exact List.nodup_nil
    · rw [h3.keys, ← hs1]

/-- A removal ends and takes the id away. -/
theorem remove_good (hM : Metric P) {s : DB X} (h : Good P strict s) {e : Nat}
    (he : e < s.keysLen) (hcond : strict → Guard P s (.remove e)) :
    ∃ s', remove P s e = some s' ∧ Good P strict s' ∧
      (∀ x, Live s' x ↔ Live s x ∧ x ≠ e) ∧ s'.keys = s.keys := by
  obtain ⟨s1, h1, h2, h3, h4⟩ := removeFromTree_spec hM (e := e) h.inv hcond
  have hlive : ∀ x, Live { s1 with freeIdx := setAdd e s1.freeIdx } x ↔ Live s x ∧ x ≠ e := by
    intro x
    unfold Live
    dsimp only
    rw [mem_setAdd, h4.keysLen, h4.freeIdx, not_or]
    tauto
  refine ⟨{ s1 with freeIdx := setAdd e s1.freeIdx }, ?_, ⟨?_, ?_, ?_, ?_⟩, hlive, h4.keys⟩
  · unfold remove
    rw [h1]
    rfl
  · have hsame : SameLinks s1 { s1 with freeIdx := setAdd e s1.freeIdx } :=
      ⟨rfl, rfl, fun _ => rfl, fun _ => rfl, fun _ => rfl⟩
    exact ⟨hsame.links h2.links, ⟨h2.elems.elem_node, h2.elems.node_elem⟩,
      ⟨h2.rooted.parent, h2.rooted.level⟩, h2.edges, h2.bad_under⟩
  · intro x
    rw [hlive, ← h.held]
    exact h3 x
  · intro x hx
    show x < s1.keysLen
    rw [h4.keysLen]
    rcases mem_setAdd.mp hx with rfl | hx
    · exact he
    · exact h.free_lt x (h4.freeIdx ▸ hx)
  · apply setAdd_nodup
    rw [h4.freeIdx]
    exact h.free_nodup

/-- An operation ends, and leaves in the store what it says. -/
theorem step_good (hM : Metric P) {s : DB X} (h : Good P strict s) (op : Op X)
    (hcond : strict → Guard P s op) : ∃ s', step P s op = some s' ∧ Good P strict s' ∧
      ∀ {ops m}, Stores (contents s') ops m → Stores (contents s) (op :: ops) m := by
  cases op with
  | insert key =>
    obtain ⟨s', i, h1, h2, hdead, hlive, hkeys⟩ := insert_good hM h key
    refine ⟨s', ?_, h2, fun hrest => .insert (if_neg hdead) (contents_insert hlive hkeys ▸ hrest)⟩
    show (insert P s key).map Prod.fst = some s'
    rw [h1]
    rfl
  | remove e =>
    by_cases he : e < s.keysLen
    · obtain ⟨s', h1, h2, hlive, hkeys⟩ := remove_good hM h he hcond
      exact ⟨s', (if_pos he).trans h1, h2, fun hrest => .remove (contents_remove hlive hkeys ▸ hrest)⟩
    · -- nothing was ever put there
      have hnone : Function.update (contents s) e none = contents s := by
        rw [Function.update_eq_self_iff]
        exact (if_neg fun hl : Live s e => he hl.1).symm
      exact ⟨s, if_neg he, h, fun hrest => .remove (hnone.symm ▸ hrest)⟩

omit [IsStrictOrderedRing 𝕜] in
theorem run_cons {s s1 : DB X} {op : Op X} (h : step P s op = some s1) (ops : List (Op X)) :
    run P s (op :: ops) = run P s1 ops := by
  have hrun : run P s (op :: ops) = (step P s op).bind fun s => run P s ops := rfl
  rw [hrun, h]
  rfl

theorem run_good (hM : Metric P) : ∀ (ops : List (Op X)) (s : DB X), Good P strict s →
    (strict → Guarded P s ops) →
    ∃ s', run P s ops = some s' ∧ Good P strict s' ∧ Stores (contents s) ops (contents s') := by
  intro ops
  induction ops with
  | nil =>
    intro s h _
    exact ⟨s, rfl, h, .nil _⟩
  | cons op ops ih =>
    intro s h hcond
    obtain ⟨s1, h1, h2, hstores⟩ := step_good hM h op fun hs => (hcond hs).1
    obtain ⟨s2, h3, h4, hrest⟩ := ih s1 h2 fun hs => (hcond hs).2 s1 h1
    exact ⟨s2, (run_cons h1 ops).trans h3, h4, hstores hrest⟩

end Steps

/-! ## The tree after a run -/

def Reachable (s : DB X) (n : Nat) : Prop := ∃ r, s.root = some r ∧ Under s r n

/-- The bookkeeping of the tree. -/
structure TreeOk (s : DB X) : Prop where
  partition : ∀ n, (Reachable s n ∨ n ∈ s.freeNodes ↔ n < s.nodesLen) ∧
    ¬ (Reachable s n ∧ n ∈ s.freeNodes)
  free_nodup : s.freeNodes.Nodup
  live : ∀ e, Live s e → ∃ n, s.elemToNode e = some n ∧
    ∀ m, Reachable s m ∧ (s.nodes m).elem = e ↔ m = n
  dead : ∀ e, ¬ Live s e → s.elemToNode e = none ∧ ∀ n, Reachable s n → (s.nodes n).elem ≠ e
  child : ∀ n c, Reachable s n → c ∈ (s.nodes n).children →
    (s.nodes c).parent = some n ∧ (s.nodes c).level < (s.nodes n).level
  children_nodup : ∀ n, Reachable s n → (s.nodes n).children.Nodup
  parent : ∀ n, Reachable s n → s.root ≠ some n →
    ∃ p, (s.nodes n).parent = some p ∧ Reachable s p ∧ n ∈ (s.nodes p).children
  root : ∀ r, s.root = some r → (s.nodes r).parent = none

/-- Every element but the root's is within `base ^ level` of its parent's. -/
def Covering (P : Params X 𝕜) (s : DB X) : Prop :=
  ∀ n c, Reachable s n → c ∈ (s.nodes n).children → Cov P s n c

theorem reachable_iff_used {s : DB X} (h : Inv P strict s [] []) (n : Nat) :
    Reachable s n ↔ Used s n := by
  constructor
  · intro hn
    obtain ⟨r, hr, hu⟩ := hn
    exact under_used h.links (root_used h.links hr) hu
  · intro hn
    obtain ⟨r, hr, hu⟩ := under_some_root h.links hn
    exact ⟨r, Option.mem_toList.mp hr, hu⟩

theorem Good.treeOk {s : DB X} (h : Good P strict s) : TreeOk s := by
  have hreach := reachable_iff_used h.inv
  have hnode : ∀ n, Used s n → s.elemToNode (s.nodes n).elem = some n :=
    fun n hn => h.inv.elems.elem_node n hn (by simp)
  constructor
  · intro n
    rw [hreach]
    constructor
    · constructor
      · intro hn
        rcases hn with hn | hn
        · exact hn.1
        · exact h.inv.links.free_lt n hn
      · intro hn
        by_cases hf : n ∈ s.freeNodes
        · exact .inr hf
        · exact .inl ⟨hn, hf⟩
    · exact fun hn => hn.1.2 hn.2
  · exact h.inv.links.free_nodup
  · intro e he
    obtain ⟨n, hn⟩ := (h.held e).mpr he
    obtain ⟨hu, -, hne⟩ := h.inv.elems.node_elem e n hn
    refine ⟨n, hn, ?_⟩
    intro m
    rw [hreach]
    constructor
    · intro hm
      have h1 := hnode m hm.1
      rw [hm.2, hn] at h1
      exact (Option.some.inj h1).symm
    · intro hm
      rw [hm]
      exact ⟨hu, hne⟩
  · intro e he
    have hh : ¬ Held s e := fun hh => he ((h.held e).mp hh)
    constructor
    · cases hn : s.elemToNode e with
      | none => rfl
      | some n => exact absurd ⟨n, hn⟩ hh
    · intro n hn hne
      rw [hreach] at hn
      exact hh ⟨n, hne ▸ hnode n hn⟩
  · intro n c hn hc
    rw [hreach] at hn
    obtain ⟨-, h2, h3, -⟩ := h.inv.links.child n c hn hc
    exact ⟨h2, h3⟩
  · intro n hn
    exact h.inv.links.nodup n ((hreach n).mp hn)
  · intro n hn hr
    obtain ⟨p, h1, h2, h3⟩ := h.inv.links.up n ((hreach n).mp hn)
      fun hm => hr (Option.mem_toList.mp hm)
    exact ⟨p, h1, (hreach p).mpr h2, h3⟩
  · exact h.inv.rooted.parent

theorem Good.covering {s : DB X} (h : Good P True s) : Covering P s := by
  intro n c hn hc
  rw [reachable_iff_used h.inv] at hn
  rcases h.inv.edges n c hn List.not_mem_nil hc with hcov | ⟨hs, -⟩
  · exact hcov
  · exact absurd trivial hs

/-- Every run ends in a store that holds what was put in and not taken out, and in
a tree whose bookkeeping is right. When the removals on the way were guarded every
edge of it is covered as well. -/
theorem run_tree [IsStrictOrderedRing 𝕜] (hM : Metric P) (x : X) (ops : List (Op X)) :
    ∃ s, run P (DB.empty x) ops = some s ∧ Stores (fun _ => none) ops (contents s) ∧ TreeOk s ∧
      (Guarded P (DB.empty x) ops → Covering P s) := by
  have hstart : Good P False (DB.empty x) := good_empty x
  obtain ⟨s, h1, h2, hstores⟩ := run_good hM ops (DB.empty x) hstart False.elim
  rw [contents_empty] at hstores
  refine ⟨s, h1, hstores, h2.treeOk, ?_⟩
  intro hg
  have hstrict : Good P True (DB.empty x) := good_empty x
  obtain ⟨s', h3, h4, -⟩ := run_good hM ops (DB.empty x) hstrict fun _ => hg
  rw [h1] at h3
  cases h3
  exact h4.covering

/-! ## Points on a line -/

/-- The exponents from `i` on are tried in turn. -/
def logFrom (d : ℚ) : Nat → Int → Int
  | 0, i => i
  | k + 1, i => if d ≤ cover i then i else logFrom d k (i + 1)

theorem logFrom_spec {d : ℚ} : ∀ (k : Nat) (i : Int), cover (i - 1) < d → d ≤ cover (i + k) →
    cover (logFrom d k i - 1) < d ∧ d ≤ cover (logFrom d k i) := by
  intro k
  induction k with
  | zero =>
    intro i h1 h2
    rw [Nat.cast_zero, add_zero] at h2
    exact ⟨h1, h2⟩
  | succ k ih =>
    intro i h1 h2
    unfold logFrom
    split
    · rename_i h
      exact ⟨h1, h⟩
    · rename_i h
      apply ih
      · rw [add_sub_cancel_right]
        exact not_le.mp h
      · rw [show i + 1 + (k : Int) = i + ((k + 1 : Nat) : Int) by push_cast; ring]
        exact h2

/-- `ceil(log d / log base)` of a positive rational. -/
def ratCeilLog (d : ℚ) : Int := logFrom d (4 * d.den + 4 * d.num.natAbs) (1 - 4 * d.den)

theorem nat_lt_cover (n : Nat) : (n : ℚ) < cover (4 * n : Int) := by
  have h1 : (2 : ℚ) ≤ (13 / 10) ^ 4 := by norm_num
  have h2 : (n : ℚ) < 2 ^ n := by exact_mod_cast Nat.lt_two_pow_self
  calc (n : ℚ) < 2 ^ n := h2
    _ ≤ ((13 / 10 : ℚ) ^ 4) ^ n := pow_le_pow_left₀ (by norm_num) h1 n
    _ = (13 / 10 : ℚ) ^ (4 * n) := (pow_mul _ 4 n).symm
    _ = cover (4 * n : Int) := by
      unfold cover
      rw [← zpow_natCast]
      push_cast
      rfl

theorem ratCeilLog_spec (d : ℚ) (hd : 0 < d) :
    cover (ratCeilLog d - 1) < d ∧ d ≤ cover (ratCeilLog d) := by
  have hden : (0 : ℚ) < d.den := by exact_mod_cast d.den_pos
  have hnum : (0 : ℚ) < d.num := by exact_mod_cast Rat.num_pos.mpr hd
  have hd' : d = d.num / d.den := (Rat.num_div_den d).symm
  have habs : ((d.num.natAbs : Nat) : ℚ) = d.num := by
    rw [← Int.cast_natCast, Int.natAbs_of_nonneg (le_of_lt (Rat.num_pos.mpr hd))]
  apply logFrom_spec
  · have h1 : (1 - 4 * (d.den : Int) - 1) = -(4 * (d.den : Int)) := by ring
    have h2 : (d.den : ℚ) < cover (4 * d.den : Int) := nat_lt_cover d.den
    have h3 : cover (-(4 * (d.den : Int))) = (cover (4 * d.den : Int) : ℚ)⁻¹ := by
      unfold cover
      rw [zpow_neg]
    have h4 : (1 : ℚ) ≤ d.num := by exact_mod_cast Rat.num_pos.mpr hd
    rw [h1, h3]
    calc (cover (4 * d.den : Int) : ℚ)⁻¹ < (d.den : ℚ)⁻¹ := inv_strictAnti₀ hden h2
      _ = 1 / d.den := (one_div _).symm
      _ ≤ d.num / d.den := div_le_div_of_nonneg_right h4 (le_of_lt hden)
      _ = d := hd'.symm
  · have h2 : (d.num.natAbs : ℚ) < cover (4 * d.num.natAbs : Int) := nat_lt_cover _
    have h3 : (1 : ℚ) ≤ d.den := by exact_mod_cast d.den_pos
    have h4 : d ≤ d.num := by
      calc d = d.num / d.den := hd'
        _ ≤ d.num := div_le_self (le_of_lt hnum) h3
    rw [habs] at h2
    apply le_trans h4
    apply le_trans (le_of_lt h2)
    apply cover_le_iff.mpr
    push_cast
    omega

/-- Thirty-two points, a tenth apart. -/
def line : Params (Fin 32) ℚ where
  dist i j := |(i.val : ℚ) - j.val| / 10
  ceilLog := ratCeilLog

theorem line_metric : Metric line where
  zero_iff x y := by
    unfold line
    dsimp only
    rw [div_eq_zero_iff, abs_eq_zero, sub_eq_zero]
    constructor
    · intro h
      have h1 := h.resolve_right (by norm_num)
      exact Fin.ext (by exact_mod_cast h1)
    · intro h
      rw [h]
      exact .inl rfl
  nonneg x y := by
    unfold line
    positivity
  symm x y := by
    unfold line
    dsimp only
    rw [abs_sub_comm]
  triangle x y z := by
    unfold line
    dsimp only
    rw [← add_div]
    apply div_le_div_of_nonneg_right (abs_sub_le _ _ _)
    norm_num
  ceilLog := ratCeilLog_spec
  bounded x y := by
    unfold line
    dsimp only
    have hx : (x.val : ℚ) < 32 := by exact_mod_cast x.isLt
    have hy : (y.val : ℚ) < 32 := by exact_mod_cast y.isLt
    have hx0 : (0 : ℚ) ≤ x.val := by positivity
    have hy0 : (0 : ℚ) ≤ y.val := by positivity
    have h1 : |(x.val : ℚ) - y.val| < 32 := abs_lt.mpr ⟨by linarith, by linarith⟩
    calc |(x.val : ℚ) - y.val| / 10 < 32 := by linarith
      _ = 2 ^ 5 := by norm_num
      _ ≤ 2 ^ 1024 := pow_le_pow_right₀ (by norm_num) (by norm_num)
      _ ≤ cover maxLevelBound := float_bounded

/-- The points 0.3, 0.7 and 2.0 go in and the first of them out: its node, below the
root, takes the element at 0.7, which the edge above still covers. -/
theorem run_tree_guarded : ∃ s,
    run line (DB.empty 0) [.insert 3, .insert 7, .insert 20, .remove 0] = some s ∧
    Stores (fun _ => none) [.insert 3, .insert 7, .insert 20, .remove 0] (contents s) ∧ TreeOk s ∧
    (s.root = some 2 ∧ (s.nodes 2).children = [0]) ∧ Covering line s := by
  obtain ⟨s, h1, h2, h3, h4⟩ := run_tree line_metric 0 [.insert 3, .insert 7, .insert 20, .remove 0]
  have hend : (run line (DB.empty 0) [.insert 3, .insert 7, .insert 20, .remove 0]).all
      (fun s => s.root == some 2 && (s.nodes 2).children == [0]) = true := by decide +kernel
  rw [h1, Option.all_some, Bool.and_eq_true, beq_iff_eq, beq_iff_eq] at hend
  refine ⟨s, h1, h2, h3, hend, h4 ?_⟩
  -- only the removal asks for something, of the state before it
  refine ⟨trivial, fun s1 hs1 => ⟨trivial, fun s2 hs2 => ⟨trivial, fun s3 hs3 => ⟨?_, fun _ _ => trivial⟩⟩⟩⟩
  have hrun : run line (DB.empty 0) [.insert 3, .insert 7, .insert 20] = some s3 := by
    rw [run_cons hs1, run_cons hs2, run_cons hs3]
    rfl
  have hbefore : (run line (DB.empty 0) [.insert 3, .insert 7, .insert 20]).all
      (fun s => s.elemToNode 0 == some 0 && (s.nodes 0).parent == some 2 &&
        (s.nodes 0).children == [1] &&
        decide (s.distance line (s.nodes 2).elem (s.nodes 1).elem ≤ cover (s.nodes 2).level)) =
      true := by decide +kernel
  rw [hrun, Option.all_some] at hbefore
  simp only [Bool.and_eq_true, beq_iff_eq, decide_eq_true_eq] at hbefore
  obtain ⟨⟨⟨hnode, hparent⟩, hchildren⟩, hcovered⟩ := hbefore
  intro n hn q c hq hc
  rw [hnode] at hn
  cases hn
  rw [hparent] at hq
  cases hq
  rw [hchildren] at hc
  obtain ⟨l, r, hlr, -⟩ := hc
  obtain rfl : c = 1 := List.mem_singleton.mp (by rw [hlr]; simp)
  exact hcovered

/-- The points 0.9, 0 and 2.9 go in and the first of them out: its node takes
the element at 0, which is 2.9 away from the root, on level 3. -/
theorem uncovered_edge : Metric line ∧ ∃ s,
    run line (DB.empty 0) [.insert 9, .insert 0, .insert 29, .remove 0] = some s ∧
      ¬ Covering line s := by
  refine ⟨line_metric, ?_⟩
  have hrun : (run line (DB.empty 0) [.insert 9, .insert 0, .insert 29, .remove 0]).any
      (fun s => s.root == some 2 && (s.nodes 2).children == [0] && (s.nodes 2).elem == 2 &&
        (s.nodes 0).elem == 1 && (s.nodes 2).level == 3 && s.keys 2 == 29 && s.keys 1 == 0)
      = true := by
    decide +kernel
  obtain ⟨s, hs, heq⟩ := (Option.any_eq_true _ _).mp hrun
  refine ⟨s, hs, ?_⟩
  intro hcov
  simp only [Bool.and_eq_true, beq_iff_eq] at heq
  obtain ⟨⟨⟨⟨⟨⟨h1, h2⟩, h3⟩, h4⟩, h5⟩, h6⟩, h7⟩ := heq
  have h := hcov 2 0 ⟨2, h1, Under.refl s 2⟩ (by rw [h2]; simp)
  unfold Cov DB.distance at h
  rw [h3, h4, h5, h6, h7] at h
  exact absurd h (by decide +kernel)

end GenVM.VecDb
