import GenVM.VecDb.Forest

/-!
# What the tree keeps between two steps of an operation

`Inv` is the invariant inside an operation: `extra` are the roots of subtrees
that are detached, `bad` the nodes whose edges a removal has still to check.
An edge is in order when the node covers its child, or, without `strict`, when
everything below the child is within the bound the search prunes with.

**Results.**
* `within_of_edges`: edges in order keep every descendant within
  `maxDescendantDist`.
* `cover_ceilLog`: a root made for a distance covers it.
-/
namespace GenVM.VecDb

variable {X 𝕜 : Type} [Field 𝕜] [LinearOrder 𝕜]

/-- A true metric whose distances stay below the cap of the levels, with the
exact logarithm. A finite float is below `base ^ MAX_LEVEL` (`float_bounded`). -/
structure Metric (P : Params X 𝕜) : Prop where
  zero_iff : ∀ x y, P.dist x y = 0 ↔ x = y
  nonneg : ∀ x y, 0 ≤ P.dist x y
  symm : ∀ x y, P.dist x y = P.dist y x
  triangle : ∀ x y z, P.dist x z ≤ P.dist x y + P.dist y z
  ceilLog : ∀ d, 0 < d → cover (P.ceilLog d - 1) < d ∧ d ≤ cover (P.ceilLog d)
  bounded : ∀ x y, P.dist x y < cover maxLevelBound

section Powers

variable [IsStrictOrderedRing 𝕜]

theorem cover_pos (l : Int) : (0 : 𝕜) < cover l := by
  unfold cover
  positivity

theorem one_lt_base : (1 : 𝕜) < 13 / 10 := by norm_num

theorem cover_le_iff {a b : Int} : (cover a : 𝕜) ≤ cover b ↔ a ≤ b := by
  unfold cover
  exact zpow_le_zpow_iff_right₀ one_lt_base

theorem cover_lt_iff {a b : Int} : (cover a : 𝕜) < cover b ↔ a < b := by
  unfold cover
  exact zpow_lt_zpow_iff_right₀ one_lt_base

theorem cover_succ (l : Int) : (cover (l + 1) : 𝕜) = cover l * (13 / 10) := by
  unfold cover
  exact zpow_add_one₀ (by norm_num) l

theorem maxDescendantDist_eq (l : Int) :
    (maxDescendantDist l : 𝕜) = cover l * (13 / 3) := by
  unfold maxDescendantDist
  rw [cover_succ]
  ring

theorem maxDescendantDist_pos (l : Int) : (0 : 𝕜) < maxDescendantDist l := by
  rw [maxDescendantDist_eq]
  have h : (0 : 𝕜) < cover l := cover_pos l
  positivity

theorem cover_le_maxDescendantDist (l : Int) : (cover l : 𝕜) ≤ maxDescendantDist l := by
  rw [maxDescendantDist_eq]
  have h : (0 : 𝕜) < cover l := cover_pos l
  linarith

/-- One step of the geometric series: an edge and the bound of a lower level. -/
theorem cover_add_maxDescendantDist {a b : Int} (h : a < b) :
    (cover b + maxDescendantDist a : 𝕜) ≤ maxDescendantDist b := by
  have h1 : (cover (a + 1) : 𝕜) ≤ cover b := cover_le_iff.mpr h
  rw [cover_succ] at h1
  rw [maxDescendantDist_eq, maxDescendantDist_eq]
  linarith

theorem float_bounded : ((2 : 𝕜) ^ 1024) ≤ cover maxLevelBound := by
  have h1 : (2 : 𝕜) ≤ (13 / 10) ^ 3 := by norm_num
  calc (2 : 𝕜) ^ 1024 ≤ ((13 / 10) ^ 3) ^ 1024 := pow_le_pow_left₀ (by norm_num) h1 1024
    _ = (13 / 10 : 𝕜) ^ 3072 := (pow_mul _ 3 1024).symm
    _ ≤ (13 / 10 : 𝕜) ^ 65535 := pow_le_pow_right₀ (by norm_num) (by norm_num)
    _ = cover maxLevelBound := (zpow_natCast _ 65535).symm

/-- The level a new root gets covers the distance it was made for. -/
theorem cover_ceilLog {P : Params X 𝕜} (hM : Metric P) {x y : X} {l : Int}
    (h : cover l < P.dist x y) :
    let needed := min (max (P.ceilLog (P.dist x y)) (l + 1)) maxLevelBound
    l < needed ∧ P.dist x y ≤ cover needed := by
  intro needed
  have hpos : 0 < P.dist x y := lt_trans (cover_pos l) h
  obtain ⟨hlow, hup⟩ := hM.ceilLog _ hpos
  have hb := hM.bounded x y
  have h1 : l < maxLevelBound := cover_lt_iff.mp (lt_trans h hb)
  have h2 : P.ceilLog (P.dist x y) - 1 < maxLevelBound := cover_lt_iff.mp (lt_trans hlow hb)
  have h3 : needed = max (P.ceilLog (P.dist x y)) (l + 1) := by
    show min _ _ = _
    apply min_eq_left
    apply max_le
    · omega
    · omega
  rw [h3]
  constructor
  · exact lt_of_lt_of_le (Int.lt_succ l) (le_max_right _ _)
  · exact le_trans hup (cover_le_iff.mpr (le_max_left _ _))

end Powers

/-! ## Edges -/

variable (P : Params X 𝕜)

/-- The element of `n` is within `base ^ level` of the element of `c`. -/
def Cov (s : DB X) (n c : Nat) : Prop :=
  s.distance P (s.nodes n).elem (s.nodes c).elem ≤ cover (s.nodes n).level

/-- Everything at or below `c` is within the bound the search has for `n`. -/
def Far (s : DB X) (n c : Nat) : Prop :=
  ∀ x, Under s c x →
    s.distance P (s.nodes n).elem (s.nodes x).elem ≤ maxDescendantDist (s.nodes n).level

def EdgeOk (strict : Prop) (s : DB X) (n c : Nat) : Prop :=
  Cov P s n c ∨ (¬ strict ∧ Far P s n c)

/-- Elements and nodes name each other; `hole` is a node whose element was
taken away and not yet given back. -/
structure Elems (s : DB X) (hole : Option Nat) : Prop where
  elem_node : ∀ n, Used s n → hole ≠ some n → s.elemToNode (s.nodes n).elem = some n
  node_elem : ∀ e n, s.elemToNode e = some n → Used s n ∧ hole ≠ some n ∧ (s.nodes n).elem = e

structure Rooted (s : DB X) : Prop where
  parent : ∀ r, s.root = some r → (s.nodes r).parent = none
  level : ∀ r, s.root = some r → 0 ≤ (s.nodes r).level

structure Inv (strict : Prop) (s : DB X) (extra bad : List Nat) : Prop where
  links : Links s (extra ++ s.root.toList)
  elems : Elems s none
  rooted : Rooted s
  edges : ∀ n c, Used s n → n ∉ bad → c ∈ (s.nodes n).children → EdgeOk P strict s n c
  bad_under : ∀ b ∈ bad, ∃ r, s.root = some r ∧ Under s r b

theorem root_used {s : DB X} {extra : List Nat} (h : Links s (extra ++ s.root.toList)) {r : Nat}
    (hr : s.root = some r) : Used s r := by
  apply h.root_used
  rw [hr]
  simp

variable {P}

theorem Inv.bad_used {strict : Prop} {s : DB X} {extra bad : List Nat}
    (h : Inv P strict s extra bad) {b : Nat} (hb : b ∈ bad) : Used s b := by
  obtain ⟨r, hr, hu⟩ := h.bad_under b hb
  exact under_used h.links (root_used h.links hr) hu

/-- With every edge in order, whatever is below a node is within its bound. -/
theorem within_of_edges [IsStrictOrderedRing 𝕜] (hM : Metric P) {strict : Prop} {s : DB X}
    {roots : List Nat} (hl : Links s roots)
    (h : ∀ n c, Used s n → c ∈ (s.nodes n).children → EdgeOk P strict s n c) {n x : Nat}
    (hn : Used s n) (hx : Under s n x) :
    s.distance P (s.nodes n).elem (s.nodes x).elem ≤ maxDescendantDist (s.nodes n).level := by
  induction hx using Relation.ReflTransGen.head_induction_on with
  | refl =>
    have h0 : s.distance P (s.nodes x).elem (s.nodes x).elem = 0 := (hM.zero_iff _ _).mpr rfl
    rw [h0]
    exact le_of_lt (maxDescendantDist_pos _)
  | @head n c hnc hcx ih =>
    obtain ⟨hc, -, hlev, -⟩ := hl.child n c hn hnc
    rcases h n c hn hnc with hcov | ⟨-, hfar⟩
    · calc s.distance P (s.nodes n).elem (s.nodes x).elem
          ≤ s.distance P (s.nodes n).elem (s.nodes c).elem
            + s.distance P (s.nodes c).elem (s.nodes x).elem := hM.triangle _ _ _
        _ ≤ cover (s.nodes n).level + maxDescendantDist (s.nodes c).level :=
            add_le_add hcov (ih hc)
        _ ≤ maxDescendantDist (s.nodes n).level := cover_add_maxDescendantDist hlev
    · exact hfar x hcx

end GenVM.VecDb
