import GenVM.Lib.SortedMap

/-!
# Sorting and binary search

`sort` and `search` of a list under a strict total order, the search with the
loop of Rust's `slice::binary_search`: the window keeps its upper half unless the
element in the middle is above the key.

Result: `search_sort`.
-/
namespace GenVM.Lib.BinarySearch
open GenVM.Lib.SortedMap (StrictOrder)

variable {α : Type} (lt : α → α → Prop) [DecidableRel lt]

/-- No element is above a later one. -/
def Ascending (xs : List α) : Prop := xs.Pairwise fun a b => ¬ lt b a

def sort (xs : List α) : List α := xs.insertionSort fun a b => ¬ lt b a

/-- Narrow the window of `size` elements from `base` on to one element. -/
def narrow (xs : List α) (x : α) (base size : Nat) : Nat :=
  if size ≤ 1 then base
  else
    let half := size / 2
    let mid := base + half
    narrow xs x (if (xs[mid]?.map fun y => decide (lt x y)).getD false then base else mid)
      (size - half)
termination_by size

def search (xs : List α) (x : α) : Option Nat :=
  let i := narrow lt xs x 0 xs.length
  match xs[i]? with
  | some y => if ¬ lt x y ∧ ¬ lt y x then some i else none
  | none => none

variable {lt}

theorem sort_perm (xs : List α) : (sort lt xs).Perm xs := List.perm_insertionSort _ xs

theorem sort_ascending (ho : StrictOrder lt) (xs : List α) : Ascending lt (sort lt xs) := by
  have htotal : Std.Total fun a b => ¬ lt b a := ⟨fun a b => by
    by_cases h : lt b a
    · exact Or.inr (ho.asymm h)
    · exact Or.inl h⟩
  have htrans : IsTrans α fun a b => ¬ lt b a := ⟨fun a b c hab hbc hca => by
    by_cases h : lt a b
    · exact hbc (ho.trans c a b hca h)
    · exact hbc (ho.tri a b h hab ▸ hca)⟩
  exact List.pairwise_insertionSort (fun a b => ¬ lt b a) xs

/-- A key in the window stays in it, perhaps at another place. -/
theorem narrow_spec (ho : StrictOrder lt) {xs : List α} (hs : Ascending lt xs) (x : α)
    {base size : Nat} (hsize : base + size ≤ xs.length)
    (hx : ∃ i, base ≤ i ∧ i < base + size ∧ xs[i]? = some x) :
    xs[narrow lt xs x base size]? = some x := by
  induction size using Nat.strongRecOn generalizing base with
  | ind size ih =>
    obtain ⟨i, hlo, hhi, hi⟩ := hx
    rw [narrow]
    by_cases h1 : size ≤ 1
    · rw [if_pos h1, show base = i by omega]
      exact hi
    · rw [if_neg h1]
      dsimp only
      have hmid : base + size / 2 < xs.length := by omega
      have hle := List.pairwise_iff_getElem.mp hs
      obtain ⟨hilt, hix⟩ := List.getElem?_eq_some_iff.mp hi
      rw [List.getElem?_eq_getElem hmid, Option.map_some, Option.getD_some]
      by_cases hlt : lt x xs[base + size / 2]
      · rw [if_pos (decide_eq_true hlt)]
        -- the key lies before the middle
        have him : i < base + size / 2 := by
          by_contra hge
          rcases Nat.lt_or_eq_of_le (Nat.not_lt.mp hge) with hgt | heq
          · exact hle _ _ hmid hilt hgt (hix ▸ hlt)
          · subst heq
            exact ho.irrefl x (hix ▸ hlt)
        exact ih (size - size / 2) (by omega) (by omega) ⟨i, hlo, by omega, hi⟩
      · rw [if_neg (by simpa using hlt)]
        refine ih (size - size / 2) (by omega) (by omega) ?_
        by_cases him : base + size / 2 ≤ i
        · exact ⟨i, him, by omega, hi⟩
        · -- everything from the key to the middle is the key
          have hnot : ¬ lt xs[base + size / 2] x := by
            rw [← hix]
            exact hle _ _ hilt hmid (by omega)
          have heq := ho.tri _ _ hlt hnot
          exact ⟨base + size / 2, Nat.le_refl _, by omega, by
            rw [List.getElem?_eq_getElem hmid, ← heq]⟩

theorem search_iff (ho : StrictOrder lt) {xs : List α} (hs : Ascending lt xs) (x : α) :
    (search lt xs x).isSome ↔ x ∈ xs := by
  unfold search
  dsimp only
  constructor
  · intro h
    cases hy : xs[narrow lt xs x 0 xs.length]? with
    | none =>
      rw [hy] at h
      cases h
    | some y =>
      rw [hy] at h
      dsimp only at h
      split at h
      · next heq =>
        rw [ho.tri x y heq.1 heq.2]
        exact List.mem_of_getElem? hy
      · cases h
  · intro h
    obtain ⟨i, hi, hx⟩ := List.mem_iff_getElem.mp h
    have hspec := narrow_spec ho hs x (show 0 + xs.length ≤ xs.length by omega)
      ⟨i, Nat.zero_le i, by omega, by rw [List.getElem?_eq_getElem hi, hx]⟩
    rw [hspec]
    dsimp only
    rw [if_pos ⟨ho.irrefl x, ho.irrefl x⟩]
    rfl

/-- The search in what was sorted finds exactly the elements. -/
theorem search_sort (ho : StrictOrder lt) (xs : List α) (x : α) :
    (search lt (sort lt xs) x).isSome ↔ x ∈ xs := by
  rw [search_iff ho (sort_ascending ho xs)]
  exact (sort_perm xs).mem_iff

end GenVM.Lib.BinarySearch
