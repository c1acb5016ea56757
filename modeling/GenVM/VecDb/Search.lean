import GenVM.VecDb.Cover

/-!
# Depth-first search

The stack of a search holds nodes none of which lies below another. Popping
one and pushing some of its children keeps that, and leaves fewer nodes below
the stack, so a search ends within as many rounds as there are nodes.

**Results.**
* `frontier_pop`, `below_pop`: one round.
* `findNodeById_none`: looking for an element no node holds finds none.
-/
namespace GenVM.VecDb

variable {X : Type}

/-- The nodes of a stack: in use, and none below another. -/
structure Frontier (s : DB X) (stack : List Nat) : Prop where
  used : ∀ n ∈ stack, Used s n
  apart : stack.Pairwise fun a b => ¬ Under s a b ∧ ¬ Under s b a

open Classical in
/-- The nodes a search can still reach. -/
noncomputable def below (s : DB X) (stack : List Nat) : Finset Nat :=
  (Finset.range s.nodesLen).filter fun x => ∃ m ∈ stack, Under s m x

theorem mem_below {s : DB X} {stack : List Nat} {x : Nat} :
    x ∈ below s stack ↔ x < s.nodesLen ∧ ∃ m ∈ stack, Under s m x := by
  classical
  unfold below
  rw [Finset.mem_filter, Finset.mem_range]

theorem below_card_le (s : DB X) (stack : List Nat) : (below s stack).card ≤ s.nodesLen := by
  classical
  unfold below
  apply le_trans (Finset.card_filter_le _ _)
  rw [Finset.card_range]

theorem frontier_root {s : DB X} {extra : List Nat} (h : Links s (extra ++ s.root.toList)) :
    Frontier s s.root.toList := by
  cases hr : s.root with
  | none => exact ⟨fun n hn => (List.not_mem_nil hn).elim, List.Pairwise.nil⟩
  | some r =>
    constructor
    · intro n hn
      rw [Option.toList_some, List.mem_singleton] at hn
      rw [hn]
      exact root_used h hr
    · exact List.pairwise_singleton _ _

theorem not_under_parent {s : DB X} {roots : List Nat} (h : Links s roots) {n c : Nat}
    (hn : Used s n) (hc : c ∈ (s.nodes n).children) : ¬ Under s c n := by
  intro hcn
  obtain ⟨hcu, -, hlt, -⟩ := h.child n c hn hc
  rcases under_level h hcu hcn with rfl | hlt'
  · exact lt_irrefl _ hlt
  · exact lt_irrefl _ (lt_trans hlt hlt')

theorem frontier_pop {s : DB X} {roots : List Nat} (h : Links s roots) {n : Nat}
    {rest ch : List Nat} (hf : Frontier s (n :: rest)) (hd : ch.Nodup)
    (hch : ∀ c ∈ ch, c ∈ (s.nodes n).children) : Frontier s (ch ++ rest) := by
  have hn := hf.used n (by simp)
  obtain ⟨hapart, hrest⟩ := List.pairwise_cons.mp hf.apart
  have hcu : ∀ c ∈ ch, Used s c := fun c hc => (h.child n c hn (hch c hc)).1
  constructor
  · intro m hm
    rcases List.mem_append.mp hm with hm | hm
    · exact hcu m hm
    · exact hf.used m (by simp [hm])
  · apply List.pairwise_append.mpr
    refine ⟨?_, hrest, ?_⟩
    · -- siblings
      have hsib : ∀ a ∈ ch, ∀ b ∈ ch, a ≠ b → ¬ Under s a b := by
        intro a ha b hb hab hu
        rcases under_child h (hcu a ha) hn (hch b hb) hu with rfl | hu
        · exact hab rfl
        · exact not_under_parent h hn (hch a ha) hu
      apply hd.imp_of_mem
      intro a b ha hb hab
      exact ⟨hsib a ha b hb hab, hsib b hb a ha hab.symm⟩
    · intro c hc m hm
      obtain ⟨h1, h2⟩ := hapart m hm
      have hnc := Under.child (hch c hc)
      constructor
      · intro hcm
        exact h1 (hnc.trans hcm)
      · intro hmc
        rcases under_child h (hf.used m (by simp [hm])) hn (hch c hc) hmc with rfl | hmn
        · exact h1 hnc
        · exact h2 hmn

theorem below_pop {s : DB X} {roots : List Nat} (h : Links s roots) {n : Nat}
    {rest ch : List Nat} (hf : Frontier s (n :: rest))
    (hch : ∀ c ∈ ch, c ∈ (s.nodes n).children) :
    (below s (ch ++ rest)).card < (below s (n :: rest)).card := by
  have hn := hf.used n (by simp)
  apply Finset.card_lt_card
  apply Finset.ssubset_iff_of_subset _ |>.mpr
  · refine ⟨n, mem_below.mpr ⟨hn.1, n, by simp, Under.refl s n⟩, ?_⟩
    intro hm
    obtain ⟨-, m, hm, hmn⟩ := mem_below.mp hm
    rcases List.mem_append.mp hm with hm | hm
    · exact not_under_parent h hn (hch m hm) hmn
    · exact ((List.pairwise_cons.mp hf.apart).1 m hm).2 hmn
  · intro x hx
    obtain ⟨hlt, m, hm, hmx⟩ := mem_below.mp hx
    apply mem_below.mpr
    refine ⟨hlt, ?_⟩
    rcases List.mem_append.mp hm with hm | hm
    · exact ⟨n, by simp, (Under.child (hch m hm)).trans hmx⟩
    · exact ⟨m, by simp [hm], hmx⟩

theorem findNodeById_none {s : DB X} {roots : List Nat} (h : Links s roots) {e : Nat}
    (he : ∀ n, Used s n → (s.nodes n).elem ≠ e) :
    ∀ (fuel : Nat) (stack : List Nat), Frontier s stack → (below s stack).card < fuel →
      findNodeById s e fuel stack = some none := by
  intro fuel
  induction fuel with
  | zero =>
    intro stack _ hlt
    exact absurd hlt (Nat.not_lt_zero _)
  | succ fuel ih =>
    intro stack hf hlt
    cases stack with
    | nil => rfl
    | cons n rest =>
      have hn := hf.used n (by simp)
      unfold findNodeById
      rw [if_neg hn.2, if_neg (he n hn)]
      have hch : ∀ c ∈ (s.nodes n).children.reverse, c ∈ (s.nodes n).children :=
        fun c hc => List.mem_reverse.mp hc
      apply ih
      · exact frontier_pop h hf (List.nodup_reverse.mpr (h.nodup n hn)) hch
      · have hcard := below_pop h hf hch
        omega

end GenVM.VecDb
