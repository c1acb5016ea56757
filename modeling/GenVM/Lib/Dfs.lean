import Mathlib

/-!
# Depth-first execution of a graph

Every node has a script: acts, and references to other nodes. Running a script
runs a referenced node's script in place the first time and skips it afterwards.
`Runs script v items events v'` says that running `items` with the nodes `v`
already entered gives `events` (the acts, and a node where it is entered) and
ends with the nodes `v'`.

**Results.**
* `exists_of_finite`, `unique`: over finitely many nodes there is one such run.
* `entered_nodup`: no node is entered twice.
* `mem_entered_iff`: the nodes entered are those that can be reached.
-/
namespace GenVM.Lib.Dfs

variable {Node Act : Type}

inductive Item (Node Act : Type) where
  | act (a : Act)
  | node (n : Node)

variable (script : Node → List (Item Node Act))

inductive Runs : List Node → List (Item Node Act) → List (Item Node Act) → List Node → Prop
  | nil {v} : Runs v [] [] v
  | act {v a rest es v'} : Runs v rest es v' → Runs v (.act a :: rest) (.act a :: es) v'
  | seen {v n rest es v'} : n ∈ v → Runs v rest es v' → Runs v (.node n :: rest) es v'
  | enter {v n rest es₁ v₁ es₂ v₂} : n ∉ v → Runs (n :: v) (script n) es₁ v₁ →
      Runs v₁ rest es₂ v₂ → Runs v (.node n :: rest) (.node n :: (es₁ ++ es₂)) v₂

variable {script}

/-- The nodes of a list of items, in their order. -/
def nodes (items : List (Item Node Act)) : List Node :=
  items.filterMap fun
    | .act _ => none
    | .node n => some n

@[simp] theorem nodes_nil : nodes ([] : List (Item Node Act)) = [] := rfl

@[simp] theorem nodes_act (a : Act) (items : List (Item Node Act)) :
    nodes (.act a :: items) = nodes items := rfl

@[simp] theorem nodes_node (n : Node) (items : List (Item Node Act)) :
    nodes (.node n :: items) = n :: nodes items := rfl

@[simp] theorem nodes_append (xs ys : List (Item Node Act)) :
    nodes (xs ++ ys) = nodes xs ++ nodes ys := List.filterMap_append

theorem Runs.append {v v₁ v₂ : List Node} {xs ys es₁ es₂ : List (Item Node Act)}
    (h₁ : Runs script v xs es₁ v₁) (h₂ : Runs script v₁ ys es₂ v₂) :
    Runs script v (xs ++ ys) (es₁ ++ es₂) v₂ := by
  induction h₁ with
  | nil => exact h₂
  | act _ ih => exact .act (ih h₂)
  | seen hn _ ih => exact .seen hn (ih h₂)
  | enter hn hsub _ _ ih =>
    rw [List.cons_append, List.cons_append, List.append_assoc]
    exact .enter hn hsub (ih h₂)

theorem Runs.unique {v v₁ v₂ : List Node} {xs es₁ es₂ : List (Item Node Act)}
    (h₁ : Runs script v xs es₁ v₁) (h₂ : Runs script v xs es₂ v₂) : es₁ = es₂ ∧ v₁ = v₂ := by
  induction h₁ generalizing es₂ v₂ with
  | nil => cases h₂; exact ⟨rfl, rfl⟩
  | act _ ih =>
    cases h₂ with
    | act h =>
      obtain ⟨rfl, rfl⟩ := ih h
      exact ⟨rfl, rfl⟩
  | seen hn _ ih =>
    cases h₂ with
    | seen _ h => exact ih h
    | enter hn' _ _ => exact absurd hn hn'
  | enter hn _ _ ih₁ ih₂ =>
    cases h₂ with
    | seen hn' _ => exact absurd hn' hn
    | enter _ h h' =>
      obtain ⟨rfl, rfl⟩ := ih₁ h
      obtain ⟨rfl, rfl⟩ := ih₂ h'
      exact ⟨rfl, rfl⟩

/-- The nodes at the end are those at the beginning and those entered. -/
theorem Runs.visited {v v' : List Node} {xs es : List (Item Node Act)} (h : Runs script v xs es v') :
    v' = (nodes es).reverse ++ v := by
  induction h with
  | nil => rfl
  | act _ ih => exact ih
  | seen _ _ ih => exact ih
  | enter _ _ _ ih₁ ih₂ =>
    rw [ih₂, ih₁]
    simp

theorem Runs.subset {v v' : List Node} {xs es : List (Item Node Act)} (h : Runs script v xs es v') :
    v ⊆ v' := by
  rw [h.visited]
  exact List.subset_append_right _ _

theorem Runs.fresh {v v' : List Node} {xs es : List (Item Node Act)} (h : Runs script v xs es v') :
    (nodes es).Nodup ∧ ∀ n ∈ nodes es, n ∉ v := by
  induction h with
  | nil => exact ⟨List.nodup_nil, fun n hn => absurd hn List.not_mem_nil⟩
  | act _ ih => exact ih
  | seen _ _ ih => exact ih
  | @enter v n rest es₁ v₁ es₂ v₂ hn h₁ h₂ ih₁ ih₂ =>
    have hsub := h₁.subset
    rw [nodes_node, nodes_append]
    refine ⟨List.nodup_cons.mpr ⟨?_, List.nodup_append.mpr ⟨ih₁.1, ih₂.1, ?_⟩⟩, ?_⟩
    · intro hmem
      rcases List.mem_append.mp hmem with hmem | hmem
      · exact ih₁.2 n hmem List.mem_cons_self
      · exact ih₂.2 n hmem (hsub List.mem_cons_self)
    · intro a ha b hb hab
      refine ih₂.2 b hb ?_
      rw [h₁.visited, ← hab]
      exact List.mem_append_left _ (List.mem_reverse.mpr ha)
    · intro m hm hv
      rcases List.mem_cons.mp hm with rfl | hm
      · exact hn hv
      · rcases List.mem_append.mp hm with hm | hm
        · exact ih₁.2 m hm (List.mem_cons_of_mem _ hv)
        · exact ih₂.2 m hm (hsub (List.mem_cons_of_mem _ hv))

theorem Runs.entered_nodup {v v' : List Node} {xs es : List (Item Node Act)}
    (h : Runs script v xs es v') : (nodes es).Nodup := h.fresh.1

/-! ## Over finitely many nodes the run ends -/

section
variable [DecidableEq Node]

/-- How many of `all` are not in `v`. -/
def unvisited (all v : List Node) : Nat := (all.filter fun n => n ∉ v).length

theorem unvisited_le {all v v' : List Node} (h : v ⊆ v') : unvisited all v' ≤ unvisited all v := by
  apply List.Sublist.length_le
  apply List.monotone_filter_right
  intro n hn
  exact decide_eq_true fun hv => of_decide_eq_true hn (h hv)

theorem unvisited_lt {all v : List Node} {n : Node} (hn : n ∈ all) (hv : n ∉ v) :
    unvisited all (n :: v) < unvisited all v := by
  unfold unvisited
  rw [← List.countP_eq_length_filter, ← List.countP_eq_length_filter]
  have hle : ∀ l : List Node, l.countP (fun m => m ∉ n :: v) ≤ l.countP fun m => m ∉ v := by
    intro l
    apply List.countP_mono_left
    intro m _ hm
    exact decide_eq_true fun hmv => of_decide_eq_true hm (List.mem_cons_of_mem _ hmv)
  induction all with
  | nil => exact absurd hn List.not_mem_nil
  | cons m all ih =>
    rw [List.countP_cons, List.countP_cons]
    rcases List.mem_cons.mp hn with rfl | hn
    · rw [if_neg (by simp), if_pos (decide_eq_true hv)]
      have := hle all
      omega
    · have := ih hn
      by_cases hm : m ∉ n :: v
      · have hmv : m ∉ v := fun h => hm (List.mem_cons_of_mem _ h)
        rw [if_pos (decide_eq_true hm), if_pos (decide_eq_true hmv)]
        omega
      · rw [if_neg fun h => hm (of_decide_eq_true h)]
        omega

theorem exists_of_finite {all : List Node}
    (hall : ∀ n m, m ∈ nodes (script n) → m ∈ all) : ∀ (k : Nat) (v : List Node),
    unvisited all v ≤ k → ∀ items : List (Item Node Act), (∀ m ∈ nodes items, m ∈ all) →
    ∃ es v', Runs script v items es v' := by
  intro k
  induction k using Nat.strong_induction_on with
  | _ k ihk =>
    intro v hk items
    induction items generalizing v with
    | nil => intro _; exact ⟨[], v, .nil⟩
    | cons item rest ih =>
      intro hitems
      cases item with
      | act a =>
        obtain ⟨es, v', h⟩ := ih v hk hitems
        exact ⟨_, v', .act h⟩
      | node n =>
        have hrest : ∀ m ∈ nodes rest, m ∈ all := fun m hm => hitems m (List.mem_cons_of_mem _ hm)
        by_cases hn : n ∈ v
        · obtain ⟨es, v', h⟩ := ih v hk hrest
          exact ⟨es, v', .seen hn h⟩
        · have hlt := unvisited_lt (hitems n List.mem_cons_self) hn
          obtain ⟨es₁, v₁, h₁⟩ := ihk _ (Nat.lt_of_lt_of_le hlt hk) (n :: v) (le_refl _) (script n) (hall n)
          have hle : unvisited all v₁ ≤ unvisited all (n :: v) := unvisited_le h₁.subset
          obtain ⟨es₂, v₂, h₂⟩ := ih v₁ (by omega) hrest
          exact ⟨_, v₂, .enter hn h₁ h₂⟩

end

/-! ## Which nodes are entered -/

/-- `m` is referenced in the script of `n`. -/
def Edge (script : Node → List (Item Node Act)) (n m : Node) : Prop := m ∈ nodes (script n)

theorem Runs.reachable {v v' : List Node} {xs es : List (Item Node Act)} (h : Runs script v xs es v') :
    ∀ n ∈ nodes es, ∃ m ∈ nodes xs, Relation.ReflTransGen (Edge script) m n := by
  induction h with
  | nil => intro n hn; exact absurd hn List.not_mem_nil
  | act _ ih => exact ih
  | seen _ _ ih =>
    intro n hn
    obtain ⟨m, hm, hreach⟩ := ih n hn
    exact ⟨m, List.mem_cons_of_mem _ hm, hreach⟩
  | @enter v n rest es₁ v₁ es₂ v₂ _ _ _ ih₁ ih₂ =>
    intro p hp
    rw [nodes_node, nodes_append] at hp
    rcases List.mem_cons.mp hp with rfl | hp
    · exact ⟨p, List.mem_cons_self, .refl⟩
    · rcases List.mem_append.mp hp with hp | hp
      · obtain ⟨m, hm, hreach⟩ := ih₁ p hp
        exact ⟨n, List.mem_cons_self, .head hm hreach⟩
      · obtain ⟨m, hm, hreach⟩ := ih₂ p hp
        exact ⟨m, List.mem_cons_of_mem _ hm, hreach⟩

/-- What was referenced was entered, here or in the script of a node entered. -/
theorem Runs.closed {v v' : List Node} {xs es : List (Item Node Act)} (h : Runs script v xs es v') :
    (∀ m ∈ nodes xs, m ∈ v') ∧ ∀ n ∈ nodes es, ∀ m, Edge script n m → m ∈ v' := by
  induction h with
  | nil => exact ⟨fun m hm => absurd hm List.not_mem_nil, fun m hm => absurd hm List.not_mem_nil⟩
  | act _ ih => exact ih
  | seen hn h ih =>
    refine ⟨fun m hm => ?_, ih.2⟩
    rcases List.mem_cons.mp hm with rfl | hm
    · exact h.subset hn
    · exact ih.1 m hm
  | @enter v n rest es₁ v₁ es₂ v₂ hn h₁ h₂ ih₁ ih₂ =>
    refine ⟨fun m hm => ?_, fun p hp m hpm => ?_⟩
    · rcases List.mem_cons.mp hm with rfl | hm
      · exact h₂.subset (h₁.subset List.mem_cons_self)
      · exact ih₂.1 m hm
    · rw [nodes_node, nodes_append] at hp
      rcases List.mem_cons.mp hp with rfl | hp
      · exact h₂.subset (ih₁.1 m hpm)
      · rcases List.mem_append.mp hp with hp | hp
        · exact h₂.subset (ih₁.2 p hp m hpm)
        · exact ih₂.2 p hp m hpm

theorem Runs.mem_entered_iff {v' : List Node} {xs es : List (Item Node Act)}
    (h : Runs script [] xs es v') (n : Node) :
    n ∈ nodes es ↔ ∃ m ∈ nodes xs, Relation.ReflTransGen (Edge script) m n := by
  have hv : ∀ p, p ∈ v' → p ∈ nodes es := by
    intro p hp
    rw [h.visited, List.append_nil] at hp
    exact List.mem_reverse.mp hp
  refine ⟨h.reachable n, fun ⟨m, hm, hreach⟩ => ?_⟩
  induction hreach with
  | refl => exact hv m (h.closed.1 m hm)
  | tail hreach hedge ih => exact hv _ (h.closed.2 _ (ih ⟨m, hm, hreach⟩) _ hedge)

end GenVM.Lib.Dfs
