import Mathlib

/-!
# Maps as sorted association lists

`insert` keeps a list of entries in strictly ascending key order and replaces
the value of a key that is already there. The order is a parameter (`lt`), so a
map over strings can be sorted by whichever string order its program uses.
-/
namespace GenVM.Lib.SortedMap

variable {K V : Type} (lt : K → K → Prop)

/-- A strict total order. -/
structure StrictOrder (lt : K → K → Prop) : Prop where
  irrefl : ∀ a, ¬ lt a a
  trans : ∀ a b c, lt a b → lt b c → lt a c
  tri : ∀ a b, ¬ lt a b → ¬ lt b a → a = b

theorem StrictOrder.asymm {lt : K → K → Prop} (h : StrictOrder lt) {a b : K} (hab : lt a b) :
    ¬ lt b a :=
  fun hba => h.irrefl a (h.trans a b a hab hba)

theorem nat_order : StrictOrder (fun a b : Nat => a < b) where
  irrefl := Nat.lt_irrefl
  trans _ _ _ := Nat.lt_trans
  tri _ _ h1 h2 := Nat.le_antisymm (Nat.not_lt.mp h2) (Nat.not_lt.mp h1)

def Sorted (l : List (K × V)) : Prop := l.Pairwise fun a b => lt a.1 b.1

instance [DecidableRel lt] (l : List (K × V)) : Decidable (Sorted lt l) := by
  unfold Sorted; infer_instance

def insert [DecidableRel lt] (k : K) (v : V) : List (K × V) → List (K × V)
  | [] => [(k, v)]
  | (k', v') :: l =>
    if lt k k' then (k, v) :: (k', v') :: l
    else if lt k' k then (k', v') :: insert k v l
    else (k, v) :: l

variable {lt}

@[simp] theorem sorted_nil : Sorted lt ([] : List (K × V)) := List.Pairwise.nil

theorem sorted_cons {k : K} {v : V} {l : List (K × V)} :
    Sorted lt ((k, v) :: l) ↔ (∀ x ∈ l, lt k x.1) ∧ Sorted lt l := List.pairwise_cons

/-- The keys below are passed over. -/
theorem insert_append [DecidableRel lt] (ho : StrictOrder lt) {k : K} (v : V) {ys : List (K × V)} :
    ∀ {xs : List (K × V)}, (∀ x ∈ xs, lt x.1 k) → insert lt k v (xs ++ ys) = xs ++ insert lt k v ys
  | [], _ => rfl
  | (k', v') :: xs, h => by
    have hk : lt k' k := h (k', v') (List.mem_cons_self ..)
    rw [List.cons_append, insert, if_neg (ho.asymm hk), if_pos hk,
      insert_append ho v fun x hx => h x (List.mem_cons_of_mem _ hx), List.cons_append]

/-- A key above every key goes to the end. -/
theorem insert_last [DecidableRel lt] (ho : StrictOrder lt) {k : K} (v : V) {l : List (K × V)}
    (h : ∀ x ∈ l, lt x.1 k) : insert lt k v l = l ++ [(k, v)] := by
  have happ : insert lt k v (l ++ []) = l ++ insert lt k v [] := insert_append ho v h
  rwa [List.append_nil] at happ

/-- A key below every key goes to the front. -/
theorem insert_first [DecidableRel lt] {k : K} (v : V) {l : List (K × V)} (h : ∀ x ∈ l, lt k x.1) :
    insert lt k v l = (k, v) :: l := by
  cases l with
  | nil => rfl
  | cons p l => rw [insert, if_pos (h p (List.mem_cons_self ..))]

theorem insert_same [DecidableRel lt] (ho : StrictOrder lt) (k : K) (v w : V) (l : List (K × V)) :
    insert lt k v ((k, w) :: l) = (k, v) :: l := by
  rw [insert, if_neg (ho.irrefl k), if_neg (ho.irrefl k)]

theorem sorted_append_last {l : List (K × V)} {k : K} {v : V} (hl : Sorted lt l)
    (h : ∀ x ∈ l, lt x.1 k) : Sorted lt (l ++ [(k, v)]) := by
  refine List.pairwise_append.mpr ⟨hl, List.pairwise_singleton _ _, ?_⟩
  intro x hx y hy
  rw [List.mem_singleton] at hy
  subst hy
  exact h x hx

/-- The map without a key. -/
def erase [DecidableEq K] (k : K) (l : List (K × V)) : List (K × V) := l.filter fun e => e.1 ≠ k

theorem erase_absent [DecidableEq K] {k : K} {l : List (K × V)} (h : ∀ x ∈ l, x.1 ≠ k) : erase k l = l :=
  List.filter_eq_self.mpr fun x hx => decide_eq_true (h x hx)

theorem erase_mid [DecidableEq K] {k : K} {v : V} {xs ys : List (K × V)} (hx : ∀ x ∈ xs, x.1 ≠ k)
    (hy : ∀ y ∈ ys, y.1 ≠ k) : erase k (xs ++ (k, v) :: ys) = xs ++ ys := by
  have hxs := erase_absent hx
  have hys := erase_absent hy
  unfold erase at hxs hys ⊢
  rw [List.filter_append, List.filter_cons_of_neg (by simp), hxs, hys]

/-! ## Building a map from its items -/

section
variable [DecidableRel lt]

theorem mem_insert {k : K} {v : V} : ∀ {l : List (K × V)} {x : K × V},
    x ∈ insert lt k v l → x = (k, v) ∨ x ∈ l
  | [], x, h => by simpa [insert] using h
  | (k', v') :: l, x, h => by
    rw [insert] at h
    split at h
    · exact List.mem_cons.mp h
    · split at h
      · rcases List.mem_cons.mp h with h | h
        · exact .inr (List.mem_cons.mpr (.inl h))
        · exact (mem_insert h).imp_right (List.mem_cons_of_mem _)
      · exact (List.mem_cons.mp h).imp_right (List.mem_cons_of_mem _)

omit [DecidableRel lt] in
theorem lookup_cons [DecidableEq K] (k k' : K) (v : V) (l : List (K × V)) :
    ((k, v) :: l).lookup k' = if k' = k then some v else l.lookup k' := by
  rw [List.lookup_cons]
  split
  · next h => rw [if_pos (eq_of_beq h)]
  · next h => rw [if_neg (ne_of_beq_false h)]

omit [DecidableRel lt] in
theorem mem_of_lookup [DecidableEq K] {k : K} {v : V} : ∀ {es : List (K × V)}, es.lookup k = some v → (k, v) ∈ es
  | [], h => by simp at h
  | (k', v') :: es, h => by
    rw [List.lookup_cons] at h
    split at h
    · next hk =>
      obtain rfl := eq_of_beq hk
      obtain rfl := Option.some.inj h
      exact List.mem_cons_self ..
    · exact List.mem_cons_of_mem _ (mem_of_lookup h)

theorem lookup_insert [DecidableEq K] (ho : StrictOrder lt) (k k' : K) (v : V) :
    ∀ l : List (K × V), (insert lt k v l).lookup k' = if k' = k then some v else l.lookup k'
  | [] => by rw [insert, lookup_cons]
  | (q, w) :: l => by
    rw [insert]
    split
    · rw [lookup_cons]
    · next h1 =>
      split
      · next h2 =>
        rw [lookup_cons, lookup_cons, lookup_insert ho k k' v l]
        by_cases hq : k' = q
        · have hk : k' ≠ k := by
            intro hk
            rw [← hq, hk] at h2
            exact ho.irrefl k h2
          rw [if_pos hq, if_neg hk, if_pos hq]
        · rw [if_neg hq, if_neg hq]
      · next h2 =>
        obtain rfl := ho.tri k q h1 h2
        rw [lookup_cons, lookup_cons]
        split <;> rfl

theorem sorted_insert (ho : StrictOrder lt) {k : K} {v : V} :
    ∀ {l : List (K × V)}, Sorted lt l → Sorted lt (insert lt k v l)
  | [], _ => List.pairwise_singleton _ _
  | (k', v') :: l, h => by
    obtain ⟨hall, hl⟩ := sorted_cons.mp h
    rw [insert]
    split
    · next hk =>
      refine sorted_cons.mpr ⟨fun x hx => ?_, h⟩
      rcases List.mem_cons.mp hx with rfl | hx
      · exact hk
      · exact ho.trans _ _ _ hk (hall x hx)
    · split
      · next hk =>
        refine sorted_cons.mpr ⟨fun x hx => ?_, sorted_insert ho hl⟩
        rcases mem_insert hx with rfl | hx
        · exact hk
        · exact hall x hx
      · next h1 h2 =>
        obtain rfl := ho.tri k k' h1 h2
        exact sorted_cons.mpr ⟨hall, hl⟩

theorem insert_perm (ho : StrictOrder lt) {k : K} {v : V} :
    ∀ {l : List (K × V)}, (∀ x ∈ l, x.1 ≠ k) → (insert lt k v l).Perm ((k, v) :: l)
  | [], _ => List.Perm.refl _
  | (k', v') :: l, h => by
    rw [List.forall_mem_cons] at h
    rw [insert]
    split
    · exact List.Perm.refl _
    · split
      · exact ((insert_perm ho h.2).cons _).trans (List.Perm.swap ..)
      · next h1 h2 => exact absurd (ho.tri k k' h1 h2).symm h.1

/-- Only a new key makes the map longer. -/
theorem length_insert [DecidableEq K] (ho : StrictOrder lt) {k : K} {v : V} :
    ∀ {l : List (K × V)}, Sorted lt l →
      (insert lt k v l).length = l.length + if (l.lookup k).isSome then 0 else 1
  | [], _ => rfl
  | (k', v') :: l, hl => by
    obtain ⟨hall, hl⟩ := sorted_cons.mp hl
    have ih := length_insert ho (k := k) (v := v) hl
    rw [insert, lookup_cons]
    split
    · next h =>
      have hne : k ≠ k' := fun he => ho.irrefl k (he ▸ h)
      have hnone : l.lookup k = none := by
        cases hv : l.lookup k with
        | none => rfl
        | some w => exact absurd (hall _ (mem_of_lookup hv)) (ho.asymm h)
      rw [if_neg hne, hnone]
      rfl
    · split
      · next h =>
        have hne : k ≠ k' := fun he => ho.irrefl k (by rw [he] at h; rw [he]; exact h)
        rw [List.length_cons, ih, if_neg hne, List.length_cons]
        omega
      · next h1 h2 =>
        rw [if_pos (ho.tri k k' h1 h2)]
        rfl

variable (lt) in
/-- Insert the items one after the other. -/
def ofList (l : List (K × V)) : List (K × V) := l.foldl (fun m kv => insert lt kv.1 kv.2 m) []

theorem sorted_foldl (ho : StrictOrder lt) (l : List (K × V)) :
    ∀ m, Sorted lt m → Sorted lt (l.foldl (fun m kv => insert lt kv.1 kv.2 m) m) := by
  induction l with
  | nil => exact fun m hm => hm
  | cons kv l ih => exact fun m hm => ih _ (sorted_insert ho hm)

theorem sorted_ofList (ho : StrictOrder lt) (l : List (K × V)) : Sorted lt (ofList lt l) :=
  sorted_foldl ho l [] sorted_nil

theorem mem_foldl {x : K × V} : ∀ {l m : List (K × V)},
    x ∈ l.foldl (fun m kv => insert lt kv.1 kv.2 m) m → x ∈ m ∨ x ∈ l
  | [], _, h => .inl h
  | kv :: l, m, h => by
    rcases mem_foldl (l := l) h with h | h
    · exact (mem_insert h).elim (fun h => .inr (h ▸ List.mem_cons_self ..)) .inl
    · exact .inr (List.mem_cons_of_mem _ h)

/-- A map holds items it was built from. -/
theorem mem_ofList {l : List (K × V)} {x : K × V} (h : x ∈ ofList lt l) : x ∈ l :=
  (mem_foldl h).resolve_left (List.not_mem_nil)

theorem foldl_perm (ho : StrictOrder lt) : ∀ (l m : List (K × V)), ((m ++ l).map Prod.fst).Nodup →
    (l.foldl (fun m kv => insert lt kv.1 kv.2 m) m).Perm (m ++ l)
  | [], m, _ => by rw [List.append_nil]; exact List.Perm.refl _
  | (k, v) :: l, m, h => by
    have hk : ∀ x ∈ m, x.1 ≠ k := by
      rw [List.map_append, List.nodup_append] at h
      exact fun x hx => h.2.2 x.1 (List.mem_map_of_mem hx) k (by simp)
    have hp := insert_perm ho (v := v) hk
    have hcomm : (insert lt k v m ++ l).Perm (m ++ (k, v) :: l) :=
      (hp.append_right l).trans (List.perm_middle.symm)
    exact (foldl_perm ho l _ ((hcomm.map _).nodup_iff.mpr h)).trans hcomm

/-- With distinct keys every item is there once. -/
theorem ofList_perm (ho : StrictOrder lt) {l : List (K × V)} (h : (l.map Prod.fst).Nodup) :
    (ofList lt l).Perm l := foldl_perm ho l [] h

theorem foldl_sorted (ho : StrictOrder lt) : ∀ (l m : List (K × V)), Sorted lt (m ++ l) →
    l.foldl (fun m kv => insert lt kv.1 kv.2 m) m = m ++ l
  | [], m, _ => (List.append_nil m).symm
  | (k, v) :: l, m, h => by
    have hk : ∀ x ∈ m, lt x.1 k := fun x hx =>
      (List.pairwise_append.mp h).2.2 x hx (k, v) (List.mem_cons_self ..)
    rw [List.foldl_cons, insert_last ho v hk, foldl_sorted ho l _ (by simpa using h),
      List.append_assoc, List.singleton_append]

/-- Items already in order stay as they are. -/
theorem ofList_sorted (ho : StrictOrder lt) {l : List (K × V)} (h : Sorted lt l) : ofList lt l = l :=
  foldl_sorted ho l [] h

end

end GenVM.Lib.SortedMap
