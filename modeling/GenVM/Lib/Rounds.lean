import Mathlib

/-!
# Words written in rounds

Each word of a sequence has the number of the round it is written in. `spread`
is what the rounds leave behind: round by round, and in order within a round.

Results:
* `spread_sorted`: in order of rounds, the words come out as they are.
* `pairwise_of_spread`: words that tell early rounds from late ones, and come out
  as they are, have every early word before every late one.
-/
namespace GenVM.Rounds
variable {α : Type}

/-- The words of the first round. -/
def now (ws : List (Nat × List α)) : List α := (ws.filter fun p => p.1 = 0).flatMap Prod.snd

/-- The words of the other rounds, one round earlier. -/
def later (ws : List (Nat × List α)) : List (Nat × List α) :=
  (ws.filter fun p => p.1 ≠ 0).map fun p => (p.1 - 1, p.2)

def spread : Nat → List (Nat × List α) → List α
  | 0, _ => []
  | d + 1, ws => now ws ++ spread d (later ws)

def whole (ws : List (Nat × List α)) : List α := ws.flatMap Prod.snd

/-! ## One round -/

@[simp] theorem now_nil : now ([] : List (Nat × List α)) = [] := rfl

@[simp] theorem later_nil : later ([] : List (Nat × List α)) = [] := rfl

@[simp] theorem now_append (a b : List (Nat × List α)) : now (a ++ b) = now a ++ now b := by
  simp [now]

@[simp] theorem later_append (a b : List (Nat × List α)) : later (a ++ b) = later a ++ later b := by
  simp [later]

@[simp] theorem whole_append (a b : List (Nat × List α)) : whole (a ++ b) = whole a ++ whole b := by
  simp [whole]

theorem now_flatMap {β : Type} (f : β → List (Nat × List α)) (xs : List β) :
    now (xs.flatMap f) = xs.flatMap fun x => now (f x) := by
  induction xs with
  | nil => rfl
  | cons x xs ih => rw [List.flatMap_cons, now_append, ih, List.flatMap_cons]

theorem later_flatMap {β : Type} (f : β → List (Nat × List α)) (xs : List β) :
    later (xs.flatMap f) = xs.flatMap fun x => later (f x) := by
  induction xs with
  | nil => rfl
  | cons x xs ih => rw [List.flatMap_cons, later_append, ih, List.flatMap_cons]

theorem now_of_pos {ws : List (Nat × List α)} (h : ∀ p ∈ ws, p.1 ≠ 0) : now ws = [] := by
  unfold now
  rw [List.filter_eq_nil_iff.mpr fun p hp => by simpa using h p hp]
  rfl

theorem now_delayed (ws : List (Nat × List α)) : now (ws.map fun p => (p.1 + 1, p.2)) = [] := by
  apply now_of_pos
  intro p hp
  obtain ⟨q, -, rfl⟩ := List.mem_map.mp hp
  exact Nat.succ_ne_zero _

theorem later_delayed (ws : List (Nat × List α)) :
    later (ws.map fun p => (p.1 + 1, p.2)) = ws := by
  simp [later, List.filter_map, Function.comp_def]

theorem later_lt {d : Nat} {ws : List (Nat × List α)} (h : ∀ p ∈ ws, p.1 < d + 1) :
    ∀ p ∈ later ws, p.1 < d := by
  intro p hp
  obtain ⟨q, hq, rfl⟩ := List.mem_map.mp hp
  obtain ⟨hmem, hne⟩ := List.mem_filter.mp hq
  have hlt := h q hmem
  simp only [ne_eq, decide_not, Bool.not_eq_eq_eq_not, Bool.not_true, decide_eq_false_iff_not] at hne
  dsimp only
  omega

theorem length_split (ws : List (Nat × List α)) :
    (now ws).length + (whole (later ws)).length = (whole ws).length := by
  induction ws with
  | nil => rfl
  | cons p ws ih =>
    by_cases hp : p.1 = 0
    · simp [now, later, whole, hp] at ih ⊢
      omega
    · simp [now, later, whole, hp] at ih ⊢
      omega

theorem length_spread {d : Nat} {ws : List (Nat × List α)} (h : ∀ p ∈ ws, p.1 < d) :
    (spread d ws).length = (whole ws).length := by
  induction d generalizing ws with
  | zero =>
    have hnil : ws = [] := List.eq_nil_iff_forall_not_mem.mpr fun p hp => absurd (h p hp) (by omega)
    rw [hnil]
    rfl
  | succ d ih =>
    rw [spread, List.length_append, ih (later_lt h), length_split]

/-! ## In order of rounds -/

/-- No word stands before one of an earlier round. -/
def Ordered (ws : List (Nat × List α)) : Prop := ws.Pairwise fun a b => a.1 ≤ b.1

theorem whole_later {ws : List (Nat × List α)} (h : ∀ p ∈ ws, p.1 ≠ 0) :
    whole (later ws) = whole ws := by
  unfold later whole
  rw [List.filter_eq_self.mpr fun p hp => by simpa using h p hp, List.flatMap_map]

theorem Ordered.split {ws : List (Nat × List α)} (h : Ordered ws) :
    now ws ++ whole (later ws) = whole ws := by
  induction ws with
  | nil => rfl
  | cons p ws ih =>
    obtain ⟨hp, hws⟩ := List.pairwise_cons.mp h
    by_cases h0 : p.1 = 0
    · have := ih hws
      simp only [now, later, whole, h0, decide_true, List.filter_cons_of_pos, List.flatMap_cons,
        ne_eq, not_true_eq_false, decide_false, Bool.false_eq_true, not_false_eq_true,
        List.filter_cons_of_neg, List.append_assoc] at this ⊢
      rw [this]
    · have hpos : ∀ q ∈ p :: ws, q.1 ≠ 0 := by
        intro q hq
        rcases List.mem_cons.mp hq with rfl | hq
        · exact h0
        · have hle := hp q hq
          omega
      rw [now_of_pos hpos, whole_later hpos, List.nil_append]

theorem Ordered.later {ws : List (Nat × List α)} (h : Ordered ws) : Ordered (later ws) := by
  unfold Ordered Rounds.later
  rw [List.pairwise_map]
  exact (h.filter _).imp fun hle => Nat.sub_le_sub_right hle 1

theorem spread_sorted {d : Nat} {ws : List (Nat × List α)} (h : Ordered ws)
    (hlt : ∀ p ∈ ws, p.1 < d) : spread d ws = whole ws := by
  induction d generalizing ws with
  | zero =>
    have hnil : ws = [] :=
      List.eq_nil_iff_forall_not_mem.mpr fun p hp => absurd (hlt p hp) (by omega)
    rw [hnil]
    rfl
  | succ d ih => rw [spread, ih h.later (later_lt hlt), h.split]

/-! ## Out of order -/

/-- The words by rounds, with their rounds. -/
def bucket (d : Nat) (ws : List (Nat × List α)) : List (Nat × List α) :=
  (List.range d).flatMap fun k => ws.filter fun p => p.1 = k

theorem mem_bucket {d : Nat} {ws : List (Nat × List α)} {p : Nat × List α} (h : p ∈ bucket d ws) :
    p ∈ ws := by
  obtain ⟨k, -, hk⟩ := List.mem_flatMap.mp h
  exact (List.mem_filter.mp hk).1

theorem bucket_ordered (d : Nat) (ws : List (Nat × List α)) : Ordered (bucket d ws) := by
  induction d with
  | zero => exact List.Pairwise.nil
  | succ d ih =>
    unfold Ordered bucket at ih ⊢
    rw [List.range_succ, List.flatMap_append, List.flatMap_singleton, List.pairwise_append]
    refine ⟨ih, ?_, ?_⟩
    · apply List.pairwise_of_forall_mem_list
      intro a ha b hb
      have h1 := (List.mem_filter.mp ha).2
      have h2 := (List.mem_filter.mp hb).2
      simp only [decide_eq_true_eq] at h1 h2
      omega
    · intro a ha b hb
      obtain ⟨k, hk, hak⟩ := List.mem_flatMap.mp ha
      have h1 := (List.mem_filter.mp hak).2
      have h2 := (List.mem_filter.mp hb).2
      have hlt := List.mem_range.mp hk
      simp only [decide_eq_true_eq] at h1 h2
      omega

theorem filter_later (ws : List (Nat × List α)) (k : Nat) :
    ((later ws).filter fun p => p.1 = k).flatMap Prod.snd =
      (ws.filter fun p => p.1 = k + 1).flatMap Prod.snd := by
  induction ws with
  | nil => rfl
  | cons p ws ih =>
    obtain ⟨r, w⟩ := p
    cases r with
    | zero => simpa [later] using ih
    | succ r =>
      by_cases hr : r = k
      · simpa [later, hr] using ih
      · simpa [later, hr] using ih

theorem spread_bucket (d : Nat) (ws : List (Nat × List α)) :
    spread d ws = (bucket d ws).flatMap Prod.snd := by
  induction d generalizing ws with
  | zero => rfl
  | succ d ih =>
    have htail (k : Nat) := filter_later ws k
    unfold bucket at ih ⊢
    rw [spread, ih, List.range_succ_eq_map, List.flatMap_cons, List.flatMap_append,
      List.flatMap_assoc, List.flatMap_map, List.flatMap_assoc]
    simp only [htail]
    rfl

/-- Lists of words of one length are told apart by their bytes. -/
theorem words_inj {n : Nat} (hn : 0 < n) : ∀ {a b : List (List α)}, (∀ x ∈ a, x.length = n) →
    (∀ x ∈ b, x.length = n) → a.flatten = b.flatten → a = b
  | [], [], _, _, _ => rfl
  | [], y :: b, _, hb, h => by
    have hlen := congrArg List.length h
    have hy := hb y List.mem_cons_self
    simp only [List.flatten_nil, List.length_nil, List.flatten_cons, List.length_append] at hlen
    omega
  | x :: a, [], ha, _, h => by
    have hlen := congrArg List.length h
    have hx := ha x List.mem_cons_self
    simp only [List.flatten_nil, List.length_nil, List.flatten_cons, List.length_append] at hlen
    omega
  | x :: a, y :: b, ha, hb, h => by
    rw [List.flatten_cons, List.flatten_cons] at h
    have hxy : x.length = y.length :=
      (ha x List.mem_cons_self).trans (hb y List.mem_cons_self).symm
    obtain ⟨rfl, hrest⟩ := List.append_inj h hxy
    rw [words_inj hn (fun z hz => ha z (List.mem_cons_of_mem _ hz))
      (fun z hz => hb z (List.mem_cons_of_mem _ hz)) hrest]

/-- Words that tell whether their round is at least `k` keep that order. -/
theorem pairwise_of_spread {n k d : Nat} (late : List α → Prop) {ws : List (Nat × List α)}
    (hn : 0 < n) (hlen : ∀ p ∈ ws, p.2.length = n) (hlate : ∀ p ∈ ws, late p.2 ↔ k ≤ p.1)
    (h : spread d ws = whole ws) : ws.Pairwise fun a b => k ≤ a.1 → k ≤ b.1 := by
  have hsame : (bucket d ws).map Prod.snd = ws.map Prod.snd := by
    apply words_inj hn
    · intro x hx
      obtain ⟨p, hp, rfl⟩ := List.mem_map.mp hx
      exact hlen p (mem_bucket hp)
    · intro x hx
      obtain ⟨p, hp, rfl⟩ := List.mem_map.mp hx
      exact hlen p hp
    · rw [spread_bucket] at h
      exact h
  have hbucket : ((bucket d ws).map Prod.snd).Pairwise fun a b => late a → late b := by
    rw [List.pairwise_map]
    refine (bucket_ordered d ws).imp_of_mem fun {a b} ha hb hle hla => ?_
    have hka := (hlate a (mem_bucket ha)).mp hla
    exact (hlate b (mem_bucket hb)).mpr (by omega)
  rw [hsame, List.pairwise_map] at hbucket
  exact hbucket.imp_of_mem fun ha hb himp hka => (hlate _ hb).mp (himp ((hlate _ ha).mpr hka))

/-- Rounds that keep their order at every threshold are in order. -/
theorem pairwise_le {rs : List Nat} (h : ∀ k, rs.Pairwise fun a b => k ≤ a → k ≤ b) :
    rs.Pairwise (· ≤ ·) := by
  rw [List.pairwise_iff_getElem]
  intro i j hi hj hij
  exact List.pairwise_iff_getElem.mp (h rs[i]) i j hi hj hij (Nat.le_refl _)

end GenVM.Rounds
