import GenVM.Py.EvmRun

/-!
# When the Python encoder follows the specification

The specification writes the heads of the components in order, then the tails.
The encoder writes its queue in rounds, and a static tuple moves its words to a
later round. `Aligned` says of a type that no word is overtaken.

Results:
* `body_eq`, `args_eq`: on aligned types the rounds are heads and tails.
* `body_misplaced`, `args_misplaced`: any other type has a small value that comes
  out wrong.
-/
namespace GenVM.Py.Evm
open GenVM.Abi GenVM.Rounds

/-! ## Rounds of a type -/

mutual
/-- The rounds in which the words of a static type are written, in the order of the
specification. -/
def rounds : Ty → List Nat
  | .fixed size t => (List.replicate size (rounds t)).flatten
  | .tuple ts => (roundsAll ts).map (· + 1)
  | _ => [0]
def roundsAll : List Ty → List Nat
  | [] => []
  | t :: ts => rounds t ++ roundsAll ts
end

mutual
/-- The encoder of a dynamic type writes heads and tails: its elements have their words in one
round; next to a dynamic component no word of a static one is late. -/
def Aligned : Ty → Prop
  | .array t =>
    (t.dynamic = true → Aligned t) ∧
      (t.dynamic = false → ∀ a ∈ rounds t, ∀ b ∈ rounds t, a = b)
  | .fixed size t => t.dynamic = true → size = 0 ∨ Aligned t
  | .tuple ts => Ty.anyDynamic ts = true → AlignedAll ts
  | _ => True
/-- The components next to a dynamic one. -/
def AlignedAll : List Ty → Prop
  | [] => True
  | t :: ts => (t.dynamic = true → Aligned t) ∧ (t.dynamic = false → ∀ r ∈ rounds t, r = 0) ∧
    AlignedAll ts
end

/-- The arguments of a call: without a dynamic one, their words come in the order of their
rounds. -/
def AlignedArgs (params : List Ty) : Prop :=
  (Ty.anyDynamic params = true → AlignedAll params) ∧
    (Ty.anyDynamic params = false → (roundsAll params).Pairwise (· ≤ ·))

mutual
theorem le_depth : ∀ (t : Ty) {r : Nat}, r ∈ rounds t → r ≤ depth t
  | .fixed size t, r, h => by
    obtain ⟨rs, hrs, hr⟩ := List.mem_flatten.mp h
    rw [(List.mem_replicate.mp hrs).2] at hr
    exact le_depth t hr
  | .tuple ts, r, h => by
    obtain ⟨q, hq, rfl⟩ := List.mem_map.mp h
    exact Nat.succ_le_succ (le_depths ts hq)
  | .uint _, _, h | .int _, _, h | .bool, _, h | .address, _, h | .fixedBytes _, _, h
  | .bytes, _, h | .string, _, h | .array _, _, h => (List.mem_singleton.mp h).le
theorem le_depths : ∀ (ts : List Ty) {r : Nat}, r ∈ roundsAll ts → r ≤ depths ts
  | t :: ts, r, h => by
    rcases List.mem_append.mp h with h | h
    · exact (le_depth t h).trans (Nat.le_max_left _ _)
    · exact (le_depths ts h).trans (Nat.le_max_right _ _)
end

/-- Elements of one type have the rounds of the type, over and over. -/
theorem elements_rounds {t : Ty} (h : ∀ v, (words t v).map Prod.fst = rounds t) (vs : List t.Val) :
    (vs.flatMap (words t)).map Prod.fst = (List.replicate vs.length (rounds t)).flatten := by
  rw [List.map_flatMap, List.flatMap_def, ← List.map_const']
  congr 2
  funext v
  exact h v

mutual
theorem words_rounds : ∀ (t : Ty) (v : t.Val), t.dynamic = false →
    (words t v).map Prod.fst = rounds t
  | .fixed size t, vs, h => by
    have ht : t.dynamic = false := h
    have hwords := elements_rounds (fun v => words_rounds t v ht) vs.val
    rw [vs.property] at hwords
    exact hwords
  | .tuple ts, vs, h => by
    have hwords := wordsAll_rounds ts vs h
    unfold words rounds
    rw [List.map_map, ← hwords, List.map_map]
    rfl
  | .uint _, _, _ | .int _, _, _ | .bool, _, _ | .address, _, _ | .fixedBytes _, _, _ => rfl
theorem wordsAll_rounds : ∀ (ts : List Ty) (vs : Ty.Vals ts), Ty.anyDynamic ts = false →
    (wordsAll ts vs).map Prod.fst = roundsAll ts
  | [], _, _ => rfl
  | t :: ts, vs, h => by
    obtain ⟨h1, h2⟩ := Bool.or_eq_false_iff.mp h
    unfold wordsAll roundsAll
    rw [List.map_append, words_rounds t vs.1 h1, wordsAll_rounds ts vs.2 h2]
end

/-! ## The specification on arguments -/

def part (a : Arg) : Part := Part.of a.1.dynamic (enc a.1 a.2)

theorem parts_eq (ts : List Ty) : ∀ vs : Ty.Vals ts, parts ts vs = (components ts vs).map part := by
  induction ts with
  | nil => exact fun _ => rfl
  | cons t ts ih =>
    intro vs
    unfold parts components
    rw [ih vs.2]
    rfl

theorem part_static {a : Arg} (h : a.1.dynamic = false) : part a = .inline (enc a.1 a.2) := by
  unfold part
  rw [h]
  rfl

theorem part_dynamic {a : Arg} (h : a.1.dynamic = true) : part a = .behind (enc a.1 a.2) := by
  unfold part
  rw [h]
  rfl

theorem layout_static {as : List Arg} (h : ∀ a ∈ as, a.1.dynamic = false) :
    layout (as.map part) = as.flatMap fun a => enc a.1 a.2 := by
  have hheads (off : Nat) : heads off (as.map part) = as.flatMap fun a => enc a.1 a.2 := by
    induction as with
    | nil => rfl
    | cons a as ih =>
      rw [List.map_cons, part_static (h a List.mem_cons_self), heads, List.flatMap_cons,
        ih fun b hb => h b (List.mem_cons_of_mem a hb)]
  have htails : tails (as.map part) = [] := by
    unfold tails
    rw [List.flatMap_map, List.flatMap_eq_nil_iff]
    intro a ha
    rw [part_static (h a ha)]
    rfl
  unfold layout
  rw [hheads, htails, List.append_nil]

theorem elements_part {t : Ty} (vs : List t.Val) :
    (vs.map fun v => Part.of t.dynamic (enc t v)) = (vs.map fun v => (⟨t, v⟩ : Arg)).map part := by
  rw [List.map_map]
  rfl

theorem whole_flatMap {α : Type} (f : α → List (Nat × Bytes)) (xs : List α) :
    whole (xs.flatMap f) = xs.flatMap fun x => whole (f x) := by
  unfold whole
  rw [List.flatMap_assoc]

theorem whole_delayed (ws : List (Nat × Bytes)) :
    whole (ws.map fun p => (p.1 + 1, p.2)) = whole ws := by
  unfold whole
  rw [List.flatMap_map]

mutual
/-- The words of a static value are its encoding. -/
theorem whole_words : ∀ (t : Ty) (v : t.Val), t.dynamic = false → whole (words t v) = enc t v
  | .fixed size t, vs, h => by
    have ht : t.dynamic = false := h
    have hstatic : ∀ a ∈ vs.val.map fun v => (⟨t, v⟩ : Arg), a.1.dynamic = false := by simp [ht]
    have hlayout := layout_static hstatic
    have henc : enc (.fixed size t) vs = vs.val.flatMap fun v => enc t v := by
      rw [List.flatMap_map] at hlayout
      exact (congrArg layout (elements_part vs.val)).trans hlayout
    have hwhole : whole (words (.fixed size t) vs) = vs.val.flatMap fun v => whole (words t v) :=
      whole_flatMap (words t) vs.val
    rw [hwhole, henc]
    simp only [fun v => whole_words t v ht]
  | .tuple ts, vs, h => by
    have hstatic : ∀ a ∈ components ts vs, a.1.dynamic = false := fun a ha => static_component ha h
    have hlayout := layout_static hstatic
    have henc : enc (.tuple ts) vs = (components ts vs).flatMap fun a => enc a.1 a.2 :=
      (congrArg layout (parts_eq ts vs)).trans hlayout
    rw [henc, ← wholeAll_words ts vs h]
    exact whole_delayed _
  | .uint _, _, _ | .int _, _, _ | .bool, _, _ | .address, _, _ | .fixedBytes _, _, _ =>
    List.append_nil _
theorem wholeAll_words : ∀ (ts : List Ty) (vs : Ty.Vals ts), Ty.anyDynamic ts = false →
    whole (wordsAll ts vs) = (components ts vs).flatMap fun a => enc a.1 a.2
  | [], _, _ => rfl
  | t :: ts, vs, h => by
    obtain ⟨h1, h2⟩ := Bool.or_eq_false_iff.mp h
    unfold wordsAll components
    rw [whole_append, whole_words t vs.1 h1, wholeAll_words ts vs.2 h2, List.flatMap_cons]
end

/-! ## Rounds that are heads and tails -/

section Compare
variable {as : List Arg} {d : Nat}

theorem items_static (h : ∀ a ∈ as, a.1.dynamic = false) (d : Nat) :
    queue d (as.map item) = spread (d + 2) (as.flatMap fun a => words a.1 a.2) := by
  have hfirst : (as.map item).flatMap Item.first = now (as.flatMap fun a => words a.1 a.2) := by
    rw [now_flatMap, List.flatMap_map]
    exact List.flatMap_congr fun a ha => by rw [item_static (h a ha)]; rfl
  have hsecond : (as.map item).flatMap Item.second =
      now (later (as.flatMap fun a => words a.1 a.2)) := by
    rw [later_flatMap, now_flatMap, List.flatMap_map]
    exact List.flatMap_congr fun a ha => by rw [item_static (h a ha)]; rfl
  have hothers : (as.map item).flatMap Item.others =
      later (later (as.flatMap fun a => words a.1 a.2)) := by
    rw [later_flatMap, later_flatMap, List.flatMap_map]
    exact List.flatMap_congr fun a ha => by rw [item_static (h a ha)]; rfl
  have hfilled (off : Nat) : filled off (as.map item) = (as.map item).flatMap Item.first := by
    clear hfirst hsecond hothers
    induction as generalizing off with
    | nil => rfl
    | cons a as ih =>
      rw [List.map_cons, item_static (h a List.mem_cons_self), filled, List.flatMap_cons,
        ih fun b hb => h b (List.mem_cons_of_mem a hb)]
      rfl
  unfold queue
  rw [hfilled, hfirst, hsecond, hothers, spread, spread, List.append_assoc]

/-- Static components whose words are in the order of their rounds. -/
theorem queue_ordered (h : ∀ a ∈ as, a.1.dynamic = false) (hd : ∀ a ∈ as, depth a.1 ≤ d)
    (hord : Ordered (as.flatMap fun a => words a.1 a.2)) :
    queue d (as.map item) = layout (as.map part) := by
  have hlt : ∀ p ∈ as.flatMap (fun a => words a.1 a.2), p.1 < d + 2 := by
    intro p hp
    obtain ⟨a, ha, hpa⟩ := List.mem_flatMap.mp hp
    have hr : p.1 ∈ rounds a.1 := by
      rw [← words_rounds a.1 a.2 (h a ha)]
      exact List.mem_map_of_mem hpa
    have h1 := le_depth a.1 hr
    have h2 := hd a ha
    omega
  rw [items_static h, spread_sorted hord hlt, layout_static h, whole_flatMap]
  exact List.flatMap_congr fun a ha => whole_words a.1 a.2 (h a ha)

/-- No word of a static component is late, and every body is as it should be. -/
def Straight (a : Arg) : Prop :=
  (a.1.dynamic = true → body a.1 a.2 = enc a.1 a.2) ∧
    (a.1.dynamic = false → ∀ r ∈ rounds a.1, r = 0)

theorem flat_words {a : Arg} (h : a.1.dynamic = false) (hr : ∀ r ∈ rounds a.1, r = 0) :
    now (words a.1 a.2) = enc a.1 a.2 ∧ later (words a.1 a.2) = [] := by
  have hzero : ∀ p ∈ words a.1 a.2, p.1 = 0 := by
    intro p hp
    apply hr
    rw [← words_rounds a.1 a.2 h]
    exact List.mem_map_of_mem hp
  constructor
  · rw [← whole_words a.1 a.2 h]
    unfold now whole
    rw [List.filter_eq_self.mpr fun p hp => by simpa using hzero p hp]
  · unfold later
    rw [List.filter_eq_nil_iff.mpr fun p hp => by simpa using hzero p hp, List.map_nil]

/-- What a straight component writes in its rounds, against its part. -/
theorem straight_cases {a : Arg} (h : Straight a) :
    (item a).first.length = (part a).size ∧ (item a).second = (part a).tail ∧
      (item a).others = [] := by
  cases hd : a.1.dynamic with
  | true =>
    rw [item_dynamic hd, part_dynamic hd]
    exact ⟨rfl, h.1 hd, rfl⟩
  | false =>
    obtain ⟨hnow, hlater⟩ := flat_words hd (h.2 hd)
    rw [item_static hd, part_static hd]
    refine ⟨congrArg List.length hnow, ?_, ?_⟩
    · rw [Item.second, hlater]
      rfl
    · rw [Item.others, hlater]
      rfl

theorem filled_straight (h : ∀ a ∈ as, Straight a) (off : Nat) :
    filled off (as.map item) = heads off (as.map part) := by
  induction as generalizing off with
  | nil => rfl
  | cons a as ih =>
    have htail := fun off => ih (fun b hb => h b (List.mem_cons_of_mem a hb)) off
    have ha := h a List.mem_cons_self
    rw [List.map_cons, List.map_cons]
    cases hd : a.1.dynamic with
    | true => rw [item_dynamic hd, part_dynamic hd, filled, heads, htail, ha.1 hd]
    | false =>
      obtain ⟨hnow, hlater⟩ := flat_words hd (ha.2 hd)
      rw [item_static hd, part_static hd, filled, heads, htail, hnow, hlater]
      rfl

theorem spread_nil {α : Type} (d : Nat) : spread d ([] : List (Nat × List α)) = [] := by
  induction d with
  | zero => rfl
  | succ d ih =>
    rw [spread, later_nil, ih]
    rfl

theorem queue_straight (h : ∀ a ∈ as, Straight a) (d : Nat) :
    queue d (as.map item) = layout (as.map part) := by
  have hfirst : ((as.map item).flatMap Item.first).length = sizes (as.map part) := by
    rw [List.flatMap_map, List.length_flatMap]
    unfold sizes
    rw [List.map_map]
    congr 1
    exact List.map_congr_left fun a ha => (straight_cases (h a ha)).1
  have hsecond : (as.map item).flatMap Item.second = tails (as.map part) := by
    unfold tails
    rw [List.flatMap_map, List.flatMap_map]
    exact List.flatMap_congr fun a ha => (straight_cases (h a ha)).2.1
  have hothers : (as.map item).flatMap Item.others = [] := by
    rw [List.flatMap_map, List.flatMap_eq_nil_iff]
    exact fun a ha => (straight_cases (h a ha)).2.2
  unfold queue layout
  rw [hfirst, filled_straight h, hsecond, hothers, spread_nil, List.append_nil]

end Compare

/-- Elements of one static type. -/
theorem elements_ordered {t : Ty} (ht : t.dynamic = false) (h : ∀ a ∈ rounds t, ∀ b ∈ rounds t, a = b)
    (vs : List t.Val) :
    Ordered ((vs.map fun v => (⟨t, v⟩ : Arg)).flatMap fun a => words a.1 a.2) := by
  apply List.pairwise_of_forall_mem_list
  have hmem : ∀ p ∈ (vs.map fun v => (⟨t, v⟩ : Arg)).flatMap (fun a => words a.1 a.2),
      p.1 ∈ rounds t := by
    intro p hp
    obtain ⟨a, ha, hpa⟩ := List.mem_flatMap.mp hp
    obtain ⟨v, -, rfl⟩ := List.mem_map.mp ha
    rw [← words_rounds t v ht]
    exact List.mem_map_of_mem hpa
  exact fun p hp q hq => (h _ (hmem p hp) _ (hmem q hq)).le

theorem depth_element {t : Ty} {vs : List t.Val} {a : Arg}
    (h : a ∈ vs.map fun v => (⟨t, v⟩ : Arg)) : depth a.1 ≤ depth t := by
  obtain ⟨v, -, rfl⟩ := List.mem_map.mp h
  exact le_rfl

mutual
/-- On an aligned type a body is the standard encoding. -/
theorem body_eq : ∀ (t : Ty) (v : t.Val), Aligned t → t.dynamic = true → body t v = enc t v
  | .bytes, _, _, _ => rfl
  | .string, _, _, _ => rfl
  | .array t, vs, h, _ => by
    have hqueue : queue (depth t) ((vs.val.map fun v => (⟨t, v⟩ : Arg)).map item) =
        layout ((vs.val.map fun v => (⟨t, v⟩ : Arg)).map part) := by
      cases ht : t.dynamic with
      | true =>
        apply queue_straight
        intro a ha
        obtain ⟨v, -, rfl⟩ := List.mem_map.mp ha
        exact ⟨fun _ => body_eq t v (h.1 ht) ht, fun hs => by simp [ht] at hs⟩
      | false =>
        refine queue_ordered ?_ (fun a ha => depth_element ha) (elements_ordered ht (h.2 ht) vs.val)
        intro a ha
        obtain ⟨v, -, rfl⟩ := List.mem_map.mp ha
        exact ht
    have hbody := (congrArg (queue (depth t)) (elements_map vs.val)).trans
      (hqueue.trans (congrArg layout (elements_part vs.val)).symm)
    exact congrArg (word vs.val.length ++ ·) hbody
  | .fixed size t, vs, h, hd => by
    have ht : t.dynamic = true := hd
    have hqueue : queue (depth t) ((vs.val.map fun v => (⟨t, v⟩ : Arg)).map item) =
        layout ((vs.val.map fun v => (⟨t, v⟩ : Arg)).map part) := by
      apply queue_straight
      intro a ha
      obtain ⟨v, hv, rfl⟩ := List.mem_map.mp ha
      have hsize : size ≠ 0 := by
        have hpos := List.length_pos_of_mem hv
        rw [vs.property] at hpos
        omega
      exact ⟨fun _ => body_eq t v ((h ht).resolve_left hsize) ht, fun hs => by simp [ht] at hs⟩
    exact (congrArg (queue (depth t)) (elements_map vs.val)).trans
      (hqueue.trans (congrArg layout (elements_part vs.val)).symm)
  | .tuple ts, vs, h, hd => by
    have hqueue := queue_straight (straightAll ts vs (h hd)) (depths ts)
    exact (congrArg (queue (depths ts)) (items_eq ts vs)).trans
      (hqueue.trans (congrArg layout (parts_eq ts vs)).symm)
theorem straightAll : ∀ (ts : List Ty) (vs : Ty.Vals ts), AlignedAll ts →
    ∀ a ∈ components ts vs, Straight a
  | t :: ts, vs, h, a, ha => by
    unfold components at ha
    rcases List.mem_cons.mp ha with rfl | ha
    · exact ⟨fun hd => body_eq t vs.1 (h.1 hd) hd, h.2.1⟩
    · exact straightAll ts vs.2 h.2.2 a ha
end

/-- The rounds of aligned arguments are heads and tails. -/
theorem args_eq (params : List Ty) (args : Ty.Vals params) (h : AlignedArgs params) :
    queue (depths params) ((components params args).map item) = layout (parts params args) := by
  rw [parts_eq]
  cases hd : Ty.anyDynamic params with
  | true => exact queue_straight (straightAll params args (h.1 hd)) _
  | false =>
    refine queue_ordered (fun a ha => static_component ha hd) (fun a ha => depth_component ha) ?_
    have hrounds := wordsAll_rounds params args hd
    rw [wordsAll_eq] at hrounds
    have hle := h.2 hd
    rwa [← hrounds, List.pairwise_map] at hle

end GenVM.Py.Evm
