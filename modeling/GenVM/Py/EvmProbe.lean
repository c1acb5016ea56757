import GenVM.Py.EvmOrder

/-!
# Values that show a misplaced word

`probe k` has a nonzero word wherever the round is below `k` and a zero word from
round `k` on, so the order of the bytes tells the order of the rounds. An array
has two elements, and everything else of variable size is empty.

Results:
* `length_body`: rounds never change the number of bytes.
* `body_misplaced`, `args_misplaced`: on a type that is not aligned, some value
  not larger than the probes comes out wrong.
-/
namespace GenVM.Py.Evm
open GenVM.Abi GenVM.Rounds

/-! ## Sizes -/

mutual
/-- What a dynamic value takes behind its offset, when every `T[]` has two elements. -/
def full : Ty → Nat
  | .array t => 32 + 2 * (t.headSize + if t.dynamic then full t else 0)
  | .fixed size t => size * (t.headSize + if t.dynamic then full t else 0)
  | .tuple ts => fulls ts
  | _ => 32
def fulls : List Ty → Nat
  | [] => 0
  | t :: ts => (t.headSize + if t.dynamic then full t else 0) + fulls ts
end

/-- What a component takes in the heads and in the tails. -/
def slot (t : Ty) : Nat := t.headSize + if t.dynamic then full t else 0

def Small (a : Arg) : Prop := a.1.dynamic = true → (enc a.1 a.2).length ≤ full a.1

theorem part_length {a : Arg} (h : Small a) :
    (part a).size + (part a).tail.length ≤ slot a.1 := by
  have hsize : (part a).size = a.1.headSize := size_part a.1 a.2
  unfold slot
  rw [hsize]
  cases hd : a.1.dynamic with
  | true =>
    have hle := h hd
    rw [part_dynamic hd, if_pos rfl]
    exact Nat.add_le_add_left hle _
  | false =>
    rw [part_static hd]
    exact Nat.le_add_right _ _

theorem layout_small {as : List Arg} (h : ∀ a ∈ as, Small a) :
    (layout (as.map part)).length ≤ (as.map fun a => slot a.1).sum := by
  rw [length_layout]
  induction as with
  | nil => exact le_rfl
  | cons a as ih =>
    have htail := ih fun b hb => h b (List.mem_cons_of_mem a hb)
    have hle := part_length (h a List.mem_cons_self)
    rw [List.map_cons, List.map_cons, sizes_cons, tails_cons, List.length_append, List.sum_cons]
    omega

theorem slot_elements {t : Ty} (vs : List t.Val) :
    ((vs.map fun v => (⟨t, v⟩ : Arg)).map fun a => slot a.1).sum = vs.length * slot t := by
  rw [List.map_map, show ((fun a : Arg => slot a.1) ∘ fun v => (⟨t, v⟩ : Arg)) = fun _ => slot t from rfl,
    List.map_const', List.sum_replicate]
  rfl

theorem slot_components (ts : List Ty) : ∀ vs : Ty.Vals ts,
    ((components ts vs).map fun a => slot a.1).sum = fulls ts := by
  induction ts with
  | nil => exact fun _ => rfl
  | cons t ts ih =>
    intro vs
    unfold components fulls
    rw [List.map_cons, List.sum_cons, ih vs.2]
    rfl

/-! ## As many bytes -/

theorem length_item {a : Arg} (h : a.1.dynamic = true → (body a.1 a.2).length = (enc a.1 a.2).length) :
    (item a).first.length + (item a).second.length + (whole (item a).others).length =
      (part a).size + (part a).tail.length := by
  cases hd : a.1.dynamic with
  | true =>
    rw [item_dynamic hd, part_dynamic hd]
    exact congrArg (32 + ·) (h hd)
  | false =>
    have h1 := length_split (words a.1 a.2)
    have h2 := length_split (later (words a.1 a.2))
    have h3 := congrArg List.length (whole_words a.1 a.2 hd)
    rw [item_static hd, part_static hd]
    simp only [Item.first, Item.second, Item.others, Part.size, Part.tail, List.length_nil]
    omega

theorem length_queue {as : List Arg} {d : Nat} (hd : ∀ a ∈ as, depth a.1 ≤ d)
    (h : ∀ a ∈ as, a.1.dynamic = true → (body a.1 a.2).length = (enc a.1 a.2).length) :
    (queue d (as.map item)).length = (layout (as.map part)).length := by
  have hlt : ∀ p ∈ (as.map item).flatMap Item.others, p.1 < d := by
    intro p hp
    obtain ⟨i, hi, hpi⟩ := List.mem_flatMap.mp hp
    obtain ⟨a, ha, rfl⟩ := List.mem_map.mp hi
    cases hdyn : a.1.dynamic with
    | true =>
      rw [item_dynamic hdyn] at hpi
      exact absurd hpi List.not_mem_nil
    | false =>
      rw [item_static hdyn] at hpi
      refine later_lt (later_lt fun q hq => ?_) p hpi
      have hr : q.1 ∈ rounds a.1 := by
        rw [← words_rounds a.1 a.2 hdyn]
        exact List.mem_map_of_mem hq
      have h1 := le_depth a.1 hr
      have h2 := hd a ha
      omega
  have hsum : ((as.map item).flatMap Item.first).length +
      ((as.map item).flatMap Item.second).length +
      (whole ((as.map item).flatMap Item.others)).length =
      sizes (as.map part) + (tails (as.map part)).length := by
    clear hlt hd
    induction as with
    | nil => rfl
    | cons a as ih =>
      have htail := ih fun b hb => h b (List.mem_cons_of_mem a hb)
      have ha := length_item (h a List.mem_cons_self)
      simp only [List.map_cons, List.flatMap_cons, List.length_append, whole_append, sizes_cons,
        tails_cons]
      omega
  unfold queue
  rw [List.length_append, List.length_append, length_filled, length_spread hlt, length_layout, hsum]

theorem length_elements {t : Ty} (vs : List t.Val)
    (h : ∀ v, t.dynamic = true → (body t v).length = (enc t v).length) :
    ∀ a ∈ vs.map fun v => (⟨t, v⟩ : Arg), a.1.dynamic = true →
      (body a.1 a.2).length = (enc a.1 a.2).length := by
  intro a ha hd
  obtain ⟨v, -, rfl⟩ := List.mem_map.mp ha
  exact h v hd

mutual
/-- Rounds never change the number of bytes. -/
theorem length_body : ∀ (t : Ty) (v : t.Val), t.dynamic = true →
    (body t v).length = (enc t v).length
  | .bytes, _, _ => rfl
  | .string, _, _ => rfl
  | .array t, vs, _ => by
    have hqueue := length_queue (fun a ha => depth_element ha)
      (length_elements vs.val fun v => length_body t v)
    have hbody := congrArg (List.length ∘ queue (depth t)) (elements_map vs.val)
    have henc := congrArg (List.length ∘ layout) (elements_part vs.val)
    have hall := hbody.trans (hqueue.trans henc.symm)
    change (word vs.val.length ++ _).length = (word vs.val.length ++ _).length
    rw [List.length_append, List.length_append]
    exact congrArg (_ + ·) hall
  | .fixed size t, vs, _ => by
    have hqueue := length_queue (fun a ha => depth_element ha)
      (length_elements vs.val fun v => length_body t v)
    have hbody := congrArg (List.length ∘ queue (depth t)) (elements_map vs.val)
    have henc := congrArg (List.length ∘ layout) (elements_part vs.val)
    exact hbody.trans (hqueue.trans henc.symm)
  | .tuple ts, vs, _ => by
    have hqueue := length_queue (fun a ha => depth_component ha) (length_components ts vs)
    have hbody := congrArg (List.length ∘ queue (depths ts)) (items_eq ts vs)
    have henc := congrArg (List.length ∘ layout) (parts_eq ts vs)
    exact hbody.trans (hqueue.trans henc.symm)
theorem length_components : ∀ (ts : List Ty) (vs : Ty.Vals ts), ∀ a ∈ components ts vs,
    a.1.dynamic = true → (body a.1 a.2).length = (enc a.1 a.2).length
  | t :: ts, vs, a, ha, hd => by
    unfold components at ha
    rcases List.mem_cons.mp ha with rfl | ha
    · exact length_body t vs.1 hd
    · exact length_components ts vs.2 a ha hd
end

/-! ## Probes -/

def zeros : Bytes := List.replicate 32 0

theorem ofBytes_zeros : ofBytes zeros = 0 := by decide

theorem word_ne_zeros {n : Nat} (h0 : 0 < n) (h : n < 2 ^ 256) : word n ≠ zeros := by
  intro he
  have hn := ofBytes_word h
  rw [he, ofBytes_zeros] at hn
  omega

theorem word_inj {a b : Nat} (ha : a < 2 ^ 256) (hb : b < 2 ^ 256) (h : word a = word b) : a = b := by
  rw [← ofBytes_word ha, h, ofBytes_word hb]

/-- One before round `k`, zero from there on. -/
def mark (k : Nat) : Nat := if 0 < k then 1 else 0

theorem mark_lt (k : Nat) (w : Fin 32) : mark k < bound w / 2 := by
  have hle : 2 ^ 8 ≤ bound w := Nat.pow_le_pow_right (by omega) (by omega)
  unfold mark
  split <;> omega

theorem mark_uint (k : Nat) (w : Fin 32) : mark k < bound w :=
  (mark_lt k w).trans_le (Nat.div_le_self _ _)

theorem mark_int (k : Nat) (w : Fin 32) :
    -(bound w / 2 : Nat) ≤ (mark k : Int) ∧ (mark k : Int) < (bound w / 2 : Nat) := by
  have := mark_lt k w
  omega

mutual
def probe (k : Nat) : (t : Ty) → t.Val
  | .uint w => ⟨mark k, mark_uint k w⟩
  | .int w => ⟨mark k, mark_int k w⟩
  | .bool => decide (0 < k)
  | .address => ⟨List.replicate 20 (UInt8.ofNat (mark k)), List.length_replicate⟩
  | .fixedBytes w => ⟨List.replicate (w.val + 1) (UInt8.ofNat (mark k)), List.length_replicate⟩
  | .bytes => ([] : List UInt8)
  | .string => ""
  | .array t => ⟨[probe k t, probe k t], by simp⟩
  | .fixed size t => ⟨List.replicate size (probe k t), List.length_replicate⟩
  | .tuple ts => probes (k - 1) ts
def probes (k : Nat) : (ts : List Ty) → Ty.Vals ts
  | [] => ()
  | t :: ts => (probe k t, probes k ts)
end

/-- The words of a value show which rounds are below `k`. -/
def Marked (k : Nat) (ws : List (Nat × Bytes)) : Prop :=
  ∀ p ∈ ws, p.2.length = 32 ∧ (p.2 = zeros ↔ k ≤ p.1)

theorem marked_one {k : Nat} {b : Bytes} (hlen : b.length = 32) (h0 : k = 0 → b = zeros)
    (h1 : 0 < k → b ≠ zeros) : Marked k [(0, b)] := by
  intro p hp
  rw [List.mem_singleton.mp hp]
  refine ⟨hlen, fun h => ?_, fun h => h0 (Nat.le_zero.mp h)⟩
  exact Nat.le_zero.mpr (Nat.eq_zero_of_not_pos fun hk => h1 hk h)

theorem mark_zero : mark 0 = 0 := rfl

theorem mark_pos {k : Nat} (h : 0 < k) : mark k = 1 := if_pos h

mutual
theorem probe_marked : ∀ (k : Nat) (t : Ty), t.dynamic = false → Marked k (words t (probe k t))
  | k, .uint w, _ => by
    apply marked_one (length_word _)
    · intro h
      subst h
      exact (by decide : word 0 = zeros)
    · intro h
      change word (mark k) ≠ zeros
      rw [mark_pos h]
      decide
  | k, .int w, _ => by
    apply marked_one (length_word _)
    · intro h
      subst h
      exact (by decide : word (((0 : Nat) : Int) % 2 ^ 256).toNat = zeros)
    · intro h
      change word (((mark k : Nat) : Int) % 2 ^ 256).toNat ≠ zeros
      rw [mark_pos h]
      decide
  | k, .bool, _ => by
    apply marked_one (length_word _)
    · intro h
      subst h
      decide
    · intro h
      change word (decide (0 < k)).toNat ≠ zeros
      rw [decide_eq_true h]
      decide
  | k, .address, _ => by
    apply marked_one (by simp [enc, probe])
    · intro h
      subst h
      decide
    · intro h
      change List.replicate 12 0 ++ List.replicate 20 (UInt8.ofNat (mark k)) ≠ zeros
      rw [mark_pos h]
      decide
  | k, .fixedBytes w, _ => by
    have henc : enc (.fixedBytes w) (probe k (.fixedBytes w)) =
        List.replicate (w.val + 1) (UInt8.ofNat (mark k)) ++ List.replicate (32 - (w.val + 1)) 0 := by
      change List.replicate (w.val + 1) (UInt8.ofNat (mark k)) ++ List.replicate (32 -
        (List.replicate (w.val + 1) (UInt8.ofNat (mark k))).length) 0 = _
      rw [List.length_replicate]
    apply marked_one
    · rw [henc, List.length_append, List.length_replicate, List.length_replicate]
      omega
    · intro h
      subst h
      rw [henc, mark_zero]
      change List.replicate (w.val + 1) 0 ++ List.replicate (32 - (w.val + 1)) 0 = zeros
      rw [← List.replicate_add]
      unfold zeros
      congr 1
      omega
    · intro h he
      rw [henc, mark_pos h, List.replicate_succ] at he
      exact absurd (List.head_eq_of_cons_eq he) (by decide)
  | k, .fixed size t, h => by
    have ht : t.dynamic = false := h
    intro p hp
    obtain ⟨v, hv, hpv⟩ := List.mem_flatMap.mp hp
    rw [List.eq_of_mem_replicate hv] at hpv
    exact probe_marked k t ht p hpv
  | k, .tuple ts, h => by
    intro p hp
    obtain ⟨q, hq, rfl⟩ := List.mem_map.mp hp
    obtain ⟨hlen, hzero⟩ := probes_marked (k - 1) ts h q hq
    exact ⟨hlen, hzero.trans (by dsimp only; omega)⟩
theorem probes_marked : ∀ (k : Nat) (ts : List Ty), Ty.anyDynamic ts = false →
    Marked k (wordsAll ts (probes k ts))
  | k, t :: ts, h, p, hp => by
    obtain ⟨h1, h2⟩ := Bool.or_eq_false_iff.mp h
    rcases List.mem_append.mp hp with hp | hp
    · exact probe_marked k t h1 p hp
    · exact probes_marked k ts h2 p hp
end

/-! ## A late word next to a dynamic component -/

/-- The bytes begin with a word that is not zero. -/
def Starts (b : Bytes) : Prop := ∃ w rest, b = w ++ rest ∧ w.length = 32 ∧ w ≠ zeros

theorem starts_now {ws : List (Nat × Bytes)} {z : Bytes} (h : Marked 1 ws) (hz : Starts z) :
    Starts (now ws ++ z) := by
  induction ws with
  | nil => exact hz
  | cons p ws ih =>
    have hws : Marked 1 ws := fun q hq => h q (List.mem_cons_of_mem p hq)
    obtain ⟨hlen, hzero⟩ := h p List.mem_cons_self
    by_cases hp : p.1 = 0
    · refine ⟨p.2, now ws ++ z, ?_, hlen, fun he => ?_⟩
      · simp [now, hp]
      · have hle := hzero.mp he
        omega
    · simpa [now, hp] using ih hws

/-- A late word would stand before the words that come next. -/
theorem flat_of_starts {ws : List (Nat × Bytes)} {y z : Bytes} (h : Marked 1 ws) (hz : Starts z)
    (heq : now ws ++ z = whole ws ++ y) : (∀ p ∈ ws, p.1 = 0) ∧ z = y := by
  induction ws with
  | nil => exact ⟨fun _ hp => absurd hp List.not_mem_nil, heq⟩
  | cons p ws ih =>
    have hws : Marked 1 ws := fun q hq => h q (List.mem_cons_of_mem p hq)
    obtain ⟨hlen, hzero⟩ := h p List.mem_cons_self
    by_cases hp : p.1 = 0
    · have hcancel : now ws ++ z = whole ws ++ y := by simpa [now, whole, hp] using heq
      obtain ⟨hall, hzy⟩ := ih hws hcancel
      exact ⟨List.forall_mem_cons.mpr ⟨hp, hall⟩, hzy⟩
    · obtain ⟨w, rest, hw, hwlen, hne⟩ := starts_now hws hz
      have hnow : now (p :: ws) = now ws := by simp [now, hp]
      rw [hnow, hw, whole, List.flatMap_cons, List.append_assoc] at heq
      have hwp := (List.append_inj heq (hwlen.trans hlen.symm)).1
      have hle : 1 ≤ p.1 := by omega
      exact absurd (hwp.trans (hzero.mpr hle)) hne

section Late
variable {as : List Arg}

/-- The words of the static components show which of them are late. -/
def Telling (as : List Arg) : Prop := ∀ a ∈ as, a.1.dynamic = false → Marked 1 (words a.1 a.2)

theorem starts_filled (h : Telling as) (hd : ∃ a ∈ as, a.1.dynamic = true) {off : Nat} (x : Bytes)
    (h0 : 0 < off) (hoff : off + ((as.map item).flatMap Item.second).length < 2 ^ 256) :
    Starts (filled off (as.map item) ++ x) := by
  induction as generalizing off with
  | nil => exact absurd hd (by simp)
  | cons a as ih =>
    have htail : Telling as := fun b hb => h b (List.mem_cons_of_mem a hb)
    rw [List.map_cons, List.flatMap_cons, List.length_append] at hoff
    rw [List.map_cons]
    cases hdyn : a.1.dynamic with
    | true =>
      rw [item_dynamic hdyn, filled, List.append_assoc]
      exact ⟨word off, _, rfl, length_word _, word_ne_zeros h0 (by omega)⟩
    | false =>
      rw [item_static hdyn] at hoff ⊢
      obtain ⟨b, hb, hbd⟩ := hd
      have hmem : b ∈ as := (List.mem_cons.mp hb).resolve_left fun he => by simp [← he, hbd] at hdyn
      rw [filled, List.append_assoc]
      change off + ((now (later (words a.1 a.2))).length + _) < _ at hoff
      exact starts_now (h a List.mem_cons_self hdyn)
        (ih htail ⟨b, hmem, hbd⟩ (by omega) (by omega))

/-- The first offset shows how long the heads are. -/
theorem offset_eq (h : Telling as) (hd : ∃ a ∈ as, a.1.dynamic = true) {off off' : Nat} {x y : Bytes}
    (h0 : 0 < off) (hoff : off + ((as.map item).flatMap Item.second).length < 2 ^ 256)
    (hoff' : off' < 2 ^ 256) (heq : filled off (as.map item) ++ x = heads off' (as.map part) ++ y) :
    off = off' := by
  induction as generalizing off with
  | nil => exact absurd hd (by simp)
  | cons a as ih =>
    have htail : Telling as := fun b hb => h b (List.mem_cons_of_mem a hb)
    rw [List.map_cons, List.flatMap_cons, List.length_append] at hoff
    rw [List.map_cons, List.map_cons] at heq
    cases hdyn : a.1.dynamic with
    | true =>
      rw [item_dynamic hdyn, part_dynamic hdyn, filled, heads, List.append_assoc,
        List.append_assoc] at heq
      exact word_inj (by omega) hoff' (List.append_inj heq (by simp)).1
    | false =>
      rw [item_static hdyn] at hoff heq
      change off + ((now (later (words a.1 a.2))).length + _) < _ at hoff
      obtain ⟨b, hb, hbd⟩ := hd
      have hmem : b ∈ as := (List.mem_cons.mp hb).resolve_left fun he => by simp [← he, hbd] at hdyn
      have hmark := h a List.mem_cons_self hdyn
      rw [part_static hdyn, filled, heads, List.append_assoc, List.append_assoc,
        ← whole_words a.1 a.2 hdyn] at heq
      have hstarts := starts_filled htail ⟨b, hmem, hbd⟩ x
        (by omega : 0 < off + (now (later (words a.1 a.2))).length) (by omega)
      obtain ⟨hflat, hrest⟩ := flat_of_starts hmark hstarts heq
      have hlater : later (words a.1 a.2) = [] := by
        unfold later
        rw [List.filter_eq_nil_iff.mpr fun p hp => by simpa using hflat p hp, List.map_nil]
      rw [hlater] at hrest hoff
      exact ih htail ⟨b, hmem, hbd⟩ h0 (by simpa using hoff) (by simpa using hrest)

theorem first_le (a : Arg) : (item a).first.length ≤ (part a).size := by
  cases hd : a.1.dynamic with
  | true =>
    rw [item_dynamic hd, part_dynamic hd]
    exact le_rfl
  | false =>
    have h1 := length_split (words a.1 a.2)
    have h2 := congrArg List.length (whole_words a.1 a.2 hd)
    rw [item_static hd, part_static hd]
    change (now (words a.1 a.2)).length ≤ (enc a.1 a.2).length
    omega

theorem firsts_le (as : List Arg) :
    ((as.map item).flatMap Item.first).length ≤ sizes (as.map part) := by
  induction as with
  | nil => exact le_rfl
  | cons a as ih =>
    have hle := first_le a
    rw [List.map_cons, List.map_cons, List.flatMap_cons, List.length_append, sizes_cons]
    omega

/-- Heads that the first round fills have no late word. -/
theorem flat_of_firsts (h : Telling as)
    (heq : ((as.map item).flatMap Item.first).length = sizes (as.map part)) :
    ∀ a ∈ as, a.1.dynamic = false → ∀ r ∈ rounds a.1, r = 0 := by
  induction as with
  | nil => exact fun a ha => absurd ha List.not_mem_nil
  | cons a as ih =>
    have htail : Telling as := fun b hb => h b (List.mem_cons_of_mem a hb)
    have h1 := first_le a
    have h2 := firsts_le as
    rw [List.map_cons, List.map_cons, List.flatMap_cons, List.length_append, sizes_cons] at heq
    intro b hb hbd
    rcases List.mem_cons.mp hb with rfl | hb
    · have hsplit := length_split (words b.1 b.2)
      have hwhole := congrArg List.length (whole_words b.1 b.2 hbd)
      have hfirst : (now (words b.1 b.2)).length = (enc b.1 b.2).length := by
        rw [item_static hbd, part_static hbd] at h1 heq
        change (now (words b.1 b.2)).length ≤ (enc b.1 b.2).length at h1
        change (now (words b.1 b.2)).length + _ = (enc b.1 b.2).length + _ at heq
        omega
      have hnone : (whole (later (words b.1 b.2))).length = 0 := by omega
      intro r hr
      rw [← words_rounds b.1 b.2 hbd] at hr
      obtain ⟨p, hp, rfl⟩ := List.mem_map.mp hr
      by_contra hne
      have hmem : (p.1 - 1, p.2) ∈ later (words b.1 b.2) :=
        List.mem_map.mpr ⟨p, List.mem_filter.mpr ⟨hp, by simpa using hne⟩, rfl⟩
      have hlen := (h b List.mem_cons_self hbd p hp).1
      have hnil := List.flatMap_eq_nil_iff.mp (List.length_eq_zero_iff.mp hnone) _ hmem
      dsimp only at hnil
      rw [hnil] at hlen
      exact absurd hlen (by decide)
    · exact ih htail (by omega) b hb hbd

/-- With a dynamic component, only rounds without a late word give heads and tails. -/
theorem flat_of_queue (h : Telling as) (hd : ∃ a ∈ as, a.1.dynamic = true) {d : Nat}
    (hlen : (layout (as.map part)).length < 2 ^ 256)
    (heq : queue d (as.map item) = layout (as.map part)) :
    ∀ a ∈ as, a.1.dynamic = false → ∀ r ∈ rounds a.1, r = 0 := by
  have hsame := congrArg List.length heq
  have hle := firsts_le as
  have hpos : 0 < ((as.map item).flatMap Item.first).length := by
    obtain ⟨a, ha, had⟩ := hd
    have hmem : item a ∈ as.map item := List.mem_map_of_mem ha
    have hsub := (List.sublist_flatten_of_mem (List.mem_map_of_mem (f := Item.first) hmem)).length_le
    rw [item_dynamic had] at hsub
    exact lt_of_lt_of_le (by simp [Item.first]) hsub
  unfold queue layout at heq
  unfold queue at hsame
  rw [List.append_assoc] at heq
  rw [List.length_append, List.length_append, length_filled] at hsame
  rw [length_layout] at hlen hsame
  have hoff := offset_eq h hd hpos (by omega) (by omega) heq
  exact flat_of_firsts h hoff

theorem filled_level (hflat : ∀ a ∈ as, a.1.dynamic = false → ∀ r ∈ rounds a.1, r = 0)
    (hlen : ∀ a ∈ as, a.1.dynamic = true → (body a.1 a.2).length = (enc a.1 a.2).length) (off : Nat) :
    filled off (as.map item) = heads off (as.map part) := by
  induction as generalizing off with
  | nil => rfl
  | cons a as ih =>
    have htail := fun off => ih (fun b hb => hflat b (List.mem_cons_of_mem a hb))
      (fun b hb => hlen b (List.mem_cons_of_mem a hb)) off
    rw [List.map_cons, List.map_cons]
    cases hd : a.1.dynamic with
    | true =>
      rw [item_dynamic hd, part_dynamic hd, filled, heads, htail, hlen a List.mem_cons_self hd]
    | false =>
      obtain ⟨hnow, hlater⟩ := flat_words hd (hflat a List.mem_cons_self hd)
      rw [item_static hd, part_static hd, filled, heads, htail, hnow, hlater]
      rfl

theorem bodies_of_tails (hflat : ∀ a ∈ as, a.1.dynamic = false → ∀ r ∈ rounds a.1, r = 0)
    (hlen : ∀ a ∈ as, a.1.dynamic = true → (body a.1 a.2).length = (enc a.1 a.2).length)
    {x y : Bytes} (heq : (as.map item).flatMap Item.second ++ x = tails (as.map part) ++ y) :
    ∀ a ∈ as, a.1.dynamic = true → body a.1 a.2 = enc a.1 a.2 := by
  induction as with
  | nil => exact fun a ha => absurd ha List.not_mem_nil
  | cons a as ih =>
    have hflat2 := fun b hb => hflat b (List.mem_cons_of_mem a hb)
    have hlen2 := fun b hb => hlen b (List.mem_cons_of_mem a hb)
    rw [List.map_cons, List.map_cons, List.flatMap_cons, tails_cons, List.append_assoc,
      List.append_assoc] at heq
    intro b hb hbd
    cases hd : a.1.dynamic with
    | true =>
      rw [item_dynamic hd, part_dynamic hd] at heq
      obtain ⟨hbody, hrest⟩ := List.append_inj heq (hlen a List.mem_cons_self hd)
      rcases List.mem_cons.mp hb with rfl | hb
      · exact hbody
      · exact ih hflat2 hlen2 hrest b hb hbd
    | false =>
      obtain ⟨-, hlater⟩ := flat_words hd (hflat a List.mem_cons_self hd)
      rw [item_static hd, part_static hd, Item.second, hlater] at heq
      rcases List.mem_cons.mp hb with rfl | hb
      · simp [hd] at hbd
      · exact ih hflat2 hlen2 heq b hb hbd

/-- Without a late word, only right bodies give the right tails. -/
theorem bodies_of_queue (hflat : ∀ a ∈ as, a.1.dynamic = false → ∀ r ∈ rounds a.1, r = 0)
    (hlen : ∀ a ∈ as, a.1.dynamic = true → (body a.1 a.2).length = (enc a.1 a.2).length) {d : Nat}
    (heq : queue d (as.map item) = layout (as.map part)) :
    ∀ a ∈ as, a.1.dynamic = true → body a.1 a.2 = enc a.1 a.2 := by
  have hheads (off off' : Nat) : (filled off (as.map item)).length = (heads off' (as.map part)).length := by
    rw [filled_level hflat hlen, length_heads, length_heads]
  unfold queue layout at heq
  rw [List.append_assoc] at heq
  have htails := (List.append_inj heq (hheads _ _)).2
  rw [← List.append_nil (tails (as.map part))] at htails
  exact bodies_of_tails hflat hlen htails

end Late

/-! ## A type that is not aligned -/

theorem enc_array_small {t : Ty} {vs : (Ty.array t).Val} (h : ∀ v ∈ vs.val, Small ⟨t, v⟩)
    (hlen : vs.val.length ≤ 2) : (enc (.array t) vs).length ≤ full (.array t) := by
  have hsmall : ∀ a ∈ vs.val.map fun v => (⟨t, v⟩ : Arg), Small a := by
    intro a ha
    obtain ⟨v, hv, rfl⟩ := List.mem_map.mp ha
    exact h v hv
  have hle := layout_small hsmall
  rw [slot_elements, ← elements_part] at hle
  have hmul : vs.val.length * slot t ≤ 2 * slot t := Nat.mul_le_mul_right _ hlen
  change (word vs.val.length ++ layout _).length ≤ 32 + 2 * slot t
  rw [List.length_append, length_word]
  omega

theorem enc_fixed_small {t : Ty} {size : Nat} {vs : (Ty.fixed size t).Val}
    (h : ∀ v ∈ vs.val, Small ⟨t, v⟩) : (enc (.fixed size t) vs).length ≤ full (.fixed size t) := by
  have hsmall : ∀ a ∈ vs.val.map fun v => (⟨t, v⟩ : Arg), Small a := by
    intro a ha
    obtain ⟨v, hv, rfl⟩ := List.mem_map.mp ha
    exact h v hv
  have hle := layout_small hsmall
  rw [slot_elements, ← elements_part, vs.property] at hle
  exact hle

theorem enc_tuple_small {ts : List Ty} {vs : Ty.Vals ts} (h : ∀ a ∈ components ts vs, Small a) :
    (layout (parts ts vs)).length ≤ fulls ts := by
  have hle := layout_small h
  rwa [slot_components, ← parts_eq] at hle

mutual
theorem probe_small : ∀ (k : Nat) (t : Ty), t.dynamic = true → (enc t (probe k t)).length ≤ full t
  | _, .bytes, _ => (by decide : (encBytes []).length ≤ 32)
  | _, .string, _ => (by decide : (encBytes (String.toUTF8 "").data.toList).length ≤ 32)
  | k, .array t, _ => by
    apply enc_array_small
    · intro v hv hd
      rcases List.mem_pair.mp hv with rfl | rfl
      · exact probe_small k t hd
      · exact probe_small k t hd
    · exact le_rfl
  | k, .fixed size t, _ => by
    apply enc_fixed_small
    intro v hv hd
    rw [List.eq_of_mem_replicate hv]
    exact probe_small k t hd
  | k, .tuple ts, _ => enc_tuple_small (probes_small (k - 1) ts)
theorem probes_small : ∀ (k : Nat) (ts : List Ty), ∀ a ∈ components ts (probes k ts), Small a
  | k, t :: ts, a, ha => by
    unfold components at ha
    rcases List.mem_cons.mp ha with rfl | ha
    · exact probe_small k t
    · exact probes_small k ts a ha
end

/-- Static words that come out right are in the order of their rounds, at every threshold. -/
theorem static_pairwise {as : List Arg} {k d : Nat} (h : ∀ a ∈ as, a.1.dynamic = false)
    (hmark : ∀ a ∈ as, Marked k (words a.1 a.2))
    (heq : queue d (as.map item) = layout (as.map part)) :
    (as.flatMap fun a => rounds a.1).Pairwise fun a b => k ≤ a → k ≤ b := by
  have hwords : (as.flatMap fun a => words a.1 a.2).map Prod.fst = as.flatMap fun a => rounds a.1 := by
    rw [List.map_flatMap]
    exact List.flatMap_congr fun a ha => words_rounds a.1 a.2 (h a ha)
  have hwhole : whole (as.flatMap fun a => words a.1 a.2) = layout (as.map part) := by
    rw [layout_static h, whole_flatMap]
    exact List.flatMap_congr fun a ha => whole_words a.1 a.2 (h a ha)
  rw [items_static h, ← hwhole] at heq
  have hall : Marked k (as.flatMap fun a => words a.1 a.2) := by
    intro p hp
    obtain ⟨a, ha, hpa⟩ := List.mem_flatMap.mp hp
    exact hmark a ha p hpa
  have hpair := pairwise_of_spread (fun w => w = zeros) (by decide : 0 < 32) (fun p hp => (hall p hp).1)
    (fun p hp => (hall p hp).2) heq
  rw [← hwords, List.pairwise_map]
  exact hpair

theorem body_array {t : Ty} {vs : (Ty.array t).Val} (h : body (.array t) vs = enc (.array t) vs) :
    queue (depth t) ((vs.val.map fun v => (⟨t, v⟩ : Arg)).map item) =
      layout ((vs.val.map fun v => (⟨t, v⟩ : Arg)).map part) := by
  rw [← elements_map, ← elements_part]
  exact (List.append_inj h rfl).2

/-- Two equal probes of every threshold show two words of different rounds. -/
theorem array_misplaced {t : Ty} (ht : t.dynamic = false)
    (h : ¬ ∀ a ∈ rounds t, ∀ b ∈ rounds t, a = b) :
    ∃ k, body (.array t) ⟨[probe k t, probe k t], by simp⟩ ≠
      enc (.array t) ⟨[probe k t, probe k t], by simp⟩ := by
  by_contra hall
  push Not at hall
  apply h
  have hpair : (rounds t ++ rounds t).Pairwise (· ≤ ·) := by
    apply pairwise_le
    intro k
    have hstatic : ∀ a ∈ [(⟨t, probe k t⟩ : Arg), ⟨t, probe k t⟩], a.1.dynamic = false := by simp [ht]
    have hmark : ∀ a ∈ [(⟨t, probe k t⟩ : Arg), ⟨t, probe k t⟩], Marked k (words a.1 a.2) := by
      simp [probe_marked k t ht]
    have hk := static_pairwise hstatic hmark (body_array (hall k))
    simpa using hk
  have hle := (List.pairwise_append.mp hpair).2.2
  exact fun a ha b hb => Nat.le_antisymm (hle a ha b hb) (hle b hb a ha)

theorem telling_probes : ∀ (ts : List Ty), Telling (components ts (probes 1 ts))
  | t :: ts, a, ha, hd => by
    unfold components at ha
    rcases List.mem_cons.mp ha with rfl | ha
    · exact probe_marked 1 t hd
    · exact telling_probes ts a ha hd

theorem mem_component : ∀ {ts : List Ty} (vs : Ty.Vals ts) {t : Ty}, t ∈ ts →
    ∃ a ∈ components ts vs, a.1 = t
  | u :: ts, vs, t, h => by
    unfold components
    rcases List.mem_cons.mp h with rfl | h
    · exact ⟨_, List.mem_cons_self, rfl⟩
    · obtain ⟨a, ha, hat⟩ := mem_component vs.2 h
      exact ⟨a, List.mem_cons_of_mem _ ha, hat⟩

theorem component_mem : ∀ {ts : List Ty} {vs : Ty.Vals ts} {a : Arg}, a ∈ components ts vs → a.1 ∈ ts
  | t :: ts, vs, a, h => by
    unfold components at h
    rcases List.mem_cons.mp h with rfl | h
    · exact List.mem_cons_self
    · exact List.mem_cons_of_mem t (component_mem h)

theorem anyDynamic_iff : ∀ {ts : List Ty}, Ty.anyDynamic ts = true ↔ ∃ t ∈ ts, t.dynamic = true
  | [] => by simp [Ty.anyDynamic]
  | t :: ts => by
    unfold Ty.anyDynamic
    simp only [Bool.or_eq_true, anyDynamic_iff, List.mem_cons, exists_eq_or_imp]

theorem not_alignedAll : ∀ {ts : List Ty}, ¬ AlignedAll ts →
    (∃ t ∈ ts, t.dynamic = false ∧ ∃ r ∈ rounds t, r ≠ 0) ∨
      ∃ t ∈ ts, t.dynamic = true ∧ ¬ Aligned t
  | [], h => absurd trivial h
  | t :: ts, h => by
    by_cases h1 : t.dynamic = true → Aligned t
    · by_cases h2 : t.dynamic = false → ∀ r ∈ rounds t, r = 0
      · have h3 : ¬ AlignedAll ts := fun h3 => h ⟨h1, h2, h3⟩
        rcases not_alignedAll h3 with ⟨u, hu, hlate⟩ | ⟨u, hu, hbad⟩
        · exact .inl ⟨u, List.mem_cons_of_mem t hu, hlate⟩
        · exact .inr ⟨u, List.mem_cons_of_mem t hu, hbad⟩
      · push Not at h2
        exact .inl ⟨t, List.mem_cons_self, h2⟩
    · push Not at h1
      exact .inr ⟨t, List.mem_cons_self, h1⟩

/-- A late word next to a dynamic component: the probes show it. -/
theorem late_misplaced {ts : List Ty} (hd : Ty.anyDynamic ts = true) (hlen : fulls ts < 2 ^ 256)
    (h : ∃ t ∈ ts, t.dynamic = false ∧ ∃ r ∈ rounds t, r ≠ 0) (d : Nat) :
    queue d ((components ts (probes 1 ts)).map item) ≠
      layout ((components ts (probes 1 ts)).map part) := by
  intro heq
  obtain ⟨u, hu, hud⟩ := anyDynamic_iff.mp hd
  obtain ⟨a, ha, rfl⟩ := mem_component (probes 1 ts) hu
  have hsmall := enc_tuple_small (probes_small 1 ts)
  rw [parts_eq] at hsmall
  have hflat := flat_of_queue (telling_probes ts) ⟨a, ha, hud⟩ (by omega) heq
  obtain ⟨t, ht, hts, r, hr, hr0⟩ := h
  obtain ⟨b, hb, rfl⟩ := mem_component (probes 1 ts) ht
  exact hr0 (hflat b hb hts r hr)

/-- Static arguments out of order: one of the thresholds shows it. -/
theorem order_misplaced {ts : List Ty} (hs : Ty.anyDynamic ts = false)
    (h : ¬ (roundsAll ts).Pairwise (· ≤ ·)) (d : Nat) :
    ∃ k, queue d ((components ts (probes k ts)).map item) ≠
      layout ((components ts (probes k ts)).map part) := by
  by_contra hall
  push Not at hall
  apply h
  apply pairwise_le
  intro k
  have hstatic : ∀ a ∈ components ts (probes k ts), a.1.dynamic = false :=
    fun a ha => static_component ha hs
  have hmark : ∀ a ∈ components ts (probes k ts), Marked k (words a.1 a.2) := by
    intro a ha p hp
    apply probes_marked k ts hs
    rw [wordsAll_eq]
    exact List.mem_flatMap.mpr ⟨a, ha, hp⟩
  have hrounds : ((components ts (probes k ts)).flatMap fun a => rounds a.1) = roundsAll ts := by
    rw [← wordsAll_rounds ts (probes k ts) hs, wordsAll_eq, List.map_flatMap]
    exact List.flatMap_congr fun a ha => (words_rounds a.1 a.2 (hstatic a ha)).symm
  have hpair := static_pairwise hstatic hmark (hall k)
  rwa [hrounds] at hpair

theorem full_le_slot {t : Ty} (h : t.dynamic = true) : full t ≤ slot t := by
  unfold slot
  rw [if_pos h]
  exact Nat.le_add_left _ _

/-- An element that comes out wrong makes a queue without late words come out wrong. -/
theorem elements_misplaced {t : Ty} {vs : List t.Val} {v : t.Val} (ht : t.dynamic = true)
    (hv : v ∈ vs) (hbad : body t v ≠ enc t v) (d : Nat) :
    queue d ((vs.map fun v => (⟨t, v⟩ : Arg)).map item) ≠
      layout ((vs.map fun v => (⟨t, v⟩ : Arg)).map part) := by
  intro heq
  have hflat : ∀ a ∈ vs.map (fun v => (⟨t, v⟩ : Arg)), a.1.dynamic = false → ∀ r ∈ rounds a.1, r = 0 := by
    intro a ha hs
    obtain ⟨u, -, rfl⟩ := List.mem_map.mp ha
    simp [ht] at hs
  have hmem : (⟨t, v⟩ : Arg) ∈ vs.map fun v => (⟨t, v⟩ : Arg) := List.mem_map_of_mem hv
  exact hbad (bodies_of_queue hflat (length_elements vs fun v => length_body t v) heq _ hmem ht)

theorem components_misplaced {ts : List Ty} {vs : Ty.Vals ts}
    (hflat : ∀ t ∈ ts, t.dynamic = false → ∀ r ∈ rounds t, r = 0)
    (hbad : ∃ a ∈ components ts vs, a.1.dynamic = true ∧ body a.1 a.2 ≠ enc a.1 a.2) (d : Nat) :
    queue d ((components ts vs).map item) ≠ layout ((components ts vs).map part) := by
  intro heq
  obtain ⟨a, ha, had, hne⟩ := hbad
  exact hne (bodies_of_queue (fun b hb => hflat b.1 (component_mem hb)) (length_components ts vs)
    heq a ha had)

mutual
/-- On a dynamic type that is not aligned, some small value has a wrong body. -/
theorem body_misplaced : ∀ (t : Ty), t.dynamic = true → full t < 2 ^ 256 → ¬ Aligned t →
    ∃ v : t.Val, Small ⟨t, v⟩ ∧ body t v ≠ enc t v
  | .bytes, _, _, h => absurd trivial h
  | .string, _, _, h => absurd trivial h
  | .array t, _, hfull, h => by
    cases ht : t.dynamic with
    | true =>
      have hbad : ¬ Aligned t := fun hal => h ⟨fun _ => hal, fun hs => by simp [ht] at hs⟩
      have hlt : full t < 2 ^ 256 := by
        have hle := full_le_slot ht
        have hslot : 32 + 2 * slot t < 2 ^ 256 := hfull
        omega
      obtain ⟨v, hsmall, hne⟩ := body_misplaced t ht hlt hbad
      refine ⟨⟨[v], by simp⟩, fun _ => enc_array_small ?_ (by simp), fun heq => ?_⟩
      · intro u hu
        rw [List.mem_singleton.mp hu]
        exact hsmall
      · exact elements_misplaced ht (List.mem_singleton_self v) hne _ (body_array heq)
    | false =>
      have hbad : ¬ ∀ a ∈ rounds t, ∀ b ∈ rounds t, a = b :=
        fun hal => h ⟨fun hs => by simp [ht] at hs, fun _ => hal⟩
      obtain ⟨k, hne⟩ := array_misplaced ht hbad
      exact ⟨_, probe_small k (.array t), hne⟩
  | .fixed size t, hd, hfull, h => by
    have ht : t.dynamic = true := hd
    have hbad : size ≠ 0 ∧ ¬ Aligned t := by
      constructor
      · exact fun h0 => h fun _ => .inl h0
      · exact fun hal => h fun _ => .inr hal
    have hlt : full t < 2 ^ 256 := by
      have hle := full_le_slot ht
      have hslot : size * slot t < 2 ^ 256 := hfull
      have hmul := Nat.le_mul_of_pos_left (slot t) (Nat.pos_of_ne_zero hbad.1)
      omega
    obtain ⟨v, hsmall, hne⟩ := body_misplaced t ht hlt hbad.2
    refine ⟨⟨List.replicate size v, List.length_replicate⟩, fun _ => enc_fixed_small ?_,
      fun heq => ?_⟩
    · intro u hu
      rw [List.eq_of_mem_replicate hu]
      exact hsmall
    · have hmem : v ∈ List.replicate size v := List.mem_replicate.mpr ⟨hbad.1, rfl⟩
      apply elements_misplaced ht hmem hne (depth t)
      rw [← elements_map, ← elements_part]
      exact heq
  | .tuple ts, hd, hfull, h => by
    have hbad : ¬ AlignedAll ts := fun hal => h fun _ => hal
    by_cases hlate : ∃ t ∈ ts, t.dynamic = false ∧ ∃ r ∈ rounds t, r ≠ 0
    · refine ⟨probes 1 ts, fun _ => enc_tuple_small (probes_small 1 ts), fun heq => ?_⟩
      apply late_misplaced hd hfull hlate (depths ts)
      rw [← items_eq, ← parts_eq]
      exact heq
    · obtain ⟨vs, hsmall, hne⟩ := bodies_misplaced ts hfull
        ((not_alignedAll hbad).resolve_left hlate)
      push Not at hlate
      refine ⟨vs, fun _ => enc_tuple_small hsmall, fun heq => ?_⟩
      apply components_misplaced hlate hne (depths ts)
      rw [← items_eq, ← parts_eq]
      exact heq
theorem bodies_misplaced : ∀ (ts : List Ty), fulls ts < 2 ^ 256 →
    (∃ t ∈ ts, t.dynamic = true ∧ ¬ Aligned t) → ∃ vs : Ty.Vals ts,
      (∀ a ∈ components ts vs, Small a) ∧
        ∃ a ∈ components ts vs, a.1.dynamic = true ∧ body a.1 a.2 ≠ enc a.1 a.2
  | t :: ts, hfull, h => by
    have hfull : slot t + fulls ts < 2 ^ 256 := hfull
    by_cases ht : t.dynamic = true ∧ ¬ Aligned t
    · have hle := full_le_slot ht.1
      obtain ⟨v, hsmall, hne⟩ := body_misplaced t ht.1 (by omega) ht.2
      refine ⟨(v, probes 1 ts), ?_, ⟨t, v⟩, List.mem_cons_self, ht.1, hne⟩
      exact List.forall_mem_cons.mpr ⟨hsmall, probes_small 1 ts⟩
    · obtain ⟨u, hu, hbad⟩ := h
      have hmem : u ∈ ts := (List.mem_cons.mp hu).resolve_left fun he => ht (he ▸ hbad)
      obtain ⟨vs, hsmall, a, ha, hne⟩ := bodies_misplaced ts (by omega) ⟨u, hmem, hbad⟩
      refine ⟨(probe 1 t, vs), ?_, a, List.mem_cons_of_mem _ ha, hne⟩
      exact List.forall_mem_cons.mpr ⟨probe_small 1 t, hsmall⟩
end

/-- Arguments that are not aligned have small values that come out wrong. -/
theorem args_misplaced {params : List Ty} (hfull : fulls params < 2 ^ 256)
    (h : ¬ AlignedArgs params) : ∃ args : Ty.Vals params,
      (layout (parts params args)).length ≤ fulls params ∧
      queue (depths params) ((components params args).map item) ≠ layout (parts params args) := by
  cases hd : Ty.anyDynamic params with
  | true =>
    have hbad : ¬ AlignedAll params := fun hal => h ⟨fun _ => hal, fun hs => by simp [hd] at hs⟩
    by_cases hlate : ∃ t ∈ params, t.dynamic = false ∧ ∃ r ∈ rounds t, r ≠ 0
    · refine ⟨probes 1 params, enc_tuple_small (probes_small 1 params), ?_⟩
      rw [parts_eq]
      exact late_misplaced hd hfull hlate _
    · obtain ⟨vs, hsmall, hne⟩ := bodies_misplaced params hfull
        ((not_alignedAll hbad).resolve_left hlate)
      push Not at hlate
      refine ⟨vs, enc_tuple_small hsmall, ?_⟩
      rw [parts_eq]
      exact components_misplaced hlate hne _
  | false =>
    have hbad : ¬ (roundsAll params).Pairwise (· ≤ ·) :=
      fun hal => h ⟨fun hs => by simp [hd] at hs, fun _ => hal⟩
    obtain ⟨k, hne⟩ := order_misplaced hd hbad (depths params)
    refine ⟨probes k params, enc_tuple_small (probes_small k params), ?_⟩
    rw [parts_eq]
    exact hne

end GenVM.Py.Evm
