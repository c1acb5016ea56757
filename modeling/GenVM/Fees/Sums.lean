import GenVM.Fees.Conserve
import GenVM.Fees.Allocation

/-!
# What a charge adds to the record of its category

A charge that succeeds adds the sum of its costs to the consumption of its
category and touches no other category; one that is refused changes nothing. No
charge changes what the node configured (`SameShape`).
-/
namespace GenVM.Fees
open GenVM.Lib

/-- Everything recorded as consumed for a category.
mirrors executor/src/rt/fees.rs:398-404 -/
def DataLimit.consumedOf (s : DataLimit) (cat : Category) : Nat :=
  (s.category cat).total_consumed.sum

/-- Every category has one total for each of its buckets. -/
def Shaped (s : DataLimit) : Prop :=
  ∀ cat, (s.category cat).total_consumed.length = (s.category cat).bucket_nos.length

/-- Only what is consumed differs. -/
def Bucket.SameShape (b b' : Bucket) : Prop :=
  b' = b.setConsumed b'.total_consumed ∧ b'.total_consumed.length = b.total_consumed.length

def SameShape (s s' : DataLimit) : Prop := ∀ cat, (s.category cat).SameShape (s'.category cat)

theorem SameShape.refl (s : DataLimit) : SameShape s s := fun _ => ⟨rfl, rfl⟩

theorem SameShape.trans {a b c : DataLimit} (h1 : SameShape a b) (h2 : SameShape b c) :
    SameShape a c := by
  intro cat
  obtain ⟨e1, l1⟩ := h1 cat
  obtain ⟨e2, l2⟩ := h2 cat
  refine ⟨?_, l2.trans l1⟩
  rw [e2, e1]
  rfl

theorem SameShape.bucket_nos {s s' : DataLimit} (h : SameShape s s') (cat : Category) :
    (s'.category cat).bucket_nos = (s.category cat).bucket_nos := by
  rw [(h cat).1]
  rfl

theorem SameShape.delta {s s' : DataLimit} (h : SameShape s s') (cat : Category) :
    (s'.category cat).delta = (s.category cat).delta := by
  rw [(h cat).1]
  rfl

theorem SameShape.shaped {s s' : DataLimit} (h : SameShape s s') (hs : Shaped s) : Shaped s' := by
  intro cat
  rw [(h cat).2, h.bucket_nos, hs cat]

theorem SameShape.calculate {s s' : DataLimit} (h : SameShape s s') (cat : Category) (vars : Attrs) :
    calculate_bucket (s'.category cat) vars = calculate_bucket (s.category cat) vars := by
  unfold calculate_bucket
  rw [h.delta, h.bucket_nos]

/-! ## Costs -/

theorem mapM_length {α β : Type} {f : α → Option β} : ∀ {xs : List α} {ys : List β},
    xs.mapM f = some ys → ys.length = xs.length
  | [], ys, h => by
    cases h
    rfl
  | x :: xs, ys, h => by
    rw [List.mapM_cons] at h
    obtain ⟨y, -, h⟩ := Option.bind_eq_some_iff.mp h
    obtain ⟨zs, hzs, h⟩ := Option.bind_eq_some_iff.mp h
    rw [← Option.some.inj h, List.length_cons, mapM_length hzs, List.length_cons]

theorem value_to_u256_vec_length {value : Value} {n : Nat} {costs : List Nat}
    (h : value_to_u256_vec value n = some costs) : costs.length = n := by
  unfold value_to_u256_vec at h
  split at h
  · obtain ⟨c, -, rfl⟩ := Option.map_eq_some_iff.mp h
    exact List.length_replicate
  · split at h
    · next hlen => rw [mapM_length h, hlen]
    · cases h
  · cases h

theorem calculate_bucket_length {b : Bucket} {vars : Attrs} {costs : List Nat}
    (h : calculate_bucket b vars = some costs) : costs.length = b.bucket_nos.length := by
  obtain ⟨value, -, hv⟩ := Option.bind_eq_some_iff.mp h
  exact value_to_u256_vec_length hv

theorem sum_some : ∀ {costs : List Nat} {acc t : Nat}, sum costs acc = some t → t = acc + costs.sum
  | [], acc, t, h => by rw [← Option.some.inj h, List.sum_nil, Nat.add_zero]
  | c :: cs, acc, t, h => by
    obtain ⟨a, ha, h⟩ := Option.bind_eq_some_iff.mp h
    unfold add at ha
    split at ha
    · rw [sum_some h, ← Option.some.inj ha, List.sum_cons, Nat.add_assoc]
    · cases ha

theorem costVec_sum {costs : List Nat} {t : Nat} (h : CostVec.sum costs = some t) :
    t = costs.sum := by rw [sum_some h, Nat.zero_add]

theorem sum_addCosts : ∀ {costs totals : List Nat}, costs.length = totals.length →
    (addCosts costs totals).sum = totals.sum + costs.sum
  | [], totals, _ => rfl
  | _ :: _, [], h => nomatch h
  | cost :: costs, total :: totals, h => by
    rw [addCosts, List.sum_cons, sum_addCosts (Nat.succ.inj h), List.sum_cons, List.sum_cons]
    omega

/-! ## One category -/

/-- What a charge of `amount` to `cat` does to the record. -/
structure Adds (s s' : DataLimit) (cat : Category) (amount : Nat) : Prop where
  shape : SameShape s s'
  here : s'.consumedOf cat = s.consumedOf cat + amount
  other : ∀ c, c ≠ cat → s'.category c = s.category c

theorem Charged.adds {s s' : DataLimit} {cat : Category} {costs : List Nat}
    (h : Charged s s' cat costs) (hs : Shaped s)
    (hlen : costs.length = (s.category cat).bucket_nos.length) : Adds s s' cat costs.sum := by
  refine ⟨fun c => ?_, ?_, fun c hc => ?_⟩
  · rw [h.category]
    by_cases hc : c = cat
    · subst hc
      rw [Function.update_self]
      exact ⟨rfl, length_addCosts _ _⟩
    · rw [Function.update_of_ne hc]
      exact ⟨rfl, rfl⟩
  · unfold DataLimit.consumedOf
    rw [h.category, Function.update_self]
    exact sum_addCosts (hlen.trans (hs cat).symm)
  · rw [h.category, Function.update_of_ne hc]

theorem consume_bucket_adds {s s' : DataLimit} {cat : Category} {vars : Attrs} {paid : Option Bool}
    (hs : Shaped s) (h : consume_bucket s cat vars = some (paid, s')) :
    (paid ≠ some true ∧ s' = s) ∨ (paid = some true ∧
      ∃ costs, calculate_bucket (s.category cat) vars = some costs ∧ Adds s s' cat costs.sum) := by
  unfold consume_bucket at h
  split at h
  · obtain ⟨rfl, rfl⟩ := Prod.mk.inj (Option.some.inj h)
    exact .inl ⟨by simp, rfl⟩
  · next costs hcosts =>
    obtain ⟨⟨charged, s1⟩, h1, h⟩ := Option.bind_eq_some_iff.mp h
    obtain ⟨rfl, rfl⟩ := Prod.mk.inj (Option.some.inj h)
    rcases consume_bucket_raw_cases (hs cat) h1 with ⟨rfl, hc⟩ | ⟨rfl, rfl⟩
    · exact .inr ⟨rfl, costs, hcosts, hc.adds hs (calculate_bucket_length hcosts)⟩
    · exact .inl ⟨by simp, rfl⟩

theorem consume_event_adds {s s' : DataLimit} {blob_size topics_count : Nat}
    {paid : Option (Option Nat)} (hs : Shaped s)
    (h : consume_event s blob_size topics_count = some (paid, s')) :
    (paid.join = none ∧ s' = s) ∨ ∃ fee, paid = some (some fee) ∧ Adds s s' .event fee := by
  unfold consume_event at h
  split at h
  · obtain ⟨rfl, rfl⟩ := Prod.mk.inj (Option.some.inj h)
    exact .inl ⟨rfl, rfl⟩
  · next costs hcosts =>
    obtain ⟨⟨charged, s1⟩, h1, h2⟩ := Option.bind_eq_some_iff.mp h
    have h2 : (if charged = true then (sum costs 0).bind fun total => some (some (some total), s1)
      else some (some none, s1)) = some (paid, s') := h2
    rcases consume_bucket_raw_cases (hs .event) h1 with ⟨hcharged, hc⟩ | ⟨hcharged, hsame⟩
    · rw [if_pos hcharged] at h2
      obtain ⟨total, ht, h2⟩ := Option.bind_eq_some_iff.mp h2
      obtain ⟨rfl, rfl⟩ := Prod.mk.inj (Option.some.inj h2)
      refine .inr ⟨total, rfl, ?_⟩
      rw [costVec_sum ht]
      exact hc.adds hs (calculate_bucket_length hcosts)
    · rw [if_neg (by simp [hcharged])] at h2
      obtain ⟨rfl, rfl⟩ := Prod.mk.inj (Option.some.inj h2)
      exact .inl ⟨rfl, hsame⟩

/-! ## Messages -/

/-- What a message adds: its fee and its receipt fee. -/
structure AddsMessage (s s' : DataLimit) (fee receipt : Nat) : Prop where
  shape : SameShape s s'
  message_fee : s'.consumedOf .message_fee = s.consumedOf .message_fee + fee
  message_receipt : s'.consumedOf .message_receipt = s.consumedOf .message_receipt + receipt
  other : ∀ c, c ≠ .message_fee → c ≠ .message_receipt → s'.category c = s.category c

theorem consume_message_fee_adds {s s' : DataLimit} {cost_fee cost_receipt : List Nat}
    {charged : Bool} (hs : Shaped s)
    (hfee : cost_fee.length = (s.category .message_fee).bucket_nos.length)
    (hreceipt : cost_receipt.length = (s.category .message_receipt).bucket_nos.length)
    (h : consume_message_fee s cost_fee cost_receipt = some (charged, s')) :
    (charged = false ∧ s' = s) ∨
      (charged = true ∧ AddsMessage s s' cost_fee.sum cost_receipt.sum) := by
  obtain ⟨d1, -, h⟩ := Option.bind_eq_some_iff.mp h
  obtain ⟨d2, -, h⟩ := Option.bind_eq_some_iff.mp h
  split at h
  · obtain ⟨bs, -, h⟩ := Option.bind_eq_some_iff.mp h
    obtain ⟨fee, hf, h⟩ := Option.bind_eq_some_iff.mp h
    obtain ⟨receipt, hr, h⟩ := Option.bind_eq_some_iff.mp h
    have hr' : record cost_receipt (s.category .message_receipt).total_consumed = some receipt := hr
    obtain ⟨rfl, rfl⟩ := Prod.mk.inj (Option.some.inj h)
    rw [record_some hf, record_some hr']
    refine .inr ⟨rfl, ⟨fun c => ?_, ?_, ?_, fun c h1 h2 => ?_⟩⟩
    · cases c <;> refine ⟨rfl, ?_⟩ <;> first | exact length_addCosts _ _ | rfl
    · exact sum_addCosts (hfee.trans (hs .message_fee).symm)
    · exact sum_addCosts (hreceipt.trans (hs .message_receipt).symm)
    · cases c with
      | message_fee => exact absurd rfl h1
      | message_receipt => exact absurd rfl h2
      | _ => rfl
  · obtain ⟨rfl, rfl⟩ := Prod.mk.inj (Option.some.inj h)
    exact .inl ⟨rfl, rfl⟩

/-! ## The start -/

/-- The limiter an execution starts with, once the initial fees are charged.
mirrors executor/src/exe/run.rs:127-151, 180-182 -/
def DataLimit.start (bucket_totals : List Nat) (fees : Category → FeesBucketConfig) :
    Option DataLimit := do
  let data_fees_limit ← DataLimit.new bucket_totals fees
  match ← consume_initial data_fees_limit with
  | (none, data_fees_limit) => some data_fees_limit
  | (some _, _) => none

theorem build_bucket_shape {cfg : FeesBucketConfig} {e : String} {b : Bucket}
    (h : build_bucket cfg e = some b) :
    b.total_consumed.length = b.bucket_nos.length ∧ b.total_consumed.sum = 0 ∧
      b.subtract_on_start.length = b.bucket_nos.length := by
  unfold build_bucket at h
  dsimp only at h
  split at h
  · cases h
  · obtain ⟨v, -, h⟩ := Option.bind_eq_some_iff.mp h
    obtain ⟨sos, hsos, h⟩ := Option.bind_eq_some_iff.mp h
    obtain ⟨delta, -, h⟩ := Option.bind_eq_some_iff.mp h
    obtain rfl := Option.some.inj h
    refine ⟨List.length_replicate, ?_, value_to_u256_vec_length hsos⟩
    rw [List.sum_replicate, smul_zero]

theorem new_shape {bucket_totals : List Nat} {fees : Category → FeesBucketConfig} {d : DataLimit}
    (h : DataLimit.new bucket_totals fees = some d) (cat : Category) :
    (d.category cat).total_consumed.length = (d.category cat).bucket_nos.length ∧
      d.consumedOf cat = 0 ∧
      (d.category cat).subtract_on_start.length = (d.category cat).bucket_nos.length := by
  obtain ⟨storage, h1, h⟩ := Option.bind_eq_some_iff.mp h
  obtain ⟨message_receipt, h2, h⟩ := Option.bind_eq_some_iff.mp h
  obtain ⟨nondet_output, h3, h⟩ := Option.bind_eq_some_iff.mp h
  obtain ⟨message_fee, h4, h⟩ := Option.bind_eq_some_iff.mp h
  obtain ⟨event, h5, h⟩ := Option.bind_eq_some_iff.mp h
  obtain rfl := Option.some.inj h
  cases cat with
  | storage => exact build_bucket_shape h1
  | message_receipt => exact build_bucket_shape h2
  | nondet_output => exact build_bucket_shape h3
  | message_fee => exact build_bucket_shape h4
  | event => exact build_bucket_shape h5

/-- Each category of the list is charged its initial fee. -/
theorem consumeInOrder_adds : ∀ {cats : List Category} {s s' : DataLimit}, cats.Nodup → Shaped s →
    (∀ cat, (s.category cat).subtract_on_start.length = (s.category cat).bucket_nos.length) →
    consumeInOrder s cats = some (none, s') → SameShape s s' ∧ ∀ cat, s'.consumedOf cat =
      s.consumedOf cat + if cat ∈ cats then (s.category cat).subtract_on_start.sum else 0
  | [], s, s', _, _, _, h => by
    cases h
    exact ⟨SameShape.refl s, fun cat => rfl⟩
  | c :: cats, s, s', hnd, hs, hlen, h => by
    obtain ⟨hc, hnd⟩ := List.nodup_cons.mp hnd
    obtain ⟨⟨charged, s1⟩, h1, h⟩ := Option.bind_eq_some_iff.mp h
    rcases consume_bucket_raw_cases (hs c) h1 with ⟨rfl, hcharged⟩ | ⟨rfl, -⟩
    · have hadd := hcharged.adds hs (hlen c)
      have hsos : ∀ cat, (s1.category cat).subtract_on_start = (s.category cat).subtract_on_start := by
        intro cat
        rw [(hadd.shape cat).1]
        rfl
      obtain ⟨hshape, hrest⟩ := consumeInOrder_adds hnd (hadd.shape.shaped hs)
        (fun cat => by rw [hsos, hadd.shape.bucket_nos]; exact hlen cat) h
      refine ⟨hadd.shape.trans hshape, fun cat => ?_⟩
      rw [hrest cat, hsos]
      by_cases hcat : cat = c
      · subst hcat
        rw [if_neg hc, if_pos List.mem_cons_self, hadd.here, Nat.add_zero]
      · have hother : s1.consumedOf cat = s.consumedOf cat := by
          unfold DataLimit.consumedOf
          rw [hadd.other cat hcat]
        rw [hother]
        simp [hcat]
    · cases h

/-- **Start.** What is recorded at the start is what was taken up-front. -/
theorem start_consumed {bucket_totals : List Nat} {fees : Category → FeesBucketConfig}
    {d : DataLimit} (h : DataLimit.start bucket_totals fees = some d) :
    Shaped d ∧ ∀ cat, d.consumedOf cat = (d.category cat).subtract_on_start.sum := by
  obtain ⟨d0, h0, h⟩ := Option.bind_eq_some_iff.mp h
  obtain ⟨⟨failed, d1⟩, h1, h⟩ := Option.bind_eq_some_iff.mp h
  cases failed with
  | some cat => cases h
  | none =>
    obtain rfl := Option.some.inj h
    have hs : Shaped d0 := fun cat => (new_shape h0 cat).1
    obtain ⟨hshape, hsum⟩ := consumeInOrder_adds (by decide) hs (fun cat => (new_shape h0 cat).2.2) h1
    refine ⟨hshape.shaped hs, fun cat => ?_⟩
    rw [hsum cat, (new_shape h0 cat).2.1, if_pos (by cases cat <;> decide), (hshape cat).1, Nat.zero_add]
    rfl

end GenVM.Fees
