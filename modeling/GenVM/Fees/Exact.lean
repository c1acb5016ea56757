import GenVM.Fees.Conserve

/-!
# A charge takes exactly what its costs sum to

`RawExact` and `MessageExact` say that a charge is all or nothing: where every
bucket covers the sum of what is routed to it (`Covered`) the charge returns
true and takes these sums, elsewhere it returns false and changes nothing. Both
functions sum the costs of a bucket in `U256` before they compare, so they do
this exactly where that sum is itself an amount.

Results: `consumption_exact_iff`, `near_maximal_costs_panic`.
-/
namespace GenVM.Fees
open GenVM.Lib

/-- Every bucket that the pairs go to has enough for all they take from it. -/
def Covered (buckets : List Nat) (pairs : List (Nat × Nat)) : Prop :=
  ∀ p ∈ pairs, p.1 < buckets.length ∧ routed pairs p.1 ≤ buckets.getD p.1 0

instance (buckets : List Nat) (pairs : List (Nat × Nat)) : Decidable (Covered buckets pairs) :=
  inferInstanceAs (Decidable (∀ p ∈ pairs, p.1 < buckets.length ∧ routed pairs p.1 ≤ _))

theorem routed_eq_zero {b : Nat} : ∀ {pairs : List (Nat × Nat)}, (∀ p ∈ pairs, p.1 ≠ b) →
    routed pairs b = 0
  | [], _ => rfl
  | p :: pairs, h => by
    obtain ⟨hp, h⟩ := List.forall_mem_cons.mp h
    rw [routed_cons, if_neg hp, routed_eq_zero h]

/-- What covers every pair covers every bucket. -/
theorem Covered.le {buckets : List Nat} {pairs : List (Nat × Nat)} (h : Covered buckets pairs)
    (b : Nat) : routed pairs b ≤ buckets.getD b 0 := by
  by_cases hb : ∃ p ∈ pairs, p.1 = b
  · obtain ⟨p, hp, rfl⟩ := hb
    exact (h p hp).2
  · push Not at hb
    rw [routed_eq_zero hb]
    exact Nat.zero_le _

theorem covered_iff {buckets : List Nat} {pairs : List (Nat × Nat)} : Covered buckets pairs ↔
    (∀ p ∈ pairs, p.1 < buckets.length) ∧ ∀ b, routed pairs b ≤ buckets.getD b 0 :=
  ⟨fun h => ⟨fun p hp => (h p hp).1, h.le⟩, fun h p hp => ⟨h.1 p hp, h.2 p.1⟩⟩

theorem Covered.left {buckets : List Nat} {xs ys : List (Nat × Nat)}
    (h : Covered buckets (xs ++ ys)) : Covered buckets xs := by
  rw [covered_iff] at h ⊢
  refine ⟨fun p hp => h.1 p (List.mem_append_left _ hp), fun b => ?_⟩
  have := h.2 b
  rw [routed_append] at this
  omega

/-- One more cost is covered when its bucket still has room for it. -/
theorem covered_snoc {buckets : List Nat} {prev : List (Nat × Nat)} (h : Covered buckets prev)
    (bno cost : Nat) : Covered buckets (prev ++ [(bno, cost)]) ↔
      bno < buckets.length ∧ cost + routed prev bno ≤ buckets.getD bno 0 := by
  have hmem : ∀ b, routed (prev ++ [(bno, cost)]) b =
      routed prev b + if bno = b then cost else 0 := by
    intro b
    rw [routed_append]
    rfl
  rw [covered_iff]
  constructor
  · intro ⟨hin, hle⟩
    have hb := hle bno
    rw [hmem, if_pos rfl] at hb
    exact ⟨hin (bno, cost) (by simp), by omega⟩
  · intro ⟨hlt, hle⟩
    refine ⟨fun p hp => ?_, fun b => ?_⟩
    · rcases List.mem_append.mp hp with hp | hp
      · exact (h p hp).1
      · obtain rfl := List.mem_singleton.mp hp
        exact hlt
    · rw [hmem]
      have hb := h.le b
      split
      · next he =>
        subst he
        omega
      · exact hb

/-! ## The check of a category -/

theorem add_eq {a b : Nat} (h : a + b < U256_BOUND) : add a b = some (a + b) := if_pos h

theorem add_overflow {a b : Nat} (h : U256_BOUND ≤ a + b) : add a b = none :=
  if_neg (Nat.not_lt.mpr h)

theorem cumulative_eq {bno : Nat} : ∀ {prev : List (Nat × Nat)} {cost : Nat},
    cost + routed prev bno < U256_BOUND →
    cumulative bno cost prev = some (cost + routed prev bno)
  | [], cost, _ => rfl
  | (no, prev_cost) :: prev, cost, h => by
    rw [routed_cons] at h ⊢
    unfold cumulative
    dsimp only at h ⊢
    split
    · next hno =>
      rw [if_pos hno] at h
      rw [add_eq (by omega), ← Nat.add_assoc]
      apply cumulative_eq
      omega
    · next hno =>
      rw [if_neg hno, Nat.zero_add] at h
      rw [Nat.zero_add]
      exact cumulative_eq h

theorem cumulative_overflow {bno : Nat} : ∀ {prev : List (Nat × Nat)} {cost : Nat},
    cost < U256_BOUND → U256_BOUND ≤ cost + routed prev bno → cumulative bno cost prev = none
  | [], cost, hcost, h => by
    rw [routed_nil] at h
    omega
  | (no, prev_cost) :: prev, cost, hcost, h => by
    rw [routed_cons] at h
    unfold cumulative
    dsimp only at h ⊢
    split
    · next hno =>
      rw [if_pos hno] at h
      by_cases hadd : cost + prev_cost < U256_BOUND
      · rw [add_eq hadd]
        apply cumulative_overflow hadd
        omega
      · rw [add_overflow (Nat.not_lt.mp hadd)]
        rfl
    · next hno =>
      rw [if_neg hno, Nat.zero_add] at h
      exact cumulative_overflow hcost h

/-- No cost that its bucket alone could pay brings the sum of that bucket to
`2^256`, as long as everything before it is covered. -/
def NoOverflow (buckets : List Nat) (prev rest : List (Nat × Nat)) : Prop :=
  ∀ done bno cost todo, rest = done ++ (bno, cost) :: todo → Covered buckets (prev ++ done) →
    bno < buckets.length → cost ≤ buckets.getD bno 0 →
    cost + routed (prev ++ done) bno < U256_BOUND

theorem NoOverflow.tail {buckets : List Nat} {prev rest : List (Nat × Nat)} {p : Nat × Nat}
    (h : NoOverflow buckets prev (p :: rest)) : NoOverflow buckets (prev ++ [p]) rest := by
  intro done bno cost todo he hcov hlt hle
  have hprev : prev ++ [p] ++ done = prev ++ p :: done := by simp
  rw [hprev] at hcov ⊢
  exact h (p :: done) bno cost todo (by rw [he]; rfl) hcov hlt hle

/-- Without an overflow the check compares the exact sums. -/
theorem checkCosts_eq {buckets : List Nat} : ∀ {rest prev : List (Nat × Nat)},
    Covered buckets prev → NoOverflow buckets prev rest →
    checkCosts buckets prev rest = some (decide (Covered buckets (prev ++ rest)))
  | [], prev, hprev, _ => by
    rw [List.append_nil, decide_eq_true hprev]
    rfl
  | (bno, cost) :: rest, prev, hprev, hno => by
    have happ : prev ++ (bno, cost) :: rest = prev ++ [(bno, cost)] ++ rest := by simp
    rw [happ, checkCosts]
    have hsnoc := covered_snoc hprev bno cost
    -- a cost that fails its own check fails the whole charge
    have hfail : ¬ (bno < buckets.length ∧ cost + routed prev bno ≤ buckets.getD bno 0) →
        some false = some (decide (Covered buckets (prev ++ [(bno, cost)] ++ rest))) := by
      intro hn
      rw [decide_eq_false fun hc => hn (hsnoc.mp hc.left)]
    split
    · next hnone =>
      apply hfail
      rintro ⟨hlt, -⟩
      rw [List.getElem?_eq_getElem hlt] at hnone
      cases hnone
    · next r hr =>
      obtain ⟨hlt, -⟩ := List.getElem?_eq_some_iff.mp hr
      have hget : buckets.getD bno 0 = r := by
        rw [List.getD, hr, Option.getD_some]
      split
      · apply hfail
        omega
      · next hle =>
        have hfit := hno [] bno cost rest rfl (by rwa [List.append_nil]) hlt (by omega)
        rw [List.append_nil] at hfit
        rw [cumulative_eq hfit]
        show (if r < cost + routed prev bno then some false
          else checkCosts buckets (prev ++ [(bno, cost)]) rest) = _
        split
        · apply hfail
          omega
        · exact checkCosts_eq (hsnoc.mpr ⟨hlt, by omega⟩) hno.tail

/-- At the first overflow the check panics. -/
theorem checkCosts_overflow {buckets : List Nat} {bno cost : Nat} {todo : List (Nat × Nat)}
    (hfit : ∀ b, buckets.getD b 0 < U256_BOUND) (hlt : bno < buckets.length)
    (hle : cost ≤ buckets.getD bno 0) : ∀ {done prev : List (Nat × Nat)},
    Covered buckets prev → Covered buckets (prev ++ done) →
    U256_BOUND ≤ cost + routed (prev ++ done) bno →
    checkCosts buckets prev (done ++ (bno, cost) :: todo) = none
  | [], prev, hprev, _, hover => by
    rw [List.append_nil] at hover
    rw [List.nil_append, checkCosts, List.getElem?_eq_getElem hlt]
    rw [List.getD, List.getElem?_eq_getElem hlt, Option.getD_some] at hle
    have hcost : cost < U256_BOUND := by
      have := hfit bno
      rw [List.getD, List.getElem?_eq_getElem hlt, Option.getD_some] at this
      omega
    dsimp only
    rw [if_neg (Nat.not_lt.mpr hle), cumulative_overflow hcost hover]
    rfl
  | (no, c) :: done, prev, hprev, hcov, hover => by
    have happ : prev ++ (no, c) :: done = prev ++ [(no, c)] ++ done := by simp
    rw [happ] at hcov hover
    obtain ⟨hno, hc⟩ := (covered_snoc hprev no c).mp hcov.left
    have hget := List.getElem?_eq_getElem hno
    have hroom := hfit no
    rw [List.getD, hget, Option.getD_some] at hc hroom
    rw [List.cons_append, checkCosts, hget]
    dsimp only
    rw [if_neg (by omega), cumulative_eq (by omega)]
    show (if buckets[no] < c + routed prev no then some false
      else checkCosts buckets (prev ++ [(no, c)]) (done ++ (bno, cost) :: todo)) = none
    rw [if_neg (by omega)]
    exact checkCosts_overflow hfit hlt hle hcov.left hcov hover

/-! ## Charges of a category -/

/-- What is routed to the buckets of a category. -/
def costsOf (s : DataLimit) (cat : Category) (costs : List Nat) : List (Nat × Nat) :=
  (s.category cat).bucket_nos.zip costs

/-- `consume_bucket_raw` is all or nothing at these costs. -/
def RawExact (s : DataLimit) (cat : Category) (costs : List Nat) : Prop :=
  if Covered s.buckets (costsOf s cat costs) then
    ∃ s', consume_bucket_raw s cat costs = some (true, s') ∧ Charged s s' cat costs
  else consume_bucket_raw s cat costs = some (false, s)

/-- The sums that `consume_bucket_raw` builds are amounts. -/
def RawFits (s : DataLimit) (cat : Category) (costs : List Nat) : Prop :=
  NoOverflow s.buckets [] (costsOf s cat costs)

theorem RawExact.returns {s : DataLimit} {cat : Category} {costs : List Nat}
    (h : RawExact s cat costs) : consume_bucket_raw s cat costs ≠ none := by
  unfold RawExact at h
  split at h
  · obtain ⟨s', hs', -⟩ := h
    rw [hs']
    exact Option.some_ne_none _
  · rw [h]
    exact Option.some_ne_none _

theorem Conserved.buckets_fit {initial : List Nat} {s : DataLimit} (hs : Conserved initial s)
    (hfit : ∀ x ∈ initial, x < U256_BOUND) (b : Nat) : s.buckets.getD b 0 < U256_BOUND := by
  have hinit : initial.getD b 0 < U256_BOUND := by
    rw [List.getD]
    cases hget : initial[b]? with
    | none => decide
    | some x => exact hfit x (List.mem_of_getElem? hget)
  have := hs.balance b
  omega

theorem rawExact_iff {initial : List Nat} {s : DataLimit} (hs : Conserved initial s)
    (hfit : ∀ x ∈ initial, x < U256_BOUND) (cat : Category) (costs : List Nat) :
    RawExact s cat costs ↔ RawFits s cat costs := by
  have hnil : Covered s.buckets [] := fun p hp => absurd hp List.not_mem_nil
  constructor
  · intro h done bno cost todo he hcov hlt hle
    by_contra hover
    apply h.returns
    have hpanic : checkCosts s.buckets [] (done ++ (bno, cost) :: todo) = none :=
      checkCosts_overflow (hs.buckets_fit hfit) hlt hle hnil hcov (Nat.not_lt.mp hover)
    rw [← he] at hpanic
    exact Option.bind_eq_none_iff.mpr fun r hr => nomatch hpanic.symm.trans hr
  · intro h
    have hcheck := checkCosts_eq hnil h
    rw [List.nil_append] at hcheck
    unfold RawExact
    split
    · next hcov =>
      rw [decide_eq_true hcov] at hcheck
      obtain ⟨s', hs'⟩ := charge_complete hs hfit hcheck
      rcases consume_bucket_raw_cases (hs.totals cat) hs' with ⟨-, hc⟩ | ⟨hc, -⟩
      · exact ⟨s', hs', hc⟩
      · cases hc
    · next hcov =>
      rw [decide_eq_false hcov] at hcheck
      exact Option.bind_eq_some_iff.mpr ⟨false, hcheck, rfl⟩

/-! ## Charges of a message -/

theorem add_lt {a b c : Nat} (h : add a b = some c) : c < U256_BOUND := by
  unfold add at h
  split at h
  · obtain rfl := Option.some.inj h
    assumption
  · cases h

theorem addDeductions_isSome : ∀ {pairs ds : List (Nat × Nat)},
    (∀ b, (ds.lookup b).getD 0 + routed pairs b < U256_BOUND) →
    ∃ ds', addDeductions ds pairs = some ds'
  | [], ds, _ => ⟨ds, rfl⟩
  | (bno, cost) :: pairs, ds, h => by
    have hadd : (ds.lookup bno).getD 0 + cost < U256_BOUND := by
      have := h bno
      rw [routed_cons, if_pos rfl] at this
      dsimp only at this
      omega
    have hnext : ∀ b, ((SortedMap.insert (· < ·) bno ((ds.lookup bno).getD 0 + cost) ds).lookup
        b).getD 0 + routed pairs b < U256_BOUND := by
      intro b
      have hb := h b
      rw [routed_cons] at hb
      rw [SortedMap.lookup_insert SortedMap.nat_order]
      dsimp only at hb
      by_cases he : b = bno
      · rw [if_pos he, Option.getD_some]
        rw [if_pos he.symm, he] at hb
        rw [he]
        omega
      · rw [if_neg he]
        rw [if_neg fun h => he h.symm, Nat.zero_add] at hb
        exact hb
    obtain ⟨ds', hds⟩ := addDeductions_isSome hnext
    exact ⟨ds', Option.bind_eq_some_iff.mpr ⟨_, add_eq hadd, hds⟩⟩

theorem U256_BOUND_pos : 0 < U256_BOUND := by decide

/-- Every deduction is an amount. -/
theorem addDeductions_lt : ∀ {pairs ds ds' : List (Nat × Nat)},
    addDeductions ds pairs = some ds' → (∀ b, (ds.lookup b).getD 0 < U256_BOUND) →
    ∀ b, (ds'.lookup b).getD 0 < U256_BOUND
  | [], ds, ds', h, hds => Option.some.inj h ▸ hds
  | (bno, cost) :: pairs, ds, ds', h, hds => by
    obtain ⟨total, ht, h⟩ := Option.bind_eq_some_iff.mp h
    apply addDeductions_lt h
    intro b
    rw [SortedMap.lookup_insert SortedMap.nat_order]
    split
    · exact add_lt ht
    · exact hds b

/-- The buckets with a deduction are those a cost goes to, also a cost of zero. -/
theorem addDeductions_keys : ∀ {pairs ds ds' : List (Nat × Nat)},
    addDeductions ds pairs = some ds' → ∀ b,
    ds'.lookup b ≠ none ↔ ds.lookup b ≠ none ∨ ∃ p ∈ pairs, p.1 = b
  | [], ds, ds', h, b => by
    obtain rfl := Option.some.inj h
    simp
  | (bno, cost) :: pairs, ds, ds', h, b => by
    obtain ⟨total, ht, h⟩ := Option.bind_eq_some_iff.mp h
    rw [addDeductions_keys h b, SortedMap.lookup_insert SortedMap.nat_order]
    by_cases hb : b = bno
    · subst hb
      simp
    · have hne : bno ≠ b := fun he => hb he.symm
      simp [hb, hne]

theorem checkDeductions_iff {buckets : List Nat} : ∀ {ds : List (Nat × Nat)},
    checkDeductions buckets ds = true ↔
      ∀ p ∈ ds, p.1 < buckets.length ∧ p.2 ≤ buckets.getD p.1 0
  | [] => by simp [checkDeductions]
  | (bno, total) :: ds => by
    constructor
    · exact checkDeductions_true
    · intro h
      obtain ⟨⟨hlt, hle⟩, h⟩ := List.forall_mem_cons.mp h
      rw [List.getD, List.getElem?_eq_getElem hlt, Option.getD_some] at hle
      rw [checkDeductions, List.getElem?_eq_getElem hlt]
      dsimp only
      rw [if_neg (Nat.not_lt.mpr hle)]
      exact checkDeductions_iff.mpr h

theorem record_length : ∀ {costs totals totals' : List Nat}, record costs totals = some totals' →
    costs.length ≤ totals.length
  | [], totals, _, _ => Nat.zero_le _
  | cost :: costs, [], _, h => nomatch h
  | cost :: costs, total :: totals, _, h => by
    obtain ⟨t, -, h⟩ := Option.bind_eq_some_iff.mp h
    obtain ⟨ts, hts, -⟩ := Option.bind_eq_some_iff.mp h
    exact Nat.succ_le_succ (record_length hts)

/-- What a message routes to the buckets, for its fee and its receipt together. -/
def messageCosts (s : DataLimit) (cost_fee cost_receipt : List Nat) : List (Nat × Nat) :=
  costsOf s .message_fee cost_fee ++ costsOf s .message_receipt cost_receipt

/-- The state after a message is charged: `buckets` without the sums, and the
costs in the records of both categories. -/
structure MessageCharged (s s' : DataLimit) (cost_fee cost_receipt : List Nat) : Prop where
  state : s' = messageCharged s s'.buckets cost_fee cost_receipt
  length : s'.buckets.length = s.buckets.length
  buckets : ∀ b, s.buckets.getD b 0 =
    s'.buckets.getD b 0 + routed (messageCosts s cost_fee cost_receipt) b

/-- `consume_message_fee` is all or nothing at these costs. -/
def MessageExact (s : DataLimit) (cost_fee cost_receipt : List Nat) : Prop :=
  if Covered s.buckets (messageCosts s cost_fee cost_receipt) then
    ∃ s', consume_message_fee s cost_fee cost_receipt = some (true, s') ∧
      MessageCharged s s' cost_fee cost_receipt
  else consume_message_fee s cost_fee cost_receipt = some (false, s)

/-- The sums that `consume_message_fee` builds are amounts, and where it charges
there is a record for each cost. -/
def MessageFits (s : DataLimit) (cost_fee cost_receipt : List Nat) : Prop :=
  (∀ b, routed (messageCosts s cost_fee cost_receipt) b < U256_BOUND) ∧
    (Covered s.buckets (messageCosts s cost_fee cost_receipt) →
      cost_fee.length ≤ (s.category .message_fee).bucket_nos.length ∧
      cost_receipt.length ≤ (s.category .message_receipt).bucket_nos.length)

/-- The deductions of a message: their keys, and the exact sum for each. -/
structure Deductions (pairs ds : List (Nat × Nat)) : Prop where
  sorted : SortedMap.Sorted (· < ·) ds
  sum : ∀ b, (ds.lookup b).getD 0 = routed pairs b
  keys : ∀ b, ds.lookup b ≠ none ↔ ∃ p ∈ pairs, p.1 = b

theorem deductions_of {fee receipt d1 d2 : List (Nat × Nat)} (h1 : addDeductions [] fee = some d1)
    (h2 : addDeductions d1 receipt = some d2) : Deductions (fee ++ receipt) d2 := by
  obtain ⟨hs1, hsum1⟩ := addDeductions_some SortedMap.sorted_nil h1
  obtain ⟨hs2, hsum2⟩ := addDeductions_some hs1 h2
  refine ⟨hs2, fun b => ?_, fun b => ?_⟩
  · rw [hsum2, hsum1, routed_append, List.lookup_nil, Option.getD_none, Nat.zero_add]
  · rw [addDeductions_keys h2, addDeductions_keys h1]
    simp [List.mem_append, or_and_right, exists_or]

/-- The check of the deductions is the check of the exact sums. -/
theorem Deductions.check {buckets : List Nat} {pairs ds : List (Nat × Nat)}
    (h : Deductions pairs ds) : checkDeductions buckets ds = true ↔ Covered buckets pairs := by
  rw [checkDeductions_iff]
  constructor
  · intro hds p hp
    obtain ⟨total, ht⟩ := Option.ne_none_iff_exists'.mp ((h.keys p.1).mpr ⟨p, hp, rfl⟩)
    have hsum := h.sum p.1
    rw [ht, Option.getD_some] at hsum
    rw [← hsum]
    exact hds (p.1, total) (SortedMap.mem_of_lookup ht)
  · intro hcov p hp
    have hkey : ds.lookup p.1 ≠ none := by
      intro hnone
      have := List.lookup_eq_none_iff.mp hnone p hp
      simp at this
    obtain ⟨q, hq, hqp⟩ := (h.keys p.1).mp hkey
    obtain ⟨hlt, hle⟩ := hcov q hq
    have htotal : p.2 ≤ routed ds p.1 := le_routed hp
    rw [routed_sorted h.sorted, h.sum] at htotal
    rw [hqp] at hlt hle
    exact ⟨hlt, htotal.trans hle⟩

theorem MessageExact.returns {s : DataLimit} {cost_fee cost_receipt : List Nat}
    (h : MessageExact s cost_fee cost_receipt) :
    ∃ charged s', consume_message_fee s cost_fee cost_receipt = some (charged, s') ∧
      (Covered s.buckets (messageCosts s cost_fee cost_receipt) → charged = true) := by
  unfold MessageExact at h
  split at h
  · obtain ⟨s', hs', -⟩ := h
    exact ⟨true, s', hs', fun _ => rfl⟩
  · next hcov => exact ⟨false, s, h, fun hc => absurd hc hcov⟩

/-- What a message that is charged leaves. -/
theorem consume_message_fee_true {s s' : DataLimit} {cost_fee cost_receipt : List Nat}
    (h : consume_message_fee s cost_fee cost_receipt = some (true, s')) :
    MessageCharged s s' cost_fee cost_receipt ∧
      cost_fee.length ≤ (s.category .message_fee).total_consumed.length ∧
      cost_receipt.length ≤ (s.category .message_receipt).total_consumed.length := by
  obtain ⟨d1, hd1, h⟩ := Option.bind_eq_some_iff.mp h
  obtain ⟨d2, hd2, h⟩ := Option.bind_eq_some_iff.mp h
  have hds := deductions_of hd1 hd2
  split at h
  · obtain ⟨bs, hbs, h⟩ := Option.bind_eq_some_iff.mp h
    obtain ⟨fee, hfee, h⟩ := Option.bind_eq_some_iff.mp h
    obtain ⟨receipt, hreceipt, h⟩ := Option.bind_eq_some_iff.mp h
    obtain ⟨-, rfl⟩ := Prod.mk.inj (Option.some.inj h)
    have hf : fee = addCosts cost_fee (s.category .message_fee).total_consumed := record_some hfee
    have hr : receipt = addCosts cost_receipt (s.category .message_receipt).total_consumed :=
      record_some hreceipt
    obtain ⟨hlen, hsub⟩ := applyDeductions_some hbs
    refine ⟨⟨?_, hlen, fun b => ?_⟩, record_length hfee, record_length hreceipt⟩
    · rw [hf, hr]
      rfl
    · rw [hsub b, routed_sorted hds.sorted, hds.sum]
      rfl
  · obtain ⟨hc, -⟩ := Prod.mk.inj (Option.some.inj h)
    cases hc

theorem messageExact_iff {initial : List Nat} {s : DataLimit} (hs : Conserved initial s)
    (hfit : ∀ x ∈ initial, x < U256_BOUND) (cost_fee cost_receipt : List Nat) :
    MessageExact s cost_fee cost_receipt ↔ MessageFits s cost_fee cost_receipt := by
  constructor
  · intro h
    obtain ⟨charged, s', hret, hcov⟩ := h.returns
    obtain ⟨d1, hd1, hrest⟩ := Option.bind_eq_some_iff.mp hret
    obtain ⟨d2, hd2, -⟩ := Option.bind_eq_some_iff.mp hrest
    refine ⟨fun b => ?_, fun hc => ?_⟩
    · have hlt := addDeductions_lt hd2 (addDeductions_lt hd1 fun _ => U256_BOUND_pos) b
      rwa [(deductions_of hd1 hd2).sum] at hlt
    · obtain rfl := hcov hc
      obtain ⟨-, hfee, hreceipt⟩ := consume_message_fee_true hret
      rw [hs.totals] at hfee hreceipt
      exact ⟨hfee, hreceipt⟩
  · intro ⟨hsum, hlen⟩
    -- the sums are amounts, so the deductions can be built
    have hfee : ∀ b, (List.lookup b []).getD 0 + routed (costsOf s .message_fee cost_fee) b <
        U256_BOUND := by
      intro b
      have := hsum b
      rw [messageCosts, routed_append] at this
      rw [List.lookup_nil, Option.getD_none]
      omega
    obtain ⟨d1, hd1⟩ := addDeductions_isSome hfee
    have hreceipt : ∀ b, (d1.lookup b).getD 0 +
        routed (costsOf s .message_receipt cost_receipt) b < U256_BOUND := by
      intro b
      have := hsum b
      rw [messageCosts, routed_append] at this
      rw [(addDeductions_some SortedMap.sorted_nil hd1).2 b, List.lookup_nil, Option.getD_none]
      omega
    obtain ⟨d2, hd2⟩ := addDeductions_isSome hreceipt
    have hcheck : checkDeductions s.buckets d2 = true ↔
        Covered s.buckets (messageCosts s cost_fee cost_receipt) := (deductions_of hd1 hd2).check
    unfold MessageExact
    split
    · next hcov =>
      obtain ⟨hlf, hlr⟩ := hlen hcov
      obtain ⟨s', hs'⟩ := message_fee_complete hs hfit hlf hlr hd1 hd2 (hcheck.mpr hcov)
      exact ⟨s', hs', (consume_message_fee_true hs').1⟩
    · next hcov =>
      refine Option.bind_eq_some_iff.mpr ⟨d1, hd1, Option.bind_eq_some_iff.mpr ⟨d2, hd2, ?_⟩⟩
      rw [if_neg fun hc => hcov (hcheck.mp hc)]

/-! ## Every state -/

theorem sum_eq : ∀ {costs : List Nat} {acc : Nat}, acc + costs.sum < U256_BOUND →
    sum costs acc = some (acc + costs.sum)
  | [], acc, _ => rfl
  | c :: cs, acc, h => by
    rw [List.sum_cons, ← Nat.add_assoc] at h
    rw [List.sum_cons, ← Nat.add_assoc, sum, add_eq (by omega)]
    exact sum_eq h

theorem sum_lt : ∀ {costs : List Nat} {acc total : Nat}, acc < U256_BOUND →
    sum costs acc = some total → total < U256_BOUND
  | [], acc, total, hacc, h => Option.some.inj h ▸ hacc
  | c :: cs, acc, total, _, h => by
    obtain ⟨t, ht, h⟩ := Option.bind_eq_some_iff.mp h
    exact sum_lt (add_lt ht) h

/-- **Where consumption is exact.** In every state that calls can reach, a
charge is all or nothing and takes the exact sums, without a panic, if and only
if the sums it builds stay below `2^256`; and `CostVec::sum` is the exact sum
exactly when that is an amount. -/
theorem consumption_exact_iff {totals : List Nat} {fees : Category → FeesBucketConfig}
    {s0 s : DataLimit} {calls : List Call} (hfit : ∀ x ∈ totals, x < U256_BOUND)
    (h0 : DataLimit.new totals fees = some s0) (h : run s0 calls = some s) :
    (∀ cat costs, RawExact s cat costs ↔ RawFits s cat costs) ∧
    (∀ cost_fee cost_receipt,
      MessageExact s cost_fee cost_receipt ↔ MessageFits s cost_fee cost_receipt) ∧
    ∀ costs : List Nat, sum costs 0 = some costs.sum ↔ costs.sum < U256_BOUND := by
  have hs := run_conserved (new_conserved h0) h
  refine ⟨rawExact_iff hs hfit, messageExact_iff hs hfit, fun costs => ⟨?_, fun hsum => ?_⟩⟩
  · exact sum_lt (by decide)
  · have := @sum_eq costs 0
    rw [Nat.zero_add] at this
    exact this hsum

/-- One bucket for both categories of a message, charged once before. -/
theorem consumption_exact_iff_shared :
    let fees : Category → FeesBucketConfig := fun _ =>
      ⟨[0, 0], some (.rational 1), some fun _ => some (.rational 3)⟩
    ∃ s0 s, DataLimit.new [40] fees = some s0 ∧ run s0 [.message_fee [1, 2] [3, 4]] = some s ∧
      (∀ cat costs, RawExact s cat costs ↔ RawFits s cat costs) ∧
      (∀ cost_fee cost_receipt,
        MessageExact s cost_fee cost_receipt ↔ MessageFits s cost_fee cost_receipt) ∧
      ∀ costs : List Nat, sum costs 0 = some costs.sum ↔ costs.sum < U256_BOUND := by
  intro fees
  obtain ⟨s0, h0⟩ := Option.isSome_iff_exists.mp (show (DataLimit.new [40] fees).isSome from rfl)
  have hrun : ((DataLimit.new [40] fees).bind
      fun s => run s [.message_fee [1, 2] [3, 4]]).isSome := rfl
  obtain ⟨s, h⟩ := Option.isSome_iff_exists.mp hrun
  rw [h0, Option.bind_some] at h
  exact ⟨s0, s, h0, h, consumption_exact_iff (by decide) h0 h⟩

/-- A bucket of `2^256 - 1` that a category names twice: the costs
`2^256 - 1` and `1` each fit it, and adding them panics. -/
theorem near_maximal_costs_panic :
    let fees : Category → FeesBucketConfig := fun _ =>
      ⟨[0, 0], some (.rational 0), some fun _ => some (.rational 0)⟩
    ∃ s, DataLimit.new [2 ^ 256 - 1] fees = some s ∧
      ¬ RawExact s .storage [2 ^ 256 - 1, 1] ∧ ¬ MessageExact s [2 ^ 256 - 1, 1] [0, 0] := by
  intro fees
  obtain ⟨s, h⟩ := Option.isSome_iff_exists.mp
    (show (DataLimit.new [2 ^ 256 - 1] fees).isSome from rfl)
  have hraw : ((DataLimit.new [2 ^ 256 - 1] fees).bind
      fun s => consume_bucket_raw s .storage [2 ^ 256 - 1, 1]) = none := rfl
  have hmessage : ((DataLimit.new [2 ^ 256 - 1] fees).bind
      fun s => consume_message_fee s [2 ^ 256 - 1, 1] [0, 0]) = none := rfl
  rw [h, Option.bind_some] at hraw hmessage
  refine ⟨s, h, fun he => he.returns hraw, fun he => ?_⟩
  obtain ⟨charged, s', hret, -⟩ := he.returns
  rw [hmessage] at hret
  cases hret

end GenVM.Fees
