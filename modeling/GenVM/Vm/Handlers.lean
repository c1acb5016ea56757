import GenVM.Vm.Trace

/-!
# What each host call does

One lemma for each host call of one VM: a call that is refused leaves the state
as it is, and one that goes through is a step of a trace.
-/
namespace GenVM.Vm
open GenVM.Lib GenVM.Calldata GenVM.Fees
open GenVM.Lib.EffectM
open GenVM.Store (SlotID Storage)

variable {env : Env}

/-! ## The shape of the limiter -/

theorem Quiet.data_fees {m m' : Machine} (h : Quiet m m') : m'.data_fees = m.data_fees := by
  unfold Machine.data_fees
  rw [h.limits]

theorem Trace.sameShape {m m' : Machine} (h : Trace env m m') :
    SameShape m.data_fees m'.data_fees := by
  induction h with
  | refl m => exact SameShape.refl _
  | trans _ _ ih1 ih2 => exact ih1.trans ih2
  | quiet h => exact h.data_fees ▸ SameShape.refl _
  | message e h =>
    obtain ⟨i, node, data_fees, _, _, _, hadd, rfl⟩ := h.paid
    exact hadd.shape
  | event e h =>
    obtain ⟨data_fees, hadd, rfl⟩ := h.paid
    exact hadd.shape
  | write h =>
    obtain ⟨storage, limits, hpays, rfl⟩ := h.paid
    exact hpays.shape
  | nondet_output _ _ _ h => exact h.shape
  | sandbox _ _ _ _ _ _ ih => exact ih
  | beside _ _ ih => exact ih

/-- Every way to get from `m` to `m'` is a trace, when the limiter is well formed. -/
def Traced (env : Env) (m m' : Machine) : Prop := Shaped m.data_fees → Trace env m m'

theorem Traced.refl (m : Machine) : Traced env m m := fun _ => .refl m

theorem Traced.trans (a b c : Machine) (h1 : Traced env a b) (h2 : Traced env b c) :
    Traced env a c := fun hs => (h1 hs).trans (h2 ((h1 hs).sameShape.shaped hs))

theorem Quiet.traced {m m' : Machine} (h : Quiet m m') : Traced env m m' := fun _ => .quiet h

/-! ## Storage -/

theorem quiet_setStorage (m : Machine) {storage : Storage}
    (h : storage.pages = m.vm.storage.pages) : Quiet m (m.setStorage storage) :=
  ⟨rfl, rfl, rfl, h, rfl, rfl, rfl, rfl, fun _ => rfl⟩

theorem storage_read_traced (slot : SlotID) (index : Nat) (buf : Bytes) :
    Preserves (Traced env) (storage_read env slot index buf) := by
  intro m r m' h
  unfold storage_read at h
  rw [run_read_bind] at h
  rcases run_require_bind h with ⟨-, rfl⟩ | ⟨-, h⟩
  · exact Traced.refl _
  rcases run_require_bind h with ⟨-, rfl⟩ | ⟨-, h⟩
  · exact Traced.refl _
  split at h
  · have h := run_update_bind.mp h
    obtain ⟨-, rfl⟩ := run_pure.mp h
    exact (quiet_setStorage _ (Store.read_overlay _ _ _ _ _)).traced
  · obtain ⟨-, rfl⟩ := run_pure.mp h
    exact Traced.refl _

theorem PaysPages.refl (p : Storage × Limits) : PaysPages p p :=
  ⟨SameShape.refl _, fun _ _ => rfl, ⟨0, rfl, rfl, by rw [Nat.zero_mul]; rfl⟩, id⟩

theorem page_fee_sameShape {s s' : DataLimit} (h : SameShape s s') :
    DataLimit.page_fee s' = DataLimit.page_fee s := by
  unfold DataLimit.page_fee
  rw [h.calculate]

theorem PaysPages.trans {a b c : Storage × Limits} (h1 : PaysPages a b) (h2 : PaysPages b c) :
    PaysPages a c := by
  refine ⟨h1.shape.trans h2.shape, fun cat hc => (h2.other cat hc).trans (h1.other cat hc), ?_,
    fun hb => h2.bounded (h1.bounded hb)⟩
  obtain ⟨n, p1, c1, f1⟩ := h1.new
  obtain ⟨k, p2, c2, f2⟩ := h2.new
  refine ⟨n + k, by omega, by omega, ?_⟩
  rw [f2, f1, page_fee_sameShape h1.shape, Nat.add_mul, Nat.add_assoc]

/-- One page is charged. -/
theorem limits_consume_ok {l l' : Limits} (hs : Shaped l.data_fees) (h : l.consume = .ok l') :
    Adds l.data_fees l'.data_fees .storage (DataLimit.page_fee l.data_fees) ∧
      l'.page_charges = l.page_charges + 1 := by
  unfold Limits.consume at h
  split at h <;> cases h
  next data_fees hc =>
  rcases consume_bucket_adds hs hc with ⟨hne, _⟩ | ⟨_, costs, hcosts, hadd⟩
  · exact absurd rfl hne
  · refine ⟨?_, rfl⟩
    have hfee : DataLimit.page_fee l.data_fees = costs.sum := by
      unfold DataLimit.page_fee
      rw [show (num 1) = num ((1 : Nat)) from rfl, hcosts]
      rfl
    rw [hfee]
    exact hadd

/-- A page written for the first time is paid for. -/
theorem write_page_pays {key : Store.PageID} (hk : key.index < 2 ^ 27) (value : Store.Page) :
    Store.Keeps (fun p q => Shaped p.2.data_fees → PaysPages p q)
      (Store.write_page Limits.consume key value) := by
  intro p hs
  obtain ⟨s, l⟩ := p
  have hlen := Store.length_putPage s key value
  unfold Store.write_page
  dsimp only
  split
  · next ho =>
    rw [if_pos ho] at hlen
    exact ⟨SameShape.refl _, fun _ _ => rfl, ⟨0, hlen, rfl, by rw [Nat.zero_mul]; rfl⟩,
      fun hb => hb.put hk value⟩
  · next ho =>
    rw [if_neg ho] at hlen
    split
    · next l' hl =>
      obtain ⟨hadd, hc⟩ := limits_consume_ok hs hl
      exact ⟨hadd.shape, hadd.other, ⟨1, hlen, hc, by rw [Nat.one_mul]; exact hadd.here⟩,
        fun hb => hb.put hk value⟩
    · exact PaysPages.refl _

theorem paysPages_trans' (a b c : Storage × Limits)
    (h1 : Shaped a.2.data_fees → PaysPages a b) (h2 : Shaped b.2.data_fees → PaysPages b c) :
    Shaped a.2.data_fees → PaysPages a c := fun hs =>
  (h1 hs).trans (h2 ((h1 hs).shape.shaped hs))

theorem write_pays {host : Store.Content} {slot : SlotID} {index : Nat} {buf : Bytes}
    (hb : index + buf.length < 2 ^ 32) :
    Store.Keeps (fun p q => Shaped p.2.data_fees → PaysPages p q)
      (Store.write host Limits.consume slot index buf) :=
  Store.write_keeps (fun p _ => PaysPages.refl p) paysPages_trans' index buf fun k value hk =>
    write_page_pays (show k < 2 ^ 27 by omega) value

/-- A step of the storage puts its outcome into the machine. -/
theorem onStorage_after {α : Type} {x : Store.WriteM (Sum Stop Raised) Limits α} {m m' : Machine}
    {r : Except HostError α} (h : onStorage x m = .ok (r, m')) :
    m' = (m.setStorage (x (m.vm.storage, m.shared.limits)).2.1).setLimits
      (x (m.vm.storage, m.shared.limits)).2.2 := by
  unfold onStorage at h
  split at h
  · next hx =>
    rw [hx]
    cases h
    rfl
  · cases h
  · next hx =>
    rw [hx]
    cases h
    rfl

theorem storage_write_traced (slot : SlotID) (index : Nat) (buf : Bytes) :
    Preserves (Traced env) (storage_write env slot index buf) := by
  intro m r m' h hs
  unfold storage_write at h
  rw [run_read_bind] at h
  rcases run_require_bind h with ⟨-, rfl⟩ | ⟨hdet, h⟩
  · exact .refl _
  rcases run_require_bind h with ⟨-, rfl⟩ | ⟨hperm, h⟩
  · exact .refl _
  rcases run_require_bind h with ⟨-, rfl⟩ | ⟨hb, h⟩
  · exact .refl _
  rcases run_require_bind h with ⟨-, rfl⟩ | ⟨-, h⟩
  · exact .refl _
  rw [onStorage_after h]
  exact .write ⟨hdet, hperm, _, _, write_pays (of_decide_eq_true hb) _ hs, rfl⟩

/-! ## Balances -/

theorem get_balance_traced (account : Address) : Preserves (Traced env) (get_balance env account) :=
  preserves_pure Traced.refl _

theorem preserves_orPanic {α : Type} {R : Machine → Machine → Prop} (hrefl : ∀ m, R m m)
    (o : Option α) : Preserves R (orPanic o) := by
  cases o with
  | none => exact preserves_stop _
  | some a => exact preserves_pure hrefl a

theorem preserves_orTrap {α : Type} {R : Machine → Machine → Prop} (hrefl : ∀ m, R m m)
    (o : Option α) : Preserves R (orTrap o) := by
  cases o with
  | none => exact preserves_fail hrefl _
  | some a => exact preserves_pure hrefl a

theorem get_self_balance_same : Preserves Eq (get_self_balance env) := by
  intro m r m' h
  unfold get_self_balance at h
  rw [run_read_bind] at h
  rcases run_require_bind h with ⟨-, rfl⟩ | ⟨-, h⟩
  · rfl
  dsimp only at h
  split at h
  · exact preserves_orPanic (fun _ => rfl) _ m r m' h
  · exact (run_pure.mp h).2.symm

theorem get_self_balance_traced : Preserves (Traced env) (get_self_balance env) :=
  get_self_balance_same.mono fun _ _ h => h ▸ Traced.refl _

theorem checked_sum_le_iff {a b c : Nat} : checked_sum_le a b c = true ↔ a + b ≤ c := by
  unfold checked_sum_le
  split
  · simp
    omega
  · rw [decide_eq_true_iff]
    omega

/-- What is sent, with what was sent before, is covered by the balance. -/
theorem check_balance_cases {value : Nat} {m m' : Machine} {r : Except HostError Unit}
    (h : check_balance env value m = .ok (r, m')) :
    m' = m ∧ (r = .ok () → value = 0 ∨ value + m.acc.messages_value_decremented ≤
      (env.balance m.vm.message_data.message.contract_address).1) := by
  unfold check_balance at h
  rw [run_read_bind] at h
  split at h
  · next hv => exact ⟨(run_pure.mp h).2, fun _ => .inl hv⟩
  · obtain ⟨hm, hc⟩ := run_require h
    exact ⟨hm, fun hr => .inr (checked_sum_le_iff.mp (hc hr))⟩

/-! ## Messages -/

theorem sub_some {a b c : Nat} (h : sub a b = some c) : b ≤ a ∧ c = a - b := by
  unfold sub at h
  split at h
  · next hb => exact ⟨hb, (Option.some.inj h).symm⟩
  · cases h

theorem run_orPanic_bind {α β : Type} {o : Option α} {f : α → HostM β} {m m' : Machine}
    {r : Except HostError β} (h : (orPanic o >>= f) m = .ok (r, m')) :
    ∃ a, o = some a ∧ f a m = .ok (r, m') := by
  cases o with
  | none => cases h
  | some a => exact ⟨a, rfl, h⟩

theorem stop_orPanic_bind {α β : Type} {o : Option α} {f : α → HostM β} {m : Machine} {t : Stop}
    (h : (orPanic o >>= f) m = .error t) : o = none ∨ ∃ a, o = some a ∧ f a m = .error t := by
  cases o with
  | none => exact .inl rfl
  | some a => exact .inr ⟨a, rfl, h⟩

theorem stop_orTrap_bind {α β : Type} {o : Option α} {f : α → HostM β} {m : Machine} {t : Stop}
    (h : (orTrap o >>= f) m = .error t) : ∃ a, o = some a ∧ f a m = .error t := by
  cases o with
  | none => cases h
  | some a => exact ⟨a, rfl, h⟩

theorem run_orTrap_bind {α β : Type} {o : Option α} {f : α → HostM β} {m m' : Machine}
    {r : Except HostError β} (h : (orTrap o >>= f) m = .ok (r, m')) :
    (r = .error (.trap .other) ∧ m' = m) ∨ ∃ a, o = some a ∧ f a m = .ok (r, m') := by
  cases o with
  | none => exact .inl (run_fail.mp h)
  | some a => exact .inr ⟨a, rfl, h⟩

/-- Either nothing is charged, or the fee is taken from the node and, with the
receipt, from the limiter. -/
theorem consume_message_fee_cases {oom : String} {fee_cost : DataLimit → Option (List Nat)} {i : Nat}
    {node : MessageAllocationNode} {receipt : MessageReceiptParams} {m m' : Machine}
    {r : Except HostError MessageFeeConsumption} (hs : Shaped m.data_fees)
    (hfee : ∀ costs, fee_cost m.data_fees = some costs →
      costs.length = (m.data_fees.category .message_fee).bucket_nos.length)
    (h : consume_message_fee oom fee_cost i node receipt m = .ok (r, m')) :
    ((r = .error (oom_trap oom) ∨ r = .error (.trap .other)) ∧ m' = m) ∨
      ∃ fees data_fees, r = .ok fees ∧ fees.message_fee.sum ≤ node.budget ∧
        AddsMessage m.data_fees data_fees fees.message_fee.sum fees.receipt_fee.sum ∧
        m' = (m.setDataFees data_fees).setNodeBudget i (node.budget - fees.message_fee.sum) := by
  unfold consume_message_fee at h
  rw [run_read_bind] at h
  rcases run_orTrap_bind h with ⟨rfl, rfl⟩ | ⟨costs, hcosts, h⟩
  · exact .inl ⟨.inr rfl, rfl⟩
  obtain ⟨total, htotal, h⟩ := run_orPanic_bind h
  rcases run_require_bind h with ⟨rfl, rfl⟩ | ⟨hbudget, h⟩
  · exact .inl ⟨.inl rfl, rfl⟩
  rcases run_orTrap_bind h with ⟨rfl, rfl⟩ | ⟨receipts, hreceipts, h⟩
  · exact .inl ⟨.inr rfl, rfl⟩
  obtain ⟨⟨charged, data_fees⟩, hcharge, h⟩ := run_orPanic_bind h
  rw [run_update_bind] at h
  rcases consume_message_fee_adds hs (hfee _ hcosts) (calculate_bucket_length hreceipts) hcharge with
    ⟨rfl, rfl⟩ | ⟨rfl, hadd⟩
  · obtain ⟨rfl, rfl⟩ := run_fail.mp h
    exact .inl ⟨.inl rfl, rfl⟩
  · obtain ⟨budget, hsub, h⟩ := run_orPanic_bind h
    rw [run_update_bind] at h
    obtain ⟨rfl, rfl⟩ := run_pure.mp h
    obtain ⟨hle, rfl⟩ := sub_some hsub
    rw [costVec_sum htotal] at hle
    rw [costVec_sum htotal]
    exact .inr ⟨_, data_fees, rfl, hle, hadd, rfl⟩

theorem push_message_ok {value : Nat} {emission : Nat → Nat → ExecutionEmission}
    {fees : MessageFeeConsumption} {m m' : Machine} {r : Except HostError Reply}
    (h : push_message value emission fees m = .ok (r, m')) :
    r = .ok none ∧ m' =
      (m.pushEmission (emission fees.message_fee.sum fees.receipt_fee.sum)).addValue value := by
  obtain ⟨fee, hf, h⟩ := run_orPanic_bind h
  obtain ⟨receipt, hr, h⟩ := run_orPanic_bind h
  rw [run_update_bind] at h
  obtain ⟨rfl, rfl⟩ := run_pure.mp h
  rw [costVec_sum hf, costVec_sum hr]
  exact ⟨rfl, rfl⟩

/-- A message that is refused leaves everything as it is; one that is accepted
was covered and paid for. -/
def SendCases (env : Env) (m : Machine) (r : Except HostError Reply) (m' : Machine) : Prop :=
  (∃ e, r = .error e ∧ m' = m) ∨ ∃ e, r = .ok none ∧ Sends env e m m'

/-- The common end of the three messages. -/
theorem charge_and_push_cases {value i : Nat} {oom : String}
    {fee_cost : DataLimit → Option (List Nat)} {node : MessageAllocationNode}
    {receipt : MessageReceiptParams} {emission : Nat → Nat → ExecutionEmission} {m m' : Machine}
    {r : Except HostError Reply} (hs : Shaped m.data_fees)
    (hdet : m.vm.conf.is_deterministic = true) (hperm : m.vm.conf.can_send_messages = true)
    (hcovered : value = 0 ∨ value + m.acc.messages_value_decremented ≤
      (env.balance m.vm.message_data.message.contract_address).1)
    (hnode : m.acc.message_fee_allocation[i]? = some node)
    (hfee : ∀ costs, fee_cost m.data_fees = some costs →
      costs.length = (m.data_fees.category .message_fee).bucket_nos.length)
    (hemission : ∀ fee receipt, (emission fee receipt).value = value ∧
      (emission fee receipt).message_fee = fee ∧ (emission fee receipt).receipt_fee = receipt ∧
      (emission fee receipt).storage_fee = 0 ∧ (emission fee receipt).Accepted ∧
      (emission fee receipt).matched m.acc.message_fee_allocation = some i)
    (h : (consume_message_fee oom fee_cost i node receipt >>= push_message value emission) m =
      .ok (r, m')) : SendCases env m r m' := by
  rcases run_bind.mp h with ⟨e, hx, rfl⟩ | ⟨fees, m1, hx, h⟩
  · rcases consume_message_fee_cases hs hfee hx with ⟨-, rfl⟩ | ⟨_, _, hr, _⟩
    · exact .inl ⟨e, rfl, rfl⟩
    · cases hr
  · rcases consume_message_fee_cases hs hfee hx with ⟨hr | hr, _⟩ | ⟨_, data_fees, hr, hle, hadd, rfl⟩
    · cases hr
    · cases hr
    cases hr
    obtain ⟨rfl, rfl⟩ := push_message_ok h
    obtain ⟨hv, hf, hrc, hsf, hok, hmatch⟩ := hemission fees.message_fee.sum fees.receipt_fee.sum
    refine .inr ⟨emission fees.message_fee.sum fees.receipt_fee.sum, rfl,
      ⟨hdet, hperm, ?_, hok, hsf, i, node, data_fees, hmatch, hnode, ?_, ?_, ?_⟩⟩
    · rw [hv]
      exact hcovered
    · rw [hf]
      exact hle
    · rw [hf, hrc]
      exact hadd
    · rw [hf, hv]

theorem eth_send_cases {address : Address} {calldata : Bytes} {value : Nat} {m m' : Machine}
    {r : Except HostError Reply} (hs : Shaped m.data_fees)
    (h : eth_send env address calldata value m = .ok (r, m')) : SendCases env m r m' := by
  unfold eth_send at h
  rw [run_read_bind] at h
  rcases run_require_bind h with ⟨rfl, rfl⟩ | ⟨hdet, h⟩
  · exact .inl ⟨_, rfl, rfl⟩
  rcases run_require_bind h with ⟨rfl, rfl⟩ | ⟨hperm, h⟩
  · exact .inl ⟨_, rfl, rfl⟩
  rcases run_bind.mp h with ⟨e, hx, rfl⟩ | ⟨u, m1, hx, h⟩
  · exact .inl ⟨e, rfl, (check_balance_cases hx).1⟩
  obtain ⟨hm, hcovered⟩ := check_balance_cases hx
  subst hm
  cases hfind : findMatch (·.matches_external address (selector_key calldata))
      m1.acc.message_fee_allocation with
  | none =>
    rw [hfind] at h
    obtain ⟨rfl, rfl⟩ := run_fail.mp h
    exact .inl ⟨_, rfl, rfl⟩
  | some found =>
    obtain ⟨i, node, params⟩ := found
    rw [hfind] at h
    refine charge_and_push_cases hs hdet hperm (hcovered rfl) (findMatch_some hfind).1
      (fun costs hc => calculate_bucket_length hc) ?_ h
    intro fee receipt
    exact ⟨rfl, rfl, rfl, rfl, trivial, congrArg (Option.map Prod.fst) hfind⟩

theorem post_message_cases {address : Address} {calldata : Maybe Tree} {value : Nat} {on : On}
    {m m' : Machine} {r : Except HostError Reply} (hs : Shaped m.data_fees)
    (hc : Carries 126 calldata)
    (h : post_message env address calldata value on m = .ok (r, m')) : SendCases env m r m' := by
  unfold post_message at h
  rw [run_read_bind] at h
  rcases run_require_bind h with ⟨rfl, rfl⟩ | ⟨hdet, h⟩
  · exact .inl ⟨_, rfl, rfl⟩
  rcases run_require_bind h with ⟨rfl, rfl⟩ | ⟨hperm, h⟩
  · exact .inl ⟨_, rfl, rfl⟩
  rcases run_bind.mp h with ⟨e, hx, rfl⟩ | ⟨u, m1, hx, h⟩
  · exact .inl ⟨e, rfl, (check_balance_cases hx).1⟩
  obtain ⟨hm, hcovered⟩ := check_balance_cases hx
  subst hm
  cases hfind : findMatch (·.matches_internal on address (call_key env calldata))
      m1.acc.message_fee_allocation with
  | none =>
    rw [hfind] at h
    obtain ⟨rfl, rfl⟩ := run_fail.mp h
    exact .inl ⟨_, rfl, rfl⟩
  | some found =>
    obtain ⟨i, node, params⟩ := found
    rw [hfind] at h
    refine charge_and_push_cases hs hdet hperm (hcovered rfl) (findMatch_some hfind).1
      (fun costs hc => calculate_bucket_length hc) ?_ h
    intro fee receipt
    exact ⟨rfl, rfl, rfl, rfl, hc, congrArg (Option.map Prod.fst) hfind⟩

theorem deploy_contract_cases {calldata : Maybe Tree} {code : Bytes} {value : Nat} {on : On}
    {salt_nonce : Nat} {m m' : Machine} {r : Except HostError Reply} (hs : Shaped m.data_fees)
    (hc : Carries 126 calldata)
    (h : deploy_contract env calldata code value on salt_nonce m = .ok (r, m')) :
    SendCases env m r m' := by
  unfold deploy_contract at h
  rw [run_read_bind] at h
  rcases run_require_bind h with ⟨rfl, rfl⟩ | ⟨hdet, h⟩
  · exact .inl ⟨_, rfl, rfl⟩
  rcases run_require_bind h with ⟨rfl, rfl⟩ | ⟨hperm, h⟩
  · exact .inl ⟨_, rfl, rfl⟩
  rcases run_bind.mp h with ⟨e, hx, rfl⟩ | ⟨u, m1, hx, h⟩
  · exact .inl ⟨e, rfl, (check_balance_cases hx).1⟩
  obtain ⟨hm, hcovered⟩ := check_balance_cases hx
  subst hm
  cases hfind : findMatch (·.matches_internal on Address.zero CallKey.DEPLOY)
      m1.acc.message_fee_allocation with
  | none =>
    rw [hfind] at h
    obtain ⟨rfl, rfl⟩ := run_fail.mp h
    exact .inl ⟨_, rfl, rfl⟩
  | some found =>
    obtain ⟨i, node, params⟩ := found
    rw [hfind] at h
    refine charge_and_push_cases hs hdet hperm (hcovered rfl) (findMatch_some hfind).1
      (fun costs hc => calculate_bucket_length hc) ?_ h
    intro fee receipt
    exact ⟨rfl, rfl, rfl, rfl, hc, congrArg (Option.map Prod.fst) hfind⟩

theorem SendCases.traced {m m' : Machine} {r : Except HostError Reply}
    (h : SendCases env m r m') : Trace env m m' := by
  rcases h with ⟨e, -, rfl⟩ | ⟨e, -, h⟩
  · exact .refl _
  · exact .message e h

/-! ## Events and the rest -/

theorem emit_event_traced {topics : List Bytes} {blob : Maybe (List (String × Tree))}
    (hb : ∃ kvs, blob = .materialized kvs ∧ Tree.Ok 126 (.map kvs)) :
    Preserves (Traced env) (emit_event topics blob) := by
  intro m r m' h hs
  unfold emit_event at h
  rw [run_read_bind] at h
  rcases run_require_bind h with ⟨-, rfl⟩ | ⟨hdet, h⟩
  · exact .refl _
  rcases run_require_bind h with ⟨-, rfl⟩ | ⟨hperm, h⟩
  · exact .refl _
  rcases run_require_bind h with ⟨-, rfl⟩ | ⟨-, h⟩
  · exact .refl _
  rcases run_require_bind h with ⟨-, rfl⟩ | ⟨-, h⟩
  · exact .refl _
  unfold charge_event at h
  rw [run_read_bind] at h
  obtain ⟨⟨paid, data_fees⟩, hcharge, h⟩ := run_orPanic_bind h
  rw [run_update_bind] at h
  rcases consume_event_adds hs hcharge with ⟨hnone, rfl⟩ | ⟨fee, rfl, hadd⟩
  · have hm : m' = m := by
      cases paid with
      | none => exact (run_fail.mp h).2
      | some paid =>
        cases paid with
        | none => exact (run_fail.mp h).2
        | some fee => cases hnone
    exact hm ▸ .refl _
  · have h := run_update_bind.mp h
    obtain ⟨-, rfl⟩ := run_pure.mp h
    exact .event (.EmitEvent topics blob fee)
      ⟨hdet, hperm, hb, ⟨topics, blob, fee, rfl⟩, data_fees, hadd, rfl⟩

theorem answer_same (outside : Except Refusal Reply) : Preserves Eq (answer outside) := by
  unfold answer
  split
  · exact preserves_pure (fun _ => rfl) _
  · exact preserves_fail (fun _ => rfl) _
  · exact preserves_fail (fun _ => rfl) _

theorem answer_traced (outside : Except Refusal Reply) : Preserves (Traced env) (answer outside) :=
  (answer_same outside).mono fun _ _ h => h ▸ Traced.refl _

theorem register_runner_traced (code : Bytes) (outside : Except Refusal Reply) :
    Preserves (Traced env) (register_runner env code outside) := by
  intro m r m' h
  unfold register_runner at h
  rw [run_read_bind] at h
  rcases run_require_bind h with ⟨-, rfl⟩ | ⟨-, h⟩
  · exact Traced.refl _
  rcases run_require_bind h with ⟨-, rfl⟩ | ⟨-, h⟩
  · exact Traced.refl _
  rcases run_bind.mp h with ⟨e, hx, rfl⟩ | ⟨id, m1, hx, h⟩
  · exact answer_traced outside _ _ _ hx
  · obtain rfl := answer_same outside _ _ _ hx
    rw [run_update_bind] at h
    obtain ⟨-, rfl⟩ := run_pure.mp h
    have hq : Quiet m (m.setAccumulator { m.acc with
        custom_runners := (env.sha3_256 code).1 :: m.acc.custom_runners }) :=
      ⟨rfl, rfl, rfl, rfl, rfl, rfl, rfl, rfl, fun _ => rfl⟩
    exact hq.traced

theorem get_timestamp_traced (outside : Except Refusal Reply) :
    Preserves (Traced env) (get_timestamp outside) := by
  unfold get_timestamp
  refine (preserves_read Traced.refl).bind Traced.trans fun m => ?_
  split
  · exact preserves_pure Traced.refl _
  · exact answer_traced outside

theorem module_request_traced (outside : Except Refusal Reply) :
    Preserves (Traced env) (module_request outside) :=
  (preserves_read Traced.refl).bind Traced.trans fun _ =>
    (preserves_require Traced.refl _ _).bind Traced.trans fun _ => answer_traced outside

theorem eth_call_traced (outside : Except Refusal Reply) :
    Preserves (Traced env) (eth_call outside) :=
  (preserves_read Traced.refl).bind Traced.trans fun _ =>
    (preserves_require Traced.refl _ _).bind Traced.trans fun _ =>
      (preserves_require Traced.refl _ _).bind Traced.trans fun _ => answer_traced outside

theorem map_file_traced (outside : Except Refusal Reply) :
    Preserves (Traced env) (map_file outside) :=
  (preserves_read Traced.refl).bind Traced.trans fun _ =>
    (preserves_require Traced.refl _ _).bind Traced.trans fun _ => answer_traced outside

end GenVM.Vm
