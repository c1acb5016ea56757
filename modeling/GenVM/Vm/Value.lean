import GenVM.Vm.Conserve

/-!
# Balances

`balance_safe`: in every VM of an execution what was sent so far is counted
exactly and covered by the balance the contract starts with.
-/
namespace GenVM.Vm
open GenVM.Lib GenVM.Calldata GenVM.Fees
open GenVM.Lib.EffectM
open GenVM.Store (SlotID Storage)

variable {env : Env} {entry_data : ExecutionData} {permissions : Permissions}
  {program : SingleVMData → Guest} {d : DataLimit}

/-! ## Value -/

def sentValue (es : List ExecutionEmission) : Nat := (es.map (·.value)).sum

theorem sentValue_append (es fs : List ExecutionEmission) :
    sentValue (es ++ fs) = sentValue es + sentValue fs := by
  unfold sentValue
  rw [List.map_append, List.sum_append]

/-- `messages_value_decremented` is the value of the emissions of the VM and of
the VMs above it; the contract `owner` covers it. -/
structure Covered (env : Env) (owner : Address) (above : List ExecutionEmission) (m : Machine) :
    Prop where
  exact : m.acc.messages_value_decremented = sentValue (above ++ m.acc.emissions)
  covered : m.acc.messages_value_decremented ≤ (env.balance owner).1
  sender : m.vm.conf.can_send_messages = true →
    m.vm.message_data.message.contract_address = owner
  main : m.vm.conf.is_deterministic = true → m.vm.conf.is_main = true →
    m.vm.message_data.message.contract_address = owner

theorem Covered.sandbox {owner : Address} {above : List ExecutionEmission} {m : Machine}
    (h : Covered env owner above m) (data : Bytes) (runner_id : RunnerId) (w s r : Bool) :
    Covered env owner above ⟨sandbox_child m.vm data runner_id w s r, m.shared⟩ :=
  ⟨h.exact, h.covered, fun hs => h.sender (Bool.and_eq_true_iff.mp hs).1, h.main⟩

theorem Covered.trace {owner : Address} {above : List ExecutionEmission} {m m' : Machine}
    (ht : Trace env m m') (h : Covered env owner above m) : Covered env owner above m' := by
  induction ht generalizing above with
  | refl m => exact h
  | trans _ _ ih1 ih2 => exact ih2 (ih1 h)
  | quiet hq =>
    refine ⟨?_, ?_, ?_, ?_⟩
    · rw [hq.value, hq.emissions]
      exact h.exact
    · rw [hq.value]
      exact h.covered
    · rw [hq.conf, hq.message_data]
      exact h.sender
    · rw [hq.conf, hq.message_data]
      exact h.main
  | @message m m' e hm =>
    obtain ⟨i, node, data_fees, -, -, -, -, rfl⟩ := hm.paid
    have howner := h.sender hm.permitted
    have hcov := hm.covered
    rw [howner] at hcov
    have hb := (env.balance owner).2
    have hsum : e.value + m.acc.messages_value_decremented ≤ (env.balance owner).1 := by
      rcases hcov with h0 | hle
      · rw [h0, Nat.zero_add]
        exact h.covered
      · exact hle
    -- the saturating addition does not saturate
    have hmin : min (m.acc.messages_value_decremented + e.value) (U256_BOUND - 1) =
        m.acc.messages_value_decremented + e.value := by
      rw [Nat.min_eq_left]
      omega
    refine ⟨?_, ?_, h.sender, h.main⟩
    · show min (m.acc.messages_value_decremented + e.value) (U256_BOUND - 1) =
        sentValue (above ++ (m.acc.emissions ++ [e]))
      rw [hmin, ← List.append_assoc, sentValue_append, ← h.exact]
      rfl
    · show min (m.acc.messages_value_decremented + e.value) (U256_BOUND - 1) ≤ _
      rw [hmin]
      omega
  | @event m m' e he =>
    obtain ⟨data_fees, -, rfl⟩ := he.paid
    obtain ⟨topics, blob, fee, rfl⟩ := he.event
    refine ⟨?_, h.covered, h.sender, h.main⟩
    show m.acc.messages_value_decremented = sentValue (above ++ (m.acc.emissions ++ [_]))
    rw [← List.append_assoc, sentValue_append, ← h.exact]
    rfl
  | write hw =>
    obtain ⟨storage, limits, -, rfl⟩ := hw.paid
    exact ⟨h.exact, h.covered, h.sender, h.main⟩
  | nondet_output data_fees amount _ _ => exact ⟨h.exact, h.covered, h.sender, h.main⟩
  | @sandbox m data runner_id w s r vm shared ht ih =>
    have hend := ih (h.sandbox data runner_id w s r)
    exact ⟨hend.exact, hend.covered, h.sender, h.main⟩
  | beside _ _ _ => exact ⟨h.exact, h.covered, h.sender, h.main⟩

/-- A VM beside its parent has the count of the parent, and no emissions yet. -/
theorem Covered.beside {owner : Address} {above : List ExecutionEmission} {m : Machine}
    {child : SingleVMData} (h : Covered env owner above m) (hb : Beside m.vm child) :
    Covered env owner (above ++ m.acc.emissions) ⟨child, m.shared⟩ := by
  cases hb with
  | contract address calldata state storage code_slot hdet hcall hstate hpages =>
    refine ⟨?_, h.covered, fun hs => (nomatch hs), fun _ hmain => ?_⟩
    · show m.acc.messages_value_decremented = sentValue ((above ++ m.acc.emissions) ++ [])
      rw [List.append_nil]
      exact h.exact
    · exact absurd (of_decide_eq_true hmain) hstate
  | nondet data leaders_res hn =>
    refine ⟨?_, h.covered, fun hs => (nomatch hs), fun hd => nomatch hd⟩
    show m.acc.messages_value_decremented = sentValue ((above ++ m.acc.emissions) ++ [])
    rw [List.append_nil]
    exact h.exact

theorem InRun.covered {above : List ExecutionEmission} {g : Guest} {m : Machine} (hs : Shaped d)
    (h : InRun env entry_data permissions program d above g m) :
    Covered env entry_data.message.contract_address above m := by
  obtain ⟨g0, m0, hbegin, hreach⟩ := h
  obtain ⟨hs0, -, hacc, -, -, haddr⟩ := hbegin.start hs
  have hstart : Covered env entry_data.message.contract_address [] m0 := by
    refine ⟨?_, ?_, fun _ => haddr, fun _ _ => haddr⟩
    · rw [hacc]
      rfl
    · rw [hacc]
      exact Nat.zero_le _
  exact (hreach.invariant (fun above m m' ht h => h.trace ht)
    (fun above m data runner_id w s r h => h.sandbox data runner_id w s r)
    (fun above m child hb h => h.beside hb) hs0 hstart).2

/-- What a contract is told it has. -/
def selfBalance (env : Env) (above : List ExecutionEmission) (m : Machine) : Nat :=
  let balance := (env.balance m.vm.message_data.message.contract_address).1
  if m.vm.conf.is_main then balance - sentValue (above ++ m.acc.emissions) else balance

theorem get_self_balance_eq {owner : Address} {above : List ExecutionEmission} {m : Machine}
    (h : Covered env owner above m) : get_self_balance env m = if m.vm.conf.is_deterministic
      then .ok (.ok (selfBalance env above m), m) else .ok (.error forbidden, m) := by
  unfold get_self_balance selfBalance
  show (require m.vm.conf.is_deterministic forbidden >>= fun _ => _) m = _
  cases hd : m.vm.conf.is_deterministic with
  | false => rfl
  | true =>
    rw [if_pos rfl]
    show (if m.vm.conf.is_main then _ else _ : HostM Nat) m = _
    cases hmain : m.vm.conf.is_main with
    | false => rfl
    | true =>
      have hle := h.main hd hmain ▸ h.covered
      have hsub : sub (env.balance m.vm.message_data.message.contract_address).1
          m.acc.messages_value_decremented =
          some ((env.balance m.vm.message_data.message.contract_address).1 -
            sentValue (above ++ m.acc.emissions)) := by
        rw [← h.exact]
        exact if_pos hle
      rw [if_pos rfl, if_pos rfl, hsub]
      rfl

/-- **Balance safety.** In every VM of an execution what was sent so far, here and
above, is counted exactly and within the balance of the contract; a main-mode VM
that asks for its balance is told what is left of it, and no subtraction
underflows. The messages of the result are covered by the balance. -/
theorem balance_safe {bucket_totals : List Nat} {fees : Category → FeesBucketConfig}
    (hstart : DataLimit.start bucket_totals fees = some d) :
    (∀ above g m, InRun env entry_data permissions program d above g m →
      m.acc.messages_value_decremented = sentValue (above ++ m.acc.emissions) ∧
      m.acc.messages_value_decremented ≤
        (env.balance entry_data.message.contract_address).1 ∧
      (m.vm.conf.can_send_messages = true ∨
          m.vm.conf.is_deterministic = true ∧ m.vm.conf.is_main = true →
        m.acc.messages_value_decremented ≤
          (env.balance m.vm.message_data.message.contract_address).1) ∧
      get_self_balance env m = if m.vm.conf.is_deterministic
        then .ok (.ok (selfBalance env above m), m) else .ok (.error forbidden, m)) ∧
    ∀ result shared', run_with_impl env entry_data permissions program (Shared.new d) =
      .ok (result, shared') →
      sentValue result.emissions ≤ (env.balance entry_data.message.contract_address).1 := by
  obtain ⟨hs, -⟩ := start_consumed hstart
  constructor
  · intro above g m hin
    have hc := hin.covered hs
    refine ⟨hc.exact, hc.covered, fun h => ?_, get_self_balance_eq hc⟩
    rcases h with hsend | ⟨hd, hmain⟩
    · exact hc.sender hsend ▸ hc.covered
    · exact hc.main hd hmain ▸ hc.covered
  · intro result shared' hrun
    rcases run_with_impl_cases hs hrun with ⟨f, s, l, run_ok, -, -, rfl, -⟩ |
      ⟨runner_id, storage, limits, res, hp, -, ht, -, hres⟩
    · exact Nat.zero_le _
    · obtain ⟨hb, -⟩ := main_ledger hs hp ht
      rw [(full_result_pages hb hres).1]
      have hstart : Covered env entry_data.message.contract_address []
          ⟨essential_data entry_data permissions runner_id storage,
            { Shared.new d with limits := limits }⟩ :=
        ⟨rfl, Nat.zero_le _, fun _ => rfl, fun _ _ => rfl⟩
      have hend := hstart.trace ht
      have hexact := hend.exact
      rw [List.nil_append] at hexact
      exact hexact ▸ hend.covered

/-- A VM that sent 30 of 100 is told the rest. -/
theorem balance_safe_sender : ∃ m m1,
    InRun small_env small_forest_entry all_permissions sender small_limit [] (sender m.vm) m ∧
    eth_send small_env Address.zero [] 30 m = .ok (.ok none, m1) ∧
    InRun small_env small_forest_entry all_permissions sender small_limit [] sandboxer m1 ∧
    sentValue m1.acc.emissions = 30 ∧ get_self_balance small_env m1 = .ok (.ok 70, m1) := by
  obtain ⟨m, m1, -, hbegin, hsend, hreach, -, hvalue, -, -, hdet, hmain⟩ := sender_runs
  have hin : InRun small_env small_forest_entry all_permissions sender small_limit [] sandboxer m1 :=
    ⟨_, _, hbegin, hreach⟩
  obtain ⟨hsent, -, -, hbalance⟩ := (balance_safe small_start).1 _ _ _ hin
  have hsum : sentValue ([] ++ m1.acc.emissions) = 30 := hsent.symm.trans hvalue
  refine ⟨m, m1, ⟨_, _, hbegin, .start⟩, hsend, hin, hsum, hbalance.trans ?_⟩
  rw [if_pos hdet]
  unfold selfBalance
  rw [hmain, if_pos rfl, hsum]
  rfl

end GenVM.Vm
