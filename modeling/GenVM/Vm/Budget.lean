import GenVM.Vm.Conserve

/-!
# Node budgets

`budgets_conserved`: what a node may still spend, with what was paid from it, is
its initial budget in every VM of an execution, and a refused message changes
nothing.
-/
namespace GenVM.Vm
open GenVM.Lib GenVM.Calldata GenVM.Fees
open GenVM.Lib.EffectM
open GenVM.Store (SlotID Storage)

variable {env : Env} {entry_data : ExecutionData} {permissions : Permissions}
  {program : SingleVMData → Guest} {d : DataLimit}

/-! ## What was paid from a node -/

/-- The fees of the emissions matched to node `i`. -/
def paidFrom (nodes : List MessageAllocationNode) (i : Nat) (es : List ExecutionEmission) : Nat :=
  ((es.filter fun e => decide (e.matched nodes = some i)).map (·.message_fee)).sum

theorem paidFrom_push (nodes : List MessageAllocationNode) (i : Nat) (es : List ExecutionEmission)
    (e : ExecutionEmission) : paidFrom nodes i (es ++ [e]) =
      paidFrom nodes i es + if e.matched nodes = some i then e.message_fee else 0 := by
  unfold paidFrom
  rw [List.filter_append, List.map_append, List.sum_append]
  by_cases h : e.matched nodes = some i
  · simp [h]
  · simp [h]

/-- The nodes are those of `forest`, with less left to spend by what was paid. -/
structure Budgeted (forest : List MessageAllocationNode) (acc : VMDataAccumulator) : Prop where
  length : acc.message_fee_allocation.length = forest.length
  matched : ∀ e : ExecutionEmission, e.matched acc.message_fee_allocation = e.matched forest
  budget : ∀ (i : Nat) (node₀ node : MessageAllocationNode), forest[i]? = some node₀ →
    acc.message_fee_allocation[i]? = some node →
    node = node₀.setBudget node.budget ∧ node₀.budget = node.budget + paidFrom forest i acc.emissions

/-- The main VM and its sandboxes, as opposed to called contracts and
non-deterministic functions. -/
def OfMain (conf : Config) : Prop := conf.is_deterministic = true ∧ conf.is_main = true

/-- The main VM and its sandboxes work on the forest, all others have no nodes. -/
structure NodesOf (forest : List MessageAllocationNode) (m : Machine) : Prop where
  main : OfMain m.vm.conf → Budgeted forest m.acc
  others : ¬ OfMain m.vm.conf → m.acc.message_fee_allocation = []

theorem Budgeted.start (forest : List MessageAllocationNode) (value : Nat) (runners : List Bytes) :
    Budgeted forest ⟨value, [], forest, runners⟩ := by
  refine ⟨rfl, fun _ => rfl, fun i node₀ node h0 h1 => ?_⟩
  obtain rfl : node₀ = node := Option.some.inj (h0.symm.trans h1)
  exact ⟨by cases node₀; rfl, rfl⟩

/-- A message takes its fee from the node it is matched to. -/
theorem Budgeted.message {forest : List MessageAllocationNode} {m m' : Machine}
    {e : ExecutionEmission} (h : Budgeted forest m.acc) (hm : Sends env e m m') :
    Budgeted forest m'.acc := by
  obtain ⟨i, node, data_fees, hmatch, hnode, hle, -, rfl⟩ := hm.paid
  have halloc : Machine.acc ((((m.setDataFees data_fees).setNodeBudget i
      (node.budget - e.message_fee)).pushEmission e).addValue e.value) =
      { (m.acc) with
        messages_value_decremented :=
          min (m.acc.messages_value_decremented + e.value) (U256_BOUND - 1)
        emissions := m.acc.emissions ++ [e]
        message_fee_allocation :=
          m.acc.message_fee_allocation.modify i (·.setBudget (node.budget - e.message_fee)) } := rfl
  rw [halloc]
  have hforest : e.matched forest = some i := (h.matched e).symm.trans hmatch
  refine ⟨?_, fun e' => ?_, fun j node₀ node' h0 h1 => ?_⟩
  · exact (List.length_modify ..).trans h.length
  · exact (matched_setBudget ..).trans (h.matched e')
  · have h1 : (m.acc.message_fee_allocation.modify i
        (·.setBudget (node.budget - e.message_fee)))[j]? = some node' := h1
    rw [List.getElem?_modify] at h1
    show node' = _ ∧ node₀.budget = node'.budget + paidFrom forest j (m.acc.emissions ++ [e])
    rw [paidFrom_push, hforest]
    by_cases hij : i = j
    · subst hij
      rw [hnode] at h1
      have h1 : (if i = i then node.setBudget (node.budget - e.message_fee) else node) = node' :=
        Option.some.inj h1
      rw [if_pos rfl] at h1
      subst h1
      obtain ⟨hshape, hb⟩ := h.budget i node₀ node h0 hnode
      rw [if_pos rfl]
      have hbudget := MessageAllocationNode.setBudget_budget (node.budget - e.message_fee) node
      refine ⟨?_, ?_⟩
      · show node.setBudget _ = node₀.setBudget (node.setBudget _).budget
        rw [hbudget, hshape]
        cases node₀
        rfl
      · show _ = (node.setBudget _).budget + _
        rw [hbudget]
        omega
    · have h1 : m.acc.message_fee_allocation[j]? = some node' := by simpa [hij] using h1
      rw [if_neg (fun hs => hij (Option.some.inj hs)), Nat.add_zero]
      exact h.budget j node₀ node' h0 h1

theorem Budgeted.congr {forest : List MessageAllocationNode} {acc acc' : VMDataAccumulator}
    (h : Budgeted forest acc) (hn : acc'.message_fee_allocation = acc.message_fee_allocation)
    (he : ∀ i, paidFrom forest i acc'.emissions = paidFrom forest i acc.emissions) :
    Budgeted forest acc' := by
  refine ⟨?_, fun e => ?_, fun i node₀ node h0 h1 => ?_⟩
  · rw [hn]
    exact h.length
  · rw [hn]
    exact h.matched e
  · rw [hn] at h1
    rw [he]
    exact h.budget i node₀ node h0 h1

/-- Without nodes no message is ever matched. -/
theorem matched_nil (e : ExecutionEmission) : e.matched [] = none := by
  cases e <;> rfl

theorem NodesOf.sends {forest : List MessageAllocationNode} {m m' : Machine}
    {e : ExecutionEmission} (h : NodesOf forest m) (hm : Sends env e m m') :
    OfMain m.vm.conf ∧ Budgeted forest m'.acc := by
  by_cases hmain : OfMain m.vm.conf
  · exact ⟨hmain, (h.main hmain).message hm⟩
  · obtain ⟨i, node, data_fees, hmatch, -⟩ := hm.paid
    rw [h.others hmain, matched_nil] at hmatch
    cases hmatch

theorem NodesOf.trace {forest : List MessageAllocationNode} {m m' : Machine}
    (ht : Trace env m m') (h : NodesOf forest m) : NodesOf forest m' := by
  induction ht with
  | refl m => exact h
  | trans _ _ ih1 ih2 => exact ih2 (ih1 h)
  | quiet hq =>
    refine ⟨fun hmain => ?_, fun hmain => ?_⟩
    · rw [hq.conf] at hmain
      refine (h.main hmain).congr hq.allocation fun i => ?_
      rw [hq.emissions]
    · rw [hq.conf] at hmain
      exact hq.allocation.trans (h.others hmain)
  | message e hm =>
    obtain ⟨hmain, hb⟩ := h.sends hm
    obtain ⟨i, node, data_fees, -, -, -, -, rfl⟩ := hm.paid
    exact ⟨fun _ => hb, fun hno => absurd hmain hno⟩
  | @event m m' e he =>
    obtain ⟨data_fees, -, rfl⟩ := he.paid
    obtain ⟨topics, blob, fee, rfl⟩ := he.event
    refine ⟨fun hmain => (h.main hmain).congr rfl fun i => ?_, h.others⟩
    show paidFrom forest i (m.acc.emissions ++ [_]) = _
    rw [paidFrom_push]
    exact Nat.add_zero _
  | write hw =>
    obtain ⟨storage, limits, -, rfl⟩ := hw.paid
    exact ⟨h.main, h.others⟩
  | nondet_output _ _ _ _ => exact ⟨h.main, h.others⟩
  | @sandbox m data runner_id w s r vm shared ht ih =>
    -- the sandbox is of the main contract just when its parent is
    have hend := ih ⟨h.main, h.others⟩
    have hconf : vm.conf = _ := ht.confined.conf
    refine ⟨fun hmain => hend.main ?_, fun hmain => hend.others ?_⟩
    · show OfMain vm.conf
      rw [hconf]
      exact hmain
    · show ¬ OfMain vm.conf
      rw [hconf]
      exact hmain
  | beside _ _ _ => exact ⟨h.main, h.others⟩

theorem NodesOf.beside {forest : List MessageAllocationNode} {m : Machine} {child : SingleVMData}
    (hb : Beside m.vm child) : NodesOf forest ⟨child, m.shared⟩ := by
  refine ⟨fun hmain => ?_, fun _ => hb.permissions.2.2.2.2⟩
  obtain ⟨hd, hm⟩ := hmain
  cases hb with
  | contract address calldata state storage code_slot _ _ hstate _ =>
    exact absurd (of_decide_eq_true hm) hstate
  | nondet => cases hd

theorem InRun.nodes {above : List ExecutionEmission} {g : Guest} {m : Machine} (hs : Shaped d)
    (h : InRun env entry_data permissions program d above g m) :
    NodesOf entry_data.message_fee_allocation m := by
  obtain ⟨g0, m0, hbegin, hreach⟩ := h
  obtain ⟨hs0, -, hacc, hdet, hmain, -⟩ := hbegin.start hs
  have hstart : NodesOf entry_data.message_fee_allocation m0 := by
    refine ⟨fun _ => ?_, fun hno => absurd ⟨hdet, hmain⟩ hno⟩
    rw [hacc]
    exact Budgeted.start _ _ _
  exact (hreach.invariant (P := fun _ m => NodesOf entry_data.message_fee_allocation m)
    (fun _ _ _ ht h => h.trace ht) (fun _ _ _ _ _ _ _ h => ⟨h.main, h.others⟩)
    (fun _ _ _ hb _ => NodesOf.beside hb) hs0 hstart).2

/-! ## One message -/

/-- The requests that send a message. -/
def Message.IsSend : Message → Prop
  | .EthSend _ _ _ => True
  | .PostMessage _ _ _ _ => True
  | .DeployContract _ _ _ _ _ => True
  | _ => False

/-- A request to send a message is refused, and changes nothing, or the message
is recorded and its fee taken from the node it is matched to. -/
theorem gl_call_send {request : Bytes} {outside : Except Refusal Reply} {value : Tree}
    {message : Message} {m m' : Machine} {r : Except HostError Next} (hs : Shaped m.data_fees)
    (hd : decode request = .ok value) (hm : Message.from_value value = some message)
    (hsend : message.IsSend) (h : gl_call env request outside m = .ok (r, m')) :
    (∃ e, r = .error e ∧ m' = m) ∨ ∃ e, r = .ok (.reply none) ∧ Sends env e m m' := by
  have hok := request_accepted hd hm
  unfold gl_call at h
  rw [hd] at h
  dsimp only at h
  rw [hm] at h
  have hmap : ∀ {x : HostM Reply}, (Next.reply <$> x) m = .ok (r, m') →
      (∀ r m', x m = .ok (r, m') → SendCases env m r m') →
      (∃ e, r = .error e ∧ m' = m) ∨ ∃ e, r = .ok (.reply none) ∧ Sends env e m m' := by
    intro x hx hcases
    rcases run_map.mp hx with ⟨e, he, rfl⟩ | ⟨reply, ha, rfl⟩
    · rcases hcases _ _ he with ⟨e', -, hsame⟩ | ⟨_, hr, -⟩
      · exact .inl ⟨e, rfl, hsame⟩
      · cases hr
    · rcases hcases _ _ ha with ⟨e', hr, -⟩ | ⟨e, hr, hsends⟩
      · cases hr
      · cases hr
        exact .inr ⟨e, rfl, hsends⟩
  cases message with
  | EthSend _ _ _ => exact hmap h fun _ _ hx => eth_send_cases hs hx
  | PostMessage _ _ _ _ => exact hmap h fun _ _ hx => post_message_cases hs hok hx
  | DeployContract _ _ _ _ _ => exact hmap h fun _ _ hx => deploy_contract_cases hs hok hx
  | _ => exact hsend.elim

/-- A charge panics only when a sum of costs does not fit 256 bits or the limiter
does: the subtraction from the budget of the node never does. -/
theorem consume_message_fee_panics {oom : String} {fee_cost : DataLimit → Option (List Nat)} {i : Nat}
    {node : MessageAllocationNode} {receipt : MessageReceiptParams} {m : Machine} {t : Stop}
    (h : consume_message_fee oom fee_cost i node receipt m = .error t) :
    ∃ costs, fee_cost m.data_fees = some costs ∧ (CostVec.sum costs = none ∨
      ∃ receipts, calculate_message_receipt m.data_fees receipt = some receipts ∧
        Fees.consume_message_fee m.data_fees costs receipts = none) := by
  unfold consume_message_fee at h
  obtain ⟨costs, hcosts, h⟩ := stop_orTrap_bind (stop_read_bind.mp h)
  refine ⟨costs, hcosts, ?_⟩
  rcases stop_orPanic_bind h with htotal | ⟨total, -, h⟩
  · exact .inl htotal
  obtain ⟨hle, h⟩ := stop_require_bind h
  obtain ⟨receipts, hreceipts, h⟩ := stop_orTrap_bind h
  rcases stop_orPanic_bind h with hcharge | ⟨⟨charged, data_fees⟩, -, h⟩
  · exact .inr ⟨receipts, hreceipts, hcharge⟩
  obtain ⟨-, h⟩ := stop_require_bind (stop_update_bind.mp h)
  rcases stop_orPanic_bind h with hsub | ⟨budget, -, h⟩
  · -- the budget covers the fee, so the subtraction goes through
    rw [sub, if_pos (of_decide_eq_true hle)] at hsub
    cases hsub
  · cases h

/-- **Budgets.** In every VM of an execution the initial budget of each node is
what is left of it and the fees of the recorded messages that are matched to it;
all else of the node, its children included, is as it was.
A message that is refused changes nothing; one that is sent takes its fee from
its node, which covers it. -/
theorem budgets_conserved {bucket_totals : List Nat} {fees : Category → FeesBucketConfig}
    (hstart : DataLimit.start bucket_totals fees = some d) :
    ∀ above g m, InRun env entry_data permissions program d above g m →
      (OfMain m.vm.conf →
        m.acc.message_fee_allocation.length = entry_data.message_fee_allocation.length ∧
        ∀ (i : Nat) (node₀ node : MessageAllocationNode),
          entry_data.message_fee_allocation[i]? = some node₀ →
          m.acc.message_fee_allocation[i]? = some node →
          node = node₀.setBudget node.budget ∧ node₀.budget = node.budget +
            paidFrom entry_data.message_fee_allocation i m.acc.emissions) ∧
      (¬ OfMain m.vm.conf → m.acc.message_fee_allocation = []) ∧
      (∀ request outside value message r m', decode request = .ok value →
        Message.from_value value = some message → message.IsSend →
        gl_call env request outside m = .ok (r, m') →
        (∃ e, r = .error e ∧ m' = m) ∨
        ∃ e i node, r = .ok (.reply none) ∧
          e.matched entry_data.message_fee_allocation = some i ∧
          m.acc.message_fee_allocation[i]? = some node ∧ e.message_fee ≤ node.budget ∧
          m'.acc.message_fee_allocation = m.acc.message_fee_allocation.modify i
            (·.setBudget (node.budget - e.message_fee)) ∧
          m'.acc.emissions = m.acc.emissions ++ [e]) ∧
      (∀ oom fee_cost i node receipt t,
        consume_message_fee oom fee_cost i node receipt m = .error t →
        ∃ costs, fee_cost m.data_fees = some costs ∧ (CostVec.sum costs = none ∨
          ∃ receipts, calculate_message_receipt m.data_fees receipt = some receipts ∧
            Fees.consume_message_fee m.data_fees costs receipts = none)) := by
  obtain ⟨hs, -⟩ := start_consumed hstart
  intro above g m hin
  have hn := hin.nodes hs
  refine ⟨fun hmain => ?_, hn.others, ?_, fun _ _ _ _ _ _ h => consume_message_fee_panics h⟩
  · have hb := hn.main hmain
    exact ⟨hb.length, hb.budget⟩
  · intro request outside value message r m' hd hm hsend h
    rcases gl_call_send (hin.shaped hs) hd hm hsend h with hfail | ⟨e, hr, hsends⟩
    · exact .inl hfail
    · right
      obtain ⟨hmain, -⟩ := hn.sends hsends
      obtain ⟨i, node, data_fees, hmatch, hnode, hle, -, rfl⟩ := hsends.paid
      exact ⟨e, i, node, hr, ((hn.main hmain).matched e).symm.trans hmatch, hnode, hle, rfl, rfl⟩

/-- The node paid one unit for the message. -/
theorem budgets_conserved_sender : ∃ m m1 node,
    eth_send small_env Address.zero [] 30 m = .ok (.ok none, m1) ∧
    InRun small_env small_forest_entry all_permissions sender small_limit [] sandboxer m1 ∧
    m1.acc.message_fee_allocation[0]? = some node ∧ node.budget = 6 ∧
    paidFrom small_forest_entry.message_fee_allocation 0 m1.acc.emissions = 1 := by
  obtain ⟨m, m1, -, hbegin, hsend, hreach, -, -, hnodes, -, hmain⟩ := sender_runs
  have hin : InRun small_env small_forest_entry all_permissions sender small_limit [] sandboxer m1 :=
    ⟨_, _, hbegin, hreach⟩
  have hnode : m1.acc.message_fee_allocation[0]? =
      some (.mk none none 6 .Accepted (.External ⟨1, 1⟩) []) := by
    rw [hnodes]
    rfl
  have hpaid : 7 = 6 + paidFrom small_forest_entry.message_fee_allocation 0 m1.acc.emissions :=
    (((budgets_conserved small_start _ _ _ hin).1 hmain).2 0 _ _ rfl hnode).2
  exact ⟨m, m1, _, hsend, hin, hnode, rfl, by omega⟩

end GenVM.Vm
