import GenVM.Fees.Sums
import GenVM.Store.Overlay
import GenVM.Vm.Emission
import GenVM.Vm.Run

/-!
# Traces

`Trace env m m'` says all that a VM and the VMs below it can do to the state on
the way from `m` to `m'`: send a message, emit an event, write pages, be charged
for a non-deterministic result, run a sandbox on its own state, run another VM
beside it, and what leaves all of this alone (`Quiet`). What each of these keeps
a whole run keeps, by induction on its trace.
-/
namespace GenVM.Vm
open GenVM.Lib GenVM.Calldata GenVM.Fees
open GenVM.Store (SlotID Storage)

/-- What one page costs. -/
def DataLimit.page_fee (s : DataLimit) : Nat :=
  ((calculate_bucket (s.category .storage) [("pages", num 1)]).map List.sum).getD 0

/-! ## Steps -/

/-- Only caches, hashes, registered runners and the records of non-deterministic
calls differ. -/
structure Quiet (m m' : Machine) : Prop where
  conf : m'.vm.conf = m.vm.conf
  depth : m'.vm.depth = m.vm.depth
  message_data : m'.vm.message_data = m.vm.message_data
  pages : m'.vm.storage.pages = m.vm.storage.pages
  value : m'.acc.messages_value_decremented = m.acc.messages_value_decremented
  emissions : m'.acc.emissions = m.acc.emissions
  allocation : m'.acc.message_fee_allocation = m.acc.message_fee_allocation
  limits : m'.shared.limits = m.shared.limits
  shared : m.vm.conf.can_spawn_nondet = false → m'.shared = m.shared

/-- A message was sent. -/
structure Sends (env : Env) (e : ExecutionEmission) (m m' : Machine) : Prop where
  deterministic : m.vm.conf.is_deterministic = true
  permitted : m.vm.conf.can_send_messages = true
  covered : e.value = 0 ∨ e.value + m.acc.messages_value_decremented ≤
    (env.balance m.vm.message_data.message.contract_address).1
  payload : e.Accepted
  no_storage_fee : e.storage_fee = 0
  paid : ∃ i node data_fees, e.matched m.acc.message_fee_allocation = some i ∧
    m.acc.message_fee_allocation[i]? = some node ∧ e.message_fee ≤ node.budget ∧
    AddsMessage m.data_fees data_fees e.message_fee e.receipt_fee ∧
    m' = (((m.setDataFees data_fees).setNodeBudget i (node.budget - e.message_fee)).pushEmission
      e).addValue e.value

/-- An event was emitted. -/
structure Emits (e : ExecutionEmission) (m m' : Machine) : Prop where
  deterministic : m.vm.conf.is_deterministic = true
  permitted : m.vm.conf.can_write_storage = true
  payload : e.Accepted
  event : ∃ topics blob storage_fee, e = .EmitEvent topics blob storage_fee
  paid : ∃ data_fees, Adds m.data_fees data_fees .event e.storage_fee ∧
    m' = (m.setDataFees data_fees).pushEmission e

/-- Some pages were added to an overlay, and each of them was paid for. -/
structure PaysPages (p q : Storage × Limits) : Prop where
  shape : SameShape p.2.data_fees q.2.data_fees
  other : ∀ cat, cat ≠ .storage → q.2.data_fees.category cat = p.2.data_fees.category cat
  new : ∃ n, q.1.pages.length = p.1.pages.length + n ∧ q.2.page_charges = p.2.page_charges + n ∧
    q.2.data_fees.consumedOf .storage = p.2.data_fees.consumedOf .storage +
      n * DataLimit.page_fee p.2.data_fees
  bounded : p.1.Bounded → q.1.Bounded

/-- Storage was written to, or a write was given up on the way. -/
structure Writes (m m' : Machine) : Prop where
  deterministic : m.vm.conf.is_deterministic = true
  permitted : m.vm.conf.can_write_storage = true
  paid : ∃ storage limits, PaysPages (m.vm.storage, m.shared.limits) (storage, limits) ∧
    m' = (m.setStorage storage).setLimits limits

/-- A VM that runs on its own accumulator, with nothing written yet or on a copy
of the storage. -/
inductive Beside (vm : SingleVMData) : SingleVMData → Prop
  | contract (address : Address) (calldata : Maybe Tree) (state : StorageType) (storage : Storage)
      (code_slot : SlotID) : vm.conf.is_deterministic = true → vm.conf.can_call_others = true →
      state ≠ .Default → storage.pages = [] →
      Beside vm (contract_child vm address calldata state storage code_slot)
  | nondet (data : Bytes) (leaders_res : Option RunOk) : vm.conf.can_spawn_nondet = true →
      Beside vm (nondet_child vm data leaders_res)

/-- The parent takes the state of its sandbox. -/
def Machine.adopt (m : Machine) (vm : SingleVMData) (shared : Shared) : Machine :=
  ((m.setShared shared).setAccumulator vm.accumulator).setStorage vm.storage

inductive Trace (env : Env) : Machine → Machine → Prop
  | refl (m : Machine) : Trace env m m
  | trans {m m' m'' : Machine} : Trace env m m' → Trace env m' m'' → Trace env m m''
  | quiet {m m' : Machine} : Quiet m m' → Trace env m m'
  | message {m m' : Machine} (e : ExecutionEmission) : Sends env e m m' → Trace env m m'
  | event {m m' : Machine} (e : ExecutionEmission) : Emits e m m' → Trace env m m'
  | write {m m' : Machine} : Writes m m' → Trace env m m'
  | nondet_output {m : Machine} (data_fees : DataLimit) (amount : Nat) :
      m.vm.conf.can_spawn_nondet = true →
      Adds m.data_fees data_fees .nondet_output amount → Trace env m (m.setDataFees data_fees)
  | sandbox {m : Machine} (data : Bytes) (runner_id : RunnerId) (w s r : Bool) {vm : SingleVMData}
      {shared : Shared} : Trace env ⟨sandbox_child m.vm data runner_id w s r, m.shared⟩ ⟨vm, shared⟩ →
      Trace env m (m.adopt vm shared)
  | beside {m : Machine} {child vm : SingleVMData} {shared : Shared} : Beside m.vm child →
      Trace env ⟨child, m.shared⟩ ⟨vm, shared⟩ → Trace env m (m.setShared shared)

end GenVM.Vm
