import GenVM.Vm.Execution

/-!
# Nothing that was charged is dropped

* `charges_reported`: when the main VM of an execution runs, what was consumed on
  top of the initial charges is the sum over the reported emissions and pages.
* `pages_reported_iff`: the pages charged are those of the final overlay and of
  the reported deltas, unless a deploy is refused while it is prepared, after
  its first page was charged.
-/
namespace GenVM.Vm
open GenVM.Lib GenVM.Calldata GenVM.Fees
open GenVM.Lib.EffectM
open GenVM.Store (SlotID Storage Delta PageID)

variable {env : Env} {entry_data : ExecutionData} {permissions : Permissions}
  {program : SingleVMData → Guest} {d : DataLimit}

/-- The pages the deltas of a result cover. -/
def FullResult.pages (result : FullResult) : List PageID := result.storage_changes.flatMap Delta.pages

theorem bounded_new : Storage.new.Bounded := fun _ hp => absurd hp List.not_mem_nil

/-- The deltas cover the overlay. -/
theorem full_result_pages {res : RunResult} {result : FullResult}
    (hb : res.vm_data.storage.Bounded) (h : full_result env res = .ok result) :
    result.emissions = res.vm_data.accumulator.emissions ∧
      result.pages = res.vm_data.storage.pages.map Prod.fst := by
  obtain ⟨ds, hds, hpages⟩ := Store.make_delta_pages
    (s := res.vm_data.storage) fun p hp => lt_trans (hb p hp) (by decide)
  unfold full_result at h
  rw [hds] at h
  cases h
  exact ⟨rfl, hpages⟩

/-- The pages of a storage differ from one another. -/
theorem nodup_pages (s : Storage) : (s.pages.map Prod.fst).Nodup := by
  refine List.Pairwise.map Prod.fst ?_ s.sorted
  intro a b h heq
  rw [heq] at h
  exact Store.pageLt_order.irrefl _ h

/-- From the limiter of the start to the end of the main VM. -/
theorem main_ledger {runner_id : RunnerId} {storage : Storage} {limits : Limits} {m : Machine}
    (hs : Shaped d)
    (hprep : prepare env entry_data (Storage.new, ⟨d, 0⟩) = (.ok runner_id, storage, limits))
    (ht : Trace env ⟨essential_data entry_data permissions runner_id storage,
      { Shared.new d with limits := limits }⟩ m) :
    m.vm.storage.Bounded ∧ m.shared.limits.page_charges = m.vm.storage.pages.length ∧
    m.data_fees.consumedOf .message_fee =
      d.consumedOf .message_fee + messageFees m.acc.emissions ∧
    m.data_fees.consumedOf .message_receipt =
      d.consumedOf .message_receipt + receiptFees m.acc.emissions ∧
    m.data_fees.consumedOf .event = d.consumedOf .event + eventFees m.acc.emissions ∧
    m.data_fees.consumedOf .storage =
      d.consumedOf .storage + m.vm.storage.pages.length * DataLimit.page_fee d := by
  have hpays := prepare_pays env entry_data (Storage.new, ⟨d, 0⟩) hs
  rw [hprep] at hpays
  obtain ⟨n, hlen, hcharges, hfee⟩ := hpays.new
  have hlen : storage.pages.length = 0 + n := hlen
  have hcharges : limits.page_charges = 0 + n := hcharges
  have hfee : limits.data_fees.consumedOf .storage =
      d.consumedOf .storage + n * DataLimit.page_fee d := hfee
  have hpage : DataLimit.page_fee limits.data_fees = DataLimit.page_fee d :=
    page_fee_sameShape hpays.shape
  have hother := fun cat hc => consumedOf_congr (hpays.other cat hc)
  have hl := ht.ledger
  have hmf : _ = limits.data_fees.consumedOf .message_fee + messageFees m.acc.emissions :=
    hl.message_fee
  have hrf : _ = limits.data_fees.consumedOf .message_receipt + receiptFees m.acc.emissions :=
    hl.message_receipt
  have hef : _ = limits.data_fees.consumedOf .event + eventFees m.acc.emissions := hl.event
  have hst : m.data_fees.consumedOf .storage +
      storage.pages.length * DataLimit.page_fee limits.data_fees =
      limits.data_fees.consumedOf .storage +
        m.vm.storage.pages.length * DataLimit.page_fee limits.data_fees := hl.storage
  have hpc : m.shared.limits.page_charges + storage.pages.length =
      limits.page_charges + m.vm.storage.pages.length := hl.page_charges
  rw [show limits.data_fees.consumedOf .message_fee = _ from hother .message_fee (by simp)] at hmf
  rw [show limits.data_fees.consumedOf .message_receipt = _ from
    hother .message_receipt (by simp)] at hrf
  rw [show limits.data_fees.consumedOf .event = _ from hother .event (by simp)] at hef
  rw [hpage, hlen, hfee, Nat.zero_add] at hst
  refine ⟨hl.bounded (hpays.bounded bounded_new), by omega, hmf, hrf, hef, by omega⟩

/-! ## Emissions -/

/-- A contract that was called leaves no effects behind. -/
theorem check_empty_holds {child : SingleVMData → Guest} {vm data : SingleVMData} {shared : Shared}
    {res : RunResult} {shared' : Shared} (hs : Shaped shared.limits.data_fees)
    (hb : Beside vm data) (h : spawned env child data shared = .ok (res, shared')) :
    res.vm_data.accumulator.check_empty = true := by
  obtain ⟨ht, -⟩ := spawned_spawns child data shared res shared' h
  obtain ⟨hw, hp, -, hempty, halloc⟩ := hb.permissions
  have hf := (ht hs).confined
  have he : res.vm_data.accumulator.emissions = _ := hf.emissions hw hp
  have ha : res.vm_data.accumulator.message_fee_allocation = _ := (hf.accumulator hp).2
  unfold VMDataAccumulator.check_empty
  rw [he, ha]
  show (data.accumulator.emissions.isEmpty && data.accumulator.message_fee_allocation.isEmpty) = true
  rw [hempty, halloc]
  rfl

/-- Every VM of an execution has a well formed limiter. -/
theorem InRun.shaped {above : List ExecutionEmission} {g : Guest} {m : Machine} (hs : Shaped d)
    (h : InRun env entry_data permissions program d above g m) : Shaped m.data_fees := by
  obtain ⟨g0, m0, hbegin, hreach⟩ := h
  exact (hreach.invariant (P := fun _ _ => True) (fun _ _ _ _ _ => trivial)
    (fun _ _ _ _ _ _ _ _ => trivial) (fun _ _ _ _ _ => trivial) (hbegin.start hs).1 trivial).1

/-- The parent goes on with all that its sandbox leaves. -/
theorem sandbox_adopted {spawn : Spawn} {data : SingleVMData} {res : RunResult} {m : Machine}
    {shared : Shared} (h : spawn data m.shared = .ok (res, shared)) :
    ∃ m', complete env spawn (.sandbox data) m = .ok (.ok (some res.run_ok.as_bytes), m') ∧
      m'.acc = res.vm_data.accumulator ∧ m'.vm.storage = res.vm_data.storage := by
  have hrun : complete env spawn (.sandbox data) m =
      after_sandbox env res (m.setShared shared) := by
    show after spawn data (after_sandbox env) m = _
    unfold after
    rw [h]
  rw [hrun]
  by_cases hdet : m.vm.conf.is_deterministic = true
  · refine ⟨(m.adopt res.vm_data shared).addHash (res.small_hash env), ?_, rfl, rfl⟩
    unfold after_sandbox
    rw [run_read_bind]
    dsimp only
    rw [if_pos (show (m.setShared shared).vm.conf.is_deterministic = true from hdet)]
    rfl
  · refine ⟨m.adopt res.vm_data shared, ?_, rfl, rfl⟩
    unfold after_sandbox
    rw [run_read_bind]
    dsimp only
    rw [if_neg (show ¬(m.setShared shared).vm.conf.is_deterministic = true from hdet)]
    rfl

/-- What was consumed, less what was taken at the start, is what is reported. -/
structure Reported (d : DataLimit) (result : FullResult) (d' : DataLimit) : Prop where
  message_fee : d'.consumedOf .message_fee =
    (d.category .message_fee).subtract_on_start.sum + messageFees result.emissions
  message_receipt : d'.consumedOf .message_receipt =
    (d.category .message_receipt).subtract_on_start.sum + receiptFees result.emissions
  event : d'.consumedOf .event =
    (d.category .event).subtract_on_start.sum + eventFees result.emissions
  storage : d'.consumedOf .storage =
    (d.category .storage).subtract_on_start.sum + result.pages.length * DataLimit.page_fee d

/-- **Conservation.** Whatever the main VM and the VMs below it do, and however
each ends, what is recorded as consumed is what the result reports; the guard on
a finished `CallContract` never fires, and a parent goes on with all a sandbox
left. -/
theorem charges_reported {bucket_totals : List Nat} {fees : Category → FeesBucketConfig}
    (hstart : DataLimit.start bucket_totals fees = some d) {result : FullResult} {shared' : Shared}
    (hprep : ∃ runner_id p, prepare env entry_data (Storage.new, ⟨d, 0⟩) = (.ok runner_id, p))
    (hrun : run_with_impl env entry_data permissions program (Shared.new d) =
      .ok (result, shared')) :
    Reported d result shared'.limits.data_fees ∧
    ∀ above request outside at_trap child k m m2 data res shared,
      InRun env entry_data permissions program d above
        (.gl_call request outside at_trap child k) m →
      spawned env child data m2.shared = .ok (res, shared) →
      (gl_call env request outside m = .ok (.ok (.call_contract data), m2) →
        res.vm_data.accumulator.check_empty = true) ∧
      (gl_call env request outside m = .ok (.ok (.sandbox data), m2) →
        ∃ m3, complete env (spawned env child) (.sandbox data) m2 =
          .ok (.ok (some res.run_ok.as_bytes), m3) ∧ m3.acc = res.vm_data.accumulator ∧
          m3.vm.storage = res.vm_data.storage) := by
  obtain ⟨hs, hsos⟩ := start_consumed hstart
  constructor
  · rcases run_with_impl_cases hs hrun with ⟨f, s, l, run_ok, hp, -⟩ |
      ⟨runner_id, storage, limits, res, hp, -, ht, -, hres⟩
    · obtain ⟨runner_id, p, hok⟩ := hprep
      cases hok.symm.trans hp
    · obtain ⟨hb, -, hmf, hrf, hef, hst⟩ := main_ledger hs hp ht
      obtain ⟨he, hpages⟩ := full_result_pages hb hres
      refine ⟨?_, ?_, ?_, ?_⟩
      · rw [he, ← hsos]
        exact hmf
      · rw [he, ← hsos]
        exact hrf
      · rw [he, ← hsos]
        exact hef
      · rw [hpages, List.length_map, ← hsos]
        exact hst
  · intro above request outside at_trap child k m m2 data res shared hin hspawn
    refine ⟨fun hcall => ?_, fun hcall => ?_⟩
    · obtain ⟨ht, hfrom⟩ := gl_call_starts request outside _ _ _ hcall
      have hm := hin.shaped hs
      exact check_empty_holds ((ht hm).sameShape.shaped hm) (hfrom _ rfl) hspawn
    · exact sandbox_adopted hspawn

/-- One page is written and reported. -/
theorem charges_reported_writer : ∃ result shared',
    run_with_impl small_env (small_entry none) all_permissions writer (Shared.new small_limit) =
      .ok (result, shared') ∧
    result.pages.length = 1 ∧ Reported small_limit result shared'.limits.data_fees := by
  have hrun : run_with_impl small_env (small_entry none) all_permissions writer
      (Shared.new small_limit) = .ok (_, _) := rfl
  exact ⟨_, _, hrun, rfl, (charges_reported small_start ⟨_, _, rfl⟩ hrun).1⟩

/-! ## Pages -/

/-- The overlay an execution ends with. -/
def final_overlay (env : Env) (entry_data : ExecutionData) (permissions : Permissions)
    (program : SingleVMData → Guest) (d : DataLimit) : Option Storage :=
  match prepare env entry_data (Storage.new, ⟨d, 0⟩) with
  | (.error _, storage, _) => some storage
  | (.ok runner_id, storage, limits) =>
    match main_run env entry_data permissions program d runner_id storage limits with
    | .error _ => none
    | .ok (res, _) => some res.vm_data.storage

/-- Each page of the overlay was charged for once, and the deltas cover just
these pages. -/
structure PagesReported (overlay : Storage) (page_charges : Nat) (result : FullResult) : Prop where
  charged : page_charges = (overlay.pages.map Prod.fst).length
  distinct : (overlay.pages.map Prod.fst).Nodup
  covered : result.pages = overlay.pages.map Prod.fst

/-- A deploy is refused while it is prepared, and some page was charged before. -/
def RefusedAfterCharge (env : Env) (entry_data : ExecutionData) (d : DataLimit) : Prop :=
  ∃ e storage limits, prepare env entry_data (Storage.new, ⟨d, 0⟩) = (.error e, storage, limits) ∧
    0 < limits.page_charges

/-- **Pages.** The pages charged are the pages of the final overlay and of the
deltas just when no deploy is refused after its first page. -/
theorem pages_reported_iff {bucket_totals : List Nat} {fees : Category → FeesBucketConfig}
    (hstart : DataLimit.start bucket_totals fees = some d) {result : FullResult} {shared' : Shared}
    (hrun : run_with_impl env entry_data permissions program (Shared.new d) =
      .ok (result, shared')) :
    (∃ overlay, final_overlay env entry_data permissions program d = some overlay ∧
      PagesReported overlay shared'.limits.page_charges result) ↔
    ¬ RefusedAfterCharge env entry_data d := by
  obtain ⟨hs, -⟩ := start_consumed hstart
  have hpays := prepare_pays env entry_data (Storage.new, ⟨d, 0⟩) hs
  unfold final_overlay RefusedAfterCharge
  rcases run_with_impl_cases hs hrun with ⟨f, storage, limits, run_ok, hp, -, rfl, rfl⟩ |
    ⟨runner_id, storage, limits, res, hp, hmain, ht, -, hres⟩
  · rw [hp] at hpays
    rw [hp]
    obtain ⟨n, hlen, hcharges, -⟩ := hpays.new
    have hlen : storage.pages.length = 0 + n := hlen
    have hcharges : limits.page_charges = 0 + n := hcharges
    constructor
    · intro h hrefused
      obtain ⟨overlay, ho, hrep⟩ := h
      cases ho
      obtain ⟨e, s, l, he, hpos⟩ := hrefused
      cases he
      have hnil : [] = storage.pages.map Prod.fst := hrep.covered
      have hzero := congrArg List.length hnil
      rw [List.length_nil, List.length_map] at hzero
      omega
    · intro h
      have hzero : limits.page_charges = 0 :=
        Nat.eq_zero_of_not_pos fun hpos => h ⟨_, storage, limits, rfl, hpos⟩
      have hnil : storage.pages = [] := List.length_eq_zero_iff.mp (by omega)
      refine ⟨storage, rfl, ⟨?_, nodup_pages storage, ?_⟩⟩
      · show limits.page_charges = _
        rw [hnil, hzero]
        rfl
      · rw [hnil]
        rfl
  · rw [hp]
    dsimp only
    rw [hmain]
    obtain ⟨hb, hpc, -⟩ := main_ledger hs hp ht
    obtain ⟨-, hpages⟩ := full_result_pages hb hres
    constructor
    · intro _ hrefused
      obtain ⟨e, s, l, he, -⟩ := hrefused
      cases he
    · intro _
      exact ⟨res.vm_data.storage, rfl, ⟨by rw [List.length_map]; exact hpc, nodup_pages _, hpages⟩⟩

/-- One page, charged for once. -/
theorem pages_reported_writer : ∃ result shared',
    run_with_impl small_env (small_entry none) all_permissions writer (Shared.new small_limit) =
      .ok (result, shared') ∧
    ((∃ overlay, final_overlay small_env (small_entry none) all_permissions writer small_limit =
        some overlay ∧ PagesReported overlay shared'.limits.page_charges result) ↔
      ¬ RefusedAfterCharge small_env (small_entry none) small_limit) := by
  have hrun : run_with_impl small_env (small_entry none) all_permissions writer
      (Shared.new small_limit) = .ok (_, _) := rfl
  exact ⟨_, _, hrun, pages_reported_iff small_start hrun⟩

/-- A deploy of code that does not parse: the pages of the code and of the
version are charged for, and no page is reported. -/
theorem refused_deploy_drops_pages : ∃ result shared',
    run_with_impl small_env (small_entry (some [65])) all_permissions writer
      (Shared.new small_limit) = .ok (result, shared') ∧
    shared'.limits.page_charges = 2 ∧ result.pages = [] ∧
    ¬ ∃ overlay, final_overlay small_env (small_entry (some [65])) all_permissions writer
      small_limit = some overlay ∧ PagesReported overlay shared'.limits.page_charges result := by
  have hrun : run_with_impl small_env (small_entry (some [65])) all_permissions writer
      (Shared.new small_limit) = .ok (_, _) := rfl
  refine ⟨_, _, hrun, rfl, rfl, ?_⟩
  intro h
  obtain ⟨overlay, -, hrep⟩ := h
  have hcharged : 2 = (overlay.pages.map Prod.fst).length := hrep.charged
  have hcovered : [] = overlay.pages.map Prod.fst := hrep.covered
  rw [← hcovered] at hcharged
  cases hcharged

end GenVM.Vm
