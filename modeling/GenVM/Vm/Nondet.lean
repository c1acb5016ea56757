import GenVM.Vm.Conserve

/-!
# Leader and validator

`nondet_agrees`: a validator that is given the bytes a leader pushed for a call
goes on just as the leader did.
-/
namespace GenVM.Vm
open GenVM.Lib GenVM.Calldata GenVM.Fees
open GenVM.Lib.EffectM
open GenVM.Store (SlotID Storage)

/-! ## The pushed bytes -/

theorem decode_user_error {rest : Bytes} {t : Tree} (h : decode rest = .ok t) :
    decode_leader_result ResultCode.UserError.value rest = .ok (.UserError (.materialized t)) := by
  unfold decode_leader_result
  rw [if_neg (by decide), if_pos rfl, h]

theorem decode_vm_error (code : String) :
    decode_leader_result ResultCode.VmError.value (Utf8.bytes code) = .ok (.VMError code none) := by
  have h : fromUtf8 (Utf8.bytes code) = .ok code := by
    unfold fromUtf8
    rw [Utf8.fromUtf8_bytes]
  unfold decode_leader_result
  rw [if_neg (by decide), if_neg (by decide), if_pos rfl, h]

/-- A validator decodes what a leader pushed, and hands on the same. -/
theorem decode_as_bytes {res : RunOk} (h : res.Accepted) : ∃ code rest leaders_res,
    res.as_bytes = code :: rest ∧ decode_leader_result code rest = .ok leaders_res ∧
    leaders_res.as_bytes = res.as_bytes ∧ set_vm_run_result leaders_res = set_vm_run_result res := by
  cases res with
  | Return data => exact ⟨_, _, .Return (.checked (encode_maybe data)), rfl, rfl, rfl, rfl⟩
  | UserError value =>
    obtain ⟨t, rfl, ht⟩ := h
    have hd : decode (encode t) = .ok t :=
      decode_iff.mpr ⟨encode_eq_wire t, ht.mono (by decide)⟩
    exact ⟨_, _, .UserError (.materialized t), rfl, decode_user_error hd, rfl, rfl⟩
  | VMError code cause =>
    refine ⟨_, _, .VMError code none, rfl, decode_vm_error code, rfl, ?_⟩
    show (fail (.trap (.vm code)) : HostM Reply) = fail (.trap (vm_cause code cause))
    rw [show vm_cause code cause = .vm code from h]

/-! ## Two nodes at the same point -/

/-- The VMs of two nodes at the same point of the same contract: only what they
record of non-deterministic calls differs. -/
structure SameView (m m' : Machine) : Prop where
  vm : m.vm = m'.vm
  limits : m.shared.limits = m'.shared.limits
  nondet_call_no : m.shared.nondet_call_no = m'.shared.nondet_call_no

/-- Both calls answer the same, with the same charges, or neither answers. -/
def SameOutcome : Except Stop (Except HostError Reply × Machine) →
    Except Stop (Except HostError Reply × Machine) → Prop
  | .error t, .error t' => t = t'
  | .ok (r, m), .ok (r', m') => r = r' ∧ SameView m m'
  | _, _ => False

theorem consume_nondet_output_eq (n : Nat) (m : Machine) : consume_nondet_output n m =
    match Fees.consume_nondet_output m.data_fees n with
    | none => .error .panic
    | some (none, data_fees) => .ok (.error (.trap .other), m.setDataFees data_fees)
    | some (some true, data_fees) => .ok (.ok (), m.setDataFees data_fees)
    | some (some false, data_fees) =>
      .ok (.error (oom_trap OOM_NONDET_OUTPUT), m.setDataFees data_fees) := by
  show (orPanic (Fees.consume_nondet_output m.data_fees n) >>= _) m = _
  rcases Fees.consume_nondet_output m.data_fees n with _ | ⟨_ | _ | _, data_fees⟩ <;> rfl

theorem set_vm_run_result_eq (res : RunOk) : ∃ r, ∀ m, set_vm_run_result res m = .ok (r, m) := by
  cases res with
  | VMError code cause => exact ⟨.error (.trap (vm_cause code cause)), fun m => rfl⟩
  | Return data => exact ⟨.ok (some (RunOk.Return data).as_bytes), fun m => rfl⟩
  | UserError value => exact ⟨.ok (some (RunOk.UserError value).as_bytes), fun m => rfl⟩

theorem SameView.setDataFees {m m' : Machine} (h : SameView m m') (data_fees : DataLimit) :
    SameView (m.setDataFees data_fees) (m'.setDataFees data_fees) := by
  refine ⟨h.vm, ?_, h.nondet_call_no⟩
  show Limits.mk data_fees m.shared.limits.page_charges = ⟨data_fees, m'.shared.limits.page_charges⟩
  rw [h.limits]

/-- The charge and the answer depend only on the bytes of the result. -/
theorem give_nondet_result_same {res res' : RunOk} (hb : res'.as_bytes = res.as_bytes)
    (hs : set_vm_run_result res' = set_vm_run_result res) {m m' : Machine} (h : SameView m m') :
    SameOutcome (give_nondet_result res m) (give_nondet_result res' m') := by
  have hdata : m'.data_fees = m.data_fees := by
    unfold Machine.data_fees
    rw [h.limits]
  have hrun : ∀ (res : RunOk) (m : Machine), give_nondet_result res m =
      (consume_nondet_output res.as_bytes.length >>= fun _ => set_vm_run_result res) m :=
    fun _ _ => rfl
  obtain ⟨r, hr⟩ := set_vm_run_result_eq res
  have hbind : ∀ (m : Machine), (consume_nondet_output res.as_bytes.length >>= fun _ =>
      set_vm_run_result res) m = match consume_nondet_output res.as_bytes.length m with
        | .error t => .error t
        | .ok (.error e, m1) => .ok (.error e, m1)
        | .ok (.ok (), m1) => .ok (r, m1) := by
    intro m
    rw [bind_apply]
    rcases consume_nondet_output res.as_bytes.length m with t | ⟨e | u, m1⟩
    · rfl
    · rfl
    · exact hr m1
  rw [hrun, hrun, hb, hs, hbind, hbind, consume_nondet_output_eq, consume_nondet_output_eq, hdata]
  rcases Fees.consume_nondet_output m.data_fees res.as_bytes.length with
    _ | ⟨_ | _ | _, data_fees⟩
  · rfl
  · exact ⟨rfl, h.setDataFees data_fees⟩
  · exact ⟨rfl, h.setDataFees data_fees⟩
  · exact ⟨rfl, h.setDataFees data_fees⟩

/-! ## The call -/

section
variable {env : Env} {data_leader data_validator : Bytes} {m : Machine} {spawn : Spawn}

theorem run_nondet_forbidden (h : m.vm.conf.can_spawn_nondet = false) :
    run_nondet env data_leader data_validator m = .ok (.error forbidden, m) := by
  show (require m.vm.conf.can_spawn_nondet forbidden >>= _) m = _
  rw [h]
  rfl

/-- A call that may spawn, up to the lookup of its result. -/
theorem run_nondet_permitted (h : m.vm.conf.can_spawn_nondet = true) :
    run_nondet env data_leader data_validator m =
      (require (decide (m.shared.nondet_call_no < NONDET_BLOCKS)) (oom_trap OOM_RAM_LIMIT) >>=
        fun _ => (match env.get_leader_nondet_result m.shared.nondet_call_no with
        | none =>
          if env.is_leader then
            if env.is_sync then fail (.trap .other)
            else pure (.nondet_leader m.shared.nondet_call_no (nondet_child m.vm data_leader none))
          else fail (oom_trap ABSENT_LEADER_NONDET_OUTPUT)
        | some [] => do
          if env.is_sync then pure () else update (·.mark_nondet_disagreement m.shared.nondet_call_no)
          let reply ← give_nondet_result (.VMError ABSENT_LEADER_NONDET_OUTPUT none)
          pure (.reply reply)
        | some (code :: rest) =>
          match decode_leader_result code rest with
          | .error e => fail e
          | .ok leaders_res =>
            if env.is_sync then do
              let reply ← give_nondet_result leaders_res
              pure (.reply reply)
            else pure (.nondet_validator m.shared.nondet_call_no
              (nondet_child m.vm data_validator (some leaders_res)) leaders_res) : HostM Next))
        m.nextCallNo := by
  show (require m.vm.conf.can_spawn_nondet forbidden >>= _) m = _
  rw [h]
  rfl

theorem run_nondet_exhausted (h : m.vm.conf.can_spawn_nondet = true)
    (hn : ¬ m.shared.nondet_call_no < NONDET_BLOCKS) :
    run_nondet env data_leader data_validator m =
      .ok (.error (oom_trap OOM_RAM_LIMIT), m.nextCallNo) := by
  rw [run_nondet_permitted h, decide_eq_false hn]
  rfl

theorem run_nondet_leads (hresults : env.leader_nondet_results = none) (hsync : env.is_sync = false)
    (h : m.vm.conf.can_spawn_nondet = true) (hn : m.shared.nondet_call_no < NONDET_BLOCKS) :
    run_nondet env data_leader data_validator m = .ok (.ok (.nondet_leader m.shared.nondet_call_no
      (nondet_child m.vm data_leader none)), m.nextCallNo) := by
  have hnone : env.get_leader_nondet_result m.shared.nondet_call_no = none := by
    unfold Env.get_leader_nondet_result
    rw [hresults]
    rfl
  have hleader : env.is_leader = true := by
    unfold Env.is_leader
    rw [hresults]
    rfl
  rw [run_nondet_permitted h, decide_eq_true hn, hnone, hleader, hsync]
  rfl

/-- Where a result is known, it is given right away; a validator also submits
its task. -/
theorem run_nondet_validates {code : UInt8} {rest : Bytes} {leaders_res : RunOk}
    (hres : env.get_leader_nondet_result m.shared.nondet_call_no = some (code :: rest))
    (hd : decode_leader_result code rest = .ok leaders_res)
    (h : m.vm.conf.can_spawn_nondet = true) (hn : m.shared.nondet_call_no < NONDET_BLOCKS) :
    ∃ m1, SameView m.nextCallNo m1 ∧
      (run_nondet env data_leader data_validator >>= complete env spawn) m =
        give_nondet_result leaders_res m1 := by
  rw [bind_apply, run_nondet_permitted h, decide_eq_true hn, hres]
  have hpermitted : ∀ f : Unit → HostM Next, (require true (oom_trap OOM_RAM_LIMIT) >>= f)
      m.nextCallNo = f () m.nextCallNo := fun _ => rfl
  rw [hpermitted]
  dsimp only
  rw [hd]
  dsimp only
  by_cases hsync : env.is_sync = true
  · refine ⟨m.nextCallNo, ⟨rfl, rfl, rfl⟩, ?_⟩
    rw [if_pos hsync, bind_apply]
    rcases give_nondet_result leaders_res m.nextCallNo with t | ⟨e | reply, m1⟩ <;> rfl
  · refine ⟨m.nextCallNo.submit_nondet_vm_task m.shared.nondet_call_no
      ((spawn (nondet_child m.vm data_validator (some leaders_res)) m.nextCallNo.shared).map
        fun r => r.1.run_ok), ⟨rfl, rfl, rfl⟩, ?_⟩
    rw [if_neg hsync]
    rfl

end

theorem SameView.nextCallNo {m m' : Machine} (h : SameView m m') :
    SameView m.nextCallNo m'.nextCallNo :=
  ⟨h.vm, h.limits, congrArg (· + 1) h.nondet_call_no⟩

theorem SameView.trans {a b c : Machine} (h1 : SameView a b) (h2 : SameView b c) : SameView a c :=
  ⟨h1.vm.trans h2.vm, h1.limits.trans h2.limits, h1.nondet_call_no.trans h2.nondet_call_no⟩

variable {entry_data : ExecutionData} {permissions : Permissions}
  {program : SingleVMData → Guest} {d : DataLimit}

/-- A non-deterministic VM leaves what the VMs share as it is. -/
theorem nondet_child_shared {env : Env} {child : SingleVMData → Guest} {vm : SingleVMData}
    {data : Bytes} {leaders_res : Option RunOk} {shared shared' : Shared} {res : RunResult}
    (hs : Shaped shared.limits.data_fees)
    (h : spawned env child (nondet_child vm data leaders_res) shared = .ok (res, shared')) :
    shared' = shared ∧ res.run_ok.Accepted := by
  obtain ⟨ht, hok⟩ := spawned_spawns child _ _ _ _ h
  exact ⟨(ht hs).confined.shared rfl rfl rfl, hok⟩

theorem getElem?_set_padded {call_no : Nat} (results : List Bytes) (result : Bytes) :
    ((results ++ List.replicate (call_no + 1 - results.length) []).set call_no result)[call_no]? =
      some result := by
  rw [List.getElem?_set_self]
  rw [List.length_append, List.length_replicate]
  omega

/-- The charge and the answer leave the pushed results alone. -/
theorem give_nondet_result_pushed {res : RunOk} {m m' : Machine} {r : Except HostError Reply}
    (h : give_nondet_result res m = .ok (r, m')) :
    m'.shared.nondet_results = m.shared.nondet_results := by
  rcases run_bind.mp h with ⟨e, hx, -⟩ | ⟨u, m1, hx, h⟩
  · rw [consume_nondet_output_eq] at hx
    split at hx <;> cases hx <;> rfl
  · obtain rfl := set_vm_run_result_same res _ _ _ h
    rw [consume_nondet_output_eq] at hx
    split at hx <;> cases hx
    rfl

/-- **Agreement.** A leader runs the function of a non-deterministic call, and
pushes the bytes of its outcome. A validator at the same point of the contract
that gets these bytes for the call answers the contract the same, traps or not,
and charges the same. -/
theorem nondet_agrees {leader_env validator_env : Env} {bucket_totals : List Nat}
    {fees : Category → FeesBucketConfig} {above : List ExecutionEmission} {g : Guest}
    {leader validator : Machine} {data_leader data_validator : Bytes}
    {child child' : SingleVMData → Guest} {res : RunResult} {shared : Shared} {results : List Bytes}
    (hstart : DataLimit.start bucket_totals fees = some d)
    (hin : InRun leader_env entry_data permissions program d above g leader)
    (hleads : leader_env.leader_nondet_results = none) (hsync : leader_env.is_sync = false)
    (hview : SameView leader validator)
    (hrun : spawned leader_env child (nondet_child leader.vm data_leader none)
      leader.nextCallNo.shared = .ok (res, shared))
    (hvalidates : validator_env.leader_nondet_results = some results)
    (hpushed : results[leader.shared.nondet_call_no]? = some res.run_ok.as_bytes) :
    SameOutcome
      ((run_nondet leader_env data_leader data_validator >>=
        complete leader_env (spawned leader_env child)) leader)
      ((run_nondet validator_env data_leader data_validator >>=
        complete validator_env (spawned validator_env child')) validator) ∧
    ∀ r m, leader.vm.conf.can_spawn_nondet = true →
      leader.shared.nondet_call_no < NONDET_BLOCKS →
      (run_nondet leader_env data_leader data_validator >>=
        complete leader_env (spawned leader_env child)) leader = .ok (r, m) →
      m.shared.nondet_results[leader.shared.nondet_call_no]? = some res.run_ok.as_bytes := by
  obtain ⟨hs, -⟩ := start_consumed hstart
  have hleader := hin.shaped hs
  obtain ⟨hshared, hok⟩ := nondet_child_shared (show Shaped leader.nextCallNo.data_fees from hleader) hrun
  subst hshared
  cases hspawn : leader.vm.conf.can_spawn_nondet with
  | false =>
    have hspawn' : validator.vm.conf.can_spawn_nondet = false := hview.vm ▸ hspawn
    refine ⟨?_, fun _ _ hno => nomatch hno⟩
    rw [bind_apply, bind_apply, run_nondet_forbidden hspawn, run_nondet_forbidden hspawn']
    exact ⟨rfl, hview⟩
  | true =>
    have hspawn' : validator.vm.conf.can_spawn_nondet = true := hview.vm ▸ hspawn
    by_cases hn : leader.shared.nondet_call_no < NONDET_BLOCKS
    · have hn' : validator.shared.nondet_call_no < NONDET_BLOCKS := hview.nondet_call_no ▸ hn
      obtain ⟨code, rest, leaders_res, hb, hd, hbytes, hset⟩ := decode_as_bytes hok
      have hget : validator_env.get_leader_nondet_result validator.shared.nondet_call_no =
          some (code :: rest) := by
        unfold Env.get_leader_nondet_result
        rw [hvalidates, ← hview.nondet_call_no, ← hb]
        exact hpushed
      -- the leader: the child leaves the shared state alone, its bytes are pushed
      have hlead : (run_nondet leader_env data_leader data_validator >>=
          complete leader_env (spawned leader_env child)) leader =
          give_nondet_result res.run_ok (leader.nextCallNo.push_nondet_result
            leader.shared.nondet_call_no res.run_ok.as_bytes) := by
        rw [bind_apply, run_nondet_leads hleads hsync hspawn hn]
        show after _ _ _ leader.nextCallNo = _
        unfold after
        rw [hrun]
        rfl
      obtain ⟨m1, hview1, hvalid⟩ : ∃ m1, SameView validator.nextCallNo m1 ∧
          (run_nondet validator_env data_leader data_validator >>=
            complete validator_env (spawned validator_env child')) validator =
            give_nondet_result leaders_res m1 := run_nondet_validates hget hd hspawn' hn'
      rw [hlead, hvalid]
      refine ⟨give_nondet_result_same hbytes hset ?_, fun r m _ _ h => ?_⟩
      · exact SameView.trans ⟨hview.nextCallNo.vm, hview.nextCallNo.limits,
          hview.nextCallNo.nondet_call_no⟩ hview1
      · rw [give_nondet_result_pushed h]
        exact getElem?_set_padded _ _
    · have hn' : ¬ validator.shared.nondet_call_no < NONDET_BLOCKS := hview.nondet_call_no ▸ hn
      refine ⟨?_, fun _ _ _ hno => absurd hno hn⟩
      rw [bind_apply, bind_apply, run_nondet_exhausted hspawn hn, run_nondet_exhausted hspawn' hn']
      exact ⟨rfl, hview.nextCallNo⟩

/-- A validator that was given the empty result of the first call. -/
def small_validator : Env :=
  { small_env with leader_nondet_results := some [RunOk.empty_return.as_bytes] }

/-- The function of the call returns at once. -/
theorem nondet_agrees_writer : ∃ g m,
    InRun small_env (small_entry none) all_permissions writer small_limit [] g m ∧
    SameOutcome
      ((run_nondet small_env [] [] >>= complete small_env (spawned small_env fun _ =>
        .halt (.ok ()) Snapshot.empty)) m)
      ((run_nondet small_validator [] [] >>= complete small_validator (spawned small_validator fun _ =>
        .halt (.ok ()) Snapshot.empty)) m) := by
  have hbegin : Begins small_env (small_entry none) all_permissions writer small_limit _ _ :=
    ⟨_, _, _, rfl, ⟨by decide, rfl, rfl⟩, rfl⟩
  have hin : InRun small_env (small_entry none) all_permissions writer small_limit [] _ _ :=
    ⟨_, _, hbegin, .start⟩
  exact ⟨_, _, hin, (nondet_agrees small_start hin rfl rfl ⟨rfl, rfl, rfl⟩ rfl rfl rfl).1⟩

end GenVM.Vm
