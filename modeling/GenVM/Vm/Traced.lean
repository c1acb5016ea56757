import GenVM.Vm.Handlers
import GenVM.Vm.Faults

/-!
# Every run is a trace

`vm_run_traced`: whatever the program, its run is a trace and its result carries
nothing but values of accepted requests.
-/
namespace GenVM.Vm
open GenVM.Lib GenVM.Calldata GenVM.Fees
open GenVM.Lib.EffectM
open GenVM.Store (SlotID Storage)

variable {env : Env}

/-! ## Requests -/

/-- The child a request starts is made from the VM that makes the request. -/
def Next.From (vm : SingleVMData) : Next → Prop
  | .reply _ => True
  | .call_contract child => Beside vm child
  | .sandbox child => ∃ data runner_id w s r, child = sandbox_child vm data runner_id w s r
  | .nondet_leader _ child => vm.conf.can_spawn_nondet = true ∧ ∃ data,
      child = nondet_child vm data none
  | .nondet_validator _ child leaders_res => vm.conf.can_spawn_nondet = true ∧ leaders_res.Traps ∧
      ∃ data, child = nondet_child vm data (some leaders_res)

/-- What a request does before a child runs. -/
def Starts (env : Env) (x : HostM Next) : Prop :=
  ∀ m r m', x m = .ok (r, m') → Traced env m m' ∧ ∀ next, r = .ok next → next.From m'.vm

theorem starts_reply {x : HostM Reply} (hx : Preserves (Traced env) x) :
    Starts env (Next.reply <$> x) := by
  intro m r m' h
  rcases run_map.mp h with ⟨e, he, rfl⟩ | ⟨reply, hr, rfl⟩
  · exact ⟨hx m _ m' he, fun next hn => nomatch hn⟩
  · refine ⟨hx m _ m' hr, fun next hn => ?_⟩
    cases hn
    trivial

theorem starts_fail (e : HostError) : Starts env (fail e) := by
  intro m r m' h
  obtain ⟨rfl, rfl⟩ := run_fail.mp h
  exact ⟨Traced.refl _, fun next hn => nomatch hn⟩

theorem call_contract_starts (address : Address) (calldata : Maybe Tree) (state : StorageType) :
    Starts env (call_contract env address calldata state) := by
  intro m r m' h
  unfold call_contract at h
  rw [run_read_bind] at h
  rcases run_require_bind h with ⟨rfl, rfl⟩ | ⟨hdet, h⟩
  · exact ⟨Traced.refl _, fun next hn => nomatch hn⟩
  rcases run_require_bind h with ⟨rfl, rfl⟩ | ⟨hperm, h⟩
  · exact ⟨Traced.refl _, fun next hn => nomatch hn⟩
  have hpages := Store.check_major_overlay env.sha3_256 env.node_major
    (Raised.vm INVALID_CONTRACT_MAJOR_MISMATCH)
    (env.content (if state = .Default then .LatestNonFinal else state) address) Storage.new
  dsimp only at h
  generalize Store.check_major_and_resolve_code_slot _ _ _ _ _ = res at h hpages
  obtain ⟨slot, storage⟩ := res
  cases slot with
  | error f => exact starts_fail _ _ _ _ h
  | ok slot =>
    obtain ⟨rfl, rfl⟩ := run_pure.mp h
    refine ⟨Traced.refl _, fun next hn => ?_⟩
    cases hn
    refine .contract address calldata _ storage slot hdet hperm ?_ hpages
    split
    · exact StorageType.noConfusion
    · assumption

theorem sandbox_starts (data : Bytes) (runner : String) (w s r : Bool) :
    Starts env (sandbox env data runner w s r) := by
  intro m res m' h
  unfold sandbox at h
  rw [run_read_bind] at h
  cases hid : env.resolve_runner_id m.vm.conf.topmost_runner_id runner with
  | error f =>
    rw [hid] at h
    exact starts_fail _ _ _ _ h
  | ok runner_id =>
    rw [hid] at h
    obtain ⟨rfl, rfl⟩ := run_pure.mp h
    refine ⟨Traced.refl _, fun next hn => ?_⟩
    cases hn
    exact ⟨_, _, _, _, _, rfl⟩

/-- The charge of a result, for a VM that may spawn. -/
theorem consume_nondet_output_traced {n : Nat} {m m' : Machine} {r : Except HostError Unit}
    (hspawn : m.vm.conf.can_spawn_nondet = true)
    (h : consume_nondet_output n m = .ok (r, m')) : Traced env m m' ∧ m'.vm = m.vm := by
  unfold consume_nondet_output at h
  rw [run_read_bind] at h
  obtain ⟨⟨charged, data_fees⟩, hcharge, h⟩ := run_orPanic_bind h
  rw [run_update_bind] at h
  have hm : m' = m.setDataFees data_fees := by
    cases charged with
    | none => exact (run_fail.mp h).2
    | some charged => exact (run_require h).1
  subst hm
  refine ⟨fun hs => ?_, rfl⟩
  rcases consume_bucket_adds hs hcharge with ⟨-, rfl⟩ | ⟨-, costs, -, hadd⟩
  · exact .refl _
  · exact .nondet_output data_fees _ hspawn hadd

theorem set_vm_run_result_same (res : RunOk) : Preserves Eq (set_vm_run_result res) := by
  unfold set_vm_run_result
  split
  · exact preserves_fail (fun _ => rfl) _
  · exact preserves_pure (fun _ => rfl) _

theorem give_nondet_result_traced {res : RunOk} {m m' : Machine} {r : Except HostError Reply}
    (h : give_nondet_result res m = .ok (r, m')) (hspawn : m.vm.conf.can_spawn_nondet = true) :
    Traced env m m' ∧ m'.vm = m.vm := by
  rcases run_bind.mp h with ⟨e, hx, rfl⟩ | ⟨u, m1, hx, h⟩
  · exact consume_nondet_output_traced hspawn hx
  · obtain ⟨ht, hvm⟩ := consume_nondet_output_traced hspawn hx
    obtain rfl := set_vm_run_result_same res _ _ _ h
    exact ⟨ht, hvm⟩

/-- The records of non-deterministic calls change only for a VM that may spawn. -/
theorem quiet_nondet {m m' : Machine} (hspawn : m.vm.conf.can_spawn_nondet = true)
    (hvm : m'.vm = m.vm) (hl : m'.shared.limits = m.shared.limits) : Quiet m m' := by
  exact ⟨by rw [hvm], by rw [hvm], by rw [hvm], by rw [hvm], by unfold Machine.acc; rw [hvm],
    by unfold Machine.acc; rw [hvm], by unfold Machine.acc; rw [hvm], hl,
    fun hn => absurd (hspawn.symm.trans hn) (by simp)⟩

/-- The answer to a call whose result is there already. -/
theorem give_reply_starts {res : RunOk} {m m1 m' : Machine} {r : Except HostError Next}
    (hm : Traced env m m1) (hspawn : m1.vm.conf.can_spawn_nondet = true)
    (h : (give_nondet_result res >>= fun reply => pure (Next.reply reply)) m1 = .ok (r, m')) :
    Traced env m m' ∧ ∀ next, r = .ok next → next.From m'.vm := by
  rcases run_bind.mp h with ⟨e, hx, rfl⟩ | ⟨reply, m2, hx, h⟩
  · exact ⟨Traced.trans _ _ _ hm (give_nondet_result_traced hx hspawn).1, fun next hn => nomatch hn⟩
  · obtain ⟨rfl, rfl⟩ := run_pure.mp h
    refine ⟨Traced.trans _ _ _ hm (give_nondet_result_traced hx hspawn).1, fun next hn => ?_⟩
    cases hn
    trivial

theorem run_nondet_starts (data_leader data_validator : Bytes) :
    Starts env (run_nondet env data_leader data_validator) := by
  intro m r m' h
  unfold run_nondet at h
  rw [run_read_bind] at h
  rcases run_require_bind h with ⟨rfl, rfl⟩ | ⟨hspawn, h⟩
  · exact ⟨Traced.refl _, fun next hn => nomatch hn⟩
  rw [run_update_bind] at h
  have hquiet : ∀ m', m'.vm = m.vm → m'.shared.limits = m.shared.limits → Traced env m m' :=
    fun m' hvm hl => (quiet_nondet hspawn hvm hl).traced
  have hnext := hquiet m.nextCallNo rfl rfl
  have hfail : ∀ e : HostError, (fail e : HostM Next) m.nextCallNo = .ok (r, m') →
      Traced env m m' ∧ ∀ next, r = .ok next → next.From m'.vm := by
    intro e h
    obtain ⟨rfl, rfl⟩ := run_fail.mp h
    exact ⟨hnext, fun next hn => nomatch hn⟩
  rcases run_require_bind h with ⟨rfl, rfl⟩ | ⟨-, h⟩
  · exact ⟨hnext, fun next hn => nomatch hn⟩
  cases hres : env.get_leader_nondet_result m.shared.nondet_call_no with
  | none =>
    rw [hres] at h
    dsimp only at h
    by_cases hl : env.is_leader = true
    · rw [if_pos hl] at h
      by_cases hsync : env.is_sync = true
      · rw [if_pos hsync] at h
        exact hfail _ h
      · rw [if_neg hsync] at h
        obtain ⟨rfl, rfl⟩ := run_pure.mp h
        refine ⟨hnext, fun next hn => ?_⟩
        cases hn
        exact ⟨hspawn, data_leader, rfl⟩
    · rw [if_neg hl] at h
      exact hfail _ h
  | some raw =>
    rw [hres] at h
    cases raw with
    | nil =>
      dsimp only at h
      by_cases hsync : env.is_sync = true
      · rw [if_pos hsync] at h
        exact give_reply_starts hnext hspawn h
      · rw [if_neg hsync, run_update_bind] at h
        exact give_reply_starts (hquiet (m.nextCallNo.mark_nondet_disagreement
          m.shared.nondet_call_no) rfl rfl) hspawn h
    | cons code rest =>
      dsimp only at h
      rcases decode_leader_result_cases (rfl : decode_leader_result code rest = _) with
        he | ⟨res, hr, ht⟩
      · rw [he] at h
        exact hfail _ h
      · rw [hr] at h
        dsimp only at h
        by_cases hsync : env.is_sync = true
        · rw [if_pos hsync] at h
          exact give_reply_starts hnext hspawn h
        · rw [if_neg hsync] at h
          obtain ⟨rfl, rfl⟩ := run_pure.mp h
          refine ⟨hnext, fun next hn => ?_⟩
          cases hn
          exact ⟨hspawn, ht, data_validator, rfl⟩

theorem dispatch_starts {message : Message} (hm : message.Accepted)
    (outside : Except Refusal Reply) : Starts env (dispatch env outside message) := by
  cases message with
  | EthCall _ _ => exact starts_reply (eth_call_traced outside)
  | CallContract address calldata state => exact call_contract_starts address calldata state
  | EthSend _ _ _ =>
    exact starts_reply fun m r m' h hs => (eth_send_cases hs h).traced
  | PostMessage _ _ _ _ =>
    exact starts_reply fun m r m' h hs => (post_message_cases hs hm h).traced
  | DeployContract _ _ _ _ _ =>
    exact starts_reply fun m r m' h hs => (deploy_contract_cases hs hm h).traced
  | EmitEvent _ _ => exact starts_reply (emit_event_traced hm)
  | RunNondet data_leader data_validator => exact run_nondet_starts data_leader data_validator
  | Sandbox data runner w s r => exact sandbox_starts data runner w s r
  | RegisterRunner code => exact starts_reply (register_runner_traced code outside)
  | MapFile _ _ _ => exact starts_reply (map_file_traced outside)
  | WebRender _ => exact starts_reply (module_request_traced outside)
  | WebRequest _ => exact starts_reply (module_request_traced outside)
  | ExecPrompt _ => exact starts_reply (module_request_traced outside)
  | ExecPromptTemplate _ => exact starts_reply (module_request_traced outside)
  | UserError value => exact starts_fail _
  | Return value => exact starts_fail _
  | Trace _ => exact starts_reply (answer_traced outside)
  | Yield =>
    intro m r m' h
    obtain ⟨rfl, rfl⟩ := run_pure.mp h
    refine ⟨Traced.refl _, fun next hn => ?_⟩
    cases hn
    trivial
  | GetTimestamp => exact starts_reply (get_timestamp_traced outside)

theorem gl_call_starts (request : Bytes) (outside : Except Refusal Reply) :
    Starts env (gl_call env request outside) := by
  unfold gl_call
  cases hd : decode request with
  | error _ => exact starts_fail _
  | ok value =>
    dsimp only
    cases hm : Message.from_value value with
    | none => exact starts_fail _
    | some message => exact dispatch_starts (request_accepted hd hm) outside

/-! ## Children -/

/-- The runs of the children are traces, and their results are accepted. -/
def Spawns (env : Env) (spawn : Spawn) : Prop :=
  ∀ child shared res shared', spawn child shared = .ok (res, shared') →
    Traced env ⟨child, shared⟩ ⟨res.vm_data, shared'⟩ ∧ res.run_ok.Accepted

theorem run_after {spawn : Spawn} {child : SingleVMData} {k : RunResult → HostM Reply}
    {m m' : Machine} {r : Except HostError Reply} (h : after spawn child k m = .ok (r, m')) :
    ∃ res shared, spawn child m.shared = .ok (res, shared) ∧
      k res (m.setShared shared) = .ok (r, m') := by
  unfold after at h
  split at h
  · cases h
  · next res shared hx => exact ⟨res, shared, hx, h⟩

theorem quiet_addHash (m : Machine) (hash : Bytes) : Quiet m (m.addHash hash) :=
  ⟨rfl, rfl, rfl, rfl, rfl, rfl, rfl, rfl, fun _ => rfl⟩

theorem after_call_contract_cases {res : RunResult} {m m' : Machine} {r : Except HostError Reply}
    (h : after_call_contract env res m = .ok (r, m')) : Quiet m m' := by
  unfold after_call_contract at h
  rcases run_require_bind h with ⟨-, rfl⟩ | ⟨-, h⟩
  · exact ⟨rfl, rfl, rfl, rfl, rfl, rfl, rfl, rfl, fun _ => rfl⟩
  · rw [run_update_bind] at h
    obtain rfl := set_vm_run_result_same _ _ _ _ h
    exact quiet_addHash _ _

/-- The parent takes what the sandbox leaves, however it ended. -/
theorem after_sandbox_cases {res : RunResult} {shared : Shared} {m m' : Machine}
    {r : Except HostError Reply} (h : after_sandbox env res (m.setShared shared) = .ok (r, m')) :
    r = .ok (some res.run_ok.as_bytes) ∧ Quiet (m.adopt res.vm_data shared) m' := by
  unfold after_sandbox at h
  rw [run_read_bind] at h
  dsimp only at h
  split at h
  · rw [run_update_bind, run_update_bind, run_update_bind] at h
    obtain ⟨rfl, rfl⟩ := run_pure.mp h
    exact ⟨rfl, quiet_addHash (m.adopt res.vm_data shared) _⟩
  · rw [run_update_bind, run_update_bind] at h
    obtain ⟨rfl, rfl⟩ := run_pure.mp h
    exact ⟨rfl, ⟨rfl, rfl, rfl, rfl, rfl, rfl, rfl, rfl, fun _ => rfl⟩⟩

/-- A request and the child it starts. -/
theorem complete_traced {spawn : Spawn} (hspawn : Spawns env spawn) {next : Next} {m m' : Machine}
    {r : Except HostError Reply} (hfrom : next.From m.vm)
    (h : complete env spawn next m = .ok (r, m')) : Traced env m m' := by
  cases next with
  | reply reply =>
    obtain ⟨-, rfl⟩ := run_pure.mp h
    exact Traced.refl _
  | call_contract child =>
    intro hs
    obtain ⟨res, shared, hx, h⟩ := run_after h
    exact (Trace.beside hfrom ((hspawn _ _ _ _ hx).1 hs)).trans
      (.quiet (after_call_contract_cases h))
  | sandbox child =>
    intro hs
    obtain ⟨data, runner_id, w, s, reg, rfl⟩ := hfrom
    obtain ⟨res, shared, hx, h⟩ := run_after h
    exact (Trace.sandbox data runner_id w s reg ((hspawn _ _ _ _ hx).1 hs)).trans
      (.quiet (after_sandbox_cases h).2)
  | nondet_leader call_no child =>
    intro hs
    obtain ⟨hspawn', data, rfl⟩ := hfrom
    obtain ⟨res, shared, hx, h⟩ := run_after h
    rw [run_update_bind] at h
    have hchild : Trace env m (m.setShared shared) :=
      .beside (.nondet data none hspawn') ((hspawn _ _ _ _ hx).1 hs)
    have hquiet : Quiet (m.setShared shared)
        ((m.setShared shared).push_nondet_result call_no res.run_ok.as_bytes) :=
      quiet_nondet hspawn' rfl rfl
    have hpush := hchild.trans (.quiet hquiet)
    exact hpush.trans ((give_nondet_result_traced h hspawn').1 (hpush.sameShape.shaped hs))
  | nondet_validator call_no child leaders_res =>
    obtain ⟨hspawn', -, -⟩ := hfrom
    have hgive : Traced env _ m' ∧ _ := give_nondet_result_traced (run_update_bind.mp h) hspawn'
    have hsubmit : ∀ outcome, Quiet m (m.submit_nondet_vm_task call_no outcome) :=
      fun outcome => quiet_nondet hspawn' rfl rfl
    exact Traced.trans _ _ _ (hsubmit _).traced hgive.1

theorem after_clean {spawn : Spawn} (hs : Spawns env spawn) {child : SingleVMData}
    {k : RunResult → HostM Reply} (hk : ∀ res, res.run_ok.Accepted → Clean (k res)) :
    Clean (after spawn child k) := by
  intro m e m' h
  obtain ⟨res, shared, hx, h⟩ := run_after h
  exact hk res (hs _ _ _ _ hx).2 _ e m' h

theorem complete_clean {spawn : Spawn} (hs : Spawns env spawn) {next : Next} {vm : SingleVMData}
    (hfrom : next.From vm) : Clean (complete env spawn next) := by
  cases next with
  | reply reply => exact fails_pure reply
  | call_contract child =>
    exact after_clean hs fun res hres =>
      (fails_require (e := HostError.trap .other) trivial _).bind fun _ =>
        (fails_update _).bind fun _ => set_vm_run_result_clean hres.traps
  | sandbox child =>
    intro m e m' h
    obtain ⟨res, shared, _, h⟩ := run_after h
    cases (after_sandbox_cases h).1
  | nondet_leader call_no child =>
    exact after_clean hs fun res hres => (fails_update _).bind fun _ =>
      give_nondet_result_clean hres.traps
  | nondet_validator call_no child leaders_res =>
    refine Fails.bind ?_ fun _ => give_nondet_result_clean hfrom.2.1
    exact fun s e s' h => nomatch h

/-! ## Runs -/

/-- What a run leaves is reached by a trace, and its result is accepted. -/
def RunTraced (env : Env) (m : Machine) (o : Except Stop (RunResult × Shared)) : Prop :=
  ∀ res shared, o = .ok (res, shared) →
    Traced env m ⟨res.vm_data, shared⟩ ∧ res.run_ok.Accepted

theorem finish_traced {outcome : Except Fault Unit} (h : ∀ f, outcome = .error f → f.Accepted)
    (at_end : Snapshot) (m : Machine) : RunTraced env m (finish outcome at_end m) := by
  intro res shared hres
  unfold finish at hres
  split at hres
  · cases hres
    exact ⟨Traced.refl _, carries_null 127⟩
  · next f =>
    split at hres
    · cases hres
    · next run_ok hok =>
      cases hres
      exact ⟨Traced.refl _, (h f rfl).run_ok hok⟩

theorem proceed_traced {α : Type} {at_trap : Snapshot}
    {k : Except Errno α → Machine → Except Stop (RunResult × Shared)} {x : HostM α} {m : Machine}
    (hx : ∀ r m', x m = .ok (r, m') → Traced env m m') (hclean : ∀ e m', x m = .ok (.error e, m') →
      e.Accepted) (hk : ∀ r m', RunTraced env m' (k r m')) :
    RunTraced env m (proceed at_trap k (x m)) := by
  intro res shared h
  unfold proceed at h
  split at h
  · cases h
  · next a m' hm =>
    obtain ⟨ht, hok⟩ := hk _ _ _ _ h
    exact ⟨Traced.trans _ _ _ (hx _ _ hm) ht, hok⟩
  · next e m' hm =>
    obtain ⟨ht, hok⟩ := hk _ _ _ _ h
    exact ⟨Traced.trans _ _ _ (hx _ _ hm) ht, hok⟩
  · next f m' hm =>
    have hf : f.Accepted := hclean _ _ hm
    have hfinish : RunTraced env m' (finish (.error f) at_trap m') :=
      finish_traced (fun g hg => by cases hg; exact hf) at_trap m'
    obtain ⟨ht, hok⟩ := hfinish _ _ h
    exact ⟨Traced.trans _ _ _ (hx _ _ hm) ht, hok⟩

/-- The start of a VM. -/
theorem spawn_apply_run_traced {run : Machine → Except Stop (RunResult × Shared)}
    (hrun : ∀ m, RunTraced env m (run m)) (m : Machine) :
    RunTraced env m (spawn_apply_run env run m) := by
  have hquiet : Traced env m (m.setStorage (Store.read_major
      (env.content m.vm.read_token.mode m.vm.read_token.account) m.vm.storage).2) :=
    (quiet_setStorage m (Store.read_major_overlay _ _)).traced
  have hrefuse : ∀ code m, RunTraced env m (finish (.error (.vm code)) Snapshot.empty m) :=
    fun code m => finish_traced (fun f hf => by cases hf; trivial) Snapshot.empty m
  intro res shared h
  unfold spawn_apply_run at h
  split at h
  · exact hrefuse _ m _ _ h
  · dsimp only at h
    split at h
    · obtain ⟨ht, hok⟩ := hrefuse _ _ _ _ h
      exact ⟨Traced.trans _ _ _ hquiet ht, hok⟩
    · obtain ⟨ht, hok⟩ := hrun _ _ _ h
      exact ⟨Traced.trans _ _ _ hquiet ht, hok⟩

/-- **Traces.** Whatever the program, its run is a trace. -/
theorem vm_run_traced (g : Guest) : ∀ m, RunTraced env m (vm_run env g m) := by
  induction g with
  | halt outcome at_end =>
    intro m
    refine finish_traced (fun f hf => ?_) at_end m
    cases outcome with
    | ok u => cases hf
    | error f' =>
      cases hf
      exact f'.2.accepted
  | gl_call request outside at_trap child k ih ihk =>
    intro m
    have hspawn : Spawns env fun data shared =>
        spawn_apply_run env (fun m => vm_run env (child data) m) ⟨data, shared⟩ :=
      fun data shared res shared' h => spawn_apply_run_traced (ih data) ⟨data, shared⟩ res shared' h
    refine proceed_traced (fun r m' h => ?_) (fun e m' h => ?_) ihk
    · rcases run_bind.mp h with ⟨e, hx, rfl⟩ | ⟨next, m1, hx, h⟩
      · exact (gl_call_starts request outside _ _ _ hx).1
      · obtain ⟨ht, hfrom⟩ := gl_call_starts request outside _ _ _ hx
        exact Traced.trans _ _ _ ht (complete_traced hspawn (hfrom next rfl) h)
    · rcases run_bind.mp h with ⟨e', hx, he⟩ | ⟨next, m1, hx, h⟩
      · cases he
        exact gl_call_clean request outside _ _ _ hx
      · exact complete_clean hspawn ((gl_call_starts request outside _ _ _ hx).2 next rfl) _ _ _ h
  | storage_read slot index buf at_trap k ihk =>
    exact fun m => proceed_traced (storage_read_traced slot index buf m)
      (storage_read_clean slot index buf m) ihk
  | storage_write slot index buf at_trap k ihk =>
    exact fun m => proceed_traced (storage_write_traced slot index buf m)
      (storage_write_clean slot index buf m) ihk
  | get_balance account at_trap k ihk =>
    exact fun m => proceed_traced (get_balance_traced account m) (get_balance_clean account m) ihk
  | get_self_balance at_trap k ihk =>
    exact fun m => proceed_traced (get_self_balance_traced m) (get_self_balance_clean m) ihk

end GenVM.Vm
