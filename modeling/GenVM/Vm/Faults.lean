import GenVM.Vm.Run
import GenVM.Calldata.Parser

/-!
# Values in errors and results

A value in an error or in the result of a VM came with an accepted request, so
it nests at most 127 containers, and the code of a VM error is the one its
parent's trap will carry (`RunOk.Accepted`).
-/
namespace GenVM.Vm
open GenVM.Lib GenVM.Calldata GenVM.Fees
open GenVM.Lib.EffectM
open GenVM.Store (SlotID Storage)

def Fault.Accepted : Fault → Prop
  | .user value => Carries 127 value
  | .contract_return value => Carries 127 value
  | _ => True

def HostError.Accepted : HostError → Prop
  | .errno _ => True
  | .trap f => f.Accepted

def RunOk.Accepted : RunOk → Prop
  | .Return data => Carries 127 data
  | .UserError value => Carries 127 value
  | .VMError code cause => vm_cause code cause = .vm code

theorem carries_null (b : Nat) : Carries b (.materialized .null) :=
  ⟨.null, rfl, Nat.zero_le _, trivial, trivial⟩

theorem Fault.Plain.accepted {f : Fault} (h : f.Plain) : f.Accepted := by
  cases f with
  | user value => exact h.elim
  | contract_return value => exact h ▸ carries_null 127
  | _ => trivial

theorem Fault.Accepted.run_ok {f : Fault} {res : RunOk} (h : f.Accepted)
    (hf : unwrap_vm_errors f = some res) : res.Accepted := by
  cases f with
  | internal => cases hf
  | other => cases hf
  | _ =>
    obtain rfl := Option.some.inj hf
    first | exact h | rfl

variable {env : Env}

/-- The errors of a host call carry nothing but values of accepted requests. -/
abbrev Clean {α : Type} (x : HostM α) : Prop := Fails HostError.Accepted x

/-! ## Host calls -/

theorem clean_orPanic {α : Type} (o : Option α) : Clean (orPanic o) := by
  cases o with
  | none => exact fails_stop _
  | some a => exact fails_pure a

theorem clean_orTrap {α : Type} (o : Option α) : Clean (orTrap o) := by
  cases o with
  | none => exact fails_fail trivial
  | some a => exact fails_pure a

theorem clean_forbidden (b : Bool) : Clean (require b forbidden : HostM Unit) :=
  fails_require (e := forbidden) trivial b

theorem clean_errno (b : Bool) (e : Errno) : Clean (require b (.errno e) : HostM Unit) :=
  fails_require (e := HostError.errno e) trivial b

theorem clean_oom (b : Bool) (code : String) : Clean (require b (oom_trap code) : HostM Unit) :=
  fails_require (e := oom_trap code) trivial b

theorem storage_read_clean (slot : SlotID) (index : Nat) (buf : Bytes) :
    Clean (storage_read env slot index buf) := by
  unfold storage_read
  refine fails_read.bind fun m => (clean_forbidden _).bind fun _ => (clean_errno _ _).bind fun _ => ?_
  split
  · exact (fails_update _).bind fun _ => fails_pure _
  · exact fails_pure _

theorem onStorage_clean {α : Type} (x : Store.WriteM (Sum Stop Raised) Limits α) :
    Clean (onStorage x) := by
  intro m e m' h
  unfold onStorage at h
  split at h
  · cases h
  · cases h
  · next f _ _ _ =>
    cases h
    exact f.2.accepted

theorem storage_write_clean (slot : SlotID) (index : Nat) (buf : Bytes) :
    Clean (storage_write env slot index buf) :=
  fails_read.bind fun _ => (clean_forbidden _).bind fun _ => (clean_forbidden _).bind fun _ =>
    (clean_errno _ _).bind fun _ => (clean_forbidden _).bind fun _ => onStorage_clean _

theorem get_balance_clean (account : Address) : Clean (get_balance env account) := fails_pure _

theorem get_self_balance_clean : Clean (get_self_balance env) := by
  unfold get_self_balance
  refine fails_read.bind fun m => (clean_forbidden _).bind fun _ => ?_
  dsimp only
  split
  · exact clean_orPanic _
  · exact fails_pure _

theorem check_balance_clean (value : Nat) : Clean (check_balance env value) := by
  unfold check_balance
  refine fails_read.bind fun m => ?_
  split
  · exact fails_pure _
  · exact clean_errno _ _

theorem consume_message_fee_clean {oom : String} {fee_cost : DataLimit → Option (List Nat)} {i : Nat}
    {node : MessageAllocationNode} {receipt : MessageReceiptParams} :
    Clean (consume_message_fee oom fee_cost i node receipt) :=
  fails_read.bind fun _ => (clean_orTrap _).bind fun _ => (clean_orPanic _).bind fun _ =>
    (clean_oom _ _).bind fun _ => (clean_orTrap _).bind fun _ => (clean_orPanic _).bind fun _ =>
      (fails_update _).bind fun _ => (clean_oom _ _).bind fun _ => (clean_orPanic _).bind fun _ =>
        (fails_update _).bind fun _ => fails_pure _

theorem push_message_clean {value : Nat} {emission : Nat → Nat → ExecutionEmission}
    (fees : MessageFeeConsumption) : Clean (push_message value emission fees) :=
  (clean_orPanic _).bind fun _ => (clean_orPanic _).bind fun _ =>
    (fails_update _).bind fun _ => fails_pure _

theorem eth_send_clean {address : Address} {calldata : Bytes} {value : Nat} :
    Clean (eth_send env address calldata value) := by
  unfold eth_send
  refine fails_read.bind fun m => (clean_forbidden _).bind fun _ => (clean_forbidden _).bind fun _ =>
    (check_balance_clean value).bind fun _ => ?_
  split
  · exact fails_fail trivial
  · exact consume_message_fee_clean.bind push_message_clean

theorem post_message_clean {address : Address} {calldata : Maybe Tree} {value : Nat} {on : On} :
    Clean (post_message env address calldata value on) := by
  unfold post_message
  refine fails_read.bind fun m => (clean_forbidden _).bind fun _ => (clean_forbidden _).bind fun _ =>
    (check_balance_clean value).bind fun _ => ?_
  split
  · exact fails_fail trivial
  · exact consume_message_fee_clean.bind push_message_clean

theorem deploy_contract_clean {calldata : Maybe Tree} {code : Bytes} {value : Nat} {on : On}
    {salt_nonce : Nat} : Clean (deploy_contract env calldata code value on salt_nonce) := by
  unfold deploy_contract
  refine fails_read.bind fun m => (clean_forbidden _).bind fun _ => (clean_forbidden _).bind fun _ =>
    (check_balance_clean value).bind fun _ => ?_
  split
  · exact fails_fail trivial
  · exact consume_message_fee_clean.bind push_message_clean

theorem emit_event_clean {topics : List Bytes} {blob : Maybe (List (String × Tree))} :
    Clean (emit_event topics blob) := by
  refine fails_read.bind fun m => (clean_forbidden _).bind fun _ => (clean_forbidden _).bind fun _ =>
    (clean_errno _ _).bind fun _ => (clean_errno _ _).bind fun _ => ?_
  refine fails_read.bind fun m => (clean_orPanic _).bind fun charge =>
    (fails_update _).bind fun _ => ?_
  obtain ⟨paid, data_fees⟩ := charge
  cases paid with
  | none => exact fails_fail trivial
  | some paid =>
    cases paid with
    | none => exact fails_fail trivial
    | some fee => exact (fails_update _).bind fun _ => fails_pure _

theorem answer_clean (outside : Except Refusal Reply) : Clean (answer outside) := by
  unfold answer
  split
  · exact fails_pure _
  · exact fails_fail trivial
  · next f => exact fails_fail (e := HostError.trap f.1) f.2.accepted

theorem register_runner_clean (code : Bytes) (outside : Except Refusal Reply) :
    Clean (register_runner env code outside) :=
  fails_read.bind fun _ => (clean_forbidden _).bind fun _ => (clean_forbidden _).bind fun _ =>
    (answer_clean outside).bind fun _ => (fails_update _).bind fun _ => fails_pure _

theorem get_timestamp_clean (outside : Except Refusal Reply) : Clean (get_timestamp outside) := by
  unfold get_timestamp
  refine fails_read.bind fun m => ?_
  split
  · exact fails_pure _
  · exact answer_clean outside

theorem module_request_clean (outside : Except Refusal Reply) : Clean (module_request outside) :=
  fails_read.bind fun _ => (clean_forbidden _).bind fun _ => answer_clean outside

theorem eth_call_clean (outside : Except Refusal Reply) : Clean (eth_call outside) :=
  fails_read.bind fun _ => (clean_forbidden _).bind fun _ => (clean_forbidden _).bind fun _ =>
    answer_clean outside

theorem map_file_clean (outside : Except Refusal Reply) : Clean (map_file outside) :=
  fails_read.bind fun _ => (clean_forbidden _).bind fun _ => answer_clean outside

/-! ## Requests -/

theorem consume_nondet_output_clean (n : Nat) : Clean (consume_nondet_output n) := by
  refine fails_read.bind fun m => (clean_orPanic _).bind fun charge =>
    (fails_update _).bind fun _ => ?_
  obtain ⟨charged, data_fees⟩ := charge
  cases charged with
  | none => exact fails_fail trivial
  | some charged => exact clean_oom _ _

/-- The trap a VM error becomes. -/
def RunOk.Traps (res : RunOk) : Prop :=
  ∀ code cause, res = .VMError code cause → vm_cause code cause = .vm code

theorem RunOk.Accepted.traps {res : RunOk} (h : res.Accepted) : res.Traps := by
  intro code cause hres
  subst hres
  exact h

theorem set_vm_run_result_clean {res : RunOk} (h : res.Traps) : Clean (set_vm_run_result res) := by
  unfold set_vm_run_result
  split
  · next code cause =>
    refine fails_fail ?_
    show (vm_cause code cause).Accepted
    rw [h code cause rfl]
    trivial
  · exact fails_pure _

theorem give_nondet_result_clean {res : RunOk} (h : res.Traps) : Clean (give_nondet_result res) :=
  (consume_nondet_output_clean _).bind fun _ => set_vm_run_result_clean h

theorem decode_leader_result_cases {code : UInt8} {rest : Bytes} {r : Except HostError RunOk}
    (h : decode_leader_result code rest = r) :
    r = .error (.trap .other) ∨ ∃ res, r = .ok res ∧ res.Traps := by
  unfold decode_leader_result at h
  split at h
  · exact .inr ⟨_, h.symm, fun code cause hres => nomatch hres⟩
  · split at h
    · split at h
      · exact .inr ⟨_, h.symm, fun code cause hres => nomatch hres⟩
      · exact .inl h.symm
    · split at h
      · split at h
        · refine .inr ⟨_, h.symm, fun code cause hres => ?_⟩
          cases hres
          rfl
        · exact .inl h.symm
      · exact .inl h.symm

theorem run_nondet_clean (data_leader data_validator : Bytes) :
    Clean (run_nondet env data_leader data_validator) := by
  unfold run_nondet
  refine fails_read.bind fun m => (clean_forbidden _).bind fun _ => (fails_update _).bind fun _ =>
    (clean_oom _ _).bind fun _ => ?_
  split
  · split
    · split
      · exact fails_fail trivial
      · exact fails_pure _
    · exact fails_fail trivial
  · have hvm : RunOk.Traps (.VMError ABSENT_LEADER_NONDET_OUTPUT none) := by
      intro code cause hres
      cases hres
      rfl
    have hgive := (give_nondet_result_clean hvm).bind fun reply =>
      fails_pure (E := HostError.Accepted) (Next.reply reply)
    dsimp only
    split
    · exact hgive
    · exact (fails_update _).bind fun _ => hgive
  · split
    · next hd =>
      rcases decode_leader_result_cases hd with he | ⟨res, hr, -⟩
      · cases he
        exact fails_fail trivial
      · cases hr
    · next hd =>
      rcases decode_leader_result_cases hd with he | ⟨res, hr, ht⟩
      · cases he
      · cases hr
        split
        · exact (give_nondet_result_clean ht).bind fun _ => fails_pure _
        · exact fails_pure _

theorem call_contract_clean (address : Address) (calldata : Maybe Tree) (state : StorageType) :
    Clean (call_contract env address calldata state) := by
  unfold call_contract
  refine fails_read.bind fun m => (clean_forbidden _).bind fun _ => (clean_forbidden _).bind fun _ => ?_
  dsimp only
  split
  · next f _ _ => exact fails_fail (e := HostError.trap f.1) f.2.accepted
  · exact fails_pure _

theorem sandbox_clean (data : Bytes) (runner : String) (w s r : Bool) :
    Clean (sandbox env data runner w s r) := by
  unfold sandbox
  refine fails_read.bind fun m => ?_
  split
  · next f _ => exact fails_fail (e := HostError.trap f.1) f.2.accepted
  · exact fails_pure _

theorem dispatch_clean {message : Message} (h : message.Accepted) (outside : Except Refusal Reply) :
    Clean (dispatch env outside message) := by
  cases message with
  | EthCall _ _ => exact (eth_call_clean outside).map
  | CallContract address calldata state => exact call_contract_clean address calldata state
  | EthSend _ _ _ => exact eth_send_clean.map
  | PostMessage _ _ _ _ => exact post_message_clean.map
  | DeployContract _ _ _ _ _ => exact deploy_contract_clean.map
  | EmitEvent _ _ => exact emit_event_clean.map
  | RunNondet data_leader data_validator => exact run_nondet_clean data_leader data_validator
  | Sandbox data runner w s r => exact sandbox_clean data runner w s r
  | RegisterRunner code => exact (register_runner_clean code outside).map
  | MapFile _ _ _ => exact (map_file_clean outside).map
  | WebRender _ => exact (module_request_clean outside).map
  | WebRequest _ => exact (module_request_clean outside).map
  | ExecPrompt _ => exact (module_request_clean outside).map
  | ExecPromptTemplate _ => exact (module_request_clean outside).map
  | UserError value => exact fails_fail (e := HostError.trap (.user value)) h
  | Return value => exact fails_fail (e := HostError.trap (.contract_return value)) h
  | Trace _ => exact (answer_clean outside).map
  | Yield => exact fails_pure _
  | GetTimestamp => exact (get_timestamp_clean outside).map

/-- The message of a request that decodes is an accepted one. -/
theorem request_accepted {request : Bytes} {value : Tree} {message : Message}
    (hd : decode request = .ok value) (hm : Message.from_value value = some message) :
    message.Accepted := from_value_accepted (decode_iff.mp hd).2 hm

theorem gl_call_clean (request : Bytes) (outside : Except Refusal Reply) :
    Clean (gl_call env request outside) := by
  unfold gl_call
  split
  · exact fails_fail trivial
  · next hd =>
    split
    · exact fails_fail trivial
    · next hm => exact dispatch_clean (request_accepted hd hm) outside

end GenVM.Vm
