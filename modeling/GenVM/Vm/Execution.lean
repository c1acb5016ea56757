import GenVM.Vm.Reach

/-!
# A whole execution

An execution starts with the limiter after the initial charges. The storage of
the contract is prepared, which for a deploy writes its code, then the main VM
runs. `InRun` says that some VM of the execution is at a machine.
-/
namespace GenVM.Vm
open GenVM.Lib GenVM.Calldata GenVM.Fees
open GenVM.Lib.EffectM
open GenVM.Store (SlotID Storage Keeps)

/-- What the VMs share at the start. -/
def Shared.new (d : DataLimit) : Shared := ⟨⟨d, 0⟩, 0, [], none, []⟩

/-- The main VM of an execution gets to its program. -/
def Begins (env : Env) (entry_data : ExecutionData) (permissions : Permissions)
    (program : SingleVMData → Guest) (d : DataLimit) (g : Guest) (m : Machine) : Prop :=
  ∃ runner_id storage limits,
    prepare env entry_data (Storage.new, ⟨d, 0⟩) = (.ok runner_id, storage, limits) ∧
    Enters env ⟨essential_data entry_data permissions runner_id storage,
      { Shared.new d with limits := limits }⟩ m ∧
    g = program (essential_data entry_data permissions runner_id storage)

/-- Some VM of the execution is at `m'`, with `g'` still to run. -/
def InRun (env : Env) (entry_data : ExecutionData) (permissions : Permissions)
    (program : SingleVMData → Guest) (d : DataLimit) (above : List ExecutionEmission) (g' : Guest)
    (m' : Machine) : Prop :=
  ∃ g m, Begins env entry_data permissions program d g m ∧ Reaches env g m above g' m'

variable {env : Env} {entry_data : ExecutionData} {permissions : Permissions}
  {program : SingleVMData → Guest} {d : DataLimit}

/-! ## Preparation -/

abbrev PaysShaped (p q : Storage × Limits) : Prop := Shaped p.2.data_fees → PaysPages p q

theorem keeps_throw {e : Sum Stop Raised} {α : Type} :
    Keeps PaysShaped (throw e : Store.WriteM (Sum Stop Raised) Limits α) :=
  fun p _ => PaysPages.refl p

theorem write_code_pays (host : Store.Content) (oom : Sum Stop Raised) (code : Bytes) :
    Keeps PaysShaped (Store.write_code env.sha3_256 host Limits.consume oom code) := by
  unfold Store.write_code
  split
  · exact keeps_throw
  · next hlen =>
    refine Keeps.bind paysPages_trans' (write_pays ?_) fun _ => write_pays ?_
    · show 0 + 4 < 2 ^ 32
      omega
    · omega

theorem write_major_pays (host : Store.Content) (major : UInt8) :
    Keeps PaysShaped (Store.write_major host Limits.consume major) :=
  write_pays (show Store.MAJOR + 1 < 2 ^ 32 by decide)

/-- What a preparation charges for is in the storage it leaves. -/
theorem prepare_pays (env : Env) (entry_data : ExecutionData) :
    Keeps PaysShaped (prepare env entry_data) := by
  unfold prepare
  dsimp only
  split
  · next code _ =>
    refine (write_code_pays _ _ code).bind paysPages_trans' fun _ =>
      (write_major_pays _ _).bind paysPages_trans' fun _ => ?_
    split
    · exact keeps_throw
    · exact Store.keeps_pure (fun p _ => PaysPages.refl p) _
  · intro p hs
    obtain ⟨s, l⟩ := p
    have hpages := Store.check_major_overlay env.sha3_256 env.node_major
      (Raised.vm INVALID_CONTRACT_MAJOR_MISMATCH)
      (env.content .LatestNonFinal entry_data.message.contract_address) s
    have hsame : ∀ s' : Storage, s'.pages = s.pages → PaysPages (s, l) (s', l) := by
      intro s' hs'
      refine ⟨SameShape.refl _, fun _ _ => rfl, ⟨0, ?_, rfl, ?_⟩, fun hb p hp => hb p (hs' ▸ hp)⟩
      · exact congrArg List.length hs'
      · rw [Nat.zero_mul]
        rfl
    dsimp only
    split <;> next hx => (rw [hx] at hpages; exact hsame _ hpages)

/-! ## The main VM -/

/-- What holds when the main VM gets to its program. -/
theorem Begins.start {g : Guest} {m : Machine} (hs : Shaped d)
    (h : Begins env entry_data permissions program d g m) :
    Shaped m.data_fees ∧ PaysPages (Storage.new, ⟨d, 0⟩) (m.vm.storage, m.shared.limits) ∧
      m.acc = ⟨0, [], entry_data.message_fee_allocation, []⟩ ∧
      m.vm.conf.is_deterministic = true ∧ m.vm.conf.is_main = true ∧
      m.vm.message_data.message.contract_address = entry_data.message.contract_address := by
  obtain ⟨runner_id, storage, limits, hprep, henter, rfl⟩ := h
  have hpays := prepare_pays env entry_data (Storage.new, ⟨d, 0⟩) hs
  rw [hprep] at hpays
  obtain ⟨-, -, rfl⟩ := henter
  have hpages := Store.read_major_overlay
    (env.content .LatestNonFinal entry_data.message.contract_address) storage
  refine ⟨hpays.shape.shaped hs, ?_, rfl, rfl, rfl, rfl⟩
  obtain ⟨n, hlen, hcharges, hfee⟩ := hpays.new
  exact ⟨hpays.shape, hpays.other, ⟨n, (congrArg List.length hpages).trans hlen, hcharges, hfee⟩,
    fun hb p hp => hpays.bounded hb p (hpages ▸ hp)⟩

/-- The main VM after the preparation. -/
def main_run (env : Env) (entry_data : ExecutionData) (permissions : Permissions)
    (program : SingleVMData → Guest) (d : DataLimit) (runner_id : RunnerId) (storage : Storage)
    (limits : Limits) : Except Stop (RunResult × Shared) :=
  let data := essential_data entry_data permissions runner_id storage
  spawn_apply_run env (fun m => vm_run env (program data) m)
    ⟨data, { Shared.new d with limits := limits }⟩

/-- The preparation was refused, or the main VM ran to the end. -/
theorem run_with_impl_cases {result : FullResult} {shared' : Shared} (hs : Shaped d)
    (h : run_with_impl env entry_data permissions program (Shared.new d) = .ok (result, shared')) :
    (∃ f storage limits run_ok,
      prepare env entry_data (Storage.new, ⟨d, 0⟩) = (.error (.inr f), storage, limits) ∧
      unwrap_vm_errors f.1 = some run_ok ∧ result = FullResult.empty_from env run_ok ∧
      shared' = { Shared.new d with limits := limits }) ∨
    ∃ runner_id storage limits res,
      prepare env entry_data (Storage.new, ⟨d, 0⟩) = (.ok runner_id, storage, limits) ∧
      main_run env entry_data permissions program d runner_id storage limits = .ok (res, shared') ∧
      Trace env ⟨essential_data entry_data permissions runner_id storage,
        { Shared.new d with limits := limits }⟩ ⟨res.vm_data, shared'⟩ ∧
      res.run_ok.Accepted ∧ full_result env res = .ok result := by
  have hpays := prepare_pays env entry_data (Storage.new, ⟨d, 0⟩) hs
  unfold run_with_impl at h
  have hl : (Shared.new d).limits = ⟨d, 0⟩ := rfl
  rw [hl] at h
  generalize hprep : prepare env entry_data (Storage.new, ⟨d, 0⟩) = p at h hpays
  obtain ⟨runner_id, storage, limits⟩ := p
  cases runner_id with
  | error e =>
    cases e with
    | inl t => cases h
    | inr f =>
      dsimp only at h
      split at h
      · cases h
      · next run_ok hok =>
        cases h
        exact .inl ⟨f, storage, limits, run_ok, rfl, hok, rfl, rfl⟩
  | ok runner_id =>
    dsimp only at h
    split at h
    · cases h
    · next res shared hrun =>
      split at h
      · cases h
      · next result' hres =>
        cases h
        obtain ⟨ht, hok⟩ := spawn_apply_run_traced (vm_run_traced _) _ _ _ hrun
        exact .inr ⟨runner_id, storage, limits, res, rfl, hrun, ht (hpays.shape.shaped hs), hok,
          hres⟩

/-! ## A small execution -/

/-- The hash of 32 zeros and the offset of the code. -/
def code_digest : {b : Bytes // b.length = 32} :=
  ⟨[225, 174, 35, 65, 39, 146, 223, 107, 106, 152, 251, 124, 152, 57, 112, 31, 184, 176, 43, 111,
    199, 237, 2, 40, 16, 247, 131, 70, 73, 70, 133, 231], rfl⟩

/-- The hash of nothing. -/
def empty_digest : {b : Bytes // b.length = 32} :=
  ⟨[167, 255, 198, 248, 191, 30, 215, 102, 81, 193, 71, 86, 160, 97, 214, 98, 245, 128, 255, 77,
    228, 59, 73, 250, 130, 216, 10, 75, 128, 248, 67, 74], rfl⟩

/-- Everything costs one unit of the first bucket, and nothing up-front. -/
def unit_fees : Category → FeesBucketConfig := fun _ =>
  ⟨[0], some (.rational 0), some fun _ => some (.rational 1)⟩

def small_limit : DataLimit := (DataLimit.start [10] unit_fees).get rfl

theorem small_start : DataLimit.start [10] unit_fees = some small_limit := rfl

/-- A node that holds no contract yet. -/
def small_env : Env :=
  { is_sync := false
    leader_nondet_results := none
    locked_slots := fun _ => false
    content := fun _ _ _ _ => 0
    balance := fun _ => ⟨100, by decide⟩
    node_major := 0
    sha3_256 := fun b => if b = [] then empty_digest else code_digest
    keccak256 := fun _ => empty_digest
    parse := fun _ => .error (Raised.vm INVALID_CONTRACT)
    resolve_runner_id := fun id _ => .ok id }

def small_entry (code : Option Bytes) : ExecutionData :=
  { calldata := []
    message := ⟨Address.zero, Address.zero, Address.zero, [], 1, 0, code.isSome, 0⟩
    code := code
    message_fee_allocation := [] }

def all_permissions : Permissions := ⟨true, true, true, true, true, true⟩

/-- Writes one byte and returns. -/
def writer : SingleVMData → Guest := fun _ =>
  .storage_write SlotID.ZERO 64 [1] Snapshot.empty fun _ => .halt (.ok ()) Snapshot.empty

/-! ## A payment and a sandbox -/

/-- A call to the method `name`. -/
def request_of (name : String) (fields : List (String × Tree)) : Tree := .map [(name, .map fields)]

theorem small_size {n : Nat} (h : n < 100) : SizeFits n := lt_trans h (by decide)

theorem request_of_ok {name : String} {fields : List (String × Tree)}
    (hname : SizeFits (Utf8.bytes name).length) (hlen : SizeFits fields.length)
    (hsorted : SortedMap.Sorted keyLt fields)
    (hfields : ∀ kv ∈ fields, Tree.EntryOk 126 kv) : (request_of name fields).Ok 128 := by
  have hpayload : Tree.Ok 127 (.map fields) := Tree.ok_map.mpr ⟨by decide, hlen, hsorted, hfields⟩
  refine Tree.ok_map.mpr ⟨by decide, ?_, List.pairwise_singleton _ _, fun kv hkv => ?_⟩
  · exact small_size (by decide : 1 < 100)
  · rw [List.mem_singleton.mp hkv]
    exact ⟨hname, hpayload⟩

def send_request : Tree :=
  request_of "EthSend"
    [("address", .address Address.zero), ("calldata", .bytes []), ("value", .number 30)]

theorem send_request_ok : send_request.Ok 128 := by
  refine request_of_ok (small_size (by decide)) (small_size (by decide)) (by decide) fun kv hkv => ?_
  simp only [List.mem_cons, List.not_mem_nil, or_false] at hkv
  rcases hkv with rfl | rfl | rfl
  · exact ⟨small_size (by decide), by decide, trivial, trivial⟩
  · exact ⟨small_size (by decide), by decide, trivial, small_size (by decide)⟩
  · exact ⟨small_size (by decide), by decide, trivial, fits_size (n := 241) (by decide)⟩

/-- Refuses every permission to the sandbox. -/
def sandbox_request : Tree :=
  request_of "Sandbox"
    [("allow_register_runners", .bool false), ("allow_send_messages", .bool false),
      ("allow_write_storage", .bool false), ("data", .bytes []), ("runner", .str "")]

theorem sandbox_request_ok : sandbox_request.Ok 128 := by
  refine request_of_ok (small_size (by decide)) (small_size (by decide)) (by decide) fun kv hkv => ?_
  simp only [List.mem_cons, List.not_mem_nil, or_false] at hkv
  rcases hkv with rfl | rfl | rfl | rfl | rfl
  · exact ⟨small_size (by decide), by decide, trivial, trivial⟩
  · exact ⟨small_size (by decide), by decide, trivial, trivial⟩
  · exact ⟨small_size (by decide), by decide, trivial, trivial⟩
  · exact ⟨small_size (by decide), by decide, trivial, small_size (by decide)⟩
  · exact ⟨small_size (by decide), by decide, trivial, small_size (by decide)⟩

theorem gl_call_wire {request : Tree} {message : Message} (hok : request.Ok 128)
    (hm : Message.from_value request = some message) (env : Env) (outside : Except Refusal Reply) :
    gl_call env (wire request) outside = dispatch env outside message := by
  unfold gl_call
  rw [decode_iff.mpr ⟨rfl, hok⟩]
  dsimp only
  rw [hm]

/-- One node for external messages. -/
def small_forest_entry : ExecutionData :=
  { small_entry none with
    message_fee_allocation := [.mk none none 7 .Accepted (.External ⟨1, 1⟩) []] }

/-- Runs the writer in a sandbox and returns. -/
def sandboxer : Guest :=
  .gl_call (wire sandbox_request) (.ok none) Snapshot.empty writer fun _ =>
    .halt (.ok ()) Snapshot.empty

/-- Sends 30 first. -/
def sender : SingleVMData → Guest := fun _ =>
  .gl_call (wire send_request) (.ok none) Snapshot.empty writer fun _ => sandboxer

/-- The writer's VM. -/
def boxed (m : Machine) : SingleVMData :=
  sandbox_child m.vm [] m.vm.conf.topmost_runner_id false false false

theorem sandbox_call (m : Machine) : gl_call small_env (wire sandbox_request) (.ok none) m =
    .ok (.ok (.sandbox (boxed m)), m) := by
  have hm : Message.from_value sandbox_request = some (.Sandbox [] "" false false false) := rfl
  rw [gl_call_wire sandbox_request_ok hm]
  rfl

/-- The 30 leave the balance and a unit the node; the writer may not write. -/
theorem sender_runs : ∃ m m1 m2,
    Begins small_env small_forest_entry all_permissions sender small_limit (sender m.vm) m ∧
    eth_send small_env Address.zero [] 30 m = .ok (.ok none, m1) ∧
    Reaches small_env (sender m.vm) m [] sandboxer m1 ∧
    Enters small_env ⟨boxed m1, m1.shared⟩ m2 ∧
    m1.acc.messages_value_decremented = 30 ∧
    m1.acc.message_fee_allocation = [.mk none none 6 .Accepted (.External ⟨1, 1⟩) []] ∧
    (m.vm.conf.can_write_storage = true ∧ m1.vm.conf.is_deterministic = true ∧
      m1.vm.conf.is_main = true) := by
  have hbegin : Begins small_env small_forest_entry all_permissions sender small_limit _ _ :=
    ⟨_, _, _, rfl, ⟨by decide, rfl, rfl⟩, rfl⟩
  refine ⟨_, _, _, hbegin, rfl, .resume .start (.gl_call (r := .ok none) ?_ rfl),
    ⟨by decide, rfl, rfl⟩, rfl, rfl, rfl, rfl, rfl⟩
  have hm : Message.from_value send_request = some (.EthSend Address.zero [] 30) := rfl
  rw [gl_call_wire send_request_ok hm]
  rfl

end GenVM.Vm
