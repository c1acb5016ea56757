import GenVM.Lib.BinarySearch
import GenVM.Store.Write
import GenVM.Vm.Execution
import GenVM.Vm.Reach

/-!
# Locked slots (`executor/src/host/mod.rs`)

Before a run the lock list of the contract is read from its root slot, once, and
sorted; every write of every VM of the run searches it. A sender among the
upgraders gets the empty list.

Results: `Started.contains_iff`, `locked_slots_kept`.
-/
namespace GenVM.Vm
open GenVM.Lib GenVM.Calldata GenVM.Fees
open GenVM.Lib.EffectM
open GenVM.Store (SlotID Storage PageID Content)

/-! ## The list -/

/-- The derived order of slots. -/
def slotLt (a b : SlotID) : Prop := a.raw < b.raw

instance : DecidableRel slotLt := fun a b => by
  unfold slotLt
  infer_instance

theorem slotLt_order : SortedMap.StrictOrder slotLt where
  irrefl a h := List.lt_irrefl _ h
  trans a b c h1 h2 := List.lt_trans h1 h2
  tri a b h1 h2 := by
    have h : a.raw = b.raw := List.le_antisymm (List.not_lt.mp h2) (List.not_lt.mp h1)
    cases a
    cases b
    cases h
    rfl

/-- mirrors executor/src/host/mod.rs:134 -/
structure LockedSlotsSet where
  slots : List SlotID

/-- mirrors executor/src/host/mod.rs:136-140 -/
def LockedSlotsSet.contains (set : LockedSlotsSet) (slot : SlotID) : Bool :=
  (BinarySearch.search slotLt set.slots slot).isSome

/-- `u32::from_le_bytes` -/
def u32_from_le (b : Bytes) : Nat := b.foldr (fun x n => x.toNat + 256 * n) 0

def LOCKED_SLOTS : Nat := 3
def UPGRADERS : Nat := 4
def TOP_LOCKED_SLOTS : Nat := 256
def TOP_UPGRADERS : Nat := 32
def OOM_RAM : String := "OOM RAM"

section
variable (sha3_256 : Bytes → {b : Bytes // b.length = 32}) (host : Content)

def locked_slot : SlotID := SlotID.ZERO.indirection sha3_256 LOCKED_SLOTS
def upgraders_slot : SlotID := SlotID.ZERO.indirection sha3_256 UPGRADERS

/-- The length of the array in a slot. -/
def stored_len (slot : SlotID) : Nat := u32_from_le (Store.storage_read host slot 0 4)

/-- The slots that 32 bytes each of a buffer are. -/
def slotAt (read_to : Bytes) (i : Nat) : SlotID :=
  ⟨(Store.Page.zero.copy 0 ((read_to.drop (i * 32)).take 32)).raw,
    (Store.Page.zero.copy 0 ((read_to.drop (i * 32)).take 32)).size⟩

/-- `consume_mul` of the limiter: whether the memory could be taken.
mirrors executor/src/host/mod.rs:286-330 -/
def get_locked_slots (consume_mul : Nat → Nat → Bool) : Except Raised LockedSlotsSet :=
  let locked_slot := locked_slot sha3_256
  let len := stored_len host locked_slot
  if len > TOP_LOCKED_SLOTS then .error (Raised.vm OOM_RAM_LIMIT)
  else if ¬ consume_mul len 32 then .error (Raised.vm OOM_RAM)
  else
    let read_to := Store.storage_read host locked_slot 4 (len * 32)
    .ok ⟨BinarySearch.sort slotLt ((List.range len).map (slotAt read_to))⟩

/-- mirrors executor/src/host/mod.rs:332-372 -/
def get_locked_slots_for_sender (consume_mul : Nat → Nat → Bool) (sender : Address) :
    Except Raised LockedSlotsSet :=
  let upgraders_slot := upgraders_slot sha3_256
  let len := stored_len host upgraders_slot
  if len > TOP_UPGRADERS then .error (Raised.vm OOM_RAM_LIMIT)
  else if (List.range len).any fun i =>
      Store.storage_read host upgraders_slot (4 + i * ADDRESS_SIZE) ADDRESS_SIZE = sender.raw then
    .ok ⟨[]⟩
  else get_locked_slots sha3_256 host consume_mul

/-! ## What the root state says -/

/-- The sender is an entry of the upgraders array. -/
def Upgrader (sender : Address) : Prop :=
  ∃ i < stored_len host (upgraders_slot sha3_256), sender.raw =
    Store.storage_read host (upgraders_slot sha3_256) (4 + i * ADDRESS_SIZE) ADDRESS_SIZE

/-- The slot is an entry of the array of locked slots. -/
def Locked (slot : SlotID) : Prop :=
  ∃ i < stored_len host (locked_slot sha3_256), slot.raw =
    Store.storage_read host (locked_slot sha3_256) (4 + i * 32) 32

end

/-- The run got its locks from the contract of the message, for its sender.
mirrors executor/src/lib.rs:124-141 -/
def Started (env : Env) (message : MessageData) : Prop :=
  ∃ consume_mul set, get_locked_slots_for_sender env.sha3_256
    (env.content .Default message.contract_address) consume_mul message.sender_address = .ok set ∧
    env.locked_slots = set.contains

/-- What is read at once is what is read entry by entry. -/
theorem slotAt_storage_read (host : Content) (slot : SlotID) {i len : Nat} (hi : i < len) :
    (slotAt (Store.storage_read host slot 4 (len * 32)) i).raw =
      Store.storage_read host slot (4 + i * 32) 32 := by
  have hpart : ((Store.storage_read host slot 4 (len * 32)).drop (i * 32)).take 32 =
      Store.storage_read host slot (4 + i * 32) 32 := by
    refine List.ext_getElem? fun k => ?_
    rw [List.getElem?_take]
    by_cases hk : k < 32
    · rw [if_pos hk, List.getElem?_drop, Store.getElem?_storage_read host slot 4 (by omega),
        Store.getElem?_storage_read host slot _ hk, Nat.add_assoc]
    · rw [if_neg hk, List.getElem?_eq_none (by
        rw [Store.length_storage_read]
        omega)]
  show (Store.Page.zero.copy 0 (((Store.storage_read host slot 4 (len * 32)).drop
    (i * 32)).take 32)).raw = _
  rw [hpart]
  refine List.ext_getElem? fun k => ?_
  by_cases hk : k < 32
  · have hlen : (Store.storage_read host slot (4 + i * 32) 32).length = 32 :=
      Store.length_storage_read _ _ _ _
    unfold Store.Page.copy
    rw [copyInto_in (Nat.zero_le k) (by omega) (by rw [Store.Page.zero.size]; exact hk),
      Nat.sub_zero]
  · rw [List.getElem?_eq_none (by
      rw [(Store.Page.zero.copy 0 _).size]
      omega), List.getElem?_eq_none (by
      rw [Store.length_storage_read]
      omega)]

theorem SlotID.ext_raw {a b : SlotID} (h : a.raw = b.raw) : a = b := by
  cases a
  cases b
  cases h
  rfl

variable {env : Env} {message : MessageData}

/-- What is refused: nothing to an upgrader, and the locked slots to anyone else. -/
theorem Started.contains_iff (h : Started env message) (slot : SlotID) :
    env.locked_slots slot = true ↔
      ¬ Upgrader env.sha3_256 (env.content .Default message.contract_address)
          message.sender_address ∧
        Locked env.sha3_256 (env.content .Default message.contract_address) slot := by
  obtain ⟨consume_mul, set, hset, henv⟩ := h
  rw [henv]
  unfold get_locked_slots_for_sender at hset
  dsimp only at hset
  by_cases h1 : stored_len (env.content .Default message.contract_address)
      (upgraders_slot env.sha3_256) > TOP_UPGRADERS
  · rw [if_pos h1] at hset
    cases hset
  · rw [if_neg h1] at hset
    by_cases h2 : (List.range (stored_len (env.content .Default message.contract_address)
        (upgraders_slot env.sha3_256))).any fun i =>
          Store.storage_read (env.content .Default message.contract_address)
            (upgraders_slot env.sha3_256) (4 + i * ADDRESS_SIZE) ADDRESS_SIZE =
            message.sender_address.raw
    · rw [if_pos h2] at hset
      obtain rfl := Except.ok.inj hset
      obtain ⟨i, hi, he⟩ := List.any_eq_true.mp h2
      have hup : Upgrader env.sha3_256 (env.content .Default message.contract_address)
          message.sender_address := ⟨i, List.mem_range.mp hi, (of_decide_eq_true he).symm⟩
      constructor
      · intro hc
        cases (BinarySearch.search_iff slotLt_order List.Pairwise.nil slot).mp hc
      · exact fun hc => absurd hup hc.1
    · rw [if_neg h2] at hset
      have hup : ¬ Upgrader env.sha3_256 (env.content .Default message.contract_address)
          message.sender_address := by
        rintro ⟨i, hi, he⟩
        exact h2 (List.any_eq_true.mpr ⟨i, List.mem_range.mpr hi, decide_eq_true he.symm⟩)
      unfold get_locked_slots at hset
      dsimp only at hset
      split at hset
      · cases hset
      · split at hset
        · cases hset
        · obtain rfl := Except.ok.inj hset
          refine (BinarySearch.search_sort slotLt_order _ slot).trans ?_
          rw [and_iff_right hup, List.mem_map]
          constructor
          · rintro ⟨i, hi, rfl⟩
            have hi := List.mem_range.mp hi
            exact ⟨i, hi, slotAt_storage_read _ _ hi⟩
          · rintro ⟨i, hi, he⟩
            exact ⟨i, List.mem_range.mpr hi,
              SlotID.ext_raw ((slotAt_storage_read _ _ hi).trans he.symm)⟩

/-! ## Host calls that leave the storage alone -/

def SamePages (m m' : Machine) : Prop := m'.vm.storage.pages = m.vm.storage.pages

theorem SamePages.refl (m : Machine) : SamePages m m := rfl

theorem SamePages.trans (a b c : Machine) (h1 : SamePages a b) (h2 : SamePages b c) :
    SamePages a c := Eq.trans h2 h1

theorem samePages_bind {α β : Type} {x : HostM α} {f : α → HostM β} (hx : Preserves SamePages x)
    (hf : ∀ a, Preserves SamePages (f a)) : Preserves SamePages (x >>= f) :=
  hx.bind SamePages.trans hf

theorem samePages_orPanic {α : Type} (o : Option α) : Preserves SamePages (orPanic o) :=
  preserves_orPanic SamePages.refl o

theorem samePages_orTrap {α : Type} (o : Option α) : Preserves SamePages (orTrap o) :=
  preserves_orTrap SamePages.refl o

theorem samePages_require (b : Bool) (e : HostError) :
    Preserves SamePages (require b e : HostM Unit) := preserves_require SamePages.refl b e

theorem samePages_fail {α : Type} (e : HostError) : Preserves SamePages (fail e : HostM α) :=
  preserves_fail SamePages.refl e

theorem samePages_pure {α : Type} (a : α) : Preserves SamePages (pure a : HostM α) :=
  preserves_pure SamePages.refl a

theorem samePages_read : Preserves SamePages (read : HostM Machine) :=
  preserves_read SamePages.refl

theorem samePages_update {f : Machine → Machine} (h : ∀ m, SamePages m (f m)) :
    Preserves SamePages (update f : HostM Unit) := preserves_update h

theorem answer_samePages (outside : Except Refusal Reply) : Preserves SamePages (answer outside) :=
  (answer_same outside).mono fun _ _ h => h ▸ rfl

theorem check_balance_samePages (value : Nat) :
    Preserves SamePages (check_balance env value) := by
  intro m r m' h
  obtain ⟨rfl, -⟩ := check_balance_cases h
  rfl

theorem consume_message_fee_samePages (oom : String) (fee_cost : DataLimit → Option (List Nat))
    (i : Nat) (node : MessageAllocationNode) (receipt : MessageReceiptParams) :
    Preserves SamePages (consume_message_fee oom fee_cost i node receipt) := by
  unfold consume_message_fee
  refine samePages_bind samePages_read fun m => ?_
  refine samePages_bind (samePages_orTrap _) fun costs => ?_
  refine samePages_bind (samePages_orPanic _) fun total => ?_
  refine samePages_bind (samePages_require _ _) fun _ => ?_
  refine samePages_bind (samePages_orTrap _) fun receipts => ?_
  refine samePages_bind (samePages_orPanic _) fun charged => ?_
  refine samePages_bind (samePages_update fun _ => rfl) fun _ => ?_
  refine samePages_bind (samePages_require _ _) fun _ => ?_
  refine samePages_bind (samePages_orPanic _) fun budget => ?_
  exact samePages_bind (samePages_update fun _ => rfl) fun _ => samePages_pure _

theorem push_message_samePages (value : Nat) (emission : Nat → Nat → ExecutionEmission)
    (fees : MessageFeeConsumption) : Preserves SamePages (push_message value emission fees) := by
  unfold push_message
  refine samePages_bind (samePages_orPanic _) fun fee => ?_
  refine samePages_bind (samePages_orPanic _) fun receipt => ?_
  exact samePages_bind (samePages_update fun _ => rfl) fun _ => samePages_pure _

/-- The common head of the three messages. -/
theorem send_samePages {value : Nat} {f : Machine → HostM Reply}
    (hf : ∀ m, Preserves SamePages (f m)) :
    Preserves SamePages (do
      let m ← read
      require m.vm.conf.is_deterministic forbidden
      require m.vm.conf.can_send_messages forbidden
      check_balance env value
      f m) := by
  refine samePages_bind samePages_read fun m => ?_
  refine samePages_bind (samePages_require _ _) fun _ => ?_
  refine samePages_bind (samePages_require _ _) fun _ => ?_
  exact samePages_bind (check_balance_samePages value) fun _ => hf m

theorem eth_send_samePages (address : Address) (calldata : Bytes) (value : Nat) :
    Preserves SamePages (eth_send env address calldata value) := by
  unfold eth_send
  refine send_samePages fun m => ?_
  split
  · exact samePages_fail _
  · exact samePages_bind (consume_message_fee_samePages _ _ _ _ _) fun fees =>
      push_message_samePages _ _ fees

theorem post_message_samePages (address : Address) (calldata : Maybe Tree) (value : Nat) (on : On) :
    Preserves SamePages (post_message env address calldata value on) := by
  unfold post_message
  refine send_samePages fun m => ?_
  split
  · exact samePages_fail _
  · exact samePages_bind (consume_message_fee_samePages _ _ _ _ _) fun fees =>
      push_message_samePages _ _ fees

theorem deploy_contract_samePages (calldata : Maybe Tree) (code : Bytes) (value : Nat) (on : On)
    (salt_nonce : Nat) :
    Preserves SamePages (deploy_contract env calldata code value on salt_nonce) := by
  unfold deploy_contract
  refine send_samePages fun m => ?_
  split
  · exact samePages_fail _
  · exact samePages_bind (consume_message_fee_samePages _ _ _ _ _) fun fees =>
      push_message_samePages _ _ fees

theorem emit_event_samePages (topics : List Bytes) (blob : Maybe (List (String × Tree))) :
    Preserves SamePages (emit_event topics blob) := by
  unfold emit_event charge_event
  refine samePages_bind samePages_read fun m => ?_
  refine samePages_bind (samePages_require _ _) fun _ => ?_
  refine samePages_bind (samePages_require _ _) fun _ => ?_
  refine samePages_bind (samePages_require _ _) fun _ => ?_
  refine samePages_bind (samePages_require _ _) fun _ => ?_
  refine samePages_bind samePages_read fun m => ?_
  refine samePages_bind (samePages_orPanic _) fun paid => ?_
  refine samePages_bind (samePages_update fun _ => rfl) fun _ => ?_
  split
  · exact samePages_fail _
  · exact samePages_fail _
  · exact samePages_bind (samePages_update fun _ => rfl) fun _ => samePages_pure _

theorem register_runner_samePages (code : Bytes) (outside : Except Refusal Reply) :
    Preserves SamePages (register_runner env code outside) := by
  unfold register_runner
  refine samePages_bind samePages_read fun m => ?_
  refine samePages_bind (samePages_require _ _) fun _ => ?_
  refine samePages_bind (samePages_require _ _) fun _ => ?_
  refine samePages_bind (answer_samePages outside) fun _ => ?_
  exact samePages_bind (samePages_update fun _ => rfl) fun _ => samePages_pure _

theorem give_nondet_result_samePages (res : RunOk) :
    Preserves SamePages (give_nondet_result res) := by
  unfold give_nondet_result consume_nondet_output
  refine samePages_bind ?_ fun _ => (set_vm_run_result_same res).mono fun _ _ h => h ▸ rfl
  refine samePages_bind samePages_read fun m => ?_
  refine samePages_bind (samePages_orPanic _) fun charged => ?_
  refine samePages_bind (samePages_update fun _ => rfl) fun _ => ?_
  split
  · exact samePages_fail _
  · exact samePages_require _ _

theorem run_nondet_samePages (data_leader data_validator : Bytes) :
    Preserves SamePages (run_nondet env data_leader data_validator) := by
  unfold run_nondet
  refine samePages_bind samePages_read fun m => ?_
  refine samePages_bind (samePages_require _ _) fun _ => ?_
  refine samePages_bind (samePages_update fun _ => rfl) fun _ => ?_
  refine samePages_bind (samePages_require _ _) fun _ => ?_
  have hgive : ∀ res, Preserves SamePages
      (give_nondet_result res >>= fun reply => pure (Next.reply reply)) := fun res =>
    samePages_bind (give_nondet_result_samePages res) fun _ => samePages_pure _
  split
  · split
    · split
      · exact samePages_fail _
      · exact samePages_pure _
    · exact samePages_fail _
  · split
    · exact hgive _
    · exact samePages_bind (samePages_update fun _ => rfl) fun _ => hgive _
  · split
    · exact samePages_fail _
    · split
      · exact hgive _
      · exact samePages_pure _

theorem call_contract_samePages (address : Address) (calldata : Maybe Tree) (state : StorageType) :
    Preserves SamePages (call_contract env address calldata state) := by
  unfold call_contract
  refine samePages_bind samePages_read fun m => ?_
  refine samePages_bind (samePages_require _ _) fun _ => ?_
  refine samePages_bind (samePages_require _ _) fun _ => ?_
  dsimp only
  split
  · exact samePages_fail _
  · exact samePages_pure _

theorem sandbox_samePages (data : Bytes) (runner : String) (w s r : Bool) :
    Preserves SamePages (sandbox env data runner w s r) := by
  unfold sandbox
  refine samePages_bind samePages_read fun m => ?_
  split
  · exact samePages_fail _
  · exact samePages_pure _

/-- Up to the start of a child, no request touches the storage. -/
theorem gl_call_samePages (request : Bytes) (outside : Except Refusal Reply) :
    Preserves SamePages (gl_call env request outside) := by
  have hanswer : Preserves SamePages (answer outside) := answer_samePages outside
  unfold gl_call
  split
  · exact samePages_fail _
  · split
    · exact samePages_fail _
    · next message _ =>
      cases message with
      | EthCall _ _ =>
        exact (samePages_bind samePages_read fun _ => samePages_bind (samePages_require _ _)
          fun _ => samePages_bind (samePages_require _ _) fun _ => hanswer).map
      | CallContract address calldata state => exact call_contract_samePages address calldata state
      | EthSend address calldata value => exact (eth_send_samePages address calldata value).map
      | PostMessage address calldata value on =>
        exact (post_message_samePages address calldata value on).map
      | DeployContract calldata code value on salt_nonce =>
        exact (deploy_contract_samePages calldata code value on salt_nonce).map
      | EmitEvent topics blob => exact (emit_event_samePages topics blob).map
      | RunNondet data_leader data_validator => exact run_nondet_samePages data_leader data_validator
      | Sandbox data runner w s r => exact sandbox_samePages data runner w s r
      | RegisterRunner code => exact (register_runner_samePages code outside).map
      | MapFile _ _ _ =>
        exact (samePages_bind samePages_read fun _ => samePages_bind (samePages_require _ _)
          fun _ => hanswer).map
      | WebRender _ | WebRequest _ | ExecPrompt _ | ExecPromptTemplate _ =>
        exact (samePages_bind samePages_read fun _ => samePages_bind (samePages_require _ _)
          fun _ => hanswer).map
      | UserError _ => exact samePages_fail _
      | Return _ => exact samePages_fail _
      | Trace _ => exact hanswer.map
      | Yield => exact samePages_pure _
      | GetTimestamp =>
        refine Preserves.map (samePages_bind samePages_read fun m => ?_)
        split
        · exact samePages_pure _
        · exact hanswer

/-! ## Locked slots over a run -/

/-- The overlay of a slot is as it was. -/
def Kept (slot : SlotID) (m m' : Machine) : Prop :=
  ∀ key : PageID, key.slot = slot →
    m'.vm.storage.read_page_override key = m.vm.storage.read_page_override key

theorem Kept.refl (slot : SlotID) (m : Machine) : Kept slot m m := fun _ _ => rfl

theorem Kept.trans {slot : SlotID} {a b c : Machine} (h1 : Kept slot a b) (h2 : Kept slot b c) :
    Kept slot a c := fun key hk => (h2 key hk).trans (h1 key hk)

theorem SamePages.kept {m m' : Machine} (h : SamePages m m') (slot : SlotID) : Kept slot m m' := by
  intro key _
  unfold Storage.read_page_override
  rw [h]

theorem Kept.byte {slot : SlotID} {m m' : Machine} (h : Kept slot m m') (host : Content) (a : Nat) :
    m'.vm.storage.byte host slot a = m.vm.storage.byte host slot a := by
  unfold Storage.byte
  rw [h ⟨slot, a / 32⟩ rfl]

/-- Pages of one slot do not show in another. -/
theorem write_page_kept {slot : SlotID} {key : PageID} (hne : key.slot ≠ slot) (value : Store.Page) :
    Store.Keeps (fun p q : Storage × Limits => ∀ k : PageID, k.slot = slot →
      q.1.read_page_override k = p.1.read_page_override k)
      (Store.write_page Limits.consume key value) := by
  have hput : ∀ (s : Storage) (k : PageID), k.slot = slot →
      (s.putPage key value).read_page_override k = s.read_page_override k := by
    intro s k hk
    rw [Store.override_putPage, if_neg]
    rintro rfl
    exact hne hk
  intro p
  obtain ⟨s, l⟩ := p
  unfold Store.write_page
  dsimp only
  split
  · exact hput s
  · split
    · exact hput s
    · exact fun _ _ => rfl

/-- A write to a locked slot is refused, one to another slot leaves it alone. -/
theorem storage_write_kept {slot : SlotID} (hlocked : env.locked_slots slot = true)
    (slot' : SlotID) (index : Nat) (buf : Bytes) :
    Preserves (Kept slot) (storage_write env slot' index buf) := by
  intro m r m' h
  unfold storage_write at h
  rw [run_read_bind] at h
  rcases run_require_bind h with ⟨-, rfl⟩ | ⟨-, h⟩
  · exact Kept.refl slot _
  rcases run_require_bind h with ⟨-, rfl⟩ | ⟨-, h⟩
  · exact Kept.refl slot _
  rcases run_require_bind h with ⟨-, rfl⟩ | ⟨-, h⟩
  · exact Kept.refl slot _
  rcases run_require_bind h with ⟨-, rfl⟩ | ⟨hfree, h⟩
  · exact Kept.refl slot _
  have hne : slot' ≠ slot := by
    rintro rfl
    rw [hlocked] at hfree
    cases hfree
  rw [onStorage_after h]
  exact Store.write_keeps (R := fun p q : Storage × Limits => ∀ k : PageID, k.slot = slot →
      q.1.read_page_override k = p.1.read_page_override k)
    (fun _ _ _ => rfl) (fun _ _ _ h1 h2 k hk => (h2 k hk).trans (h1 k hk)) index buf
    (fun k value _ => write_page_kept hne value) (m.vm.storage, m.shared.limits)

theorem storage_read_samePages (slot : SlotID) (index : Nat) (buf : Bytes) :
    Preserves SamePages (storage_read env slot index buf) := by
  intro m r m' h
  unfold storage_read at h
  rw [run_read_bind] at h
  rcases run_require_bind h with ⟨-, rfl⟩ | ⟨-, h⟩
  · rfl
  rcases run_require_bind h with ⟨-, rfl⟩ | ⟨-, h⟩
  · rfl
  split at h
  · have h := run_update_bind.mp h
    obtain ⟨-, rfl⟩ := run_pure.mp h
    exact Store.read_overlay _ _ _ _ _
  · obtain ⟨-, rfl⟩ := run_pure.mp h
    rfl

section
variable {slot : SlotID}

/-- A request and the child it starts: a sandbox works on the storage of its parent,
every other child on its own. -/
theorem complete_kept {spawn : Spawn}
    (hspawn : ∀ child shared res shared', spawn child shared = .ok (res, shared') →
      Kept slot ⟨child, shared⟩ ⟨res.vm_data, shared'⟩)
    {next : Next} {m m' : Machine} {r : Except HostError Reply} (hfrom : next.From m.vm)
    (h : complete env spawn next m = .ok (r, m')) : Kept slot m m' := by
  cases next with
  | reply reply =>
    obtain ⟨-, rfl⟩ := run_pure.mp h
    exact Kept.refl slot _
  | call_contract child =>
    obtain ⟨res, shared, -, h⟩ := run_after h
    exact SamePages.kept (m := m) (after_call_contract_cases h).pages slot
  | sandbox child =>
    obtain ⟨data, runner_id, w, s, reg, rfl⟩ := hfrom
    obtain ⟨res, shared, hx, h⟩ := run_after h
    have hadopt : Kept slot (m.adopt res.vm_data shared) m' :=
      SamePages.kept (after_sandbox_cases h).2.pages slot
    exact fun key hk => (hadopt key hk).trans (hspawn _ _ _ _ hx key hk)
  | nondet_leader call_no child =>
    obtain ⟨res, shared, -, h⟩ := run_after h
    have hsame := give_nondet_result_samePages _ _ _ _ (run_update_bind.mp h)
    exact SamePages.kept (m := m) hsame slot
  | nondet_validator call_no child leaders_res =>
    have hsame := give_nondet_result_samePages _ _ _ _ (run_update_bind.mp h)
    exact SamePages.kept (m := m) hsame slot

def RunKept (slot : SlotID) (m : Machine) (o : Except Stop (RunResult × Shared)) : Prop :=
  ∀ res shared, o = .ok (res, shared) → Kept slot m ⟨res.vm_data, shared⟩

theorem finish_kept (outcome : Except Fault Unit) (at_end : Snapshot) (m : Machine) :
    RunKept slot m (finish outcome at_end m) := by
  intro res shared h
  unfold finish at h
  split at h
  · cases h
    exact Kept.refl slot _
  · split at h
    · cases h
    · cases h
      exact Kept.refl slot _

theorem proceed_kept {α : Type} {at_trap : Snapshot}
    {k : Except Errno α → Machine → Except Stop (RunResult × Shared)} {x : HostM α} {m : Machine}
    (hx : ∀ r m', x m = .ok (r, m') → Kept slot m m') (hk : ∀ r m', RunKept slot m' (k r m')) :
    RunKept slot m (proceed at_trap k (x m)) := by
  intro res shared h
  unfold proceed at h
  split at h
  · cases h
  · next hm => exact (hx _ _ hm).trans (hk _ _ _ _ h)
  · next hm => exact (hx _ _ hm).trans (hk _ _ _ _ h)
  · next hm => exact (hx _ _ hm).trans (finish_kept _ at_trap _ _ _ h)

theorem spawn_apply_run_kept {run : Machine → Except Stop (RunResult × Shared)}
    (hrun : ∀ m, RunKept slot m (run m)) (m : Machine) :
    RunKept slot m (spawn_apply_run env run m) := by
  have hread : Kept slot m (m.setStorage (Store.read_major
      (env.content m.vm.read_token.mode m.vm.read_token.account) m.vm.storage).2) :=
    SamePages.kept (quiet_setStorage m (Store.read_major_overlay _ _)).pages slot
  intro res shared h
  unfold spawn_apply_run at h
  split at h
  · exact finish_kept _ _ m _ _ h
  · dsimp only at h
    split at h
    · exact hread.trans (finish_kept _ _ _ _ _ h)
    · exact hread.trans (hrun _ _ _ h)

/-- **A run keeps what is locked**, by induction on its program. -/
theorem vm_run_kept (hlocked : env.locked_slots slot = true) (g : Guest) :
    ∀ m, RunKept slot m (vm_run env g m) := by
  induction g with
  | halt outcome at_end => exact fun m => finish_kept _ at_end m
  | gl_call request outside at_trap child k ih ihk =>
    intro m
    refine proceed_kept (fun r m' h => ?_) ihk
    rcases run_bind.mp h with ⟨e, hx, rfl⟩ | ⟨next, m1, hx, h⟩
    · exact (gl_call_samePages request outside _ _ _ hx).kept slot
    · have hfrom := (gl_call_starts request outside _ _ _ hx).2 next rfl
      have hchild := complete_kept (fun data shared res shared' h =>
        spawn_apply_run_kept (ih data) ⟨data, shared⟩ res shared' h) hfrom h
      exact ((gl_call_samePages request outside _ _ _ hx).kept slot).trans hchild
  | storage_read slot' index buf at_trap k ihk =>
    exact fun m => proceed_kept
      (fun r m' h => (storage_read_samePages slot' index buf _ _ _ h).kept slot) ihk
  | storage_write slot' index buf at_trap k ihk =>
    exact fun m => proceed_kept (storage_write_kept hlocked slot' index buf m) ihk
  | get_balance account at_trap k ihk =>
    exact fun m => proceed_kept (fun r m' h => (run_pure.mp h).2 ▸ Kept.refl slot m) ihk
  | get_self_balance at_trap k ihk =>
    exact fun m => proceed_kept (fun r m' h => get_self_balance_same m r m' h ▸ Kept.refl slot m) ihk

end

/-- A write that no lock refuses. -/
def Env.unlocked (env : Env) : Env := { env with locked_slots := fun _ => false }

/-- **Locked slots.** For a sender that is no upgrader: at every point of every VM of
the run a write leaves the overlay of each locked slot as it is, and is refused when
it is to that slot; and whatever the program, the VM with all the VMs below it leaves
every byte of the slot as it was. For an upgrader a write does what it would without
locks. -/
theorem locked_slots_kept (h : Started env message) :
    (¬ Upgrader env.sha3_256 (env.content .Default message.contract_address)
        message.sender_address → ∀ slot,
      Locked env.sha3_256 (env.content .Default message.contract_address) slot →
      (∀ g m above g' m', Reaches env g m above g' m' → ∀ slot' index buf r m'',
        storage_write env slot' index buf m' = .ok (r, m'') →
          Kept slot m' m'' ∧ (slot' = slot → ∃ e, r = .error e ∧ m'' = m')) ∧
      ∀ g m res shared, vm_run env g m = .ok (res, shared) → ∀ host a,
        res.vm_data.storage.byte host slot a = m.vm.storage.byte host slot a) ∧
    (Upgrader env.sha3_256 (env.content .Default message.contract_address)
        message.sender_address → ∀ slot index buf m,
      storage_write env slot index buf m = storage_write env.unlocked slot index buf m) := by
  constructor
  · intro hup slot hl
    have hlocked := (h.contains_iff slot).mpr ⟨hup, hl⟩
    constructor
    · intro g m above g' m' _ slot' index buf r m'' hw
      refine ⟨storage_write_kept hlocked slot' index buf m' r m'' hw, ?_⟩
      rintro rfl
      unfold storage_write at hw
      rw [run_read_bind] at hw
      rcases run_require_bind hw with ⟨rfl, rfl⟩ | ⟨-, hw⟩
      · exact ⟨_, rfl, rfl⟩
      rcases run_require_bind hw with ⟨rfl, rfl⟩ | ⟨-, hw⟩
      · exact ⟨_, rfl, rfl⟩
      rcases run_require_bind hw with ⟨rfl, rfl⟩ | ⟨-, hw⟩
      · exact ⟨_, rfl, rfl⟩
      rcases run_require_bind hw with ⟨rfl, rfl⟩ | ⟨hfree, -⟩
      · exact ⟨_, rfl, rfl⟩
      rw [hlocked] at hfree
      cases hfree
    · intro g m res shared hrun host a
      exact (vm_run_kept hlocked g m res shared hrun).byte host a
  · intro hup slot index buf m
    have hfree : env.locked_slots slot = false := by
      rw [Bool.eq_false_iff]
      exact fun hc => ((h.contains_iff slot).mp hc).1 hup
    unfold storage_write
    rw [hfree]
    rfl

/-- Every slot of the contract holds a 1 and zeros: one upgrader and one locked slot,
both zero. -/
def locked_env : Env :=
  { small_env with
    content := fun _ _ _ a => if a = 0 then 1 else 0
    locked_slots := LockedSlotsSet.contains ⟨BinarySearch.sort slotLt
      ((List.range 1).map (slotAt (Store.storage_read (fun _ a => if a = 0 then 1 else 0)
        SlotID.ZERO 4 32)))⟩ }

/-- A message of a sender that is not zero. -/
def stranger : MessageData :=
  ⟨Address.zero, ⟨List.replicate 20 1, rfl⟩, Address.zero, [], 1, 0, false, 0⟩

def locked_start : Machine :=
  ⟨essential_data { small_entry none with message := stranger } all_permissions
    (.Chain Address.zero .Accepted SlotID.ZERO) Storage.new, Shared.new small_limit⟩

theorem locked_env_started : Started locked_env stranger :=
  ⟨fun _ _ => true, _, rfl, rfl⟩

theorem locked_slots_kept_zero :
    storage_write locked_env SlotID.ZERO 64 [1] locked_start = .ok (.error forbidden, locked_start) ∧
      Kept SlotID.ZERO locked_start locked_start := by
  have hup : ¬ Upgrader locked_env.sha3_256
      (locked_env.content .Default stranger.contract_address) stranger.sender_address := by
    rintro ⟨i, hi, he⟩
    have hi : i < 1 := hi
    obtain rfl : i = 0 := by omega
    exact absurd he (by decide)
  have hl : Locked locked_env.sha3_256
      (locked_env.content .Default stranger.contract_address) SlotID.ZERO :=
    ⟨0, by decide, rfl⟩
  have hlocked := (locked_env_started.contains_iff SlotID.ZERO).mpr ⟨hup, hl⟩
  have hw : storage_write locked_env SlotID.ZERO 64 [1] locked_start =
      .ok (.error forbidden, locked_start) := by
    unfold storage_write
    rw [hlocked]
    rfl
  exact ⟨hw, (((locked_slots_kept locked_env_started).1 hup SlotID.ZERO hl).1 _ locked_start []
    _ locked_start (.start (g := writer locked_start.vm)) SlotID.ZERO 64 [1] _ _ hw).1⟩

end GenVM.Vm
