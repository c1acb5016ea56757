import GenVM.Vm.Traced

/-!
# What a run charges for

* `Trace.confined`: a VM without a permission, with all the VMs below it, leaves
  alone what the permission is about.
* `Trace.ledger`: whatever is charged for a message, an event or a page goes
  along with that message, event or page.
-/
namespace GenVM.Vm
open GenVM.Lib GenVM.Calldata GenVM.Fees
open GenVM.Store (SlotID Storage)

variable {env : Env}

/-! ## Permissions -/

structure Confined (m m' : Machine) : Prop where
  conf : m'.vm.conf = m.vm.conf
  message_data : m'.vm.message_data = m.vm.message_data
  overlay : m.vm.conf.can_write_storage = false →
    m'.vm.storage.pages = m.vm.storage.pages ∧ m'.shared.limits.page_charges = m.shared.limits.page_charges
  accumulator : m.vm.conf.can_send_messages = false →
    m'.acc.messages_value_decremented = m.acc.messages_value_decremented ∧
      m'.acc.message_fee_allocation = m.acc.message_fee_allocation
  emissions : m.vm.conf.can_write_storage = false → m.vm.conf.can_send_messages = false →
    m'.acc.emissions = m.acc.emissions
  categories : m.vm.conf.can_write_storage = false → m.vm.conf.can_send_messages = false →
    ∀ cat, cat ≠ .nondet_output → m'.data_fees.category cat = m.data_fees.category cat
  shared : m.vm.conf.can_write_storage = false → m.vm.conf.can_send_messages = false →
    m.vm.conf.can_spawn_nondet = false → m'.shared = m.shared

theorem Confined.refl (m : Machine) : Confined m m :=
  ⟨rfl, rfl, fun _ => ⟨rfl, rfl⟩, fun _ => ⟨rfl, rfl⟩, fun _ _ => rfl, fun _ _ _ _ => rfl,
    fun _ _ _ => rfl⟩

theorem Confined.trans {a b c : Machine} (h1 : Confined a b) (h2 : Confined b c) : Confined a c := by
  have hc := h1.conf
  refine ⟨h2.conf.trans hc, h2.message_data.trans h1.message_data, fun hw => ?_, fun hs => ?_,
    fun hw hs => ?_, fun hw hs cat hcat => ?_, fun hw hs hn => ?_⟩
  · obtain ⟨p1, q1⟩ := h1.overlay hw
    obtain ⟨p2, q2⟩ := h2.overlay (hc ▸ hw)
    exact ⟨p2.trans p1, q2.trans q1⟩
  · obtain ⟨p1, q1⟩ := h1.accumulator hs
    obtain ⟨p2, q2⟩ := h2.accumulator (hc ▸ hs)
    exact ⟨p2.trans p1, q2.trans q1⟩
  · exact (h2.emissions (hc ▸ hw) (hc ▸ hs)).trans (h1.emissions hw hs)
  · exact (h2.categories (hc ▸ hw) (hc ▸ hs) cat hcat).trans (h1.categories hw hs cat hcat)
  · exact (h2.shared (hc ▸ hw) (hc ▸ hs) (hc ▸ hn)).trans (h1.shared hw hs hn)

/-- A child that runs beside its parent may neither write nor send, and starts
with no emissions and no nodes. -/
theorem Beside.permissions {vm child : SingleVMData} (h : Beside vm child) :
    child.conf.can_write_storage = false ∧ child.conf.can_send_messages = false ∧
      (vm.conf.can_spawn_nondet = false → child.conf.can_spawn_nondet = false) ∧
      child.accumulator.emissions = [] ∧ child.accumulator.message_fee_allocation = [] := by
  cases h with
  | contract => exact ⟨rfl, rfl, id, rfl, rfl⟩
  | nondet _ _ hn => exact ⟨rfl, rfl, fun _ => rfl, rfl, rfl⟩

theorem Quiet.confined {m m' : Machine} (h : Quiet m m') : Confined m m' := by
  have hl := h.limits
  refine ⟨h.conf, h.message_data, fun _ => ⟨h.pages, by rw [hl]⟩, fun _ => ⟨h.value, h.allocation⟩,
    fun _ _ => h.emissions, fun _ _ cat _ => ?_, fun _ _ => h.shared⟩
  rw [h.data_fees]

/-- **Frame.** A subtree of VMs without a permission does not do what it is for. -/
theorem Trace.confined {m m' : Machine} (h : Trace env m m') : Confined m m' := by
  induction h with
  | refl m => exact Confined.refl m
  | trans _ _ ih1 ih2 => exact ih1.trans ih2
  | quiet h => exact h.confined
  | message e h =>
    obtain ⟨i, node, data_fees, -, -, -, -, rfl⟩ := h.paid
    have hno : ∀ {p : Prop}, _ = false → p := fun hs => absurd (h.permitted.symm.trans hs) (by simp)
    exact ⟨rfl, rfl, fun _ => ⟨rfl, rfl⟩, hno, fun _ => hno, fun _ hs => hno hs, fun _ hs => hno hs⟩
  | event e h =>
    obtain ⟨data_fees, -, rfl⟩ := h.paid
    have hno : ∀ {p : Prop}, _ = false → p := fun hs => absurd (h.permitted.symm.trans hs) (by simp)
    exact ⟨rfl, rfl, hno, fun _ => ⟨rfl, rfl⟩, hno, hno, hno⟩
  | write h =>
    obtain ⟨storage, limits, -, rfl⟩ := h.paid
    have hno : ∀ {p : Prop}, _ = false → p := fun hs => absurd (h.permitted.symm.trans hs) (by simp)
    exact ⟨rfl, rfl, hno, fun _ => ⟨rfl, rfl⟩, hno, hno, hno⟩
  | nondet_output data_fees amount hspawn hadd =>
    refine ⟨rfl, rfl, fun _ => ⟨rfl, rfl⟩, fun _ => ⟨rfl, rfl⟩, fun _ _ => rfl,
      fun _ _ cat hcat => hadd.other cat hcat, fun _ _ hn => ?_⟩
    exact absurd (hspawn.symm.trans hn) (by simp)
  | sandbox data runner_id w s r _ ih =>
    -- the sandbox has no permission its parent lacks
    have hand : ∀ {a b : Bool}, a = false → (a && b) = false := fun h => by rw [h, Bool.false_and]
    exact ⟨rfl, rfl, fun hw => ih.overlay (hand hw), fun hs => ih.accumulator (hand hs),
      fun hw hs => ih.emissions (hand hw) (hand hs),
      fun hw hs => ih.categories (hand hw) (hand hs),
      fun hw hs _ => ih.shared (hand hw) (hand hs) rfl⟩
  | beside hb _ ih =>
    obtain ⟨hw, hs, hn, -, -⟩ := hb.permissions
    exact ⟨rfl, rfl, fun _ => ⟨rfl, (ih.overlay hw).2⟩, fun _ => ⟨rfl, rfl⟩, fun _ _ => rfl,
      fun _ _ => ih.categories hw hs, fun _ _ h => ih.shared hw hs (hn h)⟩

/-! ## Sums over emissions -/

def messageFees (es : List ExecutionEmission) : Nat := (es.map (·.message_fee)).sum

def receiptFees (es : List ExecutionEmission) : Nat := (es.map (·.receipt_fee)).sum

def eventFees (es : List ExecutionEmission) : Nat := (es.map (·.storage_fee)).sum

theorem sum_push {f : ExecutionEmission → Nat} (es : List ExecutionEmission)
    (e : ExecutionEmission) : ((es ++ [e]).map f).sum = (es.map f).sum + f e := by
  rw [List.map_append, List.sum_append, List.map_singleton, List.sum_singleton]

/-- What is recorded as consumed moves along with the emissions and the pages. -/
structure Ledger (m m' : Machine) : Prop where
  message_fee : m'.data_fees.consumedOf .message_fee + messageFees m.acc.emissions =
    m.data_fees.consumedOf .message_fee + messageFees m'.acc.emissions
  message_receipt : m'.data_fees.consumedOf .message_receipt + receiptFees m.acc.emissions =
    m.data_fees.consumedOf .message_receipt + receiptFees m'.acc.emissions
  event : m'.data_fees.consumedOf .event + eventFees m.acc.emissions =
    m.data_fees.consumedOf .event + eventFees m'.acc.emissions
  storage : m'.data_fees.consumedOf .storage +
      m.vm.storage.pages.length * DataLimit.page_fee m.data_fees =
    m.data_fees.consumedOf .storage + m'.vm.storage.pages.length * DataLimit.page_fee m.data_fees
  page_charges : m'.shared.limits.page_charges + m.vm.storage.pages.length =
    m.shared.limits.page_charges + m'.vm.storage.pages.length
  page_fee : DataLimit.page_fee m'.data_fees = DataLimit.page_fee m.data_fees
  bounded : m.vm.storage.Bounded → m'.vm.storage.Bounded

theorem Ledger.refl (m : Machine) : Ledger m m := ⟨rfl, rfl, rfl, rfl, rfl, rfl, id⟩

theorem Ledger.trans {a b c : Machine} (h1 : Ledger a b) (h2 : Ledger b c) : Ledger a c := by
  have m1 := h1.message_fee
  have m2 := h2.message_fee
  have r1 := h1.message_receipt
  have r2 := h2.message_receipt
  have e1 := h1.event
  have e2 := h2.event
  have s1 := h1.storage
  have s2 := h2.storage
  have p1 := h1.page_charges
  have p2 := h2.page_charges
  rw [h1.page_fee] at s2
  exact ⟨by omega, by omega, by omega, by omega, by omega, h2.page_fee.trans h1.page_fee,
    fun hb => h2.bounded (h1.bounded hb)⟩

theorem consumedOf_congr {s s' : DataLimit} {cat : Category} (h : s'.category cat = s.category cat) :
    s'.consumedOf cat = s.consumedOf cat := by
  unfold DataLimit.consumedOf
  rw [h]

theorem page_fee_congr {s s' : DataLimit} (h : s'.category .storage = s.category .storage) :
    DataLimit.page_fee s' = DataLimit.page_fee s := by
  unfold DataLimit.page_fee
  rw [h]

/-- Nothing that is reported changed, and nothing was recorded for it. -/
theorem ledger_same {m m' : Machine}
    (hc : ∀ cat, cat ≠ .nondet_output → m'.data_fees.category cat = m.data_fees.category cat)
    (hp : m'.shared.limits.page_charges = m.shared.limits.page_charges)
    (hpages : m'.vm.storage.pages = m.vm.storage.pages)
    (he : m'.acc.emissions = m.acc.emissions) : Ledger m m' := by
  have hsame : ∀ cat, cat ≠ Category.nondet_output →
      m'.data_fees.consumedOf cat = m.data_fees.consumedOf cat := fun cat h =>
    consumedOf_congr (hc cat h)
  have hfee := page_fee_congr (hc .storage (by simp))
  refine ⟨?_, ?_, ?_, ?_, ?_, hfee, fun hb p hmem => ?_⟩
  · rw [hsame .message_fee (by simp), he]
  · rw [hsame .message_receipt (by simp), he]
  · rw [hsame .event (by simp), he]
  · rw [hsame .storage (by simp), hpages]
  · rw [hp, hpages]
  · rw [hpages] at hmem
    exact hb p hmem

/-- **Conservation.** Every charge for a message, an event or a page goes along
with what it was made for, in the whole subtree of VMs. -/
theorem Trace.ledger {m m' : Machine} (h : Trace env m m') : Ledger m m' := by
  induction h with
  | refl m => exact Ledger.refl m
  | trans _ _ ih1 ih2 => exact ih1.trans ih2
  | quiet h =>
    refine ledger_same (fun cat _ => ?_) ?_ h.pages h.emissions
    · rw [h.data_fees]
    · rw [h.limits]
  | @message m m' e h =>
    obtain ⟨i, node, data_fees, -, -, -, hadd, rfl⟩ := h.paid
    have hev := consumedOf_congr (hadd.other .event (by simp) (by simp))
    have hst := consumedOf_congr (hadd.other .storage (by simp) (by simp))
    have hno := h.no_storage_fee
    refine ⟨?_, ?_, ?_, ?_, rfl, page_fee_congr (hadd.other .storage (by simp) (by simp)), id⟩
    · show data_fees.consumedOf .message_fee + _ = _ + messageFees (m.acc.emissions ++ [e])
      rw [hadd.message_fee, messageFees, messageFees, sum_push]
      omega
    · show data_fees.consumedOf .message_receipt + _ = _ + receiptFees (m.acc.emissions ++ [e])
      rw [hadd.message_receipt, receiptFees, receiptFees, sum_push]
      omega
    · show data_fees.consumedOf .event + _ = _ + eventFees (m.acc.emissions ++ [e])
      rw [hev, eventFees, eventFees, sum_push, hno]
      omega
    · show data_fees.consumedOf .storage + _ = _
      rw [hst]
      rfl
  | @event m m' e h =>
    obtain ⟨data_fees, hadd, rfl⟩ := h.paid
    obtain ⟨topics, blob, fee, rfl⟩ := h.event
    have hother := fun cat hc => consumedOf_congr (hadd.other cat hc)
    refine ⟨?_, ?_, ?_, ?_, rfl, page_fee_congr (hadd.other .storage (by simp)), id⟩
    · show data_fees.consumedOf .message_fee + _ = _ + messageFees (m.acc.emissions ++ [_])
      rw [hother .message_fee (by simp), messageFees, messageFees, sum_push]
      rfl
    · show data_fees.consumedOf .message_receipt + _ = _ + receiptFees (m.acc.emissions ++ [_])
      rw [hother .message_receipt (by simp), receiptFees, receiptFees, sum_push]
      rfl
    · show data_fees.consumedOf .event + _ = _ + eventFees (m.acc.emissions ++ [_])
      rw [hadd.here, eventFees, eventFees, sum_push]
      omega
    · show data_fees.consumedOf .storage + _ = _
      rw [hother .storage (by simp)]
      rfl
  | @write m m' h =>
    obtain ⟨storage, limits, hpays, rfl⟩ := h.paid
    obtain ⟨n, hlen, hcharges, hfee⟩ := hpays.new
    have hlen : storage.pages.length = m.vm.storage.pages.length + n := hlen
    have hcharges : limits.page_charges = m.shared.limits.page_charges + n := hcharges
    have hfee : limits.data_fees.consumedOf .storage =
        m.data_fees.consumedOf .storage + n * DataLimit.page_fee m.data_fees := hfee
    have hother := fun cat hc => consumedOf_congr (hpays.other cat hc)
    refine ⟨?_, ?_, ?_, ?_, ?_, page_fee_sameShape hpays.shape, hpays.bounded⟩
    · exact congrArg (· + messageFees m.acc.emissions) (hother .message_fee (by simp))
    · exact congrArg (· + receiptFees m.acc.emissions) (hother .message_receipt (by simp))
    · exact congrArg (· + eventFees m.acc.emissions) (hother .event (by simp))
    · show limits.data_fees.consumedOf .storage + _ = _ + storage.pages.length * _
      rw [hfee, hlen, Nat.add_mul]
      omega
    · show limits.page_charges + _ = m.shared.limits.page_charges + storage.pages.length
      rw [hcharges, hlen]
      omega
  | nondet_output data_fees amount hspawn hadd =>
    exact ledger_same hadd.other rfl rfl rfl
  | sandbox data runner_id w s r _ ih =>
    exact ⟨ih.message_fee, ih.message_receipt, ih.event, ih.storage, ih.page_charges, ih.page_fee,
      ih.bounded⟩
  | beside hb htrace ih =>
    obtain ⟨hw, hs, -, -, -⟩ := hb.permissions
    have hf := htrace.confined
    exact ledger_same (hf.categories hw hs) (hf.overlay hw).2 rfl rfl

end GenVM.Vm
