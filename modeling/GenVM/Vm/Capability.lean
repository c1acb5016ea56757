import GenVM.Vm.Conserve

/-!
# Capabilities

`capabilities_shrink`: the permissions of a VM are among those of the VM that
started it; a VM below a non-deterministic one is refused everything that needs
a deterministic one; a VM without the permission to write leaves the overlay
alone, with everything below it, and one that may not send either leaves the
emissions alone.
-/
namespace GenVM.Vm
open GenVM.Lib GenVM.Calldata GenVM.Fees
open GenVM.Lib.EffectM
open GenVM.Store (SlotID Storage)

variable {env : Env} {entry_data : ExecutionData} {permissions : Permissions}
  {program : SingleVMData → Guest} {d : DataLimit}

/-- The permissions of `a` are among those of `b`. -/
structure Config.Sub (a b : Config) : Prop where
  is_deterministic : a.is_deterministic = true → b.is_deterministic = true
  can_read_storage : a.can_read_storage = true → b.can_read_storage = true
  can_write_storage : a.can_write_storage = true → b.can_write_storage = true
  can_spawn_nondet : a.can_spawn_nondet = true → b.can_spawn_nondet = true
  can_send_messages : a.can_send_messages = true → b.can_send_messages = true
  can_call_others : a.can_call_others = true → b.can_call_others = true
  can_register_runners : a.can_register_runners = true → b.can_register_runners = true

theorem Config.Sub.refl (a : Config) : a.Sub a := ⟨id, id, id, id, id, id, id⟩

theorem Config.Sub.trans {a b c : Config} (h1 : a.Sub b) (h2 : b.Sub c) : a.Sub c :=
  ⟨fun h => h2.1 (h1.1 h), fun h => h2.2 (h1.2 h), fun h => h2.3 (h1.3 h), fun h => h2.4 (h1.4 h),
    fun h => h2.5 (h1.5 h), fun h => h2.6 (h1.6 h), fun h => h2.7 (h1.7 h)⟩

theorem sandbox_child_sub (vm : SingleVMData) (data : Bytes) (runner_id : RunnerId)
    (w s r : Bool) : (sandbox_child vm data runner_id w s r).conf.Sub vm.conf :=
  ⟨id, id, fun h => (Bool.and_eq_true_iff.mp h).1, fun h => (nomatch h),
    fun h => (Bool.and_eq_true_iff.mp h).1, fun h => (nomatch h),
    fun h => (Bool.and_eq_true_iff.mp h).1⟩

theorem Beside.sub {vm child : SingleVMData} (h : Beside vm child) : child.conf.Sub vm.conf := by
  cases h with
  | contract address calldata state storage code_slot hdet _ _ _ =>
    exact ⟨fun _ => hdet, id, fun h => (nomatch h), id, fun h => (nomatch h), id, id⟩
  | nondet =>
    exact ⟨fun h => (nomatch h), id, fun h => (nomatch h), fun h => (nomatch h),
      fun h => (nomatch h), fun h => (nomatch h), fun h => (nomatch h)⟩

/-- The child of a request has no permission its parent lacks. -/
theorem Next.From.sub {vm data : SingleVMData} {next : Next} (h : next.From vm)
    (hc : next.child = some data) : data.conf.Sub vm.conf := by
  cases next with
  | reply reply => cases hc
  | call_contract child =>
    cases hc
    exact Beside.sub h
  | sandbox child =>
    cases hc
    obtain ⟨data, runner_id, w, s, r, rfl⟩ := h
    exact sandbox_child_sub ..
  | nondet_leader call_no child =>
    cases hc
    obtain ⟨hn, data, rfl⟩ := h
    exact (Beside.nondet data none hn).sub
  | nondet_validator call_no child leaders_res =>
    cases hc
    obtain ⟨hn, -, data, rfl⟩ := h
    exact (Beside.nondet data (some leaders_res) hn).sub

/-! ## Below a VM -/

theorem Reaches.sub {g g' : Guest} {m m' : Machine} {above : List ExecutionEmission}
    (h : Reaches env g m above g' m') (hs : Shaped m.data_fees) : m'.vm.conf.Sub m.vm.conf :=
  (h.invariant (P := fun _ m' => m'.vm.conf.Sub m.vm.conf)
    (fun _ _ _ ht h => ht.confined.conf.symm ▸ h)
    (fun _ _ _ _ _ _ _ h => (sandbox_child_sub ..).trans h)
    (fun _ _ _ hb h => hb.sub.trans h) hs (Config.Sub.refl _)).2

/-- A non-deterministic VM may neither write, nor send, nor call, nor spawn, nor
register. -/
def NondetBare (conf : Config) : Prop := conf.is_deterministic = false →
  conf.can_write_storage = false ∧ conf.can_send_messages = false ∧ conf.can_call_others = false ∧
    conf.can_spawn_nondet = false ∧ conf.can_register_runners = false

theorem nondetBare_sandbox {vm : SingleVMData} (h : NondetBare vm.conf) (data : Bytes)
    (runner_id : RunnerId) (w s r : Bool) :
    NondetBare (sandbox_child vm data runner_id w s r).conf := by
  intro hd
  obtain ⟨hw, hs, -, -, hr⟩ := h hd
  have hand : ∀ {a b : Bool}, a = false → (a && b) = false := fun h => by rw [h, Bool.false_and]
  exact ⟨hand hw, hand hs, rfl, rfl, hand hr⟩

theorem nondetBare_beside {vm child : SingleVMData} (h : Beside vm child) :
    NondetBare child.conf := by
  intro hd
  cases h with
  | contract => cases hd
  | nondet => exact ⟨rfl, rfl, rfl, rfl, rfl⟩

theorem InRun.nondetBare {above : List ExecutionEmission} {g : Guest} {m : Machine} (hs : Shaped d)
    (h : InRun env entry_data permissions program d above g m) : NondetBare m.vm.conf := by
  obtain ⟨g0, m0, hbegin, hreach⟩ := h
  obtain ⟨hs0, -, -, hdet, -⟩ := hbegin.start hs
  have hstart : NondetBare m0.vm.conf := fun hd => absurd (hdet.symm.trans hd) (by simp)
  exact (hreach.invariant (P := fun _ m => NondetBare m.vm.conf)
    (fun _ _ _ ht h => ht.confined.conf.symm ▸ h)
    (fun _ m data runner_id w s r h => nondetBare_sandbox h data runner_id w s r)
    (fun _ _ _ hb _ => nondetBare_beside hb) hs0 hstart).2

/-! ## Refusals -/

/-- The requests that need a deterministic VM or the permission to spawn. -/
def Message.NeedsPermission : Message → Prop
  | .EthCall _ _ => True
  | .CallContract _ _ _ => True
  | .EthSend _ _ _ => True
  | .PostMessage _ _ _ _ => True
  | .DeployContract _ _ _ _ _ => True
  | .EmitEvent _ _ => True
  | .RunNondet _ _ => True
  | .RegisterRunner _ => True
  | _ => False

/-- A guard that fails ends the call. -/
theorem refused {α : Type} {b : Machine → Bool} {e : HostError} {f : Machine → Unit → HostM α}
    {x : HostM α} {m : Machine} (hx : x = (read >>= fun m => require (b m) e >>= f m))
    (h : b m = false) : x m = .ok (.error e, m) := by
  subst hx
  show (require (b m) e >>= f m) m = _
  rw [h]
  rfl

/-- A VM below a non-deterministic one is refused whatever changes the chain. -/
theorem nondet_refused {m : Machine} (hd : m.vm.conf.is_deterministic = false)
    (hbare : NondetBare m.vm.conf) :
    (∀ slot index buf, storage_write env slot index buf m = .ok (.error forbidden, m)) ∧
    ∀ message outside, message.NeedsPermission →
      dispatch env outside message m = .ok (.error forbidden, m) := by
  obtain ⟨hw, hsend, hcall, hspawn, hreg⟩ := hbare hd
  refine ⟨fun slot index buf => refused rfl hd, fun message outside hneed => ?_⟩
  have hmap : ∀ {x : HostM Reply}, x m = .ok (.error forbidden, m) →
      (Next.reply <$> x) m = .ok (.error forbidden, m) := fun hx =>
    run_map.mpr (.inl ⟨forbidden, hx, rfl⟩)
  cases message with
  | EthCall _ _ => exact hmap (refused rfl hd)
  | CallContract _ _ _ => exact refused rfl hd
  | EthSend _ _ _ => exact hmap (refused rfl hd)
  | PostMessage _ _ _ _ => exact hmap (refused rfl hd)
  | DeployContract _ _ _ _ _ => exact hmap (refused rfl hd)
  | EmitEvent _ _ => exact hmap (refused rfl hd)
  | RunNondet _ _ => exact refused rfl hspawn
  | RegisterRunner _ => exact hmap (refused rfl hd)
  | _ => exact hneed.elim

/-- **Capabilities.** In every VM of an execution: the VMs it starts, and all VMs
below, have no permission it lacks; if it is not deterministic, no VM below may
change anything on the chain; and its whole subtree leaves the overlay alone when
it may not write, and the emissions when it may not send either. -/
theorem capabilities_shrink {bucket_totals : List Nat} {fees : Category → FeesBucketConfig}
    (hstart : DataLimit.start bucket_totals fees = some d) :
    ∀ above g m, InRun env entry_data permissions program d above g m →
      (∀ request outside next data m', gl_call env request outside m = .ok (.ok next, m') →
        next.child = some data → data.conf.Sub m.vm.conf) ∧
      (∀ above' g' m', Reaches env g m above' g' m' →
        m'.vm.conf.Sub m.vm.conf ∧
        (m.vm.conf.is_deterministic = false →
          (∀ slot index buf, storage_write env slot index buf m' = .ok (.error forbidden, m')) ∧
          ∀ message outside, message.NeedsPermission →
            dispatch env outside message m' = .ok (.error forbidden, m'))) ∧
      (∀ res shared, vm_run env g m = .ok (res, shared) →
        m.vm.conf.can_write_storage = false →
        res.vm_data.storage.pages = m.vm.storage.pages ∧
        (m.vm.conf.can_send_messages = false →
          res.vm_data.accumulator.emissions = m.acc.emissions)) := by
  obtain ⟨hs, -⟩ := start_consumed hstart
  intro above g m hin
  have hsm := hin.shaped hs
  have hbare := hin.nondetBare hs
  refine ⟨?_, ?_, ?_⟩
  · intro request outside next data m' hcall hchild
    obtain ⟨ht, hfrom⟩ := gl_call_starts request outside _ _ _ hcall
    exact (ht hsm).confined.conf ▸ (hfrom next rfl).sub hchild
  · intro above' g' m' hreach
    have hsub := hreach.sub hsm
    refine ⟨hsub, fun hd => ?_⟩
    have hd' : m'.vm.conf.is_deterministic = false := by
      cases hdet : m'.vm.conf.is_deterministic with
      | false => rfl
      | true => exact absurd ((hsub.is_deterministic hdet).symm.trans hd) (by simp)
    have hbare' : NondetBare m'.vm.conf := (hreach.invariant (P := fun _ m => NondetBare m.vm.conf)
      (fun _ _ _ ht h => ht.confined.conf.symm ▸ h)
      (fun _ m data runner_id w s r h => nondetBare_sandbox h data runner_id w s r)
      (fun _ _ _ hb _ => nondetBare_beside hb) hsm hbare).2
    exact nondet_refused hd' hbare'
  · intro res shared hrun hw
    have hf := ((vm_run_traced g m res shared hrun).1 hsm).confined
    exact ⟨(hf.overlay hw).1, fun hsend => hf.emissions hw hsend⟩

/-- The sandbox of a VM that may write may not. -/
theorem capabilities_shrink_sender : ∃ m m1 m2,
    InRun small_env small_forest_entry all_permissions sender small_limit [] (sender m.vm) m ∧
    gl_call small_env (wire sandbox_request) (.ok none) m1 = .ok (.ok (.sandbox (boxed m1)), m1) ∧
    Reaches small_env (sender m.vm) m [] (writer (boxed m1)) m2 ∧
    m.vm.conf.can_write_storage = true ∧ (boxed m1).conf.can_write_storage = false ∧
    (boxed m1).conf.Sub m1.vm.conf ∧ m2.vm.conf.Sub m.vm.conf := by
  obtain ⟨m, m1, m2, hbegin, -, hreach, henter, -, -, hwrite, -⟩ := sender_runs
  have hchild : Reaches small_env (sender m.vm) m [] (writer (boxed m1)) m2 :=
    .child hreach (sandbox_call m1) rfl henter
  have hstart : InRun small_env small_forest_entry all_permissions sender small_limit [] _ m :=
    ⟨_, _, hbegin, .start⟩
  have hsent : InRun small_env small_forest_entry all_permissions sender small_limit [] _ m1 :=
    ⟨_, _, hbegin, hreach⟩
  exact ⟨m, m1, m2, hstart, sandbox_call m1, hchild, hwrite, Bool.and_false _,
    (capabilities_shrink small_start _ _ _ hsent).1 _ _ _ _ _ (sandbox_call m1) rfl,
    ((capabilities_shrink small_start _ _ _ hstart).2.1 _ _ _ hchild).1⟩

end GenVM.Vm
