import GenVM.Vm.Ledger

/-!
# Every VM of a run

`Reaches env g m above g' m'`: in the run of the program `g` from `m`, some VM of
the tree, the first one or one below it, is at `m'` with the program `g'` still
to run. `above` are the emissions of the VMs above that are not in the
accumulator of this one: a sandbox works on the accumulator of its parent, the
other VMs start with an empty one.

An invariant of all these VMs is one that traces keep and that a VM hands on to
the VMs it starts (`Reaches.invariant`).
-/
namespace GenVM.Vm
open GenVM.Lib GenVM.Calldata GenVM.Fees
open GenVM.Lib.EffectM
open GenVM.Store (SlotID Storage)

/-! ## Configurations -/

/-- What a program goes on with, unless the call trapped. -/
def resumed {α : Type} : Except HostError α → Option (Except Errno α)
  | .ok a => some (.ok a)
  | .error (.errno e) => some (.error e)
  | .error (.trap _) => none

/-- How a child of a request runs. -/
def spawned (env : Env) (child : SingleVMData → Guest) : Spawn := fun data shared =>
  spawn_apply_run env (fun m => vm_run env (child data) m) ⟨data, shared⟩

/-- The program goes on after a host call. -/
inductive Resumes (env : Env) : Guest → Machine → Guest → Machine → Prop
  | gl_call {request : Bytes} {outside : Except Refusal Reply} {at_trap : Snapshot}
      {child : SingleVMData → Guest} {k : Except Errno Reply → Guest} {m m' : Machine}
      {r : Except HostError Reply} {a : Except Errno Reply} :
      (Vm.gl_call env request outside >>= complete env (spawned env child)) m = .ok (r, m') →
      resumed r = some a → Resumes env (.gl_call request outside at_trap child k) m (k a) m'
  | storage_read {slot : SlotID} {index : Nat} {buf : Bytes} {at_trap : Snapshot}
      {k : Except Errno Bytes → Guest} {m m' : Machine} {r : Except HostError Bytes}
      {a : Except Errno Bytes} :
      Vm.storage_read env slot index buf m = .ok (r, m') → resumed r = some a →
      Resumes env (.storage_read slot index buf at_trap k) m (k a) m'
  | storage_write {slot : SlotID} {index : Nat} {buf : Bytes} {at_trap : Snapshot}
      {k : Except Errno Unit → Guest} {m m' : Machine} {r : Except HostError Unit}
      {a : Except Errno Unit} :
      Vm.storage_write env slot index buf m = .ok (r, m') → resumed r = some a →
      Resumes env (.storage_write slot index buf at_trap k) m (k a) m'
  | get_balance {account : Address} {at_trap : Snapshot} {k : Except Errno Nat → Guest}
      {m m' : Machine} {r : Except HostError Nat} {a : Except Errno Nat} :
      Vm.get_balance env account m = .ok (r, m') → resumed r = some a →
      Resumes env (.get_balance account at_trap k) m (k a) m'
  | get_self_balance {at_trap : Snapshot} {k : Except Errno Nat → Guest} {m m' : Machine}
      {r : Except HostError Nat} {a : Except Errno Nat} :
      Vm.get_self_balance env m = .ok (r, m') → resumed r = some a →
      Resumes env (.get_self_balance at_trap k) m (k a) m'

def Next.child : Next → Option SingleVMData
  | .reply _ => none
  | .call_contract child => some child
  | .sandbox child => some child
  | .nondet_leader _ child => some child
  | .nondet_validator _ child _ => some child

/-- The emissions above the child. -/
def Next.above (above own : List ExecutionEmission) : Next → List ExecutionEmission
  | .sandbox _ => above
  | _ => above ++ own

/-- A VM gets to its program. -/
def Enters (env : Env) (m m' : Machine) : Prop :=
  m.vm.depth < VM_RECURSION ∧
    (Store.read_major (env.content m.vm.read_token.mode m.vm.read_token.account)
      m.vm.storage).1.toNat = env.node_major ∧
    m' = m.setStorage (Store.read_major
      (env.content m.vm.read_token.mode m.vm.read_token.account) m.vm.storage).2

inductive Reaches (env : Env) (g : Guest) (m : Machine) :
    List ExecutionEmission → Guest → Machine → Prop
  | start : Reaches env g m [] g m
  | resume {above : List ExecutionEmission} {g1 g2 : Guest} {m1 m2 : Machine} :
      Reaches env g m above g1 m1 → Resumes env g1 m1 g2 m2 → Reaches env g m above g2 m2
  | child {above : List ExecutionEmission} {request : Bytes} {outside : Except Refusal Reply}
      {at_trap : Snapshot} {child : SingleVMData → Guest} {k : Except Errno Reply → Guest}
      {m1 m2 m3 : Machine} {next : Next} {data : SingleVMData} :
      Reaches env g m above (.gl_call request outside at_trap child k) m1 →
      gl_call env request outside m1 = .ok (.ok next, m2) → next.child = some data →
      Enters env ⟨data, m2.shared⟩ m3 →
      Reaches env g m (next.above above m2.acc.emissions) (child data) m3

variable {env : Env}

/-! ## Invariants -/

theorem spawned_spawns (child : SingleVMData → Guest) : Spawns env (spawned env child) :=
  fun data shared res shared' h =>
    spawn_apply_run_traced (vm_run_traced (child data)) ⟨data, shared⟩ res shared' h

theorem Resumes.traced {g g' : Guest} {m m' : Machine} (h : Resumes env g m g' m') :
    Traced env m m' := by
  cases h with
  | gl_call hx _ =>
    rcases run_bind.mp hx with ⟨e, hx, -⟩ | ⟨next, m1, hx, h⟩
    · exact (gl_call_starts _ _ _ _ _ hx).1
    · obtain ⟨ht, hfrom⟩ := gl_call_starts _ _ _ _ _ hx
      exact Traced.trans _ _ _ ht (complete_traced (spawned_spawns _) (hfrom next rfl) h)
  | storage_read hx _ => exact storage_read_traced _ _ _ _ _ _ hx
  | storage_write hx _ => exact storage_write_traced _ _ _ _ _ _ hx
  | get_balance hx _ => exact get_balance_traced _ _ _ _ hx
  | get_self_balance hx _ => exact get_self_balance_traced _ _ _ hx

theorem Enters.quiet {m m' : Machine} (h : Enters env m m') : Quiet m m' := by
  obtain ⟨-, -, rfl⟩ := h
  exact quiet_setStorage m (Store.read_major_overlay _ _)

/-- **Invariants of a run.** -/
theorem Reaches.invariant {P : List ExecutionEmission → Machine → Prop}
    (htrace : ∀ above m m', Trace env m m' → P above m → P above m')
    (hsandbox : ∀ above m data runner_id w s r, P above m →
      P above ⟨sandbox_child m.vm data runner_id w s r, m.shared⟩)
    (hbeside : ∀ above m child, Beside m.vm child → P above m →
      P (above ++ m.acc.emissions) ⟨child, m.shared⟩)
    {g g' : Guest} {m m' : Machine} {above : List ExecutionEmission}
    (h : Reaches env g m above g' m') (hs : Shaped m.data_fees) (hp : P [] m) :
    Shaped m'.data_fees ∧ P above m' := by
  induction h with
  | start => exact ⟨hs, hp⟩
  | resume _ hr ih =>
    have ht := hr.traced ih.1
    exact ⟨ht.sameShape.shaped ih.1, htrace _ _ _ ht ih.2⟩
  | @child above request outside at_trap child k m1 m2 m3 next data _ hx hchild henter ih =>
    obtain ⟨htraced, hfrom⟩ := gl_call_starts request outside _ _ _ hx
    have ht := htraced ih.1
    have hp2 := htrace _ _ _ ht ih.2
    have hs2 := ht.sameShape.shaped ih.1
    have hq := henter.quiet
    have hs3 : Shaped m3.data_fees := hq.data_fees ▸ hs2
    refine ⟨hs3, htrace _ _ _ (.quiet hq) ?_⟩
    have hfrom := hfrom next rfl
    cases next with
    | reply reply => cases hchild
    | call_contract child =>
      cases hchild
      exact hbeside _ _ _ hfrom hp2
    | sandbox child =>
      cases hchild
      obtain ⟨data, runner_id, w, s, r, rfl⟩ := hfrom
      exact hsandbox _ _ _ _ _ _ _ hp2
    | nondet_leader call_no child =>
      cases hchild
      obtain ⟨hn, data, rfl⟩ := hfrom
      exact hbeside _ _ _ (.nondet data none hn) hp2
    | nondet_validator call_no child leaders_res =>
      cases hchild
      obtain ⟨hn, -, data, rfl⟩ := hfrom
      exact hbeside _ _ _ (.nondet data _ hn) hp2

end GenVM.Vm
