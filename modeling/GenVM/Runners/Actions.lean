import GenVM.Lib.Dfs
import GenVM.Lib.SortedMap

/-!
# Applying init actions (`executor/src/runners/actions.rs`, `executor/src/rt/supervisor/actions.rs`)

A VM is set up by its runner's actions. `Depends` applies another runner's
actions unless that runner was visited before; `With` applies an action with
another runner's archive and visits nothing. What the actions do to the VM
(mapping, linking, starting) and how archives are found and loaded are
parameters: each may fail and may change the VM, but a runner id resolves to the
same runner and a runner has the same actions throughout.

**Log.** `Ctx.log` is what has happened so far: each action applied, with the
runner whose archive it sees, and each runner applied through `Depends`.

**Results.**
* `apply_run`: applying ends and logs a depth-first execution, up to where it
  stops.
* `apply_terminates`: over finitely many runners, from no visited runners.
-/
namespace GenVM.Runners
open GenVM.Lib
open GenVM.Lib.Dfs (Item Runs nodes unvisited)

inductive WasmMode where
  | det | nondet
  deriving DecidableEq

/-- mirrors executor/src/runners/actions.rs:10-35 -/
inductive InitAction where
  | mapFile (target file : String)
  | addEnv (name val : String)
  | setArgs (args : List String)
  | depends (uid : String)
  | linkWasm (path : String)
  | startWasm (path : String)
  | when (cond : WasmMode) (action : InitAction)
  | seq (acts : List InitAction)
  | withRunner (runner : String) (action : InitAction)

abbrev Environ := List (String × String)

/-- The VM, the runner cache and the supervisor, as far as actions use them. -/
structure World (Id Arch Inst ε σ : Type) where
  is_deterministic : Bool
  /-- the canonical id that a runner id stands for -/
  target : String → Id
  /-- the actions of a runner's `runner.json` -/
  actions : Id → InitAction
  resolve_runner : String → σ → Except ε Unit × σ
  get_arch : Id → σ → Except ε Arch × σ
  get_actions : Arch → σ → Except ε Unit × σ
  map_archive_file : Arch → String → String → σ → Except ε Unit × σ
  patch_str : Environ → String → Except ε String
  set_args : List String → σ → Except ε Unit × σ
  set_env : Environ → σ → Except ε Unit × σ
  link_wasm : Arch → Id → String → σ → Except ε Unit × σ
  start_wasm : Arch → Id → String → σ → Except ε Inst × σ

variable {Id Arch Inst ε σ : Type}

abbrev Event (Id : Type) := Item Id (Id × InitAction)

structure Ctx (Id σ : Type) where
  env : Environ
  visited : List Id
  vm : σ
  log : List (Event Id)

def Ctx.did (ctx : Ctx Id σ) (event : Event Id) : Ctx Id σ := { ctx with log := ctx.log ++ [event] }

abbrev Applied (Id Inst ε σ : Type) := Except ε (Option Inst) × Ctx Id σ

/-- An action that only does something to the VM. -/
def onVm (ctx : Ctx Id σ) : Except ε Unit × σ → Applied Id Inst ε σ
  | (.ok _, vm) => (.ok none, { ctx with vm := vm })
  | (.error e, vm) => (.error e, { ctx with vm := vm })

variable (W : World Id Arch Inst ε σ)

section
variable [DecidableEq Id]

mutual

/-- mirrors executor/src/rt/supervisor/actions.rs:522-680 -/
def apply : Nat → InitAction → Id → Arch → Ctx Id σ → Option (Applied Id Inst ε σ)
  | 0, _, _, _, _ => none
  | _ + 1, .mapFile target file, current, arch, ctx =>
    some (onVm (ctx.did (.act (current, .mapFile target file)))
      (W.map_archive_file arch file target ctx.vm))
  | _ + 1, .addEnv name val, current, _, ctx =>
    let ctx := ctx.did (.act (current, .addEnv name val))
    match W.patch_str ctx.env val with
    | .error e => some (.error e, ctx)
    | .ok new_val =>
      some (.ok none, { ctx with env := SortedMap.insert (fun a b : String => a < b) name new_val ctx.env })
  | _ + 1, .setArgs args, current, _, ctx =>
    some (onVm (ctx.did (.act (current, .setArgs args))) (W.set_args args ctx.vm))
  | _ + 1, .linkWasm path, current, arch, ctx =>
    some (onVm (ctx.did (.act (current, .linkWasm path))) (W.link_wasm arch current path ctx.vm))
  | _ + 1, .startWasm path, current, arch, ctx =>
    let ctx := ctx.did (.act (current, .startWasm path))
    match W.set_env ctx.env ctx.vm with
    | (.error e, vm) => some (.error e, { ctx with vm := vm })
    | (.ok _, vm) =>
      match W.start_wasm arch current path vm with
      | (.error e, vm) => some (.error e, { ctx with vm := vm })
      | (.ok inst, vm) => some (.ok (some inst), { ctx with vm := vm })
  | fuel + 1, .when cond action, current, arch, ctx =>
    if decide (cond = .det) ≠ W.is_deterministic then some (.ok none, ctx)
    else apply fuel action current arch ctx
  | fuel + 1, .seq acts, current, arch, ctx => applySeq fuel acts current arch ctx
  | fuel + 1, .withRunner runner action, _, _, ctx =>
    match W.resolve_runner runner ctx.vm with
    | (.error e, vm) => some (.error e, { ctx with vm := vm })
    | (.ok _, vm) =>
      match W.get_arch (W.target runner) vm with
      | (.error e, vm) => some (.error e, { ctx with vm := vm })
      | (.ok new_arch, vm) => apply fuel action (W.target runner) new_arch { ctx with vm := vm }
  | fuel + 1, .depends uid, _, _, ctx =>
    match W.resolve_runner uid ctx.vm with
    | (.error e, vm) => some (.error e, { ctx with vm := vm })
    | (.ok _, vm) =>
      if W.target uid ∈ ctx.visited then some (.ok none, { ctx with vm := vm })
      else
        let ctx := { ctx with vm := vm, visited := W.target uid :: ctx.visited }
        match W.get_arch (W.target uid) ctx.vm with
        | (.error e, vm) => some (.error e, { ctx with vm := vm })
        | (.ok new_arch, vm) =>
          match W.get_actions new_arch vm with
          | (.error e, vm) => some (.error e, { ctx with vm := vm })
          | (.ok _, vm) =>
            apply fuel (W.actions (W.target uid)) (W.target uid) new_arch
              (Ctx.did { ctx with vm := vm } (.node (W.target uid)))

/-- mirrors executor/src/rt/supervisor/actions.rs:628-636 -/
def applySeq : Nat → List InitAction → Id → Arch → Ctx Id σ → Option (Applied Id Inst ε σ)
  | 0, _, _, _, _ => none
  | _ + 1, [], _, _, ctx => some (.ok none, ctx)
  | fuel + 1, act :: acts, current, arch, ctx =>
    match apply fuel act current arch ctx with
    | none => none
    | some (.error e, ctx) => some (.error e, ctx)
    | some (.ok (some x), ctx) => some (.ok (some x), ctx)
    | some (.ok none, ctx) => applySeq fuel acts current arch ctx

end

end

/-! ## The graph of a world -/

mutual

/-- An action's script: its acts in order, and the runners it depends on. -/
def script : InitAction → Id → List (Event Id)
  | .mapFile target file, current => [.act (current, .mapFile target file)]
  | .addEnv name val, current => [.act (current, .addEnv name val)]
  | .setArgs args, current => [.act (current, .setArgs args)]
  | .linkWasm path, current => [.act (current, .linkWasm path)]
  | .startWasm path, current => [.act (current, .startWasm path)]
  | .when cond action, current =>
    if decide (cond = .det) ≠ W.is_deterministic then [] else script action current
  | .seq acts, current => scriptSeq acts current
  | .withRunner runner action, _ => script action (W.target runner)
  | .depends uid, _ => [.node (W.target uid)]

def scriptSeq : List InitAction → Id → List (Event Id)
  | [], _ => []
  | act :: acts, current => script act current ++ scriptSeq acts current

end

/-- The script of a runner. -/
def runnerScript (id : Id) : List (Event Id) := script W (W.actions id) id

/-- What was logged is the depth-first execution of `items`, up to where it
stopped; all of it when nothing stopped it. -/
def Logged (ctx : Ctx Id σ) (items : List (Event Id)) (r : Applied Id Inst ε σ) : Prop :=
  ∃ es all visited, r.2.log = ctx.log ++ es ∧ Runs (runnerScript W) ctx.visited items all visited ∧
    es <+: all ∧ (r.1 = .ok none → es = all ∧ r.2.visited = visited)

variable {W}

/-- The runners there are. -/
def Finitely (W : World Id Arch Inst ε σ) (runners : List Id) : Prop := ∀ uid, W.target uid ∈ runners

mutual

theorem nodes_script {runners : List Id} (h : Finitely W runners) :
    ∀ (action : InitAction) (current : Id), ∀ m ∈ nodes (script W action current), m ∈ runners
  | .mapFile _ _, _, _, hm => absurd hm List.not_mem_nil
  | .addEnv _ _, _, _, hm => absurd hm List.not_mem_nil
  | .setArgs _, _, _, hm => absurd hm List.not_mem_nil
  | .linkWasm _, _, _, hm => absurd hm List.not_mem_nil
  | .startWasm _, _, _, hm => absurd hm List.not_mem_nil
  | .when cond action, current, m, hm => by
    rw [script] at hm
    split at hm
    · exact absurd hm List.not_mem_nil
    · exact nodes_script h action current m hm
  | .seq acts, current, m, hm => by
    rw [script] at hm
    exact nodes_scriptSeq h acts current m hm
  | .withRunner runner action, _, m, hm => by
    rw [script] at hm
    exact nodes_script h action (W.target runner) m hm
  | .depends uid, _, m, hm => by
    rw [script, Dfs.nodes_node, Dfs.nodes_nil, List.mem_singleton] at hm
    exact hm ▸ h uid

theorem nodes_scriptSeq {runners : List Id} (h : Finitely W runners) :
    ∀ (acts : List InitAction) (current : Id), ∀ m ∈ nodes (scriptSeq W acts current), m ∈ runners
  | [], _, _, hm => absurd hm List.not_mem_nil
  | act :: acts, current, m, hm => by
    rw [scriptSeq, Dfs.nodes_append] at hm
    rcases List.mem_append.mp hm with hm | hm
    · exact nodes_script h act current m hm
    · exact nodes_scriptSeq h acts current m hm

end

/-! ## One action -/

/-- One act was logged, whatever came of it. -/
theorem Logged.of_act {ctx : Ctx Id σ} {a : Id × InitAction} {r : Applied Id Inst ε σ}
    (hlog : r.2.log = ctx.log ++ [.act a]) (hvisited : r.2.visited = ctx.visited) :
    Logged W ctx [.act a] r :=
  ⟨[.act a], [.act a], ctx.visited, hlog, .act .nil, List.prefix_refl _, fun _ => ⟨rfl, hvisited⟩⟩

theorem Logged.of_onVm {ctx : Ctx Id σ} {a : Id × InitAction} (r : Except ε Unit × σ) :
    Logged W ctx [.act a] (onVm (ctx.did (.act a)) r : Applied Id Inst ε σ) := by
  obtain ⟨r, vm⟩ := r
  cases r with
  | error e => exact .of_act rfl rfl
  | ok _ => exact .of_act rfl rfl

theorem Logged.append {ctx ctx' : Ctx Id σ} {xs ys : List (Event Id)} {r : Applied Id Inst ε σ}
    (h : Logged W ctx xs ((.ok none, ctx') : Applied Id Inst ε σ)) (hr : Logged W ctx' ys r) :
    Logged W ctx (xs ++ ys) r := by
  obtain ⟨es, all, v, hlog, hrun, _, hok⟩ := h
  obtain ⟨rfl, hv⟩ := hok rfl
  obtain ⟨es', all', v', hlog', hrun', hpre', hok'⟩ := hr
  dsimp only at hlog hv
  rw [hv] at hrun'
  refine ⟨es ++ es', es ++ all', v', ?_, hrun.append hrun', ?_, fun hr => ?_⟩
  · rw [hlog', hlog, List.append_assoc]
  · exact (List.prefix_append_right_inj es).mpr hpre'
  · obtain ⟨rfl, hv'⟩ := hok' hr
    exact ⟨rfl, hv'⟩

theorem Logged.enter {ctx ctx' : Ctx Id σ} {id : Id} {r : Applied Id Inst ε σ} (hid : id ∉ ctx.visited)
    (hlog : ctx'.log = ctx.log ++ [.node id]) (hvisited : ctx'.visited = id :: ctx.visited)
    (hr : Logged W ctx' (runnerScript W id) r) : Logged W ctx [.node id] r := by
  obtain ⟨es, all, v, hlog', hrun, hpre, hok⟩ := hr
  rw [hvisited] at hrun
  refine ⟨.node id :: es, .node id :: (all ++ []), v, ?_, .enter hid hrun .nil, ?_, fun hr => ?_⟩
  · rw [hlog', hlog, List.append_assoc, List.singleton_append]
  · rw [List.append_nil]
    exact List.cons_prefix_cons.mpr ⟨rfl, hpre⟩
  · obtain ⟨rfl, hv⟩ := hok hr
    rw [List.append_nil]
    exact ⟨rfl, hv⟩

variable [DecidableEq Id]

theorem run_exists {runners : List Id} (h : Finitely W runners) (v : List Id)
    {items : List (Event Id)} (hitems : ∀ m ∈ nodes items, m ∈ runners) :
    ∃ es v', Runs (runnerScript W) v items es v' :=
  Dfs.exists_of_finite (fun n => nodes_script h (W.actions n) n) _ v (le_refl _) items hitems

/-- Nothing was logged and an error stopped it. -/
theorem Logged.of_error {runners : List Id} (h : Finitely W runners) {ctx ctx' : Ctx Id σ}
    {items : List (Event Id)} (hitems : ∀ m ∈ nodes items, m ∈ runners) {e : ε}
    (hlog : ctx'.log = ctx.log) : Logged W ctx items (.error e, ctx') := by
  obtain ⟨all, v', hrun⟩ := run_exists h ctx.visited hitems
  refine ⟨[], all, v', ?_, hrun, List.nil_prefix, fun hr => nomatch hr⟩
  rw [hlog, List.append_nil]

/-- What follows is not reached. -/
theorem Logged.stop {runners : List Id} (h : Finitely W runners) {ctx : Ctx Id σ}
    {xs ys : List (Event Id)} (hys : ∀ m ∈ nodes ys, m ∈ runners) {r : Applied Id Inst ε σ}
    (hr : Logged W ctx xs r) (hstop : r.1 ≠ .ok none) : Logged W ctx (xs ++ ys) r := by
  obtain ⟨es, all, v, hlog, hrun, hpre, _⟩ := hr
  obtain ⟨all', v', hrun'⟩ := run_exists h v hys
  exact ⟨es, all ++ all', v', hlog, hrun.append hrun', hpre.trans (List.prefix_append _ _),
    fun hok => absurd hok hstop⟩

/-- With enough fuel there is a result. -/
def Ends {α : Type} (f : Nat → Option α) (r : α) : Prop := ∃ k, ∀ m, k ≤ m → f m = some r

theorem Ends.of_step {α : Type} {f : Nat → Option α} {r : α} (h : ∀ m, f (m + 1) = some r) :
    Ends f r := by
  refine ⟨1, fun m hm => ?_⟩
  obtain ⟨m, rfl⟩ := Nat.exists_eq_add_of_le' hm
  exact h m

theorem Ends.step {α : Type} {f g : Nat → Option α} {r : α} (h : Ends g r)
    (hf : ∀ m, f (m + 1) = g m) : Ends f r := by
  obtain ⟨k, h⟩ := h
  refine ⟨k + 1, fun m hm => ?_⟩
  obtain ⟨m, rfl⟩ := Nat.exists_eq_add_of_le' (Nat.le_of_add_left_le hm)
  rw [hf]
  exact h m (by omega)

/-! ## All actions

The induction is on the runners not visited yet, and for as many on the action:
`Depends` visits a runner, every other form applies smaller actions. -/

mutual

theorem apply_run {runners : List Id} (h : Finitely W runners) (k : Nat) :
    ∀ (action : InitAction) (current : Id) (arch : Arch) (ctx : Ctx Id σ),
      unvisited runners ctx.visited ≤ k →
      ∃ r, Ends (fun fuel => apply W fuel action current arch ctx) r ∧
        Logged W ctx (script W action current) r
  | .mapFile target file, current, arch, ctx, _ => ⟨_, .of_step fun _ => rfl, .of_onVm _⟩
  | .setArgs args, current, arch, ctx, _ => ⟨_, .of_step fun _ => rfl, .of_onVm _⟩
  | .linkWasm path, current, arch, ctx, _ => ⟨_, .of_step fun _ => rfl, .of_onVm _⟩
  | .addEnv name val, current, arch, ctx, _ => by
    cases hpatch : W.patch_str (ctx.did (.act (current, .addEnv name val))).env val with
    | error e =>
      exact ⟨_, .of_step fun _ => by rw [apply, hpatch], .of_act rfl rfl⟩
    | ok new_val =>
      exact ⟨_, .of_step fun _ => by rw [apply, hpatch], .of_act rfl rfl⟩
  | .startWasm path, current, arch, ctx, _ => by
    rcases henv : W.set_env ctx.env ctx.vm with ⟨e | _, vm⟩
    · exact ⟨_, .of_step fun _ => by rw [apply]; dsimp only [Ctx.did]; rw [henv], .of_act rfl rfl⟩
    · rcases hstart : W.start_wasm arch current path vm with ⟨e | inst, vm'⟩
      · exact ⟨_, .of_step fun _ => by rw [apply]; dsimp only [Ctx.did]; rw [henv]; dsimp only; rw [hstart],
          .of_act rfl rfl⟩
      · exact ⟨_, .of_step fun _ => by rw [apply]; dsimp only [Ctx.did]; rw [henv]; dsimp only; rw [hstart],
          .of_act rfl rfl⟩
  | .when cond action, current, arch, ctx, hk => by
    by_cases hcond : decide (cond = .det) ≠ W.is_deterministic
    · refine ⟨_, .of_step fun _ => by rw [apply, if_pos hcond], ?_⟩
      rw [script, if_pos hcond]
      exact ⟨[], [], ctx.visited, (List.append_nil _).symm, .nil, List.prefix_refl _, fun _ => ⟨rfl, rfl⟩⟩
    · obtain ⟨r, hends, hlogged⟩ := apply_run h k action current arch ctx hk
      refine ⟨r, hends.step fun m => by rw [apply, if_neg hcond], ?_⟩
      rw [script, if_neg hcond]
      exact hlogged
  | .seq acts, current, arch, ctx, hk => by
    obtain ⟨r, hends, hlogged⟩ := applySeq_run h k acts current arch ctx hk
    refine ⟨r, hends.step fun m => by rw [apply], ?_⟩
    rw [script]
    exact hlogged
  | .withRunner runner action, current, arch, ctx, hk => by
    have hitems := nodes_script h (.withRunner runner action) current
    rcases hres : W.resolve_runner runner ctx.vm with ⟨e | _, vm⟩
    · exact ⟨(.error e, { ctx with vm := vm }), .of_step fun _ => by rw [apply, hres],
        .of_error h hitems rfl⟩
    · rcases harch : W.get_arch (W.target runner) vm with ⟨e | new_arch, vm'⟩
      · exact ⟨(.error e, { ctx with vm := vm' }),
          .of_step fun _ => by rw [apply, hres]; dsimp only; rw [harch], .of_error h hitems rfl⟩
      · obtain ⟨r, hends, hlogged⟩ := apply_run h k action (W.target runner) new_arch
          { ctx with vm := vm' } hk
        refine ⟨r, hends.step fun m => by rw [apply, hres]; dsimp only; rw [harch], ?_⟩
        rw [script]
        exact hlogged
  | .depends uid, current, arch, ctx, hk => by
    have hitems := nodes_script h (.depends uid) current
    rcases hres : W.resolve_runner uid ctx.vm with ⟨e | _, vm⟩
    · exact ⟨(.error e, { ctx with vm := vm }), .of_step fun _ => by rw [apply, hres],
        .of_error h hitems rfl⟩
    · by_cases hseen : W.target uid ∈ ctx.visited
      · refine ⟨(.ok none, { ctx with vm := vm }),
          .of_step fun _ => by rw [apply, hres]; dsimp only; rw [if_pos hseen], ?_⟩
        rw [script]
        exact ⟨[], [], ctx.visited, (List.append_nil _).symm, .seen hseen .nil, List.prefix_refl _,
          fun _ => ⟨rfl, rfl⟩⟩
      · rcases harch : W.get_arch (W.target uid) vm with ⟨e | new_arch, vm'⟩
        · exact ⟨(.error e, { ctx with vm := vm', visited := W.target uid :: ctx.visited }),
            .of_step fun _ => by rw [apply, hres]; dsimp only; rw [if_neg hseen, harch],
            .of_error h hitems rfl⟩
        · rcases hacts : W.get_actions new_arch vm' with ⟨e | _, vm''⟩
          · exact ⟨(.error e, { ctx with vm := vm'', visited := W.target uid :: ctx.visited }),
              .of_step fun _ => by
              rw [apply, hres]; dsimp only; rw [if_neg hseen, harch]; dsimp only; rw [hacts],
              .of_error h hitems rfl⟩
          · have hlt : unvisited runners (W.target uid :: ctx.visited) < k :=
              Nat.lt_of_lt_of_le (Dfs.unvisited_lt (h uid) hseen) hk
            obtain ⟨r, hends, hlogged⟩ := apply_run h (unvisited runners (W.target uid :: ctx.visited))
              (W.actions (W.target uid)) (W.target uid) new_arch
              (Ctx.did { ctx with visited := W.target uid :: ctx.visited, vm := vm'' } (.node (W.target uid)))
              (le_refl _)
            refine ⟨r, hends.step fun m => by
              rw [apply, hres]; dsimp only; rw [if_neg hseen, harch]; dsimp only; rw [hacts], ?_⟩
            rw [script]
            exact .enter hseen rfl rfl hlogged
termination_by action => (k, sizeOf action)

theorem applySeq_run {runners : List Id} (h : Finitely W runners) (k : Nat) :
    ∀ (acts : List InitAction) (current : Id) (arch : Arch) (ctx : Ctx Id σ),
      unvisited runners ctx.visited ≤ k →
      ∃ r, Ends (fun fuel => applySeq W fuel acts current arch ctx) r ∧
        Logged W ctx (scriptSeq W acts current) r
  | [], current, arch, ctx, _ => by
    refine ⟨_, .of_step fun _ => rfl, ?_⟩
    rw [scriptSeq]
    exact ⟨[], [], ctx.visited, (List.append_nil _).symm, .nil, List.prefix_refl _, fun _ => ⟨rfl, rfl⟩⟩
  | act :: acts, current, arch, ctx, hk => by
    obtain ⟨⟨res, ctx'⟩, ⟨n, hends⟩, hlogged⟩ := apply_run h k act current arch ctx hk
    have hrest := nodes_scriptSeq h acts current
    rw [scriptSeq]
    rcases res with e | _ | x
    · refine ⟨(.error e, ctx'), ⟨n + 1, fun m hm => ?_⟩, hlogged.stop h hrest fun hok => nomatch hok⟩
      obtain ⟨m, rfl⟩ := Nat.exists_eq_add_of_le' (Nat.le_of_add_left_le hm)
      dsimp only at hends ⊢
      rw [applySeq, hends m (by omega)]
    · have hk' : unvisited runners ctx'.visited ≤ k := by
        obtain ⟨_, _, _, _, hrun, _, hok⟩ := hlogged
        have hv := (hok rfl).2
        dsimp only at hv
        exact (Dfs.unvisited_le (hv ▸ hrun.subset)).trans hk
      obtain ⟨r, ⟨n', hends'⟩, hlogged'⟩ := applySeq_run h k acts current arch ctx' hk'
      refine ⟨r, ⟨n + n' + 1, fun m hm => ?_⟩, hlogged.append hlogged'⟩
      obtain ⟨m, rfl⟩ := Nat.exists_eq_add_of_le' (Nat.le_of_add_left_le hm)
      dsimp only at hends hends' ⊢
      rw [applySeq, hends m (by omega)]
      exact hends' m (by omega)
    · refine ⟨(.ok (some x), ctx'), ⟨n + 1, fun m hm => ?_⟩, hlogged.stop h hrest fun hok => nomatch hok⟩
      obtain ⟨m, rfl⟩ := Nat.exists_eq_add_of_le' (Nat.le_of_add_left_le hm)
      dsimp only at hends ⊢
      rw [applySeq, hends m (by omega)]
termination_by acts => (k, sizeOf acts)

end

/-! ## Applying the start runner's actions -/

/-- Over finitely many runners, whatever depends on what, applying ends, with
any result; no runner is applied through `Depends` twice; what is done is the
depth-first execution of the actions, up to where an error or a start stops it.
When nothing stops it, the runners applied are all that can be reached. -/
theorem apply_terminates {runners : List Id} (hfinite : ∀ uid, W.target uid ∈ runners)
    (action : InitAction) (current : Id) (arch : Arch) (vm : σ) :
    ∃ r : Applied Id Inst ε σ,
      (∃ k, ∀ fuel, k ≤ fuel → apply W fuel action current arch ⟨[], [], vm, []⟩ = some r) ∧
      (nodes r.2.log).Nodup ∧
      (∃ all visited, Runs (runnerScript W) [] (script W action current) all visited ∧
        r.2.log <+: all ∧ (r.1 = .ok none → r.2.log = all)) ∧
      (r.1 = .ok none → ∀ id, id ∈ nodes r.2.log ↔ ∃ m ∈ nodes (script W action current),
        Relation.ReflTransGen (fun a b => b ∈ nodes (runnerScript W a)) m id) := by
  obtain ⟨r, hends, es, all, visited, hlog, hrun, hpre, hok⟩ :=
    apply_run hfinite _ action current arch ⟨[], [], vm, []⟩ (le_refl _)
  rw [List.nil_append] at hlog
  have hsub : nodes es <+: nodes all := hpre.filterMap _
  refine ⟨r, hends, ?_, ⟨all, visited, hrun, ?_, fun hr => ?_⟩, fun hr id => ?_⟩
  · rw [hlog]
    exact hrun.entered_nodup.sublist hsub.sublist
  · rw [hlog]
    exact hpre
  · rw [hlog]
    exact (hok hr).1
  · rw [hlog, (hok hr).1]
    exact hrun.mem_entered_iff id

/-- Two runners that depend on each other, and one on itself. -/
def cyclic : World Bool Unit Unit Unit Unit where
  is_deterministic := true
  target := fun uid => uid = "a"
  actions := fun id => if id then .seq [.depends "b", .setArgs []] else .seq [.depends "b", .depends "a"]
  resolve_runner := fun _ vm => (.ok (), vm)
  get_arch := fun _ vm => (.ok (), vm)
  get_actions := fun _ vm => (.ok (), vm)
  map_archive_file := fun _ _ _ vm => (.ok (), vm)
  patch_str := fun _ val => .ok val
  set_args := fun _ vm => (.ok (), vm)
  set_env := fun _ vm => (.ok (), vm)
  link_wasm := fun _ _ _ vm => (.ok (), vm)
  start_wasm := fun _ _ _ vm => (.ok (), vm)

theorem apply_terminates_cyclic :
    ∃ r : Applied Bool Unit Unit Unit, (∃ k, ∀ fuel, k ≤ fuel →
      apply cyclic fuel (.depends "a") false () ⟨[], [], (), []⟩ = some r) ∧ (nodes r.2.log).Nodup := by
  obtain ⟨r, hends, hnodup, _⟩ := @apply_terminates _ _ _ _ _ cyclic _ [true, false]
    (fun uid => by cases cyclic.target uid <;> decide) (.depends "a") false () ()
  exact ⟨r, hends, hnodup⟩

end GenVM.Runners
