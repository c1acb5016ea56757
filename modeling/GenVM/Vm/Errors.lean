import Mathlib

/-!
# Errors through boxes (`executor/src/rt/errors.rs`, `executor/src/lib.rs`)

An executor error has a kind: a VM error, a user error or internal. On its way
out it is boxed in an `anyhow` or a `wasmtime` error, converted between the two,
and gets context in each form; `unwrap_vm_errors` takes it out again. The two
libraries are parameters (`Boxes`): what the executor relies on is `Boxes.Lawful`,
that contexts and conversions leave what an error can be downcast to.

**Results.**
* `Made.carries`: every step keeps what an error carries; only `wrap` on an
  error that carries no VM or user error changes it.
* `unwrap_of_carries`: unwrapping returns, with the result of what is carried.
* `error_kinds_survive`: both together, from any error and over any steps.
-/
namespace GenVM.Errors

/-- The code of a VM error. -/
abbrev VmError := String

/-- mirrors executor/src/rt/errors.rs:150-158, with user values `V` -/
inductive ErrorKind (V : Type) where
  | vm (code : VmError)
  | user (value : V)
  | internal
  deriving DecidableEq

/-- mirrors executor/src/rt/errors.rs:161-168, with the text of the source -/
structure Error (V : Type) where
  kind : ErrorKind V
  context : List String
  source : Option String
  deriving DecidableEq

/-- What is boxed: what the executor asks for by type, or anything else. -/
inductive Payload (V : Type) where
  | trap (text : String)
  | guest_error (text : String)
  | error (e : Error V)
  | contract_return (value : V)
  | msg (text : String)
  deriving DecidableEq

/-- The types that `unwrap_vm_errors` asks for. -/
inductive Target where
  | trap | guest_error | error | contract_return
  deriving DecidableEq

variable {V A W : Type}

def Payload.target : Payload V → Option Target
  | .trap _ => some .trap
  | .guest_error _ => some .guest_error
  | .error _ => some .error
  | .contract_return _ => some .contract_return
  | .msg _ => none

/-- `anyhow::Error` is `A` and `wasmtime::Error` is `W`. -/
structure Boxes (V A W : Type) where
  anyhow_new : Payload V → A
  anyhow_context : A → String → A
  anyhow_downcast : Target → A → Option (Payload V)
  anyhow_downcast_wasmtime : A → Option W
  /-- `{err:#}` -/
  anyhow_display : A → String
  anyhow_from : W → A
  wasmtime_new : Payload V → W
  wasmtime_context : W → String → W
  wasmtime_downcast : Target → W → Option (Payload V)
  wasmtime_downcast_anyhow : W → Option A
  wasmtime_from_anyhow : A → W

/-- What the executor relies on. A new box is downcast to what was put in, and to
nothing else; context is transparent; the `anyhow` error in a `wasmtime` error
is found again; a `wasmtime` error that is converted is downcast as it was, or
as the `anyhow` error that it holds. -/
structure Boxes.Lawful (lib : Boxes V A W) : Prop where
  anyhow_new : ∀ p t, lib.anyhow_downcast t (lib.anyhow_new p) = if p.target = some t then some p else none
  anyhow_new_wasmtime : ∀ p, lib.anyhow_downcast_wasmtime (lib.anyhow_new p) = none
  anyhow_context : ∀ a c t, lib.anyhow_downcast t (lib.anyhow_context a c) = lib.anyhow_downcast t a
  anyhow_context_wasmtime : ∀ a c,
    lib.anyhow_downcast_wasmtime (lib.anyhow_context a c) = lib.anyhow_downcast_wasmtime a
  wasmtime_new : ∀ p t, lib.wasmtime_downcast t (lib.wasmtime_new p) = if p.target = some t then some p else none
  wasmtime_new_anyhow : ∀ p, lib.wasmtime_downcast_anyhow (lib.wasmtime_new p) = none
  wasmtime_context : ∀ w c t, lib.wasmtime_downcast t (lib.wasmtime_context w c) = lib.wasmtime_downcast t w
  wasmtime_context_anyhow : ∀ w c,
    lib.wasmtime_downcast_anyhow (lib.wasmtime_context w c) = lib.wasmtime_downcast_anyhow w
  from_anyhow : ∀ a, lib.wasmtime_downcast_anyhow (lib.wasmtime_from_anyhow a) = some a
  anyhow_from : ∀ w t, lib.anyhow_downcast t (lib.anyhow_from w) =
    match lib.wasmtime_downcast_anyhow w with
    | some a => lib.anyhow_downcast t a
    | none => lib.wasmtime_downcast t w
  anyhow_from_wasmtime : ∀ w, lib.anyhow_downcast_wasmtime (lib.anyhow_from w) =
    (lib.wasmtime_downcast_anyhow w).bind lib.anyhow_downcast_wasmtime

variable (lib : Boxes V A W)

/-! ## The executor's functions -/

/-- mirrors executor/src/lib.rs:23-28 -/
def wasmtime_to_anyhow (e : W) : A :=
  match lib.wasmtime_downcast_anyhow e with
  | some anyhow_e => anyhow_e
  | none => lib.anyhow_from e

/-- mirrors executor/src/lib.rs:30-35 -/
def anyhow_to_wasmtime (e : A) : W :=
  match lib.anyhow_downcast_wasmtime e with
  | some wasmtime_e => wasmtime_e
  | none => lib.wasmtime_from_anyhow e

/-- mirrors executor/src/rt/errors.rs:190-196 -/
def Error.internal (msg : String) : Error V := ⟨.internal, [msg], none⟩

/-- mirrors executor/src/rt/errors.rs:198-204 -/
def Error.vm (code : VmError) : Error V := ⟨.vm code, [], none⟩

/-- mirrors executor/src/rt/errors.rs:229-235 -/
def Error.user (value : V) : Error V := ⟨.user value, [], none⟩

/-- mirrors executor/src/rt/errors.rs:243-246 -/
def Error.addContext (e : Error V) (ctx : String) : Error V := { e with context := e.context ++ [ctx] }

/-- mirrors executor/src/rt/errors.rs:248-254 -/
def ErrorKind.terminal : ErrorKind V → Bool
  | .vm _ | .user _ => true
  | .internal => false

/-- mirrors executor/src/rt/errors.rs:304-319 -/
def Error.ofAnyhow (err : A) : Error V :=
  match lib.anyhow_downcast .error err with
  | some (.error e) => e
  | _ => ⟨.internal, [lib.anyhow_display err], none⟩

/-- mirrors executor/src/rt/errors.rs:321-327 -/
def Error.ofWasmtime (err : W) : Error V := Error.ofAnyhow lib (wasmtime_to_anyhow lib err)

/-- mirrors executor/src/rt/errors.rs:211-217, on a cause that was converted -/
def Error.wrap (code : VmError) (cause : Error V) : Error V :=
  if cause.kind.terminal then cause else { cause with kind := .vm code }

/-- mirrors executor/src/rt/errors.rs:175-187 -/
def fold_cause (context : List String) (source : Option String) : Option A :=
  context.foldl (fun acc c => some (match acc with
    | some e => lib.anyhow_context e c
    | none => lib.anyhow_new (.msg c))) (source.map fun s => lib.anyhow_new (.msg s))

inductive RunOk (V A : Type) where
  | Return (value : V)
  | UserError (value : V)
  | VMError (code : VmError) (cause : Option A)

/-- mirrors executor/src/rt/errors.rs:261-276 -/
def Error.into_run_ok (e : Error V) : Except (Error V) (RunOk V A) :=
  match e.kind with
  | .vm code => .ok (.VMError code (fold_cause lib e.context e.source))
  | .user v => .ok (.UserError v)
  | .internal => .error e

/-- mirrors executor/src/rt/errors.rs:61-64 -/
inductive UnwrapDynError (A W : Type) where
  | Anyhow (e : A)
  | Wasmtime (e : W)

mutual

/-- mirrors executor/src/rt/errors.rs:66-73 -/
def UnwrapDynError.ofAnyhow : Nat → A → Option (UnwrapDynError A W)
  | 0, _ => none
  | fuel + 1, err =>
    match lib.anyhow_downcast_wasmtime err with
    | some casted => UnwrapDynError.ofWasmtime fuel casted
    | none => some (.Anyhow err)

/-- mirrors executor/src/rt/errors.rs:75-82 -/
def UnwrapDynError.ofWasmtime : Nat → W → Option (UnwrapDynError A W)
  | 0, _ => none
  | fuel + 1, err =>
    match lib.wasmtime_downcast_anyhow err with
    | some casted => UnwrapDynError.ofAnyhow fuel casted
    | none => some (.Wasmtime err)

end

/-- mirrors executor/src/rt/errors.rs:95-103 -/
def UnwrapDynError.downcast (t : Target) : UnwrapDynError A W → Option (Payload V)
  | .Anyhow e => lib.anyhow_downcast t e
  | .Wasmtime e => lib.wasmtime_downcast t e

/-- The error that is left when nothing is recovered. -/
def UnwrapDynError.into_anyhow : UnwrapDynError A W → A
  | .Anyhow e => e
  | .Wasmtime e => wasmtime_to_anyhow lib e

/-- mirrors executor/src/rt/errors.rs:14-59; an internal error that was recovered
is boxed again and then asked for the last type -/
def unwrap_vm_errors (err : UnwrapDynError A W) : Except A (RunOk V A) :=
  match err.downcast lib .trap with
  | some (.trap v) => .ok (.VMError ("wasm_trap " ++ v) (some (lib.anyhow_new (.trap v))))
  | _ =>
    match err.downcast lib .guest_error with
    | some (.guest_error e) => .ok (.VMError "wasm_trap fault" (some (lib.anyhow_new (.guest_error e))))
    | _ =>
      match err.downcast lib .error with
      | some (.error e) =>
        match e.into_run_ok lib with
        | .ok r => .ok r
        | .error internal =>
          match (UnwrapDynError.Anyhow (W := W) (lib.anyhow_new (.error internal))).downcast lib .contract_return with
          | some (.contract_return v) => .ok (.Return v)
          | _ => .error (lib.anyhow_new (.error internal))
      | _ =>
        match err.downcast lib .contract_return with
        | some (.contract_return v) => .ok (.Return v)
        | _ => .error (err.into_anyhow lib)

/-! ## Steps -/

/-- An error in one of its three forms. -/
inductive AnyError (V A W : Type) where
  | executor (e : Error V)
  | anyhow (e : A)
  | wasmtime (e : W)

/-- `Into<Error>` -/
def AnyError.into_error : AnyError V A W → Error V
  | .executor e => e
  | .anyhow e => Error.ofAnyhow lib e
  | .wasmtime e => Error.ofWasmtime lib e

/-- Boxed, converted or given context; every step but an explicit `wrap`. -/
inductive Step : AnyError V A W → AnyError V A W → Prop
  | into_error {x} : Step x (.executor (x.into_error lib))
  /-- `ctx` and `with_ctx` -/
  | ctx {x} (c : String) : Step x (.executor ((x.into_error lib).addContext c))
  | anyhow_new {e} : Step (.executor e) (.anyhow (lib.anyhow_new (.error e)))
  | wasmtime_new {e} : Step (.executor e) (.wasmtime (lib.wasmtime_new (.error e)))
  | anyhow_context {a} (c : String) : Step (.anyhow a) (.anyhow (lib.anyhow_context a c))
  | wasmtime_context {w} (c : String) : Step (.wasmtime w) (.wasmtime (lib.wasmtime_context w c))
  | anyhow_to_wasmtime {a} : Step (.anyhow a) (.wasmtime (anyhow_to_wasmtime lib a))
  | wasmtime_to_anyhow {w} : Step (.wasmtime w) (.anyhow (wasmtime_to_anyhow lib w))
  | from_anyhow {a} : Step (.anyhow a) (.wasmtime (lib.wasmtime_from_anyhow a))
  | anyhow_from {w} : Step (.wasmtime w) (.anyhow (lib.anyhow_from w))

/-- With the steps that wrap. -/
inductive StepWrap : AnyError V A W → AnyError V A W → Prop
  | step {x y} : Step lib x y → StepWrap x y
  | wrap {x} (code : VmError) : StepWrap x (.executor ((x.into_error lib).wrap code))

/-- `UnwrapDynError::from` and `unwrap_vm_errors` on an error in any form. -/
def AnyError.unwrap (fuel : Nat) : AnyError V A W → Option (Except A (RunOk V A))
  | .executor e => (UnwrapDynError.ofAnyhow lib fuel (lib.anyhow_new (.error e))).map (unwrap_vm_errors lib)
  | .anyhow e => (UnwrapDynError.ofAnyhow lib fuel e).map (unwrap_vm_errors lib)
  | .wasmtime e => (UnwrapDynError.ofWasmtime lib fuel e).map (unwrap_vm_errors lib)

/-! ## What an error carries -/

/-- The kind of the executor error that is found, internal when none is. -/
def found : Option (Payload V) → ErrorKind V
  | some (.error e) => e.kind
  | _ => .internal

/-- Asked for the four types, a box has an executor error of kind `k`, or nothing
when `k` is internal. -/
def Downcasts (get : Target → Option (Payload V)) (k : ErrorKind V) : Prop :=
  get .trap = none ∧ get .guest_error = none ∧ get .contract_return = none ∧
  (∀ p, get .error = some p → ∃ e, p = .error e) ∧ found (get .error) = k

def CarriesAnyhow (a : A) (k : ErrorKind V) : Prop :=
  lib.anyhow_downcast_wasmtime a = none ∧ Downcasts (fun t => lib.anyhow_downcast t a) k

def CarriesWasmtime (w : W) (k : ErrorKind V) : Prop :=
  match lib.wasmtime_downcast_anyhow w with
  | some a => CarriesAnyhow lib a k
  | none => Downcasts (fun t => lib.wasmtime_downcast t w) k

/-- The kind that an error carries, in any form. -/
def AnyError.Carries : AnyError V A W → ErrorKind V → Prop
  | .executor e, k => e.kind = k
  | .anyhow a, k => CarriesAnyhow lib a k
  | .wasmtime w, k => CarriesWasmtime lib w k

variable {lib}

theorem downcasts_new {get : Target → Option (Payload V)} {e : Error V}
    (h : ∀ t, get t = if (Payload.error e).target = some t then some (.error e) else none) :
    Downcasts get e.kind := by
  have herr : get .error = some (.error e) := by rw [h]; exact if_pos rfl
  refine ⟨?_, ?_, ?_, fun p hp => ⟨e, ?_⟩, ?_⟩
  · rw [h]; exact if_neg fun h => nomatch h
  · rw [h]; exact if_neg fun h => nomatch h
  · rw [h]; exact if_neg fun h => nomatch h
  · rw [herr] at hp
    exact (Option.some.inj hp).symm
  · rw [herr]
    rfl

theorem carriesAnyhow_new (h : lib.Lawful) (e : Error V) :
    CarriesAnyhow lib (lib.anyhow_new (.error e)) e.kind :=
  ⟨h.anyhow_new_wasmtime _, downcasts_new fun t => h.anyhow_new _ t⟩

theorem CarriesAnyhow.context (h : lib.Lawful) {a : A} {k : ErrorKind V} (ha : CarriesAnyhow lib a k)
    (c : String) : CarriesAnyhow lib (lib.anyhow_context a c) k := by
  unfold CarriesAnyhow
  simp only [h.anyhow_context, h.anyhow_context_wasmtime]
  exact ha

theorem CarriesAnyhow.from_anyhow (h : lib.Lawful) {a : A} {k : ErrorKind V}
    (ha : CarriesAnyhow lib a k) : CarriesWasmtime lib (lib.wasmtime_from_anyhow a) k := by
  unfold CarriesWasmtime
  rw [h.from_anyhow]
  exact ha

theorem CarriesAnyhow.to_wasmtime (h : lib.Lawful) {a : A} {k : ErrorKind V}
    (ha : CarriesAnyhow lib a k) : CarriesWasmtime lib (anyhow_to_wasmtime lib a) k := by
  unfold anyhow_to_wasmtime
  rw [ha.1]
  exact ha.from_anyhow h

theorem CarriesAnyhow.into_error {a : A} {k : ErrorKind V} (ha : CarriesAnyhow lib a k) :
    (Error.ofAnyhow lib a).kind = k := by
  obtain ⟨_, _, _, _, hform, hk⟩ := ha
  dsimp only at hform hk
  unfold Error.ofAnyhow
  cases herr : lib.anyhow_downcast .error a with
  | none =>
    rw [herr] at hk
    exact hk
  | some p =>
    obtain ⟨e, rfl⟩ := hform p herr
    rw [herr] at hk
    exact hk

theorem CarriesWasmtime.context (h : lib.Lawful) {w : W} {k : ErrorKind V}
    (hw : CarriesWasmtime lib w k) (c : String) : CarriesWasmtime lib (lib.wasmtime_context w c) k := by
  unfold CarriesWasmtime
  simp only [h.wasmtime_context, h.wasmtime_context_anyhow]
  exact hw

theorem CarriesWasmtime.anyhow_from (h : lib.Lawful) {w : W} {k : ErrorKind V}
    (hw : CarriesWasmtime lib w k) : CarriesAnyhow lib (lib.anyhow_from w) k := by
  unfold CarriesAnyhow
  simp only [h.anyhow_from, h.anyhow_from_wasmtime]
  unfold CarriesWasmtime at hw
  cases hany : lib.wasmtime_downcast_anyhow w with
  | none =>
    rw [hany] at hw
    exact ⟨rfl, hw⟩
  | some a =>
    rw [hany] at hw
    exact hw

theorem CarriesWasmtime.to_anyhow (h : lib.Lawful) {w : W} {k : ErrorKind V}
    (hw : CarriesWasmtime lib w k) : CarriesAnyhow lib (wasmtime_to_anyhow lib w) k := by
  unfold wasmtime_to_anyhow
  cases hany : lib.wasmtime_downcast_anyhow w with
  | none => exact hw.anyhow_from h
  | some a =>
    unfold CarriesWasmtime at hw
    rw [hany] at hw
    exact hw

theorem AnyError.Carries.into_error (h : lib.Lawful) {x : AnyError V A W} {k : ErrorKind V}
    (hx : x.Carries lib k) : (x.into_error lib).kind = k := by
  cases x with
  | executor e => exact hx
  | anyhow a => exact CarriesAnyhow.into_error hx
  | wasmtime w => exact (CarriesWasmtime.to_anyhow h hx).into_error

theorem Step.carries (h : lib.Lawful) {x y : AnyError V A W} {k : ErrorKind V} (hs : Step lib x y)
    (hx : x.Carries lib k) : y.Carries lib k := by
  cases hs with
  | into_error => exact hx.into_error h
  | ctx c => exact hx.into_error h
  | @anyhow_new e =>
    obtain rfl : e.kind = k := hx
    exact carriesAnyhow_new h e
  | @wasmtime_new e =>
    obtain rfl : e.kind = k := hx
    change CarriesWasmtime lib _ _
    unfold CarriesWasmtime
    rw [h.wasmtime_new_anyhow]
    exact downcasts_new fun t => h.wasmtime_new _ t
  | anyhow_context c => exact CarriesAnyhow.context h hx c
  | wasmtime_context c => exact CarriesWasmtime.context h hx c
  | anyhow_to_wasmtime => exact CarriesAnyhow.to_wasmtime h hx
  | wasmtime_to_anyhow => exact CarriesWasmtime.to_anyhow h hx
  | from_anyhow => exact CarriesAnyhow.from_anyhow h hx
  | anyhow_from => exact CarriesWasmtime.anyhow_from h hx

/-- A terminal kind is kept by wrapping too. -/
theorem StepWrap.carries (h : lib.Lawful) {x y : AnyError V A W} {k : ErrorKind V}
    (hk : k.terminal = true) (hs : StepWrap lib x y) (hx : x.Carries lib k) : y.Carries lib k := by
  cases hs with
  | step hs => exact hs.carries h hx
  | wrap code =>
    have hkind := hx.into_error h
    unfold Error.wrap
    rw [hkind, if_pos hk]
    exact hkind

/-! ## Unwrapping -/

/-- The result of a kind; an internal error stays an error. -/
def Reports (k : ErrorKind V) (r : Except A (RunOk V A)) : Prop :=
  match k with
  | .vm code => ∃ cause, r = .ok (.VMError code cause)
  | .user v => r = .ok (.UserError v)
  | .internal => ∃ e, r = .error e

theorem unwrap_of_downcasts (h : lib.Lawful) {err : UnwrapDynError A W} {k : ErrorKind V}
    (hd : Downcasts (fun t => err.downcast lib t) k) : Reports k (unwrap_vm_errors lib err) := by
  obtain ⟨htrap, hguest, hret, hform, hk⟩ := hd
  dsimp only at htrap hguest hret hform hk
  unfold unwrap_vm_errors
  rw [htrap, hguest]
  dsimp only
  cases herr : err.downcast lib .error with
  | none =>
    rw [herr] at hk
    obtain rfl : ErrorKind.internal = k := hk
    rw [hret]
    exact ⟨_, rfl⟩
  | some p =>
    obtain ⟨e, rfl⟩ := hform p herr
    rw [herr] at hk
    obtain rfl : e.kind = k := hk
    dsimp only
    unfold Error.into_run_ok
    cases hkind : e.kind with
    | vm code => exact ⟨_, rfl⟩
    | user v => exact rfl
    | internal =>
      have hboxed : (UnwrapDynError.Anyhow (W := W) (lib.anyhow_new (.error e))).downcast lib .contract_return
          = none := (h.anyhow_new _ _).trans (if_neg fun h => nomatch h)
      dsimp only
      rw [hboxed]
      exact ⟨_, rfl⟩

/-- Two conversions are the most there is to undo. -/
theorem unwrap_of_carries (h : lib.Lawful) {x : AnyError V A W} {k : ErrorKind V}
    (hx : x.Carries lib k) : ∃ r, (∀ fuel, 2 ≤ fuel → x.unwrap lib fuel = some r) ∧ Reports k r := by
  have hany : ∀ {a : A}, CarriesAnyhow lib a k → ∀ fuel, 1 ≤ fuel →
      UnwrapDynError.ofAnyhow lib fuel a = some (.Anyhow a) := by
    intro a ha fuel hfuel
    obtain ⟨fuel, rfl⟩ := Nat.exists_eq_add_of_le' hfuel
    rw [UnwrapDynError.ofAnyhow, ha.1]
  cases x with
  | executor e =>
    obtain rfl : e.kind = k := hx
    have hc := carriesAnyhow_new h e
    refine ⟨_, fun fuel hfuel => ?_, @unwrap_of_downcasts _ _ _ lib h (.Anyhow _) _ hc.2⟩
    rw [AnyError.unwrap, hany hc fuel (by omega), Option.map_some]
  | anyhow a =>
    refine ⟨_, fun fuel hfuel => ?_, @unwrap_of_downcasts _ _ _ lib h (.Anyhow a) _ hx.2⟩
    rw [AnyError.unwrap, hany hx fuel (by omega), Option.map_some]
  | wasmtime w =>
    have hw : CarriesWasmtime lib w k := hx
    unfold CarriesWasmtime at hw
    cases hcast : lib.wasmtime_downcast_anyhow w with
    | none =>
      rw [hcast] at hw
      refine ⟨_, fun fuel hfuel => ?_, @unwrap_of_downcasts _ _ _ lib h (.Wasmtime w) _ hw⟩
      obtain ⟨fuel, rfl⟩ := Nat.exists_eq_add_of_le' hfuel
      rw [AnyError.unwrap, UnwrapDynError.ofWasmtime, hcast, Option.map_some]
    | some a =>
      rw [hcast] at hw
      refine ⟨_, fun fuel hfuel => ?_, @unwrap_of_downcasts _ _ _ lib h (.Anyhow a) _ hw.2⟩
      obtain ⟨fuel, rfl⟩ := Nat.exists_eq_add_of_le' hfuel
      rw [AnyError.unwrap, UnwrapDynError.ofWasmtime, hcast]
      dsimp only
      rw [hany hw (fuel + 1) (by omega), Option.map_some]

/-- An error without a VM or user error, made of nothing that is recovered. -/
inductive Foreign (lib : Boxes V A W) : AnyError V A W → Prop
  | internal {e : Error V} : e.kind = .internal → Foreign lib (.executor e)
  | anyhow (text : String) : Foreign lib (.anyhow (lib.anyhow_new (.msg text)))
  | wasmtime (text : String) : Foreign lib (.wasmtime (lib.wasmtime_new (.msg text)))

theorem downcasts_msg {get : Target → Option (Payload V)} {text : String}
    (h : ∀ t, get t = if (Payload.msg text : Payload V).target = some t then some (.msg text) else none) :
    Downcasts get .internal := by
  have hnone : ∀ t, get t = none := fun t => (h t).trans (if_neg fun h => nomatch h)
  refine ⟨hnone _, hnone _, hnone _, fun p hp => ?_, ?_⟩
  · rw [hnone] at hp
    cases hp
  · rw [hnone]
    rfl

theorem Foreign.carries (h : lib.Lawful) {x : AnyError V A W} (hx : Foreign lib x) :
    x.Carries lib .internal := by
  cases hx with
  | internal hk => exact hk
  | anyhow text => exact ⟨h.anyhow_new_wasmtime _, downcasts_msg fun t => h.anyhow_new _ t⟩
  | wasmtime text =>
    change CarriesWasmtime lib _ _
    unfold CarriesWasmtime
    rw [h.wasmtime_new_anyhow]
    exact downcasts_msg fun t => h.wasmtime_new _ t

/-- A VM or user error is reported with its kind after any steps, those that
wrap included. An error without one, and without a trap, a fault of guest memory
or a contract's return value, is reported as internal after any steps that do
not wrap it. -/
theorem error_kinds_survive (h : lib.Lawful) :
    (∀ (e : Error V) (x : AnyError V A W), e.kind ≠ .internal →
      Relation.ReflTransGen (StepWrap lib) (.executor e) x →
      ∃ r, (∀ fuel, 2 ≤ fuel → x.unwrap lib fuel = some r) ∧
        ((∃ code cause, e.kind = .vm code ∧ r = .ok (.VMError code cause)) ∨
          ∃ v, e.kind = .user v ∧ r = .ok (.UserError v))) ∧
    ∀ x₀ x : AnyError V A W, Foreign lib x₀ → Relation.ReflTransGen (Step lib) x₀ x →
      ∃ e, ∀ fuel, 2 ≤ fuel → x.unwrap lib fuel = some (.error e) := by
  refine ⟨fun e x hk hrun => ?_, fun x₀ x hx₀ hrun => ?_⟩
  · have hterminal : e.kind.terminal = true := by
      cases hkind : e.kind with
      | vm code => rfl
      | user v => rfl
      | internal => exact absurd hkind hk
    have hx : x.Carries lib e.kind := by
      induction hrun with
      | refl => exact rfl
      | tail _ hs ih => exact hs.carries h hterminal ih
    obtain ⟨r, hr, hreports⟩ := unwrap_of_carries h hx
    refine ⟨r, hr, ?_⟩
    cases hkind : e.kind with
    | vm code =>
      rw [hkind] at hreports
      obtain ⟨cause, hcause⟩ := hreports
      exact .inl ⟨code, cause, rfl, hcause⟩
    | user v =>
      rw [hkind] at hreports
      exact .inr ⟨v, rfl, hreports⟩
    | internal => exact absurd hkind hk
  · have hx : x.Carries lib .internal := by
      induction hrun with
      | refl => exact hx₀.carries h
      | tail _ hs ih => exact hs.carries h ih
    obtain ⟨r, hr, e, rfl⟩ := unwrap_of_carries h hx
    exact ⟨e, hr⟩

/-! ## Boxes as chains of contexts -/

inductive AnyhowChain (V : Type) where
  | new (p : Payload V)
  | context (e : AnyhowChain V) (c : String)

inductive WasmtimeChain (V : Type) where
  | new (p : Payload V)
  | context (e : WasmtimeChain V) (c : String)
  | ofAnyhow (e : AnyhowChain V)

def AnyhowChain.payload : AnyhowChain V → Payload V
  | .new p => p
  | .context e _ => e.payload

def AnyhowChain.display : AnyhowChain V → String
  | .new (.msg text) => text
  | .new _ => ""
  | .context e c => c ++ ": " ++ e.display

def WasmtimeChain.anyhow : WasmtimeChain V → Option (AnyhowChain V)
  | .new _ => none
  | .context e _ => e.anyhow
  | .ofAnyhow e => some e

def WasmtimeChain.payload : WasmtimeChain V → Payload V
  | .new p => p
  | .context e _ => e.payload
  | .ofAnyhow e => e.payload

def WasmtimeChain.into : WasmtimeChain V → AnyhowChain V
  | .new p => .new p
  | .context e c => .context e.into c
  | .ofAnyhow e => e

def castTo (p : Payload V) (t : Target) : Option (Payload V) := if p.target = some t then some p else none

def chains (V : Type) : Boxes V (AnyhowChain V) (WasmtimeChain V) where
  anyhow_new := .new
  anyhow_context := .context
  anyhow_downcast := fun t e => castTo e.payload t
  anyhow_downcast_wasmtime := fun _ => none
  anyhow_display := AnyhowChain.display
  anyhow_from := WasmtimeChain.into
  wasmtime_new := .new
  wasmtime_context := .context
  wasmtime_downcast := fun t e => castTo e.payload t
  wasmtime_downcast_anyhow := WasmtimeChain.anyhow
  wasmtime_from_anyhow := .ofAnyhow

theorem into_payload (w : WasmtimeChain V) : w.into.payload = w.payload := by
  induction w with
  | new p => rfl
  | context e c ih => exact ih
  | ofAnyhow e => rfl

theorem anyhow_payload {w : WasmtimeChain V} {a : AnyhowChain V} (h : w.anyhow = some a) :
    a.payload = w.payload := by
  induction w with
  | new p => cases h
  | context e c ih => exact ih h
  | ofAnyhow e => exact Option.some.inj h ▸ rfl

theorem chains_lawful : (chains V).Lawful where
  anyhow_new _ _ := rfl
  anyhow_new_wasmtime _ := rfl
  anyhow_context _ _ _ := rfl
  anyhow_context_wasmtime _ _ := rfl
  wasmtime_new _ _ := rfl
  wasmtime_new_anyhow _ := rfl
  wasmtime_context _ _ _ := rfl
  wasmtime_context_anyhow _ _ := rfl
  from_anyhow _ := rfl
  anyhow_from w t := by
    have hanyhow : (chains V).wasmtime_downcast_anyhow w = w.anyhow := rfl
    rw [hanyhow]
    cases h : w.anyhow with
    | none => exact congrArg (castTo · t) (into_payload w)
    | some a => exact congrArg (castTo · t) ((into_payload w).trans (anyhow_payload h).symm)
  anyhow_from_wasmtime w := by
    change none = w.anyhow.bind fun _ => none
    cases w.anyhow <;> rfl

/-- A VM error inside an `anyhow` error with context, inside a `wasmtime` error
with context, then wrapped with another code. -/
theorem error_kinds_survive_wrapped : ∃ r cause,
    (AnyError.executor (Error.wrap "invalid_contract" (Error.ofWasmtime (chains Unit)
      (.context (.ofAnyhow (.context (.new (.error (Error.vm "exit_code 1"))) "a")) "b")))).unwrap
      (chains Unit) 2 = some r ∧ r = .ok (.VMError "exit_code 1" cause) := by
  obtain ⟨r, hr, hkind⟩ := (error_kinds_survive (@chains_lawful Unit)).1 (Error.vm "exit_code 1") _
    (fun h => nomatch h)
    (((((Relation.ReflTransGen.refl.tail (.step .anyhow_new)).tail (.step (.anyhow_context "a"))).tail
      (.step .anyhow_to_wasmtime)).tail (.step (.wasmtime_context "b"))).tail (.wrap "invalid_contract"))
  rcases hkind with ⟨code, cause, hcode, hr'⟩ | ⟨v, hv, _⟩
  · obtain rfl := ErrorKind.vm.inj hcode
    exact ⟨r, cause, hr 2 (le_refl 2), hr'⟩
  · cases hv

/-- A trap contains no VM or user error and is reported as one. -/
theorem trap_is_visible : ¬ ∀ (p : Payload Unit) (x : AnyError Unit (AnyhowChain Unit) (WasmtimeChain Unit)),
    (∀ e, p = .error e → e.kind = .internal) →
    Relation.ReflTransGen (Step (chains Unit)) (.anyhow ((chains Unit).anyhow_new p)) x →
    ∃ e, x.unwrap (chains Unit) 2 = some (.error e) := by
  intro h
  obtain ⟨e, he⟩ := h (.trap "UnreachableCodeReached") _ (fun e he => nomatch he) .refl
  cases he

end GenVM.Errors
