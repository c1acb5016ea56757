import Mathlib

/-!
# Host calls: state, errors and aborts

A host call works on a state `σ`. It returns a value or an error `ε` with the
state as it is at that point, unless everything stops (`θ`): then there is no
state to speak of.

`Preserves R x` says that every outcome of `x`, an error included, is related to
the state it started from. For a reflexive and transitive `R` it holds of a
program when it holds of each of its steps.
-/
namespace GenVM.Lib

abbrev EffectM (θ ε σ : Type) := ExceptT ε (StateT σ (Except θ))

namespace EffectM
variable {θ ε σ α β : Type}

/-- The current state. -/
def read : EffectM θ ε σ σ := fun s => .ok (.ok s, s)

def update (f : σ → σ) : EffectM θ ε σ Unit := fun s => .ok (.ok (), f s)

def fail (e : ε) : EffectM θ ε σ α := fun s => .ok (.error e, s)

/-- Nothing goes on from here. -/
def stop (t : θ) : EffectM θ ε σ α := fun _ => .error t

/-- Fails unless `b` holds. -/
def require (b : Bool) (e : ε) : EffectM θ ε σ Unit := if b then pure () else fail e

/-! ## Runs -/

theorem run_pure {a : α} {s s' : σ} {r : Except ε α} :
    (pure a : EffectM θ ε σ α) s = .ok (r, s') ↔ r = .ok a ∧ s' = s := by
  show (Except.ok (Except.ok a, s) : Except θ (Except ε α × σ)) = _ ↔ _
  rw [Except.ok.injEq, Prod.mk.injEq]
  exact and_congr eq_comm eq_comm

theorem bind_apply (x : EffectM θ ε σ α) (f : α → EffectM θ ε σ β) (s : σ) :
    (x >>= f) s = match x s with
      | .error t => .error t
      | .ok (.ok a, s') => f a s'
      | .ok (.error e, s') => .ok (.error e, s') := by
  show Except.bind (x s) _ = _
  cases x s with
  | error t => rfl
  | ok p =>
    obtain ⟨ra, s'⟩ := p
    cases ra <;> rfl

theorem run_bind {x : EffectM θ ε σ α} {f : α → EffectM θ ε σ β} {s s'' : σ} {r : Except ε β} :
    (x >>= f) s = .ok (r, s'') ↔
      (∃ e, x s = .ok (.error e, s'') ∧ r = .error e) ∨
      ∃ a s', x s = .ok (.ok a, s') ∧ f a s' = .ok (r, s'') := by
  rw [bind_apply]
  cases hx : x s with
  | error t => simp
  | ok p =>
    obtain ⟨ra, s'⟩ := p
    cases ra with
    | error e =>
      simp only [Except.ok.injEq, Prod.mk.injEq, reduceCtorEq, false_and, exists_false, or_false,
        Except.error.injEq]
      constructor
      · intro h
        exact ⟨e, ⟨rfl, h.2⟩, h.1.symm⟩
      · intro h
        obtain ⟨e', ⟨rfl, h2⟩, rfl⟩ := h
        exact ⟨rfl, h2⟩
    | ok a =>
      simp only [Except.ok.injEq, Prod.mk.injEq, reduceCtorEq, false_and, exists_false, false_or]
      constructor
      · exact fun h => ⟨a, s', ⟨rfl, rfl⟩, h⟩
      · intro h
        obtain ⟨a', s1, ⟨rfl, rfl⟩, h⟩ := h
        exact h

theorem run_bind_ok {x : EffectM θ ε σ α} {f : α → EffectM θ ε σ β} {s s'' : σ} {b : β} :
    (x >>= f) s = .ok (.ok b, s'') ↔
      ∃ a s', x s = .ok (.ok a, s') ∧ f a s' = .ok (.ok b, s'') := by
  rw [run_bind]
  constructor
  · intro h
    rcases h with ⟨e, _, he⟩ | h
    · cases he
    · exact h
  · exact .inr

theorem run_read {s s' : σ} {r : Except ε σ} :
    (read : EffectM θ ε σ σ) s = .ok (r, s') ↔ r = .ok s ∧ s' = s := by
  show (Except.ok (Except.ok s, s) : Except θ (Except ε σ × σ)) = _ ↔ _
  rw [Except.ok.injEq, Prod.mk.injEq]
  exact and_congr eq_comm eq_comm

theorem run_update {f : σ → σ} {s s' : σ} {r : Except ε Unit} :
    (update f : EffectM θ ε σ Unit) s = .ok (r, s') ↔ r = .ok () ∧ s' = f s := by
  show (Except.ok (Except.ok (), f s) : Except θ (Except ε Unit × σ)) = _ ↔ _
  rw [Except.ok.injEq, Prod.mk.injEq]
  exact and_congr eq_comm eq_comm

theorem run_fail {e : ε} {s s' : σ} {r : Except ε α} :
    (fail e : EffectM θ ε σ α) s = .ok (r, s') ↔ r = .error e ∧ s' = s := by
  show (Except.ok (Except.error e, s) : Except θ (Except ε α × σ)) = _ ↔ _
  rw [Except.ok.injEq, Prod.mk.injEq]
  exact and_congr eq_comm eq_comm

theorem run_read_bind {f : σ → EffectM θ ε σ β} {s s' : σ} {r : Except ε β} :
    (read >>= f) s = .ok (r, s') ↔ f s s = .ok (r, s') := Iff.rfl

theorem run_update_bind {g : σ → σ} {f : Unit → EffectM θ ε σ β} {s s' : σ} {r : Except ε β} :
    (update g >>= f) s = .ok (r, s') ↔ f () (g s) = .ok (r, s') := Iff.rfl

/-- A guard that fails leaves the state as it is. -/
theorem run_require_bind {b : Bool} {e : ε} {f : Unit → EffectM θ ε σ β} {s s' : σ}
    {r : Except ε β} (h : (require b e >>= f) s = .ok (r, s')) :
    (r = .error e ∧ s' = s) ∨ (b = true ∧ f () s = .ok (r, s')) := by
  cases b with
  | true => exact .inr ⟨rfl, h⟩
  | false => exact .inl (run_fail.mp h)

theorem run_require {b : Bool} {e : ε} {s s' : σ} {r : Except ε Unit}
    (h : (require b e : EffectM θ ε σ Unit) s = .ok (r, s')) : s' = s ∧ (r = .ok () → b = true) := by
  cases b with
  | true => exact ⟨(run_pure.mp h).2, fun _ => rfl⟩
  | false =>
    obtain ⟨rfl, rfl⟩ := run_fail.mp h
    exact ⟨rfl, fun h => nomatch h⟩

theorem run_map {x : EffectM θ ε σ α} {f : α → β} {s s' : σ} {r : Except ε β} :
    (f <$> x) s = .ok (r, s') ↔
      (∃ e, x s = .ok (.error e, s') ∧ r = .error e) ∨ ∃ a, x s = .ok (.ok a, s') ∧ r = .ok (f a) := by
  have hmap : f <$> x = x >>= fun a => pure (f a) := (bind_pure_comp f x).symm
  rw [hmap, run_bind]
  refine or_congr_right ⟨?_, ?_⟩
  · intro h
    obtain ⟨a, s1, ha, hp⟩ := h
    obtain ⟨rfl, rfl⟩ := run_pure.mp hp
    exact ⟨a, ha, rfl⟩
  · intro h
    obtain ⟨a, ha, rfl⟩ := h
    exact ⟨a, s', ha, run_pure.mpr ⟨rfl, rfl⟩⟩

/-! ## Runs that stop -/

theorem stop_read_bind {f : σ → EffectM θ ε σ β} {s : σ} {t : θ} :
    (read >>= f) s = .error t ↔ f s s = .error t := Iff.rfl

theorem stop_update_bind {g : σ → σ} {f : Unit → EffectM θ ε σ β} {s : σ} {t : θ} :
    (update g >>= f) s = .error t ↔ f () (g s) = .error t := Iff.rfl

/-- A guard that fails does not stop. -/
theorem stop_require_bind {b : Bool} {e : ε} {f : Unit → EffectM θ ε σ β} {s : σ} {t : θ}
    (h : (require b e >>= f) s = .error t) : b = true ∧ f () s = .error t := by
  cases b with
  | true => exact ⟨rfl, h⟩
  | false => cases h

/-! ## Preserved relations -/

def Preserves (R : σ → σ → Prop) (x : EffectM θ ε σ α) : Prop :=
  ∀ s r s', x s = .ok (r, s') → R s s'

section
variable {R : σ → σ → Prop}

theorem Preserves.mono {R' : σ → σ → Prop} {x : EffectM θ ε σ α} (h : Preserves R x)
    (hR : ∀ s s', R s s' → R' s s') : Preserves R' x :=
  fun s r s' hx => hR s s' (h s r s' hx)

theorem preserves_stop (t : θ) : Preserves R (stop t : EffectM θ ε σ α) :=
  fun _ _ _ h => nomatch h

theorem preserves_update {f : σ → σ} (h : ∀ s, R s (f s)) :
    Preserves R (update f : EffectM θ ε σ Unit) := by
  intro s r s' hx
  obtain ⟨-, rfl⟩ := run_update.mp hx
  exact h s

variable (hrefl : ∀ s, R s s)
include hrefl

theorem preserves_pure (a : α) : Preserves R (pure a : EffectM θ ε σ α) := by
  intro s r s' hx
  obtain ⟨-, rfl⟩ := run_pure.mp hx
  exact hrefl _

theorem preserves_read : Preserves R (read : EffectM θ ε σ σ) := by
  intro s r s' hx
  obtain ⟨-, rfl⟩ := run_read.mp hx
  exact hrefl _

theorem preserves_fail (e : ε) : Preserves R (fail e : EffectM θ ε σ α) := by
  intro s r s' hx
  obtain ⟨-, rfl⟩ := run_fail.mp hx
  exact hrefl _

theorem preserves_require (b : Bool) (e : ε) :
    Preserves R (require b e : EffectM θ ε σ Unit) := by
  unfold require
  split
  · exact preserves_pure hrefl ()
  · exact preserves_fail hrefl e

omit hrefl in
theorem Preserves.bind (htrans : ∀ a b c, R a b → R b c → R a c) {x : EffectM θ ε σ α}
    {f : α → EffectM θ ε σ β} (hx : Preserves R x) (hf : ∀ a, Preserves R (f a)) :
    Preserves R (x >>= f) := by
  intro s r s'' h
  rcases run_bind.mp h with ⟨e, he, _⟩ | ⟨a, s', ha, hfa⟩
  · exact hx s _ s'' he
  · exact htrans _ _ _ (hx s _ s' ha) (hf a s' r s'' hfa)

omit hrefl in
theorem Preserves.map {x : EffectM θ ε σ α} {f : α → β} (hx : Preserves R x) :
    Preserves R (f <$> x) := by
  intro s r s' h
  rcases run_map.mp h with ⟨e, he, _⟩ | ⟨a, ha, _⟩
  · exact hx s _ s' he
  · exact hx s _ s' ha

end

/-! ## Errors -/

/-- Every error of `x` satisfies `E`. -/
def Fails (E : ε → Prop) (x : EffectM θ ε σ α) : Prop := ∀ s e s', x s = .ok (.error e, s') → E e

section
variable {E : ε → Prop}

theorem fails_pure (a : α) : Fails E (pure a : EffectM θ ε σ α) := by
  intro s e s' h
  cases (run_pure.mp h).1

theorem fails_read : Fails E (read : EffectM θ ε σ σ) := by
  intro s e s' h
  cases (run_read.mp h).1

theorem fails_update (f : σ → σ) : Fails E (update f : EffectM θ ε σ Unit) := by
  intro s e s' h
  cases (run_update.mp h).1

theorem fails_stop (t : θ) : Fails E (stop t : EffectM θ ε σ α) := fun _ _ _ h => nomatch h

theorem fails_fail {e : ε} (he : E e) : Fails E (fail e : EffectM θ ε σ α) := by
  intro s e' s' h
  obtain ⟨h, -⟩ := run_fail.mp h
  cases h
  exact he

theorem fails_require {e : ε} (he : E e) (b : Bool) :
    Fails E (require b e : EffectM θ ε σ Unit) := by
  unfold require
  split
  · exact fails_pure ()
  · exact fails_fail he

theorem Fails.bind {x : EffectM θ ε σ α} {f : α → EffectM θ ε σ β} (hx : Fails E x)
    (hf : ∀ a, Fails E (f a)) : Fails E (x >>= f) := by
  intro s e s'' h
  rcases run_bind.mp h with ⟨e', he, hr⟩ | ⟨a, s', _, hfa⟩
  · cases hr
    exact hx s _ s'' he
  · exact hf a s' e s'' hfa

theorem Fails.map {x : EffectM θ ε σ α} {f : α → β} (hx : Fails E x) : Fails E (f <$> x) := by
  intro s e s' h
  rcases run_map.mp h with ⟨e', he, hr⟩ | ⟨a, _, hr⟩
  · cases hr
    exact hx s _ s' he
  · cases hr

end

end EffectM

end GenVM.Lib
