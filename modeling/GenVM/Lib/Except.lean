import Mathlib

/-!
# Successful runs of `Except` programs

A `do` block over `Except` succeeds exactly when its first step does and the
rest does on what that step returned.
-/
namespace GenVM.Lib.Except

variable {ε ε' α β : Type}

theorem ok_bind (a : α) (f : α → Except ε β) : (Except.ok a >>= f) = f a := rfl

theorem bind_ok {x : Except ε α} {f : α → Except ε β} {b : β} :
    x >>= f = .ok b ↔ ∃ a, x = .ok a ∧ f a = .ok b := by
  cases x with
  | error e => simp [bind, Except.bind]
  | ok a => simp [bind, Except.bind]

theorem map_ok {x : Except ε α} {f : α → β} {b : β} : f <$> x = .ok b ↔ ∃ a, x = .ok a ∧ f a = b := by
  cases x with
  | error e => simp [Functor.map, Except.map]
  | ok a => simp [Functor.map, Except.map]

theorem mapError_ok {x : Except ε α} {f : ε → ε'} {a : α} : x.mapError f = .ok a ↔ x = .ok a := by
  cases x <;> simp [Except.mapError]

/-! ## With a state -/

section
variable {σ : Type}

theorem run_bind_ok {x : ExceptT ε (StateM σ) α} {f : α → ExceptT ε (StateM σ) β} {s s'' : σ} {b : β} :
    (x >>= f) s = (.ok b, s'') ↔ ∃ a s', x s = (.ok a, s') ∧ f a s' = (.ok b, s'') := by
  simp only [bind, ExceptT.bind, ExceptT.mk, StateT.bind, ExceptT.bindCont]
  obtain ⟨r, s'⟩ := x s
  cases r with
  | ok a =>
    constructor
    · exact fun h => ⟨a, s', rfl, h⟩
    · intro h
      obtain ⟨a', s1, he, hf⟩ := h
      obtain ⟨ha, rfl⟩ := Prod.mk.inj he
      exact Except.ok.inj ha ▸ hf
  | error e =>
    constructor
    · exact fun h => nomatch (Prod.mk.inj h).1
    · intro h
      obtain ⟨a', s1, he, -⟩ := h
      exact nomatch (Prod.mk.inj he).1

theorem run_pure_ok {a b : α} {s s' : σ} :
    (pure a : ExceptT ε (StateM σ) α) s = (.ok b, s') ↔ a = b ∧ s = s' := by
  show ((Except.ok a, s) : Except ε α × σ) = _ ↔ _
  simp

end

end GenVM.Lib.Except
