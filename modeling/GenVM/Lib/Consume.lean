import Mathlib

/-!
# Programs that consume a list

A parser is a failing program over what is left of its input. `Ends p s Q` says
that from `s` it ends in `Q` or fails in one of the ways it may; a loop that
takes something off the input each round ends when its fuel is as much as the
input weighs.

**Results.**
* `run_bind`: a program whose first part succeeds.
* `Ends.bind`, `Ends.mono`: ends compose.
* `Ends.chain`: a loop ends.
* `Goes.stop`: where a loop ends that goes on step by step.
-/
namespace GenVM.Lib.Consume

variable {σ ε α β : Type}

abbrev Parser (σ ε α : Type) := StateT σ (Except ε) α

theorem run_bind {p : Parser σ ε α} {f : α → Parser σ ε β} {s u : σ} {a : α} (h : p s = .ok (a, u)) :
    (p >>= f) s = f a u := by
  change Except.bind (p s) (fun r => f r.1 r.2) = _
  rw [h]
  rfl

theorem run_bind_error {p : Parser σ ε α} {f : α → Parser σ ε β} {s : σ} {e : ε} (h : p s = .error e) :
    (p >>= f) s = .error e := by
  change Except.bind (p s) (fun r => f r.1 r.2) = _
  rw [h]
  rfl

/-- From `s` the program ends in `Q`, or fails with a `good` error. -/
def Ends (good : ε → Prop) (p : Parser σ ε α) (s : σ) (Q : α → σ → Prop) : Prop :=
  match p s with
  | .ok (a, u) => Q a u
  | .error e => good e

variable {good : ε → Prop} {p : Parser σ ε α} {f : α → Parser σ ε β} {s : σ} {Q R : α → σ → Prop}

theorem Ends.pure {a : α} (h : Q a s) : Ends good (Pure.pure a : Parser σ ε α) s Q := h

theorem Ends.throw {e : ε} (h : good e) : Ends good (throw e : Parser σ ε α) s Q := h

theorem Ends.mono (h : Ends good p s Q) (hq : ∀ a u, Q a u → R a u) : Ends good p s R := by
  unfold Ends at h ⊢
  split at h
  · exact hq _ _ h
  · exact h

theorem Ends.bind {Q : β → σ → Prop} (h : Ends good p s fun a u => Ends good (f a) u Q) :
    Ends good (p >>= f) s Q := by
  unfold Ends at h
  change match Except.bind (p s) (fun r => f r.1 r.2) with
    | .ok (a, u) => Q a u
    | .error e => good e
  cases hp : p s with
  | ok r =>
    rw [hp] at h
    exact h
  | error e =>
    rw [hp] at h
    exact h

/-- What the first part ends in is known. -/
theorem Ends.run {Q : β → σ → Prop} {a : α} {u : σ} (hp : p s = .ok (a, u)) (h : Ends good (f a) u Q) :
    Ends good (p >>= f) s Q := by
  unfold Ends
  rw [run_bind hp]
  exact h

theorem Ends.elim (h : Ends good p s Q) : (∃ a u, p s = .ok (a, u) ∧ Q a u) ∨ ∃ e, p s = .error e ∧ good e := by
  unfold Ends at h
  cases hp : p s with
  | ok r =>
    rw [hp] at h
    exact .inl ⟨r.1, r.2, rfl, h⟩
  | error e =>
    rw [hp] at h
    exact .inr ⟨e, rfl, h⟩

/-- A program that ends nowhere fails. -/
theorem Ends.fails {e : ε} (h : Ends (· = e) p s fun _ _ => False) : p s = .error e := by
  obtain ⟨_, _, -, hfalse⟩ | ⟨e', herr, rfl⟩ := h.elim
  · exact hfalse.elim
  · exact herr

/-! ## Loops -/

/-- Steps until one does not go on. -/
def chain (out : ε) (step : α → Parser σ ε (Option α)) : Nat → α → Parser σ ε α
  | 0, _ => throw out
  | fuel + 1, a => do
    match ← step a with
    | some b => chain out step fuel b
    | none => Pure.pure a

/-- A step that goes on makes the input lighter; one that does not stops in `last`. -/
theorem Ends.chain {out : ε} {step : α → Parser σ ε (Option α)} (weight : σ → Nat) {inv last : σ → Prop}
    (hstep : ∀ a s, inv s → Ends good (step a) s fun b u => inv u ∧ weight u ≤ weight s ∧
      (b.isSome → weight u < weight s) ∧ (b = none → last u)) (fuel : Nat) : ∀ {a : α} {s : σ}, inv s →
    weight s < fuel →
    Ends good (Consume.chain out step fuel a) s fun _ u => inv u ∧ weight u ≤ weight s ∧ last u := by
  induction fuel with
  | zero => exact fun _ h => absurd h (Nat.not_lt_zero _)
  | succ fuel ih =>
    intro a s hs hf
    refine Ends.bind ((hstep a s hs).mono fun b u hu => ?_)
    obtain ⟨hinv, hle, hlt, hlast⟩ := hu
    cases b with
    | none => exact ⟨hinv, hle, hlast rfl⟩
    | some b =>
      have hlt := hlt rfl
      refine (ih hinv (by omega)).mono fun _ w hw => ?_
      exact ⟨hw.1, hw.2.1.trans hle, hw.2.2⟩

section
variable {out : ε} {step : α → Parser σ ε (Option α)} {fuel : Nat} {a b c : α} {u v : σ}

theorem chain_stop (h : step a s = .ok (none, u)) : chain out step (fuel + 1) a s = .ok (a, u) := by
  rw [chain, run_bind h]
  rfl

theorem chain_go (h : step a s = .ok (some b, u)) : chain out step (fuel + 1) a s = chain out step fuel b u := by
  rw [chain, run_bind h]

/-- From `a` over `s` the loop comes to `b` over `u`, with fuel for what is left there. -/
def Goes (weight : σ → Nat) (out : ε) (step : α → Parser σ ε (Option α)) (a : α) (s : σ) (b : α) (u : σ) : Prop :=
  ∀ fuel, weight s < fuel → ∃ rest, weight u < rest ∧ chain out step fuel a s = chain out step rest b u

variable {weight : σ → Nat}

theorem Goes.refl : Goes weight out step a s a s := fun fuel hf => ⟨fuel, hf, rfl⟩

theorem Goes.trans (h : Goes weight out step a s b u) (h' : Goes weight out step b u c v) :
    Goes weight out step a s c v := by
  intro fuel hf
  obtain ⟨rest, hrest, heq⟩ := h fuel hf
  obtain ⟨rest', hrest', heq'⟩ := h' rest hrest
  exact ⟨rest', hrest', heq.trans heq'⟩

theorem Goes.one (h : step a s = .ok (some b, u)) (hlt : weight u < weight s) : Goes weight out step a s b u := by
  intro fuel hf
  obtain ⟨fuel, rfl⟩ := Nat.exists_eq_add_of_lt (Nat.zero_lt_of_lt hf)
  rw [Nat.zero_add] at hf ⊢
  exact ⟨fuel, by omega, chain_go h⟩

theorem Goes.stop (h : Goes weight out step a s b u) (hstop : step b u = .ok (none, v)) (hf : weight s < fuel) :
    chain out step fuel a s = .ok (b, v) := by
  obtain ⟨rest, hrest, heq⟩ := h fuel hf
  obtain ⟨rest, rfl⟩ := Nat.exists_eq_add_of_lt (Nat.zero_lt_of_lt hrest)
  rw [heq]
  exact chain_stop hstop

end

end GenVM.Lib.Consume
