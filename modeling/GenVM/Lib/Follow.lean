import GenVM.Lib.Agree

/-!
# One program in place of another

A program follows another from a state when it does there what the other one
does: it ends the same, or fails the same. What the other one ends in is kept, so
that the rest may rely on it.

**Results.**
* `Follows.bind`, `Follows.ite`: along the shape of the programs.
* `Follows.run`: the rest follows where the first part has ended.
-/
namespace Agree

variable {σ ε α β : Type}

/-- From `s` both programs do the same and end, if they do, in `Q`. -/
def Follows (s : σ) (p q : Prog σ ε α) (Q : α → σ → Prop) : Prop :=
  p s = q s ∧ ∀ a s', q s = .ok (a, s') → Q a s'

variable {s : σ} {p q : Prog σ ε α} {f g : α → Prog σ ε β} {Q R : α → σ → Prop} {S : β → σ → Prop}

theorem Follows.pure {a : α} (h : Q a s) : Follows s (pure a : Prog σ ε α) (pure a) Q := by
  refine ⟨rfl, fun b s' hb => ?_⟩
  obtain ⟨rfl, rfl⟩ := pure_ok.mp hb
  exact h

theorem Follows.throw (e : ε) : Follows s (throw e : Prog σ ε α) (throw e) Q :=
  ⟨rfl, fun _ _ h => absurd h throw_ok⟩

theorem Follows.mono (h : Follows s p q Q) (hq : ∀ a s', Q a s' → R a s') : Follows s p q R :=
  ⟨h.1, fun a s' ha => hq a s' (h.2 a s' ha)⟩

theorem Follows.bind (h : Follows s p q Q) (hf : ∀ a s', Q a s' → Follows s' (f a) (g a) S) :
    Follows s (p >>= f) (q >>= g) S := by
  constructor
  · change Except.bind (p s) (fun r => f r.1 r.2) = Except.bind (q s) fun r => g r.1 r.2
    rw [h.1]
    cases hq : q s with
    | error e => rfl
    | ok r => exact (hf r.1 r.2 (h.2 r.1 r.2 hq)).1
  · intro b s' hb
    obtain ⟨a, s1, hq, hg⟩ := bind_ok.mp hb
    exact (hf a s1 (h.2 a s1 hq)).2 b s' hg

/-- What the first part ends in is known. -/
theorem Follows.run {a : α} {s' : σ} (h : Follows s p q Q) (hq : q s = .ok (a, s'))
    (hf : Follows s' (f a) (g a) S) : Follows s (p >>= f) (q >>= g) S := by
  refine Follows.bind (Q := fun b u => b = a ∧ u = s') ⟨h.1, fun b u hb => ?_⟩ ?_
  · rw [hq] at hb
    obtain ⟨rfl, rfl⟩ := Prod.mk.inj (Except.ok.inj hb)
    exact ⟨rfl, rfl⟩
  · rintro b u ⟨rfl, rfl⟩
    exact hf

theorem Follows.ite {c : Prop} [Decidable c] {p' q' : Prog σ ε α} (h : c → Follows s p q Q)
    (h' : ¬ c → Follows s p' q' Q) : Follows s (if c then p else p') (if c then q else q') Q := by
  split
  · exact h ‹_›
  · exact h' ‹_›

end Agree
