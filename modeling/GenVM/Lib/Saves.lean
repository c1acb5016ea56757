import GenVM.Lib.Agree

/-!
# What a failing state program saves

A program saves a property of its states when every run of it that ends goes
from states that have the property to states that have it. A read saves
everything; sequencing composes.

**Results.**
* `Saves.bind`, `Saves.ite`: along the shape of a program.
-/
namespace Agree

variable {σ ε α β : Type} {P : σ → Prop}

def Saves (P : σ → Prop) (p : Prog σ ε α) : Prop := ∀ s a s', p s = .ok (a, s') → P s → P s'

theorem Saves.pure (a : α) : Saves P (pure a : Prog σ ε α) := by
  intro s b s' h hs
  obtain ⟨-, rfl⟩ := pure_ok.mp h
  exact hs

theorem Saves.throw (e : ε) : Saves P (throw e : Prog σ ε α) :=
  fun _ _ _ h _ => absurd h throw_ok

theorem Saves.bind {p : Prog σ ε α} {f : α → Prog σ ε β} (hp : Saves P p) (hf : ∀ a, Saves P (f a)) :
    Saves P (p >>= f) := by
  intro s b s' h hs
  obtain ⟨a, s1, hfirst, hrest⟩ := bind_ok.mp h
  exact hf a s1 b s' hrest (hp s a s1 hfirst hs)

theorem Saves.ite {c : Prop} [Decidable c] {p q : Prog σ ε α} (hp : Saves P p) (hq : Saves P q) :
    Saves P (if c then p else q) := by
  split
  · exact hp
  · exact hq

end Agree
