import Mathlib

/-!
# Agreement of two failing state programs

Two programs over one state agree at a state when, if both succeed there,
they return the same value and leave the same state. Agreement composes
along sequencing, so two ports of one algorithm are compared statement by
statement; what one of them does not survive need not be compared.

**Results.**
* `At.bind_rel`, `At.bind`: a sequence from agreement of its first part.
* `Rel.bind`: a sequence whose first parts end related.
* `Rel.throw_left`, `Rel.throw_right`: a failing program agrees with any other.
-/
namespace Agree

variable {σ ε α β : Type}

/-- Programs over a state that may fail; a failure drops the state. -/
abbrev Prog (σ ε α : Type) := StateT σ (Except ε) α

/-- Both programs, where they succeed from `s`, end in `R`-related ends. -/
def Rel (s : σ) (p q : Prog σ ε α) (R : α → σ → α → σ → Prop) : Prop :=
  ∀ a s1 b s2, p s = .ok (a, s1) → q s = .ok (b, s2) → R a s1 b s2

/-- Both programs, where they succeed from `s`, end alike. -/
def At (s : σ) (p q : Prog σ ε α) : Prop := Rel s p q fun a s1 b s2 => a = b ∧ s1 = s2

theorem bind_ok {p : Prog σ ε α} {f : α → Prog σ ε β} {s s2 : σ} {b : β} :
    (p >>= f) s = .ok (b, s2) ↔ ∃ a s1, p s = .ok (a, s1) ∧ f a s1 = .ok (b, s2) := by
  show Except.bind (p s) (fun r => f r.1 r.2) = Except.ok (b, s2) ↔ _
  rcases hp : p s with e | ⟨a, s1⟩
  · simp [Except.bind]
  · simp only [Except.bind, Except.ok.injEq, Prod.mk.injEq]
    constructor
    · intro h
      exact ⟨a, s1, ⟨rfl, rfl⟩, h⟩
    · intro h
      obtain ⟨a', s1', ⟨rfl, rfl⟩, h⟩ := h
      exact h

theorem pure_ok {a b : α} {s s1 : σ} :
    (pure a : Prog σ ε α) s = .ok (b, s1) ↔ a = b ∧ s = s1 := by
  show (Except.ok (a, s) : Except ε (α × σ)) = _ ↔ _
  simp

theorem throw_ok {e : ε} {s s1 : σ} {b : α} :
    ¬ (throw e : Prog σ ε α) s = .ok (b, s1) := by
  intro h
  cases h

theorem At.refl (s : σ) (p : Prog σ ε α) : At s p p := by
  intro a s1 b s2 h1 h2
  rw [h1] at h2
  simp only [Except.ok.injEq, Prod.mk.injEq] at h2
  exact h2

theorem At.symm {s : σ} {p q : Prog σ ε α} (h : At s p q) : At s q p := by
  intro a s1 b s2 h1 h2
  obtain ⟨ha, hs⟩ := h b s2 a s1 h2 h1
  exact ⟨ha.symm, hs.symm⟩

/-- The second parts are compared where both first parts have ended. -/
theorem At.bind_rel {s : σ} {p q : Prog σ ε α} {f g : α → Prog σ ε β}
    {R : β → σ → β → σ → Prop} (h : At s p q)
    (hf : ∀ a s1, p s = .ok (a, s1) → q s = .ok (a, s1) → Rel s1 (f a) (g a) R) :
    Rel s (p >>= f) (q >>= g) R := by
  intro b s2 c s3 h1 h2
  obtain ⟨a, s1, hp, hfa⟩ := bind_ok.mp h1
  obtain ⟨a', s1', hq, hga⟩ := bind_ok.mp h2
  obtain ⟨rfl, rfl⟩ := h a s1 a' s1' hp hq
  exact hf a s1 hp hq b s2 c s3 hfa hga

theorem At.bind {s : σ} {p q : Prog σ ε α} {f g : α → Prog σ ε β} (h : At s p q)
    (hf : ∀ a s1, p s = .ok (a, s1) → q s = .ok (a, s1) → At s1 (f a) (g a)) :
    At s (p >>= f) (q >>= g) :=
  h.bind_rel hf

/-- A shared first part. -/
theorem Rel.bind_left {s : σ} (p : Prog σ ε α) {f g : α → Prog σ ε β}
    {R : β → σ → β → σ → Prop}
    (hf : ∀ a s1, p s = .ok (a, s1) → Rel s1 (f a) (g a) R) :
    Rel s (p >>= f) (p >>= g) R :=
  (At.refl s p).bind_rel fun a s1 hp _ => hf a s1 hp

/-- Related ends followed by what related ends agree on. -/
theorem Rel.bind {s : σ} {p q : Prog σ ε α} {f g : α → Prog σ ε β}
    {R : α → σ → α → σ → Prop} {S : β → σ → β → σ → Prop} (h : Rel s p q R)
    (hf : ∀ a s1 b s2, R a s1 b s2 → ∀ c s3 d s4, f a s1 = .ok (c, s3) → g b s2 = .ok (d, s4) →
      S c s3 d s4) :
    Rel s (p >>= f) (q >>= g) S := by
  intro c s3 d s4 h1 h2
  obtain ⟨a, s1, hp, hfa⟩ := bind_ok.mp h1
  obtain ⟨b, s2, hq, hgb⟩ := bind_ok.mp h2
  exact hf a s1 b s2 (h a s1 b s2 hp hq) c s3 d s4 hfa hgb

theorem At.bind_left {s : σ} (p : Prog σ ε α) {f g : α → Prog σ ε β}
    (hf : ∀ a s1, p s = .ok (a, s1) → At s1 (f a) (g a)) : At s (p >>= f) (p >>= g) :=
  Rel.bind_left p hf

theorem Rel.throw_left {s : σ} {e : ε} {q : Prog σ ε α} {R : α → σ → α → σ → Prop} :
    Rel s (throw e) q R := by
  intro a s1 b s2 h1 _
  exact absurd h1 throw_ok

theorem Rel.throw_right {s : σ} {e : ε} {p : Prog σ ε α} {R : α → σ → α → σ → Prop} :
    Rel s p (throw e) R := by
  intro a s1 b s2 _ h2
  exact absurd h2 throw_ok

theorem At.of_eq {s : σ} {p q : Prog σ ε α} (h : p = q) : At s p q := by
  rw [h]
  exact At.refl s q

end Agree
