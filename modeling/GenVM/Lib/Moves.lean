import Mathlib

/-!
# Sequences of element moves

A move overwrites one slot with a constant or with what another slot holds
at that moment. Running moves one after the other reads slots that earlier
moves may already have overwritten; when no move does that the run is the
simultaneous assignment of the sources evaluated at the start.

**Results.**
* `run_of_fresh`: a sequence that reads no overwritten slot runs like the
  assignment of its sources evaluated beforehand.
* `assign_of_mem`, `assign_of_not_mem`: with distinct targets an assignment
  is read off pointwise; hence `assign_perm`.
-/
namespace Moves

variable {σ V : Type*}

/-- What a move writes: a constant, or the content of a slot. -/
inductive Src (σ V : Type*) where
  | value (v : V)
  | slot (s : σ)
  deriving DecidableEq, Repr

def Src.eval (f : σ → V) : Src σ V → V
  | .value v => v
  | .slot s => f s

@[simp] theorem Src.eval_value (f : σ → V) (v : V) : (Src.value v : Src σ V).eval f = v := rfl

@[simp] theorem Src.eval_slot (f : σ → V) (s : σ) : (Src.slot s : Src σ V).eval f = f s := rfl

section Run

variable [DecidableEq σ]

/-- Assignments, the later ones over the earlier ones. -/
def assign (f : σ → V) : List (σ × V) → σ → V
  | [] => f
  | w :: ws => assign (Function.update f w.1 w.2) ws

/-- Moves run one after the other. -/
def run (f : σ → V) : List (σ × Src σ V) → σ → V
  | [] => f
  | m :: ms => run (Function.update f m.1 (m.2.eval f)) ms

/-- No move reads a slot that an earlier move wrote. -/
def Fresh (ms : List (σ × Src σ V)) : Prop :=
  ms.Pairwise fun earlier later => later.2 ≠ .slot earlier.1

@[simp] theorem assign_nil (f : σ → V) : assign f [] = f := rfl

@[simp] theorem run_nil (f : σ → V) : run f [] = f := rfl

theorem run_append (f : σ → V) (ms ns : List (σ × Src σ V)) :
    run f (ms ++ ns) = run (run f ms) ns := by
  induction ms generalizing f with
  | nil => rfl
  | cons m ms ih => exact ih _

theorem assign_append (f : σ → V) (ws vs : List (σ × V)) :
    assign f (ws ++ vs) = assign (assign f ws) vs := by
  induction ws generalizing f with
  | nil => rfl
  | cons w ws ih => exact ih _

theorem eval_update {f : σ → V} {s : σ} {v : V} {x : Src σ V} (h : x ≠ .slot s) :
    x.eval (Function.update f s v) = x.eval f := by
  cases x with
  | value w => rfl
  | slot t =>
    have hne : t ≠ s := fun e => h (by rw [e])
    simp [Function.update_of_ne hne]

/-- Sources that nothing overwrites first may all be read at the start. -/
theorem run_of_fresh {ms : List (σ × Src σ V)} (h : Fresh ms) (f : σ → V) :
    run f ms = assign f (ms.map fun m => (m.1, m.2.eval f)) := by
  induction ms generalizing f with
  | nil => rfl
  | cons m ms ih =>
    obtain ⟨hm, hms⟩ := List.pairwise_cons.mp h
    have hkeep : ∀ n ∈ ms, n.2.eval (Function.update f m.1 (m.2.eval f)) = n.2.eval f := by
      intro n hn
      exact eval_update (hm n hn)
    show run (Function.update f m.1 (m.2.eval f)) ms = _
    rw [ih hms]
    have heq : ms.map (fun n => (n.1, n.2.eval (Function.update f m.1 (m.2.eval f))))
        = ms.map fun n => (n.1, n.2.eval f) := by
      apply List.map_congr_left
      intro n hn
      rw [hkeep n hn]
    rw [heq]
    rfl

theorem assign_of_not_mem {ws : List (σ × V)} {s : σ} (h : s ∉ ws.map Prod.fst) (f : σ → V) :
    assign f ws s = f s := by
  induction ws generalizing f with
  | nil => rfl
  | cons w ws ih =>
    simp only [List.map_cons, List.mem_cons, not_or] at h
    show assign (Function.update f w.1 w.2) ws s = f s
    rw [ih h.2, Function.update_of_ne h.1]

theorem run_of_not_mem {ms : List (σ × Src σ V)} {s : σ} (h : s ∉ ms.map Prod.fst) (f : σ → V) :
    run f ms s = f s := by
  induction ms generalizing f with
  | nil => rfl
  | cons m ms ih =>
    simp only [List.map_cons, List.mem_cons, not_or] at h
    show run (Function.update f m.1 (m.2.eval f)) ms s = f s
    rw [ih h.2, Function.update_of_ne h.1]

theorem assign_of_mem {ws : List (σ × V)} (hn : (ws.map Prod.fst).Nodup) {w : σ × V}
    (h : w ∈ ws) (f : σ → V) : assign f ws w.1 = w.2 := by
  induction ws generalizing f with
  | nil => cases h
  | cons u ws ih =>
    simp only [List.map_cons, List.nodup_cons] at hn
    show assign (Function.update f u.1 u.2) ws w.1 = w.2
    rcases List.mem_cons.mp h with rfl | hw
    · rw [assign_of_not_mem hn.1, Function.update_self]
    · exact ih hn.2 hw _

/-- With distinct targets the order of the assignments does not matter. -/
theorem assign_perm {ws vs : List (σ × V)} (hp : ws.Perm vs) (hn : (ws.map Prod.fst).Nodup)
    (f : σ → V) : assign f ws = assign f vs := by
  have hn' : (vs.map Prod.fst).Nodup := ((hp.map Prod.fst).nodup_iff).mp hn
  funext s
  by_cases hs : s ∈ ws.map Prod.fst
  · obtain ⟨w, hw, rfl⟩ := List.mem_map.mp hs
    rw [assign_of_mem hn hw, assign_of_mem hn' (hp.mem_iff.mp hw)]
  · have hs' : s ∉ vs.map Prod.fst := fun h => hs ((hp.map Prod.fst).mem_iff.mpr h)
    rw [assign_of_not_mem hs, assign_of_not_mem hs']

end Run

end Moves
