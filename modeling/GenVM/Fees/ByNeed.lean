import Mathlib
import GenVM.Fees.Expr
import GenVM.Fees.Alike

/-!
# Fee expressions are computed independently of what was computed before

The memory of a run by need is described by names (`Alike`): a deferred thunk
will be computed as its name is, and a forced one holds what its name gives
(`HeapInv`). A run with a result has the result by name (`runNeed_sound`).
Conversely, a result by name is reached (`runNeed_complete`), as long as no
thunk in progress has a value by name with less fuel: the value of a thunk
never depends on itself. That is also why a failed run leaves only thunks in
progress that have no value by name (`runNeed_fails`).

**Results.**
* `history_inv`: after any evaluations and applications, each with a value or an
  error, memory is described by names and every thunk in progress has no value.
* `apply_with_by_name`: the next application has a value exactly when the
  application by name, evaluated from the expression again, has it.
-/
namespace GenVM.FeeExpr

/-! ## More fuel -/

theorem NeedRun.next_ok {r : NeedRun} {k : Value Nat → Heap → NeedRun} {u : Value Nat} {h : Heap}
    (hn : r.next k = some (.ok u, h)) : ∃ w h₁, r = some (.ok w, h₁) ∧ k w h₁ = some (.ok u, h) := by
  match r, hn with
  | some (.ok w, h₁), hn => exact ⟨w, h₁, rfl, hn⟩

theorem NeedRun.next_error {r : NeedRun} {k : Value Nat → Heap → NeedRun} {e : EvalError} {h : Heap}
    (hn : r.next k = some (.error e, h)) :
    r = some (.error e, h) ∨ ∃ w h₁, r = some (.ok w, h₁) ∧ k w h₁ = some (.error e, h) := by
  match r, hn with
  | some (.ok w, h₁), hn => exact .inr ⟨w, h₁, rfl, hn⟩
  | some (.error _, _), hn => exact .inl hn

theorem NeedRun.next_of_ok {r : NeedRun} {k : Value Nat → Heap → NeedRun} {w : Value Nat} {h : Heap}
    (hr : r = some (.ok w, h)) : r.next k = k w h := by
  rw [hr]; rfl

theorem NeedRun.next_mono {r r' : NeedRun} {k k' : Value Nat → Heap → NeedRun} {x : Res Nat × Heap}
    (hr : ∀ y, r = some y → r' = some y) (hk : ∀ w h, k w h = some x → k' w h = some x)
    (hn : r.next k = some x) : r'.next k' = some x := by
  match r, hr, hn with
  | some (.ok w, h), hr, hn => rw [hr _ rfl]; exact hk w h hn
  | some (.error e, h), hr, hn => rw [hr _ rfl]; exact hn

theorem force_mono {ev ev' : Expr → EvalContext Nat → Heap → NeedRun}
    (hev : ∀ e ctx h y, ev e ctx h = some y → ev' e ctx h = some y) {a : Nat} {h : Heap}
    {x : Res Nat × Heap} (hf : force ev a h = some x) : force ev' a h = some x := by
  unfold force at hf ⊢
  split at hf
  · exact hf
  · exact hf
  · exact NeedRun.next_mono (hev _ _ _) (fun _ _ hk => hk) hf
  · exact hf

theorem runNeed_mono {ev ev' : Expr → EvalContext Nat → Heap → NeedRun}
    (hev : ∀ e ctx h y, ev e ctx h = some y → ev' e ctx h = some y) (p : Prog Nat) :
    ∀ {h : Heap} {x : Res Nat × Heap}, runNeed ev p h = some x → runNeed ev' p h = some x := by
  induction p with
  | ret r => exact fun hr => hr
  | eval e ctx k ih => exact NeedRun.next_mono (hev _ _ _) fun w _ => ih w
  | delay e ctx k ih => exact ih _
  | force a k ih => exact NeedRun.next_mono (fun _ => force_mono hev) fun w _ => ih w

theorem need_succ (n : Nat) : ∀ {e : Expr} {ctx : EvalContext Nat} {h : Heap} {x : Res Nat × Heap},
    need n e ctx h = some x → need (n + 1) e ctx h = some x := by
  induction n with
  | zero => intro _ _ _ _ h; cases h
  | succ n ih => exact runNeed_mono (fun _ _ _ _ => ih) _

theorem need_le {n m : Nat} (hnm : n ≤ m) {e : Expr} {ctx : EvalContext Nat} {h : Heap}
    {x : Res Nat × Heap} (hr : need n e ctx h = some x) : need m e ctx h = some x := by
  induction hnm with
  | refl => exact hr
  | step _ ih => exact need_succ _ ih

theorem runNeed_le {n m : Nat} (hnm : n ≤ m) {p : Prog Nat} {h : Heap} {x : Res Nat × Heap}
    (hr : runNeed (need n) p h = some x) : runNeed (need m) p h = some x :=
  runNeed_mono (fun _ _ _ _ => need_le hnm) p hr

theorem NameRun.next_ok {r : NameRun} {k : Value Closure → NameRun} {v : Value Closure}
    (hn : r.next k = some (.ok v)) : ∃ w, r = some (.ok w) ∧ k w = some (.ok v) := by
  match r, hn with
  | some (.ok w), hn => exact ⟨w, rfl, hn⟩

theorem NameRun.next_of_ok {r : NameRun} {k : Value Closure → NameRun} {w : Value Closure}
    (hr : r = some (.ok w)) : r.next k = k w := by
  rw [hr]; rfl

theorem NameRun.next_mono {r r' : NameRun} {k k' : Value Closure → NameRun} {x : Res Closure}
    (hr : ∀ y, r = some y → r' = some y) (hk : ∀ w, k w = some x → k' w = some x)
    (hn : r.next k = some x) : r'.next k' = some x := by
  match r, hr, hn with
  | some (.ok w), hr, hn => rw [hr _ rfl]; exact hk w hn
  | some (.error e), hr, hn => rw [hr _ rfl]; exact hn

theorem demand_mono {ev ev' : Expr → EvalContext Closure → NameRun}
    (hev : ∀ e ctx y, ev e ctx = some y → ev' e ctx = some y) {c : Closure} {x : Res Closure}
    (hd : demand ev c = some x) : demand ev' c = some x := by
  cases c with
  | expr e get_var env => exact hev _ _ _ hd
  | given d => exact hd

theorem runName_mono {ev ev' : Expr → EvalContext Closure → NameRun}
    (hev : ∀ e ctx y, ev e ctx = some y → ev' e ctx = some y) (p : Prog Closure) :
    ∀ {x : Res Closure}, runName ev p = some x → runName ev' p = some x := by
  induction p with
  | ret r => exact fun hr => hr
  | eval e ctx k ih => exact NameRun.next_mono (hev _ _) fun w => ih w
  | delay e ctx k ih => exact ih _
  | force c k ih => exact NameRun.next_mono (fun _ => demand_mono hev) fun w => ih w

theorem name_succ (n : Nat) : ∀ {e : Expr} {ctx : EvalContext Closure} {x : Res Closure},
    name n e ctx = some x → name (n + 1) e ctx = some x := by
  induction n with
  | zero => intro _ _ _ h; cases h
  | succ n ih => exact runName_mono (fun _ _ _ => ih) _

theorem name_le {n m : Nat} (hnm : n ≤ m) {e : Expr} {ctx : EvalContext Closure} {x : Res Closure}
    (hr : name n e ctx = some x) : name m e ctx = some x := by
  induction hnm with
  | refl => exact hr
  | step _ ih => exact name_succ _ ih

theorem runName_le {n m : Nat} (hnm : n ≤ m) {p : Prog Closure} {x : Res Closure}
    (hr : runName (name n) p = some x) : runName (name m) p = some x :=
  runName_mono (fun _ _ _ => name_le hnm) p hr

theorem demand_le {n m : Nat} (hnm : n ≤ m) {c : Closure} {x : Res Closure}
    (hr : demand (name n) c = some x) : demand (name m) c = some x :=
  demand_mono (fun _ _ _ => name_le hnm) hr

/-- The suspended expression has this value by name. -/
def Evals (c : Closure) (v : Value Closure) : Prop := ∃ n, demand (name n) c = some (.ok v)

theorem Evals.unique {c : Closure} {v w : Value Closure} (h : Evals c v) (h' : Evals c w) : v = w := by
  obtain ⟨n, h⟩ := h
  obtain ⟨m, h'⟩ := h'
  have := (demand_le (le_max_left n m) h).symm.trans (demand_le (le_max_right n m) h')
  cases this
  rfl

/-! ## Memory described by names -/

def EvalContext.closure (ctx : EvalContext Closure) (e : Expr) : Closure :=
  .expr e ctx.get_var ctx.let_bindings

structure HeapInv (N : Names) (h : Heap) : Prop where
  length : h.length = N.length
  deferred : ∀ (a : Nat) e ctx, h[a]? = some (ThunkState.deferred e ctx) →
    ∃ ctx', N[a]? = some (ctx'.closure e) ∧ CtxAlike N ctx ctx'
  forced : ∀ (a : Nat) u, h[a]? = some (ThunkState.forced u) → ∃ c v, N[a]? = some c ∧ Evals c v ∧ Alike N u v

theorem HeapInv.named {N : Names} {h : Heap} (hi : HeapInv N h) {a : Nat} {s : ThunkState}
    (hs : h[a]? = some s) : ∃ c, N[a]? = some c := by
  have ha : a < N.length := hi.length ▸ (List.getElem?_eq_some_iff.mp hs).1
  exact ⟨N[a], List.getElem?_eq_getElem ha⟩

theorem HeapInv.cell {N : Names} {h : Heap} (hi : HeapInv N h) {a : Nat} {c : Closure}
    (hc : N[a]? = some c) : ∃ s, h[a]? = some s := by
  have ha : a < h.length := hi.length ▸ (List.getElem?_eq_some_iff.mp hc).1
  exact ⟨h[a], List.getElem?_eq_getElem ha⟩

/-- A cell that does not hold the state just set has the state it had. -/
theorem cell_of_set {h : Heap} {a b : Nat} {s t : ThunkState} (hb : (h.set a s)[b]? = some t)
    (hst : s ≠ t) : a ≠ b ∧ h[b]? = some t := by
  rw [List.getElem?_set] at hb
  grind

theorem HeapInv.in_progress {N : Names} {h : Heap} (hi : HeapInv N h) (a : Nat) :
    HeapInv N (h.set a .inProgress) where
  length := by rw [List.length_set]; exact hi.length
  deferred b e ctx hb := hi.deferred b e ctx (cell_of_set hb (by simp)).2
  forced b u hb := hi.forced b u (cell_of_set hb (by simp)).2

theorem HeapInv.set_forced {N : Names} {h : Heap} (hi : HeapInv N h) {a : Nat} {c : Closure}
    {u : Value Nat} {v : Value Closure} (hc : N[a]? = some c) (hv : Evals c v) (hu : Alike N u v) :
    HeapInv N (h.set a (.forced u)) where
  length := by rw [List.length_set]; exact hi.length
  deferred b e ctx hb := hi.deferred b e ctx (cell_of_set hb (by simp)).2
  forced b w hb := by
    by_cases hw : ThunkState.forced u = .forced w
    · cases hw
      by_cases hab : a = b
      · exact hab ▸ ⟨c, v, hc, hv, hu⟩
      · rw [List.getElem?_set_ne hab] at hb
        exact hi.forced b u hb
    · exact hi.forced b w (cell_of_set hb hw).2

/-- A new cell whose name describes it. -/
theorem HeapInv.alloc {N : Names} {h : Heap} (hi : HeapInv N h) {s : ThunkState} {c : Closure}
    (hd : ∀ e ctx, s = .deferred e ctx → ∃ ctx', c = ctx'.closure e ∧ CtxAlike N ctx ctx')
    (hf : ∀ u, s = .forced u → ∃ v, Evals c v ∧ Alike N u v) : HeapInv (N ++ [c]) (h ++ [s]) where
  length := by rw [List.length_append, List.length_append, hi.length]; rfl
  deferred b e ctx hb := by
    have g := Names.grows_append N [c]
    by_cases hlt : b < h.length
    · rw [List.getElem?_append_left hlt] at hb
      obtain ⟨ctx', hn, hc⟩ := hi.deferred b e ctx hb
      exact ⟨ctx', g _ _ hn, hc.grow g⟩
    · have hbn : b = N.length := by
        have := (List.getElem?_eq_some_iff.mp hb).1
        rw [List.length_append, List.length_singleton] at this
        have := hi.length
        omega
      subst hbn
      rw [← hi.length, List.getElem?_concat_length] at hb
      obtain ⟨ctx', rfl, hc⟩ := hd e ctx (Option.some.inj hb)
      exact ⟨ctx', List.getElem?_concat_length, hc.grow g⟩
  forced b u hb := by
    have g := Names.grows_append N [c]
    by_cases hlt : b < h.length
    · rw [List.getElem?_append_left hlt] at hb
      obtain ⟨c', v, hn, hv, hu⟩ := hi.forced b u hb
      exact ⟨c', v, g _ _ hn, hv, hu.grow g⟩
    · have hbn : b = N.length := by
        have := (List.getElem?_eq_some_iff.mp hb).1
        rw [List.length_append, List.length_singleton] at this
        have := hi.length
        omega
      subst hbn
      rw [← hi.length, List.getElem?_concat_length] at hb
      obtain ⟨v, hv, hu⟩ := hf u (Option.some.inj hb)
      exact ⟨c, v, List.getElem?_concat_length, hv, hu.grow g⟩

theorem HeapInv.alloc_deferred {N : Names} {h : Heap} (hi : HeapInv N h) {ctx : EvalContext Nat}
    {ctx' : EvalContext Closure} (hc : CtxAlike N ctx ctx') (e : Expr) :
    HeapInv (N ++ [ctx'.closure e]) (h ++ [.deferred e ctx]) := by
  apply hi.alloc
  · intro _ _ he
    cases he
    exact ⟨ctx', rfl, hc⟩
  · intro _ he
    cases he

theorem HeapInv.alloc_given {N : Names} {h : Heap} (hi : HeapInv N h) (d : Value Empty) :
    HeapInv (N ++ [.given d]) (h ++ [.forced d.lift]) := by
  apply hi.alloc
  · intro _ _ he
    cases he
  · intro _ he
    cases he
    exact ⟨d.lift, ⟨0, rfl⟩, alike_lift N d⟩

/-- The thunks in progress of `h'` are in progress in `h`. -/
def NoNew (h h' : Heap) : Prop := ∀ a : Nat, h'[a]? = some .inProgress → h[a]? = some .inProgress

theorem NoNew.append (h : Heap) {s : ThunkState} (hs : s ≠ .inProgress) : NoNew h (h ++ [s]) := by
  intro a ha
  by_cases hlt : a < h.length
  · rwa [List.getElem?_append_left hlt] at ha
  · have : a = h.length := by
      have := (List.getElem?_eq_some_iff.mp ha).1
      rw [List.length_append, List.length_singleton] at this
      omega
    subst this
    rw [List.getElem?_concat_length] at ha
    exact absurd (Option.some.inj ha) hs

/-! ## A result by need is a result by name -/

/-- A run from `h` has ended with `u` in `h'`, which `P` is true of by name. -/
def Done (N : Names) (h : Heap) (P : Value Closure → Prop) (u : Value Nat) (h' : Heap) : Prop :=
  ∃ M v, N.Grows M ∧ HeapInv M h' ∧ Alike M u v ∧ P v ∧ NoNew h h'

/-- What `ev` computes is a result by name. -/
def EvSound (ev : Expr → EvalContext Nat → Heap → NeedRun) : Prop :=
  ∀ {N : Names} {e : Expr} {ctx : EvalContext Nat} {ctx' : EvalContext Closure} {h h' : Heap}
    {u : Value Nat}, HeapInv N h → CtxAlike N ctx ctx' → ev e ctx h = some (.ok u, h') →
    Done N h (Evals (ctx'.closure e)) u h'

theorem force_sound {ev : Expr → EvalContext Nat → Heap → NeedRun} (hev : EvSound ev) {N : Names}
    {h h' : Heap} {a : Nat} {c : Closure} {u : Value Nat} (hi : HeapInv N h) (hc : N[a]? = some c)
    (hf : force ev a h = some (.ok u, h')) : Done N h (Evals c) u h' := by
  unfold force at hf
  split at hf
  next w hw =>
    cases hf
    obtain ⟨c', v, hc', hv, hu⟩ := hi.forced a _ hw
    rw [hc] at hc'
    cases hc'
    exact ⟨N, v, .refl N, hi, hu, hv, fun _ hp => hp⟩
  · cases hf
  next e ctx hd =>
    obtain ⟨w, h₁, he, hk⟩ := NeedRun.next_ok hf
    cases hk
    obtain ⟨ctx', hc', hctx⟩ := hi.deferred a e ctx hd
    rw [hc] at hc'
    cases hc'
    obtain ⟨M, v, g, hi₁, hu, hv, hnew⟩ := hev (hi.in_progress a) hctx he
    refine ⟨M, v, g, hi₁.set_forced (g _ _ hc) hv hu, hu, hv, fun b hb => ?_⟩
    obtain ⟨hab, hb⟩ := cell_of_set hb (by simp)
    have := hnew b hb
    rwa [List.getElem?_set_ne hab] at this
  · cases hf

theorem runNeed_sound_of {ev : Expr → EvalContext Nat → Heap → NeedRun} (hev : EvSound ev)
    {N : Names} {p : Prog Nat} {p' : Prog Closure} (hs : Sim N p p') :
    ∀ {h h' : Heap} {u : Value Nat}, HeapInv N h → runNeed ev p h = some (.ok u, h') →
      Done N h (fun v => ∃ n, runName (name n) p' = some (.ok v)) u h' := by
  induction hs with
  | @ret N r r' hr =>
    intro h h' u hi he
    cases he
    cases r' with
    | error _ => exact hr.elim
    | ok v => exact ⟨N, v, .refl N, hi, hr, ⟨0, rfl⟩, fun _ hp => hp⟩
  | eval hc _ ih =>
    intro h h' u hi he
    obtain ⟨w, h₁, he₁, hk⟩ := NeedRun.next_ok he
    obtain ⟨M, v, g, hi₁, hw, ⟨n, hv⟩, hnew⟩ := hev hi hc he₁
    obtain ⟨M', v', g', hi', hu, ⟨n', hv'⟩, hnew'⟩ := ih M w v g hw hi₁ hk
    refine ⟨M', v', g.trans g', hi', hu, ⟨max n n', ?_⟩, fun a ha => hnew a (hnew' a ha)⟩
    exact (NameRun.next_of_ok (demand_le (le_max_left n n') hv)).trans
      (runName_le (le_max_right n n') hv')
  | @delay N e ctx ctx' _ _ hc _ ih =>
    intro h h' u hi he
    have g := Names.grows_append N [ctx'.closure e]
    have ha : (N ++ [ctx'.closure e])[h.length]? = some (ctx'.closure e) := by
      rw [hi.length]; exact List.getElem?_concat_length
    obtain ⟨M, v, g', hi', hu, hv, hnew⟩ := ih _ h.length g ha (hi.alloc_deferred hc e) he
    exact ⟨M, v, g.trans g', hi', hu, hv, fun a ha => NoNew.append h (by simp) a (hnew a ha)⟩
  | force hc _ ih =>
    intro h h' u hi he
    obtain ⟨w, h₁, he₁, hk⟩ := NeedRun.next_ok he
    obtain ⟨M, v, g, hi₁, hw, ⟨n, hv⟩, hnew⟩ := force_sound hev hi hc he₁
    obtain ⟨M', v', g', hi', hu, ⟨n', hv'⟩, hnew'⟩ := ih M w v g hw hi₁ hk
    refine ⟨M', v', g.trans g', hi', hu, ⟨max n n', ?_⟩, fun a ha => hnew a (hnew' a ha)⟩
    exact (NameRun.next_of_ok (demand_le (le_max_left n n') hv)).trans
      (runName_le (le_max_right n n') hv')

theorem need_sound (n : Nat) : EvSound (need n) := by
  induction n with
  | zero => intro _ _ _ _ _ _ _ _ _ h; cases h
  | succ n ih =>
    intro N e ctx ctx' h h' u hi hc he
    obtain ⟨M, v, g, hi', hu, ⟨m, hv⟩, hnew⟩ := runNeed_sound_of ih (evalBody_sim hc e) hi he
    exact ⟨M, v, g, hi', hu, ⟨m + 1, hv⟩, hnew⟩

theorem runNeed_sound {n : Nat} {N : Names} {p : Prog Nat} {p' : Prog Closure} (hs : Sim N p p')
    {h h' : Heap} {u : Value Nat} (hi : HeapInv N h)
    (he : runNeed (need n) p h = some (.ok u, h')) :
    Done N h (fun v => ∃ n, runName (name n) p' = some (.ok v)) u h' :=
  runNeed_sound_of (need_sound n) hs hi he

/-! ## A result by name is reached by need -/

/-- No thunk in progress has a value with fuel `n`. -/
def Waits (N : Names) (h : Heap) (n : Nat) : Prop :=
  ∀ (a : Nat) (c : Closure), h[a]? = some .inProgress → N[a]? = some c →
    ∀ m ≤ n, ∀ v, demand (name m) c ≠ some (.ok v)

theorem Waits.mono {N : Names} {h : Heap} {n m : Nat} (hw : Waits N h n) (hm : m ≤ n) :
    Waits N h m :=
  fun a c ha hc k hk => hw a c ha hc k (hk.trans hm)

/-- Names of the cells that were there already. -/
theorem HeapInv.name_of_grows {N M : Names} {h : Heap} (hi : HeapInv N h) (g : N.Grows M) {a : Nat}
    {s : ThunkState} {c : Closure} (hs : h[a]? = some s) (hc : M[a]? = some c) : N[a]? = some c := by
  obtain ⟨c', hc'⟩ := hi.named hs
  have := (g a c' hc').symm.trans hc
  rw [hc', this]

theorem Waits.grow {N M : Names} {h h' : Heap} {n : Nat} (hi : HeapInv N h) (g : N.Grows M)
    (hn : NoNew h h') (hw : Waits N h n) : Waits M h' n :=
  fun a _ ha hc => hw a _ (hn a ha) (hi.name_of_grows g (hn a ha) hc)

/-- With fuel below `n` no value is missed by need. -/
def Reaches (n : Nat) : Prop :=
  ∀ {N : Names} {p : Prog Nat} {p' : Prog Closure} {h : Heap} {v : Value Closure}, Sim N p p' →
    HeapInv N h → Waits N h n → runName (name n) p' = some (.ok v) →
    ∃ m u h', runNeed (need m) p h = some (.ok u, h')

/-- A deferred thunk whose expression has a value with fuel `n` can be computed:
with the least such fuel, nothing waits for the thunk itself. -/
theorem deferred_complete {n : Nat} (ih : ∀ m < n, Reaches m) {N : Names} {h : Heap} {a : Nat}
    {e : Expr} {ctx : EvalContext Nat} {ctx' : EvalContext Closure} {v : Value Closure}
    (hi : HeapInv N h) (hc : CtxAlike N ctx ctx') (ha : N[a]? = some (ctx'.closure e))
    (hw : Waits N h n) (hv : name n e ctx' = some (.ok v)) :
    ∃ m u h', need m e ctx (h.set a .inProgress) = some (.ok u, h') := by
  classical
  have hex : ∃ m, ∃ w, name m e ctx' = some (.ok w) := ⟨n, v, hv⟩
  obtain ⟨w, hm⟩ := Nat.find_spec hex
  have hle : Nat.find hex ≤ n := Nat.find_min' hex ⟨v, hv⟩
  have hleast : ∀ k < Nat.find hex, ∀ w, name k e ctx' ≠ some (.ok w) :=
    fun k hk w he => Nat.find_min hex hk ⟨w, he⟩
  generalize Nat.find hex = m at hm hle hleast
  cases m with
  | zero => cases hm
  | succ m =>
    have hwait : Waits N (h.set a .inProgress) m := by
      intro b c hb hcb k hk w' hd
      by_cases hab : a = b
      · subst hab
        rw [ha] at hcb
        cases hcb
        exact hleast k (by omega) w' hd
      · rw [List.getElem?_set_ne hab] at hb
        exact hw b c hb hcb k (by omega) w' hd
    obtain ⟨m', u, h', hr⟩ := ih m (by omega) (evalBody_sim hc e) (hi.in_progress a) hwait hm
    exact ⟨m' + 1, u, h', hr⟩

theorem force_complete {n : Nat} (ih : ∀ m < n, Reaches m) {N : Names} {h : Heap} {a : Nat}
    {c : Closure} {v : Value Closure} (hi : HeapInv N h) (hc : N[a]? = some c) (hw : Waits N h n)
    (hv : demand (name n) c = some (.ok v)) :
    ∃ m u h', force (need m) a h = some (.ok u, h') := by
  obtain ⟨s, hs⟩ := hi.cell hc
  unfold force
  rw [hs]
  cases s with
  | forced u => exact ⟨0, u, h, rfl⟩
  | inProgress => exact absurd hv (hw a c hs hc n le_rfl v)
  | deferred e ctx =>
    obtain ⟨ctx', hc', hctx⟩ := hi.deferred a e ctx hs
    rw [hc] at hc'
    cases hc'
    obtain ⟨m, u, h', hr⟩ := deferred_complete ih hi hctx hc hw hv
    exact ⟨m, u, h'.set a (.forced u), NeedRun.next_of_ok hr⟩

/-- Go on after a part of the run that is alike. -/
theorem next_complete {N : Names} {h h₁ : Heap} {n m : Nat} {u : Value Nat} {w : Value Closure}
    {k : Value Nat → Prog Nat} {k' : Value Closure → Prog Closure} {v : Value Closure}
    (ih : ∀ M u v, N.Grows M → Alike M u v → ∀ {h : Heap} {v' : Value Closure}, HeapInv M h →
      Waits M h n → runName (name n) (k' v) = some (.ok v') →
      ∃ m u' h', runNeed (need m) (k u) h = some (.ok u', h'))
    (hi : HeapInv N h) (hw : Waits N h n) (hd : Done N h (fun v => v = w) u h₁)
    (hk : runName (name n) (k' w) = some (.ok v)) :
    ∃ m' u' h', m ≤ m' ∧ runNeed (need m') (k u) h₁ = some (.ok u', h') := by
  obtain ⟨M, w', g, hi₁, hu, rfl, hnew⟩ := hd
  obtain ⟨m', u', h', hr⟩ := ih M u w' g hu hi₁ (hw.grow hi g hnew) hk
  exact ⟨max m m', u', h', le_max_left m m', runNeed_le (le_max_right m m') hr⟩

theorem Done.unique {N : Names} {h h' : Heap} {c : Closure} {u : Value Nat} {w : Value Closure}
    (hd : Done N h (Evals c) u h') (hw : Evals c w) : Done N h (fun v => v = w) u h' := by
  obtain ⟨M, v, g, hi, hu, hv, hnew⟩ := hd
  exact ⟨M, v, g, hi, hu, hv.unique hw, hnew⟩

theorem reaches (n : Nat) : Reaches n := by
  induction n using Nat.strong_induction_on with
  | _ n ihn =>
    intro N p p' h v hs
    induction hs generalizing h v with
    | @ret N r r' hr =>
      intro hi hw hv
      cases hv
      cases r with
      | error _ => exact hr.elim
      | ok u => exact ⟨0, u, h, rfl⟩
    | @eval N e ctx ctx' k k' hc _ ih =>
      intro hi hw hv
      obtain ⟨w, he, hk⟩ := NameRun.next_ok hv
      cases n with
      | zero => cases he
      | succ n =>
        obtain ⟨m, u, h₁, hr⟩ := ihn n (by omega) (evalBody_sim hc e) hi (hw.mono (by omega)) he
        have hr : need (m + 1) e ctx h = some (.ok u, h₁) := hr
        have hd := (need_sound _ hi hc hr).unique ⟨n + 1, he⟩
        obtain ⟨m', u', h', hle, hr'⟩ := next_complete (m := m + 1) ih hi hw hd hk
        exact ⟨m', u', h', (NeedRun.next_of_ok (need_le hle hr)).trans hr'⟩
    | @delay N e ctx ctx' k k' hc _ ih =>
      intro hi hw hv
      have g := Names.grows_append N [ctx'.closure e]
      have ha : (N ++ [ctx'.closure e])[h.length]? = some (ctx'.closure e) := by
        rw [hi.length]; exact List.getElem?_concat_length
      exact ih _ h.length g ha (hi.alloc_deferred hc e)
        (hw.grow hi g (NoNew.append h (by simp))) hv
    | @force N a c k k' hc _ ih =>
      intro hi hw hv
      obtain ⟨w, he, hk⟩ := NameRun.next_ok hv
      obtain ⟨m, u, h₁, hr⟩ := force_complete ihn hi hc hw he
      have hd := (force_sound (need_sound m) hi hc hr).unique ⟨n, he⟩
      obtain ⟨m', u', h', hle, hr'⟩ := next_complete (m := m) ih hi hw hd hk
      have hr : force (need m') a h = some (.ok u, h₁) := force_mono (fun _ _ _ _ => need_le hle) hr
      exact ⟨m', u', h', (NeedRun.next_of_ok hr).trans hr'⟩

/-! ## What a failed run leaves behind -/

/-- No thunk in progress has a value. -/
def Clean (N : Names) (h : Heap) : Prop :=
  ∀ (a : Nat) (c : Closure), h[a]? = some .inProgress → N[a]? = some c → ∀ v, ¬ Evals c v

theorem Clean.waits {N : Names} {h : Heap} (hc : Clean N h) (n : Nat) : Waits N h n :=
  fun a c ha hn m _ v hv => hc a c ha hn v ⟨m, hv⟩

theorem Clean.grow {N M : Names} {h h' : Heap} (hi : HeapInv N h) (g : N.Grows M)
    (hn : NoNew h h') (hc : Clean N h) : Clean M h' :=
  fun a _ ha hm => hc a _ (hn a ha) (hi.name_of_grows g (hn a ha) hm)

/-- Memory in order. -/
structure Ordered (N : Names) (h : Heap) : Prop where
  inv : HeapInv N h
  clean : Clean N h

theorem runNeed_complete {N : Names} {p : Prog Nat} {p' : Prog Closure} (hs : Sim N p p') {h : Heap}
    (ho : Ordered N h) {n : Nat} {v : Value Closure} (hv : runName (name n) p' = some (.ok v)) :
    ∃ m u h', runNeed (need m) p h = some (.ok u, h') :=
  reaches n hs ho.inv (ho.clean.waits n) hv

/-- A thunk whose computation fails has no value by name. -/
theorem clean_of_error {n : Nat} {N : Names} {h h' : Heap} {a : Nat} {e : Expr} {err : EvalError}
    {ctx : EvalContext Nat} {ctx' : EvalContext Closure} (ho : Ordered N h)
    (hc : CtxAlike N ctx ctx') (ha : N[a]? = some (ctx'.closure e))
    (he : need n e ctx (h.set a .inProgress) = some (.error err, h')) :
    Clean N (h.set a .inProgress) := by
  intro b c hb hcb v hv
  by_cases hab : a = b
  · subst hab
    rw [ha] at hcb
    cases hcb
    obtain ⟨k, hk⟩ := hv
    obtain ⟨m, u, h₁, hr⟩ :=
      deferred_complete (fun m _ => reaches m) ho.inv hc ha (ho.clean.waits k) hk
    have := (need_le (le_max_left n m) he).symm.trans (need_le (le_max_right n m) hr)
    cases this
  · rw [List.getElem?_set_ne hab] at hb
    exact ho.clean b c hb hcb v hv

/-- What `ev` leaves behind when it fails is in order. -/
def EvFails (ev : Expr → EvalContext Nat → Heap → NeedRun) : Prop :=
  ∀ {N : Names} {e : Expr} {ctx : EvalContext Nat} {ctx' : EvalContext Closure} {h h' : Heap}
    {err : EvalError}, Ordered N h → CtxAlike N ctx ctx' → ev e ctx h = some (.error err, h') →
    ∃ M, N.Grows M ∧ Ordered M h'

theorem Done.ordered {N : Names} {h h' : Heap} {P : Value Closure → Prop} {u : Value Nat}
    (ho : Ordered N h) (hd : Done N h P u h') :
    ∃ M v, N.Grows M ∧ Ordered M h' ∧ Alike M u v ∧ P v := by
  obtain ⟨M, v, g, hi, hu, hv, hnew⟩ := hd
  exact ⟨M, v, g, ⟨hi, ho.clean.grow ho.inv g hnew⟩, hu, hv⟩

theorem force_fails {n : Nat} (hev : EvFails (need n)) {N : Names} {h h' : Heap} {a : Nat}
    {err : EvalError} (ho : Ordered N h) (hf : force (need n) a h = some (.error err, h')) :
    ∃ M, N.Grows M ∧ Ordered M h' := by
  unfold force at hf
  split at hf
  · cases hf
  · cases hf
    exact ⟨N, .refl N, ho⟩
  next e ctx hd =>
    obtain ⟨ctx', hc', hctx⟩ := ho.inv.deferred a e ctx hd
    obtain he | ⟨_, _, _, hk⟩ := NeedRun.next_error hf
    · exact hev ⟨ho.inv.in_progress a, clean_of_error ho hctx hc' he⟩ hctx he
    · cases hk
  · cases hf

theorem runNeed_fails_of {n : Nat} (hev : EvFails (need n)) {N : Names} {p : Prog Nat}
    {p' : Prog Closure} (hs : Sim N p p') :
    ∀ {h h' : Heap} {err : EvalError}, Ordered N h →
      runNeed (need n) p h = some (.error err, h') → ∃ M, N.Grows M ∧ Ordered M h' := by
  induction hs with
  | @ret N r r' hr =>
    intro h h' err ho he
    cases he
    exact ⟨N, .refl N, ho⟩
  | eval hc _ ih =>
    intro h h' err ho he
    obtain he | ⟨w, h₁, he, hk⟩ := NeedRun.next_error he
    · exact hev ho hc he
    · obtain ⟨M, v, g, ho₁, hw, _⟩ := (need_sound n ho.inv hc he).ordered ho
      obtain ⟨M', g', ho'⟩ := ih M w v g hw ho₁ hk
      exact ⟨M', g.trans g', ho'⟩
  | @delay N e ctx ctx' _ _ hc _ ih =>
    intro h h' err ho he
    have g := Names.grows_append N [ctx'.closure e]
    have ha : (N ++ [ctx'.closure e])[h.length]? = some (ctx'.closure e) := by
      rw [ho.inv.length]; exact List.getElem?_concat_length
    obtain ⟨M, g', ho'⟩ := ih _ h.length g ha
      ⟨ho.inv.alloc_deferred hc e, ho.clean.grow ho.inv g (NoNew.append h (by simp))⟩ he
    exact ⟨M, g.trans g', ho'⟩
  | force hc _ ih =>
    intro h h' err ho he
    obtain he | ⟨w, h₁, he, hk⟩ := NeedRun.next_error he
    · exact force_fails hev ho he
    · obtain ⟨M, v, g, ho₁, hw, _⟩ := (force_sound (need_sound n) ho.inv hc he).ordered ho
      obtain ⟨M', g', ho'⟩ := ih M w v g hw ho₁ hk
      exact ⟨M', g.trans g', ho'⟩

theorem need_fails (n : Nat) : EvFails (need n) := by
  induction n with
  | zero => intro _ _ _ _ _ _ _ _ _ h; cases h
  | succ n ih =>
    intro N e ctx ctx' h h' err ho hc he
    exact runNeed_fails_of ih (evalBody_sim hc e) ho he

/-- Whether a run gives a value or an error, it leaves memory in order. -/
theorem runNeed_ordered {n : Nat} {N : Names} {p : Prog Nat} {p' : Prog Closure} (hs : Sim N p p')
    {h h' : Heap} {r : Res Nat} (ho : Ordered N h) (he : runNeed (need n) p h = some (r, h')) :
    ∃ M, N.Grows M ∧ Ordered M h' ∧
      ∀ u, r = .ok u → ∃ m v, runName (name m) p' = some (.ok v) ∧ Alike M u v := by
  cases r with
  | error err =>
    obtain ⟨M, g, ho'⟩ := runNeed_fails_of (need_fails n) hs ho he
    exact ⟨M, g, ho', fun u hu => by cases hu⟩
  | ok u =>
    obtain ⟨M, v, g, ho', hu, m, hv⟩ := (runNeed_sound hs ho.inv he).ordered ho
    refine ⟨M, g, ho', fun u' hu' => ?_⟩
    cases hu'
    exact ⟨m, v, hv, hu⟩

/-! ## Any history -/

theorem EnvAlike.nil (N : Names) : EnvAlike N [] [] := rfl

/-- A context without bindings. -/
theorem CtxAlike.empty (N : Names) (get_var : GetVar) : CtxAlike N ⟨get_var, []⟩ ⟨get_var, []⟩ :=
  ⟨rfl, EnvAlike.nil N⟩

/-- A value is kept with where it comes from. -/
def keep (r : Res Nat) (o : Origin) (vals : List (Value Nat × Origin)) : List (Value Nat × Origin) :=
  match r with
  | .ok u => (u, o) :: vals
  | .error _ => vals

/-- What evaluations of expressions and applications of their values lead to, in
any order, each with a value or an error. -/
inductive History : Heap → List (Value Nat × Origin) → Prop where
  | start : History [] []
  | evaluate {h vals fuel e get_var r h'} : History h vals →
      evaluate_with fuel e get_var h = some (r, h') → History h' (keep r (.expr e get_var) vals)
  | apply {h vals f o fuel arg get_var r h'} : History h vals → (f, o) ∈ vals →
      apply_with fuel f arg get_var h = some (r, h') →
      History h' (keep r (.applied o arg get_var) vals)

/-- The value is what its origin gives by name. -/
def Stems (N : Names) (u : Value Nat) (o : Origin) : Prop :=
  ∃ n v, nameOf n o = some (.ok v) ∧ Alike N u v

theorem nameOf_le {n m : Nat} (hnm : n ≤ m) {o : Origin} :
    ∀ {x : Res Closure}, nameOf n o = some x → nameOf m o = some x := by
  induction o with
  | expr e get_var => exact name_le hnm
  | applied f arg get_var ih =>
    exact NameRun.next_mono (fun _ => ih) fun _ => runName_le hnm

/-- Memory with the argument of an application. -/
theorem Ordered.given {N : Names} {h : Heap} (ho : Ordered N h) (d : Value Empty) :
    Ordered (N ++ [.given d]) (h ++ [.forced d.lift]) where
  inv := ho.inv.alloc_given d
  clean := ho.clean.grow ho.inv (Names.grows_append N _) (NoNew.append h (by simp))

theorem apply_given_sim {N : Names} {h : Heap} (ho : Ordered N h) {f : Value Nat}
    {g : Value Closure} (hf : Alike N f g) (arg : Value Empty) (get_var : GetVar) :
    Sim (N ++ [.given arg]) (apply f h.length ⟨get_var, []⟩) (apply g (.given arg) ⟨get_var, []⟩) := by
  have ha : (N ++ [Closure.given arg])[h.length]? = some (.given arg) := by
    rw [ho.inv.length]; exact List.getElem?_concat_length
  exact apply_sim (hf.grow (Names.grows_append N _)) ha (.empty _ get_var)

theorem evaluate_with_ordered {fuel : Nat} {e : Expr} {get_var : GetVar} {N : Names} {h h' : Heap}
    {r : Res Nat} (ho : Ordered N h) (he : evaluate_with fuel e get_var h = some (r, h')) :
    ∃ M, N.Grows M ∧ Ordered M h' ∧ ∀ u, r = .ok u → Stems M u (.expr e get_var) := by
  cases fuel with
  | zero => cases he
  | succ n =>
    obtain ⟨M, g, ho', hr⟩ := runNeed_ordered (evalBody_sim (.empty N get_var) e) ho he
    refine ⟨M, g, ho', fun u hu => ?_⟩
    obtain ⟨m, v, hv, ha⟩ := hr u hu
    exact ⟨m + 1, v, hv, ha⟩

theorem apply_with_ordered {fuel : Nat} {f : Value Nat} {o : Origin} {arg : Value Empty}
    {get_var : GetVar} {N : Names} {h h' : Heap} {r : Res Nat} (ho : Ordered N h)
    (hf : Stems N f o) (he : apply_with fuel f arg get_var h = some (r, h')) :
    ∃ M, N.Grows M ∧ Ordered M h' ∧ ∀ u, r = .ok u → Stems M u (.applied o arg get_var) := by
  obtain ⟨n, w, hn, hw⟩ := hf
  obtain ⟨M, g, ho', hr⟩ := runNeed_ordered (apply_given_sim ho hw arg get_var) (ho.given arg) he
  refine ⟨M, (Names.grows_append N _).trans g, ho', fun u hu => ?_⟩
  obtain ⟨m, v, hv, ha⟩ := hr u hu
  refine ⟨max n m, v, ?_, ha⟩
  exact (NameRun.next_of_ok (nameOf_le (le_max_left n m) hn)).trans
    (runName_le (le_max_right n m) hv)

theorem Stems.keep {N M : Names} (g : N.Grows M) {vals : List (Value Nat × Origin)}
    (hv : ∀ x ∈ vals, Stems N x.1 x.2) {r : Res Nat} {o : Origin} (hr : ∀ u, r = .ok u → Stems M u o) :
    ∀ x ∈ keep r o vals, Stems M x.1 x.2 := by
  have old : ∀ x ∈ vals, Stems M x.1 x.2 := fun x hx => by
    obtain ⟨n, v, hn, ha⟩ := hv x hx
    exact ⟨n, v, hn, ha.grow g⟩
  cases r with
  | error _ => exact old
  | ok u =>
    intro x hx
    obtain rfl | hx := List.mem_cons.mp hx
    · exact hr u rfl
    · exact old x hx

/-- Memory stays in order and values stay what their origins give, whatever is
evaluated and applied. -/
theorem history_inv {h : Heap} {vals : List (Value Nat × Origin)} (H : History h vals) :
    ∃ N, Ordered N h ∧ ∀ x ∈ vals, Stems N x.1 x.2 := by
  induction H with
  | start =>
    have inv : HeapInv [] [] :=
      { length := rfl
        deferred := fun _ _ _ h => by simp at h
        forced := fun _ _ h => by simp at h }
    exact ⟨[], ⟨inv, fun _ _ h => by simp at h⟩, fun _ hx => by cases hx⟩
  | evaluate _ he ih =>
    obtain ⟨N, ho, hv⟩ := ih
    obtain ⟨M, g, ho', hr⟩ := evaluate_with_ordered ho he
    exact ⟨M, ho', Stems.keep g hv hr⟩
  | apply _ hf he ih =>
    obtain ⟨N, ho, hv⟩ := ih
    obtain ⟨M, g, ho', hr⟩ := apply_with_ordered ho (hv _ hf) he
    exact ⟨M, ho', Stems.keep g hv hr⟩

/-- A value by name is reached by the next application. -/
theorem apply_with_complete {N : Names} {h : Heap} (ho : Ordered N h) {f : Value Nat} {o : Origin}
    (hf : Stems N f o) {arg : Value Empty} {get_var : GetVar} {n : Nat} {v : Value Closure}
    (hn : nameOf n (.applied o arg get_var) = some (.ok v)) :
    ∃ fuel u h', apply_with fuel f arg get_var h = some (.ok u, h') := by
  obtain ⟨m, w, hm, hw⟩ := hf
  obtain ⟨w', hn', hv⟩ := NameRun.next_ok hn
  have h₁ := nameOf_le (le_max_left m n) hm
  have h₂ := nameOf_le (le_max_right m n) hn'
  cases h₁.symm.trans h₂
  exact runNeed_complete (apply_given_sim ho hw arg get_var) (ho.given arg) hv

theorem nameOf_unique {n m : Nat} {o : Origin} {v w : Value Closure} (h : nameOf n o = some (.ok v))
    (h' : nameOf m o = some (.ok w)) : v = w := by
  have := (nameOf_le (le_max_left n m) h).symm.trans (nameOf_le (le_max_right n m) h')
  cases this
  rfl

/-- `u` in memory `h` is the value `v` by name: thunks of `u` stand for the
suspended expressions of `v`, and every thunk that was computed holds the value
of what it stands for. -/
def Holds (h : Heap) (u : Value Nat) (v : Value Closure) : Prop := ∃ N, HeapInv N h ∧ Alike N u v

/-- After any history, a call gives a value exactly when the application by name
gives it; of values that hold no thunks, the same one. -/
theorem apply_with_by_name {h : Heap} {vals : List (Value Nat × Origin)} (H : History h vals)
    {f : Value Nat} {o : Origin} (hf : (f, o) ∈ vals) (arg : Value Empty) (get_var : GetVar) :
    (∀ d : Value Empty, (∃ fuel h', apply_with fuel f arg get_var h = some (.ok d.lift, h')) ↔
      ∃ fuel, nameOf fuel (.applied o arg get_var) = some (.ok d.lift)) ∧
    (∀ fuel u h', apply_with fuel f arg get_var h = some (.ok u, h') →
      ∃ fuel v, nameOf fuel (.applied o arg get_var) = some (.ok v) ∧ Holds h' u v) ∧
    (∀ fuel v, nameOf fuel (.applied o arg get_var) = some (.ok v) →
      ∃ fuel u h', apply_with fuel f arg get_var h = some (.ok u, h') ∧ Holds h' u v) := by
  obtain ⟨N, ho, hv⟩ := history_inv H
  have sound : ∀ fuel u h', apply_with fuel f arg get_var h = some (.ok u, h') →
      ∃ fuel v, nameOf fuel (.applied o arg get_var) = some (.ok v) ∧ Holds h' u v := by
    intro fuel u h' he
    obtain ⟨M, _, ho', hr⟩ := apply_with_ordered ho (hv _ hf) he
    obtain ⟨n, v, hn, ha⟩ := hr u rfl
    exact ⟨n, v, hn, M, ho'.inv, ha⟩
  have complete : ∀ fuel v, nameOf fuel (.applied o arg get_var) = some (.ok v) →
      ∃ fuel u h', apply_with fuel f arg get_var h = some (.ok u, h') ∧ Holds h' u v := by
    intro n v hn
    obtain ⟨fuel, u, h', he⟩ := apply_with_complete ho (hv _ hf) hn
    obtain ⟨n', v', hn', hh⟩ := sound fuel u h' he
    exact ⟨fuel, u, h', he, nameOf_unique hn' hn ▸ hh⟩
  refine ⟨fun d => ⟨fun ⟨fuel, h', he⟩ => ?_, fun ⟨n, hn⟩ => ?_⟩, sound, complete⟩
  · obtain ⟨n, v, hn, M, _, ha⟩ := sound fuel _ h' he
    exact ⟨n, eq_of_alike_lift M ha ▸ hn⟩
  · obtain ⟨fuel, u, h', he, M, _, ha⟩ := complete n _ hn
    exact ⟨fuel, h', eq_lift_of_alike M ha ▸ he⟩

/-- `let b = boom in \x = if x then b else 1` -/
def lazyBoom : Expr :=
  .letIn "b" (.ident "boom") (.lambda "x" (.ifElse (.ident "x") (.ident "b") (.const 1)))

def lazyBoomFn : Value Nat :=
  .guestFn "x" (.ifElse (.ident "x") (.ident "b") (.const 1)) [("b", 0)]

theorem lazyBoom_evaluate : evaluate_with 3 lazyBoom no_free_vars [] =
    some (.ok lazyBoomFn, [.deferred (.ident "boom") ⟨no_free_vars, []⟩]) := rfl

theorem lazyBoom_fails : apply_with 5 lazyBoomFn (.bool true) no_free_vars
    [.deferred (.ident "boom") ⟨no_free_vars, []⟩] =
      some (.error (.undefinedVariable "boom"), [.inProgress, .forced (.bool true)]) := by
  rfl

/-- After a call in which `b` failed, the function still gives 1 where `b` is
not needed. -/
theorem apply_with_by_name_after_error : ∃ fuel h',
    apply_with fuel lazyBoomFn (.bool false) no_free_vars [.inProgress, .forced (.bool true)] =
      some (.ok (.rational 1), h') := by
  have evaluated := History.evaluate .start lazyBoom_evaluate
  have failed := History.apply evaluated List.mem_cons_self lazyBoom_fails
  have hf : (lazyBoomFn, Origin.expr lazyBoom no_free_vars) ∈
      [(lazyBoomFn, Origin.expr lazyBoom no_free_vars)] := List.mem_cons_self
  exact ((apply_with_by_name failed hf (.bool false) no_free_vars).1 (.rational 1)).mpr ⟨5, by rfl⟩

end GenVM.FeeExpr
