import Mathlib

/-!
# A race to the least failing item

Items with increasing keys are checked by any number of workers in any order.
The least key whose check turns out bad is recorded, and what is not being
checked yet is skipped once something is recorded. A key can also be recorded
directly.

`Step` says what one step does, `Timely` that a step does not record anything
while the least bad item so far still waits, `Sound` that it is timely and that
no check fails to give a verdict.

* `least_iff`: when nothing waits and nothing is checked any more, the least bad
  key is recorded just when every step was sound.
-/
namespace GenVM.Lib.MinRace

/-- `verdict` is what the check says: bad, not bad, or nothing. -/
structure Item where
  key : Nat
  verdict : Option Bool

def Item.bad (i : Item) : Bool := i.verdict == some true

/-- `calls` has every key given out, with whether it is bad. -/
@[ext] structure Pool where
  calls : List (Nat × Bool)
  next : Nat
  waiting : Multiset Item
  running : Multiset Item
  recorded : Option Nat
  failed : Bool

def Pool.start : Pool := ⟨[], 0, 0, 0, none, false⟩

/-- The least of what is recorded and `key`. -/
def least : Option Nat → Nat → Nat
  | none, key => key
  | some k, key => min k key

inductive Label where
  | submit | mark | pass | pick | skip | finish (i : Item) | quiet

inductive Step : Pool → Label → Pool → Prop
  | submit (p : Pool) (verdict : Option Bool) :
      Step p .submit { p with
        calls := p.calls ++ [(p.next, (Item.mk p.next verdict).bad)], next := p.next + 1,
        waiting := ⟨p.next, verdict⟩ ::ₘ p.waiting }
  | mark (p : Pool) :
      Step p .mark { p with
        calls := p.calls ++ [(p.next, true)], next := p.next + 1,
        recorded := some (least p.recorded p.next) }
  | pass (p : Pool) : Step p .pass { p with next := p.next + 1 }
  | pick {p : Pool} {i : Item} {rest : Multiset Item} :
      p.waiting = i ::ₘ rest → p.recorded = none →
      Step p .pick { p with waiting := rest, running := i ::ₘ p.running }
  | skip {p : Pool} {i : Item} {rest : Multiset Item} :
      p.waiting = i ::ₘ rest → p.recorded ≠ none → Step p .skip { p with waiting := rest }
  | finish {p : Pool} {i : Item} {rest : Multiset Item} :
      p.running = i ::ₘ rest →
      Step p (.finish i) { p with
        running := rest,
        recorded := if i.bad then some (least p.recorded i.key) else p.recorded,
        failed := p.failed || i.verdict.isNone }
  | quiet (p : Pool) : Step p .quiet p

/-- `n` is the least bad key, or there is none. -/
def Earliest (calls : List (Nat × Bool)) : Option Nat → Prop
  | none => ∀ c ∈ calls, c.2 = false
  | some n => (n, true) ∈ calls ∧ ∀ c ∈ calls, c.2 = true → n ≤ c.1

def Label.Records : Label → Prop
  | .mark => True
  | .finish i => i.bad = true
  | _ => False

def Timely (p : Pool) (l : Label) : Prop :=
  l.Records → ∀ n, Earliest p.calls (some n) → ∀ i ∈ p.waiting, i.key ≠ n

def Sound (p : Pool) (l : Label) : Prop :=
  Timely p l ∧ ∀ i, l = .finish i → i.verdict ≠ none

/-- Runs, and whether all their steps are sound. -/
inductive Run : Pool → Prop → Pool → Prop
  | refl (p : Pool) : Run p True p
  | step {p p' p'' : Pool} {sound : Prop} {l : Label} :
      Run p sound p' → Step p' l p'' → Run p (sound ∧ Sound p' l) p''

/-! ## The least bad key -/

theorem Earliest.unique {calls : List (Nat × Bool)} {m n : Option Nat} (hm : Earliest calls m)
    (hn : Earliest calls n) : m = n := by
  cases m with
  | none =>
    cases n with
    | none => rfl
    | some n => cases hm _ hn.1
  | some m =>
    cases n with
    | none => cases hn _ hm.1
    | some n => exact congrArg some (le_antisymm (hm.2 _ hn.1 rfl) (hn.2 _ hm.1 rfl))

theorem earliest_exists (calls : List (Nat × Bool)) : ∃ n, Earliest calls n := by
  induction calls with
  | nil => exact ⟨none, fun _ h => nomatch h⟩
  | cons c calls ih =>
    obtain ⟨n, hn⟩ := ih
    obtain ⟨k, bad⟩ := c
    cases bad with
    | false =>
      cases n with
      | none => exact ⟨none, List.forall_mem_cons.mpr ⟨rfl, hn⟩⟩
      | some n =>
        exact ⟨some n, List.mem_cons_of_mem _ hn.1,
          List.forall_mem_cons.mpr ⟨fun h => (nomatch h), hn.2⟩⟩
    | true =>
      cases n with
      | none =>
        refine ⟨some k, List.mem_cons_self, List.forall_mem_cons.mpr ⟨fun _ => le_refl k, ?_⟩⟩
        intro c hc hbad
        rw [hn c hc] at hbad
        cases hbad
      | some n =>
        rcases le_total k n with hk | hk
        · exact ⟨some k, List.mem_cons_self, List.forall_mem_cons.mpr
            ⟨fun _ => le_refl k, fun c hc hbad => le_trans hk (hn.2 c hc hbad)⟩⟩
        · exact ⟨some n, List.mem_cons_of_mem _ hn.1,
            List.forall_mem_cons.mpr ⟨fun _ => hk, hn.2⟩⟩

/-- A larger key does not change the least one. -/
theorem Earliest.snoc {calls : List (Nat × Bool)} {n k : Nat} {bad : Bool} (hk : ∀ c ∈ calls, c.1 < k) :
    Earliest (calls ++ [(k, bad)]) (some n) ↔
      Earliest calls (some n) ∨ (Earliest calls none ∧ bad = true ∧ n = k) := by
  constructor
  · intro h
    obtain ⟨hmem, hle⟩ := h
    have hold : ∀ c ∈ calls, c.2 = true → n ≤ c.1 := fun c hc => hle c (List.mem_append_left _ hc)
    rcases List.mem_append.mp hmem with hmem | hmem
    · exact .inl ⟨hmem, hold⟩
    · cases List.mem_singleton.mp hmem
      refine .inr ⟨fun c hc => ?_, rfl, rfl⟩
      by_contra hbad
      have hlt := hk c hc
      have hge := hold c hc (Bool.not_eq_false _ ▸ hbad)
      omega
  · intro h
    rcases h with ⟨hmem, hle⟩ | ⟨hnone, rfl, rfl⟩
    · refine ⟨List.mem_append_left _ hmem, fun c hc hbad => ?_⟩
      rcases List.mem_append.mp hc with hc | hc
      · exact hle c hc hbad
      · rw [List.mem_singleton.mp hc]
        exact Nat.le_of_lt (hk _ hmem)
    · refine ⟨List.mem_append_right _ (List.mem_singleton_self _), fun c hc hbad => ?_⟩
      rcases List.mem_append.mp hc with hc | hc
      · rw [hnone c hc] at hbad
        cases hbad
      · rw [List.mem_singleton.mp hc]

/-! ## What every run keeps -/

/-- Every item is at one place, its key was given out, and only keys that are at
no place any more are recorded. -/
structure Inv (p : Pool) : Prop where
  given : ∀ c ∈ p.calls, c.1 < p.next
  nodup : ((p.waiting + p.running).map Item.key).Nodup
  known : ∀ i ∈ p.waiting + p.running, (i.key, i.bad) ∈ p.calls
  once : ∀ c ∈ p.calls, ∀ c' ∈ p.calls, c.1 = c'.1 → c = c'
  recorded : ∀ n ∈ p.recorded, (n, true) ∈ p.calls ∧ ∀ i ∈ p.waiting + p.running, i.key ≠ n

theorem least_cases (o : Option Nat) (key : Nat) : least o key = key ∨ o = some (least o key) := by
  cases o with
  | none => exact .inl rfl
  | some k =>
    rcases le_total k key with h | h
    · exact .inr (congrArg some (min_eq_left h).symm)
    · exact .inl (min_eq_right h)

theorem inv_start : Inv Pool.start := by
  refine ⟨?_, ?_, ?_, ?_, ?_⟩
  · exact fun _ h => nomatch h
  · exact Multiset.nodup_zero
  · exact fun i h => absurd h (Multiset.notMem_zero i)
  · exact fun _ h => nomatch h
  · exact fun _ h => nomatch h

theorem Inv.key_lt {p : Pool} (h : Inv p) {i : Item} (hi : i ∈ p.waiting + p.running) :
    i.key < p.next := h.given _ (h.known i hi)

/-- One more key is given out. -/
theorem Inv.give {p : Pool} (h : Inv p) (bad : Bool) :
    (∀ c ∈ p.calls ++ [(p.next, bad)], c.1 < p.next + 1) ∧
    ∀ c ∈ p.calls ++ [(p.next, bad)], ∀ c' ∈ p.calls ++ [(p.next, bad)], c.1 = c'.1 → c = c' := by
  constructor
  · intro c hc
    rcases List.mem_append.mp hc with hc | hc
    · exact Nat.lt_succ_of_lt (h.given c hc)
    · rw [List.mem_singleton.mp hc]
      exact Nat.lt_succ_self _
  · intro c hc c' hc' heq
    rcases List.mem_append.mp hc with hc | hc <;> rcases List.mem_append.mp hc' with hc' | hc'
    · exact h.once c hc c' hc' heq
    · rw [List.mem_singleton.mp hc'] at heq
      exact absurd heq (Nat.ne_of_lt (h.given c hc))
    · rw [List.mem_singleton.mp hc] at heq
      exact absurd heq.symm (Nat.ne_of_lt (h.given c' hc'))
    · rw [List.mem_singleton.mp hc, List.mem_singleton.mp hc']

theorem Inv.step {p p' : Pool} {l : Label} (h : Inv p) (hs : Step p l p') : Inv p' := by
  cases hs with
  | submit verdict =>
    obtain ⟨hgiven, honce⟩ := h.give (Item.mk p.next verdict).bad
    refine ⟨hgiven, ?_, ?_, honce, ?_⟩
    · show ((⟨p.next, verdict⟩ ::ₘ p.waiting + p.running).map Item.key).Nodup
      rw [Multiset.cons_add, Multiset.map_cons, Multiset.nodup_cons]
      refine ⟨fun hmem => ?_, h.nodup⟩
      obtain ⟨i, hi, hkey⟩ := Multiset.mem_map.mp hmem
      exact absurd hkey (Nat.ne_of_lt (h.key_lt hi))
    · intro i hi
      rw [Multiset.cons_add, Multiset.mem_cons] at hi
      rcases hi with rfl | hi
      · exact List.mem_append_right _ (List.mem_singleton_self _)
      · exact List.mem_append_left _ (h.known i hi)
    · intro n hn
      obtain ⟨hmem, hne⟩ := h.recorded n hn
      refine ⟨List.mem_append_left _ hmem, fun i hi => ?_⟩
      rw [Multiset.cons_add, Multiset.mem_cons] at hi
      rcases hi with rfl | hi
      · exact Nat.ne_of_gt (h.given _ hmem)
      · exact hne i hi
  | mark =>
    obtain ⟨hgiven, honce⟩ := h.give true
    refine ⟨hgiven, h.nodup, fun i hi => List.mem_append_left _ (h.known i hi), honce, ?_⟩
    intro n hn
    cases hn
    rcases least_cases p.recorded p.next with hl | hl
    · rw [hl]
      exact ⟨List.mem_append_right _ (List.mem_singleton_self _),
        fun i hi => Nat.ne_of_lt (h.key_lt hi)⟩
    · obtain ⟨hmem, hne⟩ := h.recorded _ hl
      exact ⟨List.mem_append_left _ hmem, hne⟩
  | pass => exact ⟨fun c hc => Nat.lt_succ_of_lt (h.given c hc), h.nodup, h.known, h.once, h.recorded⟩
  | @pick i rest hw hr =>
    have hplaces : rest + (i ::ₘ p.running) = p.waiting + p.running := by
      rw [hw, Multiset.add_cons, Multiset.cons_add]
    refine ⟨h.given, ?_, ?_, h.once, ?_⟩
    · show ((rest + (i ::ₘ p.running)).map Item.key).Nodup
      rw [hplaces]
      exact h.nodup
    · intro j hj
      exact h.known j (hplaces ▸ hj)
    · intro n hn
      exact ⟨(h.recorded n hn).1, fun j hj => (h.recorded n hn).2 j (hplaces ▸ hj)⟩
  | @skip i rest hw hr =>
    have hplaces : p.waiting + p.running = i ::ₘ (rest + p.running) := by rw [hw, Multiset.cons_add]
    have hsub : ∀ j ∈ rest + p.running, j ∈ p.waiting + p.running :=
      fun j hj => hplaces ▸ Multiset.mem_cons_of_mem hj
    have hnodup := h.nodup
    rw [hplaces, Multiset.map_cons, Multiset.nodup_cons] at hnodup
    exact ⟨h.given, hnodup.2, fun j hj => h.known j (hsub j hj), h.once,
      fun n hn => ⟨(h.recorded n hn).1, fun j hj => (h.recorded n hn).2 j (hsub j hj)⟩⟩
  | @finish i rest hrun =>
    have hplaces : p.waiting + p.running = i ::ₘ (p.waiting + rest) := by rw [hrun, Multiset.add_cons]
    have hsub : ∀ j ∈ p.waiting + rest, j ∈ p.waiting + p.running :=
      fun j hj => hplaces ▸ Multiset.mem_cons_of_mem hj
    have hi : i ∈ p.waiting + p.running := hplaces ▸ Multiset.mem_cons_self i _
    have hnodup := h.nodup
    rw [hplaces, Multiset.map_cons, Multiset.nodup_cons] at hnodup
    refine ⟨h.given, hnodup.2, fun j hj => h.known j (hsub j hj), h.once, fun n hn => ?_⟩
    have hold : n ∈ p.recorded → (n, true) ∈ p.calls ∧ ∀ j ∈ p.waiting + rest, j.key ≠ n :=
      fun hn => ⟨(h.recorded n hn).1, fun j hj => (h.recorded n hn).2 j (hsub j hj)⟩
    dsimp only at hn
    split at hn
    · next hbad =>
      cases hn
      rcases least_cases p.recorded i.key with hl | hl
      · rw [hl]
        refine ⟨hbad ▸ h.known i hi, fun j hj heq => hnodup.1 ?_⟩
        exact Multiset.mem_map.mpr ⟨j, hj, heq⟩
      · exact hold hl
    · exact hold hn
  | quiet => exact h

/-! ## Sound runs -/

/-- Nothing failed, and the least bad key still waits with nothing recorded, is
being checked, or is recorded. -/
def Kept (p : Pool) : Prop :=
  p.failed = false ∧ ∀ n, Earliest p.calls (some n) →
    (p.recorded = none ∧ ∃ i ∈ p.waiting, i.key = n) ∨ (∃ i ∈ p.running, i.key = n) ∨
      p.recorded = some n

theorem kept_start : Kept Pool.start := ⟨rfl, fun _ h => (nomatch h.1)⟩

/-- With no bad key, nothing is recorded. -/
theorem Inv.none_recorded {p : Pool} (h : Inv p) (hnone : Earliest p.calls none) : p.recorded = none := by
  cases hr : p.recorded with
  | none => rfl
  | some n => cases hnone _ (h.recorded n hr).1

/-- A recorded key is not less than the least bad one. -/
theorem Inv.le_recorded {p : Pool} (h : Inv p) {n m : Nat} (hn : Earliest p.calls (some n))
    (hm : m ∈ p.recorded) : n ≤ m := hn.2 _ (h.recorded m hm).1 rfl

theorem Kept.step {p p' : Pool} {l : Label} (hi : Inv p) (hk : Kept p) (hl : Sound p l)
    (hs : Step p l p') : Kept p' := by
  obtain ⟨hfail, hkept⟩ := hk
  obtain ⟨htimely, hverdict⟩ := hl
  cases hs with
  | submit verdict =>
    refine ⟨hfail, fun n hn => ?_⟩
    rcases (Earliest.snoc hi.given).mp hn with hn | ⟨hnone, -, rfl⟩
    · rcases hkept n hn with ⟨hr, i, hi, hkey⟩ | hrun | hr
      · exact .inl ⟨hr, i, Multiset.mem_cons_of_mem hi, hkey⟩
      · exact .inr (.inl hrun)
      · exact .inr (.inr hr)
    · exact .inl ⟨hi.none_recorded hnone, _, Multiset.mem_cons_self _ _, rfl⟩
  | mark =>
    refine ⟨hfail, fun n hn => ?_⟩
    rcases (Earliest.snoc hi.given).mp hn with hn | ⟨hnone, -, rfl⟩
    · rcases hkept n hn with ⟨-, i, hi, hkey⟩ | hrun | hr
      · exact absurd hkey (htimely trivial n hn i hi)
      · exact .inr (.inl hrun)
      · refine .inr (.inr ?_)
        show some (least p.recorded p.next) = some n
        rw [hr]
        exact congrArg some (min_eq_left (Nat.le_of_lt (hi.given _ hn.1)))
    · refine .inr (.inr ?_)
      show some (least p.recorded p.next) = some p.next
      rw [hi.none_recorded hnone]
      rfl
  | pass => exact ⟨hfail, hkept⟩
  | @pick i rest hw hr =>
    refine ⟨hfail, fun n hn => ?_⟩
    rcases hkept n hn with ⟨hr, j, hj, hkey⟩ | ⟨j, hj, hkey⟩ | hr'
    · rw [hw, Multiset.mem_cons] at hj
      rcases hj with rfl | hj
      · exact .inr (.inl ⟨j, Multiset.mem_cons_self _ _, hkey⟩)
      · exact .inl ⟨hr, j, hj, hkey⟩
    · exact .inr (.inl ⟨j, Multiset.mem_cons_of_mem hj, hkey⟩)
    · rw [hr] at hr'
      cases hr'
  | @skip i rest hw hr =>
    refine ⟨hfail, fun n hn => ?_⟩
    rcases hkept n hn with ⟨hnone, -⟩ | hrun | hr'
    · exact absurd hnone hr
    · exact .inr (.inl hrun)
    · exact .inr (.inr hr')
  | @finish i rest hrun =>
    have hmem : i ∈ p.waiting + p.running := by
      rw [hrun, Multiset.add_cons]
      exact Multiset.mem_cons_self _ _
    constructor
    · show (p.failed || i.verdict.isNone) = false
      rw [hfail, Bool.false_or]
      exact Option.isNone_eq_false_iff.mpr (Option.ne_none_iff_isSome.mp (hverdict i rfl))
    · intro n hn
      dsimp only
      by_cases hbad : i.bad = true
      · rw [if_pos hbad]
        have hle : n ≤ i.key := hn.2 _ (hbad ▸ hi.known i hmem) rfl
        rcases hkept n hn with ⟨-, j, hj, hkey⟩ | ⟨j, hj, hkey⟩ | hr
        · exact absurd hkey (htimely hbad n hn j hj)
        · rw [hrun, Multiset.mem_cons] at hj
          rcases hj with rfl | hj
          · refine .inr (.inr (congrArg some ?_))
            cases hr : p.recorded with
            | none => exact hkey
            | some m =>
              have hm := hi.le_recorded hn hr
              exact (min_eq_right (hkey ▸ hm)).trans hkey
          · exact .inr (.inl ⟨j, hj, hkey⟩)
        · refine .inr (.inr (congrArg some ?_))
          rw [hr]
          exact min_eq_left hle
      · rw [if_neg hbad]
        rcases hkept n hn with hw | ⟨j, hj, hkey⟩ | hr
        · exact .inl hw
        · rw [hrun, Multiset.mem_cons] at hj
          rcases hj with rfl | hj
          · -- the item with the least bad key is bad
            have heq := hi.once _ (hi.known j hmem) _ hn.1 hkey
            exact absurd (congrArg Prod.snd heq) hbad
          · exact .inr (.inl ⟨j, hj, hkey⟩)
        · exact .inr (.inr hr)
  | quiet => exact ⟨hfail, hkept⟩

/-! ## Unsound runs -/

/-- Something failed, or the least bad key can not be recorded any more. -/
def Lost (p : Pool) : Prop :=
  p.failed = true ∨ ∃ n, Earliest p.calls (some n) ∧ p.recorded ≠ none ∧ p.recorded ≠ some n ∧
    ∀ i ∈ p.running, i.key ≠ n

theorem least_ne {o : Option Nat} {n key : Nat} (ho : o ≠ some n) (hk : key ≠ n) :
    some (least o key) ≠ some n := by
  intro h
  rcases least_cases o key with hl | hl
  · exact hk (hl.symm.trans (Option.some.inj h))
  · exact ho (hl.trans h)

theorem Lost.step {p p' : Pool} {l : Label} (hi : Inv p) (hp : Lost p) (hs : Step p l p') :
    Lost p' := by
  rcases hp with hfail | ⟨n, hn, hsome, hne, hrun⟩
  · left
    cases hs with
    | finish =>
      show (p.failed || _) = true
      rw [hfail, Bool.true_or]
    | _ => exact hfail
  · cases hs with
    | submit verdict =>
      exact .inr ⟨n, (Earliest.snoc hi.given).mpr (.inl hn), hsome, hne, hrun⟩
    | mark =>
      refine .inr ⟨n, (Earliest.snoc hi.given).mpr (.inl hn), fun h => (nomatch h), ?_, hrun⟩
      exact least_ne hne (Nat.ne_of_gt (hi.given _ hn.1))
    | pass => exact .inr ⟨n, hn, hsome, hne, hrun⟩
    | pick hw hr => exact absurd hr hsome
    | skip => exact .inr ⟨n, hn, hsome, hne, hrun⟩
    | @finish i rest hr =>
      rw [hr] at hrun
      refine .inr ⟨n, hn, ?_, ?_, fun j hj => hrun j (Multiset.mem_cons_of_mem hj)⟩
      · dsimp only
        split
        · exact fun h => nomatch h
        · exact hsome
      · dsimp only
        split
        · exact least_ne hne (hrun i (Multiset.mem_cons_self _ _))
        · exact hne
    | quiet => exact .inr ⟨n, hn, hsome, hne, hrun⟩

/-- A step that is not sound loses. -/
theorem lost_of_unsound {p p' : Pool} {l : Label} (hi : Inv p) (hl : ¬ Sound p l) (hs : Step p l p') :
    Lost p' := by
  unfold Sound Timely at hl
  push Not at hl
  by_cases htimely : l.Records → ∀ n, Earliest p.calls (some n) → ∀ i ∈ p.waiting, i.key ≠ n
  · obtain ⟨i, rfl, hnone⟩ := hl htimely
    cases hs with
    | finish =>
      left
      show (p.failed || i.verdict.isNone) = true
      rw [hnone]
      exact Bool.or_true _
  · push Not at htimely
    obtain ⟨hrec, n, hn, i, hw, hkey⟩ := htimely
    have hplace : i ∈ p.waiting + p.running := Multiset.mem_add.mpr (.inl hw)
    have hne : p.recorded ≠ some n := fun h => (hi.recorded n h).2 i hplace hkey
    -- the item waits, so it is not being checked
    have hrun : ∀ j ∈ p.running, j.key ≠ n := by
      intro j hj heq
      have hnodup := hi.nodup
      rw [Multiset.map_add, Multiset.nodup_add] at hnodup
      exact Multiset.disjoint_left.mp hnodup.2.2 (Multiset.mem_map_of_mem _ hw)
        (hkey ▸ heq ▸ Multiset.mem_map_of_mem _ hj)
    right
    cases hs with
    | mark =>
      exact ⟨n, (Earliest.snoc hi.given).mpr (.inl hn), fun h => (nomatch h),
        least_ne hne (Nat.ne_of_gt (hi.given _ hn.1)), hrun⟩
    | @finish j rest hr =>
      have hbad : j.bad = true := hrec
      rw [hr] at hrun
      dsimp only
      rw [if_pos hbad]
      exact ⟨n, hn, fun h => (nomatch h), least_ne hne (hrun j (Multiset.mem_cons_self _ _)),
        fun j hj => hrun j (Multiset.mem_cons_of_mem hj)⟩
    | _ => exact hrec.elim

/-! ## Runs -/

theorem Run.inv {p p' : Pool} {sound : Prop} (h : Run p sound p') (hi : Inv p) : Inv p' := by
  induction h with
  | refl => exact hi
  | step _ hs ih => exact ih.step hs

theorem Run.kept {p p' : Pool} {sound : Prop} (h : Run p sound p') (hi : Inv p) (hk : Kept p)
    (hsound : sound) : Kept p' := by
  induction h with
  | refl => exact hk
  | step hrun hs ih => exact (ih hsound.1).step (hrun.inv hi) hsound.2 hs

theorem Run.lost {p p' : Pool} {sound : Prop} (h : Run p sound p') (hi : Inv p) (hsound : ¬ sound) :
    Lost p' := by
  induction h with
  | refl => exact absurd trivial hsound
  | @step p1 p2 before l hrun hs ih =>
    by_cases hbefore : before
    · exact lost_of_unsound (hrun.inv hi) (fun hl => hsound ⟨hbefore, hl⟩) hs
    · exact (ih hbefore).step (hrun.inv hi) hs

/-- **The least bad key.** At the end of a run it is recorded, and no check
failed, just when the run is sound. -/
theorem least_iff {p : Pool} {sound : Prop} (h : Run Pool.start sound p) (hw : p.waiting = 0)
    (hr : p.running = 0) : (p.failed = false ∧ Earliest p.calls p.recorded) ↔ sound := by
  have hi := h.inv inv_start
  constructor
  · intro hgood
    by_contra hsound
    rcases h.lost inv_start hsound with hfail | ⟨n, hn, -, hne, -⟩
    · rw [hgood.1] at hfail
      cases hfail
    · exact hne (hgood.2.unique hn)
  · intro hsound
    obtain ⟨hfail, hkept⟩ := h.kept inv_start kept_start hsound
    refine ⟨hfail, ?_⟩
    obtain ⟨n, hn⟩ := earliest_exists p.calls
    cases n with
    | none =>
      rw [hi.none_recorded hn]
      exact hn
    | some n =>
      rcases hkept n hn with ⟨-, i, hmem, -⟩ | ⟨i, hmem, -⟩ | hrec
      · rw [hw] at hmem
        exact absurd hmem (Multiset.notMem_zero i)
      · rw [hr] at hmem
        exact absurd hmem (Multiset.notMem_zero i)
      · rw [hrec]
        exact hn

end GenVM.Lib.MinRace
