import Mathlib
import GenVM.Lib.ByteMem

/-!
# Slots derived from one another

A slot derives a child from each offset, no two the same, and none the root.
So a slot is named by the offsets on the way to it, the last one first, and a
byte by its offset put before the name of its slot. A region is a range of a
slot together with all that is derived from its offsets: the bytes whose name
ends in one of the range.

**Results.**
* `addr_injective`: a slot has one name.
* `region_child`, `region_sub`: what lies inside a region.
* `region_disjoint`: ranges of one slot that share no offset share nothing.
-/
namespace SlotTree

open ByteMem

/-- The root and the children of a slot; a hash without collisions. -/
structure Slots (S : Type) where
  root : S
  child : S → Nat → S
  child_inj : ∀ s o s' o', child s o = child s' o' → s = s' ∧ o = o'
  child_ne_root : ∀ s o, child s o ≠ root

variable {S : Type} (T : Slots S)

/-- The slot at the end of the offsets `p`. -/
def addr : List Nat → S
  | [] => T.root
  | o :: p => T.child (addr p) o

theorem addr_injective : ∀ p q : List Nat, addr T p = addr T q → p = q := by
  intro p
  induction p with
  | nil =>
    intro q h
    cases q with
    | nil => rfl
    | cons o q => exact absurd h.symm (T.child_ne_root _ _)
  | cons o p ih =>
    intro q h
    cases q with
    | nil => exact absurd h (T.child_ne_root _ _)
    | cons o' q =>
      obtain ⟨h1, h2⟩ := T.child_inj _ _ _ _ h
      rw [ih q h1, h2]

/-! ## Regions -/

/-- An offset from the start of a range of `n` bytes, or of one without end. -/
def Within (ext : Option Nat) (i : Nat) : Prop := ∀ n, ext = some n → i < n

theorem within_none (i : Nat) : Within none i := fun _ h => nomatch h

theorem within_some {n i : Nat} : Within (some n) i ↔ i < n := by
  constructor
  · exact fun h => h n rfl
  · intro h k hk
    cases hk
    exact h

/-- The bytes from `lo` on in the slot `p`, and all derived from there. -/
def region (p : List Nat) (lo : Nat) (ext : Option Nat) : Set (S × Nat) :=
  {x | ∃ c b a, x = (addr T c, b) ∧ Within ext a ∧ (lo + a) :: p <:+ b :: c}

variable {T}

theorem region_own {p : List Nat} {lo a : Nat} {ext : Option Nat} (h : Within ext a) :
    (addr T p, lo + a) ∈ region T p lo ext :=
  ⟨p, lo + a, a, rfl, h, List.suffix_refl _⟩

/-- A region in a derived slot. -/
theorem region_child {p : List Nat} {lo a lo' : Nat} {ext ext' : Option Nat} (h : Within ext a) :
    region T ((lo + a) :: p) lo' ext' ⊆ region T p lo ext := by
  intro x hx
  obtain ⟨c, b, a', hx, -, hs⟩ := hx
  exact ⟨c, b, a, hx, h, (List.suffix_cons _ _).trans hs⟩

/-- A region further on in the same slot. -/
theorem region_sub {p : List Nat} {lo d : Nat} {ext ext' : Option Nat}
    (h : ∀ a, Within ext' a → Within ext (d + a)) :
    region T p (lo + d) ext' ⊆ region T p lo ext := by
  intro x hx
  obtain ⟨c, b, a, hx, ha, hs⟩ := hx
  rw [Nat.add_assoc] at hs
  exact ⟨c, b, d + a, hx, h a ha, hs⟩

theorem suffix_same_length {l l' m : List Nat} (h : l <:+ m) (h' : l' <:+ m)
    (hl : l.length = l'.length) : l = l' := by
  obtain ⟨a, ha⟩ := h
  obtain ⟨b, hb⟩ := h'
  exact (List.append_inj' (ha.trans hb.symm) hl).2

theorem region_disjoint {p : List Nat} {lo lo' : Nat} {ext ext' : Option Nat}
    (h : ∀ a a', Within ext a → Within ext' a' → lo + a ≠ lo' + a') :
    Disjoint (region T p lo ext) (region T p lo' ext') := by
  rw [Set.disjoint_left]
  intro x hx hx'
  obtain ⟨c, b, a, rfl, ha, hs⟩ := hx
  obtain ⟨c', b', a', heq, ha', hs'⟩ := hx'
  obtain ⟨hc, rfl⟩ := Prod.mk.inj heq
  rw [addr_injective T c c' hc] at hs
  have hcons := suffix_same_length hs hs' rfl
  exact h a a' ha ha' (List.cons.inj hcons).1

/-! ## Memories that differ in a region only -/

/-- The two memories have the same bytes in `R`. -/
def AgreeOn (R : Set (S × Nat)) (m m' : Mem S) : Prop := ∀ x ∈ R, m x.1 x.2 = m' x.1 x.2

/-- The two memories differ in `R` at most. -/
def Frame (R : Set (S × Nat)) (m m' : Mem S) : Prop := ∀ x, x ∉ R → m' x.1 x.2 = m x.1 x.2

theorem Frame.refl (R : Set (S × Nat)) (m : Mem S) : Frame R m m := fun _ _ => rfl

theorem Frame.trans {R : Set (S × Nat)} {m m' m'' : Mem S} (h : Frame R m m')
    (h' : Frame R m' m'') : Frame R m m'' := fun x hx => (h' x hx).trans (h x hx)

theorem Frame.mono {R R' : Set (S × Nat)} {m m' : Mem S} (h : Frame R m m') (hs : R ⊆ R') :
    Frame R' m m' := fun x hx => h x fun hr => hx (hs hr)

theorem Frame.agreeOn {R R' : Set (S × Nat)} {m m' : Mem S} (h : Frame R m m')
    (hd : Disjoint R R') : AgreeOn R' m' m :=
  fun x hx => h x fun hr => Set.disjoint_left.mp hd hr hx

theorem AgreeOn.mono {R R' : Set (S × Nat)} {m m' : Mem S} (h : AgreeOn R' m m') (hs : R ⊆ R') :
    AgreeOn R m m' := fun x hx => h x (hs hx)

end SlotTree
