import Mathlib

/-!
# Height-balanced trees with a stored balance, and a hole in them

A tree keeps a balance at each node; it is `Balanced` when this is the height of
the right subtree less that of the left one, and at most one either way. A `Ctx`
is the way from a hole up to the root, innermost first, with the other subtrees.
`Suits c h` says that balanced trees of height `h` are what the hole is made for.

**Results.**
* `toList_plug`: the labels of a tree with a filled hole.
* `balanced_plug`: what fits makes the whole tree balanced.
* `AvlTree.fib_le_size`: the height of a balanced tree.
-/
namespace GenVM.Lib.Avl

variable {α : Type}

inductive AvlTree (α : Type) where
  | nil
  | node (l : AvlTree α) (a : α) (b : Int) (r : AvlTree α)

namespace AvlTree

def height : AvlTree α → Nat
  | nil => 0
  | node l _ _ r => max l.height r.height + 1

def toList : AvlTree α → List α
  | nil => []
  | node l a _ r => l.toList ++ a :: r.toList

def size : AvlTree α → Nat
  | nil => 0
  | node l _ _ r => l.size + r.size + 1

def Balanced : AvlTree α → Prop
  | nil => True
  | node l _ b r =>
    l.Balanced ∧ r.Balanced ∧ b = (r.height : Int) - l.height ∧ -1 ≤ b ∧ b ≤ 1

@[simp] theorem height_nil : (nil : AvlTree α).height = 0 := rfl

@[simp] theorem height_node (l r : AvlTree α) (a : α) (b : Int) :
    (node l a b r).height = max l.height r.height + 1 := rfl

@[simp] theorem toList_nil : (nil : AvlTree α).toList = [] := rfl

@[simp] theorem toList_node (l r : AvlTree α) (a : α) (b : Int) :
    (node l a b r).toList = l.toList ++ a :: r.toList := rfl

@[simp] theorem balanced_nil : (nil : AvlTree α).Balanced := trivial

@[simp] theorem balanced_node (l r : AvlTree α) (a : α) (b : Int) : (node l a b r).Balanced ↔
    l.Balanced ∧ r.Balanced ∧ b = (r.height : Int) - l.height ∧ -1 ≤ b ∧ b ≤ 1 := Iff.rfl

theorem length_toList (t : AvlTree α) : t.toList.length = t.size := by
  induction t with
  | nil => rfl
  | node l a b r ihl ihr =>
    rw [toList_node, List.length_append, List.length_cons, ihl, ihr, size]
    omega

/-- A balanced tree is low. -/
theorem fib_le_size {t : AvlTree α} (h : t.Balanced) : Nat.fib (t.height + 2) ≤ t.size + 1 := by
  induction t with
  | nil => simp [size]
  | node l a b r ihl ihr =>
    obtain ⟨hl, hr, hb, h1, h2⟩ := h
    have hfl := ihl hl
    have hfr := ihr hr
    have hstep : Nat.fib (max l.height r.height + 1 + 2) =
        Nat.fib (max l.height r.height + 1) + Nat.fib (max l.height r.height + 2) := Nat.fib_add_two
    rw [height_node, size, hstep]
    rcases le_total l.height r.height with hle | hle
    · rw [max_eq_right hle]
      have hmono : Nat.fib (r.height + 1) ≤ Nat.fib (l.height + 2) := Nat.fib_mono (by omega)
      omega
    · rw [max_eq_left hle]
      have hmono : Nat.fib (l.height + 1) ≤ Nat.fib (r.height + 2) := Nat.fib_mono (by omega)
      omega

theorem eq_nil_of_height {t : AvlTree α} (h : t.height = 0) : t = nil := by
  cases t with
  | nil => rfl
  | node l a b r => rw [height_node] at h; omega

/-- A node is there where the height is positive. -/
theorem exists_node {t : AvlTree α} (h : 0 < t.height) : ∃ l a b r, t = node l a b r := by
  cases t with
  | nil => exact absurd h (lt_irrefl 0)
  | node l a b r => exact ⟨l, a, b, r, rfl⟩

/-! ## Rotated trees -/

section
variable {l r m k u : AvlTree α} {a p x : α} {b : Int}

/-- A left child raised over its parent, whose other child is too low. -/
theorem balanced_right (hl : l.Balanced) (hr : r.Balanced) (hu : u.Balanced)
    (hb : b = (r.height : Int) - l.height) (hlean : b = 0 ∨ b = -1) (hlow : u.height + 1 = l.height) :
    (node l a (if b = 0 then 1 else 0) (node r p (if b = 0 then -1 else 0) u)).Balanced ∧
      (node l a (if b = 0 then 1 else 0) (node r p (if b = 0 then -1 else 0) u)).height =
        if b = 0 then l.height + 2 else l.height + 1 := by
  rcases hlean with rfl | rfl
  · simp only [if_true, balanced_node, height_node]
    refine ⟨⟨hl, ⟨hr, hu, ?_, ?_, ?_⟩, ?_, ?_, ?_⟩, ?_⟩
    all_goals omega
  · simp only [balanced_node, height_node]
    refine ⟨⟨hl, ⟨hr, hu, ?_, ?_, ?_⟩, ?_, ?_, ?_⟩, ?_⟩
    all_goals norm_num
    all_goals omega

/-- A right child raised over its parent, whose other child is too low. -/
theorem balanced_left (hl : l.Balanced) (hr : r.Balanced) (hu : u.Balanced)
    (hb : b = (r.height : Int) - l.height) (hlean : b = 0 ∨ b = 1) (hlow : u.height + 1 = r.height) :
    (node (node u p (if b = 0 then 1 else 0) l) a (if b = 0 then -1 else 0) r).Balanced ∧
      (node (node u p (if b = 0 then 1 else 0) l) a (if b = 0 then -1 else 0) r).height =
        if b = 0 then r.height + 2 else r.height + 1 := by
  rcases hlean with rfl | rfl
  · simp only [if_true, balanced_node, height_node]
    refine ⟨⟨⟨hu, hl, ?_, ?_, ?_⟩, hr, ?_, ?_, ?_⟩, ?_⟩
    all_goals omega
  · simp only [balanced_node, height_node]
    refine ⟨⟨⟨hu, hl, ?_, ?_, ?_⟩, hr, ?_, ?_, ?_⟩, ?_⟩
    all_goals norm_num
    all_goals omega

/-- An inner grandchild raised over its parent and grandparent. -/
theorem balanced_double (hl : l.Balanced) (hm : m.Balanced) (hk : k.Balanced) (hu : u.Balanced)
    (hb : b = (k.height : Int) - m.height) (h1 : -1 ≤ b) (h2 : b ≤ 1)
    (hlow : l.height = max m.height k.height) (hlow' : u.height = max m.height k.height) :
    (node (node l a (if 0 < b then -1 else 0) m) x 0 (node k p (if b < 0 then 1 else 0) u)).Balanced ∧
      (node (node l a (if 0 < b then -1 else 0) m) x 0 (node k p (if b < 0 then 1 else 0) u)).height =
        l.height + 2 := by
  simp only [balanced_node, height_node]
  refine ⟨⟨⟨hl, hm, ?_, ?_, ?_⟩, ⟨hk, hu, ?_, ?_, ?_⟩, ?_, by omega, by omega⟩, ?_⟩
  all_goals omega

end

end AvlTree

open GenVM.Lib.Avl.AvlTree

/-! ## A hole -/

/-- A node with a hole for one child. -/
structure Frame (α : Type) where
  a : α
  b : Int
  sib : AvlTree α
  left : Bool

abbrev Ctx (α : Type) := List (Frame α)

def Frame.plug (f : Frame α) (t : AvlTree α) : AvlTree α :=
  if f.left then .node t f.a f.b f.sib else .node f.sib f.a f.b t

/-- The tree with its hole filled. -/
def plug : Ctx α → AvlTree α → AvlTree α
  | [], t => t
  | f :: up, t => plug up (f.plug t)

/-- The labels before the hole. -/
def before : Ctx α → List α
  | [] => []
  | f :: up => before up ++ if f.left then [] else f.sib.toList ++ [f.a]

/-- The labels behind the hole. -/
def after : Ctx α → List α
  | [] => []
  | f :: up => (if f.left then f.a :: f.sib.toList else []) ++ after up

@[simp] theorem plug_nil (t : AvlTree α) : plug [] t = t := rfl

@[simp] theorem plug_cons (f : Frame α) (up : Ctx α) (t : AvlTree α) :
    plug (f :: up) t = plug up (f.plug t) := rfl

@[simp] theorem before_nil : before ([] : Ctx α) = [] := rfl

@[simp] theorem after_nil : after ([] : Ctx α) = [] := rfl

theorem before_cons (f : Frame α) (up : Ctx α) :
    before (f :: up) = before up ++ if f.left then [] else f.sib.toList ++ [f.a] := rfl

theorem after_cons (f : Frame α) (up : Ctx α) :
    after (f :: up) = (if f.left then f.a :: f.sib.toList else []) ++ after up := rfl

theorem plug_append (c up : Ctx α) (t : AvlTree α) : plug (c ++ up) t = plug up (plug c t) := by
  induction c generalizing t with
  | nil => rfl
  | cons f c ih => exact ih (f.plug t)

theorem toList_plug (c : Ctx α) (t : AvlTree α) :
    (plug c t).toList = before c ++ t.toList ++ after c := by
  induction c generalizing t with
  | nil => simp
  | cons f up ih =>
    rw [plug_cons, ih, Frame.plug, before_cons, after_cons]
    cases f.left <;> simp

/-- The way down to a hole is no longer than the tree is high. -/
theorem AvlTree.height_plug (c : Ctx α) (t : AvlTree α) : c.length + t.height ≤ (plug c t).height := by
  induction c generalizing t with
  | nil => exact (Nat.zero_add _).le
  | cons f up ih =>
    have hstep : t.height + 1 ≤ (f.plug t).height := by
      unfold Frame.plug
      split
      all_goals
        rw [height_node]
        omega
    have hup := ih (f.plug t)
    rw [List.length_cons, plug_cons]
    omega

/-! ## Heights around a hole -/

/-- The balance of a frame when the hole has height `h`. -/
def Frame.balance (f : Frame α) (h : Nat) : Int :=
  if f.left then (f.sib.height : Int) - h else (h : Int) - f.sib.height

/-- The hole has height `h`. -/
def Suits : Ctx α → Nat → Prop
  | [], _ => True
  | f :: up, h => f.sib.Balanced ∧ f.b = f.balance h ∧ -1 ≤ f.b ∧ f.b ≤ 1 ∧
    Suits up (max h f.sib.height + 1)

theorem balanced_plug {c : Ctx α} {t : AvlTree α} :
    (plug c t).Balanced ↔ t.Balanced ∧ Suits c t.height := by
  induction c generalizing t with
  | nil => simp [Suits]
  | cons f up ih =>
    rw [plug_cons, ih, Frame.plug, Suits, Frame.balance]
    cases f.left with
    | true =>
      simp only [if_true, balanced_node, height_node]
      tauto
    | false =>
      simp only [Bool.false_eq_true, if_false, balanced_node, height_node, max_comm f.sib.height]
      tauto

theorem Suits.plug {c : Ctx α} {t : AvlTree α} (ht : t.Balanced) (hc : Suits c t.height) :
    (plug c t).Balanced :=
  balanced_plug.mpr ⟨ht, hc⟩

end GenVM.Lib.Avl
