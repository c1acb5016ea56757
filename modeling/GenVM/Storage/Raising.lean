import Mathlib
import GenVM.Storage.TreeMap
import GenVM.Storage.TreeMapAgree
import GenVM.Storage.DynArray

/-!
# Exceptions inside the Python containers

`TreeMap._get_set` and `DynArray.append` and `insert` change the container
before they run the user's supplier and before they assign a key, a value or an
element, any of which may raise (an assignment half way through). Here a program
(`Act`) ends with the container as it stands when an exception of the user's
leaves it; errors of the container itself are kept apart, without a state.

**Results.**
* `getSet_raises`: what `_get_set` has done to the map when it raises.
* `append_raises`, `insert_raises`: the array has grown.
* `raising_atomic_iff`: a raising operation leaves the map as it was exactly when
  it assigned to a present key and the value that is stored is the old one; a
  raising `append` or `insert` never leaves the array as it was.
-/
namespace GenVM.Storage.Raising
open GenVM.Storage.TreeMap

/-- A program whose user code raises `ε`. -/
abbrev Act (σ ε α : Type) := ExceptT ε (StateT σ (Except Err)) α

variable {σ ε K V α β : Type}

/-- A step of the container's own. -/
def act (p : M σ α) : Act σ ε α := ExceptT.lift p

/-- What user code comes to. -/
def supply (x : Except ε α) : Act σ ε α := ExceptT.mk (pure x)

/-- Assigning over a stored value: what comes of it and what is stored then. -/
def assign (c : Cell σ α) (f : α → Except ε Unit × α) : Act σ ε Unit := do
  let old ← act c.read
  act (c.write (f old).2)
  supply (f old).1

/-- How keys and values are assigned: the new one over the old one. -/
structure Items (K V ε : Type) where
  setKey : K → K → Except ε Unit × K
  setValue : V → V → Except ε Unit × V

/-! ## The map's operations -/

section Code
variable [LT K] [DecidableLT K] (F : Fields σ K V) (I : Items K V ε)

/-- No value is `_NO_OBJ`. -/
def assignValue (n : Nat) : Option V → Act σ ε Unit
  | none => pure ()
  | some v => assign (F.value n) (I.setValue v)

/-- `_Node.__init__`, mirrors tree_map.py:23-29 -/
def initNode (n : Nat) (k : K) (v : Option V) : Act σ ε Unit := do
  assign (F.key n) (I.setKey k)
  assignValue F I n v
  act ((F.left n).write 0)
  act ((F.right n).write 0)
  act ((F.balance n).write 0)

/-- mirrors tree_map.py:356-436 -/
def getSet (fuel : Nat) (k : K) (present : Nat → Act σ ε Unit) (absent : Except ε (Option V)) :
    Act σ ε V := do
  let (seq, isLess) ← act (Py.findSeq F fuel k)
  if top seq ≠ 0 then do
    let slot ← act (Py.node F (top seq))
    present slot
    act (F.value slot).read
  else if seq.length = 1 then do
    let idx ← act (Py.allocSlot F)
    let child ← act (Py.childIndex idx)
    act (F.root.write child)
    let v ← supply absent
    initNode F I idx k v
    act (F.value idx).read
  else do
    let idx ← act (Py.allocSlot F)
    let child ← act (Py.childIndex idx)
    act (setChildWith F (Py.node F) (second seq) isLess child)
    let v ← supply absent
    initNode F I idx k v
    let seq ← act (Py.insertRebalance F seq.length (seq.dropLast ++ [child]))
    act (fixRoot F seq)
    act (F.value idx).read

inductive Op (K V ε : Type) where
  | setItem (k : K) (v : V)
  | computeIfAbsent (k : K) (supplier : Except ε V)
  | getOrInsertDefault (k : K)

def Op.key : Op K V ε → K
  | .setItem k _ | .computeIfAbsent k _ | .getOrInsertDefault k => k

/-- mirrors tree_map.py:310-354; a present value is read once, not twice -/
def run (fuel : Nat) : Op K V ε → Act σ ε V
  | .setItem k v => getSet F I fuel k (fun node => assign (F.value node) (I.setValue v)) (.ok (some v))
  | .computeIfAbsent k supplier => getSet F I fuel k (fun _ => pure ()) (supplier.map some)
  | .getOrInsertDefault k => getSet F I fuel k (fun _ => pure ()) (.ok none)

/-- The keys in order, mirrors tree_map.py:497-510 -/
def visit : Nat → Nat → M σ (List K)
  | 0, _ => throw .diverged
  | fuel + 1, idx =>
    if idx = 0 then pure []
    else do
      let slot ← Py.node F idx
      let l ← (F.left slot).read
      let before ← visit fuel l
      let k ← (F.key slot).read
      let r ← (F.right slot).read
      let after ← visit fuel r
      pure (before ++ k :: after)

end Code

/-! ## A map in memory -/

structure Node (K V : Type) where
  key : K
  value : V
  left : Nat
  right : Nat
  balance : Int

structure State (K V : Type) where
  root : Nat
  slotsLen : Nat
  freeLen : Nat
  free : Nat → Nat
  nodes : Nat → Node K V

def State.setNode (s : State K V) (n : Nat) (x : Node K V) : State K V :=
  { s with nodes := Function.update s.nodes n x }

def cell (get : State K V → α) (set : α → State K V → State K V) : Cell (State K V) α :=
  ⟨fun s => .ok (get s), fun a s => .ok (set a s)⟩

def fields : Fields (State K V) K V where
  root := cell State.root fun r s => { s with root := r }
  slotsLen := cell State.slotsLen fun n s => { s with slotsLen := n }
  freeLen := cell State.freeLen fun n s => { s with freeLen := n }
  free i := cell (fun s => s.free i) fun x s => { s with free := Function.update s.free i x }
  key n := cell (fun s => (s.nodes n).key) fun x s => s.setNode n { s.nodes n with key := x }
  value n := cell (fun s => (s.nodes n).value) fun x s => s.setNode n { s.nodes n with value := x }
  left n := cell (fun s => (s.nodes n).left) fun x s => s.setNode n { s.nodes n with left := x }
  right n := cell (fun s => (s.nodes n).right) fun x s => s.setNode n { s.nodes n with right := x }
  balance n := cell (fun s => (s.nodes n).balance) fun x s => s.setNode n { s.nodes n with balance := x }

/-- `__len__`, mirrors tree_map.py:63-64 -/
def State.size (s : State K V) : Int := s.slotsLen - s.freeLen

def State.freeSlots (s : State K V) : List Nat := (List.range s.freeLen).map s.free

section
variable [LT K] [DecidableLT K]

def lookup (fuel : Nat) (k : K) (s : State K V) : Except Err (Option V) :=
  (Py.get fields fuel k s).map Prod.fst

def iterate (fuel : Nat) (s : State K V) : Except Err (List K) :=
  (visit fields fuel s.root s).map Prod.fst

/-- One map cannot be told from the other. -/
def Same (s s' : State K V) : Prop :=
  s'.size = s.size ∧ (∀ fuel k, lookup fuel k s' = lookup fuel k s) ∧
  (∀ fuel, iterate fuel s' = iterate fuel s) ∧ s'.freeSlots = s.freeSlots

end

/-! ## Runs that raise -/

theorem act_ok {p : M σ α} {s s' : σ} {x : Except ε α} :
    act p s = .ok (x, s') ↔ ∃ a, x = .ok a ∧ p s = .ok (a, s') := by
  change (p >>= fun a => pure (Except.ok a)) s = _ ↔ _
  rw [Agree.bind_ok]
  constructor
  · intro ⟨a, s1, hp, hx⟩
    obtain ⟨rfl, rfl⟩ := Agree.pure_ok.mp hx
    exact ⟨a, rfl, hp⟩
  · intro ⟨a, hx, hp⟩
    exact ⟨a, s', hp, Agree.pure_ok.mpr ⟨hx.symm, rfl⟩⟩

theorem act_raises {p : M σ α} {s s' : σ} {e : ε} : act p s ≠ .ok (.error e, s') := by
  intro h
  obtain ⟨a, ha, _⟩ := act_ok.mp h
  cases ha

theorem supply_ok {x y : Except ε α} {s s' : σ} : supply x s = .ok (y, s') ↔ x = y ∧ s = s' :=
  Agree.pure_ok

/-- Where a sequence raises: in its first part, or after it. -/
theorem bind_raises {p : Act σ ε α} {f : α → Act σ ε β} {s s' : σ} {e : ε} :
    (p >>= f) s = .ok (.error e, s') ↔ p s = .ok (.error e, s') ∨
      ∃ a s1, p s = .ok (.ok a, s1) ∧ f a s1 = .ok (.error e, s') := by
  change ((ExceptT.run p >>= ExceptT.bindCont f : StateT σ (Except Err) _)) s = _ ↔ _
  rw [Agree.bind_ok]
  constructor
  · intro ⟨x, s1, hp, hf⟩
    cases x with
    | error e' =>
      obtain ⟨he, rfl⟩ := Agree.pure_ok.mp hf
      obtain rfl := Except.error.inj he
      exact .inl hp
    | ok a => exact .inr ⟨a, s1, hp, hf⟩
  · intro h
    rcases h with h | ⟨a, s1, hp, hf⟩
    · exact ⟨.error e, s', h, rfl⟩
    · exact ⟨.ok a, s1, hp, hf⟩

theorem act_bind {p : M σ α} {f : α → Act σ ε β} {s s' : σ} {x : Except ε β} :
    (act p >>= f) s = .ok (x, s') ↔ ∃ a s1, p s = .ok (a, s1) ∧ f a s1 = .ok (x, s') := by
  change (ExceptT.run (act p) >>= ExceptT.bindCont f : StateT σ (Except Err) _) s = _ ↔ _
  rw [Agree.bind_ok]
  constructor
  · intro ⟨y, s1, hp, hf⟩
    obtain ⟨a, hy, hp'⟩ := act_ok.mp hp
    subst hy
    exact ⟨a, s1, hp', hf⟩
  · intro ⟨a, s1, hp, hf⟩
    exact ⟨.ok a, s1, act_ok.mpr ⟨a, rfl, hp⟩, hf⟩

/-! ## What the steps do to a map in memory -/

/-- The lengths are kept. -/
def Keeps (s s' : State K V) : Prop := s'.slotsLen = s.slotsLen ∧ s'.freeLen = s.freeLen

theorem Keeps.size {s s' : State K V} (h : Keeps s s') : s'.size = s.size := by
  unfold State.size
  rw [h.1, h.2]

theorem Keeps.trans {s s' s'' : State K V} (h : Keeps s s') (h' : Keeps s' s'') : Keeps s s'' :=
  ⟨h'.1.trans h.1, h'.2.trans h.2⟩

theorem cell_read {get : State K V → α} {set : α → State K V → State K V} {s s' : State K V} {a : α} :
    (cell get set).read s = .ok (a, s') ↔ get s = a ∧ s = s' := by
  unfold cell Cell.read
  simp only [Except.map, Except.ok.injEq, Prod.mk.injEq]

theorem cell_write {get : State K V → α} {set : α → State K V → State K V} {s s' : State K V} {a : α}
    {u : Unit} : (cell get set).write a s = .ok (u, s') ↔ set a s = s' := by
  unfold cell Cell.write
  simp only [Except.map, Except.ok.injEq, Prod.mk.injEq, true_and]

/-- Indexing reads the length only. -/
theorem mapIndex_ok {get : State K V → Nat} {set : Nat → State K V → State K V} {s s' : State K V}
    {idx : Int} {n : Nat} (h : Py.mapIndex (cell get set) idx s = .ok (n, s')) :
    s = s' ∧ ∀ t : State K V, get t = get s → Py.mapIndex (cell get set) idx t = .ok (n, t) := by
  have hcheck : ∀ j : Int, (if j < 0 ∨ j ≥ get s then throw .raised else pure j.toNat : M (State K V) Nat) s
      = .ok (n, s') → s = s' ∧ ∀ t : State K V,
        (if j < 0 ∨ j ≥ get s then throw .raised else pure j.toNat : M (State K V) Nat) t = .ok (n, t) := by
    intro j h
    split at h
    · exact absurd h Agree.throw_ok
    · rename_i hin
      obtain ⟨rfl, rfl⟩ := Agree.pure_ok.mp h
      exact ⟨rfl, fun t => by rw [if_neg hin]; exact Agree.pure_ok.mpr ⟨rfl, rfl⟩⟩
  unfold Py.mapIndex at h ⊢
  obtain ⟨len, s1, hread, h⟩ := Agree.bind_ok.mp h
  obtain ⟨rfl, rfl⟩ := cell_read.mp hread
  obtain ⟨hs, hall⟩ := hcheck _ h
  refine ⟨hs, fun t ht => Agree.bind_ok.mpr ⟨get s, t, cell_read.mpr ⟨ht, rfl⟩, ?_⟩⟩
  exact hall t

theorem node_ok {s s' : State K V} {idx n : Nat} (h : Py.node fields idx s = .ok (n, s')) :
    s = s' ∧ ∀ t : State K V, t.slotsLen = s.slotsLen → Py.node fields idx t = .ok (n, t) :=
  mapIndex_ok h

theorem childIndex_ok {s s' : State K V} {idx n : Nat} (h : Py.childIndex idx s = .ok (n, s')) :
    s = s' := by
  unfold Py.childIndex at h
  split at h
  · exact (Agree.pure_ok.mp h).2
  · exact absurd h Agree.throw_ok

/-- A slot is taken from the free ones or from the end; the map is longer by one. -/
theorem allocSlot_size {s s' : State K V} {idx : Nat} (h : Py.allocSlot fields s = .ok (idx, s')) :
    s'.size = s.size + 1 := by
  unfold Py.allocSlot at h
  obtain ⟨n, s1, hread, h⟩ := Agree.bind_ok.mp h
  obtain ⟨rfl, rfl⟩ := cell_read.mp hread
  split at h
  · rename_i hpos
    obtain ⟨last, s2, hlast, h⟩ := Agree.bind_ok.mp h
    obtain ⟨rfl, _⟩ := mapIndex_ok hlast
    obtain ⟨i, s3, hread, h⟩ := Agree.bind_ok.mp h
    obtain ⟨_, rfl⟩ := cell_read.mp hread
    obtain ⟨_, s4, hpop, h⟩ := Agree.bind_ok.mp h
    obtain ⟨rfl, _⟩ := mapIndex_ok h
    unfold Py.pop at hpop
    obtain ⟨m, s5, hread, hpop⟩ := Agree.bind_ok.mp hpop
    obtain ⟨rfl, rfl⟩ := cell_read.mp hread
    rw [if_neg (Nat.ne_of_gt hpos)] at hpop
    obtain rfl := cell_write.mp hpop
    unfold State.size
    dsimp only at hpos ⊢
    omega
  · unfold Py.appendNewGet at h
    obtain ⟨m, s2, hread, h⟩ := Agree.bind_ok.mp h
    obtain ⟨rfl, rfl⟩ := cell_read.mp hread
    split at h
    · obtain ⟨_, s3, hwrite, h⟩ := Agree.bind_ok.mp h
      obtain rfl := cell_write.mp hwrite
      obtain ⟨_, rfl⟩ := Agree.pure_ok.mp h
      unfold State.size
      dsimp only
      omega
    · exact absurd h Agree.throw_ok

theorem setChild_keeps {s s' : State K V} {parent child : Nat} {isLeft : Bool} {u : Unit}
    (h : setChildWith fields (Py.node fields) parent isLeft child s = .ok (u, s')) : Keeps s s' := by
  unfold setChildWith at h
  obtain ⟨n, s1, hnode, h⟩ := Agree.bind_ok.mp h
  obtain ⟨rfl, _⟩ := node_ok hnode
  split at h
  · obtain rfl := cell_write.mp h
    exact ⟨rfl, rfl⟩
  · obtain rfl := cell_write.mp h
    exact ⟨rfl, rfl⟩

/-- The map with another value in a node. -/
def State.setValue (s : State K V) (n : Nat) (v : V) : State K V :=
  s.setNode n { s.nodes n with value := v }

theorem setValue_same (s : State K V) (n : Nat) : s.setValue n (s.nodes n).value = s := by
  unfold State.setValue State.setNode
  rw [Function.update_eq_self]

theorem setValue_value (s : State K V) (n : Nat) (v : V) : ((s.setValue n v).nodes n).value = v := by
  unfold State.setValue State.setNode
  dsimp only
  rw [Function.update_self]

theorem setValue_rest (s : State K V) (n m : Nat) (v : V) :
    ((s.setValue n v).nodes m).key = (s.nodes m).key ∧ ((s.setValue n v).nodes m).left = (s.nodes m).left ∧
    ((s.setValue n v).nodes m).right = (s.nodes m).right := by
  unfold State.setValue State.setNode
  dsimp only
  by_cases hmn : m = n
  · rw [hmn, Function.update_self]
    exact ⟨rfl, rfl, rfl⟩
  · rw [Function.update_of_ne hmn]
    exact ⟨rfl, rfl, rfl⟩

section
variable [LT K] [DecidableLT K]

/-- The walk to a key and looking it up meet the same node, whatever its value. -/
theorem find_get {k : K} : ∀ (fuel : Nat) {path : List Nat} {cur : Nat} {l l' : Bool}
    {s s' : State K V} {seq : List Nat},
    findPathWith fields (Py.node fields) k fuel path cur l s = .ok ((seq, l'), s') → s = s' ∧
    (top seq = 0 → Py.getLoop fields k fuel cur s = .ok (none, s)) ∧
    (top seq ≠ 0 → ∃ n, Py.node fields (top seq) s = .ok (n, s) ∧
      ∀ v, Py.getLoop fields k fuel cur (s.setValue n v) = .ok (some v, s.setValue n v)) := by
  intro fuel
  induction fuel with
  | zero =>
    intro path cur l l' s s' seq h
    exact absurd h Agree.throw_ok
  | succ fuel ih =>
    intro path cur l l' s s' seq h
    unfold findPathWith at h
    by_cases hcur : cur = 0
    · rw [if_pos hcur] at h
      obtain ⟨hseq, rfl⟩ := Agree.pure_ok.mp h
      obtain ⟨rfl, _⟩ := Prod.mk.inj hseq
      have htop : top (path ++ [cur]) = 0 := by
        unfold top
        rw [List.getLastD_concat, hcur]
      refine ⟨rfl, fun _ => ?_, fun hne => absurd htop hne⟩
      rw [Py.getLoop, if_pos hcur]
      exact Agree.pure_ok.mpr ⟨rfl, rfl⟩
    · rw [if_neg hcur] at h
      obtain ⟨n, s1, hnode, h⟩ := Agree.bind_ok.mp h
      obtain ⟨rfl, hnode'⟩ := node_ok hnode
      obtain ⟨nk, s1, hread, h⟩ := Agree.bind_ok.mp h
      obtain ⟨rfl, rfl⟩ := cell_read.mp hread
      -- the lookup takes the same turn, also with another value somewhere
      have hstep : ∀ (t : State K V) (r : Option V × State K V), t.slotsLen = s.slotsLen →
          (t.nodes n).key = (s.nodes n).key → (t.nodes n).left = (s.nodes n).left →
          (t.nodes n).right = (s.nodes n).right →
          (if k < (s.nodes n).key then Py.getLoop fields k fuel (s.nodes n).left
            else if (s.nodes n).key < k then Py.getLoop fields k fuel (s.nodes n).right
            else pure (some (t.nodes n).value)) t = .ok r →
          Py.getLoop fields k (fuel + 1) cur t = .ok r := by
        intro t r hlen hkey hleft hright hr
        obtain ⟨a, t'⟩ := r
        rw [Py.getLoop, if_neg hcur]
        refine Agree.bind_ok.mpr ⟨n, t, hnode' t hlen, Agree.bind_ok.mpr
          ⟨(s.nodes n).key, t, cell_read.mpr ⟨hkey, rfl⟩, ?_⟩⟩
        split at hr
        · rename_i hlt
          rw [if_pos hlt]
          exact Agree.bind_ok.mpr ⟨_, t, cell_read.mpr ⟨hleft, rfl⟩, hr⟩
        · rename_i hnlt
          rw [if_neg hnlt]
          split at hr
          · rename_i hgt
            rw [if_pos hgt]
            exact Agree.bind_ok.mpr ⟨_, t, cell_read.mpr ⟨hright, rfl⟩, hr⟩
          · rename_i hngt
            rw [if_neg hngt]
            exact Agree.bind_ok.mpr ⟨_, t, cell_read.mpr ⟨rfl, rfl⟩, hr⟩
      have hturn : ∀ {next : Nat} {b : Bool},
          findPathWith fields (Py.node fields) k fuel (path ++ [cur]) next b s = .ok ((seq, l'), s') →
          (∀ (t : State K V) (r : Option V × State K V), t.slotsLen = s.slotsLen →
            (t.nodes n).key = (s.nodes n).key → (t.nodes n).left = (s.nodes n).left →
            (t.nodes n).right = (s.nodes n).right → Py.getLoop fields k fuel next t = .ok r →
            Py.getLoop fields k (fuel + 1) cur t = .ok r) →
          s = s' ∧ (top seq = 0 → Py.getLoop fields k (fuel + 1) cur s = .ok (none, s)) ∧
          (top seq ≠ 0 → ∃ n, Py.node fields (top seq) s = .ok (n, s) ∧ ∀ v,
            Py.getLoop fields k (fuel + 1) cur (s.setValue n v) = .ok (some v, s.setValue n v)) := by
        intro next b hfind hget
        obtain ⟨hs, hnone, hsome⟩ := ih hfind
        refine ⟨hs, fun htop => hget s _ rfl rfl rfl rfl (hnone htop), fun htop => ?_⟩
        obtain ⟨m, hm, hv⟩ := hsome htop
        refine ⟨m, hm, fun v => ?_⟩
        obtain ⟨h1, h2, h3⟩ := setValue_rest s m n v
        exact hget _ _ rfl h1 h2 h3 (hv v)
      by_cases hlt : k < (s.nodes n).key
      · rw [if_pos hlt] at h
        obtain ⟨next, s1, hread, h⟩ := Agree.bind_ok.mp h
        obtain ⟨rfl, rfl⟩ := cell_read.mp hread
        refine hturn h fun t r h1 h2 h3 h4 hr => hstep t r h1 h2 h3 h4 ?_
        rw [if_pos hlt]
        exact hr
      · rw [if_neg hlt] at h
        by_cases hgt : (s.nodes n).key < k
        · rw [if_pos hgt] at h
          obtain ⟨next, s1, hread, h⟩ := Agree.bind_ok.mp h
          obtain ⟨rfl, rfl⟩ := cell_read.mp hread
          refine hturn h fun t r h1 h2 h3 h4 hr => hstep t r h1 h2 h3 h4 ?_
          rw [if_neg hlt, if_pos hgt]
          exact hr
        · rw [if_neg hgt] at h
          obtain ⟨hseq, rfl⟩ := Agree.pure_ok.mp h
          obtain ⟨rfl, _⟩ := Prod.mk.inj hseq
          have htop : top (path ++ [cur]) = cur := by
            unfold top
            rw [List.getLastD_concat]
          refine ⟨rfl, fun h0 => absurd (htop.symm.trans h0) hcur, fun _ => ⟨n, ?_, fun v => ?_⟩⟩
          · rw [htop]
            exact hnode
          · obtain ⟨h1, h2, h3⟩ := setValue_rest s n n v
            refine hstep _ _ rfl h1 h2 h3 ?_
            rw [if_neg hlt, if_neg hgt]
            exact Agree.pure_ok.mpr ⟨congrArg some (setValue_value s n v), rfl⟩

end

/-! ## Where the map stands when an operation raises -/

theorem assign_ok {get : State K V → α} {set : α → State K V → State K V} {f : α → Except ε Unit × α}
    {s s' : State K V} {x : Except ε Unit} :
    assign (cell get set) f s = .ok (x, s') ↔ (f (get s)).1 = x ∧ set (f (get s)).2 s = s' := by
  unfold assign
  rw [act_bind]
  constructor
  · intro ⟨old, s1, hread, h⟩
    obtain ⟨rfl, rfl⟩ := cell_read.mp hread
    obtain ⟨_, s2, hwrite, h⟩ := act_bind.mp h
    obtain rfl := cell_write.mp hwrite
    obtain ⟨hx, rfl⟩ := supply_ok.mp h
    exact ⟨hx, rfl⟩
  · intro ⟨hx, hs⟩
    exact ⟨get s, s, cell_read.mpr ⟨rfl, rfl⟩, act_bind.mpr ⟨(), s', cell_write.mpr hs, supply_ok.mpr ⟨hx, rfl⟩⟩⟩

theorem initNode_raises {I : Items K V ε} {n : Nat} {k : K} {v : Option V} {s s' : State K V} {e : ε}
    (h : initNode fields I n k v s = .ok (.error e, s')) : Keeps s s' := by
  unfold initNode at h
  rcases bind_raises.mp h with h | ⟨_, s1, hkey, h⟩
  · obtain ⟨_, rfl⟩ := assign_ok.mp h
    exact ⟨rfl, rfl⟩
  · obtain ⟨_, rfl⟩ := assign_ok.mp hkey
    rcases bind_raises.mp h with h | ⟨_, s2, _, h⟩
    · cases v with
      | none => exact absurd (supply_ok.mp h).1 fun hx => nomatch hx
      | some v =>
        obtain ⟨_, rfl⟩ := assign_ok.mp h
        exact ⟨rfl, rfl⟩
    · -- the links and the balance are the container's own
      obtain ⟨_, s3, _, h⟩ := act_bind.mp h
      obtain ⟨_, s4, _, h⟩ := act_bind.mp h
      exact absurd h act_raises

/-- A new node that raises in the supplier or in an assignment stays. -/
theorem fill_raises {I : Items K V ε} {idx : Nat} {k : K} {absent : Except ε (Option V)}
    {s s' : State K V} {e : ε} {rest : Act (State K V) ε V}
    (hrest : ∀ s1, rest s1 ≠ .ok (.error e, s'))
    (h : (supply absent >>= fun v => initNode fields I idx k v >>= fun _ => rest) s = .ok (.error e, s')) :
    Keeps s s' := by
  rcases bind_raises.mp h with h | ⟨v, s1, hsupply, h⟩
  · obtain ⟨_, rfl⟩ := supply_ok.mp h
    exact ⟨rfl, rfl⟩
  · obtain ⟨_, rfl⟩ := supply_ok.mp hsupply
    rcases bind_raises.mp h with h | ⟨_, s2, _, h⟩
    · exact initNode_raises h
    · exact absurd h (hrest s2)

section
variable [LT K] [DecidableLT K]

/-- An absent key's node is there when the operation raises; a present key's
value is the last thing that was assigned. -/
theorem getSet_raises {I : Items K V ε} {fuel : Nat} {k : K} {present : Nat → Act (State K V) ε Unit}
    {absent : Except ε (Option V)} {s s' : State K V} {e : ε}
    (h : getSet fields I fuel k present absent s = .ok (.error e, s')) :
    (lookup fuel k s = .ok none ∧ s'.size = s.size + 1) ∨
    ∃ n, present n s = .ok (.error e, s') ∧ lookup fuel k s = .ok (some (s.nodes n).value) ∧
      ∀ v, lookup fuel k (s.setValue n v) = .ok (some v) := by
  have hget : ∀ t : State K V, Py.get fields fuel k t = Py.getLoop fields k fuel t.root t := fun _ => rfl
  unfold getSet at h
  obtain ⟨⟨seq, isLess⟩, s1, hfind, h⟩ := act_bind.mp h
  obtain ⟨root, s2, hroot, hfind⟩ := Agree.bind_ok.mp hfind
  obtain ⟨rfl, rfl⟩ := cell_read.mp hroot
  obtain ⟨rfl, hnone, hsome⟩ := find_get fuel hfind
  dsimp only at h
  by_cases htop : top seq ≠ 0
  · rw [if_pos htop] at h
    obtain ⟨n, hnode, hvalue⟩ := hsome htop
    obtain ⟨slot, s1, hslot, h⟩ := act_bind.mp h
    rw [hnode] at hslot
    obtain ⟨rfl, rfl⟩ := Prod.mk.inj (Except.ok.inj hslot)
    have hlookup : ∀ v, lookup fuel k (s.setValue n v) = .ok (some v) := by
      intro v
      unfold lookup
      rw [hget]
      exact congrArg (Except.map Prod.fst) (hvalue v)
    rcases bind_raises.mp h with h | ⟨_, s1, _, h⟩
    · refine .inr ⟨n, h, ?_, hlookup⟩
      have hself := hlookup (s.nodes n).value
      rw [setValue_same] at hself
      exact hself
    · exact absurd h act_raises
  · rw [if_neg htop] at h
    have habsent : lookup fuel k s = .ok none := by
      unfold lookup
      rw [hget, hnone (not_not.mp htop)]
      rfl
    refine .inl ⟨habsent, ?_⟩
    by_cases hroot : seq.length = 1
    · rw [if_pos hroot] at h
      obtain ⟨idx, s1, halloc, h⟩ := act_bind.mp h
      obtain ⟨child, s2, hchild, h⟩ := act_bind.mp h
      obtain rfl := childIndex_ok hchild
      obtain ⟨_, s3, hwrite, h⟩ := act_bind.mp h
      obtain rfl := cell_write.mp hwrite
      have hkeeps := fill_raises (fun s1 => act_raises) h
      have hsize := allocSlot_size halloc
      exact hkeeps.size.trans hsize
    · rw [if_neg hroot] at h
      obtain ⟨idx, s1, halloc, h⟩ := act_bind.mp h
      obtain ⟨child, s2, hchild, h⟩ := act_bind.mp h
      obtain rfl := childIndex_ok hchild
      obtain ⟨_, s3, hlink, h⟩ := act_bind.mp h
      have hkeeps := fill_raises (fun s1 h => by
        obtain ⟨_, s2, _, h⟩ := act_bind.mp h
        obtain ⟨_, s3, _, h⟩ := act_bind.mp h
        exact act_raises h) h
      exact ((setChild_keeps hlink).trans hkeeps).size.trans (allocSlot_size halloc)

end

/-! ## Arrays -/

inductive ArrayErr (ε : Type) where
  | index
  | length
  | element (e : ε)

/-- An element assignment, which may raise half way through. -/
def setElement (set : V → V → Except ε Unit × V) (a : DynArray V) (i : Nat) (x : V) :
    Except (ArrayErr ε) Unit × DynArray V :=
  ((set x (a.items i)).1.mapError .element,
    { a with items := Function.update a.items i (set x (a.items i)).2 })

/-- mirrors dyn_array.py:204-213 -/
def append (set : V → V → Except ε Unit × V) (a : DynArray V) (value : V) :
    Except (ArrayErr ε) Unit × DynArray V :=
  if a.len + 1 < 2 ^ 32 then setElement set { a with len := a.len + 1 } a.len value
  else (.error .length, a)

/-- The loop of `insert`, mirrors dyn_array.py:196-197 -/
def insertLoop (set : V → V → Except ε Unit × V) (index : Nat) :
    Nat → DynArray V → Except (ArrayErr ε) Unit × DynArray V
  | 0, a => (.ok (), a)
  | n + 1, a =>
    match setElement set a (index + n + 1) (a.items (index + n)) with
    | (.error e, a) => (.error e, a)
    | (.ok _, a) => insertLoop set index n a

/-- mirrors dyn_array.py:185-198 -/
def insert (set : V → V → Except ε Unit × V) (a : DynArray V) (index : Int) (value : V) :
    Except (ArrayErr ε) Unit × DynArray V :=
  match DynArray.mapIndex a.len index with
  | .error _ => (.error .index, a)
  | .ok index =>
    if a.len + 1 < 2 ^ 32 then
      match insertLoop set index (a.len - index) { a with len := a.len + 1 } with
      | (.error e, a) => (.error e, a)
      | (.ok _, a) => setElement set a index value
    else (.error .length, a)

theorem insertLoop_len (set : V → V → Except ε Unit × V) (index : Nat) : ∀ (n : Nat) (a : DynArray V),
    (insertLoop set index n a).2.len = a.len := by
  intro n
  induction n with
  | zero => intro a; rfl
  | succ n ih =>
    intro a
    unfold insertLoop
    split
    · rename_i e a' h
      exact congrArg (fun r => r.2.len) h.symm
    · rename_i u a' h
      rw [ih]
      exact congrArg (fun r => r.2.len) h.symm

theorem append_raises {set : V → V → Except ε Unit × V} {a a' : DynArray V} {value : V} {e : ε}
    (h : append set a value = (.error (.element e), a')) : a'.len = a.len + 1 := by
  unfold append at h
  split at h
  · exact congrArg (fun r => r.2.len) h.symm
  · cases h

theorem insert_raises {set : V → V → Except ε Unit × V} {a a' : DynArray V} {index : Int} {value : V}
    {e : ε} (h : insert set a index value = (.error (.element e), a')) : a'.len = a.len + 1 := by
  unfold insert at h
  split at h
  · cases h
  · rename_i i _
    split at h
    · have hloop := insertLoop_len set i (a.len - i) { a with len := a.len + 1 }
      split at h
      · rename_i e' a'' hrun
        rw [hrun] at hloop
        obtain rfl := (Prod.mk.inj h).2
        exact hloop
      · rename_i u a'' hrun
        rw [hrun] at hloop
        exact (congrArg (fun r => r.2.len) h.symm).trans hloop
    · cases h

/-! ## Atomic or not -/

/-- A raising operation on a map leaves the map as it was exactly when it is an
item assignment to a present key and stored the old value again. A raising
`append` or `insert` never leaves the array's length as it was. -/
theorem raising_atomic_iff [LT K] [DecidableLT K] (I : Items K V ε) :
    (∀ (fuel : Nat) (op : Op K V ε) (s s' : State K V) (e : ε),
      run fields I fuel op s = .ok (.error e, s') →
      (Same s s' ↔ ∃ k v old, op = .setItem k v ∧ lookup fuel k s = .ok (some old) ∧
        (I.setValue v old).2 = old)) ∧
    (∀ (a a' : DynArray V) (value : V) (e : ε),
      append I.setValue a value = (.error (.element e), a') → a'.len ≠ a.len) ∧
    ∀ (a a' : DynArray V) (index : Int) (value : V) (e : ε),
      insert I.setValue a index value = (.error (.element e), a') → a'.len ≠ a.len := by
  refine ⟨fun fuel op s s' e h => ?_, fun a a' value e h => ?_, fun a a' index value e h => ?_⟩
  · have hnew : ∀ {k : K}, lookup fuel k s = .ok none → s'.size = s.size + 1 → op.key = k →
        (Same s s' ↔ ∃ k v old, op = .setItem k v ∧ lookup fuel k s = .ok (some old) ∧
          (I.setValue v old).2 = old) := by
      intro k hlookup hsize hkey
      refine ⟨fun hsame => ?_, fun ⟨k', v, old, hop, hold, _⟩ => ?_⟩
      · have := hsame.1
        omega
      · rw [hop] at hkey
        obtain rfl : k' = k := hkey
        rw [hlookup] at hold
        cases hold
    cases op with
    | setItem k v =>
      rcases getSet_raises h with ⟨hlookup, hsize⟩ | ⟨n, hraise, hold, hnewval⟩
      · exact hnew hlookup hsize rfl
      · obtain ⟨_, hs'⟩ := assign_ok.mp hraise
        have hs' : s' = s.setValue n (I.setValue v (s.nodes n).value).2 := hs'.symm
        refine ⟨fun hsame => ⟨k, v, (s.nodes n).value, rfl, hold, ?_⟩, fun ⟨k', v', old, hop, hold', heq⟩ => ?_⟩
        · have hk := hsame.2.1 fuel k
          rw [hs', hnewval, hold] at hk
          exact Option.some.inj (Except.ok.inj hk)
        · obtain ⟨rfl, rfl⟩ := Op.setItem.inj hop
          rw [hold] at hold'
          obtain rfl := Option.some.inj (Except.ok.inj hold')
          have hsame : s' = s := by rw [hs', heq, setValue_same]
          rw [hsame]
          exact ⟨rfl, fun _ _ => rfl, fun _ => rfl, rfl⟩
    | computeIfAbsent k supplier =>
      rcases getSet_raises h with ⟨hlookup, hsize⟩ | ⟨n, hraise, _⟩
      · exact hnew hlookup hsize rfl
      · cases hraise
    | getOrInsertDefault k =>
      rcases getSet_raises h with ⟨hlookup, hsize⟩ | ⟨n, hraise, _⟩
      · exact hnew hlookup hsize rfl
      · cases hraise
  · have := append_raises h
    omega
  · have := insert_raises h
    omega

/-- Values that cannot be assigned. -/
def unassignable : Items Nat Nat Unit := ⟨fun k _ => (.ok (), k), fun _ old => (.error (), old)⟩

def emptyMap : State Nat Nat := ⟨0, 0, 0, fun _ => 0, fun _ => ⟨0, 0, 0, 0, 0⟩⟩

/-- The map after a supplier has raised: a node with the key that its slot had. -/
def halfInserted : State Nat Nat := { emptyMap with root := 1, slotsLen := 1 }

theorem supplier_raises_half_inserted : run fields unassignable 1 (.computeIfAbsent 5 (.error ())) emptyMap
    = .ok (.error (), halfInserted) := rfl

theorem raising_not_atomic : ¬ ∀ (op : Op Nat Nat Unit) (s s' : State Nat Nat) (e : Unit),
    run fields unassignable 1 op s = .ok (.error e, s') → Same s s' := fun h =>
  absurd (h _ _ _ _ supplier_raises_half_inserted).1 (by decide)

theorem raising_atomic_iff_unassignable : ¬ Same emptyMap halfInserted ∧
    (append unassignable.setValue ⟨0, fun _ => 0⟩ 7).2.len ≠ 0 ∧
    (insert unassignable.setValue ⟨1, fun _ => 0⟩ 0 7).2.len ≠ 1 := by
  obtain ⟨hmap, happend, hinsert⟩ := raising_atomic_iff unassignable
  refine ⟨fun h => ?_, happend ⟨0, fun _ => 0⟩ _ 7 () rfl, hinsert ⟨1, fun _ => 0⟩ _ 0 7 () rfl⟩
  obtain ⟨k, v, old, hop, _⟩ := (hmap 1 _ _ _ () supplier_raises_half_inserted).mp h
  cases hop

end GenVM.Storage.Raising
