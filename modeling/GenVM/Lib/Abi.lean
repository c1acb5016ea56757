import Mathlib

/-!
# The contract ABI of Solidity

Types, values, and the encoding the ABI specification prescribes: every atom is a
word of 32 bytes; a sequence of components is its heads followed by its tails,
where the head of a dynamic component is the offset of its tail from the start of
the heads; `bytes`, `string` and `T[]` begin with their length.

`decode` is the standard reader. It checks every word's range and every padding
byte, and follows the offsets from the start of the enclosing heads.

Results:
* `decode_enc`: what `enc` writes, at its place in a memory, is read back.
* `length_enc`: a static value takes the head size of its type.
-/
namespace GenVM.Abi

/-! ## Words -/

/-- The last `k` big-endian digits to the base 256. -/
def digits (k n : Nat) : List UInt8 :=
  (List.range k).map fun i => UInt8.ofNat (n / 256 ^ (k - 1 - i))

/-- A big-endian word of 32 bytes. -/
def word (n : Nat) : List UInt8 := digits 32 n

def ofBytes (b : List UInt8) : Nat := b.foldl (fun n x => n * 256 + x.toNat) 0

theorem digits_succ (k n : Nat) : digits (k + 1) n = digits k (n / 256) ++ [UInt8.ofNat n] := by
  unfold digits
  rw [List.range_succ, List.map_append]
  congr 1
  · apply List.map_congr_left
    intro i hi
    have hlt := List.mem_range.mp hi
    rw [Nat.div_div_eq_div_mul, ← pow_succ']
    congr 2
    rw [show k - 1 - i + 1 = k + 1 - 1 - i by omega]
  · simp

theorem ofBytes_digits (k n : Nat) : ofBytes (digits k n) = n % 256 ^ k := by
  induction k generalizing n with
  | zero => simp [digits, ofBytes, Nat.mod_one]
  | succ k ih =>
    have h := ih (n / 256)
    unfold ofBytes at h ⊢
    rw [digits_succ, List.foldl_append, h]
    simp only [List.foldl_cons, List.foldl_nil, UInt8.toNat_ofNat']
    rw [pow_succ' 256 k, Nat.mod_mul]
    omega

@[simp] theorem length_word (n : Nat) : (word n).length = 32 := by simp [word, digits]

theorem ofBytes_word {n : Nat} (h : n < 2 ^ 256) : ofBytes (word n) = n := by
  unfold word
  rw [ofBytes_digits]
  exact Nat.mod_eq_of_lt (lt_of_lt_of_eq h (by norm_num))

/-! ## Types and values -/

/-- `uint w` and `int w` have `w + 1` bytes, and so has `fixedBytes w`. -/
inductive Ty where
  | uint (w : Fin 32)
  | int (w : Fin 32)
  | bool
  | address
  | fixedBytes (w : Fin 32)
  | bytes
  | string
  | array (elem : Ty)
  | fixed (size : Nat) (elem : Ty)
  | tuple (elems : List Ty)

/-- The number of values of `uint w`. -/
def bound (w : Fin 32) : Nat := 2 ^ (8 * (w.val + 1))

mutual
/-- The values in a type's range. -/
def Ty.Val : Ty → Type
  | .uint w => {n : Nat // n < bound w}
  | .int w => {i : Int // -(bound w / 2 : Nat) ≤ i ∧ i < (bound w / 2 : Nat)}
  | .bool => Bool
  | .address => {b : List UInt8 // b.length = 20}
  | .fixedBytes w => {b : List UInt8 // b.length = w.val + 1}
  | .bytes => List UInt8
  | .string => String
  | .array t => {vs : List t.Val // vs.length < 2 ^ 256}
  | .fixed size t => {vs : List t.Val // vs.length = size}
  | .tuple ts => Ty.Vals ts
def Ty.Vals : List Ty → Type
  | [] => Unit
  | t :: ts => t.Val × Ty.Vals ts
end

mutual
def Ty.dynamic : Ty → Bool
  | .bytes | .string | .array _ => true
  | .fixed _ t => t.dynamic
  | .tuple ts => Ty.anyDynamic ts
  | _ => false
def Ty.anyDynamic : List Ty → Bool
  | [] => false
  | t :: ts => t.dynamic || Ty.anyDynamic ts
end

mutual
/-- The size of the heads of the components. -/
def Ty.inlineSize : Ty → Nat
  | .fixed size t => size * (if t.dynamic then 32 else t.inlineSize)
  | .tuple ts => Ty.headSizes ts
  | _ => 32
def Ty.headSizes : List Ty → Nat
  | [] => 0
  | t :: ts => (if t.dynamic then 32 else t.inlineSize) + Ty.headSizes ts
end

/-- What a component takes in the heads. -/
def Ty.headSize (t : Ty) : Nat := if t.dynamic then 32 else t.inlineSize

/-! ## Heads and tails -/

/-- A component's encoding: in place, or behind an offset. -/
inductive Part where
  | inline (bytes : List UInt8)
  | behind (bytes : List UInt8)

namespace Part

def of (dynamic : Bool) (bytes : List UInt8) : Part :=
  if dynamic then .behind bytes else .inline bytes

def size : Part → Nat
  | inline b => b.length
  | behind _ => 32

def tail : Part → List UInt8
  | inline _ => []
  | behind b => b

end Part

/-- The heads, when the next tail starts at `off`. -/
def heads : Nat → List Part → List UInt8
  | _, [] => []
  | off, .inline b :: ps => b ++ heads off ps
  | off, .behind b :: ps => word off ++ heads (off + b.length) ps

def tails (ps : List Part) : List UInt8 := ps.flatMap Part.tail

def sizes (ps : List Part) : Nat := (ps.map Part.size).sum

def layout (ps : List Part) : List UInt8 := heads (sizes ps) ps ++ tails ps

@[simp] theorem tails_nil : tails [] = [] := rfl

@[simp] theorem tails_cons (p : Part) (ps : List Part) : tails (p :: ps) = p.tail ++ tails ps := rfl

@[simp] theorem sizes_nil : sizes [] = 0 := rfl

@[simp] theorem sizes_cons (p : Part) (ps : List Part) : sizes (p :: ps) = p.size + sizes ps := by
  simp [sizes]

@[simp] theorem length_heads (off : Nat) (ps : List Part) : (heads off ps).length = sizes ps := by
  induction ps generalizing off with
  | nil => rfl
  | cons p ps ih => cases p <;> simp [heads, ih, Part.size]

theorem length_layout (ps : List Part) : (layout ps).length = sizes ps + (tails ps).length := by
  simp [layout]

/-! ## The encoding -/

/-- The zero bytes that fill the last word. -/
def padding (n : Nat) : List UInt8 := List.replicate ((32 - n % 32) % 32) 0

def encBytes (b : List UInt8) : List UInt8 := word b.length ++ b ++ padding b.length

mutual
def enc : (t : Ty) → t.Val → List UInt8
  | .uint _, n => word n.val
  | .int _, i => word (i.val % 2 ^ 256).toNat
  | .bool, b => word (Bool.toNat b)
  | .address, b => List.replicate 12 0 ++ b.val
  | .fixedBytes _, b => b.val ++ List.replicate (32 - b.val.length) 0
  | .bytes, b => encBytes b
  | .string, s => encBytes (String.toUTF8 s).data.toList
  | .array t, vs =>
    word vs.val.length ++ layout (vs.val.map fun v => Part.of t.dynamic (enc t v))
  | .fixed _ t, vs => layout (vs.val.map fun v => Part.of t.dynamic (enc t v))
  | .tuple ts, vs => layout (parts ts vs)
def parts : (ts : List Ty) → Ty.Vals ts → List Part
  | [], _ => []
  | t :: ts, vs => Part.of t.dynamic (enc t vs.1) :: parts ts vs.2
end

/-! ## The standard reader -/

def slice (mem : List UInt8) (pos n : Nat) : Option (List UInt8) :=
  if ((mem.drop pos).take n).length = n then some ((mem.drop pos).take n) else none

def wordAt (mem : List UInt8) (pos : Nat) : Option Nat := (slice mem pos 32).map ofBytes

/-- The length, the bytes, and zeros up to the next word. -/
def readBytes (mem : List UInt8) (pos : Nat) : Option (List UInt8) :=
  (wordAt mem pos).bind fun n =>
  (slice mem (pos + 32) n).bind fun b =>
  if slice mem (pos + 32 + n) ((32 - n % 32) % 32) = some (padding n) then some b else none

/-- A component whose head stands at `pos`. -/
def follow {α : Type} (dynamic : Bool) (read : List UInt8 → Nat → Option α) (mem : List UInt8)
    (pos : Nat) : Option α :=
  if dynamic then (wordAt mem pos).bind fun off => read (mem.drop off) 0 else read mem pos

/-- `n` components of one type, each `size` bytes after the one before. -/
def readN {α : Type} (size : Nat) (read : List UInt8 → Nat → Option α) :
    Nat → List UInt8 → Nat → Option (List α)
  | 0, _, _ => some []
  | n + 1, mem, pos => (read mem pos).bind fun v =>
    (readN size read n mem (pos + size)).map (v :: ·)

/-- `i` in two's complement. -/
def signed (n : Nat) : Int := if n < 2 ^ 255 then n else (n : Int) - 2 ^ 256

/-- A value of a subtype, when its condition holds. -/
def check {α : Type} {p : α → Prop} [DecidablePred p] (a : α) : Option {a // p a} :=
  if h : p a then some ⟨a, h⟩ else none

mutual
/-- The value at `pos`, where offsets count from the start of `mem`. -/
def decode : (t : Ty) → List UInt8 → Nat → Option t.Val
  | .uint _, mem, pos => (wordAt mem pos).bind check
  | .int _, mem, pos => (wordAt mem pos).bind fun n => check (signed n)
  | .bool, mem, pos => (wordAt mem pos).bind fun n =>
    if n = 0 then some false else if n = 1 then some true else none
  | .address, mem, pos =>
    if slice mem pos 12 = some (List.replicate 12 0) then (slice mem (pos + 12) 20).bind check
    else none
  | .fixedBytes w, mem, pos =>
    if slice mem (pos + (w.val + 1)) (32 - (w.val + 1)) =
      some (List.replicate (32 - (w.val + 1)) 0)
    then (slice mem pos (w.val + 1)).bind check else none
  | .bytes, mem, pos => readBytes mem pos
  | .string, mem, pos => (readBytes mem pos).bind fun b => String.fromUTF8? ⟨⟨b⟩⟩
  | .array t, mem, pos => (wordAt mem pos).bind fun n =>
    (readN t.headSize (follow t.dynamic (decode t)) n (mem.drop (pos + 32)) 0).bind check
  | .fixed size t, mem, pos =>
    (readN t.headSize (follow t.dynamic (decode t)) size mem pos).bind check
  | .tuple ts, mem, pos => decodes ts mem pos
def decodes : (ts : List Ty) → List UInt8 → Nat → Option (Ty.Vals ts)
  | [], _, _ => some ()
  | t :: ts, mem, pos => (follow t.dynamic (decode t) mem pos).bind fun v =>
    (decodes ts mem (pos + t.headSize)).map fun vs => (v, vs)
end

/-! ## What is written is read back -/

section Reading
variable {mem : List UInt8} {pos : Nat}

theorem slice_eq {b : List UInt8} (h : b <+: mem.drop pos) : slice mem pos b.length = some b := by
  have htake : (mem.drop pos).take b.length = b := (List.prefix_iff_eq_take.mp h).symm
  unfold slice
  rw [htake, if_pos rfl]

/-- What follows a prefix. -/
theorem prefix_after {a b : List UInt8} (h : a ++ b <+: mem.drop pos) :
    b <+: mem.drop (pos + a.length) := by
  rw [← List.drop_drop]
  obtain ⟨rest, hrest⟩ := h
  rw [← hrest, List.append_assoc, List.drop_left]
  exact List.prefix_append _ _

theorem wordAt_eq {n : Nat} (hn : n < 2 ^ 256) (h : word n <+: mem.drop pos) :
    wordAt mem pos = some n := by
  have hs := slice_eq h
  rw [length_word] at hs
  unfold wordAt
  rw [hs, Option.map_some, ofBytes_word hn]

theorem check_eq {α : Type} {p : α → Prop} [DecidablePred p] (a : {a // p a}) :
    check a.val = some a := by
  unfold check
  rw [dif_pos a.property]

theorem readBytes_eq {b : List UInt8} (hb : b.length < 2 ^ 256) (h : encBytes b <+: mem.drop pos) :
    readBytes mem pos = some b := by
  unfold encBytes at h
  have hdata := (List.prefix_append _ _).trans (prefix_after (List.append_assoc .. ▸ h))
  have hpad := prefix_after h
  rw [List.length_append, length_word, ← Nat.add_assoc] at hpad
  rw [length_word] at hdata
  have hword := (List.prefix_append (word b.length) b).trans ((List.prefix_append _ _).trans h)
  have hp := slice_eq hpad
  rw [show (padding b.length).length = (32 - b.length % 32) % 32 by simp [padding]] at hp
  unfold readBytes
  rw [wordAt_eq hb hword, Option.bind_some, slice_eq hdata, Option.bind_some, if_pos hp]

theorem signed_word {w : Fin 32} {i : Int} (h1 : -(bound w / 2 : Nat) ≤ i)
    (h2 : i < (bound w / 2 : Nat)) : signed (i % 2 ^ 256).toNat = i := by
  have hb : bound w / 2 ≤ 2 ^ 255 := by
    have hle : bound w ≤ 2 ^ 256 := Nat.pow_le_pow_right (by omega) (by omega)
    omega
  unfold signed
  split <;> omega

theorem toNat_word_lt (i : Int) : (i % 2 ^ 256).toNat < 2 ^ 256 := by omega

/-- One component among others: its value, and where the rest stand. -/
theorem follow_part {α : Type} {dynamic : Bool} {read : List UInt8 → Nat → Option α} {v : α}
    {b : List UInt8} {off : Nat} {ps : List Part}
    (hread : ∀ mem pos, b <+: mem.drop pos → (dynamic → pos = 0) → read mem pos = some v)
    (hheads : heads off (Part.of dynamic b :: ps) <+: mem.drop pos)
    (htails : tails (Part.of dynamic b :: ps) <+: mem.drop off) (hoff : off < 2 ^ 256) :
    follow dynamic read mem pos = some v ∧
    heads (off + (Part.of dynamic b).tail.length) ps <+: mem.drop (pos + (Part.of dynamic b).size) ∧
    tails ps <+: mem.drop (off + (Part.of dynamic b).tail.length) := by
  cases dynamic with
  | false =>
    change b ++ heads off ps <+: _ at hheads
    change tails ps <+: _ at htails
    refine ⟨?_, prefix_after hheads, htails⟩
    exact hread mem pos ((List.prefix_append _ _).trans hheads) (by simp)
  | true =>
    change word off ++ heads (off + b.length) ps <+: _ at hheads
    change b ++ tails ps <+: _ at htails
    have hrest := prefix_after hheads
    rw [length_word] at hrest
    refine ⟨?_, hrest, prefix_after htails⟩
    unfold follow
    rw [if_pos rfl, wordAt_eq hoff ((List.prefix_append _ _).trans hheads), Option.bind_some]
    exact hread _ 0 ((List.prefix_append _ _).trans htails) fun _ => rfl

end Reading

theorem size_of {dynamic : Bool} {b : List UInt8} {n : Nat} (h : dynamic = false → b.length = n) :
    (Part.of dynamic b).size = if dynamic then 32 else n := by
  cases dynamic with
  | true => rfl
  | false => exact h rfl

theorem sizes_map {α : Type} {f : α → Part} {n : Nat} :
    ∀ {vs : List α}, (∀ v ∈ vs, (f v).size = n) → sizes (vs.map f) = vs.length * n
  | [], _ => by simp
  | v :: vs, h => by
    have ih := sizes_map fun u hu => h u (List.mem_cons_of_mem v hu)
    rw [List.map_cons, sizes_cons, h v List.mem_cons_self, ih, List.length_cons]
    ring

theorem tails_of_static {α : Type} (f : α → List UInt8) (vs : List α) :
    tails (vs.map fun v => Part.of false (f v)) = [] := by
  simp [tails, Part.of, Part.tail]

mutual
/-- A static value takes the head size of its type. -/
theorem length_enc : ∀ (t : Ty) (v : t.Val), t.dynamic = false → (enc t v).length = t.inlineSize
  | .uint _, _, _ => length_word _
  | .int _, _, _ => length_word _
  | .bool, _, _ => length_word _
  | .address, b, _ => by simp [enc, Ty.inlineSize, b.property]
  | .fixedBytes w, b, _ => by simp [enc, Ty.inlineSize, b.property]; omega
  | .fixed size t, vs, h => by
    have ht : t.dynamic = false := h
    have hone : ∀ v ∈ vs.val, (Part.of t.dynamic (enc t v)).size =
        if t.dynamic then 32 else t.inlineSize :=
      fun v _ => size_of fun _ => length_enc t v ht
    have hsize := sizes_map hone
    rw [vs.property] at hsize
    unfold enc Ty.inlineSize
    rw [length_layout, hsize, ht, tails_of_static]
    rfl
  | .tuple ts, vs, h => by
    obtain ⟨hsizes, htails⟩ := length_parts ts vs
    unfold enc Ty.inlineSize
    rw [length_layout, hsizes, htails h]
    rfl
theorem length_parts : ∀ (ts : List Ty) (vs : Ty.Vals ts),
    sizes (parts ts vs) = Ty.headSizes ts ∧ (Ty.anyDynamic ts = false → tails (parts ts vs) = [])
  | [], _ => ⟨rfl, fun _ => rfl⟩
  | t :: ts, vs => by
    obtain ⟨hsizes, htails⟩ := length_parts ts vs.2
    have hsize := size_of fun h => length_enc t vs.1 h
    unfold parts Ty.headSizes
    rw [sizes_cons, hsize, hsizes]
    refine ⟨rfl, fun h => ?_⟩
    obtain ⟨h1, h2⟩ := Bool.or_eq_false_iff.mp h
    rw [tails_cons, htails h2, h1]
    rfl
end

theorem size_part (t : Ty) (v : t.Val) : (Part.of t.dynamic (enc t v)).size = t.headSize :=
  size_of (length_enc t v)

theorem length_lt_part (dynamic : Bool) {b : List UInt8} {n : Nat}
    (hsize : (Part.of dynamic b).size < n) (htail : (Part.of dynamic b).tail.length < n) :
    b.length < n := by
  cases dynamic with
  | true => exact htail
  | false => exact hsize

theorem layout_prefix {ps : List Part} {mem : List UInt8} {pos : Nat} {dynamic : Bool}
    (hpos : dynamic → pos = 0) (hstatic : dynamic = false → tails ps = [])
    (h : layout ps <+: mem.drop pos) :
    heads (sizes ps) ps <+: mem.drop pos ∧ tails ps <+: mem.drop (sizes ps) := by
  refine ⟨(List.prefix_append _ _).trans h, ?_⟩
  cases dynamic with
  | true =>
    have hrest := prefix_after h
    rw [length_heads, hpos rfl, Nat.zero_add] at hrest
    exact hrest
  | false =>
    rw [hstatic rfl]
    exact ⟨_, List.nil_append _⟩

/-- Reading the elements of an array in order. The induction moves both the heads and the tails. -/
theorem readN_layout {α : Type} {dynamic : Bool} {read : List UInt8 → Nat → Option α}
    {f : α → List UInt8} {size : Nat} {mem : List UInt8} : ∀ {vs : List α} {pos off : Nat},
    (∀ v ∈ vs, (f v).length < 2 ^ 256 → ∀ mem pos, f v <+: mem.drop pos → (dynamic → pos = 0) →
      read mem pos = some v) →
    (∀ v ∈ vs, (Part.of dynamic (f v)).size = size) →
    heads off (vs.map fun v => Part.of dynamic (f v)) <+: mem.drop pos →
    tails (vs.map fun v => Part.of dynamic (f v)) <+: mem.drop off →
    off + (tails (vs.map fun v => Part.of dynamic (f v))).length < 2 ^ 256 →
    sizes (vs.map fun v => Part.of dynamic (f v)) < 2 ^ 256 →
    readN size (follow dynamic read) vs.length mem pos = some vs
  | [], _, _, _, _, _, _, _, _ => rfl
  | v :: vs, pos, off, hread, hsize, hheads, htails, hoff, hsizes => by
    rw [List.map_cons, tails_cons, List.length_append] at hoff
    rw [List.map_cons, sizes_cons] at hsizes
    have hlt : (f v).length < 2 ^ 256 := length_lt_part dynamic (by omega) (by omega)
    obtain ⟨hv, hheads2, htails2⟩ :=
      follow_part (hread v List.mem_cons_self hlt) hheads htails (by omega)
    rw [hsize v List.mem_cons_self] at hheads2
    have ih := readN_layout (fun u hu => hread u (List.mem_cons_of_mem v hu))
      (fun u hu => hsize u (List.mem_cons_of_mem v hu)) hheads2 htails2 (by omega) (by omega)
    rw [List.length_cons, readN, hv, Option.bind_some, ih, Option.map_some]

theorem bind_eq {α β : Type} {o : Option α} {f : α → Option β} {a : α} {b : β} (h1 : o = some a)
    (h2 : f a = some b) : o.bind f = some b := by
  rw [h1]
  exact h2

theorem length_le_encBytes (b : List UInt8) : b.length ≤ (encBytes b).length := by
  unfold encBytes
  rw [List.length_append, List.length_append]
  omega

theorem tails_static {α : Type} {dynamic : Bool} {f : α → List UInt8} {vs : List α}
    (h : dynamic = false) : tails (vs.map fun v => Part.of dynamic (f v)) = [] := by
  rw [h]
  exact tails_of_static f vs

mutual
/-- What `enc` writes is read back wherever it stands. -/
theorem decode_enc : ∀ (t : Ty) (v : t.Val), (enc t v).length < 2 ^ 256 →
    ∀ (mem : List UInt8) (pos : Nat), enc t v <+: mem.drop pos → (t.dynamic → pos = 0) →
    decode t mem pos = some v
  | .uint w, n, _, mem, pos, h, _ => by
    have hn : n.val < 2 ^ 256 :=
      n.property.trans_le (Nat.pow_le_pow_right (by omega) (by omega))
    exact bind_eq (wordAt_eq hn h) (check_eq n)
  | .int w, i, _, mem, pos, h, _ => by
    have hi := signed_word i.property.1 i.property.2
    exact bind_eq (wordAt_eq (toNat_word_lt _) h) ((congrArg check hi).trans (check_eq i))
  | .bool, b, _, mem, pos, h, _ => by
    cases b with
    | false => exact bind_eq (wordAt_eq (by norm_num) h) rfl
    | true => exact bind_eq (wordAt_eq (by norm_num) h) rfl
  | .address, b, _, mem, pos, h, _ => by
    have hpad := slice_eq ((List.prefix_append _ _).trans h)
    have hdata := slice_eq (prefix_after h)
    rw [List.length_replicate] at hpad hdata
    rw [b.property] at hdata
    exact (if_pos hpad).trans (bind_eq hdata (check_eq b))
  | .fixedBytes w, b, _, mem, pos, h, _ => by
    have hdata := slice_eq ((List.prefix_append _ _).trans h)
    have hpad := slice_eq (prefix_after h)
    rw [List.length_replicate, b.property] at hpad
    rw [b.property] at hdata
    exact (if_pos hpad).trans (bind_eq hdata (check_eq b))
  | .bytes, b, hlt, mem, pos, h, _ => readBytes_eq ((length_le_encBytes b).trans_lt hlt) h
  | .string, s, hlt, mem, pos, h, _ => by
    have hb := readBytes_eq ((length_le_encBytes _).trans_lt hlt) h
    exact bind_eq hb (dif_pos (String.isValidUTF8 s))
  | .array t, vs, hlt, mem, pos, h, _ => by
    have hlen : 32 + (layout (vs.val.map fun v => Part.of t.dynamic (enc t v))).length <
        2 ^ 256 := by
      unfold enc at hlt
      rwa [List.length_append, length_word] at hlt
    rw [length_layout] at hlen
    have hbase := prefix_after h
    rw [length_word, ← List.drop_zero (l := mem.drop (pos + 32))] at hbase
    obtain ⟨hheads, htails⟩ := layout_prefix (fun _ : true = true => rfl) (by simp) hbase
    apply bind_eq (wordAt_eq vs.property ((List.prefix_append _ _).trans h))
    have hread := readN_layout (fun v _ hv => decode_enc t v hv) (fun v _ => size_part t v)
      hheads htails (by omega) (by omega)
    exact bind_eq hread (check_eq vs)
  | .fixed size t, vs, hlt, mem, pos, h, hpos => by
    have hlen : (layout (vs.val.map fun v => Part.of t.dynamic (enc t v))).length < 2 ^ 256 := hlt
    rw [length_layout] at hlen
    have ht : t.dynamic → pos = 0 := hpos
    obtain ⟨hheads, htails⟩ := layout_prefix ht tails_static h
    have hread := readN_layout (fun v _ hv => decode_enc t v hv) (fun v _ => size_part t v)
      hheads htails (by omega) (by omega)
    rw [vs.property] at hread
    exact bind_eq hread (check_eq vs)
  | .tuple ts, vs, hlt, mem, pos, h, hpos => by
    have hlen := hlt
    unfold enc at hlen
    rw [length_layout] at hlen
    obtain ⟨hheads, htails⟩ := layout_prefix hpos (length_parts ts vs).2 h
    exact decodes_parts ts vs mem pos _ hheads htails (by omega) (by omega)
theorem decodes_parts : ∀ (ts : List Ty) (vs : Ty.Vals ts) (mem : List UInt8) (pos off : Nat),
    heads off (parts ts vs) <+: mem.drop pos → tails (parts ts vs) <+: mem.drop off →
    off + (tails (parts ts vs)).length < 2 ^ 256 → sizes (parts ts vs) < 2 ^ 256 →
    decodes ts mem pos = some vs
  | [], _, _, _, _, _, _, _, _ => rfl
  | t :: ts, vs, mem, pos, off, hheads, htails, hoff, hsizes => by
    unfold parts at hheads htails hoff hsizes
    rw [tails_cons, List.length_append] at hoff
    rw [sizes_cons] at hsizes
    have hlt : (enc t vs.1).length < 2 ^ 256 :=
      length_lt_part t.dynamic (by omega) (by omega)
    obtain ⟨hv, hheads2, htails2⟩ :=
      follow_part (decode_enc t vs.1 hlt) hheads htails (by omega)
    rw [size_part] at hheads2
    have ih := decodes_parts ts vs.2 mem _ _ hheads2 htails2 (by omega) (by omega)
    exact bind_eq hv (congrArg (Option.map fun us => (vs.1, us)) ih)
end

theorem decode_self (t : Ty) (v : t.Val) (h : (enc t v).length < 2 ^ 256) :
    decode t (enc t v) 0 = some v :=
  decode_enc t v h _ 0 (List.prefix_refl _) fun _ => rfl

end GenVM.Abi
