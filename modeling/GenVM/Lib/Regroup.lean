import Mathlib

/-!
# Regrouping bits

A stream of `a`-bit digits, most significant first, is read as a stream of
`b`-bit digits: each digit is shifted into an accumulator and whole digits of
the other width are taken off its top (`drain`). `Grouped` says what such a loop
has done so far; it leaves nothing to choose (`Grouped.unique`), so two loops
that keep their accumulators differently put out the same.

A last digit may be filled up with zero bits (`Padded`). Reading a padded stream
back gives the original one (`Padded.read`), and a stream that reads back with
nothing left over is the padded one exactly when less than a digit was left
(`Grouped.padded_iff`).
-/
namespace GenVM.Lib.Regroup

/-! ## Digits -/

/-- The number that `w`-bit digits stand for, most significant first. -/
def value (w : Nat) (ds : List Nat) : Nat := Nat.ofDigits (2 ^ w) ds.reverse

@[simp] theorem value_nil (w : Nat) : value w [] = 0 := rfl

theorem value_append (w : Nat) (xs ys : List Nat) :
    value w (xs ++ ys) = value w xs * 2 ^ (w * ys.length) + value w ys := by
  unfold value
  rw [List.reverse_append, Nat.ofDigits_append, List.length_reverse, pow_mul]
  ring

theorem value_singleton (w d : Nat) : value w [d] = d := by
  unfold value
  rw [List.reverse_singleton, Nat.ofDigits_singleton]

theorem value_snoc (w : Nat) (xs : List Nat) (x : Nat) :
    value w (xs ++ [x]) = value w xs * 2 ^ w + x := by
  rw [value_append, value_singleton, List.length_singleton, mul_one]

theorem value_cons (w x : Nat) (xs : List Nat) :
    value w (x :: xs) = x * 2 ^ (w * xs.length) + value w xs := by
  rw [← List.singleton_append, value_append, value_singleton]

theorem value_inj {w : Nat} (hw : 0 < w) {xs ys : List Nat} (hlen : xs.length = ys.length)
    (hx : ∀ d ∈ xs, d < 2 ^ w) (hy : ∀ d ∈ ys, d < 2 ^ w) (h : value w xs = value w ys) :
    xs = ys := by
  apply List.reverse_injective
  apply Nat.ofDigits_inj_of_len_eq (Nat.one_lt_two_pow hw.ne')
  · rw [List.length_reverse, List.length_reverse, hlen]
  · exact fun d hd => hx d (List.mem_reverse.mp hd)
  · exact fun d hd => hy d (List.mem_reverse.mp hd)
  · exact h

/-! ## Taking digits off the accumulator -/

/-- `while bits >= w { bits -= w; push((acc >> bits) & (2^w - 1)) }`: what is
pushed, and the bits left. -/
def drain (w acc bits : Nat) : List Nat × Nat :=
  if 0 < w ∧ w ≤ bits then
    let r := drain w acc (bits - w)
    (((acc >>> (bits - w)) &&& (2 ^ w - 1)) :: r.1, r.2)
  else ([], bits)
termination_by bits

theorem drain_lt {w acc bits : Nat} (h : bits < w) : drain w acc bits = ([], bits) := by
  unfold drain
  rw [if_neg (by omega)]

theorem drain_once {w acc bits : Nat} (h1 : w ≤ bits) (h2 : bits < w + w) :
    drain w acc bits = ([(acc >>> (bits - w)) &&& (2 ^ w - 1)], bits - w) := by
  unfold drain
  rw [if_pos ⟨by omega, h1⟩, drain_lt (by omega)]

/-- The drained digits are the top of the accumulator's low `bits` bits. -/
structure Drained (w acc bits : Nat) (r : List Nat × Nat) : Prop where
  bits_lt : r.2 < w
  length : bits = w * r.1.length + r.2
  digits : ∀ d ∈ r.1, d < 2 ^ w
  num : acc % 2 ^ bits = value w r.1 * 2 ^ r.2 + acc % 2 ^ r.2

theorem top_digit (w acc bits : Nat) :
    acc % 2 ^ (bits + w) = ((acc >>> bits) &&& (2 ^ w - 1)) * 2 ^ bits + acc % 2 ^ bits := by
  rw [Nat.and_two_pow_sub_one_eq_mod, Nat.shiftRight_eq_div_pow, pow_add, Nat.mod_mul]
  ring

theorem drain_spec {w : Nat} (hw : 0 < w) (acc bits : Nat) :
    Drained w acc bits (drain w acc bits) := by
  induction bits using Nat.strong_induction_on with
  | _ bits ih =>
    by_cases h : w ≤ bits
    · have hr := ih (bits - w) (by omega)
      obtain ⟨rest, hbits⟩ : ∃ rest, bits = rest + w := ⟨bits - w, by omega⟩
      unfold drain
      rw [if_pos ⟨hw, h⟩]
      have hsub : bits - w = rest := by omega
      rw [hsub] at hr ⊢
      dsimp only
      refine ⟨hr.bits_lt, ?_, ?_, ?_⟩
      · rw [List.length_cons, mul_add, mul_one]
        have := hr.length
        omega
      · refine List.forall_mem_cons.mpr ⟨?_, hr.digits⟩
        rw [Nat.and_two_pow_sub_one_eq_mod]
        exact Nat.mod_lt _ (Nat.two_pow_pos w)
      · rw [hbits, top_digit, hr.num, value_cons]
        have hpow : 2 ^ rest = 2 ^ (w * (drain w acc rest).1.length) * 2 ^ (drain w acc rest).2 := by
          rw [← pow_add, ← hr.length]
        rw [hpow]
        ring
    · rw [drain_lt (by omega)]
      exact ⟨by dsimp only; omega, by simp, fun _ hd => absurd hd List.not_mem_nil, by simp⟩

/-! ## The loop -/

/-- `xs` read so far, `out` put out, the low `bits` bits of `acc` left over. -/
structure Grouped (a b : Nat) (xs out : List Nat) (acc bits : Nat) : Prop where
  bits_lt : bits < b
  length : a * xs.length = b * out.length + bits
  digits : ∀ d ∈ out, d < 2 ^ b
  num : value a xs = value b out * 2 ^ bits + acc % 2 ^ bits

theorem Grouped.start {a b : Nat} (hb : 0 < b) : Grouped a b [] [] 0 0 :=
  ⟨hb, rfl, fun _ hd => absurd hd List.not_mem_nil, rfl⟩

/-- Shifting a digit in, whatever stands above the bits in use. -/
theorem shift_mod {a bits acc x : Nat} (hx : x < 2 ^ a) :
    (acc <<< a ||| x) % 2 ^ (bits + a) = acc % 2 ^ bits * 2 ^ a + x := by
  have hmod : (acc * 2 ^ a + x) % 2 ^ a = x := by
    rw [Nat.mul_add_mod_self_right, Nat.mod_eq_of_lt hx]
  have hdiv : (acc * 2 ^ a + x) / 2 ^ a = acc := by
    rw [Nat.mul_comm, Nat.mul_add_div (Nat.two_pow_pos a), Nat.div_eq_of_lt hx, add_zero]
  rw [← Nat.shiftLeft_add_eq_or_of_lt hx, Nat.shiftLeft_eq, Nat.add_comm bits a, pow_add,
    Nat.mod_mul, hmod, hdiv]
  ring

/-- One digit in, whole digits out; the accumulator may be cut down to the bits
left. -/
theorem Grouped.step {a b : Nat} {xs out ds : List Nat} {acc bits x acc' bits' : Nat}
    (h : Grouped a b xs out acc bits) (hx : x < 2 ^ a)
    (hd : Drained b (acc <<< a ||| x) (bits + a) (ds, bits'))
    (hacc : acc' % 2 ^ bits' = (acc <<< a ||| x) % 2 ^ bits') :
    Grouped a b (xs ++ [x]) (out ++ ds) acc' bits' := by
  have hlen : bits + a = b * ds.length + bits' := hd.length
  refine ⟨hd.bits_lt, ?_, fun d hmem => ?_, ?_⟩
  · rw [List.length_append, List.length_append, List.length_singleton, mul_add, mul_add, mul_one,
      h.length]
    omega
  · rcases List.mem_append.mp hmem with hmem | hmem
    · exact h.digits d hmem
    · exact hd.digits d hmem
  · have hval : acc % 2 ^ bits * 2 ^ a + x =
        value b ds * 2 ^ bits' + (acc <<< a ||| x) % 2 ^ bits' := by
      rw [← shift_mod hx]
      exact hd.num
    have hpow : 2 ^ bits * 2 ^ a = 2 ^ (b * ds.length) * 2 ^ bits' := by
      rw [← pow_add, ← pow_add, hlen]
    calc value a (xs ++ [x]) = value b out * (2 ^ bits * 2 ^ a) + (acc % 2 ^ bits * 2 ^ a + x) := by
          rw [value_snoc, h.num]
          ring
      _ = value b (out ++ ds) * 2 ^ bits' + acc' % 2 ^ bits' := by
          rw [hpow, hval, hacc, value_append]
          ring

/-- What the loop puts out, and how many bits it leaves, only depends on what it
read. -/
theorem Grouped.unique {a b : Nat} {xs out out' : List Nat} {acc acc' bits bits' : Nat}
    (h : Grouped a b xs out acc bits) (h' : Grouped a b xs out' acc' bits') :
    out = out' ∧ bits = bits' ∧ acc % 2 ^ bits = acc' % 2 ^ bits := by
  have hb : 0 < b := Nat.zero_lt_of_lt h.bits_lt
  have hmod : ∀ {n k m : Nat}, m = b * n + k → k < b → k = m % b ∧ n = m / b := by
    intro n k m hm hk
    subst hm
    exact ⟨by rw [Nat.mul_add_mod, Nat.mod_eq_of_lt hk],
      by rw [Nat.mul_add_div hb, Nat.div_eq_of_lt hk, add_zero]⟩
  obtain ⟨hbits, hlen⟩ := hmod h.length h.bits_lt
  obtain ⟨hbits', hlen'⟩ := hmod h'.length h'.bits_lt
  obtain rfl : bits = bits' := hbits.trans hbits'.symm
  have hlt := Nat.mod_lt acc (Nat.two_pow_pos bits)
  have hlt' := Nat.mod_lt acc' (Nat.two_pow_pos bits)
  have hval := h.num.symm.trans h'.num
  have hpos := Nat.two_pow_pos bits
  have hacc : acc % 2 ^ bits = acc' % 2 ^ bits := by
    have hm := congrArg (· % 2 ^ bits) hval
    rwa [Nat.mul_add_mod_self_right, Nat.mul_add_mod_self_right, Nat.mod_eq_of_lt hlt,
      Nat.mod_eq_of_lt hlt'] at hm
  refine ⟨?_, rfl, hacc⟩
  apply value_inj hb (hlen.trans hlen'.symm) h.digits h'.digits
  rw [hacc] at hval
  exact Nat.eq_of_mul_eq_mul_right hpos (Nat.add_right_cancel hval)

/-! ## Padding -/

/-- `ds` is `xs` with `pad` zero bits after it, less than one digit. -/
structure Padded (a b : Nat) (xs ds : List Nat) (pad : Nat) : Prop where
  pad_lt : pad < b
  length : b * ds.length = a * xs.length + pad
  digits : ∀ d ∈ ds, d < 2 ^ b
  num : value b ds = value a xs * 2 ^ pad

/-- The bits left over, filled up to one more digit. -/
def flush (b acc bits : Nat) : List Nat :=
  if 0 < bits then [(acc <<< (b - bits)) &&& (2 ^ b - 1)] else []

theorem Grouped.padded {a b : Nat} {xs out : List Nat} {acc bits : Nat}
    (h : Grouped a b xs out acc bits) : ∃ pad, Padded a b xs (out ++ flush b acc bits) pad := by
  unfold flush
  by_cases h0 : 0 < bits
  · rw [if_pos h0]
    have hlt := h.bits_lt
    have hdigit : (acc <<< (b - bits)) &&& (2 ^ b - 1) = acc % 2 ^ bits * 2 ^ (b - bits) := by
      have hb : b = bits + (b - bits) := by omega
      rw [Nat.and_two_pow_sub_one_eq_mod, Nat.shiftLeft_eq]
      conv_lhs => rw [hb, pow_add]
      rw [show bits + (b - bits) - bits = b - bits by omega, Nat.mul_mod_mul_right]
    refine ⟨b - bits, by omega, ?_, fun d hd => ?_, ?_⟩
    · rw [List.length_append, List.length_singleton, mul_add, mul_one, h.length]
      omega
    · rcases List.mem_append.mp hd with hd | hd
      · exact h.digits d hd
      · rw [List.mem_singleton.mp hd, Nat.and_two_pow_sub_one_eq_mod]
        exact Nat.mod_lt _ (Nat.two_pow_pos b)
    · have hpow : 2 ^ b = 2 ^ bits * 2 ^ (b - bits) := by
        rw [← pow_add]
        congr 1
        omega
      rw [value_snoc, hdigit, h.num, hpow]
      ring
  · obtain rfl : bits = 0 := by omega
    rw [if_neg h0, List.append_nil]
    refine ⟨0, h.bits_lt, h.length.symm, h.digits, ?_⟩
    have hv := h.num
    rw [pow_zero, Nat.mod_one, add_zero, mul_one] at hv
    rw [pow_zero, mul_one]
    exact hv.symm

theorem Padded.unique {a b : Nat} {xs ds ds' : List Nat} {pad pad' : Nat}
    (h : Padded a b xs ds pad) (h' : Padded a b xs ds' pad') : ds = ds' := by
  have hb : 0 < b := Nat.zero_lt_of_lt h.pad_lt
  have hlen : ds.length = ds'.length := by
    have h1 := h.length
    have h2 := h'.length
    have hp := h.pad_lt
    have hp' := h'.pad_lt
    rcases Nat.lt_trichotomy ds.length ds'.length with hlt | heq | hlt
    · have := Nat.mul_le_mul_left b hlt
      rw [Nat.mul_succ] at this
      omega
    · exact heq
    · have := Nat.mul_le_mul_left b hlt
      rw [Nat.mul_succ] at this
      omega
  have hpad : pad = pad' := by
    have h1 := h.length
    have h2 := h'.length
    rw [hlen] at h1
    omega
  apply value_inj hb hlen h.digits h'.digits
  rw [h.num, h'.num, hpad]

/-- A padded stream reads back as the original one, with zeros left over. -/
theorem Padded.read {a b : Nat} {xs ds : List Nat} {pad : Nat} (h : Padded a b xs ds pad)
    (hpad : pad < a) (hx : ∀ d ∈ xs, d < 2 ^ a) : Grouped b a ds xs 0 pad :=
  ⟨hpad, h.length, hx, by rw [Nat.zero_mod, add_zero]; exact h.num⟩

/-- A stream with only zeros left over is the padded one exactly when they are
less than a digit. -/
theorem Grouped.padded_iff {a b : Nat} {ds xs : List Nat} {acc bits : Nat}
    (h : Grouped b a ds xs acc bits) (hzero : acc % 2 ^ bits = 0) (hd : ∀ d ∈ ds, d < 2 ^ b) :
    (∃ pad, Padded a b xs ds pad) ↔ bits < b := by
  constructor
  · intro ⟨pad, hp⟩
    have h1 := hp.length
    have h2 := h.length
    have h3 := hp.pad_lt
    omega
  · intro hlt
    refine ⟨bits, hlt, h.length, hd, ?_⟩
    rw [h.num, hzero, add_zero]

end GenVM.Lib.Regroup
