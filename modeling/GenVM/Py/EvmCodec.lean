import GenVM.Py.EvmProbe

/-!
# The Solidity ABI codec of the Python library against the specification

Results:
* `decode_follow`: what the standard reader accepts, the Python decoder reads as
  the same value.
* `encode_call_eq`: a call with enough fuel writes the selector and the rounds of
  its arguments.
* `encode_call_standard`: the arguments of a call come out as the specification
  says, and back as they were, exactly when they are aligned.
-/
namespace GenVM.Py.Evm
open GenVM.Abi GenVM.Rounds

/-! ## Reading -/

section Reading
variable {mem : Bytes}

theorem slice_some {m b : Bytes} {pos n : Nat} (h : slice m pos n = some b) :
    (m.drop pos).take n = b ∧ b.length = n := by
  unfold slice at h
  split at h
  · next hlen =>
    rw [Option.some.injEq] at h
    exact ⟨h, h ▸ hlen⟩
  · exact absurd h (by simp)

theorem wordAt_some {m : Bytes} {pos n : Nat} (h : wordAt m pos = some n) :
    ∃ b, (m.drop pos).take 32 = b ∧ b.length = 32 ∧ ofBytes b = n := by
  obtain ⟨b, hb, hn⟩ := Option.map_eq_some_iff.mp h
  obtain ⟨htake, hlen⟩ := slice_some hb
  exact ⟨b, htake, hlen, hn⟩

theorem check_some {α : Type} {p : α → Prop} [DecidablePred p] {a : α} {v : {a // p a}}
    (h : check a = some v) : v.val = a := by
  unfold check at h
  split at h
  · rw [Option.some.injEq] at h
    rw [← h]
  · exact absurd h (by simp)

/-- A slice behind the base of the heads is a slice of the memory. -/
theorem fetch_eq {off0 pos n : Nat} {b : Bytes} (h : ((mem.drop off0).drop pos).take n = b) :
    DecoderState.fetch_head ⟨mem, off0 + pos, off0⟩ n = (b, ⟨mem, off0 + pos + n, off0⟩) := by
  unfold DecoderState.fetch_head
  rw [← h, List.drop_drop]

theorem signed_eq {b : Bytes} (h : b.length = 32) : from_bytes_signed b = signed (ofBytes b) := by
  unfold from_bytes_signed signed
  rw [h]
  have hpow : (256 : Nat) ^ 32 = 2 * 2 ^ 255 := by norm_num
  have hcast : (256 : Int) ^ 32 = 2 ^ 256 := by norm_num
  rw [hpow, hcast]
  by_cases hlt : ofBytes b < 2 ^ 255
  · rw [if_pos hlt, if_pos (by omega)]
  · rw [if_neg hlt, if_neg (by omega)]

theorem zeros_of_ofBytes {b : Bytes} (h : ofBytes b = 0) : b = List.replicate b.length 0 := by
  have hfold : ∀ (b : Bytes) (n : Nat), b.foldl (fun n x => n * 256 + x.toNat) n = 0 →
      n = 0 ∧ b = List.replicate b.length 0 := by
    intro b
    induction b with
    | nil => exact fun n hn => ⟨hn, rfl⟩
    | cons x b ih =>
      intro n hn
      obtain ⟨hx, hb⟩ := ih _ hn
      have hx : n * 256 + x.toNat = 0 := hx
      have hzero : x = 0 := UInt8.toNat_inj.mp (by simp only [UInt8.toNat_zero]; omega)
      refine ⟨by omega, ?_⟩
      rw [List.length_cons, List.replicate_succ, ← hb, hzero]
  exact (hfold b 0 h).2

/-- A reader of a type from inside, where the specification's reader has it. -/
def Inner (mem : Bytes) (t : Ty) (read : DecoderState → Option (PyVal × DecoderState)) : Prop :=
  ∀ off0 pos v, (t.dynamic = true → pos = 0) → Abi.decode t (mem.drop off0) pos = some v →
    ∃ s, read ⟨mem, off0 + pos, off0⟩ = some (toPy t v, s) ∧
      (t.dynamic = false → s = ⟨mem, off0 + pos + t.inlineSize, off0⟩)

/-- A reader of a component at its head. -/
def Outer (mem : Bytes) (t : Ty) (read : DecoderState → Option (PyVal × DecoderState)) : Prop :=
  ∀ off0 pos v, follow t.dynamic (Abi.decode t) (mem.drop off0) pos = some v →
    read ⟨mem, off0 + pos, off0⟩ = some (toPy t v, ⟨mem, off0 + pos + t.headSize, off0⟩)

theorem outer_of_inner {t : Ty} {read : DecoderState → Option (PyVal × DecoderState)}
    (h : Inner mem t read) : Outer mem t fun s => behind t.dynamic s read := by
  intro off0 pos v hv
  unfold follow at hv
  unfold behind
  dsimp only
  cases hd : t.dynamic with
  | true =>
    rw [hd, if_pos rfl] at hv
    obtain ⟨off, hoff, hbody⟩ := Option.bind_eq_some_iff.mp hv
    obtain ⟨b, hb, -, hn⟩ := wordAt_some hoff
    rw [List.drop_drop] at hbody
    obtain ⟨s, hs, -⟩ := h (off0 + off) 0 v (fun _ => rfl) hbody
    have hfetch := fetch_eq hb
    rw [if_pos rfl]
    unfold DecoderState.indirected
    rw [hfetch]
    dsimp only
    rw [hn]
    rw [Nat.add_zero] at hs
    rw [hs, Option.map_some]
    unfold Ty.headSize
    rw [hd, if_pos rfl]
  | false =>
    rw [hd, if_neg (by simp)] at hv
    obtain ⟨s, hs, hst⟩ := h off0 pos v (fun h => absurd h (by simp [hd])) hv
    rw [if_neg (by simp), hs, hst hd]
    unfold Ty.headSize
    rw [hd, if_neg (by simp)]

theorem decodeN_eq {t : Ty} {read : DecoderState → Option (PyVal × DecoderState)}
    (h : Outer mem t read) {off0 : Nat} : ∀ (n pos : Nat) {vs : List t.Val},
    readN t.headSize (follow t.dynamic (Abi.decode t)) n (mem.drop off0) pos = some vs →
    decodeN read n ⟨mem, off0 + pos, off0⟩ =
      some (vs.map (toPy t), ⟨mem, off0 + pos + n * t.headSize, off0⟩)
  | 0, pos, vs, hvs => by
    rw [readN, Option.some.injEq] at hvs
    rw [← hvs]
    simp [decodeN]
  | n + 1, pos, vs, hvs => by
    rw [readN] at hvs
    obtain ⟨v, hv, hrest⟩ := Option.bind_eq_some_iff.mp hvs
    obtain ⟨us, hus, rfl⟩ := Option.map_eq_some_iff.mp hrest
    have ih := decodeN_eq h n (pos + t.headSize) hus
    have hv2 := h off0 pos v hv
    rw [← Nat.add_assoc] at ih
    unfold decodeN
    rw [hv2]
    simp only [Option.bind_eq_bind, Option.bind_some]
    rw [ih]
    simp only [Option.bind_some, List.map_cons, Option.some.injEq, Prod.mk.injEq, true_and]
    congr 1
    ring

theorem fetch_word {off0 pos n : Nat} (h : wordAt (mem.drop off0) pos = some n) :
    ∃ b, DecoderState.fetch_head ⟨mem, off0 + pos, off0⟩ 32 = (b, ⟨mem, off0 + pos + 32, off0⟩) ∧
      b.length = 32 ∧ ofBytes b = n := by
  obtain ⟨b, hb, hlen, hn⟩ := wordAt_some h
  exact ⟨b, fetch_eq hb, hlen, hn⟩

theorem fetch_slice {off0 pos n : Nat} {b : Bytes} (h : slice (mem.drop off0) pos n = some b) :
    DecoderState.fetch_head ⟨mem, off0 + pos, off0⟩ n = (b, ⟨mem, off0 + pos + n, off0⟩) :=
  fetch_eq (slice_some h).1

/-- The length and the data of `bytes` and `string`. -/
theorem fetch_bytes {off0 pos : Nat} {b : Bytes} (h : readBytes (mem.drop off0) pos = some b) :
    ∃ le, DecoderState.fetch_head ⟨mem, off0 + pos, off0⟩ 32 = (le, ⟨mem, off0 + pos + 32, off0⟩) ∧
      DecoderState.fetch_head ⟨mem, off0 + pos + 32, off0⟩ (ofBytes le) =
        (b, ⟨mem, off0 + pos + 32 + ofBytes le, off0⟩) := by
  obtain ⟨n, hn, hrest⟩ := Option.bind_eq_some_iff.mp h
  obtain ⟨c, hc, hpad⟩ := Option.bind_eq_some_iff.mp hrest
  obtain ⟨le, hle, -, rfl⟩ := fetch_word hn
  split at hpad
  · rw [Option.some.injEq] at hpad
    subst hpad
    exact ⟨le, hle, fetch_slice hc⟩
  · exact absurd hpad (by simp)

theorem inner_uint (w : Fin 32) : Inner mem (.uint w) (decode (.uint w)) := by
  intro off0 pos v _ hv
  obtain ⟨n, hn, hcheck⟩ := Option.bind_eq_some_iff.mp hv
  obtain ⟨b, hfetch, -, rfl⟩ := fetch_word hn
  have hval := check_some hcheck
  refine ⟨_, ?_, fun _ => rfl⟩
  unfold decode toPy
  rw [hfetch, hval]
  rfl

theorem inner_int (w : Fin 32) : Inner mem (.int w) (decode (.int w)) := by
  intro off0 pos v _ hv
  obtain ⟨n, hn, hcheck⟩ := Option.bind_eq_some_iff.mp hv
  obtain ⟨b, hfetch, hlen, rfl⟩ := fetch_word hn
  have hval := check_some hcheck
  refine ⟨_, ?_, fun _ => rfl⟩
  unfold decode toPy
  rw [hfetch, hval]
  dsimp only
  rw [signed_eq hlen]
  rfl

theorem inner_bool : Inner mem .bool (decode .bool) := by
  intro off0 pos v _ hv
  obtain ⟨n, hn, hbit⟩ := Option.bind_eq_some_iff.mp hv
  obtain ⟨b, hfetch, hlen, rfl⟩ := fetch_word hn
  refine ⟨_, ?_, fun _ => rfl⟩
  unfold decode toPy
  rw [hfetch]
  dsimp only
  split at hbit
  · next h0 =>
    have hzero := zeros_of_ofBytes h0
    rw [hlen] at hzero
    have hval : false = v := Option.some.inj hbit
    rw [← hval, hzero]
    rfl
  · split at hbit
    · next h1 =>
      have hval : true = v := Option.some.inj hbit
      have hne : b ≠ List.replicate 32 0 := by
        intro hb
        rw [hb] at h1
        exact absurd h1 (by decide)
      rw [← hval, decide_eq_true hne]
      rfl
    · exact absurd hbit (by simp)

theorem inner_address : Inner mem .address (decode .address) := by
  intro off0 pos v _ hv
  change (if _ then _ else _) = some v at hv
  split at hv
  · next hpad =>
    obtain ⟨b, hb, hcheck⟩ := Option.bind_eq_some_iff.mp hv
    have hval := check_some hcheck
    have hlen := (slice_some hb).2
    refine ⟨_, ?_, fun _ => rfl⟩
    unfold decode toPy
    rw [fetch_slice hpad]
    dsimp only
    rw [Nat.add_assoc off0 pos 12, fetch_slice hb]
    dsimp only
    rw [if_pos hlen, hval]
    rfl
  · exact absurd hv (by simp)

theorem inner_fixedBytes (w : Fin 32) : Inner mem (.fixedBytes w) (decode (.fixedBytes w)) := by
  intro off0 pos v _ hv
  change (if _ then _ else _) = some v at hv
  split at hv
  · next hpad =>
    obtain ⟨b, hb, hcheck⟩ := Option.bind_eq_some_iff.mp hv
    have hval := check_some hcheck
    refine ⟨_, ?_, fun _ => rfl⟩
    unfold decode toPy
    rw [fetch_slice hb]
    dsimp only
    rw [Nat.add_assoc off0 pos, fetch_slice hpad, hval]
    dsimp only
    congr 3
    simp only [Ty.inlineSize]
    omega
  · exact absurd hv (by simp)

theorem inner_bytes : Inner mem .bytes fun s =>
    some (.bytes ((s.fetch_head 32).2.fetch_head (ofBytes (s.fetch_head 32).1)).1,
      ((s.fetch_head 32).2.fetch_head (ofBytes (s.fetch_head 32).1)).2) := by
  intro off0 pos v _ hv
  obtain ⟨le, hle, hb⟩ := fetch_bytes hv
  refine ⟨⟨mem, off0 + pos + 32 + ofBytes le, off0⟩, ?_, fun h => absurd h (by decide)⟩
  dsimp only
  rw [hle]
  dsimp only
  rw [hb]
  rfl

theorem inner_string : Inner mem .string fun s =>
    (String.fromUTF8? ⟨⟨((s.fetch_head 32).2.fetch_head (ofBytes (s.fetch_head 32).1)).1⟩⟩).map
      fun x => (.str x, ((s.fetch_head 32).2.fetch_head (ofBytes (s.fetch_head 32).1)).2) := by
  intro off0 pos v _ hv
  obtain ⟨b, hbytes, hstr⟩ := Option.bind_eq_some_iff.mp hv
  obtain ⟨le, hle, hb⟩ := fetch_bytes hbytes
  refine ⟨⟨mem, off0 + pos + 32 + ofBytes le, off0⟩, ?_, fun h => absurd h (by decide)⟩
  dsimp only
  rw [hle]
  dsimp only
  rw [hb]
  exact congrArg (Option.map _) hstr

theorem inner_array {t : Ty} (h : Outer mem t (decode t)) : Inner mem (.array t) fun s =>
    (decodeN (decode t) (ofBytes (s.fetch_head 32).1)
      { (s.fetch_head 32).2 with current_off_0 := (s.fetch_head 32).2.current_off_0 + 32 }).map
      fun p => (.seq p.1, p.2) := by
  intro off0 pos v hpos hv
  have h0 : pos = 0 := hpos rfl
  subst h0
  obtain ⟨n, hn, hrest⟩ := Option.bind_eq_some_iff.mp hv
  obtain ⟨vs, hvs, hcheck⟩ := Option.bind_eq_some_iff.mp hrest
  obtain ⟨le, hle, -, rfl⟩ := fetch_word hn
  have hval := check_some hcheck
  rw [List.drop_drop, Nat.zero_add] at hvs
  have hread := decodeN_eq h (ofBytes le) 0 hvs
  refine ⟨⟨mem, off0 + 32 + 0 + ofBytes le * t.headSize, off0 + 32⟩, ?_,
    fun h => absurd h (by simp [Ty.dynamic])⟩
  dsimp only
  rw [hle]
  refine (congrArg (Option.map _) hread).trans ?_
  rw [Option.map_some, ← hval]
  rfl

theorem inner_fixed {t : Ty} {size : Nat} (h : Outer mem t (decode t)) :
    Inner mem (.fixed size t) fun s => (decodeN (decode t) size s).map fun p => (.seq p.1, p.2) := by
  intro off0 pos v _ hv
  obtain ⟨vs, hvs, hcheck⟩ := Option.bind_eq_some_iff.mp hv
  have hval := check_some hcheck
  have hread := decodeN_eq h size pos hvs
  refine ⟨⟨mem, off0 + pos + size * t.headSize, off0⟩, ?_, fun _ => rfl⟩
  dsimp only
  rw [hread, Option.map_some, ← hval]
  rfl

mutual
/-- What the standard reader accepts, Python reads as the same value. -/
theorem decode_follow : ∀ t : Ty, Outer mem t (decode t)
  | .uint w => outer_of_inner (inner_uint w)
  | .int w => outer_of_inner (inner_int w)
  | .bool => outer_of_inner inner_bool
  | .address => outer_of_inner inner_address
  | .fixedBytes w => outer_of_inner (inner_fixedBytes w)
  | .bytes => outer_of_inner inner_bytes
  | .string => outer_of_inner inner_string
  | .array t => outer_of_inner (inner_array (decode_follow t))
  | .fixed size t => outer_of_inner (inner_fixed (decode_follow t))
  | .tuple ts => by
    apply outer_of_inner (t := .tuple ts)
    intro off0 pos v _ hv
    have hread := decodeAll_follow ts off0 pos v hv
    refine ⟨⟨mem, off0 + pos + Ty.headSizes ts, off0⟩, ?_, fun _ => rfl⟩
    exact congrArg (Option.map fun p => (PyVal.seq p.1, p.2)) hread
theorem decodeAll_follow : ∀ (ts : List Ty) (off0 pos : Nat) (vs : Ty.Vals ts),
    decodes ts (mem.drop off0) pos = some vs →
    decodeAll ts ⟨mem, off0 + pos, off0⟩ =
      some (toPyAll ts vs, ⟨mem, off0 + pos + Ty.headSizes ts, off0⟩)
  | [], off0, pos, vs, _ => rfl
  | t :: ts, off0, pos, vs, h => by
    obtain ⟨v, hv, hrest⟩ := Option.bind_eq_some_iff.mp h
    obtain ⟨us, hus, hpair⟩ := Option.map_eq_some_iff.mp hrest
    have h1 := decode_follow t off0 pos v hv
    have h2 := decodeAll_follow ts off0 (pos + t.headSize) us hus
    rw [← Nat.add_assoc] at h2
    unfold decodeAll
    rw [h1]
    simp only [Option.bind_eq_bind, Option.bind_some]
    rw [h2, ← hpair]
    have hsize : Ty.headSizes (t :: ts) = t.headSize + Ty.headSizes ts := rfl
    rw [hsize, ← Nat.add_assoc]
    rfl
end

end Reading

/-! ## Calls -/

/-- A call writes the selector and the rounds of its arguments. -/
theorem encode_call_eq (selector : Bytes) (hsel : selector.length = 4) (params : List Ty)
    (args : Ty.Vals params)
    (hlen : 4 + (queue (depths params) ((components params args).map item)).length < 2 ^ 256)
    {fuel : Nat} (hfuel : costs params + depths params + 3 ≤ fuel) :
    encode_call fuel selector params args =
      some (selector ++ queue (depths params) ((components params args).map item)) := by
  have hrun := queue_runs (fun a ha => depth_component ha) (bodies_run params args)
    (by rw [hsel]; exact hlen) (by omega : costs params + 3 ≤ fuel) (by omega)
  rw [hsel] at hrun
  exact congrArg (Option.map EncodeState.result) hrun

theorem length_args (params : List Ty) (args : Ty.Vals params) :
    (queue (depths params) ((components params args).map item)).length =
      (layout (parts params args)).length := by
  rw [parts_eq]
  exact length_queue (fun a ha => depth_component ha) (length_components params args)

/-- Whatever the selector and the arguments, when offsets fit their words: the call returns the
selector with the standard encoding of the argument tuple, and the same codec reads the arguments
back from it. -/
def Standard (params : List Ty) : Prop :=
  ∀ (selector : Bytes) (args : Ty.Vals params), selector.length = 4 →
    4 + (layout (parts params args)).length < 2 ^ 256 →
    ∃ n out, (∀ fuel, n ≤ fuel → encode_call fuel selector params args = some (selector ++ out)) ∧
      out = layout (parts params args) ∧ decode_args params out = some (toPyAll params args)

theorem decode_args_eq (params : List Ty) (args : Ty.Vals params)
    (hlen : (layout (parts params args)).length < 2 ^ 256) :
    decode_args params (layout (parts params args)) = some (toPyAll params args) := by
  have hself := decode_self (.tuple params) args hlen
  have hread := @decodeAll_follow (layout (parts params args)) params 0 0 args hself
  unfold decode_args
  rw [hread]
  rfl

/-- The codec follows the specification on aligned arguments, and on no others of a size that a
call can have. -/
theorem encode_call_standard (params : List Ty) :
    (AlignedArgs params → Standard params) ∧
      (4 + fulls params < 2 ^ 256 → Standard params → AlignedArgs params) := by
  constructor
  · intro h selector args hsel hlen
    have heq := args_eq params args h
    refine ⟨costs params + depths params + 3, _, fun fuel hfuel => ?_, rfl,
      decode_args_eq params args (by omega)⟩
    rw [← heq]
    exact encode_call_eq selector hsel params args (by rw [heq]; exact hlen) hfuel
  · intro hfull hstd
    by_contra h
    obtain ⟨args, hsmall, hne⟩ := args_misplaced (by omega : fulls params < 2 ^ 256) h
    obtain ⟨n, out, hrun, hout, -⟩ := hstd [0, 0, 0, 0] args rfl (by omega)
    have hlen := length_args params args
    have hcall := encode_call_eq [0, 0, 0, 0] rfl params args (by omega)
      (Nat.le_max_right n (costs params + depths params + 3))
    rw [hrun _ (Nat.le_max_left _ _), Option.some.injEq] at hcall
    exact hne ((List.append_cancel_left hcall).symm.trans hout)

/-- A string and a number are aligned; a pair of numbers next to a third is not. -/
theorem encode_call_standard_two :
    Standard [.string, .uint 31] ∧ ¬ Standard [.uint 31, .tuple [.uint 31, .uint 31], .uint 31] := by
  constructor
  · apply (encode_call_standard _).1
    refine ⟨fun _ => ⟨fun _ => trivial, fun h => absurd h (by decide), fun h => absurd h (by decide),
      fun _ r hr => List.mem_singleton.mp hr, trivial⟩, fun h => absurd h (by decide)⟩
  · intro h
    have hal := (encode_call_standard _).2 (by decide) h
    exact absurd (hal.2 rfl) (by decide)

/-- `((uint256, uint256), uint256)` with `((1, 2), 3)`: the third number comes first. -/
theorem static_tuple_comes_late :
    ∃ args : Ty.Vals [.tuple [.uint 31, .uint 31], .uint 31],
      encode_call 4 [0, 0, 0, 0] _ args = some ([0, 0, 0, 0] ++ word 3 ++ word 1 ++ word 2) ∧
      layout (parts _ args) = word 1 ++ word 2 ++ word 3 ∧
      ¬ Standard [.tuple [.uint 31, .uint 31], .uint 31] := by
  let args : Ty.Vals [.tuple [.uint 31, .uint 31], .uint 31] :=
    ((⟨1, by decide⟩, ⟨2, by decide⟩, ()), ⟨3, by decide⟩, ())
  have hlayout : layout (parts _ args) = word 1 ++ word 2 ++ word 3 := rfl
  have hqueue : queue (depths [.tuple [.uint 31, .uint 31], .uint 31])
      ((components _ args).map item) = word 3 ++ word 1 ++ word 2 := rfl
  refine ⟨args, rfl, hlayout, fun h => ?_⟩
  obtain ⟨n, out, hrun, hout, -⟩ := h [0, 0, 0, 0] args rfl (by rw [hlayout]; decide)
  have hcall := encode_call_eq [0, 0, 0, 0] rfl _ args (by rw [hqueue]; decide)
    (Nat.le_max_right n _)
  rw [hrun _ (Nat.le_max_left _ _), Option.some.injEq] at hcall
  have hbad := (List.append_cancel_left hcall).symm.trans hout
  rw [hqueue, hlayout] at hbad
  exact absurd hbad (by decide)

end GenVM.Py.Evm
