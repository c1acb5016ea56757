import GenVM.Lib.Rounds
import GenVM.Py.Evm

/-!
# What the tails of the Python encoder write

The components whose encoders wait in the `tails` of one state are a queue. Its
first round writes the words of the components and a placeholder for each dynamic
one; the second fills the placeholders and writes the dynamic bodies; a static
tuple only leaves its components for the next round, so its words come a round
later. `queue` says what all the rounds leave.

Results:
* `body_runs`: a dynamic component writes its `body`, with enough fuel.
* `queue_runs`: `run_tails` on a queue of components leaves `queue`.
-/
namespace GenVM.Py.Evm
open GenVM.Abi GenVM.Rounds

/-! ## Components -/

/-- A component of a queue: the words it writes itself, with their rounds, or the body that its
placeholder points to. -/
inductive Item where
  | inline (words : List (Nat × Bytes))
  | behind (body : Bytes)

namespace Item

/-- The first round, where the placeholder is still blank. -/
def first : Item → Bytes
  | inline ws => now ws
  | behind _ => List.replicate 32 0

def second : Item → Bytes
  | inline ws => now (later ws)
  | behind b => b

def others : Item → List (Nat × Bytes)
  | inline ws => later (later ws)
  | behind _ => []

end Item

/-- The first round with the placeholders filled: the offset of a body is where the second round
has come to. -/
def filled : Nat → List Item → Bytes
  | _, [] => []
  | off, .inline ws :: is => now ws ++ filled (off + (now (later ws)).length) is
  | off, .behind b :: is => word off ++ filled (off + b.length) is

def queue (d : Nat) (is : List Item) : Bytes :=
  filled (is.flatMap Item.first).length is ++ is.flatMap Item.second ++
    spread d (is.flatMap Item.others)

mutual
/-- How many rounds after the first a static type writes. -/
def depth : Ty → Nat
  | .fixed _ t => depth t
  | .tuple ts => depths ts + 1
  | _ => 0
def depths : List Ty → Nat
  | [] => 0
  | t :: ts => max (depth t) (depths ts)
end

mutual
/-- The words of a static value in the order of the specification, with the rounds in which the
encoder writes them. -/
def words : (t : Ty) → t.Val → List (Nat × Bytes)
  | .fixed _ t, vs => vs.val.flatMap (words t)
  | .tuple ts, vs => (wordsAll ts vs).map fun p => (p.1 + 1, p.2)
  | .uint w, n => [(0, enc (.uint w) n)]
  | .int w, i => [(0, enc (.int w) i)]
  | .bool, b => [(0, enc .bool b)]
  | .address, b => [(0, enc .address b)]
  | .fixedBytes w, b => [(0, enc (.fixedBytes w) b)]
  | _, _ => []
def wordsAll : (ts : List Ty) → Ty.Vals ts → List (Nat × Bytes)
  | [], _ => []
  | t :: ts, vs => words t vs.1 ++ wordsAll ts vs.2
end

mutual
/-- What a dynamic value writes behind its offset. -/
def body : (t : Ty) → t.Val → Bytes
  | .bytes, b => encBytes b
  | .string, x => encBytes (String.toUTF8 x).data.toList
  | .array t, vs => word vs.val.length ++ queue (depth t) (vs.val.map fun v =>
    if t.dynamic then Item.behind (body t v) else Item.inline (words t v))
  | .fixed _ t, vs => queue (depth t) (vs.val.map fun v =>
    if t.dynamic then Item.behind (body t v) else Item.inline (words t v))
  | .tuple ts, vs => queue (depths ts) (items ts vs)
  | _, _ => []
def items : (ts : List Ty) → Ty.Vals ts → List Item
  | [], _ => []
  | t :: ts, vs => (if t.dynamic then Item.behind (body t vs.1) else Item.inline (words t vs.1)) ::
    items ts vs.2
end

def item (a : Arg) : Item :=
  if a.1.dynamic then .behind (body a.1 a.2) else .inline (words a.1 a.2)

theorem items_eq (ts : List Ty) : ∀ vs : Ty.Vals ts, items ts vs = (components ts vs).map item := by
  induction ts with
  | nil => exact fun _ => rfl
  | cons t ts ih =>
    intro vs
    unfold items components
    rw [ih vs.2]
    rfl

theorem depth_component : ∀ {ts : List Ty} {vs : Ty.Vals ts} {a : Arg}, a ∈ components ts vs →
    depth a.1 ≤ depths ts
  | t :: ts, vs, a, h => by
    unfold components at h
    unfold depths
    rcases List.mem_cons.mp h with rfl | h
    · exact Nat.le_max_left _ _
    · exact (depth_component h).trans (Nat.le_max_right _ _)

theorem static_component : ∀ {ts : List Ty} {vs : Ty.Vals ts} {a : Arg}, a ∈ components ts vs →
    Ty.anyDynamic ts = false → a.1.dynamic = false
  | t :: ts, vs, a, h, hs => by
    unfold components at h
    obtain ⟨h1, h2⟩ := Bool.or_eq_false_iff.mp hs
    rcases List.mem_cons.mp h with rfl | h
    · exact h1
    · exact static_component h h2

theorem wordsAll_eq (ts : List Ty) : ∀ vs : Ty.Vals ts,
    wordsAll ts vs = (components ts vs).flatMap fun a => words a.1 a.2 := by
  induction ts with
  | nil => exact fun _ => rfl
  | cons t ts ih =>
    intro vs
    unfold wordsAll components
    rw [ih vs.2, List.flatMap_cons]

/-! ## One encoder -/

/-- What a static value leaves for the next round. -/
def nexts : (t : Ty) → t.Val → List Arg
  | .fixed _ t, vs => vs.val.flatMap (nexts t)
  | .tuple ts, vs => components ts vs
  | _, _ => []

/-- What a dynamic value leaves after its placeholder. -/
def thunk : Arg → Delayed
  | ⟨.bytes, b⟩ => .put_bytes b
  | ⟨.string, x⟩ => .put_bytes (String.toUTF8 x).data.toList
  | a => .encode_now a

theorem encode_dynamic {t : Ty} (v : t.Val) (s : EncodeState) (h : t.dynamic = true) :
    encode t v s = s.put_iloc.delay [thunk ⟨t, v⟩] := by
  cases t with
  | fixed size t => exact if_pos h
  | tuple ts => exact if_pos h
  | bytes => rfl
  | string => rfl
  | array t => rfl
  | _ => exact absurd h (by simp [Ty.dynamic])

theorem extend_nil (s : EncodeState) : s.extend [] = s := by simp [EncodeState.extend]

theorem delay_nil (s : EncodeState) : s.delay [] = s := by simp [EncodeState.delay]

theorem extend_delay (s : EncodeState) (b c : Bytes) (d e : List Delayed) :
    (((s.extend b).delay d).extend c).delay e = (s.extend (b ++ c)).delay (d ++ e) := by
  simp [EncodeState.extend, EncodeState.delay]

/-- Encoders that only extend and delay, one after the other. -/
theorem foldl_extend {α : Type} {f : EncodeState → α → EncodeState} {out : α → Bytes}
    {left : α → List Delayed} : ∀ {xs : List α},
    (∀ x ∈ xs, ∀ s, f s x = (s.extend (out x)).delay (left x)) → ∀ s : EncodeState,
    xs.foldl f s = (s.extend (xs.flatMap out)).delay (xs.flatMap left)
  | [], _, s => by simp [extend_nil, delay_nil]
  | x :: xs, h, s => by
    have htail := foldl_extend fun y hy => h y (List.mem_cons_of_mem x hy)
    rw [List.foldl_cons, h x List.mem_cons_self, htail, extend_delay]
    rfl

theorem encode_static : ∀ (t : Ty) (v : t.Val) (s : EncodeState), t.dynamic = false →
    encode t v s = (s.extend (now (words t v))).delay ((nexts t v).map .encode)
  | .uint _, _, s, _ => by simp [encode, words, nexts, now, enc, delay_nil]
  | .int _, _, s, _ => by simp [encode, words, nexts, now, enc, delay_nil]
  | .bool, _, s, _ => by simp [encode, words, nexts, now, enc, delay_nil]
  | .address, _, s, _ => by simp [encode, words, nexts, now, enc, delay_nil, EncodeState.extend]
  | .fixedBytes _, _, s, _ => by
    simp [encode, words, nexts, now, enc, delay_nil, EncodeState.extend]
  | .fixed size t, vs, s, h => by
    have ht : t.dynamic = false := h
    have hfold := foldl_extend (fun v (_ : v ∈ vs.val) s => encode_static t v s ht) s
    unfold encode words nexts
    rw [ht, if_neg (by simp), hfold, now_flatMap, List.map_flatMap]
  | .tuple ts, vs, s, h => by
    have hs : Ty.anyDynamic ts = false := h
    unfold encode words nexts
    rw [hs, if_neg (by simp), now_delayed, extend_nil]

/-- The next round goes on with the same words. -/
theorem words_nexts : ∀ (t : Ty) (v : t.Val),
    ((nexts t v).flatMap fun a => words a.1 a.2) = later (words t v)
  | .uint _, _ => rfl
  | .int _, _ => rfl
  | .bool, _ => rfl
  | .address, _ => rfl
  | .fixedBytes _, _ => rfl
  | .bytes, _ => rfl
  | .string, _ => rfl
  | .array _, _ => rfl
  | .fixed _ t, vs => by
    have ih (v : t.Val) := words_nexts t v
    have hall (xs : List t.Val) : ((xs.flatMap (nexts t)).flatMap fun a => words a.1 a.2) =
        later (xs.flatMap (words t)) := by
      rw [List.flatMap_assoc, later_flatMap]
      simp only [ih]
    exact hall vs.val
  | .tuple ts, vs => (wordsAll_eq ts vs).symm.trans (later_delayed _).symm

theorem nexts_static : ∀ {t : Ty} {v : t.Val} {a : Arg}, t.dynamic = false → a ∈ nexts t v →
    a.1.dynamic = false ∧ depth a.1 < depth t
  | .fixed _ t, vs, a, h, ha => by
    obtain ⟨v, -, hv⟩ := List.mem_flatMap.mp ha
    have ht : t.dynamic = false := h
    have hlt : a.1.dynamic = false ∧ depth a.1 < depth t := nexts_static ht hv
    exact hlt
  | .tuple ts, vs, a, h, ha =>
    ⟨static_component ha h, Nat.lt_succ_of_le (depth_component ha)⟩

/-! ## Static queues -/

theorem run_round (fuel : Nat) (s : EncodeState) : run_tails (fuel + 2) s =
    (s.tails.foldlM (fun s d => call (run_tails (fuel + 1)) d s) { s with tails := [] }).bind
      (run_tails (fuel + 1)) := by
  rw [run_tails]
  cases htails : s.tails with
  | cons d ds => rfl
  | nil =>
    obtain ⟨off, result, tails⟩ := s
    have hnil : tails = [] := htails
    rw [hnil]
    rfl

/-- Calls that return, one after the other. -/
theorem foldlM_call {run : EncodeState → Option EncodeState} {as : List Arg} :
    ∀ s : EncodeState, (as.map Delayed.encode).foldlM (fun s d => call run d s) s =
      some (as.foldl (fun s a => encode a.1 a.2 s) s) := by
  induction as with
  | nil => intro s; rfl
  | cons a as ih => intro s; exact ih _

theorem foldl_static {as : List Arg} (h : ∀ a ∈ as, a.1.dynamic = false) (s : EncodeState) :
    as.foldl (fun s a => encode a.1 a.2 s) s =
      (s.extend (now (as.flatMap fun a => words a.1 a.2))).delay
        ((as.flatMap fun a => nexts a.1 a.2).map .encode) := by
  rw [foldl_extend (fun a ha s => encode_static a.1 a.2 s (h a ha)) s, now_flatMap,
    List.map_flatMap]

/-- The rounds of a static queue, one round deeper at each step. -/
theorem run_static : ∀ (d : Nat) (as : List Arg), (∀ a ∈ as, a.1.dynamic = false) →
    (∀ a ∈ as, depth a.1 < d) → ∀ (fuel : Nat), d < fuel → ∀ off result,
    run_tails fuel ⟨off, result, as.map .encode⟩ =
      some ⟨off, result ++ spread d (as.flatMap fun a => words a.1 a.2), []⟩
  | 0, as, _, hd, fuel, hf, off, result => by
    have hnil : as = [] := List.eq_nil_iff_forall_not_mem.mpr fun a ha => absurd (hd a ha) (by omega)
    obtain ⟨fuel, rfl⟩ := Nat.exists_eq_succ_of_ne_zero (by omega : fuel ≠ 0)
    subst hnil
    simp [run_tails, spread]
  | d + 1, as, hs, hd, fuel, hf, off, result => by
    obtain ⟨fuel, rfl⟩ := Nat.exists_eq_add_of_le (by omega : 2 ≤ fuel)
    have hnext : ∀ b ∈ as.flatMap fun a => nexts a.1 a.2, b.1.dynamic = false ∧ depth b.1 < d := by
      intro b hb
      obtain ⟨a, ha, hba⟩ := List.mem_flatMap.mp hb
      obtain ⟨h1, h2⟩ := nexts_static (hs a ha) hba
      have h3 := hd a ha
      exact ⟨h1, by omega⟩
    have hwords : ((as.flatMap fun a => nexts a.1 a.2).flatMap fun a => words a.1 a.2) =
        later (as.flatMap fun a => words a.1 a.2) := by
      rw [List.flatMap_assoc, later_flatMap]
      simp only [words_nexts]
    have ih := run_static d _ (fun b hb => (hnext b hb).1) (fun b hb => (hnext b hb).2) (fuel + 1)
      (by omega) off (result ++ now (as.flatMap fun a => words a.1 a.2))
    rw [Nat.add_comm 2 fuel, run_round, foldlM_call, Option.bind_some, foldl_static hs]
    simp only [EncodeState.extend, EncodeState.delay, List.nil_append]
    rw [ih, hwords, spread, List.append_assoc]

/-! ## Queues with dynamic components -/

/-- The second round of a component whose placeholder stands at `p`. -/
def second (base p : Nat) (a : Arg) : List Delayed :=
  if a.1.dynamic then [.putter p base, thunk a] else (nexts a.1 a.2).map .encode

/-- The second round, when the first has the components from `p` on. -/
def seconds (base : Nat) : Nat → List Arg → List Delayed
  | _, [] => []
  | p, a :: as => second base p a ++ seconds base (p + (item a).first.length) as

theorem item_dynamic {a : Arg} (h : a.1.dynamic = true) : item a = .behind (body a.1 a.2) := if_pos h

theorem item_static {a : Arg} (h : a.1.dynamic = false) : item a = .inline (words a.1 a.2) :=
  if_neg (by simp [h])

theorem encode_first (a : Arg) (s : EncodeState) :
    encode a.1 a.2 s =
      (s.extend (item a).first).delay (second s.current_off s.result.length a) := by
  cases h : a.1.dynamic with
  | true =>
    rw [encode_dynamic a.2 s h, item_dynamic h]
    unfold second
    rw [if_pos h]
    simp [EncodeState.put_iloc, EncodeState.extend, EncodeState.delay, Item.first]
  | false =>
    rw [encode_static a.1 a.2 s h, item_static h]
    unfold second
    rw [if_neg (by simp [h])]
    rfl

theorem first_round : ∀ (as : List Arg) (s : EncodeState),
    as.foldl (fun s a => encode a.1 a.2 s) s =
      (s.extend ((as.map item).flatMap Item.first)).delay
        (seconds s.current_off s.result.length as)
  | [], s => by simp [extend_nil, seconds, delay_nil]
  | a :: as, s => by
    rw [List.foldl_cons, encode_first, first_round as]
    simp [EncodeState.extend, EncodeState.delay, seconds]

/-- A body is written at the end of the result, when it fits. -/
def BodyRuns (a : Arg) (n : Nat) : Prop :=
  ∀ fuel, n ≤ fuel → ∀ s : EncodeState, s.result.length + (body a.1 a.2).length < 2 ^ 256 →
    call (run_tails fuel) (thunk a) s = some (s.extend (body a.1 a.2))

/-- What the third round starts with. -/
def thirds (as : List Arg) : List Arg :=
  as.flatMap fun a => if a.1.dynamic then [] else (nexts a.1 a.2).flatMap fun b => nexts b.1 b.2

theorem patch_eq (pre w post : Bytes) {n : Nat} (h : pre.length = n) :
    (pre ++ (List.replicate 32 0 ++ post)).take n ++ w ++
      (pre ++ (List.replicate 32 0 ++ post)).drop (n + 32) = pre ++ (w ++ post) := by
  subst h
  have hpost : (List.replicate 32 (0 : UInt8) ++ post).drop 32 = post := by simp
  rw [List.take_left, ← List.drop_drop, List.drop_left, hpost, List.append_assoc]

theorem nexts_round {a : Arg} (h : a.1.dynamic = false) (run : EncodeState → Option EncodeState)
    (s : EncodeState) :
    ((nexts a.1 a.2).map Delayed.encode).foldlM (fun s d => call run d s) s =
      some ((s.extend (now (later (words a.1 a.2)))).delay
        (((nexts a.1 a.2).flatMap fun b => nexts b.1 b.2).map .encode)) := by
  rw [foldlM_call, foldl_static fun b hb => (nexts_static h hb).1, words_nexts]

theorem putter_eq {base off : Nat} (run : EncodeState → Option EncodeState) (pre post : Bytes)
    (tails : List Delayed) (hoff : pre.length + (32 + post.length) = base + off)
    (hlen : off < 2 ^ 256) :
    call run (.putter pre.length base) ⟨base, pre ++ (List.replicate 32 0 ++ post), tails⟩ =
      some ⟨base, pre ++ (word off ++ post), tails⟩ := by
  have hlength : (pre ++ (List.replicate 32 0 ++ post)).length - base = off := by
    simp only [List.length_append, List.length_replicate]
    omega
  have hw : to_bytes off = some (word off) := if_pos hlen
  unfold call
  dsimp only
  rw [hlength, hw, Option.map_some, patch_eq pre _ post rfl]

/-- The second round: every placeholder is filled, and the bodies come after what is there. The
induction moves a filled head to `pre` and what its call appended to `app`. -/
theorem second_round (base : Nat) : ∀ (as : List Arg) (pre app : Bytes) (tails : List Delayed)
    (fuel off : Nat), (∀ a ∈ as, a.1.dynamic = true → BodyRuns a fuel) →
    (pre ++ ((as.map item).flatMap Item.first ++ app)).length = base + off →
    base + off + ((as.map item).flatMap Item.second).length < 2 ^ 256 →
    (seconds base pre.length as).foldlM (fun s d => call (run_tails fuel) d s)
      ⟨base, pre ++ ((as.map item).flatMap Item.first ++ app), tails⟩ =
    some ⟨base, pre ++ (filled off (as.map item) ++ (app ++ (as.map item).flatMap Item.second)),
      tails ++ (thirds as).map .encode⟩
  | [], pre, app, tails, fuel, off, _, _, _ => by simp [seconds, filled, thirds]
  | a :: as, pre, app, tails, fuel, off, hbody, hoff, hlen => by
    have htail : ∀ b ∈ as, b.1.dynamic = true → BodyRuns b fuel :=
      fun b hb => hbody b (List.mem_cons_of_mem a hb)
    simp only [List.map_cons, List.flatMap_cons, List.length_append] at hoff hlen ⊢
    unfold seconds second
    rw [List.foldlM_append]
    cases h : a.1.dynamic with
    | true =>
      rw [item_dynamic h] at hoff hlen ⊢
      simp only [Item.first, Item.second, List.length_replicate] at hoff hlen
      have hput : call (run_tails fuel) (.putter pre.length base)
          ⟨base, pre ++ (List.replicate 32 0 ++ ((as.map item).flatMap Item.first ++ app)), tails⟩ =
          some ⟨base, pre ++ (word off ++ ((as.map item).flatMap Item.first ++ app)), tails⟩ :=
        putter_eq _ pre _ tails (by simp only [List.length_append]; omega) (by omega)
      have hrun := hbody a List.mem_cons_self h fuel le_rfl ⟨base, pre ++ (word off ++
        ((as.map item).flatMap Item.first ++ app)), tails⟩
        (by simp only [List.length_append, length_word]; omega)
      have ih := second_round base as (pre ++ word off) (app ++ body a.1 a.2) tails fuel
        (off + (body a.1 a.2).length) htail
        (by simp only [List.length_append, length_word]; omega) (by omega)
      rw [if_pos rfl]
      simp only [Item.first, List.foldlM_cons, List.foldlM_nil, List.append_assoc, Option.bind_eq_bind]
      rw [hput]
      simp only [Option.bind_some]
      rw [hrun]
      simp [EncodeState.extend, Item.second, filled, thirds, h] at ih ⊢
      exact ih
    | false =>
      rw [item_static h] at hoff hlen ⊢
      simp only [Item.first, Item.second] at hoff hlen
      have ih := second_round base as (pre ++ now (words a.1 a.2))
        (app ++ now (later (words a.1 a.2)))
        (tails ++ ((nexts a.1 a.2).flatMap fun b => nexts b.1 b.2).map .encode) fuel
        (off + (now (later (words a.1 a.2))).length) htail
        (by simp only [List.length_append]; omega) (by omega)
      rw [if_neg (by simp), nexts_round h]
      simp [EncodeState.extend, EncodeState.delay, Item.first, Item.second, filled, thirds, h]
        at ih ⊢
      exact ih

theorem thirds_words (as : List Arg) : ((thirds as).flatMap fun a => words a.1 a.2) =
    (as.map item).flatMap Item.others := by
  unfold thirds
  rw [List.flatMap_assoc, List.flatMap_map]
  congr 1
  funext a
  cases h : a.1.dynamic with
  | true =>
    rw [item_dynamic h]
    rfl
  | false =>
    rw [item_static h, if_neg (by simp), List.flatMap_assoc]
    simp only [words_nexts, ← later_flatMap, Item.others]

theorem mem_thirds {as : List Arg} {c : Arg} (h : c ∈ thirds as) :
    c.1.dynamic = false ∧ ∃ a ∈ as, depth c.1 + 2 ≤ depth a.1 := by
  obtain ⟨a, ha, hc⟩ := List.mem_flatMap.mp h
  split at hc
  · exact absurd hc List.not_mem_nil
  · next hs =>
    obtain ⟨b, hb, hcb⟩ := List.mem_flatMap.mp hc
    obtain ⟨hbs, hbd⟩ := nexts_static (by simpa using hs) hb
    obtain ⟨hcs, hcd⟩ := nexts_static hbs hcb
    exact ⟨hcs, a, ha, by omega⟩

theorem length_filled (off : Nat) (is : List Item) :
    (filled off is).length = (is.flatMap Item.first).length := by
  induction is generalizing off with
  | nil => rfl
  | cons i is ih =>
    cases i with
    | inline ws =>
      rw [filled, List.flatMap_cons, List.length_append, List.length_append, ih]
      rfl
    | behind b =>
      rw [filled, List.flatMap_cons, List.length_append, List.length_append, ih, length_word]
      rfl

section Queue
variable {as : List Arg} {d n : Nat} {r : Bytes}

/-- The rounds after the first, from a result that ends where the queue began. -/
theorem seconds_run (hd : ∀ a ∈ as, depth a.1 ≤ d)
    (hbody : ∀ a ∈ as, a.1.dynamic = true → BodyRuns a n)
    (hlen : r.length + (queue d (as.map item)).length < 2 ^ 256) {fuel : Nat}
    (hn : n + 2 ≤ fuel) (hfuel : d + 2 ≤ fuel) :
    run_tails fuel
      ⟨r.length, r ++ (as.map item).flatMap Item.first, seconds r.length r.length as⟩ =
      some ⟨r.length, r ++ queue d (as.map item), []⟩ := by
  obtain ⟨fuel, rfl⟩ := Nat.exists_eq_add_of_le' (by omega : 2 ≤ fuel)
  have hmore : ∀ a ∈ as, a.1.dynamic = true → BodyRuns a (fuel + 1) :=
    fun a ha h f hf => hbody a ha h f (by omega)
  have hthird : ∀ c ∈ thirds as, c.1.dynamic = false ∧ depth c.1 < d := by
    intro c hc
    obtain ⟨hs, a, ha, hle⟩ := mem_thirds hc
    have hda := hd a ha
    exact ⟨hs, by omega⟩
  unfold queue at hlen ⊢
  simp only [List.length_append] at hlen
  have hround := second_round r.length as r [] [] (fuel + 1) ((as.map item).flatMap Item.first).length
    hmore (by simp) (by rw [length_filled] at hlen; omega)
  have hstatic := run_static d (thirds as) (fun c hc => (hthird c hc).1) (fun c hc => (hthird c hc).2)
    (fuel + 1) (by omega) r.length (r ++ (filled ((as.map item).flatMap Item.first).length
      (as.map item) ++ (as.map item).flatMap Item.second))
  rw [List.append_nil, List.nil_append, List.nil_append] at hround
  rw [run_round, hround, Option.bind_some, hstatic, thirds_words]
  simp

theorem queue_runs (hd : ∀ a ∈ as, depth a.1 ≤ d)
    (hbody : ∀ a ∈ as, a.1.dynamic = true → BodyRuns a n)
    (hlen : r.length + (queue d (as.map item)).length < 2 ^ 256) {fuel : Nat}
    (hn : n + 3 ≤ fuel) (hfuel : d + 3 ≤ fuel) :
    run_tails fuel ⟨r.length, r, as.map .encode⟩ =
      some ⟨r.length, r ++ queue d (as.map item), []⟩ := by
  obtain ⟨fuel, rfl⟩ := Nat.exists_eq_add_of_le' (by omega : 3 ≤ fuel)
  rw [run_round, foldlM_call, Option.bind_some, first_round]
  exact seconds_run hd hbody hlen (by omega) (by omega)

end Queue

/-! ## Bodies -/

mutual
/-- Enough fuel for a body. -/
def cost : Ty → Nat
  | .array t => cost t + depth t + 3
  | .fixed _ t => cost t + depth t + 3
  | .tuple ts => costs ts + depths ts + 3
  | _ => 0
def costs : List Ty → Nat
  | [] => 0
  | t :: ts => max (cost t) (costs ts)
end

theorem elements_map {t : Ty} (vs : List t.Val) :
    (vs.map fun v => if t.dynamic then Item.behind (body t v) else Item.inline (words t v)) =
      (vs.map fun v => (⟨t, v⟩ : Arg)).map item := by
  rw [List.map_map]
  rfl

theorem put_bytes_eq (run : EncodeState → Option EncodeState) {b : Bytes} {s : EncodeState}
    (h : s.result.length + (encBytes b).length < 2 ^ 256) :
    call run (.put_bytes b) s = some (s.extend (encBytes b)) := by
  have hle := length_le_encBytes b
  have hw : to_bytes b.length = some (word b.length) := if_pos (by omega)
  unfold call
  dsimp only
  rw [hw, Option.map_some]
  simp [EncodeState.extend, encBytes, padding]

/-- A queue of elements of one type. -/
theorem elements_run {t : Ty} {n : Nat} (hrun : ∀ v, t.dynamic = true → BodyRuns ⟨t, v⟩ n)
    (vs : List t.Val) : ∀ a ∈ vs.map fun v => (⟨t, v⟩ : Arg),
      depth a.1 ≤ depth t ∧ (a.1.dynamic = true → BodyRuns a n) := by
  intro a ha
  obtain ⟨v, -, rfl⟩ := List.mem_map.mp ha
  exact ⟨le_rfl, hrun v⟩

mutual
theorem body_runs : ∀ (t : Ty) (v : t.Val), t.dynamic = true → BodyRuns ⟨t, v⟩ (cost t)
  | .bytes, b, _ => fun fuel _ s hlen => put_bytes_eq (run_tails fuel) hlen
  | .string, x, _ => fun fuel _ s hlen => put_bytes_eq (run_tails fuel) hlen
  | .array t, vs, _ => by
    intro fuel hfuel s hlen
    have hfuel : cost t + depth t + 3 ≤ fuel := hfuel
    have hcount : to_bytes vs.val.length = some (word vs.val.length) := if_pos vs.property
    have helems := elements_run (body_runs t) vs.val
    have hbody : body (.array t) vs = word vs.val.length ++
        queue (depth t) ((vs.val.map fun v => (⟨t, v⟩ : Arg)).map item) :=
      congrArg (fun is => word vs.val.length ++ queue (depth t) is) (elements_map vs.val)
    have hbound : (s.result ++ word vs.val.length).length +
        (queue (depth t) ((vs.val.map fun v => (⟨t, v⟩ : Arg)).map item)).length < 2 ^ 256 := by
      change s.result.length + (body (.array t) vs).length < _ at hlen
      rw [hbody, List.length_append] at hlen
      rw [List.length_append]
      omega
    have hrun := queue_runs (fun a ha => (helems a ha).1) (fun a ha => (helems a ha).2) hbound
      (by omega : cost t + 3 ≤ fuel) (by omega)
    rw [List.map_map] at hrun
    refine bind_eq hcount ((congrArg (Option.map _) hrun).trans ?_)
    rw [Option.map_some]
    simp [EncodeState.extend, hbody]
  | .fixed size t, vs, h => by
    intro fuel hfuel s hlen
    have ht : t.dynamic = true := h
    have hfuel : cost t + depth t + 3 ≤ fuel := hfuel
    have helems := elements_run (body_runs t) vs.val
    have hbody : body (.fixed size t) vs =
        queue (depth t) ((vs.val.map fun v => (⟨t, v⟩ : Arg)).map item) :=
      congrArg (queue (depth t)) (elements_map vs.val)
    have hbound : s.result.length +
        (queue (depth t) ((vs.val.map fun v => (⟨t, v⟩ : Arg)).map item)).length < 2 ^ 256 := by
      rwa [← hbody]
    have hrun := seconds_run (fun a ha => (helems a ha).1) (fun a ha => (helems a ha).2) hbound
      (by omega : cost t + 2 ≤ fuel) (by omega)
    have hfirst : vs.val.foldl (fun s v => encode t v s) s.derived =
        ⟨s.result.length, s.result ++
          ((vs.val.map fun v => (⟨t, v⟩ : Arg)).map item).flatMap Item.first,
          seconds s.result.length s.result.length (vs.val.map fun v => (⟨t, v⟩ : Arg))⟩ := by
      have hround := first_round (vs.val.map fun v => (⟨t, v⟩ : Arg)) s.derived
      rw [List.foldl_map] at hround
      exact hround
    refine (congrArg (fun st => (run_tails fuel st).map fun der =>
      ({ s with result := der.result } : EncodeState)) hfirst).trans ?_
    refine (congrArg (Option.map _) hrun).trans ?_
    rw [Option.map_some]
    simp [EncodeState.extend, hbody]
  | .tuple ts, vs, h => by
    intro fuel hfuel s hlen
    have hfuel : costs ts + depths ts + 3 ≤ fuel := hfuel
    have hbody : body (.tuple ts) vs = queue (depths ts) ((components ts vs).map item) :=
      congrArg (queue (depths ts)) (items_eq ts vs)
    have hbound : s.result.length + (queue (depths ts) ((components ts vs).map item)).length <
        2 ^ 256 := by
      rwa [← hbody]
    have hrun := queue_runs (fun a ha => depth_component ha) (bodies_run ts vs) hbound
      (by omega : costs ts + 3 ≤ fuel) (by omega)
    refine (congrArg (Option.map _) hrun).trans ?_
    rw [Option.map_some]
    simp [EncodeState.extend, hbody]
theorem bodies_run : ∀ (ts : List Ty) (vs : Ty.Vals ts), ∀ a ∈ components ts vs,
    a.1.dynamic = true → BodyRuns a (costs ts)
  | t :: ts, vs, a, ha, h => by
    unfold components at ha
    rcases List.mem_cons.mp ha with rfl | ha
    · exact fun fuel hfuel => body_runs t vs.1 h fuel ((Nat.le_max_left _ _).trans hfuel)
    · exact fun fuel hfuel => bodies_run ts vs.2 a ha h fuel ((Nat.le_max_right _ _).trans hfuel)
end

end GenVM.Py.Evm
