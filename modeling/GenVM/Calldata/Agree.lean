import GenVM.Calldata.Codec
import GenVM.Calldata.Parser

/-!
# The calldata readers agree

* `validate_eq`: for every type, `validate` is `decode` with the value dropped,
  errors included.
* `law`: `decode` at a type reads a tree off the wire (the same trees as the
  iterative decoder) and converts it (`Ty.ofTree`).
* `decodeObj_value_iff`: the trait decoder of `Value` and the iterative decoder
  accept the same bytes, with the same value.
* `readers_agree`: both facts together, and what they give for deferred values.
-/
namespace GenVM.Calldata
open GenVM.Lib GenVM.Lib.Except BinaryDeserializer

/-! ## Validation is decoding -/

/-- A result without its value. -/
def forget {ε α : Type} (x : Except ε (α × Bytes)) : Except ε (Unit × Bytes) := (fun p => ((), p.2)) <$> x

section
variable {ε α β γ δ : Type}

theorem forget_unit {x : Except ε (Unit × Bytes)} : forget x = x := by cases x <;> rfl

theorem forget_pair {x : Except ε (α × Bytes)} {f : α → β} :
    forget ((fun p => (f p.1, p.2)) <$> x) = forget x := by
  cases x <;> rfl

/-- Two programs that differ in the values only, step by step. -/
theorem forget_bind {x : Except ε (α × Bytes)} {y : Except ε (β × Bytes)}
    {f : α × Bytes → Except ε (γ × Bytes)} {g : β × Bytes → Except ε (δ × Bytes)}
    (h : forget x = forget y) (hfg : ∀ a b d, forget (f (a, d)) = forget (g (b, d))) :
    forget (x >>= f) = forget (y >>= g) := by
  match x, y, h with
  | .error e, .error e', h => cases Except.error.inj h; rfl
  | .error e, .ok q, h => cases h
  | .ok p, .error e, h => cases h
  | .ok (a, d), .ok (b, d'), h =>
    obtain rfl : d = d' := congrArg Prod.snd (Except.ok.inj h)
    exact hfg a b d

theorem forget_congr {x : Except ε α} {f : α → Except ε (β × Bytes)} {g : α → Except ε (γ × Bytes)}
    (h : ∀ a, forget (f a) = forget (g a)) : forget (x >>= f) = forget (x >>= g) := by
  cases x with
  | error e => rfl
  | ok a => exact h a

end

section
variable {α β : Type} {next : Bytes → Except DecodeError (α × Bytes)}
  {next' : Bytes → Except DecodeError (β × Bytes)}

theorem forget_seqLoop (h : ∀ d, forget (next d) = forget (next' d)) :
    ∀ n d, forget (seqLoop next n d) = forget (seqLoop next' n d)
  | 0, _ => rfl
  | n + 1, d => by
    rw [seqLoop, seqLoop]
    refine forget_bind (h d) fun a b d => ?_
    exact forget_bind (forget_seqLoop h n d) fun a b d => rfl

theorem forget_mapLoop (h : ∀ d, forget (next d) = forget (next' d)) :
    ∀ n prev acc acc' d, forget (mapLoop next n prev acc d) = forget (mapLoop next' n prev acc' d)
  | 0, _, _, _, _ => rfl
  | n + 1, prev, acc, acc', d => by
    rw [mapLoop, mapLoop]
    refine forget_congr fun p => ?_
    dsimp only
    cases keyNotAbove prev p.1 with
    | some k => rfl
    | none => exact forget_bind (h p.2) fun a b d => forget_mapLoop h n _ _ _ d

theorem forget_visitVec {next : Source → Except DecodeError (α × Bytes)}
    {next' : Source → Except DecodeError (β × Bytes)} (h : ∀ s, forget (next s) = forget (next' s))
    (src : Source) : forget (visitVec next src) = forget (visitVec next' src) := by
  refine forget_congr fun p => ?_
  obtain ⟨ev, d⟩ := p
  cases ev with
  | seq len => exact forget_seqLoop (fun d => h _) len d
  | _ => rfl

theorem forget_visitMap {next : Source → Except DecodeError (α × Bytes)}
    {next' : Source → Except DecodeError (β × Bytes)} (h : ∀ s, forget (next s) = forget (next' s))
    (src : Source) : forget (visitMap next src) = forget (visitMap next' src) := by
  refine forget_congr fun p => ?_
  obtain ⟨ev, d⟩ := p
  cases ev with
  | map len => exact forget_mapLoop (fun d => h _) len none [] [] d
  | _ => rfl

theorem forget_leaf {visit : Event → Except DecodeError α} {check : Event → Except DecodeError Unit}
    (h : ∀ ev, check ev = (fun _ => ()) <$> visit ev) (src : Source) :
    leaf check src = forget (leaf visit src) := by
  rw [← forget_unit (x := leaf check src)]
  refine forget_congr fun p => ?_
  dsimp only
  rw [h p.1]
  cases visit p.1 <;> rfl

end

theorem checkValue_eq (b : Nat) : ∀ ev d, checkValue b ev d = forget (visitValue b ev d) := by
  induction b with
  | zero => intro ev d; cases ev <;> rfl
  | succ b ih =>
    intro ev d
    have hnext : ∀ d, forget (deserializeOne b d >>= fun p => checkValue b p.1 p.2) =
        forget (deserializeOne b d >>= fun p => visitValue b p.1 p.2) := fun d =>
      forget_congr fun p => by rw [ih, forget_unit]
    cases ev with
    | seq len =>
      rw [← forget_unit (x := checkValue (b + 1) (.seq len) d), checkValue, visitValue]
      exact forget_bind (forget_seqLoop hnext len d) fun a b d => rfl
    | map len =>
      rw [← forget_unit (x := checkValue (b + 1) (.map len) d), checkValue, visitValue]
      exact forget_bind (forget_mapLoop hnext len none [] [] d) fun a b d => rfl
    | _ => rfl

theorem value_validate (src : Source) :
    Decode.value.validate src = forget (Decode.value.decode src) := by
  rw [← forget_unit (x := Decode.value.validate src)]
  exact forget_congr fun p => by dsimp only; rw [checkValue_eq, forget_unit]

/-- Deferring walks over the same bytes as decoding. -/
theorem forget_maybe {α : Type} {t : Decode α} (h : ∀ src, t.validate src = forget (t.decode src))
    (src : Source) : forget (deserializeMaybe t src) = t.validate src := by
  cases src with
  | bin b d =>
    rw [← forget_unit (x := t.validate _)]
    show forget (t.validate (.bin b d) >>= _) = _
    cases t.validate (.bin b d) <;> rfl
  | wrap b ev d => rw [deserializeMaybe, forget_pair, h]

/-- **Validation is decoding** with the value dropped: the same bytes accepted,
the same bytes consumed, the same error otherwise. -/
theorem validate_eq (ty : Ty) : ∀ src, ty.codec.validate src = forget (ty.codec.decode src) := by
  induction ty with
  | bool | int | bigint | u256 | address => exact fun src => rfl
  | string => exact forget_leaf fun ev => by cases ev <;> rfl
  | bytes => exact forget_leaf fun ev => by cases ev <;> rfl
  | value => exact value_validate
  | raw =>
    intro src
    refine (forget_maybe value_validate src).symm.trans ?_
    show _ = forget (deserializeMaybe Decode.value src >>= _)
    match deserializeMaybe Decode.value src with
    | .error e | .ok (.checked raw, d) | .ok (.materialized v, d) => rfl
  | option t ih => exact fun src => rfl
  | vec t ih => exact fun src => forget_visitVec (fun s => by rw [ih, forget_unit]) src
  | btreemap t ih => exact fun src => forget_visitMap (fun s => by rw [ih, forget_unit]) src
  | box t ih | arc t ih | rc t ih => exact ih
  | maybe t ih => exact fun src => (forget_maybe ih src).symm

/-! ## What a type reads -/

/-- Where the deserializer reads: the wire, or an event an `Option` has seen. -/
inductive Origin where
  | stream
  | seen

def Source.origin : Source → Origin
  | .bin _ _ => .stream
  | .wrap _ _ _ => .seen

/-- The event of a `Wrap` came from a head. -/
def Source.Valid : Source → Prop
  | .bin _ _ => True
  | .wrap budget ev data => ev.Guard budget data ∧ ev.CodeFits

/-- The tree `t` is next in the source, and `rest` after it. -/
def Source.Reads : Source → Tree → Bytes → Prop
  | .bin budget data, t, rest => data = wire t ++ rest ∧ t.Ok budget
  | .wrap budget ev data, t, rest => ev = t.event ∧ data = t.tail ++ rest ∧ t.Ok budget

section
variable {α : Type}

def ofEvent (visit : Event → Except DecodeError α) : Origin → Tree → Option α
  | _, t => (visit t.event).toOption

def ofOption (f : Origin → Tree → Option α) : Origin → Tree → Option (Option α)
  | _, .null => some none
  | _, t => some <$> f .seen t

def ofVec (f : Origin → Tree → Option α) : Origin → Tree → Option (List α)
  | _, .array xs => xs.mapM (f .stream)
  | _, _ => none

/-- An entry converted. -/
def ofEntry (f : Tree → Option α) (kv : String × Tree) : Option (String × α) :=
  (fun v => (kv.1, v)) <$> f kv.2

def ofMap (f : Origin → Tree → Option α) : Origin → Tree → Option (List (String × α))
  | _, .map kvs => kvs.mapM (ofEntry (f .stream))
  | _, _ => none

/-- Deferred on the wire only. -/
def ofMaybe (f : Origin → Tree → Option α) : Origin → Tree → Option (Maybe α)
  | .stream, t => (fun _ => .checked (wire t)) <$> f .stream t
  | .seen, t => .materialized <$> f .seen t

end

/-- The conversion of a tree to a type. -/
def Ty.ofTree : (ty : Ty) → Origin → Tree → Option ty.den
  | bool => ofEvent visitBool
  | int k => ofEvent (visitInt k)
  | string => ofEvent visitStr
  | bytes => ofEvent visitBytes
  | bigint => ofEvent visitBigint
  | u256 => ofEvent visitU256
  | address => ofEvent visitAddress
  | value => fun _ t => some t
  | raw => fun _ t => some (wire t)
  | option ty => ofOption ty.ofTree
  | vec ty => ofVec ty.ofTree
  | btreemap ty => ofMap ty.ofTree
  | box ty | arc ty | rc ty => ty.ofTree
  | maybe ty => ofMaybe ty.ofTree

theorem deserializeOne_iff {b : Nat} {data d : Bytes} {ev : Event} :
    deserializeOne b data = .ok (ev, d) ↔ data = ev.wire ++ d ∧ ev.Guard b d ∧ ev.CodeFits := by
  rw [deserializeOne, mapError_ok, head_iff]

/-- Reading a tree is reading its head event, then what follows. -/
theorem reads_iff {src : Source} (hv : src.Valid) {t : Tree} {rest : Bytes} :
    src.Reads t rest ↔
      ∃ d, src.event = .ok (t.event, d) ∧ d = t.tail ++ rest ∧ t.Ok src.budget := by
  cases src with
  | bin b data =>
    constructor
    · rintro ⟨rfl, hok⟩
      exact ⟨_, mapError_ok.mpr (head_tree hok rest), rfl, hok⟩
    · rintro ⟨d, he, rfl, hok⟩
      obtain ⟨rfl, -, -⟩ := deserializeOne_iff.mp he
      exact ⟨by rw [wire_eq_event, List.append_assoc], hok⟩
  | wrap b ev data =>
    simp only [Source.Reads, Source.event, Except.ok.injEq, Prod.mk.injEq, Source.budget]
    constructor
    · rintro ⟨rfl, rfl, hok⟩; exact ⟨_, ⟨rfl, rfl⟩, rfl, hok⟩
    · rintro ⟨d, ⟨rfl, rfl⟩, rfl, hok⟩; exact ⟨rfl, rfl, hok⟩

theorem event_valid {src : Source} (hv : src.Valid) {ev : Event} {d : Bytes}
    (h : src.event = .ok (ev, d)) : ev.Guard src.budget d ∧ ev.CodeFits := by
  cases src with
  | bin b data => exact (deserializeOne_iff.mp h).2
  | wrap b ev' data => cases h; exact hv

section
variable {α : Type}

/-- A decoder that dispatches on the event obeys its conversion when each visitor method does. -/
theorem visit_law {src : Source} (hv : src.Valid) (visit : Event → Bytes → Except DecodeError (α × Bytes))
    (f : Tree → Option α) {v : α} {rest : Bytes}
    (h : ∀ ev d, ev.Guard src.budget d → ev.CodeFits →
      (visit ev d = .ok (v, rest) ↔
        ∃ t : Tree, ev = t.event ∧ d = t.tail ++ rest ∧ t.Ok src.budget ∧ f t = some v)) :
    (src.event >>= fun p => visit p.1 p.2) = .ok (v, rest) ↔ ∃ t, src.Reads t rest ∧ f t = some v := by
  simp only [bind_ok, Prod.exists, reads_iff hv]
  constructor
  · rintro ⟨ev, d, he, hvis⟩
    have hg := event_valid hv he
    obtain ⟨t, rfl, rfl, hok, hf⟩ := (h ev d hg.1 hg.2).mp hvis
    exact ⟨t, ⟨_, he, rfl, hok⟩, hf⟩
  · rintro ⟨t, ⟨d, he, rfl, hok⟩, hf⟩
    have hg := event_valid hv he
    exact ⟨_, _, he, (h _ _ hg.1 hg.2).mpr ⟨t, rfl, rfl, hok, hf⟩⟩

/-- A scalar event is a whole tree. -/
theorem scalar {b : Nat} {d : Bytes} {ev : Event} (hg : ev.Guard b d) (hc : ev.CodeFits)
    (hs : ∀ n, ev ≠ .seq n) (hm : ∀ n, ev ≠ .map n) : ∃ t : Tree, ev = t.event ∧ t.tail = [] ∧ t.Ok b := by
  cases ev with
  | null => exact ⟨.null, rfl, rfl, Nat.zero_le _, trivial, trivial⟩
  | bool v => exact ⟨.bool v, rfl, rfl, Nat.zero_le _, trivial, trivial⟩
  | address a => exact ⟨.address a, rfl, rfl, Nat.zero_le _, trivial, trivial⟩
  | bigint n => exact ⟨.number n, rfl, rfl, Nat.zero_le _, trivial, hc⟩
  | bytes v => exact ⟨.bytes v, rfl, rfl, Nat.zero_le _, trivial, hg⟩
  | str s => exact ⟨.str s, rfl, rfl, Nat.zero_le _, trivial, hg⟩
  | seq n => exact absurd rfl (hs n)
  | map n => exact absurd rfl (hm n)

theorem leaf_law {src : Source} (hv : src.Valid) {visit : Event → Except DecodeError α} {v : α}
    {rest : Bytes} (hs : ∀ n, visit (.seq n) ≠ .ok v) (hm : ∀ n, visit (.map n) ≠ .ok v) :
    leaf visit src = .ok (v, rest) ↔ ∃ t, src.Reads t rest ∧ (visit t.event).toOption = some v := by
  refine visit_law hv (fun ev d => visit ev >>= fun v => .ok (v, d))
    (fun t => (visit t.event).toOption) fun ev d hg hc => ?_
  simp only [bind_ok, Except.ok.injEq, Prod.mk.injEq]
  constructor
  · rintro ⟨v', hvis, rfl, rfl⟩
    obtain ⟨t, rfl, ht, hok⟩ := scalar hg hc (fun n h => hs n (h ▸ hvis)) (fun n h => hm n (h ▸ hvis))
    exact ⟨t, rfl, by rw [ht, List.nil_append], hok, by rw [hvis]; rfl⟩
  · rintro ⟨t, rfl, rfl, -, hf⟩
    have hvis : visit t.event = .ok v := by
      cases he : visit t.event with
      | error e => rw [he] at hf; cases hf
      | ok v' => rw [he] at hf; cases hf; rfl
    have ht : t.tail = [] := by
      cases t with
      | array xs => exact absurd hvis (hs _)
      | map kvs => exact absurd hvis (hm _)
      | _ => rfl
    exact ⟨v, hvis, rfl, by rw [ht, List.nil_append]⟩

end

/-! ## Element loops -/

section
variable {α : Type} {next : Bytes → Except DecodeError (α × Bytes)} {b : Nat} {f : Tree → Option α}

theorem keyNotAbove_none {prev : Option String} {k : String} :
    keyNotAbove prev k = none ↔ ∀ p, prev = some p → keyLt p k := by
  cases prev with
  | none => simp [keyNotAbove]
  | some p => simp [keyNotAbove]

theorem fetchMapKey_iff {data d : Bytes} {k : String} : fetchMapKey data = .ok (k, d) ↔
    data = wireKey k ++ d ∧ SizeFits (Utf8.bytes k).length := by
  rw [fetchMapKey, mapError_ok, fetchKeyWith_iff]

theorem ofEntry_eq_some {kv : String × Tree} {e : String × α} :
    ofEntry f kv = some e ↔ kv.1 = e.1 ∧ f kv.2 = some e.2 := by
  obtain ⟨k, v⟩ := e
  simp only [ofEntry, Option.map_eq_map, Option.map_eq_some_iff, Prod.mk.injEq]
  constructor
  · rintro ⟨v', hf, rfl, rfl⟩; exact ⟨rfl, hf⟩
  · rintro ⟨rfl, hf⟩; exact ⟨v, hf, rfl, rfl⟩

theorem mapLoop_iff
    (h : ∀ d v r, next d = .ok (v, r) ↔ ∃ t, d = wire t ++ r ∧ t.Ok b ∧ f t = some v) :
    ∀ {n : Nat} {prev : Option String} {acc : List (String × α)} {d : Bytes} {kvs : List (String × α)}
      {r : Bytes}, UpTo prev acc → (mapLoop next n prev acc d = .ok (kvs, r) ↔
      ∃ es vs, es.length = n ∧ d = wireEntries es ++ r ∧ (∀ e ∈ es, Tree.EntryOk b e) ∧
        (SortedMap.Sorted keyLt es ∧ ∀ p, prev = some p → ∀ e ∈ es, keyLt p e.1) ∧
        es.mapM (ofEntry f) = some vs ∧ kvs = acc ++ vs)
  | 0, prev, acc, d, kvs, r, _ => by
    simp only [mapLoop, Except.ok.injEq, Prod.mk.injEq, List.length_eq_zero_iff]
    constructor
    · rintro ⟨rfl, rfl⟩
      exact ⟨[], [], rfl, rfl, by simp, ⟨SortedMap.sorted_nil, by simp⟩, rfl, (List.append_nil _).symm⟩
    · rintro ⟨es, vs, rfl, rfl, -, -, hm, rfl⟩
      rw [List.mapM_nil] at hm
      cases hm
      exact ⟨(List.append_nil _).symm, rfl⟩
  | n + 1, prev, acc, d, kvs, r, hacc => by
    simp only [mapLoop, bind_ok, Prod.exists, fetchMapKey_iff]
    constructor
    · rintro ⟨k, d', ⟨rfl, hk⟩, hrest⟩
      split at hrest
      · cases hrest
      · next hnone =>
        rw [keyNotAbove_none] at hnone
        simp only [bind_ok, Prod.exists, h] at hrest
        obtain ⟨v, d'', ⟨t, rfl, hok, hf⟩, hloop⟩ := hrest
        rw [SortedMap.insert_last keyLt_order v (hacc.below hnone), mapLoop_iff h (hacc.step hnone v)] at hloop
        obtain ⟨es, vs, rfl, rfl, hall, ⟨hs, hp⟩, hm, rfl⟩ := hloop
        have hlt : ∀ e ∈ es, keyLt k e.1 := hp k rfl
        refine ⟨(k, t) :: es, (k, v) :: vs, rfl, ?_, List.forall_mem_cons.mpr ⟨⟨hk, hok⟩, hall⟩,
          ⟨SortedMap.sorted_cons.mpr ⟨hlt, hs⟩, fun p hp' => List.forall_mem_cons.mpr
            ⟨hnone p hp', fun e he => keyLt_order.trans _ _ _ (hnone p hp') (hlt e he)⟩⟩, ?_, ?_⟩
        · simp [wireEntries]
        · rw [List.mapM_cons, (ofEntry_eq_some (e := (k, v))).mpr ⟨rfl, hf⟩, hm]; rfl
        · simp
    · rintro ⟨es, vs, hl, rfl, hall, ⟨hs, hp⟩, hm, rfl⟩
      obtain ⟨⟨k, t⟩, es, rfl⟩ := List.exists_cons_of_length_eq_add_one hl
      rw [List.forall_mem_cons] at hall
      rw [SortedMap.sorted_cons] at hs
      simp only [List.mapM_cons, Option.bind_eq_bind, Option.bind_eq_some_iff, Option.pure_def,
        ofEntry_eq_some] at hm
      obtain ⟨⟨k', v⟩, ⟨rfl, hf⟩, vs', hm, hvs⟩ := hm
      cases hvs
      have hnone : ∀ p, prev = some p → keyLt p k := fun p hp' => (List.forall_mem_cons.mp (hp p hp')).1
      refine ⟨k, wire t ++ (wireEntries es ++ r), ⟨by simp [wireEntries], hall.1.1⟩, ?_⟩
      rw [keyNotAbove_none.mpr hnone]
      simp only [bind_ok, Prod.exists, h]
      refine ⟨v, wireEntries es ++ r, ⟨t, rfl, hall.1.2, hf⟩, ?_⟩
      rw [SortedMap.insert_last keyLt_order v (hacc.below hnone), mapLoop_iff h (hacc.step hnone v)]
      refine ⟨es, vs', by simpa using hl, rfl, hall.2, ⟨hs.2, ?_⟩, hm, by simp⟩
      rintro p ⟨⟩
      exact hs.1

/-- The loop from an empty map. -/
theorem mapLoop_start
    (h : ∀ d v r, next d = .ok (v, r) ↔ ∃ t, d = wire t ++ r ∧ t.Ok b ∧ f t = some v) {n : Nat}
    {d : Bytes} {kvs : List (String × α)} {r : Bytes} : mapLoop next n none [] d = .ok (kvs, r) ↔
      ∃ es, es.length = n ∧ d = wireEntries es ++ r ∧ (∀ e ∈ es, Tree.EntryOk b e) ∧
        SortedMap.Sorted keyLt es ∧ es.mapM (ofEntry f) = some kvs := by
  have hempty : UpTo none ([] : List (String × α)) := fun e he => absurd he List.not_mem_nil
  rw [mapLoop_iff h hempty]
  constructor
  · rintro ⟨es, vs, hl, hd, hall, ⟨hs, -⟩, hm, rfl⟩; exact ⟨es, hl, hd, hall, hs, hm⟩
  · intro ⟨es, hl, hd, hall, hs, hm⟩; exact ⟨es, kvs, hl, hd, hall, ⟨hs, nofun⟩, hm, rfl⟩

end

/-! ## `Value` -/

/-- The visitor of `Value` at a budget `b`, on any event a head can yield. -/
def ValueLaw (b : Nat) : Prop := ∀ {ev : Event} {d : Bytes} {v : Tree} {r : Bytes},
  ev.Guard b d → ev.CodeFits → (visitValue b ev d = .ok (v, r) ↔
    ∃ t : Tree, ev = t.event ∧ d = t.tail ++ r ∧ t.Ok b ∧ some t = some v)

/-- Scalars are values by themselves. -/
theorem visitValue_scalar {b : Nat} {ev : Event} {d : Bytes} {v : Tree} {r : Bytes} (hg : ev.Guard b d)
    (hc : ev.CodeFits) (hs : ∀ n, ev ≠ .seq n) (hm : ∀ n, ev ≠ .map n) :
    visitValue b ev d = .ok (v, r) ↔
      ∃ t : Tree, ev = t.event ∧ d = t.tail ++ r ∧ t.Ok b ∧ some t = some v := by
  obtain ⟨t, rfl, ht, hok⟩ := scalar hg hc hs hm
  have hvis : visitValue b t.event d = .ok (t, d) := by
    cases t with
    | array xs => exact absurd rfl (hs _)
    | map kvs => exact absurd rfl (hm _)
    | _ => rw [Tree.event, visitValue]
  rw [hvis, Except.ok.injEq, Prod.mk.injEq]
  constructor
  · rintro ⟨rfl, rfl⟩; exact ⟨t, rfl, by rw [ht, List.nil_append], hok, rfl⟩
  · rintro ⟨t', he, rfl, -, ⟨⟩⟩
    have : t = v := by
      cases t with
      | array xs => exact absurd rfl (hs _)
      | map kvs => exact absurd rfl (hm _)
      | _ => cases v <;> cases he; rfl
    subst this
    exact ⟨rfl, by rw [ht, List.nil_append]⟩

theorem value_next {b : Nat} (ih : ValueLaw b) (d : Bytes) (v : Tree) (r : Bytes) :
    (do let (ev, d) ← deserializeOne b d; visitValue b ev d) = .ok (v, r) ↔
      ∃ t, d = wire t ++ r ∧ t.Ok b ∧ some t = some v := by
  have hv : (Source.bin b d).Valid := trivial
  have := @visit_law _ _ hv (visitValue b) some v r fun ev d hg hc => ih hg hc
  simp only [Source.Reads, and_assoc] at this
  exact this

theorem visitValue_law (b : Nat) : ValueLaw b := by
  induction b with
  | zero =>
    intro ev d v r hg hc
    cases ev with
    | seq n => exact absurd hg.1 (lt_irrefl 0)
    | map n => exact absurd hg.1 (lt_irrefl 0)
    | _ => exact visitValue_scalar hg hc (fun _ h => nomatch h) (fun _ h => nomatch h)
  | succ b ih =>
    intro ev d v r hg hc
    cases ev with
    | seq n =>
      simp only [visitValue, bind_ok, Prod.exists, Except.ok.injEq, Prod.mk.injEq,
        seqLoop_iff (f := some) (value_next ih), mapM_some, Option.some.injEq]
      constructor
      · rintro ⟨vs, d', ⟨ts, rfl, rfl, hall, rfl⟩, rfl, rfl⟩
        exact ⟨.array ts, rfl, rfl, Tree.ok_array.mpr ⟨hg.1, hg.2.1, hall⟩, rfl⟩
      · rintro ⟨t, he, rfl, hok, rfl⟩
        cases t <;> cases he
        next xs =>
        obtain ⟨-, -, hall⟩ := Tree.ok_array.mp hok
        exact ⟨xs, r, ⟨xs, rfl, rfl, hall, rfl⟩, rfl, rfl⟩
    | map n =>
      have hentry : ofEntry some = some (α := String × Tree) := funext fun kv => rfl
      simp only [visitValue, bind_ok, Prod.exists, Except.ok.injEq, Prod.mk.injEq,
        mapLoop_start (f := some) (value_next ih), hentry, mapM_some, Option.some.injEq]
      constructor
      · rintro ⟨vs, d', ⟨es, rfl, rfl, hall, hs, rfl⟩, rfl, rfl⟩
        exact ⟨.map es, rfl, rfl, Tree.ok_map.mpr ⟨hg.1, hg.2.1, hs, hall⟩, rfl⟩
      · rintro ⟨t, he, rfl, hok, rfl⟩
        cases t <;> cases he
        next kvs =>
        obtain ⟨-, -, hs, hall⟩ := Tree.ok_map.mp hok
        exact ⟨kvs, r, ⟨kvs, rfl, rfl, hall, hs, rfl⟩, rfl, rfl⟩
    | _ => exact visitValue_scalar hg hc (fun _ h => nomatch h) (fun _ h => nomatch h)

/-! ## Every type -/

/-- The decoder of a type reads a tree and converts it. -/
def Law (ty : Ty) : Prop := ∀ (src : Source), src.Valid → ∀ {v : ty.den} {rest : Bytes},
  ty.codec.decode src = .ok (v, rest) ↔ ∃ t, src.Reads t rest ∧ ty.ofTree src.origin t = some v

theorem law_value : Law .value := by
  intro src hv v rest
  exact visit_law hv (visitValue src.budget) some fun ev d hg hc => visitValue_law _ hg hc

/-- On the wire the decoder of `ty` reads one tree. -/
theorem Law.bin {ty : Ty} (h : Law ty) (b : Nat) (d : Bytes) (v : ty.den) (r : Bytes) :
    ty.codec.decode (.bin b d) = .ok (v, r) ↔
      ∃ t, d = wire t ++ r ∧ t.Ok b ∧ ty.ofTree .stream t = some v := by
  rw [h (.bin b d) trivial]
  simp only [Source.Reads, and_assoc, Source.origin]

theorem ofOption_of_ne {α : Type} {f : Origin → Tree → Option α} {o : Origin} {t : Tree}
    (h : t.event ≠ .null) : ofOption f o t = some <$> f .seen t := by
  cases t with
  | null => exact absurd rfl h
  | _ => rfl

theorem ofVec_array {α : Type} {f : Origin → Tree → Option α} {o : Origin} {t : Tree} {v : List α}
    (h : ofVec f o t = some v) : ∃ xs, t = .array xs := by
  cases t with
  | array xs => exact ⟨xs, rfl⟩
  | _ => cases h

theorem ofMap_map {α : Type} {f : Origin → Tree → Option α} {o : Origin} {t : Tree}
    {v : List (String × α)} (h : ofMap f o t = some v) : ∃ kvs, t = .map kvs := by
  cases t with
  | map kvs => exact ⟨kvs, rfl⟩
  | _ => cases h

theorem map_fst_ok {α β : Type} {x : Except DecodeError (α × Bytes)} {f : α → β} {v : β} {r : Bytes} :
    ((fun p => (f p.1, p.2)) <$> x) = .ok (v, r) ↔ ∃ a, x = .ok (a, r) ∧ f a = v := by
  simp only [map_ok, Prod.exists, Prod.mk.injEq]
  constructor
  · rintro ⟨a, d, h, rfl, rfl⟩; exact ⟨a, h, rfl⟩
  · rintro ⟨a, h, rfl⟩; exact ⟨a, r, h, rfl, rfl⟩

/-- The visitor of `Option<T>`: null, or the event handed on. -/
theorem visitOption_law {ty : Ty} (ih : Law ty) {b : Nat} {ev : Event} {d : Bytes}
    {v : Option ty.den} {r : Bytes} (hg : ev.Guard b d) (hc : ev.CodeFits) (hn : ev ≠ .null) :
    (fun p => (some p.1, p.2)) <$> ty.codec.decode (.wrap b ev d) = .ok (v, r) ↔
      ∃ t : Tree, ev = t.event ∧ d = t.tail ++ r ∧ t.Ok b ∧ ofOption ty.ofTree .seen t = some v := by
  rw [map_fst_ok]
  simp only [ih (.wrap b ev d) ⟨hg, hc⟩, Source.Reads, Source.origin]
  constructor
  · rintro ⟨a, ⟨t, ⟨rfl, rfl, hok⟩, hf⟩, rfl⟩
    exact ⟨t, rfl, rfl, hok, by rw [ofOption_of_ne hn, hf]; rfl⟩
  · rintro ⟨t, rfl, rfl, hok, hf⟩
    rw [ofOption_of_ne hn, Option.map_eq_map, Option.map_eq_some_iff] at hf
    obtain ⟨a, hf, rfl⟩ := hf
    exact ⟨a, ⟨t, ⟨rfl, rfl, hok⟩, hf⟩, rfl⟩

/-- What the visitor of `Option<T>` does with an event. -/
def onOption (t : Decode α) (b : Nat) (ev : Event) (d : Bytes) : Except DecodeError (Option α × Bytes) :=
  match ev with
  | .null => .ok (none, d)
  | ev => (fun p => (some p.1, p.2)) <$> t.decode (.wrap b ev d)

def onVec (t : Decode α) (b : Nat) (ev : Event) (d : Bytes) : Except DecodeError (List α × Bytes) :=
  match ev with
  | .seq len => seqLoop (fun d => t.decode (.bin (b - 1) d)) len d
  | ev => .error (.unexpectedKind ev.kind)

def onMap (t : Decode α) (b : Nat) (ev : Event) (d : Bytes) :
    Except DecodeError (List (String × α) × Bytes) :=
  match ev with
  | .map len => mapLoop (fun d => t.decode (.bin (b - 1) d)) len none [] d
  | ev => .error (.unexpectedKind ev.kind)

theorem law_option {ty : Ty} (ih : Law ty) : Law (.option ty) := by
  intro src hv v rest
  have horigin : Ty.ofTree (.option ty) src.origin = ofOption ty.ofTree .seen := by
    funext t; cases t <;> rfl
  rw [horigin]
  refine visit_law hv (onOption ty.codec src.budget) (ofOption ty.ofTree .seen) fun ev d hg hc => ?_
  cases ev with
  | null =>
    constructor
    · intro h
      cases h
      exact ⟨.null, rfl, rfl, ⟨Nat.zero_le _, trivial, trivial⟩, rfl⟩
    · rintro ⟨t, he, rfl, -, hf⟩
      cases t <;> cases he
      cases hf; rfl
  | _ => exact visitOption_law ih hg hc (by intro h; cases h)

theorem law_vec {ty : Ty} (ih : Law ty) : Law (.vec ty) := by
  intro src hv v rest
  refine visit_law hv (onVec ty.codec src.budget) (ofVec ty.ofTree src.origin) fun ev d hg hc => ?_
  cases ev with
  | seq len =>
    refine (seqLoop_iff (ih.bin (src.budget - 1))).trans ?_
    constructor
    · rintro ⟨ts, rfl, rfl, hall, hm⟩
      exact ⟨.array ts, rfl, rfl, Tree.ok_array.mpr ⟨hg.1, hg.2.1, hall⟩, hm⟩
    · rintro ⟨t, he, rfl, hok, hm⟩
      cases t <;> cases he
      next xs => exact ⟨xs, rfl, rfl, (Tree.ok_array.mp hok).2.2, hm⟩
  | _ =>
    constructor
    · intro h
      cases h
    · rintro ⟨t, he, -, -, hm⟩
      obtain ⟨xs, rfl⟩ := ofVec_array hm
      cases he

theorem law_btreemap {ty : Ty} (ih : Law ty) : Law (.btreemap ty) := by
  intro src hv v rest
  refine visit_law hv (onMap ty.codec src.budget) (ofMap ty.ofTree src.origin) fun ev d hg hc => ?_
  cases ev with
  | map len =>
    refine (mapLoop_start (ih.bin (src.budget - 1))).trans ?_
    constructor
    · rintro ⟨es, rfl, rfl, hall, hs, hm⟩
      exact ⟨.map es, rfl, rfl, Tree.ok_map.mpr ⟨hg.1, hg.2.1, hs, hall⟩, hm⟩
    · rintro ⟨t, he, rfl, hok, hm⟩
      cases t <;> cases he
      next kvs =>
      obtain ⟨-, -, hs, hall⟩ := Tree.ok_map.mp hok
      exact ⟨kvs, rfl, rfl, hall, hs, hm⟩
  | _ =>
    constructor
    · intro h
      cases h
    · rintro ⟨t, he, -, -, hm⟩
      obtain ⟨kvs, rfl⟩ := ofMap_map hm
      cases he

/-- On the wire, deferring keeps exactly the bytes of the tree it validated. -/
theorem deserializeMaybe_bin {ty : Ty} (ih : Law ty) {b : Nat} {d : Bytes} {m : Maybe ty.den}
    {r : Bytes} :
    deserializeMaybe ty.codec (.bin b d) = .ok (m, r) ↔
      ∃ t, d = wire t ++ r ∧ t.Ok b ∧ (∃ v, ty.ofTree .stream t = some v) ∧ m = .checked (wire t) := by
  simp only [deserializeMaybe, validate_eq, bind_ok, forget, map_ok, Prod.exists, ih.bin,
    Except.ok.injEq, Prod.mk.injEq]
  constructor
  · rintro ⟨_, d', ⟨v, r', ⟨t, rfl, hok, hf⟩, -, rfl⟩, rfl, rfl⟩
    exact ⟨t, rfl, hok, ⟨v, hf⟩, by simp⟩
  · rintro ⟨t, rfl, hok, ⟨v, hf⟩, rfl⟩
    exact ⟨(), r, ⟨v, r, ⟨t, rfl, hok, hf⟩, trivial, rfl⟩, by simp, rfl⟩

theorem law_maybe {ty : Ty} (ih : Law ty) : Law (.maybe ty) := by
  intro src hv v rest
  cases src with
  | bin b d =>
    refine (deserializeMaybe_bin ih).trans ?_
    constructor
    · rintro ⟨t, h1, h2, ⟨v', hf⟩, rfl⟩
      exact ⟨t, ⟨h1, h2⟩, Option.map_eq_some_iff.mpr ⟨v', hf, rfl⟩⟩
    · rintro ⟨t, ⟨h1, h2⟩, hm⟩
      obtain ⟨v', hf, rfl⟩ := Option.map_eq_some_iff.mp hm
      exact ⟨t, h1, h2, ⟨v', hf⟩, rfl⟩
  | wrap b ev d =>
    refine (map_fst_ok (x := ty.codec.decode (.wrap b ev d))).trans ?_
    simp only [ih (.wrap b ev d) hv]
    constructor
    · rintro ⟨a, ⟨t, hr, hf⟩, rfl⟩
      exact ⟨t, hr, Option.map_eq_some_iff.mpr ⟨a, hf, rfl⟩⟩
    · rintro ⟨t, hr, hm⟩
      obtain ⟨a, hf, rfl⟩ := Option.map_eq_some_iff.mp hm
      exact ⟨a, ⟨t, hr, hf⟩, rfl⟩

theorem law_raw : Law .raw := by
  intro src hv v rest
  refine bind_ok.trans ?_
  cases src with
  | bin b d =>
    simp only [Prod.exists]
    constructor
    · rintro ⟨m, r, hm, h⟩
      obtain ⟨t, rfl, hok, -, rfl⟩ := (deserializeMaybe_bin law_value).mp hm
      cases h
      exact ⟨t, ⟨rfl, hok⟩, rfl⟩
    · rintro ⟨t, ⟨rfl, hok⟩, hf⟩
      cases hf
      exact ⟨_, _, (deserializeMaybe_bin law_value).mpr ⟨t, rfl, hok, ⟨t, rfl⟩, rfl⟩, rfl⟩
  | wrap b ev d =>
    simp only [Prod.exists]
    constructor
    · rintro ⟨m, r, hm, h⟩
      obtain ⟨t, ht, rfl⟩ := map_fst_ok.mp hm
      obtain ⟨t', hr, hf⟩ := (law_value _ hv).mp ht
      cases h
      obtain rfl : t' = t := Option.some.inj hf
      exact ⟨t', hr, by rw [encode_eq_wire]; rfl⟩
    · rintro ⟨t, hr, hf⟩
      cases hf
      refine ⟨_, _, map_fst_ok.mpr ⟨t, (law_value _ hv).mpr ⟨t, hr, rfl⟩, rfl⟩, ?_⟩
      exact congrArg (fun b => Except.ok (b, rest)) (encode_eq_wire t)

/-- **What a type reads.** -/
theorem law (ty : Ty) : Law ty := by
  induction ty with
  | bool => exact fun _ hv => leaf_law hv nofun nofun
  | int k => exact fun _ hv => leaf_law hv nofun nofun
  | string => exact fun _ hv => leaf_law hv nofun nofun
  | bytes => exact fun _ hv => leaf_law hv nofun nofun
  | bigint => exact fun _ hv => leaf_law hv nofun nofun
  | u256 => exact fun _ hv => leaf_law hv nofun nofun
  | address => exact fun _ hv => leaf_law hv nofun nofun
  | value => exact law_value
  | raw => exact law_raw
  | option t ih => exact law_option ih
  | vec t ih => exact law_vec ih
  | btreemap t ih => exact law_btreemap ih
  | box t ih | arc t ih | rc t ih => exact ih
  | maybe t ih => exact law_maybe ih

/-! ## The readers agree -/

theorem decodeObj_iff {ty : Ty} {data : Bytes} {v : ty.den} :
    decodeObj ty.codec data = .ok v ↔ ∃ t, data = wire t ∧ t.Ok 128 ∧ ty.ofTree .stream t = some v := by
  unfold decodeObj
  simp only [bind_ok, Prod.exists, Law.bin (law ty)]
  constructor
  · rintro ⟨v', r, ⟨t, rfl, hok, hf⟩, h⟩
    split at h
    · cases h
    · next hr =>
      cases h
      rw [not_not] at hr; subst hr
      exact ⟨t, List.append_nil _, hok, hf⟩
  · rintro ⟨t, rfl, hok, hf⟩
    exact ⟨v, [], ⟨t, (List.append_nil _).symm, hok, hf⟩, by simp⟩

theorem decodeObj_value_iff {data : Bytes} {v : Tree} :
    decodeObj Decode.value data = .ok v ↔ decode data = .ok v := by
  refine (@decodeObj_iff .value data v).trans ?_
  rw [decode_iff]
  constructor
  · rintro ⟨t, rfl, hok, hf⟩
    obtain rfl : t = v := Option.some.inj hf
    exact ⟨rfl, hok⟩
  · rintro ⟨rfl, hok⟩; exact ⟨v, rfl, hok, rfl⟩

/-- A deferred field holds the bytes of what an eager decode reads, and gives it later. -/
theorem maybe_iff (ty : Ty) (depth : Nat) (data : Bytes) (m : Maybe ty.den) (rest : Bytes) :
    deserializeMaybe ty.codec (.bin (128 - depth) data) = .ok (m, rest) ↔
      ∃ v raw, m = .checked raw ∧ data = raw ++ rest ∧
        ty.codec.decode (.bin (128 - depth) data) = .ok (v, rest) ∧ m.materialize ty.codec = .ok v := by
  rw [deserializeMaybe_bin (law ty)]
  simp only [Law.bin (law ty)]
  constructor
  · rintro ⟨t, rfl, hok, ⟨v, hf⟩, rfl⟩
    exact ⟨v, wire t, rfl, rfl, ⟨t, rfl, hok, hf⟩,
      decodeObj_iff.mpr ⟨t, rfl, hok.mono (Nat.sub_le _ _), hf⟩⟩
  · rintro ⟨v, raw, rfl, rfl, ⟨t, he, hok, hf⟩, -⟩
    obtain rfl : raw = wire t := List.append_cancel_right he
    exact ⟨t, rfl, hok, ⟨v, hf⟩, rfl⟩

/-- **The readers agree.** The trait decoder of `Value` accepts what the
iterative decoder accepts; validation at any type is decoding without the value;
and a deferred value, at any depth of a message, is the bytes an eager decode
reads there and materializes to what it gives. -/
theorem readers_agree :
    (∀ (data : Bytes) (v : Tree), decodeObj Decode.value data = .ok v ↔ decode data = .ok v) ∧
    (∀ (ty : Ty) (src : Source), ty.codec.validate src = forget (ty.codec.decode src)) ∧
    (∀ (ty : Ty) (depth : Nat) (data : Bytes) (m : Maybe ty.den) (rest : Bytes),
      (Ty.maybe ty).codec.decode (.bin (128 - depth) data) = .ok (m, rest) ↔
        ∃ v raw, m = .checked raw ∧ data = raw ++ rest ∧
          ty.codec.decode (.bin (128 - depth) data) = .ok (v, rest) ∧ m.materialize ty.codec = .ok v) ∧
    (∀ (depth : Nat) (data raw rest : Bytes),
      Ty.raw.codec.decode (.bin (128 - depth) data) = .ok (raw, rest) ↔
        ∃ v, data = raw ++ rest ∧ Ty.value.codec.decode (.bin (128 - depth) data) = .ok (v, rest) ∧
          decodeObj Ty.value.codec raw = .ok v) := by
  refine ⟨fun _ _ => decodeObj_value_iff, validate_eq, maybe_iff, ?_⟩
  intro depth data raw rest
  refine (Law.bin (law .raw) _ data raw rest).trans ?_
  simp only [Law.bin (law .value), decodeObj_iff]
  constructor
  · rintro ⟨t, rfl, hok, hf⟩
    obtain rfl : wire t = raw := Option.some.inj hf
    exact ⟨t, rfl, ⟨t, rfl, hok, rfl⟩, t, rfl, hok.mono (Nat.sub_le _ _), rfl⟩
  · rintro ⟨v, rfl, ⟨t, he, hok, hf⟩, -⟩
    obtain rfl : raw = wire t := List.append_cancel_right he
    exact ⟨t, rfl, hok, rfl⟩

end GenVM.Calldata
