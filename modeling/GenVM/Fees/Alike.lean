import Mathlib
import GenVM.Fees.Expr

/-!
# Values of the two runs side by side

`N` says what each thunk in memory stands for: a suspended expression of the run
by name. `Alike N` is the relation between a value with thunks in memory and a
value by name that this gives, and `Sim N` the relation between two programs
that ask for the same things. What `eval` does is the same on both sides
(`evalBody_sim`, `apply_sim`), and both relations are kept when memory grows.
-/
namespace GenVM.FeeExpr

abbrev Names := List Closure

/-- Thunks keep what they stand for. -/
def Names.Grows (N M : Names) : Prop := ∀ (a : Nat) (c : Closure), N[a]? = some c → M[a]? = some c

theorem Names.Grows.refl (N : Names) : N.Grows N := fun _ _ h => h

theorem Names.Grows.trans {N M K : Names} (h : N.Grows M) (h' : M.Grows K) : N.Grows K :=
  fun a c hc => h' a c (h a c hc)

theorem Names.grows_append (N M : Names) : N.Grows (N ++ M) := by
  intro a c h
  have ha : a < N.length := (List.getElem?_eq_some_iff.mp h).1
  rw [List.getElem?_append_left ha]
  exact h

/-- The same variables, each bound to a thunk and to what it stands for. -/
def EnvAlike (N : Names) : Env Nat → Env Closure → Prop
  | [], env' => env' = []
  | (x, a) :: env, env' => ∃ c env'', env' = (x, c) :: env'' ∧ N[a]? = some c ∧ EnvAlike N env env''

mutual

def Alike (N : Names) : Value Nat → Value Closure → Prop
  | .rational r, v => v = .rational r
  | .bool b, v => v = .bool b
  | .hostFn b, v => v = .hostFn b
  | .hasKeyOf keys, v => v = .hasKeyOf keys
  | .arrayGetElemOf elems, v => ∃ elems', v = .arrayGetElemOf elems' ∧ Alikes N elems elems'
  | .powOf base, v => v = .powOf base
  | .guestFn name body env, v => ∃ env', v = .guestFn name body env' ∧ EnvAlike N env env'
  | .array elems, v => ∃ elems', v = .array elems' ∧ Alikes N elems elems'
  | .str s, v => v = .str s
  | .object fields, v => ∃ fields', v = .object fields' ∧ FieldsAlike N fields fields'

def Alikes (N : Names) : List (Value Nat) → List (Value Closure) → Prop
  | [], vs => vs = []
  | u :: us, vs => ∃ v vs', vs = v :: vs' ∧ Alike N u v ∧ Alikes N us vs'

def FieldsAlike (N : Names) : List (String × Value Nat) → List (String × Value Closure) → Prop
  | [], fields => fields = []
  | (k, u) :: us, fields => ∃ v vs', fields = (k, v) :: vs' ∧ Alike N u v ∧ FieldsAlike N us vs'

end

/-! ## Growing memory -/

theorem EnvAlike.grow {N M : Names} (g : N.Grows M) :
    ∀ {env : Env Nat} {env' : Env Closure}, EnvAlike N env env' → EnvAlike M env env'
  | [], _, h => h
  | _ :: _, _, ⟨c, env'', he, ha, h⟩ => ⟨c, env'', he, g _ _ ha, EnvAlike.grow g h⟩

mutual

theorem Alike.grow {N M : Names} (g : N.Grows M) :
    ∀ {u : Value Nat} {v : Value Closure}, Alike N u v → Alike M u v
  | .rational _, _, h => h
  | .bool _, _, h => h
  | .hostFn _, _, h => h
  | .hasKeyOf _, _, h => h
  | .arrayGetElemOf _, _, ⟨elems', he, h⟩ => ⟨elems', he, Alikes.grow g h⟩
  | .powOf _, _, h => h
  | .guestFn _ _ _, _, ⟨env', he, h⟩ => ⟨env', he, EnvAlike.grow g h⟩
  | .array _, _, ⟨elems', he, h⟩ => ⟨elems', he, Alikes.grow g h⟩
  | .str _, _, h => h
  | .object _, _, ⟨fields', he, h⟩ => ⟨fields', he, FieldsAlike.grow g h⟩

theorem Alikes.grow {N M : Names} (g : N.Grows M) :
    ∀ {us : List (Value Nat)} {vs : List (Value Closure)}, Alikes N us vs → Alikes M us vs
  | [], _, h => h
  | _ :: _, _, ⟨v, vs', he, hu, h⟩ => ⟨v, vs', he, Alike.grow g hu, Alikes.grow g h⟩

theorem FieldsAlike.grow {N M : Names} (g : N.Grows M) :
    ∀ {us : List (String × Value Nat)} {vs : List (String × Value Closure)},
      FieldsAlike N us vs → FieldsAlike M us vs
  | [], _, h => h
  | (_, _) :: _, _, ⟨v, vs', he, hu, h⟩ => ⟨v, vs', he, Alike.grow g hu, FieldsAlike.grow g h⟩

end

/-! ## Values without thunks -/

mutual

theorem alike_lift (N : Names) : ∀ d : Value Empty, Alike N d.lift d.lift
  | .rational _ => rfl
  | .bool _ => rfl
  | .hostFn _ => rfl
  | .hasKeyOf _ => rfl
  | .arrayGetElemOf elems => ⟨_, rfl, alikes_lifts N elems⟩
  | .powOf _ => rfl
  | .guestFn _ _ _ => ⟨_, rfl, rfl⟩
  | .array elems => ⟨_, rfl, alikes_lifts N elems⟩
  | .str _ => rfl
  | .object fields => ⟨_, rfl, fieldsAlike_lift N fields⟩

theorem alikes_lifts (N : Names) : ∀ ds : List (Value Empty), Alikes N (Value.lifts ds) (Value.lifts ds)
  | [] => rfl
  | d :: ds => ⟨_, _, rfl, alike_lift N d, alikes_lifts N ds⟩

theorem fieldsAlike_lift (N : Names) : ∀ ds : List (String × Value Empty),
    FieldsAlike N (Value.liftFields ds) (Value.liftFields ds)
  | [] => rfl
  | (_, d) :: ds => ⟨_, _, rfl, alike_lift N d, fieldsAlike_lift N ds⟩

end

mutual

/-- Only one value by name is alike to a value without thunks. -/
theorem eq_of_alike_lift (N : Names) : ∀ {d : Value Empty} {v : Value Closure},
    Alike N d.lift v → v = d.lift
  | .rational _, _, h => h
  | .bool _, _, h => h
  | .hostFn _, _, h => h
  | .hasKeyOf _, _, h => h
  | .arrayGetElemOf elems, _, ⟨_, he, h⟩ => by rw [he, eq_of_alikes_lifts N h]; rfl
  | .powOf _, _, h => h
  | .guestFn _ _ _, _, ⟨_, he, h⟩ => by rw [he, show _ = [] from h]; rfl
  | .array elems, _, ⟨_, he, h⟩ => by rw [he, eq_of_alikes_lifts N h]; rfl
  | .str _, _, h => h
  | .object fields, _, ⟨_, he, h⟩ => by rw [he, eq_of_fieldsAlike_lift N h]; rfl

theorem eq_of_alikes_lifts (N : Names) : ∀ {ds : List (Value Empty)} {vs : List (Value Closure)},
    Alikes N (Value.lifts ds) vs → vs = Value.lifts ds
  | [], _, h => h
  | _ :: _, _, ⟨_, _, he, hd, h⟩ => by
    rw [he, eq_of_alike_lift N hd, eq_of_alikes_lifts N h]; rfl

theorem eq_of_fieldsAlike_lift (N : Names) :
    ∀ {ds : List (String × Value Empty)} {vs : List (String × Value Closure)},
      FieldsAlike N (Value.liftFields ds) vs → vs = Value.liftFields ds
  | [], _, h => h
  | (_, _) :: _, _, ⟨_, _, he, hd, h⟩ => by
    rw [he, eq_of_alike_lift N hd, eq_of_fieldsAlike_lift N h]; rfl

end

mutual

/-- Only one value in memory is alike to a value without thunks. -/
theorem eq_lift_of_alike (N : Names) : ∀ {u : Value Nat} {d : Value Empty}, Alike N u d.lift → u = d.lift
  | .rational _, d, h => by cases d <;> cases h; rfl
  | .bool _, d, h => by cases d <;> cases h; rfl
  | .hostFn _, d, h => by cases d <;> cases h; rfl
  | .hasKeyOf _, d, h => by cases d <;> cases h; rfl
  | .arrayGetElemOf _, d, ⟨_, he, h⟩ => by
    cases d <;> cases he
    rw [eq_lifts_of_alikes N h]; rfl
  | .powOf _, d, h => by cases d <;> cases h; rfl
  | .guestFn _ _ env, d, ⟨_, he, h⟩ => by
    cases d <;> cases he
    cases env with
    | nil => rfl
    | cons _ _ => obtain ⟨_, _, hn, _⟩ := h; cases hn
  | .array _, d, ⟨_, he, h⟩ => by
    cases d <;> cases he
    rw [eq_lifts_of_alikes N h]; rfl
  | .str _, d, h => by cases d <;> cases h; rfl
  | .object _, d, ⟨_, he, h⟩ => by
    cases d <;> cases he
    rw [eq_liftFields_of_alike N h]; rfl

theorem eq_lifts_of_alikes (N : Names) : ∀ {us : List (Value Nat)} {ds : List (Value Empty)},
    Alikes N us (Value.lifts ds) → us = Value.lifts ds
  | [], [], _ => rfl
  | [], _ :: _, h => nomatch h
  | _ :: _, [], ⟨_, _, he, _⟩ => nomatch he
  | _ :: _, _ :: _, ⟨_, _, he, hu, h⟩ => by
    cases he
    rw [eq_lift_of_alike N hu, eq_lifts_of_alikes N h]; rfl

theorem eq_liftFields_of_alike (N : Names) :
    ∀ {us : List (String × Value Nat)} {ds : List (String × Value Empty)},
      FieldsAlike N us (Value.liftFields ds) → us = Value.liftFields ds
  | [], [], _ => rfl
  | [], (_, _) :: _, h => nomatch h
  | (_, _) :: _, [], ⟨_, _, he, _⟩ => nomatch he
  | (_, _) :: _, (_, _) :: _, ⟨_, _, he, hu, h⟩ => by
    cases he
    rw [eq_lift_of_alike N hu, eq_liftFields_of_alike N h]; rfl

end

/-! ## What is read off a value -/

variable {N : Names} {u : Value Nat} {v : Value Closure}

theorem Alike.typ (h : Alike N u v) : u.typ = v.typ := by
  cases u with
  | arrayGetElemOf | guestFn | array | object => obtain ⟨_, rfl, _⟩ := h; rfl
  | _ => cases h; rfl

theorem Alike.as_str (h : Alike N u v) : u.as_str = v.as_str := by
  cases u with
  | arrayGetElemOf | guestFn | array | object => obtain ⟨_, rfl, _⟩ := h; rfl
  | _ => cases h; rfl

theorem Alike.into_rational (h : Alike N u v) : u.into_rational = v.into_rational := by
  cases u with
  | arrayGetElemOf | guestFn | array | object => obtain ⟨_, rfl, _⟩ := h; rfl
  | _ => cases h; rfl

theorem Alike.is_truthy (h : Alike N u v) : u.is_truthy = v.is_truthy := by
  cases u with
  | arrayGetElemOf | guestFn | array | object => obtain ⟨_, rfl, _⟩ := h; rfl
  | _ => cases h; rfl

theorem FieldsAlike.keys : ∀ {us : List (String × Value Nat)} {vs : List (String × Value Closure)},
    FieldsAlike N us vs → us.map Prod.fst = vs.map Prod.fst
  | [], _, h => by rw [show _ = [] from h]; rfl
  | (_, _) :: _, _, ⟨_, _, he, _, h⟩ => by
    rw [he, List.map_cons, List.map_cons, FieldsAlike.keys h]

mutual

theorem Alike.text : ∀ {u : Value Nat} {v : Value Closure}, Alike N u v → u.text = v.text
  | .rational _, _, h => by cases h; rfl
  | .bool _, _, h => by cases h; rfl
  | .hostFn _, _, h => by cases h; rfl
  | .hasKeyOf _, _, h => by cases h; rfl
  | .arrayGetElemOf _, _, ⟨_, he, _⟩ => by cases he; rfl
  | .powOf _, _, h => by cases h; rfl
  | .guestFn _ _ _, _, ⟨_, he, _⟩ => by cases he; rfl
  | .array _, _, ⟨_, he, h⟩ => by
    rw [he, Value.text, Value.text, Alikes.texts h]
  | .str _, _, h => by cases h; rfl
  | .object _, _, ⟨_, he, h⟩ => by
    rw [he, Value.text, Value.text, FieldsAlike.fieldsText h]

theorem Alikes.texts : ∀ {us : List (Value Nat)} {vs : List (Value Closure)},
    Alikes N us vs → Value.texts us = Value.texts vs
  | [], _, h => by rw [show _ = [] from h]; rfl
  | _ :: _, _, ⟨_, _, he, hu, h⟩ => by
    rw [he, Value.texts, Value.texts, Alike.text hu, Alikes.texts h]

theorem FieldsAlike.fieldsText :
    ∀ {us : List (String × Value Nat)} {vs : List (String × Value Closure)},
      FieldsAlike N us vs → Value.fieldsText us = Value.fieldsText vs
  | [], _, h => by rw [show _ = [] from h]; rfl
  | (_, _) :: _, _, ⟨_, _, he, hu, h⟩ => by
    rw [he, Value.fieldsText, Value.fieldsText, Alike.text hu, FieldsAlike.fieldsText h]

end

theorem Alikes.length : ∀ {us : List (Value Nat)} {vs : List (Value Closure)},
    Alikes N us vs → us.length = vs.length
  | [], _, h => by rw [show _ = [] from h]; rfl
  | _ :: _, _, ⟨_, _, he, _, h⟩ => by rw [he, List.length_cons, List.length_cons, Alikes.length h]

theorem Alikes.append : ∀ {us us' : List (Value Nat)} {vs vs' : List (Value Closure)},
    Alikes N us vs → Alikes N us' vs' → Alikes N (us ++ us') (vs ++ vs')
  | [], _, _, _, h, h' => by rw [show _ = [] from h]; exact h'
  | _ :: _, _, _, _, ⟨_, _, he, hu, h⟩, h' => by
    rw [he]; exact ⟨_, _, rfl, hu, Alikes.append h h'⟩

theorem Alikes.reverse : ∀ {us : List (Value Nat)} {vs : List (Value Closure)},
    Alikes N us vs → Alikes N us.reverse vs.reverse
  | [], _, h => by rw [show _ = [] from h]; rfl
  | _ :: _, _, ⟨_, _, he, hu, h⟩ => by
    rw [he, List.reverse_cons, List.reverse_cons]
    exact Alikes.append (Alikes.reverse h) ⟨_, _, rfl, hu, rfl⟩

/-- The same success, with values that are alike. -/
def OptAlike (N : Names) : Option (Value Nat) → Option (Value Closure) → Prop
  | some u, some v => Alike N u v
  | none, none => True
  | _, _ => False

theorem Alikes.getElem? : ∀ {us : List (Value Nat)} {vs : List (Value Closure)},
    Alikes N us vs → ∀ i : Nat, OptAlike N us[i]? vs[i]?
  | [], _, h, i => by rw [show _ = [] from h]; exact trivial
  | _ :: _, _, ⟨_, _, he, hu, _⟩, 0 => by rw [he]; exact hu
  | _ :: _, _, ⟨_, _, he, _, h⟩, i + 1 => by
    rw [he, List.getElem?_cons_succ, List.getElem?_cons_succ]
    exact Alikes.getElem? h i

theorem FieldsAlike.keyOf : ∀ {us : List (String × Value Nat)} {vs : List (String × Value Closure)},
    FieldsAlike N us vs → ∀ key, OptAlike N (keyOf us key) (keyOf vs key)
  | [], _, h, key => by rw [show _ = [] from h]; exact trivial
  | (k, _) :: _, _, ⟨_, _, he, hu, h⟩, key => by
    rw [he, FeeExpr.keyOf, FeeExpr.keyOf]
    by_cases hk : key = k
    · rw [if_pos hk, if_pos hk]; exact hu
    · rw [if_neg hk, if_neg hk]; exact FieldsAlike.keyOf h key

theorem FieldsAlike.insertField (hu : Alike N u v) (k : String) :
    ∀ {us : List (String × Value Nat)} {vs : List (String × Value Closure)},
      FieldsAlike N us vs → FieldsAlike N (insertField k u us) (insertField k v vs)
  | [], _, h => by rw [show _ = [] from h]; exact ⟨_, _, rfl, hu, rfl⟩
  | (k', _) :: _, _, ⟨_, _, he, hu', h⟩ => by
    rw [he, FeeExpr.insertField, FeeExpr.insertField]
    by_cases hlt : k < k'
    · rw [if_pos hlt, if_pos hlt]
      exact ⟨_, _, rfl, hu, _, _, rfl, hu', h⟩
    · rw [if_neg hlt, if_neg hlt]
      by_cases hk : k = k'
      · rw [if_pos hk, if_pos hk]
        exact ⟨_, _, rfl, hu, h⟩
      · rw [if_neg hk, if_neg hk]
        exact ⟨_, _, rfl, hu', FieldsAlike.insertField hu k h⟩

/-! ## Operators and builtins -/

/-- Both fail, or both give a value and these are alike. -/
def ResAlike (N : Names) : Res Nat → Res Closure → Prop
  | .ok u, .ok v => Alike N u v
  | .error e, .error e' => e = e'
  | _, _ => False

theorem ok_or_alike {o : Option (Value Nat)} {o' : Option (Value Closure)} (h : OptAlike N o o')
    (e : EvalError) : ResAlike N (ok_or o e) (ok_or o' e) := by
  cases o with
  | none => cases o' with
    | none => rfl
    | some _ => exact h.elim
  | some _ => cases o' with
    | none => exact h.elim
    | some _ => exact h

theorem ResAlike.map {ε : Type} {f : ε → Value Nat} {f' : ε → Value Closure}
    (h : ∀ x, Alike N (f x) (f' x)) (r : Except EvalError ε) : ResAlike N (r.map f) (r.map f') := by
  cases r with
  | error _ => rfl
  | ok x => exact h x

theorem ResAlike.bind {ε : Type} {f : ε → Res Nat} {f' : ε → Res Closure}
    (h : ∀ x, ResAlike N (f x) (f' x)) (r : Except EvalError ε) :
    ResAlike N (r.bind f) (r.bind f') := by
  cases r with
  | error _ => rfl
  | ok x => exact h x

section
variable {l r : Value Nat} {l' r' : Value Closure} (hl : Alike N l l') (hr : Alike N r r')
include hl hr

theorem numbers_alike {f : ℚ → ℚ → Value Nat} {f' : ℚ → ℚ → Value Closure}
    (hf : ∀ a b, Alike N (f a b) (f' a b)) : ResAlike N (numbers l r f) (numbers l' r' f') := by
  unfold numbers
  rw [hl.into_rational, hr.into_rational]
  cases l'.into_rational with
  | error _ => rfl
  | ok a =>
    cases r'.into_rational with
    | error _ => rfl
    | ok b => exact hf a b

theorem divide_alike : ResAlike N (divide l r) (divide l' r') := by
  unfold divide
  rw [hl.into_rational, hr.into_rational]
  cases r'.into_rational with
  | error _ => rfl
  | ok b =>
    by_cases hb : b = 0
    · simp only [hb, if_true]; rfl
    · simp only [hb, if_false]
      cases l'.into_rational with
      | error _ => rfl
      | ok a => rfl

theorem equality_alike (neg : Bool) : ResAlike N (equality l r neg) (equality l' r' neg) := by
  cases l with
  | arrayGetElemOf | guestFn | array | object =>
    obtain ⟨_, rfl, _⟩ := hl
    exact congrArg (EvalError.typeError _) hr.typ
  | bool | rational =>
    cases hl
    cases r with
    | arrayGetElemOf | guestFn | array | object => obtain ⟨_, rfl, _⟩ := hr; rfl
    | _ => cases hr; rfl
  | _ =>
    cases hl
    exact congrArg (EvalError.typeError _) hr.typ

theorem binOp_alike (op : BinOp) : ResAlike N (binOp op l r) (binOp op l' r') := by
  cases op with
  | div => exact divide_alike hl hr
  | eq | ne => exact equality_alike hl hr _
  | _ => exact numbers_alike hl hr fun _ _ => rfl

end

theorem power_alike (base exp : ℚ) : ResAlike N (power base exp) (power base exp) := by
  unfold power
  by_cases hd : exp.den ≠ 1
  · rw [if_pos hd, if_pos hd]; rfl
  rw [if_neg hd, if_neg hd]
  by_cases hn : exp.num.natAbs ≥ 2 ^ 64
  · rw [if_pos hn, if_pos hn]; rfl
  rw [if_neg hn, if_neg hn]
  by_cases hneg : exp.num < 0
  · simp only [hneg, if_true]
    by_cases h0 : base ^ exp.num.natAbs = 0
    · rw [if_pos h0, if_pos h0]; rfl
    · rw [if_neg h0, if_neg h0]; rfl
  · simp only [hneg, if_false]; rfl

theorem elemAt_alike {us : List (Value Nat)} {vs : List (Value Closure)} (h : Alikes N us vs)
    (idx : ℚ) : ResAlike N (elemAt us idx) (elemAt vs idx) := by
  unfold elemAt
  by_cases hi : idx.num.tdiv idx.den < 0 ∨ idx.num.tdiv idx.den ≥ 2 ^ 64
  · simp only [hi, if_true]; rfl
  · simp only [hi, if_false]
    rw [h.length]
    exact ok_or_alike (h.getElem? _) _

theorem builtin_alike (h : Alike N u v) (b : Builtin) : ResAlike N (builtin b u) (builtin b v) := by
  cases b with
  | floor =>
    simp only [builtin]
    rw [h.into_rational]
    exact .map (fun _ => by rfl) _
  | toString => exact congrArg Value.str h.text.symm
  | pow =>
    simp only [builtin]
    rw [h.into_rational]
    exact .map (fun _ => by rfl) _
  | hasKey =>
    cases u with
    | object => obtain ⟨_, rfl, hf⟩ := h; exact congrArg Value.hasKeyOf hf.keys.symm
    | arrayGetElemOf | guestFn | array => obtain ⟨_, rfl, _⟩ := h; rfl
    | _ => cases h; rfl
  | arrayLen =>
    cases u with
    | array =>
      obtain ⟨_, rfl, he⟩ := h
      exact congrArg (fun n : Nat => Value.rational (n : ℚ)) he.length.symm
    | arrayGetElemOf | guestFn | object => obtain ⟨_, rfl, _⟩ := h; rfl
    | _ => cases h; rfl
  | arrayGetElem =>
    cases u with
    | array => obtain ⟨_, rfl, he⟩ := h; exact ⟨_, rfl, he⟩
    | arrayGetElemOf | guestFn | object => obtain ⟨_, rfl, _⟩ := h; rfl
    | _ => cases h; rfl

theorem getField_alike (h : Alike N u v) (key : String) :
    ResAlike N (getField u key) (getField v key) := by
  cases u with
  | object =>
    obtain ⟨_, rfl, hf⟩ := h
    exact ok_or_alike (hf.keyOf key) _
  | arrayGetElemOf | guestFn | array => obtain ⟨_, rfl, _⟩ := h; rfl
  | _ => cases h; rfl

/-! ## Programs -/

/-- The same caller's variables, and bindings that are alike. -/
structure CtxAlike (N : Names) (ctx : EvalContext Nat) (ctx' : EvalContext Closure) : Prop where
  get_var : ctx.get_var = ctx'.get_var
  env : EnvAlike N ctx.let_bindings ctx'.let_bindings

/-- Both programs ask for the same things, with answers that are alike. -/
inductive Sim : Names → Prog Nat → Prog Closure → Prop where
  | ret {N r r'} : ResAlike N r r' → Sim N (.ret r) (.ret r')
  | eval {N e ctx ctx' k k'} : CtxAlike N ctx ctx' →
      (∀ M u v, N.Grows M → Alike M u v → Sim M (k u) (k' v)) →
      Sim N (.eval e ctx k) (.eval e ctx' k')
  | delay {N e ctx ctx' k k'} : CtxAlike N ctx ctx' →
      (∀ M a, N.Grows M → M[a]? = some (.expr e ctx'.get_var ctx'.let_bindings) →
        Sim M (k a) (k' (.expr e ctx'.get_var ctx'.let_bindings))) →
      Sim N (.delay e ctx k) (.delay e ctx' k')
  | force {N a c k k'} : N[a]? = some c →
      (∀ M u v, N.Grows M → Alike M u v → Sim M (k u) (k' v)) →
      Sim N (.force a k) (.force c k')

theorem CtxAlike.grow {M : Names} {ctx : EvalContext Nat} {ctx' : EvalContext Closure}
    (g : N.Grows M) (h : CtxAlike N ctx ctx') : CtxAlike M ctx ctx' :=
  ⟨h.get_var, h.env.grow g⟩

theorem Sim.done (h : Alike N u v) : Sim N (.done u) (.done v) := .ret h

theorem EnvAlike.lookup : ∀ {env : Env Nat} {env' : Env Closure}, EnvAlike N env env' →
    ∀ x, (env.lookup x = none ∧ env'.lookup x = none) ∨
      ∃ a c, env.lookup x = some a ∧ env'.lookup x = some c ∧ N[a]? = some c
  | [], _, h, x => by rw [show _ = [] from h]; exact .inl ⟨rfl, rfl⟩
  | (y, a) :: _, _, ⟨c, _, he, ha, h⟩, x => by
    rw [he, List.lookup_cons, List.lookup_cons]
    cases x == y with
    | true => exact .inr ⟨a, c, rfl, rfl, ha⟩
    | false => exact h.lookup x

theorem evalElems_sim {ctx : EvalContext Nat} {ctx' : EvalContext Closure} (es : List Expr) :
    ∀ {N : Names} {us : List (Value Nat)} {vs : List (Value Closure)}, CtxAlike N ctx ctx' →
      Alikes N us vs → Sim N (evalElems ctx es us) (evalElems ctx' es vs) := by
  induction es with
  | nil => intro N us vs _ h; exact .done ⟨_, rfl, h.reverse⟩
  | cons e es ih =>
    intro N us vs hc h
    exact .eval hc fun M u v g hu => ih (hc.grow g) ⟨_, _, rfl, hu, h.grow g⟩

theorem evalSegs_sim {ctx : EvalContext Nat} {ctx' : EvalContext Closure} (segs : List StrSeg) :
    ∀ {N : Names} (out : String), CtxAlike N ctx ctx' →
      Sim N (evalSegs ctx segs out) (evalSegs ctx' segs out) := by
  induction segs with
  | nil => intro N out _; exact .done rfl
  | cons seg segs ih =>
    intro N out hc
    cases seg with
    | lit s => exact ih _ hc
    | interp e =>
      refine .eval hc fun M u v g hu => ?_
      rw [hu.text]
      exact ih _ (hc.grow g)

theorem evalFields_sim {ctx : EvalContext Nat} {ctx' : EvalContext Closure}
    (fields : List (String × Expr)) :
    ∀ {N : Names} {us : List (String × Value Nat)} {vs : List (String × Value Closure)},
      CtxAlike N ctx ctx' → FieldsAlike N us vs →
      Sim N (evalFields ctx fields us) (evalFields ctx' fields vs) := by
  induction fields with
  | nil => intro N us vs _ h; exact .done ⟨_, rfl, h⟩
  | cons field fields ih =>
    intro N us vs hc h
    exact .eval hc fun M u v g hu => ih (hc.grow g) (.insertField hu _ (h.grow g))

theorem apply_sim {ctx : EvalContext Nat} {ctx' : EvalContext Closure} {a : Nat} {c : Closure}
    (h : Alike N u v) (ha : N[a]? = some c) (hc : CtxAlike N ctx ctx') :
    Sim N (apply u a ctx) (apply v c ctx') := by
  cases u with
  | hostFn b => cases h; exact .force ha fun _ _ _ _ hu => .ret (builtin_alike hu b)
  | hasKeyOf keys =>
    cases h
    refine .force ha fun _ _ _ _ hu => .ret ?_
    rw [hu.as_str]
    exact .map (fun _ => by rfl) _
  | arrayGetElemOf elems =>
    obtain ⟨_, rfl, he⟩ := h
    refine .force ha fun _ _ _ g hu => .ret ?_
    rw [hu.into_rational]
    exact .bind (fun i => elemAt_alike (he.grow g) i) _
  | powOf base =>
    cases h
    refine .force ha fun _ _ _ _ hu => .ret ?_
    rw [hu.into_rational]
    exact .bind (fun i => power_alike base i) _
  | guestFn =>
    obtain ⟨_, rfl, he⟩ := h
    exact .eval ⟨hc.get_var, _, _, rfl, ha, he⟩ fun _ _ _ _ hu => .done hu
  | array | object => obtain ⟨_, rfl, _⟩ := h; exact .ret rfl
  | _ => cases h; exact .ret rfl

theorem ident_sim {ctx : EvalContext Nat} {ctx' : EvalContext Closure} (hc : CtxAlike N ctx ctx')
    (x : String) : Sim N (ident x ctx) (ident x ctx') := by
  unfold ident
  obtain ⟨h, h'⟩ | ⟨a, c, h, h', ha⟩ := hc.env.lookup x
  · rw [h, h', hc.get_var]
    cases resolve_builtin x with
    | none => exact .ret (.map (alike_lift N) _)
    | some b => exact .done rfl
  · rw [h, h']
    exact .force ha fun _ _ _ _ hu => .done hu

theorem branch_sim {ctx : EvalContext Nat} {ctx' : EvalContext Closure} (hc : CtxAlike N ctx ctx')
    (h : Alike N u v) (e e' : Expr) : Sim N (branch u e e' ctx) (branch v e e' ctx') := by
  unfold branch
  rw [h.is_truthy]
  cases v.is_truthy with
  | error _ => exact .ret rfl
  | ok b =>
    cases b with
    | true => exact .eval hc fun _ _ _ _ hu => .done hu
    | false => exact .eval hc fun _ _ _ _ hu => .done hu

/-- What `eval` does depends on the thunks only through what they stand for. -/
theorem evalBody_sim {ctx : EvalContext Nat} {ctx' : EvalContext Closure} (hc : CtxAlike N ctx ctx')
    (e : Expr) : Sim N (evalBody e ctx) (evalBody e ctx') := by
  cases e with
  | const n => exact .done rfl
  | ident x => exact ident_sim hc x
  | unaryMinus e =>
    refine .eval hc fun _ _ _ _ hu => .ret ?_
    rw [hu.into_rational]
    exact .map (fun _ => by rfl) _
  | binOp op lhs rhs =>
    exact .eval hc fun _ _ _ g hl => .eval (hc.grow g) fun _ _ _ g' hr =>
      .ret (binOp_alike (hl.grow g') hr op)
  | letIn x value body =>
    exact .delay hc fun _ _ g ha => .eval ⟨hc.get_var, _, _, rfl, ha, hc.env.grow g⟩
      fun _ _ _ _ hu => .done hu
  | ifElse cond e e' => exact .eval hc fun _ _ _ g hu => branch_sim (hc.grow g) hu e e'
  | lambda x body => exact .done ⟨_, rfl, hc.env⟩
  | apply func arg =>
    exact .eval hc fun _ _ _ g hf => .delay (hc.grow g) fun _ _ g' ha =>
      apply_sim (hf.grow g') ha (hc.grow (g.trans g'))
  | array elems => exact evalElems_sim elems hc rfl
  | str segs => exact evalSegs_sim segs "" hc
  | object fields => exact evalFields_sim fields hc rfl
  | field obj key => exact .eval hc fun _ _ _ _ hu => .ret (getField_alike hu key)

end GenVM.FeeExpr
