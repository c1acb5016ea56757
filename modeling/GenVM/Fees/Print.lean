import GenVM.Fees.Parse

/-!
# Fee expressions as tokens (`executor/crates/common/src/expr/lexer.rs`)

`print` writes a tree as the tokens that parse to it, with parentheses where the
level of the grammar asks for them: a whole expression is level 0, comparison 1,
addition 2, multiplication 3, negation 4, application 5, selection 6 and what
stands alone 7.

**Results.**
* `Parsed`: a tree at a level is parsed up to a token that stops the level.
* `parseTokens_print`: what is written parses to itself.
-/
namespace GenVM.FeeExpr

open GenVM.Lib.Consume

/-! ## Writing -/

def BinOp.prec : BinOp → Nat
  | .lt | .gt | .le | .ge | .eq | .ne => 1
  | .add | .sub => 2
  | .mul | .div => 3

def BinOp.token : BinOp → Token
  | .add => .sym .plus
  | .sub => .sym .minus
  | .mul => .sym .star
  | .div => .sym .slash
  | .lt => .sym .lt
  | .gt => .sym .gt
  | .le => .sym .le
  | .ge => .sym .ge
  | .eq => .sym .eqEq
  | .ne => .sym .ne

/-- The tightest level of the grammar a tree is parsed at. -/
def Expr.prec : Expr → Nat
  | .letIn .. | .ifElse .. | .lambda .. => 0
  | .binOp op _ _ => op.prec
  | .unaryMinus _ => 4
  | .apply _ _ => 5
  | .field _ _ => 6
  | .const _ | .ident _ | .array _ | .str _ | .object _ => 7

/-- The tokens `ts` of `e`, at level `p`. -/
def paren (p : Nat) (e : Expr) (ts : List Token) : List Token :=
  if e.prec < p then .sym .lParen :: (ts ++ [.sym .rParen]) else ts

def keyParts (key : String) : List StrPart := if key = "" then [] else [.lit key]

mutual

def print : Expr → List Token
  | .const n => [.num n]
  | .ident s => [.ident s]
  | .unaryMinus e => .sym .minus :: paren 4 e (print e)
  | .binOp op l r => paren op.prec l (print l) ++ op.token :: paren (op.prec + 1) r (print r)
  | .letIn x value body =>
    .sym .let_ :: .ident x :: .sym .eq :: (print value ++ .sym .in_ :: print body)
  | .ifElse c t e => .sym .if_ :: (print c ++ .sym .then_ :: (print t ++ .sym .else_ :: print e))
  | .lambda x body => .sym .backslash :: .ident x :: .sym .eq :: print body
  | .apply f a => paren 5 f (print f) ++ paren 6 a (print a)
  | .array [] => [.sym .lBracket, .sym .rBracket]
  | .array (e :: es) => .sym .lBracket :: (print e ++ (printTail es ++ [.sym .rBracket]))
  | .str segs => [.str (printSegs segs)]
  | .object fields => .sym .lBrace :: (printFields fields ++ [.sym .rBrace])
  | .field e key => paren 6 e (print e) ++ [.sym .dot, .str (keyParts key)]

def printTail : List Expr → List Token
  | [] => []
  | e :: es => .sym .comma :: (print e ++ printTail es)

def printSegs : List StrSeg → List StrPart
  | [] => []
  | .lit s :: segs => .lit s :: printSegs segs
  | .interp e :: segs => .interp (print e) :: printSegs segs

def printFields : List (String × Expr) → List Token
  | [] => []
  | (key, e) :: fields => .str (keyParts key) :: .sym .eq :: (print e ++ .sym .semicolon :: printFields fields)

end

/-! ## Levels -/

/-- The parser of a level; `n` bounds the signs of level 4. -/
def level : Nat → P Expr → Nat → Nat → P Expr
  | 0, expr, fuel, _ => parseExprWith expr fuel
  | 1, expr, fuel, _ => parseComparison expr fuel
  | 2, expr, fuel, _ => parseAdditive expr fuel
  | 3, expr, fuel, _ => parseMultiplicative expr fuel
  | 4, expr, fuel, n => parseUnary expr fuel n
  | 5, expr, fuel, _ => parseApplication expr fuel
  | 6, expr, fuel, _ => parsePostfix expr fuel
  | _, expr, fuel, _ => parsePrimary expr fuel

def Loops (p : Nat) : Prop := p = 1 ∨ p = 2 ∨ p = 3 ∨ p = 5 ∨ p = 6

/-- The round of the loop of a level. -/
def loopStep : Nat → P Expr → Nat → Expr → P (Option Expr)
  | 1, expr, fuel => binaryStep cmpOp (parseAdditive expr fuel)
  | 2, expr, fuel => binaryStep addOp (parseMultiplicative expr fuel)
  | 3, expr, fuel => binaryStep mulOp (parseUnary expr fuel fuel)
  | 5, expr, fuel => applyStep expr fuel
  | _, _, _ => postfixStep

theorem level_loop {p : Nat} (hp : Loops p) {expr : P Expr} {fuel n : Nat} : level p expr fuel n = (do
    let e ← level (p + 1) expr fuel fuel
    chain .diverged (loopStep p expr fuel) fuel e) := by
  rcases hp with rfl | rfl | rfl | rfl | rfl
  all_goals rfl

/-- A token at which the loops of the levels from `p` on stop. -/
def Stops (p : Nat) (t : Token) : Prop :=
  (p ≤ 1 → cmpOp t = none) ∧ (p ≤ 2 → addOp t = none) ∧ (p ≤ 3 → mulOp t = none) ∧
    (p ≤ 5 → isPrimaryStart t = false) ∧ (p ≤ 6 → t.is .dot = false)

theorem Stops.mono {p q : Nat} {t : Token} (h : Stops p t) (hpq : p ≤ q) : Stops q t :=
  ⟨fun hq => h.1 (hpq.trans hq), fun hq => h.2.1 (hpq.trans hq), fun hq => h.2.2.1 (hpq.trans hq),
    fun hq => h.2.2.2.1 (hpq.trans hq), fun hq => h.2.2.2.2 (hpq.trans hq)⟩

theorem binaryStep_none {op : Token → Option BinOp} {operand : P Expr} {e : Expr} {t : Token} {u : List Token}
    (h : op t = none) : binaryStep op operand e (t :: u) = .ok (none, t :: u) := by
  unfold binaryStep
  rw [bind_peek, h]
  rfl

theorem binaryStep_some {op : Token → Option BinOp} {operand : P Expr} {o : BinOp} {l r : Expr} {t : Token}
    {u v : List Token} (h : op t = some o) (hr : operand u = .ok (r, v)) :
    binaryStep op operand l (t :: u) = .ok (some (.binOp o l r), v) := by
  unfold binaryStep
  rw [bind_peek, h]
  change (operand >>= fun rhs => (pure (some (Expr.binOp o l rhs)) : P (Option Expr))) u = _
  rw [run_bind hr]
  rfl

theorem applyStep_some {expr : P Expr} {fuel : Nat} {f a : Expr} {t : Token} {u v : List Token}
    (h : isPrimaryStart t = true) (ha : parsePostfix expr fuel (t :: u) = .ok (a, v)) :
    applyStep expr fuel f (t :: u) = .ok (some (.apply f a), v) := by
  unfold applyStep
  rw [bind_peek, if_pos h, run_bind ha]
  rfl

theorem loopStep_stops {p : Nat} (hp : Loops p) {t : Token} (h : Stops p t) {expr : P Expr} {fuel : Nat} {e : Expr}
    {u : List Token} : loopStep p expr fuel e (t :: u) = .ok (none, t :: u) := by
  obtain ⟨hcmp, hadd, hmul, happ, hdot⟩ := h
  rcases hp with rfl | rfl | rfl | rfl | rfl
  · exact binaryStep_none (hcmp le_rfl)
  · exact binaryStep_none (hadd le_rfl)
  · exact binaryStep_none (hmul le_rfl)
  · change (if isPrimaryStart t then _ else _ : P (Option Expr)) (t :: u) = _
    rw [happ le_rfl]
    rfl
  · change (if t.is .dot then _ else _ : P (Option Expr)) (t :: u) = _
    rw [hdot le_rfl]
    rfl

/-! ## Heads -/

/-- A token that may start a tree of level `p`. -/
def Starts (p : Nat) (t : Token) : Prop :=
  (1 ≤ p → ¬ Opens t) ∧ (5 ≤ p → isPrimaryStart t = true) ∧ t.is .rBracket = false

theorem Starts.mono {p q : Nat} {t : Token} (h : Starts p t) (hq : q ≤ p) : Starts q t :=
  ⟨fun h1 => h.1 (h1.trans hq), fun h5 => h.2.1 (h5.trans hq), h.2.2⟩

theorem isPrimaryStart_is {t : Token} {s : Sym} (h : isPrimaryStart t = true) (hs : isPrimaryStart (.sym s) = false) :
    t.is s = false := by
  by_contra hne
  rw [Bool.not_eq_false, Token.is_iff] at hne
  rw [hne, hs] at h
  exact Bool.false_ne_true h

theorem starts_minus : Starts 4 (.sym .minus) := ⟨fun _ => by simp [Opens], fun h => absurd h (by decide), rfl⟩

theorem starts_whole {t : Token} (h : Opens t) : Starts 0 t := by
  refine ⟨fun h => absurd h (by decide), fun h => absurd h (by decide), ?_⟩
  rcases h with rfl | rfl | rfl
  all_goals rfl

theorem starts_primary {p : Nat} {t : Token} (h : isPrimaryStart t = true) : Starts p t := by
  refine ⟨fun _ ho => ?_, fun _ => h, isPrimaryStart_is h rfl⟩
  rcases ho with rfl | rfl | rfl
  all_goals exact absurd h (by decide)

theorem BinOp.prec_lt (op : BinOp) : op.prec ≤ 3 := by cases op <;> decide

theorem paren_head {p : Nat} {e : Expr} {ts : List Token} (h : ∃ t u, ts = t :: u ∧ Starts e.prec t) :
    ∃ t u, paren p e ts = t :: u ∧ Starts p t := by
  unfold paren
  split
  · exact ⟨_, _, rfl, starts_primary rfl⟩
  · next hp =>
    obtain ⟨t, u, rfl, ht⟩ := h
    exact ⟨t, u, rfl, ht.mono (by omega)⟩

theorem print_head : ∀ e, ∃ t u, print e = t :: u ∧ Starts e.prec t
  | .const _ => ⟨_, _, rfl, starts_primary rfl⟩
  | .ident _ => ⟨_, _, rfl, starts_primary rfl⟩
  | .unaryMinus _ => ⟨_, _, rfl, starts_minus⟩
  | .binOp op l r => by
    obtain ⟨t, u, heq, ht⟩ := paren_head (p := op.prec) (print_head l)
    refine ⟨t, u ++ op.token :: paren (op.prec + 1) r (print r), ?_, ht⟩
    rw [print, heq]
    rfl
  | .letIn _ _ _ => ⟨_, _, rfl, starts_whole (.inl rfl)⟩
  | .ifElse _ _ _ => ⟨_, _, rfl, starts_whole (.inr (.inl rfl))⟩
  | .lambda _ _ => ⟨_, _, rfl, starts_whole (.inr (.inr rfl))⟩
  | .apply f a => by
    obtain ⟨t, u, heq, ht⟩ := paren_head (p := 5) (print_head f)
    refine ⟨t, u ++ paren 6 a (print a), ?_, ht⟩
    rw [print, heq]
    rfl
  | .array [] => ⟨_, _, rfl, starts_primary rfl⟩
  | .array (_ :: _) => ⟨_, _, rfl, starts_primary rfl⟩
  | .str _ => ⟨_, _, rfl, starts_primary rfl⟩
  | .object _ => ⟨_, _, rfl, starts_primary rfl⟩
  | .field o key => by
    obtain ⟨t, u, heq, ht⟩ := paren_head (p := 6) (print_head o)
    refine ⟨t, u ++ [.sym .dot, .str (keyParts key)], ?_, ht⟩
    rw [print, heq]
    rfl

/-- A tree as it is written at level `p`. -/
def at_ (p : Nat) (e : Expr) : List Token := paren p e (print e)

theorem at_head (p : Nat) (e : Expr) : ∃ t u, at_ p e = t :: u ∧ Starts p t := paren_head (print_head e)

theorem at_own (e : Expr) : at_ e.prec e = print e := if_neg (Nat.lt_irrefl _)

/-- Only at its own level a tree is written otherwise than at the next one. -/
theorem at_succ {p : Nat} {e : Expr} (h : e.prec ≠ p) : at_ p e = at_ (p + 1) e := by
  unfold at_ paren
  have hiff : e.prec < p ↔ e.prec < p + 1 := by omega
  rw [if_congr hiff rfl rfl]

theorem at_weight (p : Nat) (e : Expr) (rest : List Token) : weight rest < weight (at_ p e ++ rest) := by
  obtain ⟨t, u, heq, -⟩ := at_head p e
  have := t.weight_pos
  rw [weight_append, heq, weight]
  omega

/-! ## Levels parse what is written -/

/-- At level `p` the tree is parsed up to any token that stops the level. -/
def Parses (p : Nat) (e : Expr) : Prop :=
  ∀ fuel n t u, Stops p t → weight (at_ p e ++ t :: u) ≤ fuel → weight (at_ p e ++ t :: u) ≤ n →
    level p (parseExpr fuel) fuel n (at_ p e ++ t :: u) = .ok (e, t :: u)

/-- At a level with a loop the tree is what the loop goes on from. -/
def Enters (p : Nat) (e : Expr) : Prop :=
  ∀ fuel n t u, Stops (p + 1) t → weight (at_ p e ++ t :: u) ≤ fuel →
    ∃ f, weight (t :: u) < f ∧ level p (parseExpr fuel) fuel n (at_ p e ++ t :: u) =
      chain .diverged (loopStep p (parseExpr fuel) fuel) f e (t :: u)

theorem Enters.parses {p : Nat} {e : Expr} (hp : Loops p) (h : Enters p e) : Parses p e := by
  intro fuel n t u ht hfuel _
  obtain ⟨f, hf, heq⟩ := h fuel n t u (ht.mono (Nat.le_succ p)) hfuel
  obtain ⟨f, rfl⟩ := Nat.exists_eq_add_of_lt (Nat.zero_lt_of_lt hf)
  rw [heq, Nat.zero_add]
  exact chain_stop (loopStep_stops hp ht)

/-- A tree of a tighter level is what the loop starts from. -/
theorem Parses.enters {p : Nat} {e : Expr} (hp : Loops p) (hne : e.prec ≠ p) (h : Parses (p + 1) e) : Enters p e := by
  intro fuel n t u ht hfuel
  have hlt := at_weight p e (t :: u)
  refine ⟨fuel, hlt.trans_le hfuel, ?_⟩
  rw [at_succ hne] at hfuel ⊢
  rw [level_loop hp, run_bind (h fuel fuel t u ht hfuel hfuel)]

theorem Parses.unary {e : Expr} (hne : e.prec ≠ 4) (h : Parses 5 e) : Parses 4 e := by
  intro fuel n t u ht hfuel hn
  rw [at_succ hne] at hfuel hn ⊢
  have hrun := h fuel n t u (ht.mono (by decide)) hfuel hn
  obtain ⟨t', u', heq, hstart⟩ := at_head 5 e
  have hpos := t'.weight_pos
  rw [heq, List.cons_append] at hrun hn ⊢
  rw [weight] at hn
  obtain ⟨n, rfl⟩ := Nat.exists_eq_add_of_lt (show 0 < n by omega)
  rw [Nat.zero_add]
  change (if t'.is .minus then _ else parseApplication (parseExpr fuel) fuel : P Expr) _ = _
  rw [isPrimaryStart_is (s := .minus) (hstart.2.1 le_rfl) rfl]
  exact hrun

theorem Parses.whole {e : Expr} (hne : e.prec ≠ 0) (h : Parses 1 e) : Parses 0 e := by
  intro fuel n t u ht hfuel hn
  rw [at_succ hne] at hfuel hn ⊢
  have hrun := h fuel n t u (ht.mono (by decide)) hfuel hn
  obtain ⟨t', u', heq, hstart⟩ := at_head 1 e
  rw [heq, List.cons_append] at hrun ⊢
  exact (parseExprWith_other (hstart.1 le_rfl)).trans hrun

theorem Parses.step {p : Nat} {e : Expr} (hp : p < 7) (hne : e.prec ≠ p) (h : Parses (p + 1) e) : Parses p e := by
  by_cases h0 : p = 0
  · subst h0
    exact h.whole hne
  · by_cases h4 : p = 4
    · subst h4
      exact h.unary hne
    · have hloops : Loops p := by
        unfold Loops
        omega
      exact (h.enters hloops hne).parses hloops

/-- Between its own level and the ones that are looser nothing is added. -/
theorem Parses.loosen {a b : Nat} {e : Expr} (hab : a ≤ b) (hb : b ≤ 7) (hne : ∀ p, a ≤ p → p < b → e.prec ≠ p)
    (h : Parses b e) : Parses a e := by
  induction hab with
  | refl => exact h
  | @step b hab ih =>
    refine ih (by omega) (fun p ha hlt => hne p ha (by omega)) ?_
    exact h.step (by omega) (hne b hab (Nat.lt_succ_self b))

/-- A whole expression is parsed up to a token that stops it. -/
def Whole (e : Expr) : Prop :=
  ∀ fuel t u, Stops 0 t → weight (print e ++ t :: u) < fuel → parseExpr fuel (print e ++ t :: u) = .ok (e, t :: u)

theorem Parses.expr {e : Expr} (h : Parses 0 e) : Whole e := by
  intro fuel t u ht hfuel
  obtain ⟨fuel, rfl⟩ := Nat.exists_eq_add_of_lt (Nat.zero_lt_of_lt hfuel)
  rw [Nat.zero_add] at hfuel ⊢
  have hle := Nat.le_of_lt_succ hfuel
  exact h fuel fuel t u ht hle hle

theorem weight_lt_cons (t : Token) (ts : List Token) : weight ts < weight (t :: ts) := by
  have := t.weight_pos
  rw [weight]
  omega

theorem stops_symbol {s : Sym} (h : s = .rParen ∨ s = .rBracket ∨ s = .comma ∨ s = .semicolon ∨ s = .in_ ∨
    s = .then_ ∨ s = .else_ ∨ s = .eof) : Stops 0 (.sym s) := by
  unfold Stops
  rcases h with rfl | rfl | rfl | rfl | rfl | rfl | rfl | rfl
  all_goals decide

theorem Whole.closed {e : Expr} (h : Whole e) (hlt : e.prec < 7) : Parses 7 e := by
  intro fuel n t u _ hfuel _
  have heq : at_ 7 e ++ t :: u = .sym .lParen :: (print e ++ .sym .rParen :: t :: u) := by
    unfold at_ paren
    rw [if_pos hlt, List.cons_append, List.append_assoc, List.singleton_append]
  rw [heq] at hfuel ⊢
  have hrun := h fuel (.sym .rParen) (t :: u) (stops_symbol (.inl rfl)) ((weight_lt_cons _ _).trans_le hfuel)
  change (do
    let e ← parseExpr fuel
    expect .rParen
    pure e : P Expr) _ = _
  rw [run_bind hrun]
  rfl

/-- The tree at its own level. -/
def Own (e : Expr) : Prop := Parses e.prec e ∧ (Loops e.prec → Enters e.prec e)

/-- The tree at every level. -/
structure Parsed (e : Expr) : Prop where
  parses : ∀ p ≤ 7, Parses p e
  enters : ∀ p, Loops p → Enters p e

theorem Parsed.whole {e : Expr} (h : Parsed e) : Whole e := (h.parses 0 (Nat.zero_le 7)).expr

theorem Expr.prec_le (e : Expr) : e.prec ≤ 7 := by
  cases e with
  | binOp op l r => exact op.prec_lt.trans (by decide)
  | _ => simp [prec]

theorem Own.parsed {e : Expr} (h : Own e) : Parsed e := by
  have hwhole : Parses 0 e := h.1.loosen (Nat.zero_le _) e.prec_le fun p _ hlt => (Nat.ne_of_lt hlt).symm
  have hclosed : Parses 7 e := by
    rcases Nat.lt_or_eq_of_le e.prec_le with hlt | heq
    · exact hwhole.expr.closed hlt
    · rw [← heq]
      exact h.1
  have hall : ∀ p ≤ 7, Parses p e := by
    intro p hp
    by_cases hlt : e.prec < p
    · exact hclosed.loosen hp le_rfl fun q hq _ => Nat.ne_of_lt (hlt.trans_le hq)
    · exact h.1.loosen (Nat.le_of_not_lt hlt) e.prec_le fun q _ hq => (Nat.ne_of_lt hq).symm
  refine ⟨hall, fun p hp => ?_⟩
  by_cases heq : e.prec = p
  · subst heq
    exact h.2 hp
  · have hlt : p + 1 ≤ 7 := by
      unfold Loops at hp
      omega
    exact (hall (p + 1) hlt).enters hp heq

theorem Own.of_parses {e : Expr} (hl : ¬ Loops e.prec) (h : Parses e.prec e) : Own e := ⟨h, fun hp => absurd hp hl⟩

theorem Own.of_enters {e : Expr} (hl : Loops e.prec) (h : Enters e.prec e) : Own e := ⟨h.parses hl, fun _ => h⟩

/-! ## One case for each constructor -/

theorem own_primary {e : Expr} (hp : e.prec = 7)
    (h : ∀ fuel t u, weight (print e ++ t :: u) ≤ fuel →
      parsePrimary (parseExpr fuel) fuel (print e ++ t :: u) = .ok (e, t :: u)) : Own e := by
  refine .of_parses (by rw [hp]; simp [Loops]) fun fuel n t u _ hfuel _ => ?_
  rw [at_own] at hfuel ⊢
  rw [hp]
  exact h fuel t u hfuel

theorem own_const (n : ℚ) : Own (.const n) := own_primary rfl fun _ _ _ _ => rfl

theorem own_ident (x : String) : Own (.ident x) := own_primary rfl fun _ _ _ _ => rfl

theorem own_unaryMinus {e : Expr} (h : Parsed e) : Own (.unaryMinus e) := by
  refine .of_parses (by simp [Expr.prec, Loops]) fun fuel n t u ht hfuel hn => ?_
  rw [at_own] at hfuel hn ⊢
  change weight (.sym .minus :: (at_ 4 e ++ t :: u)) ≤ fuel at hfuel
  change weight (.sym .minus :: (at_ 4 e ++ t :: u)) ≤ n at hn
  have hlt := weight_lt_cons (.sym .minus) (at_ 4 e ++ t :: u)
  obtain ⟨n, rfl⟩ := Nat.exists_eq_add_of_lt (show 0 < n by omega)
  rw [Nat.zero_add] at hn ⊢
  change (do
    let e ← parseUnary (parseExpr fuel) fuel n
    pure (.unaryMinus e) : P Expr) (at_ 4 e ++ t :: u) = _
  have hrun : parseUnary (parseExpr fuel) fuel n (at_ 4 e ++ t :: u) = .ok (e, t :: u) :=
    h.parses 4 (by decide) fuel n t u ht (by omega) (by omega)
  rw [run_bind hrun]
  rfl

theorem BinOp.loops (op : BinOp) : Loops op.prec := by cases op <;> simp [Loops, BinOp.prec]

theorem BinOp.stops (op : BinOp) : Stops (op.prec + 1) op.token := by
  unfold Stops
  cases op <;> decide

theorem loopStep_binOp (op : BinOp) {expr : P Expr} {fuel : Nat} {l r : Expr} {u v : List Token}
    (h : level (op.prec + 1) expr fuel fuel u = .ok (r, v)) :
    loopStep op.prec expr fuel l (op.token :: u) = .ok (some (.binOp op l r), v) := by
  cases op
  all_goals exact binaryStep_some rfl h

theorem own_binOp (op : BinOp) {l r : Expr} (hl : Parsed l) (hr : Parsed r) : Own (.binOp op l r) := by
  refine .of_enters op.loops fun fuel n t u ht hfuel => ?_
  rw [at_own, print, List.append_assoc, List.cons_append] at hfuel ⊢
  change weight (at_ op.prec l ++ op.token :: (at_ (op.prec + 1) r ++ t :: u)) ≤ fuel at hfuel
  obtain ⟨f, hf, heq⟩ := hl.enters op.prec op.loops fuel n _ _ op.stops hfuel
  have hop := weight_lt_cons op.token (at_ (op.prec + 1) r ++ t :: u)
  have hlhs := at_weight op.prec l (op.token :: (at_ (op.prec + 1) r ++ t :: u))
  have hrhs := at_weight (op.prec + 1) r (t :: u)
  have hrun := hr.parses (op.prec + 1) (Nat.succ_le_of_lt (op.prec_lt.trans_lt (by decide))) fuel fuel t u ht
    (by omega) (by omega)
  obtain ⟨f, rfl⟩ := Nat.exists_eq_add_of_lt (Nat.zero_lt_of_lt hf)
  rw [Nat.zero_add] at hf heq
  refine ⟨f, by omega, heq.trans ?_⟩
  exact chain_go (loopStep_binOp op hrun)

theorem own_apply {f a : Expr} (hf : Parsed f) (ha : Parsed a) : Own (.apply f a) := by
  have hloops : Loops 5 := .inr (.inr (.inr (.inl rfl)))
  refine .of_enters hloops fun fuel n t u ht hfuel => ?_
  rw [at_own, print, List.append_assoc] at hfuel ⊢
  change weight (at_ 5 f ++ (at_ 6 a ++ t :: u)) ≤ fuel at hfuel
  obtain ⟨t', u', heqa, hstart⟩ := at_head 6 a
  have hstop : Stops 6 t' := by
    have hdot : t'.is .dot = false := isPrimaryStart_is (hstart.2.1 (by decide)) rfl
    exact ⟨fun h => by omega, fun h => by omega, fun h => by omega, fun h => by omega, fun _ => hdot⟩
  have hfun := at_weight 5 f (at_ 6 a ++ t :: u)
  have harg := at_weight 6 a (t :: u)
  have hrun : parsePostfix (parseExpr fuel) fuel (at_ 6 a ++ t :: u) = .ok (a, t :: u) :=
    ha.parses 6 (by decide) fuel fuel t u ht (by omega) (by omega)
  have henter := hf.enters 5 hloops fuel n t' (u' ++ t :: u) hstop
  rw [← List.cons_append, ← heqa] at henter
  obtain ⟨k, hk, heq⟩ := henter hfuel
  obtain ⟨k, rfl⟩ := Nat.exists_eq_add_of_lt (Nat.zero_lt_of_lt hk)
  rw [Nat.zero_add] at hk heq
  refine ⟨k, by omega, heq.trans ?_⟩
  refine chain_go ?_
  change applyStep (parseExpr fuel) fuel f (at_ 6 a ++ t :: u) = _
  rw [heqa, List.cons_append] at hrun ⊢
  exact applyStep_some (hstart.2.1 (by decide)) hrun

theorem stringKey_keyParts (key : String) (ts : List Token) : stringKey (keyParts key) ts = .ok (key, ts) := by
  unfold keyParts
  split
  · next h =>
    rw [h]
    rfl
  · rfl

theorem fieldKey_run (what key : String) (ts : List Token) :
    fieldKey what (.str (keyParts key) :: ts) = .ok (key, ts) := stringKey_keyParts key ts

theorem own_field {o : Expr} (key : String) (h : Parsed o) : Own (.field o key) := by
  have hloops : Loops 6 := .inr (.inr (.inr (.inr rfl)))
  refine .of_enters hloops fun fuel n t u _ hfuel => ?_
  rw [at_own, print, List.append_assoc] at hfuel ⊢
  change weight (at_ 6 o ++ .sym .dot :: .str (keyParts key) :: t :: u) ≤ fuel at hfuel
  have hstop : Stops 7 (.sym .dot) :=
    ⟨fun h => by omega, fun h => by omega, fun h => by omega, fun h => by omega, fun h => by omega⟩
  obtain ⟨f, hf, heq⟩ := h.enters 6 hloops fuel n _ _ hstop hfuel
  have hdot := weight_lt_cons (.sym .dot) (.str (keyParts key) :: t :: u)
  have hkey := weight_lt_cons (.str (keyParts key)) (t :: u)
  obtain ⟨f, rfl⟩ := Nat.exists_eq_add_of_lt (Nat.zero_lt_of_lt hf)
  rw [Nat.zero_add] at hf heq
  refine ⟨f, by omega, heq.trans ?_⟩
  refine chain_go ?_
  change (fieldKey "field name" >>= fun key => (pure (some (.field o key)) : P (Option Expr))) _ = _
  rw [run_bind (fieldKey_run "field name" key (t :: u))]
  rfl

theorem own_whole {e : Expr} (hp : e.prec = 0)
    (h : ∀ fuel t u, Stops 0 t → weight (print e ++ t :: u) ≤ fuel →
      parseExprWith (parseExpr fuel) fuel (print e ++ t :: u) = .ok (e, t :: u)) : Own e := by
  refine .of_parses (by rw [hp]; simp [Loops]) fun fuel n t u ht hfuel _ => ?_
  rw [at_own] at hfuel ⊢
  rw [hp] at ht ⊢
  exact h fuel t u ht hfuel

theorem own_letIn (x : String) {value body : Expr} (hv : Whole value) (hb : Whole body) :
    Own (.letIn x value body) := by
  refine own_whole rfl fun fuel t u ht hfuel => ?_
  have heq : print (.letIn x value body) ++ t :: u =
      .sym .let_ :: .ident x :: .sym .eq :: (print value ++ .sym .in_ :: (print body ++ t :: u)) := by
    simp only [print, List.cons_append, List.append_assoc]
  rw [heq] at hfuel ⊢
  simp only [weight, weight_append, Token.weight] at hfuel
  have hvalue := hv fuel (.sym .in_) (print body ++ t :: u) (stops_symbol (by simp))
    (by simp only [weight, weight_append, Token.weight]; omega)
  have hbody := hb fuel t u ht (by simp only [weight, weight_append]; omega)
  change (do
    let value ← parseExpr fuel
    expect .in_
    let body ← parseExpr fuel
    pure (.letIn x value body) : P Expr) _ = _
  rw [run_bind hvalue]
  change (do
    let body ← parseExpr fuel
    pure (.letIn x value body) : P Expr) _ = _
  rw [run_bind hbody]
  rfl

theorem own_ifElse {c a b : Expr} (hc : Whole c) (ha : Whole a) (hb : Whole b) : Own (.ifElse c a b) := by
  refine own_whole rfl fun fuel t u ht hfuel => ?_
  have heq : print (.ifElse c a b) ++ t :: u = .sym .if_ :: (print c ++ .sym .then_ ::
      (print a ++ .sym .else_ :: (print b ++ t :: u))) := by
    simp only [print, List.cons_append, List.append_assoc]
  rw [heq] at hfuel ⊢
  simp only [weight, weight_append, Token.weight] at hfuel
  have hcond := hc fuel (.sym .then_) (print a ++ .sym .else_ :: (print b ++ t :: u)) (stops_symbol (by simp))
    (by simp only [weight, weight_append, Token.weight]; omega)
  have hthen := ha fuel (.sym .else_) (print b ++ t :: u) (stops_symbol (by simp))
    (by simp only [weight, weight_append, Token.weight]; omega)
  have helse := hb fuel t u ht (by simp only [weight, weight_append]; omega)
  change (do
    let cond ← parseExpr fuel
    expect .then_
    let then_branch ← parseExpr fuel
    expect .else_
    let else_branch ← parseExpr fuel
    pure (.ifElse cond then_branch else_branch) : P Expr) _ = _
  rw [run_bind hcond]
  change (do
    let then_branch ← parseExpr fuel
    expect .else_
    let else_branch ← parseExpr fuel
    pure (.ifElse c then_branch else_branch) : P Expr) _ = _
  rw [run_bind hthen]
  change (do
    let else_branch ← parseExpr fuel
    pure (.ifElse c a else_branch) : P Expr) _ = _
  rw [run_bind helse]
  rfl

theorem own_lambda (x : String) {body : Expr} (hb : Whole body) : Own (.lambda x body) := by
  refine own_whole rfl fun fuel t u ht hfuel => ?_
  have heq : print (.lambda x body) ++ t :: u = .sym .backslash :: .ident x :: .sym .eq :: (print body ++ t :: u) := by
    simp only [print, List.cons_append]
  rw [heq] at hfuel ⊢
  simp only [weight, weight_append, Token.weight] at hfuel
  have hbody := hb fuel t u ht (by simp only [weight, weight_append]; omega)
  have hparams : chain .diverged lambdaStep fuel [x] (.sym .eq :: (print body ++ t :: u)) =
      .ok ([x], .sym .eq :: (print body ++ t :: u)) := by
    obtain ⟨fuel, rfl⟩ := Nat.exists_eq_add_of_lt (show 0 < fuel by omega)
    exact chain_stop rfl
  change (do
    let params ← chain .diverged lambdaStep fuel [x]
    expect .eq
    let body ← parseExpr fuel
    pure (params.foldr .lambda body) : P Expr) _ = _
  rw [run_bind hparams]
  change (do
    let body ← parseExpr fuel
    pure (.lambda x body) : P Expr) _ = _
  rw [run_bind hbody]
  rfl

/-! ### Lists of trees -/

theorem elemStep_run {fuel : Nat} {acc : List Expr} {e : Expr} {t : Token} {u : List Token} (he : Whole e)
    (ht : Stops 0 t) (hw : weight (print e ++ t :: u) < fuel) :
    elemStep (parseExpr fuel) acc (.sym .comma :: (print e ++ t :: u)) = .ok (some (acc ++ [e]), t :: u) := by
  change (do
    let e ← parseExpr fuel
    pure (some (acc ++ [e])) : P (Option (List Expr))) _ = _
  rw [run_bind (he fuel t u ht hw)]
  rfl

/-- What follows an element starts with a comma, or is the bracket. -/
theorem tail_head (es : List Expr) (rest : List Token) : ∃ t u,
    printTail es ++ .sym .rBracket :: rest = t :: u ∧ Stops 0 t := by
  cases es with
  | nil => exact ⟨_, _, rfl, stops_symbol (.inr (.inl rfl))⟩
  | cons e es => exact ⟨_, _, rfl, stops_symbol (.inr (.inr (.inl rfl)))⟩

theorem elems_run {fuel : Nat} {rest : List Token} (es : List Expr) : ∀ {acc : List Expr} {f : Nat},
    (∀ e ∈ es, Whole e) → weight (printTail es ++ .sym .rBracket :: rest) ≤ fuel →
    weight (printTail es ++ .sym .rBracket :: rest) < f →
    chain .diverged (elemStep (parseExpr fuel)) f acc (printTail es ++ .sym .rBracket :: rest) =
      .ok (acc ++ es, .sym .rBracket :: rest) := by
  induction es with
  | nil =>
    intro acc f _ _ hf
    obtain ⟨f, rfl⟩ := Nat.exists_eq_add_of_lt (Nat.zero_lt_of_lt hf)
    rw [List.append_nil]
    exact chain_stop rfl
  | cons e es ih =>
    intro acc f hes hfuel hf
    obtain ⟨f, rfl⟩ := Nat.exists_eq_add_of_lt (Nat.zero_lt_of_lt hf)
    obtain ⟨t, u, heq, ht⟩ := tail_head es rest
    have hcons : printTail (e :: es) ++ .sym .rBracket :: rest =
        .sym .comma :: (print e ++ (printTail es ++ .sym .rBracket :: rest)) := by
      simp only [printTail, List.cons_append, List.append_assoc]
    rw [hcons] at hfuel hf ⊢
    simp only [weight, weight_append, Token.weight] at hfuel hf
    have hgo : elemStep (parseExpr fuel) acc (.sym .comma :: (print e ++ t :: u)) = .ok (some (acc ++ [e]), t :: u) := by
      refine elemStep_run (hes e (List.mem_cons_self ..)) ht ?_
      rw [← heq]
      simp only [weight, weight_append, Token.weight]
      omega
    rw [← heq] at hgo
    rw [chain_go hgo, ih (fun e he => hes e (List.mem_cons_of_mem _ he)) (by
      simp only [weight, weight_append, Token.weight]
      omega) (by
      simp only [weight, weight_append, Token.weight]
      omega), List.append_assoc, List.singleton_append]

theorem parsePrimary_bracket {expr : P Expr} {fuel : Nat} {e : Expr} {t : Token} {u v : List Token}
    (ht : t.is .rBracket = false) (he : expr (t :: u) = .ok (e, v)) :
    parsePrimary expr fuel (.sym .lBracket :: t :: u) = (do
      let elems ← chain .diverged (elemStep expr) fuel [e]
      expect .rBracket
      pure (.array elems) : P Expr) v := by
  unfold parsePrimary
  rw [bind_advance]
  change (peek >>= fun tok => _) (t :: u) = _
  rw [bind_peek, if_neg (by simp [ht]), run_bind he]

theorem own_array {es : List Expr} (hes : ∀ e ∈ es, Whole e) : Own (.array es) := by
  cases es with
  | nil => exact own_primary rfl fun _ _ _ _ => rfl
  | cons e es =>
    refine own_primary rfl fun fuel t u hfuel => ?_
    have heq : print (.array (e :: es)) ++ t :: u = .sym .lBracket :: (print e ++
        (printTail es ++ .sym .rBracket :: t :: u)) := by
      simp only [print, List.cons_append, List.append_assoc, List.nil_append]
    rw [heq] at hfuel ⊢
    simp only [weight, weight_append, Token.weight] at hfuel
    obtain ⟨t', u', hhead, hstart⟩ := print_head e
    obtain ⟨t'', u'', htail, hstop⟩ := tail_head es (t :: u)
    have helem : parseExpr fuel (print e ++ (printTail es ++ .sym .rBracket :: t :: u)) =
        .ok (e, printTail es ++ .sym .rBracket :: t :: u) := by
      rw [htail]
      refine hes e (List.mem_cons_self ..) fuel t'' u'' hstop ?_
      rw [← htail]
      simp only [weight, weight_append, Token.weight]
      omega
    have hrest : chain .diverged (elemStep (parseExpr fuel)) fuel [e] (printTail es ++ .sym .rBracket :: t :: u) =
        .ok (e :: es, .sym .rBracket :: t :: u) := by
      refine elems_run es (fun e he => hes e (List.mem_cons_of_mem _ he)) ?_ ?_
      all_goals
        simp only [weight, weight_append, Token.weight]
        omega
    rw [hhead, List.cons_append] at helem ⊢
    rw [parsePrimary_bracket hstart.2.2 helem, run_bind hrest]
    rfl

/-- The trees of the interpolations. -/
def StrSeg.Whole : StrSeg → Prop
  | .lit _ => True
  | .interp e => FeeExpr.Whole e

theorem parseAll_run {fuel : Nat} {e : Expr} (he : Whole e) (hf : weight (print e) + 1 < fuel) :
    parseAll (parseExpr fuel) (print e ++ [.sym .eof]) = .ok e := by
  have hw : weight (print e ++ [.sym .eof]) < fuel := by
    simpa only [weight, weight_append, Token.weight] using hf
  have hrun := he fuel (.sym .eof) [] (stops_symbol (by simp)) hw
  unfold parseAll
  rw [hrun]
  rfl

theorem strParts_run {fuel : Nat} (segs : List StrSeg) : ∀ {ts : List Token}, (∀ seg ∈ segs, seg.Whole) →
    partsWeight (printSegs segs) < fuel →
    parseStrParts (parseExpr fuel) (printSegs segs) ts = .ok (segs, ts) := by
  induction segs with
  | nil => exact fun _ _ => rfl
  | cons seg segs ih =>
    intro ts hsegs hf
    have hrest := hsegs seg (List.mem_cons_self ..)
    have htail : ∀ seg ∈ segs, seg.Whole := fun seg hs => hsegs seg (List.mem_cons_of_mem _ hs)
    cases seg with
    | lit x =>
      rw [printSegs, partsWeight, StrPart.weight, Nat.zero_add] at hf
      rw [printSegs, parseStrParts, run_bind (ih htail hf)]
      rfl
    | interp e =>
      rw [printSegs, partsWeight, StrPart.weight] at hf
      have hall : parseAll (parseExpr fuel) (print e ++ [.sym .eof]) = .ok e := parseAll_run hrest (by omega)
      have hlift : (liftM (parseAll (parseExpr fuel) (print e ++ [.sym .eof])) : P Expr) ts = .ok (e, ts) := by
        rw [hall]
        rfl
      rw [printSegs, parseStrParts, run_bind hlift, run_bind (ih htail (by omega))]
      rfl

theorem own_str {segs : List StrSeg} (h : ∀ seg ∈ segs, seg.Whole) : Own (.str segs) := by
  refine own_primary rfl fun fuel t u hfuel => ?_
  change weight (.str (printSegs segs) :: t :: u) ≤ fuel at hfuel
  simp only [weight, Token.weight] at hfuel
  change (do
    let segs ← parseStrParts (parseExpr fuel) (printSegs segs)
    pure (.str segs) : P Expr) (t :: u) = _
  rw [run_bind (strParts_run segs h (by omega))]
  rfl

theorem parseField_run {fuel : Nat} {key : String} {e : Expr} {ts : List Token} (he : Whole e)
    (hw : weight (print e ++ .sym .semicolon :: ts) < fuel) :
    parseField (parseExpr fuel) (.str (keyParts key) :: .sym .eq :: (print e ++ .sym .semicolon :: ts)) =
      .ok ((key, e), ts) := by
  unfold parseField
  rw [run_bind (fieldKey_run _ key _)]
  change (do
    let value ← parseExpr fuel
    expect .semicolon
    pure (key, value) : P (String × Expr)) _ = _
  rw [run_bind (he fuel (.sym .semicolon) ts (stops_symbol (by simp)) hw)]
  rfl

theorem fields_run {fuel : Nat} {rest : List Token} (fields : List (String × Expr)) :
    ∀ {acc : List (String × Expr)} {f : Nat}, (∀ field ∈ fields, Whole field.2) →
    weight (printFields fields ++ .sym .rBrace :: rest) ≤ fuel →
    weight (printFields fields ++ .sym .rBrace :: rest) < f →
    chain .diverged (fieldStep (parseExpr fuel)) f acc (printFields fields ++ .sym .rBrace :: rest) =
      .ok (acc ++ fields, .sym .rBrace :: rest) := by
  induction fields with
  | nil =>
    intro acc f _ _ hf
    obtain ⟨f, rfl⟩ := Nat.exists_eq_add_of_lt (Nat.zero_lt_of_lt hf)
    rw [List.append_nil]
    exact chain_stop rfl
  | cons field fields ih =>
    intro acc f hfields hfuel hf
    obtain ⟨f, rfl⟩ := Nat.exists_eq_add_of_lt (Nat.zero_lt_of_lt hf)
    obtain ⟨key, e⟩ := field
    have hcons : printFields ((key, e) :: fields) ++ .sym .rBrace :: rest = .str (keyParts key) :: .sym .eq ::
        (print e ++ .sym .semicolon :: (printFields fields ++ .sym .rBrace :: rest)) := by
      simp only [printFields, List.cons_append, List.append_assoc]
    rw [hcons] at hfuel hf ⊢
    simp only [weight, weight_append, Token.weight] at hfuel hf
    have hfield : parseField (parseExpr fuel) (.str (keyParts key) :: .sym .eq :: (print e ++ .sym .semicolon ::
        (printFields fields ++ .sym .rBrace :: rest))) = .ok ((key, e), printFields fields ++ .sym .rBrace :: rest) :=
      parseField_run (hfields _ (List.mem_cons_self ..)) (by
        simp only [weight, weight_append, Token.weight]
        omega)
    have hgo : fieldStep (parseExpr fuel) acc (.str (keyParts key) :: .sym .eq :: (print e ++ .sym .semicolon ::
        (printFields fields ++ .sym .rBrace :: rest))) =
        .ok (some (acc ++ [(key, e)]), printFields fields ++ .sym .rBrace :: rest) := by
      change (parseField (parseExpr fuel) >>= fun field => (pure (some (acc ++ [field])) : P _)) _ = _
      rw [run_bind hfield]
      rfl
    rw [chain_go hgo, ih (fun field hm => hfields field (List.mem_cons_of_mem _ hm)) (by
      simp only [weight, weight_append, Token.weight]
      omega) (by
      simp only [weight, weight_append, Token.weight]
      omega), List.append_assoc, List.singleton_append]

theorem own_object {fields : List (String × Expr)} (h : ∀ field ∈ fields, Whole field.2) : Own (.object fields) := by
  refine own_primary rfl fun fuel t u hfuel => ?_
  have heq : print (.object fields) ++ t :: u = .sym .lBrace :: (printFields fields ++ .sym .rBrace :: t :: u) := by
    simp only [print, List.cons_append, List.append_assoc, List.nil_append]
  rw [heq] at hfuel ⊢
  have hlt := weight_lt_cons (.sym .lBrace) (printFields fields ++ .sym .rBrace :: t :: u)
  change (do
    let fields ← chain .diverged (fieldStep (parseExpr fuel)) fuel []
    let _ ← advance
    pure (.object fields) : P Expr) _ = _
  rw [run_bind (fields_run fields h (by omega) (by omega))]
  rfl

/-! ## Every tree -/

mutual

theorem parsed : ∀ e, Parsed e
  | .const n => (own_const n).parsed
  | .ident x => (own_ident x).parsed
  | .unaryMinus e => (own_unaryMinus (parsed e)).parsed
  | .binOp op l r => (own_binOp op (parsed l) (parsed r)).parsed
  | .letIn x value body => (own_letIn x (parsed value).whole (parsed body).whole).parsed
  | .ifElse c t e => (own_ifElse (parsed c).whole (parsed t).whole (parsed e).whole).parsed
  | .lambda x body => (own_lambda x (parsed body).whole).parsed
  | .apply f a => (own_apply (parsed f) (parsed a)).parsed
  | .array es => (own_array (parsed_elems es)).parsed
  | .str segs => (own_str (parsed_segs segs)).parsed
  | .object fields => (own_object (parsed_fields fields)).parsed
  | .field o key => (own_field key (parsed o)).parsed

theorem parsed_elems : ∀ es : List Expr, ∀ e ∈ es, Whole e
  | [] => fun _ he => absurd he List.not_mem_nil
  | e :: es => fun _ he => (List.mem_cons.mp he).elim (fun h => h ▸ (parsed e).whole) (parsed_elems es _)

theorem parsed_segs : ∀ segs : List StrSeg, ∀ seg ∈ segs, seg.Whole
  | [] => fun _ hs => absurd hs List.not_mem_nil
  | .lit _ :: segs => fun _ hs => (List.mem_cons.mp hs).elim (fun h => h ▸ trivial) (parsed_segs segs _)
  | .interp e :: segs => fun _ hs =>
    (List.mem_cons.mp hs).elim (fun h => h ▸ (parsed e).whole) (parsed_segs segs _)

theorem parsed_fields : ∀ fields : List (String × Expr), ∀ field ∈ fields, Whole field.2
  | [] => fun _ hm => absurd hm List.not_mem_nil
  | (_, e) :: fields => fun _ hm =>
    (List.mem_cons.mp hm).elim (fun h => h ▸ (parsed e).whole) (parsed_fields fields _)

end

theorem Whole.parseTokens {e : Expr} (h : Whole e) : parseTokens (print e ++ [.sym .eof]) = .ok e := by
  refine parseAll_run h ?_
  rw [weight_append]
  exact Nat.lt_succ_self _

/-- What is written for a tree parses to the tree. -/
theorem parseTokens_print (e : Expr) : parseTokens (print e ++ [.sym .eof]) = .ok e := (parsed e).whole.parseTokens

end GenVM.FeeExpr
