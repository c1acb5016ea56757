import GenVM.Fees.Tokens
import GenVM.Lib.Consume

/-!
# Parsing fee expressions (`executor/crates/common/src/expr/lexer.rs`)

A parser is what is left of its tokens; looking at a token past the last one
panics. The levels of the grammar are written over the parser of a whole
expression, which they call for what stands between brackets, and over the fuel
of their loops.

**Results.**
* `parse_ends`: every text is parsed or refused, never out of range.
-/
namespace GenVM.FeeExpr

open GenVM.Lib.Consume

abbrev P (α : Type) := Parser (List Token) Fail α

def peek : P Token
  | [] => .error .panicked
  | t :: ts => .ok (t, t :: ts)

def advance : P Token
  | [] => .error .panicked
  | t :: ts => .ok (t, ts)

def fail {α : Type} (e : ParseError) : P α := throw (.parse e)

/-- mirrors lexer.rs:38-47 -/
def expect (s : Sym) : P Unit := do
  let tok ← advance
  if tok.is s then pure () else fail (.expectedToken s.text tok.text)

/-- mirrors lexer.rs:6-16 -/
def stringKey : List StrPart → P String
  | [] => pure ""
  | [.lit s] => pure s
  | _ => fail (.unexpectedToken "interpolation in attribute name")

/-- A name that is bound, in `parse_lambda` and `parse_let`. -/
def identifier : P String := do
  match ← advance with
  | .ident s => pure s
  | tok => fail (.expectedToken "identifier" tok.text)

/-- A name of a field, in `parse_postfix` and `parse_primary`. -/
def fieldKey (what : String) : P String := do
  match ← advance with
  | .ident s => pure s
  | .str parts => stringKey parts
  | tok => fail (.expectedToken what tok.text)

/-- A whole list of tokens, mirrors lexer.rs:298-303 and 312-320 -/
def parseAll (expr : P Expr) (tokens : List Token) : Except Fail Expr := do
  let (e, rest) ← expr tokens
  let (tok, _) ← peek rest
  if tok.is .eof then pure e else throw (.parse (.unexpectedToken tok.text))

def cmpOp : Token → Option BinOp
  | .sym .lt => some .lt
  | .sym .gt => some .gt
  | .sym .le => some .le
  | .sym .ge => some .ge
  | .sym .eqEq => some .eq
  | .sym .ne => some .ne
  | _ => none

def addOp : Token → Option BinOp
  | .sym .plus => some .add
  | .sym .minus => some .sub
  | _ => none

def mulOp : Token → Option BinOp
  | .sym .star => some .mul
  | .sym .slash => some .div
  | _ => none

/-- mirrors lexer.rs:195-205 -/
def isPrimaryStart : Token → Bool
  | .num _ | .ident _ | .str _ => true
  | .sym s => s = .lParen ∨ s = .lBracket ∨ s = .lBrace

section Levels

variable (expr : P Expr) (fuel : Nat)

/-- mirrors lexer.rs:291-308 -/
def parseStrParts : List StrPart → P (List StrSeg)
  | [] => pure []
  | .lit s :: parts => do
    let segs ← parseStrParts parts
    pure (.lit s :: segs)
  | .interp tokens :: parts => do
    let e ← liftM (parseAll expr (tokens ++ [.sym .eof]))
    let segs ← parseStrParts parts
    pure (.interp e :: segs)

def lambdaStep (params : List String) : P (Option (List String)) := do
  let tok ← peek
  if tok.is .eq then pure none
  else do
    let s ← identifier
    pure (some (params ++ [s]))

/-- mirrors lexer.rs:58-87 -/
def parseLambda : P Expr := do
  let _ ← advance
  let s ← identifier
  let params ← chain .diverged lambdaStep fuel [s]
  expect .eq
  let body ← expr
  pure (params.foldr .lambda body)

/-- mirrors lexer.rs:89-109 -/
def parseLet : P Expr := do
  let _ ← advance
  let name ← identifier
  expect .eq
  let value ← expr
  expect .in_
  let body ← expr
  pure (.letIn name value body)

/-- mirrors lexer.rs:111-123 -/
def parseIf : P Expr := do
  let _ ← advance
  let cond ← expr
  expect .then_
  let then_branch ← expr
  expect .else_
  let else_branch ← expr
  pure (.ifElse cond then_branch else_branch)

def elemStep (elems : List Expr) : P (Option (List Expr)) := do
  let tok ← peek
  if tok.is .comma then do
    let _ ← advance
    let e ← expr
    pure (some (elems ++ [e]))
  else pure none

def parseField : P (String × Expr) := do
  let key ← fieldKey "attribute name"
  expect .eq
  let value ← expr
  expect .semicolon
  pure (key, value)

def fieldStep (fields : List (String × Expr)) : P (Option (List (String × Expr))) := do
  let tok ← peek
  if tok.is .rBrace then pure none
  else do
    let field ← parseField expr
    pure (some (fields ++ [field]))

/-- mirrors lexer.rs:243-289 -/
def parsePrimary : P Expr := do
  match ← advance with
  | .num n => pure (.const n)
  | .ident s => pure (.ident s)
  | .sym .lParen => do
    let e ← expr
    expect .rParen
    pure e
  | .sym .lBracket => do
    let tok ← peek
    let elems ←
      if tok.is .rBracket then pure []
      else do
        let e ← expr
        chain .diverged (elemStep expr) fuel [e]
    expect .rBracket
    pure (.array elems)
  | .str parts => do
    let segs ← parseStrParts expr parts
    pure (.str segs)
  | .sym .lBrace => do
    let fields ← chain .diverged (fieldStep expr) fuel []
    let _ ← advance
    pure (.object fields)
  | tok => fail (.unexpectedToken tok.text)

def postfixStep (obj : Expr) : P (Option Expr) := do
  let tok ← peek
  if tok.is .dot then do
    let _ ← advance
    let key ← fieldKey "field name"
    pure (some (.field obj key))
  else pure none

/-- mirrors lexer.rs:219-241 -/
def parsePostfix : P Expr := do
  let e ← parsePrimary expr fuel
  chain .diverged postfixStep fuel e

def applyStep (func : Expr) : P (Option Expr) := do
  let tok ← peek
  if isPrimaryStart tok then do
    let arg ← parsePostfix expr fuel
    pure (some (.apply func arg))
  else pure none

/-- mirrors lexer.rs:207-217 -/
def parseApplication : P Expr := do
  let e ← parsePostfix expr fuel
  chain .diverged (applyStep expr fuel) fuel e

/-- mirrors lexer.rs:186-193 -/
def parseUnary : Nat → P Expr
  | 0 => throw .diverged
  | n + 1 => do
    let tok ← peek
    if tok.is .minus then do
      let _ ← advance
      let e ← parseUnary n
      pure (.unaryMinus e)
    else parseApplication expr fuel

/-- The loop of a level of left-associative operators. -/
def binaryStep (op : Token → Option BinOp) (operand : P Expr) (lhs : Expr) : P (Option Expr) := do
  let tok ← peek
  match op tok with
  | some op => do
    let _ ← advance
    let rhs ← operand
    pure (some (.binOp op lhs rhs))
  | none => pure none

def binary (op : Token → Option BinOp) (operand : P Expr) : P Expr := do
  let lhs ← operand
  chain .diverged (binaryStep op operand) fuel lhs

/-- mirrors lexer.rs:167-184 -/
def parseMultiplicative : P Expr := binary fuel mulOp (parseUnary expr fuel fuel)

/-- mirrors lexer.rs:148-165 -/
def parseAdditive : P Expr := binary fuel addOp (parseMultiplicative expr fuel)

/-- mirrors lexer.rs:125-146 -/
def parseComparison : P Expr := binary fuel cmpOp (parseAdditive expr fuel)

/-- mirrors lexer.rs:49-56 -/
def parseExprWith : P Expr := do
  match ← peek with
  | .sym .let_ => parseLet expr
  | .sym .if_ => parseIf expr
  | .sym .backslash => parseLambda expr fuel
  | _ => parseComparison expr fuel

end Levels

def parseExpr : Nat → P Expr
  | 0 => throw .diverged
  | fuel + 1 => parseExprWith (parseExpr fuel) fuel

def parseTokens (tokens : List Token) : Except Fail Expr := parseAll (parseExpr (weight tokens + 1)) tokens

/-- mirrors lexer.rs:311-320 -/
def parse (input : String) : Except Fail Expr := do
  let tokens ← tokenize input
  parseTokens tokens

/-! ## Parsing ends -/

/-- The tokens have an end. -/
def Ended (ts : List Token) : Prop := .sym .eof ∈ ts

/-- From `ts` the parser fails properly, or leaves tokens with an end, of a weight
less by `k`. -/
def Takes {α : Type} (k : Nat) (p : P α) (ts : List Token) : Prop :=
  Ends Fail.Proper p ts fun _ u => Ended u ∧ weight u + k ≤ weight ts

section
variable {α β : Type} {ts : List Token} {p : P α} {f : α → P β} {k j : Nat}

theorem Takes.pure {a : α} (h : Ended ts) : Takes 0 (pure a : P α) ts := ⟨h, le_rfl⟩

theorem Takes.fail {e : ParseError} : Takes k (fail e : P α) ts := ⟨e, rfl⟩

theorem Takes.mono (h : Takes j p ts) (hk : k ≤ j) : Takes k p ts :=
  Ends.mono h fun _ _ hu => ⟨hu.1, by omega⟩

/-- What the first part takes, the whole takes. -/
theorem Takes.lead (hp : Takes k p ts)
    (hf : ∀ a u, Ended u → weight u + k ≤ weight ts → Takes 0 (f a) u) : Takes k (p >>= f) ts := by
  refine Ends.bind (Ends.mono hp fun a u hu => ?_)
  refine Ends.mono (hf a u hu.1 hu.2) fun _ w hw => ⟨hw.1, ?_⟩
  have := hu.2
  have := hw.2
  omega

theorem Takes.seq (hp : Takes k p ts)
    (hf : ∀ a u, Ended u → weight u + k ≤ weight ts → Takes 0 (f a) u) : Takes 0 (p >>= f) ts :=
  (hp.lead hf).mono (Nat.zero_le k)

theorem bind_advance {f : Token → P β} {t : Token} : (advance >>= f) (t :: ts) = f t ts := rfl

theorem bind_peek {f : Token → P β} {t : Token} : (peek >>= f) (t :: ts) = f t (t :: ts) := rfl

/-- Looking at a token takes nothing. -/
theorem Takes.bind_peek {f : Token → P β} (h : Ended ts)
    (hf : ∀ t u, ts = t :: u → Takes k (f t) ts) : Takes k (peek >>= f) ts := by
  cases ts with
  | nil => cases h
  | cons t u => exact hf t u rfl

/-- A token may be taken off unless it is the end, which must then be refused. -/
theorem Takes.bind_advance {f : Token → P β} (h : Ended ts) (heof : ∀ u, Takes 1 (f (.sym .eof)) u)
    (hf : ∀ t u, ts = t :: u → t ≠ .sym .eof → Ended u → weight u + 1 ≤ weight ts → Takes 0 (f t) u) :
    Takes 1 (advance >>= f) ts := by
  cases ts with
  | nil => cases h
  | cons t u =>
    by_cases ht : t = .sym .eof
    · subst ht
      have hend := heof u
      refine Ends.mono (p := f (.sym .eof)) hend fun _ w hw => ⟨hw.1, ?_⟩
      have := hw.2
      rw [weight]
      omega
    · have hu : Ended u := (List.mem_cons.mp h).resolve_left (Ne.symm ht)
      have hw : weight u + 1 ≤ weight (t :: u) := by
        have := t.weight_pos
        rw [weight]
        omega
      refine Ends.mono (p := f t) (hf t u rfl ht hu hw) fun _ w hw' => ⟨hw'.1, ?_⟩
      have := hw'.2
      omega

/-- A token that is not the end is passed over. -/
theorem Takes.skip {p : P β} (h : Ended ts) (hhead : ∀ t u, ts = t :: u → t ≠ .sym .eof)
    (hp : ∀ u, Ended u → weight u + 1 ≤ weight ts → Takes 0 p u) : Takes 1 (advance >>= fun _ => p) ts := by
  cases ts with
  | nil => cases h
  | cons t u =>
    have hu : Ended u := (List.mem_cons.mp h).resolve_left (Ne.symm (hhead t u rfl))
    have hw : weight u + 1 ≤ weight (t :: u) := by
      have := t.weight_pos
      rw [weight]
      omega
    refine Ends.mono (p := p) (hp u hu hw) fun _ w hw' => ⟨hw'.1, ?_⟩
    have := hw'.2
    omega

/-- One round of a loop: a step that goes on takes a token, one that does not stops
in `last`. -/
def Round (last : List Token → Prop) (p : P (Option α)) (ts : List Token) : Prop :=
  Ends Fail.Proper p ts fun b u => Ended u ∧ weight u ≤ weight ts ∧ (b.isSome → weight u < weight ts) ∧
    (b = none → last u)

theorem Round.chain {out : Fail} {last : List Token → Prop} {step : α → P (Option α)} {fuel : Nat} {a : α}
    (h : Ended ts) (hf : weight ts < fuel) (hstep : ∀ a u, Ended u → weight u ≤ weight ts → Round last (step a) u) :
    Ends Fail.Proper (chain out step fuel a) ts fun _ u => Ended u ∧ weight u ≤ weight ts ∧ last u := by
  have hinv : ∀ a u, (Ended u ∧ weight u ≤ weight ts) → Ends Fail.Proper (step a) u fun b w =>
      (Ended w ∧ weight w ≤ weight ts) ∧ weight w ≤ weight u ∧ (b.isSome → weight w < weight u) ∧
        (b = none → last w) :=
    fun a u hu => Ends.mono (hstep a u hu.1 hu.2) fun b w hw => ⟨⟨hw.1, hw.2.1.trans hu.2⟩, hw.2⟩
  exact (Ends.chain weight hinv fuel ⟨h, le_rfl⟩ hf).mono fun _ w hw => ⟨hw.1.1, hw.2⟩

theorem Takes.chain {out : Fail} {step : α → P (Option α)} {fuel : Nat} {a : α} (h : Ended ts) (hf : weight ts < fuel)
    (hstep : ∀ a u, Ended u → weight u ≤ weight ts → Round (fun _ => True) (step a) u) :
    Takes 0 (chain out step fuel a) ts :=
  (Round.chain h hf hstep).mono fun _ _ hw => ⟨hw.1, hw.2.1⟩

theorem Takes.step {p : P (Option α)} (h : Takes 1 p ts) : Round (fun _ => True) p ts :=
  Ends.mono h fun _ _ hu => ⟨hu.1, by have := hu.2; omega, fun _ => by have := hu.2; omega, fun _ => trivial⟩

theorem Takes.some_step {last : List Token → Prop} {g : α → β} (h : Takes 1 p ts) :
    Round last (do
      let a ← p
      Pure.pure (some (g a))) ts := by
  refine Ends.bind (Ends.mono h fun a u hu => ?_)
  have hw := hu.2
  refine ⟨hu.1, by omega, fun _ => by omega, fun hb => ?_⟩
  cases hb

theorem round_none {last : List Token → Prop} (h : Ended ts) (hlast : last ts) :
    Round last (Pure.pure none : P (Option α)) ts := by
  refine ⟨h, le_rfl, fun hb => ?_, fun _ => hlast⟩
  cases hb

theorem expect_takes {s : Sym} (hs : s ≠ .eof) (h : Ended ts) : Takes 1 (expect s) ts := by
  refine Takes.bind_advance h (fun u => ?_) fun t u _ _ hu _ => ?_
  · rw [if_neg (by simpa [Token.is] using hs.symm)]
    exact .fail
  · split
    · exact .pure hu
    · exact .fail

theorem stringKey_takes {parts : List StrPart} (h : Ended ts) : Takes 0 (stringKey parts) ts := by
  unfold stringKey
  split
  · exact .pure h
  · exact .pure h
  · exact .fail

theorem identifier_takes (h : Ended ts) : Takes 1 identifier ts := by
  refine Takes.bind_advance h (fun u => .fail) fun t u _ _ hu _ => ?_
  cases t with
  | ident s => exact .pure hu
  | _ => exact .fail

theorem fieldKey_takes {what : String} (h : Ended ts) : Takes 1 (fieldKey what) ts := by
  refine Takes.bind_advance h (fun u => .fail) fun t u _ _ hu _ => ?_
  cases t with
  | ident s => exact .pure hu
  | str parts => exact stringKey_takes hu
  | _ => exact .fail

end

/-! ### The levels -/

section

variable {expr : P Expr} {fuel : Nat} {ts : List Token}

/-- What stands between brackets is lighter, and is parsed. -/
def Inner (expr : P Expr) (fuel : Nat) : Prop := ∀ u, Ended u → weight u < fuel → Takes 1 expr u

theorem Inner.takes (hx : Inner expr fuel) (h : Ended ts) (hf : weight ts < fuel) : Takes 1 expr ts :=
  hx ts h hf

theorem parseAll_proper (hx : Inner expr fuel) (h : Ended ts) (hf : weight ts < fuel) :
    (∃ e, parseAll expr ts = .ok e) ∨ ∃ e, parseAll expr ts = .error e ∧ e.Proper := by
  unfold parseAll
  rcases (hx ts h hf).elim with ⟨e, u, hrun, hu, -⟩ | ⟨e, hrun, hgood⟩
  · rw [hrun]
    cases u with
    | nil => cases hu
    | cons tok u =>
      by_cases htok : tok.is .eof
      · refine .inl ⟨e, ?_⟩
        change (if tok.is .eof then _ else _) = _
        rw [if_pos htok]
        rfl
      · refine .inr ⟨.parse (.unexpectedToken tok.text), ?_, ⟨_, rfl⟩⟩
        change (if tok.is .eof then _ else _) = _
        rw [if_neg htok]
        rfl
  · rw [hrun]
    exact .inr ⟨e, rfl, hgood⟩

theorem parseStrParts_takes (hx : Inner expr fuel) : ∀ {parts : List StrPart} {ts : List Token}, Ended ts →
    partsWeight parts < fuel → Takes 0 (parseStrParts expr parts) ts
  | [], _, h, _ => .pure h
  | .lit s :: parts, ts, h, hf => by
    rw [partsWeight, StrPart.weight, Nat.zero_add] at hf
    exact (parseStrParts_takes hx h hf).seq fun segs u hu _ => .pure hu
  | .interp tokens :: parts, ts, h, hf => by
    rw [partsWeight, StrPart.weight] at hf
    have hend : Ended (tokens ++ [.sym .eof]) := List.mem_append_right _ (List.mem_singleton.mpr rfl)
    have hw : weight (tokens ++ [.sym .eof]) = weight tokens + 1 := weight_append ..
    have hlift : Takes 0 (liftM (parseAll expr (tokens ++ [.sym .eof])) : P Expr) ts := by
      rcases parseAll_proper hx hend (by omega) with ⟨e, he⟩ | ⟨e, he, hgood⟩
      · rw [he]
        exact ⟨h, le_rfl⟩
      · rw [he]
        exact hgood
    exact hlift.seq fun e u hu _ =>
      (parseStrParts_takes hx hu (by omega)).seq fun segs w hw _ => .pure hw

theorem lambdaStep_takes (params : List String) (h : Ended ts) :
    Round (fun _ => True) (lambdaStep params) ts := by
  cases ts with
  | nil => cases h
  | cons t u =>
    change Round _ (if t.is .eq then _ else _) _
    split
    · exact round_none h trivial
    · exact (identifier_takes h).some_step

theorem parseLambda_takes (hx : Inner expr fuel) (h : Ended ts) (hf : weight ts ≤ fuel)
    (hhead : ∀ t u, ts = t :: u → t ≠ .sym .eof) : Takes 1 (parseLambda expr fuel) ts := by
  refine Takes.skip h hhead fun u hu hwu => ?_
  refine (identifier_takes hu).seq fun s v hv hwv => ?_
  refine (Takes.chain hv (by omega) fun params w hw _ => lambdaStep_takes params hw).seq fun params w hw hww => ?_
  refine (expect_takes (by decide) hw).seq fun _ x hx' hwx => ?_
  exact (hx.takes hx' (by omega)).seq fun body y hy _ => .pure hy

theorem parseLet_takes (hx : Inner expr fuel) (h : Ended ts) (hf : weight ts ≤ fuel)
    (hhead : ∀ t u, ts = t :: u → t ≠ .sym .eof) : Takes 1 (parseLet expr) ts := by
  refine Takes.skip h hhead fun u hu hwu => ?_
  refine (identifier_takes hu).seq fun s v hv hwv => ?_
  refine (expect_takes (by decide) hv).seq fun _ w hw hww => ?_
  refine (hx.takes hw (by omega)).seq fun value x hx' hwx => ?_
  refine (expect_takes (by decide) hx').seq fun _ y hy hwy => ?_
  exact (hx.takes hy (by omega)).seq fun body z hz _ => .pure hz

theorem parseIf_takes (hx : Inner expr fuel) (h : Ended ts) (hf : weight ts ≤ fuel)
    (hhead : ∀ t u, ts = t :: u → t ≠ .sym .eof) : Takes 1 (parseIf expr) ts := by
  refine Takes.skip h hhead fun u hu hwu => ?_
  refine (hx.takes hu (by omega)).seq fun cond v hv hwv => ?_
  refine (expect_takes (by decide) hv).seq fun _ w hw hww => ?_
  refine (hx.takes hw (by omega)).seq fun then_branch x hx' hwx => ?_
  refine (expect_takes (by decide) hx').seq fun _ y hy hwy => ?_
  exact (hx.takes hy (by omega)).seq fun else_branch z hz _ => .pure hz

theorem elemStep_takes (hx : Inner expr fuel) (elems : List Expr) (h : Ended ts) (hf : weight ts ≤ fuel) :
    Round (fun _ => True) (elemStep expr elems) ts := by
  cases ts with
  | nil => cases h
  | cons t u =>
    change Round _ (if t.is .comma then _ else _) _
    split
    · next ht =>
      have hhead : ∀ t' u', t :: u = t' :: u' → t' ≠ .sym .eof := by
        rintro _ _ ⟨⟩ rfl
        simp [Token.is] at ht
      refine Takes.step (Takes.skip h hhead fun u hu hwu => ?_)
      exact (hx.takes hu (by omega)).seq fun e v hv _ => .pure hv
    · exact round_none h trivial

theorem parseField_takes (hx : Inner expr fuel) (h : Ended ts) (hf : weight ts ≤ fuel) :
    Takes 1 (parseField expr) ts := by
  refine (fieldKey_takes h).lead fun key v hv hwv => ?_
  refine (expect_takes (by decide) hv).seq fun _ w hw hww => ?_
  refine (hx.takes hw (by omega)).seq fun value x hx' hwx => ?_
  exact (expect_takes (by decide) hx').seq fun _ y hy _ => .pure hy

/-- The loop over the fields stops before the brace. -/
theorem fieldStep_takes (hx : Inner expr fuel) (fields : List (String × Expr)) (h : Ended ts)
    (hf : weight ts ≤ fuel) : Round (fun w => ∃ u, w = .sym .rBrace :: u) (fieldStep expr fields) ts := by
  cases ts with
  | nil => cases h
  | cons t u =>
    change Round _ (if t.is .rBrace then _ else _) _
    split
    · next ht => exact round_none h ⟨u, by rw [Token.is_iff.mp ht]⟩
    · exact (parseField_takes hx h hf).some_step

theorem braces_takes (hx : Inner expr fuel) (h : Ended ts) (hf : weight ts < fuel) :
    Takes 0 (do
      let fields ← chain .diverged (fieldStep expr) fuel []
      let _ ← advance
      pure (.object fields) : P Expr) ts := by
  refine Ends.bind (Ends.mono (Round.chain h hf fun fields u hu hwu => fieldStep_takes hx fields hu (by omega)) ?_)
  rintro fields w ⟨hw, hww, u, rfl⟩
  have hhead : ∀ t' u', Token.sym .rBrace :: u = t' :: u' → t' ≠ .sym .eof := by
    rintro _ _ ⟨⟩ ⟨⟩
  have hclose : Takes 1 (advance >>= fun _ => (pure (Expr.object fields) : P Expr)) (.sym .rBrace :: u) :=
    Takes.skip hw hhead fun v hv _ => .pure hv
  refine Ends.mono hclose fun _ x hx' => ⟨hx'.1, ?_⟩
  have := hx'.2
  omega

theorem parsePrimary_takes (hx : Inner expr fuel) (h : Ended ts) (hf : weight ts ≤ fuel) :
    Takes 1 (parsePrimary expr fuel) ts := by
  refine Takes.bind_advance h (fun u => .fail) fun t u hts _ hu hwu => ?_
  cases t with
  | num n => exact .pure hu
  | ident s => exact .pure hu
  | str parts =>
    have hparts : partsWeight parts < fuel := by
      rw [hts, weight, Token.weight] at hf
      omega
    exact (parseStrParts_takes hx hu hparts).seq fun segs v hv _ => .pure hv
  | sym s =>
    cases s with
    | lParen =>
      refine (hx.takes hu (by omega)).seq fun e v hv hwv => ?_
      exact (expect_takes (by decide) hv).seq fun _ w hw _ => .pure hw
    | lBracket =>
      refine Takes.bind_peek hu fun tok v hv => ?_
      have hclose : ∀ elems w, Ended w → Takes 0 (do
          expect .rBracket
          pure (.array elems) : P Expr) w :=
        fun elems w hw => (expect_takes (by decide) hw).seq fun _ x hx' _ => .pure hx'
      change Takes 0 (if tok.is .rBracket then _ else _) u
      split
      · exact hclose [] u hu
      · refine (hx.takes hu (by omega)).seq fun e w hw hww => ?_
        refine (Takes.chain hw (by omega) fun elems x hx' hwx => ?_).seq fun elems x hx' _ => hclose elems x hx'
        exact elemStep_takes hx elems hx' (by omega)
    | lBrace =>
      exact braces_takes hx hu (by omega)
    | _ => exact .fail

theorem parsePostfix_takes (hx : Inner expr fuel) (h : Ended ts) (hf : weight ts ≤ fuel) :
    Takes 1 (parsePostfix expr fuel) ts := by
  refine (parsePrimary_takes hx h hf).lead fun e u hu hwu => ?_
  refine Takes.chain hu (by omega) fun obj v hv hwv => ?_
  cases v with
  | nil => cases hv
  | cons t v =>
    change Round _ (if t.is .dot then _ else _) _
    split
    · next ht =>
      have hhead : ∀ t' u', t :: v = t' :: u' → t' ≠ .sym .eof := by
        rintro _ _ ⟨⟩ rfl
        simp [Token.is] at ht
      refine Takes.step (Takes.skip hv hhead fun w hw hww => ?_)
      exact (fieldKey_takes hw).seq fun key x hx' _ => .pure hx'
    · exact round_none hv trivial

theorem parseApplication_takes (hx : Inner expr fuel) (h : Ended ts) (hf : weight ts ≤ fuel) :
    Takes 1 (parseApplication expr fuel) ts := by
  refine (parsePostfix_takes hx h hf).lead fun e u hu hwu => ?_
  refine Takes.chain hu (by omega) fun func v hv hwv => ?_
  cases v with
  | nil => cases hv
  | cons t v =>
    change Round _ (if isPrimaryStart t then _ else _) _
    split
    · exact (parsePostfix_takes hx hv (by omega)).some_step
    · exact round_none hv trivial

theorem parseUnary_takes (hx : Inner expr fuel) (n : Nat) : ∀ {ts : List Token}, Ended ts → weight ts ≤ fuel →
    weight ts ≤ n → Takes 1 (parseUnary expr fuel n) ts := by
  induction n with
  | zero =>
    intro ts h _ hn
    cases ts with
    | nil => cases h
    | cons t u =>
      have := t.weight_pos
      rw [weight] at hn
      omega
  | succ n ih =>
    intro ts h hf hn
    cases ts with
    | nil => cases h
    | cons t u =>
      change Ends _ (if t.is .minus then _ else _) _ _
      split
      · next ht =>
        have hhead : ∀ t' u', t :: u = t' :: u' → t' ≠ .sym .eof := by
          rintro _ _ ⟨⟩ rfl
          simp [Token.is] at ht
        refine Takes.skip h hhead fun v hv hwv => ?_
        exact (ih hv (by omega) (by omega)).seq fun e w hw _ => .pure hw
      · exact parseApplication_takes hx h hf

theorem binary_takes {op : Token → Option BinOp} {operand : P Expr} (heof : op (.sym .eof) = none)
    (hop : ∀ u, Ended u → weight u ≤ fuel → Takes 1 operand u) (h : Ended ts) (hf : weight ts ≤ fuel) :
    Takes 1 (binary fuel op operand) ts := by
  refine (hop ts h hf).lead fun e u hu hwu => ?_
  refine Takes.chain hu (by omega) fun lhs v hv hwv => ?_
  cases v with
  | nil => cases hv
  | cons t v =>
    unfold binaryStep
    change Round _ (match op t with
      | some op => _
      | none => _) _
    cases ht : op t with
    | none => exact round_none hv trivial
    | some o =>
      have hhead : ∀ t' u', t :: v = t' :: u' → t' ≠ .sym .eof := by
        rintro _ _ ⟨⟩ rfl
        rw [heof] at ht
        cases ht
      refine Takes.step (Takes.skip hv hhead fun w hw hww => ?_)
      exact (hop w hw (by omega)).seq fun rhs x hx' _ => .pure hx'

theorem parseComparison_takes (hx : Inner expr fuel) (h : Ended ts) (hf : weight ts ≤ fuel) :
    Takes 1 (parseComparison expr fuel) ts :=
  binary_takes rfl (fun _ hu hwu => binary_takes rfl (fun _ hv hwv => binary_takes rfl
    (fun _ hw hww => parseUnary_takes hx fuel hw hww hww) hv hwv) hu hwu) h hf

/-- A token that starts what is parsed at no other level. -/
def Opens (t : Token) : Prop := t = .sym .let_ ∨ t = .sym .if_ ∨ t = .sym .backslash

theorem parseExprWith_other {t : Token} {u : List Token} (h : ¬ Opens t) :
    parseExprWith expr fuel (t :: u) = parseComparison expr fuel (t :: u) := by
  unfold parseExprWith
  rw [bind_peek]
  split
  · exact absurd (.inl rfl) h
  · exact absurd (.inr (.inl rfl)) h
  · exact absurd (.inr (.inr rfl)) h
  · rfl

theorem parseExprWith_takes (hx : Inner expr fuel) (h : Ended ts) (hf : weight ts ≤ fuel) :
    Takes 1 (parseExprWith expr fuel) ts := by
  refine Takes.bind_peek h fun t u hts => ?_
  have hhead : ∀ s, t = .sym s → s ≠ .eof → ∀ t' u', ts = t' :: u' → t' ≠ .sym .eof := by
    rintro s rfl hs t' u' hts' rfl
    rw [hts] at hts'
    cases hts'
    exact hs rfl
  split
  · exact parseLet_takes hx h hf (hhead _ rfl (by decide))
  · exact parseIf_takes hx h hf (hhead _ rfl (by decide))
  · exact parseLambda_takes hx h hf (hhead _ rfl (by decide))
  · exact parseComparison_takes hx h hf

end

/-- Fuel for every token is enough, and no token is looked at past the end. -/
theorem parseExpr_takes (fuel : Nat) : ∀ {ts : List Token}, Ended ts → weight ts < fuel →
    Takes 1 (parseExpr fuel) ts := by
  induction fuel with
  | zero => exact fun _ h => absurd h (Nat.not_lt_zero _)
  | succ fuel ih => exact fun h hf => parseExprWith_takes (fun u hu hwu => ih hu hwu) h (Nat.le_of_lt_succ hf)

/-- Every text is parsed or refused with an error of the source: no token is looked
at past the end, no `unwrap` fails, and no loop goes on without taking its input. -/
theorem parse_ends (input : String) : (∃ e, parse input = .ok e) ∨ ∃ err, parse input = .error (.parse err) := by
  unfold parse
  rcases tokenize_ends input with ⟨ts, hts, hend⟩ | ⟨err, herr⟩
  · rw [hts]
    have hinner : Inner (parseExpr (weight ts + 1)) (weight ts + 1) :=
      fun u hu hwu => parseExpr_takes (weight ts + 1) hu hwu
    rcases parseAll_proper hinner hend (Nat.lt_succ_self _) with ⟨e, he⟩ | ⟨_, he, err, rfl⟩
    · exact .inl ⟨e, he⟩
    · exact .inr ⟨err, he⟩
  · rw [herr]
    exact .inr ⟨err, rfl⟩

end GenVM.FeeExpr
