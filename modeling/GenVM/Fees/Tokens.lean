import GenVM.Fees.Expr
import GenVM.Lib.Consume
import GenVM.Lib.Utf8

/-!
# Tokens of fee expressions (`executor/crates/common/src/expr/tokenizer.rs`)

A tokenizer is what is left of the bytes of its input. A string may hold
expressions, whose tokens are read by the tokenizer itself: the readers are
written over the reader of one token, and over the fuel of their loops.

**Results.**
* `tokenize_ends`: every text has tokens or is refused.
-/
namespace GenVM.FeeExpr

open GenVM.Lib GenVM.Lib.Consume

/-- mirrors expr/value.rs:6-14 -/
inductive ParseError where
  | unexpectedChar (c : Char)
  | unexpectedToken (text : String)
  | expectedToken (expected got : String)
  | expectedDigits (ctx : String)
  | invalidNumber (s : String)
  | unterminatedString

/-- How parsing fails: with an error of the source, by an index out of range or a
failed `unwrap`, or for want of fuel. -/
inductive Fail where
  | parse (e : ParseError)
  | panicked
  | diverged

/-- The tokens without data. -/
inductive Sym where
  | plus | minus | star | slash | lParen | rParen | lt | gt | le | ge | eqEq | ne | let_ | eq | in_
  | if_ | then_ | else_ | backslash | lBracket | rBracket | lBrace | rBrace | comma | semicolon
  | dot | eof
  deriving DecidableEq

mutual

/-- mirrors tokenizer.rs:9-42 -/
inductive Token where
  | ident (s : String)
  | num (n : ℚ)
  | str (parts : List StrPart)
  | sym (s : Sym)

inductive StrPart where
  | lit (s : String)
  | interp (tokens : List Token)

end

def Sym.text : Sym → String
  | .plus => "`+`"
  | .minus => "`-`"
  | .star => "`*`"
  | .slash => "`/`"
  | .lParen => "`(`"
  | .rParen => "`)`"
  | .lt => "`<`"
  | .gt => "`>`"
  | .le => "`<=`"
  | .ge => "`>=`"
  | .eqEq => "`==`"
  | .ne => "`!=`"
  | .let_ => "`let`"
  | .eq => "`=`"
  | .in_ => "`in`"
  | .if_ => "`if`"
  | .then_ => "`then`"
  | .else_ => "`else`"
  | .backslash => "`\\`"
  | .lBracket => "`[`"
  | .rBracket => "`]`"
  | .lBrace => "`\x7b`"
  | .rBrace => "`\x7d`"
  | .comma => "`,`"
  | .semicolon => "`;`"
  | .dot => "`.`"
  | .eof => "end of input"

/-- mirrors tokenizer.rs:51-86 -/
def Token.text : Token → String
  | .ident s => "ident `" ++ s ++ "`"
  | .num n => "number `" ++ ratText n ++ "`"
  | .str _ => "string"
  | .sym s => s.text

def Token.is (t : Token) (s : Sym) : Bool :=
  match t with
  | .sym s' => s' = s
  | _ => false

theorem Token.is_iff {t : Token} {s : Sym} : t.is s = true ↔ t = .sym s := by
  cases t with
  | sym s' => simp [Token.is]
  | _ => simp [Token.is]

/-! ## Weights -/

mutual

/-- The tokens a token stands for: those of its interpolations, and their ends. -/
def Token.weight : Token → Nat
  | .str parts => partsWeight parts + 1
  | .ident _ | .num _ | .sym _ => 1

def StrPart.weight : StrPart → Nat
  | .lit _ => 0
  | .interp tokens => weight tokens + 1

def partsWeight : List StrPart → Nat
  | [] => 0
  | p :: ps => p.weight + partsWeight ps

def weight : List Token → Nat
  | [] => 0
  | t :: ts => t.weight + weight ts

end

theorem Token.weight_pos (t : Token) : 0 < t.weight := by
  cases t with
  | str parts => exact Nat.succ_pos _
  | _ => exact Nat.one_pos

theorem weight_append (xs ys : List Token) : weight (xs ++ ys) = weight xs + weight ys := by
  induction xs with
  | nil => rw [List.nil_append, weight, Nat.zero_add]
  | cons x xs ih => rw [List.cons_append, weight, weight, ih, Nat.add_assoc]

/-! ## Readers -/

abbrev L (α : Type) := Parser (List UInt8) Fail α

def isAsciiWhitespace (c : UInt8) : Bool := c = 32 ∨ c = 9 ∨ c = 10 ∨ c = 12 ∨ c = 13

def isAsciiDigit (c : UInt8) : Bool := 48 ≤ c ∧ c ≤ 57

def isAsciiAlphabetic (c : UInt8) : Bool := (65 ≤ c ∧ c ≤ 90) ∨ (97 ≤ c ∧ c ≤ 122)

/-- A byte of a name. -/
def isWord (c : UInt8) : Bool := isAsciiAlphabetic c ∨ isAsciiDigit c ∨ c = 95

/-- `str::from_utf8(..).unwrap()` -/
def unwrapUtf8 (b : List UInt8) : L String := fun s =>
  match Utf8.fromUtf8 b with
  | some str => .ok (str, s)
  | none => .error .panicked

/-- The bytes up to the first that is not `p`. -/
def takeBytes (p : UInt8 → Bool) : L (List UInt8) := fun s => .ok (s.takeWhile p, s.dropWhile p)

/-- The byte at the front, `input.get(self.pos)`. -/
def front : L (Option UInt8) := fun s => .ok (s.head?, s)

/-- `self.pos += 1` -/
def next : L Unit := fun s => .ok ((), s.tail)

/-- mirrors tokenizer.rs:101-124 -/
def skipTrivia : Nat → L Unit
  | 0 => throw .diverged
  | fuel + 1 => do
    let _ ← takeBytes isAsciiWhitespace
    let s ← get
    match s with
    | 35 :: c :: _ =>
      if c = 32 ∨ c = 10 then do
        let _ ← takeBytes (· ≠ 10)
        skipTrivia fuel
      else pure ()
    | [35] => do
      let _ ← takeBytes (· ≠ 10)
      skipTrivia fuel
    | _ => pure ()

/-- mirrors tokenizer.rs:126-134 -/
def readDigits : L String := do
  let b ← takeBytes isAsciiDigit
  unwrapUtf8 b

/-- The number a list of digits stands for. -/
def digitsValue (cs : List Char) : Nat := cs.foldl (fun n c => 10 * n + (c.toNat - 48)) 0

/-- mirrors tokenizer.rs:136-139; the text is digits -/
def parseBigint (s : String) : L Nat :=
  if s.toList = [] then throw (.parse (.invalidNumber s)) else pure (digitsValue s.toList)

/-- The digits behind the point, mirrors tokenizer.rs:146-156. -/
def readFraction (value : ℚ) : L ℚ := do
  let c ← front
  if c = some 46 then do
    next
    let frac_digits ← readDigits
    if frac_digits.toList = [] then throw (.parse (.expectedDigits "after decimal point"))
    else do
      let frac ← parseBigint frac_digits
      pure (value + frac / 10 ^ (frac_digits.toList.length % 2 ^ 32))
  else pure value

/-- The digits of an exponent. -/
def exponentDigits (value : ℚ) (neg : Bool) : L ℚ := do
  let exp_digits ← readDigits
  if exp_digits.toList = [] then throw (.parse (.expectedDigits "after exponent"))
  else if digitsValue exp_digits.toList < 2 ^ 32 then
    pure (if neg then value / 10 ^ digitsValue exp_digits.toList else value * 10 ^ digitsValue exp_digits.toList)
  else throw (.parse (.invalidNumber exp_digits))

def skipSign (sign : Option UInt8) : L Unit := if sign = some 45 ∨ sign = some 43 then next else pure ()

/-- mirrors tokenizer.rs:158-181 -/
def readExponent (value : ℚ) : L ℚ := do
  let c ← front
  if c = some 101 ∨ c = some 69 then do
    next
    let sign ← front
    skipSign sign
    exponentDigits value (sign = some 45)
  else pure value

/-- mirrors tokenizer.rs:141-184 -/
def readNumber : L ℚ := do
  let integer_part ← readDigits
  let n ← parseBigint integer_part
  let value ← readFraction n
  readExponent value

def keyword (s : String) : Token :=
  if s = "let" then .sym .let_
  else if s = "in" then .sym .in_
  else if s = "if" then .sym .if_
  else if s = "then" then .sym .then_
  else if s = "else" then .sym .else_
  else .ident s

/-- A name or a keyword, mirrors tokenizer.rs:287-303. -/
def readWord : L Token := do
  let b ← takeBytes isWord
  let s ← unwrapUtf8 b
  pure (keyword s)

/-- A symbol that a `=` behind it makes another one. -/
def orEq (withEq alone : L Token) : L Token := do
  let c ← front
  if c = some 61 then do
    next
    withEq
  else alone

/-- The symbol that starts with `c`, which has been taken; mirrors tokenizer.rs:305-354. -/
def readSymbol (c : UInt8) : L Token :=
  match c with
  | 43 => pure (.sym .plus)
  | 45 => pure (.sym .minus)
  | 42 => pure (.sym .star)
  | 47 => pure (.sym .slash)
  | 40 => pure (.sym .lParen)
  | 41 => pure (.sym .rParen)
  | 92 => pure (.sym .backslash)
  | 91 => pure (.sym .lBracket)
  | 93 => pure (.sym .rBracket)
  | 123 => pure (.sym .lBrace)
  | 125 => pure (.sym .rBrace)
  | 44 => pure (.sym .comma)
  | 59 => pure (.sym .semicolon)
  | 46 => pure (.sym .dot)
  | 61 => orEq (pure (.sym .eqEq)) (pure (.sym .eq))
  | 33 => orEq (pure (.sym .ne)) (throw (.parse (.unexpectedChar '!')))
  | 60 => orEq (pure (.sym .le)) (pure (.sym .lt))
  | 62 => orEq (pure (.sym .ge)) (pure (.sym .gt))
  | _ => throw (.parse (.unexpectedChar (Char.ofNat c.toNat)))

/-- The bytes of a string read so far, and its parts. -/
abbrev Pieces := List UInt8 × List StrPart

/-- mirrors tokenizer.rs:193-200 -/
def flush (a : Pieces) : L Pieces :=
  if a.1 = [] then pure a
  else
    match Utf8.fromUtf8 a.1 with
    | some s => pure ([], a.2 ++ [.lit s])
    | none => throw (.parse .unterminatedString)

section
variable (token : L Token) (fuel : Nat)

/-- The tokens read so far and the open parentheses. -/
def interpStep (a : List Token × Nat) : L (Option (List Token × Nat)) := do
  let tok ← token
  match tok with
  | .sym .lParen => pure (some (a.1 ++ [tok], a.2 + 1))
  | .sym .rParen => if a.2 - 1 = 0 then pure none else pure (some (a.1 ++ [tok], a.2 - 1))
  | .sym .eof => throw (.parse .unterminatedString)
  | _ => pure (some (a.1 ++ [tok], a.2))

/-- mirrors tokenizer.rs:246-264 -/
def readInterpolation : L (List Token) := do
  let a ← chain .diverged (interpStep token) fuel ([], 1)
  pure a.1

/-- An escape, behind its backslash. -/
def readEscape (a : Pieces) : L Pieces := do
  let e ← front
  match e with
  | none => throw (.parse .unterminatedString)
  | some e => do
    next
    match e with
    | 40 => do
      let a ← flush a
      let toks ← readInterpolation token fuel
      pure (a.1, a.2 ++ [.interp toks])
    | 110 => pure (a.1 ++ [10], a.2)
    | 116 => pure (a.1 ++ [9], a.2)
    | 114 => pure (a.1 ++ [13], a.2)
    | 92 => pure (a.1 ++ [92], a.2)
    | 34 => pure (a.1 ++ [34], a.2)
    | other => throw (.parse (.unexpectedChar (Char.ofNat other.toNat)))

def stringStep (a : Pieces) : L (Option Pieces) := do
  let c ← front
  match c with
  | none => throw (.parse .unterminatedString)
  | some 34 => do
    next
    pure none
  | some 92 => do
    next
    let a ← readEscape token fuel a
    pure (some a)
  | some c => do
    next
    pure (some (a.1 ++ [c], a.2))

/-- mirrors tokenizer.rs:188-240 -/
def readString : L Token := do
  next
  let a ← chain .diverged (stringStep token fuel) fuel ([], [])
  let a ← flush a
  pure (.str a.2)

/-- mirrors tokenizer.rs:266-355 -/
def nextTokenWith : L Token := do
  skipTrivia fuel
  let s ← get
  match s with
  | [] => pure (.sym .eof)
  | c :: rest =>
    if c = 34 then readString token fuel
    else if isAsciiDigit c ∨ (c = 46 ∧ rest.head?.any isAsciiDigit) then do
      let n ← readNumber
      pure (.num n)
    else if isAsciiAlphabetic c ∨ c = 95 then readWord
    else do
      next
      readSymbol c

end

def nextToken : Nat → L Token
  | 0 => throw .diverged
  | fuel + 1 => nextTokenWith (nextToken fuel) fuel

def tokenizeStep (fuel : Nat) (tokens : List Token) : L (Option (List Token)) := do
  let tok ← nextToken fuel
  if tok.is .eof then pure none else pure (some (tokens ++ [tok]))

/-- mirrors tokenizer.rs:357-368; the last token is the end -/
def tokenize (input : String) : Except Fail (List Token) := do
  let fuel := (Utf8.bytes input).length + 2
  let (tokens, _) ← chain .diverged (tokenizeStep fuel) fuel [] (Utf8.bytes input)
  pure (tokens ++ [.sym .eof])

/-! ## Reading ends -/

/-- An error of the source. -/
def Fail.Proper (e : Fail) : Prop := ∃ err, e = .parse err

section
variable {α β : Type} {s : List UInt8} {p : L α} {f : α → L β} {k : Nat}

/-- From `s` the reader fails properly, or takes at least `k` bytes. -/
def Reads (k : Nat) (p : L α) (s : List UInt8) : Prop :=
  Ends Fail.Proper p s fun _ u => u.length + k ≤ s.length

theorem Reads.pure {a : α} : Reads 0 (pure a : L α) s := le_rfl

theorem Reads.fail {e : ParseError} : Reads k (throw (.parse e) : L α) s := ⟨e, rfl⟩

theorem Reads.weak (h : Reads k p s) : Reads 0 p s := Ends.mono h fun _ u hu => by omega

/-- What the first part takes, the whole takes. -/
theorem Reads.lead (hp : Reads k p s) (hf : ∀ a u, u.length + k ≤ s.length → Reads 0 (f a) u) :
    Reads k (p >>= f) s := by
  refine Ends.bind (Ends.mono hp fun a u hu => ?_)
  refine Ends.mono (hf a u hu) fun _ w hw => ?_
  omega

theorem Reads.seq (hp : Reads k p s) (hf : ∀ a u, u.length + k ≤ s.length → Reads 0 (f a) u) :
    Reads 0 (p >>= f) s := (hp.lead hf).weak

theorem reads_front : Reads 0 front s := le_rfl

theorem reads_next : Reads 0 next s := by
  change s.tail.length + 0 ≤ s.length
  rw [List.length_tail]
  omega

theorem reads_takeBytes {q : UInt8 → Bool} : Reads 0 (takeBytes q) s :=
  (List.dropWhile_sublist q).length_le

theorem Reads.chain {step : α → L (Option α)} {fuel : Nat} {a : α} (hf : s.length < fuel)
    (hstep : ∀ a u, u.length ≤ s.length → Ends Fail.Proper (step a) u fun b w => w.length ≤ u.length ∧
      (b.isSome → w.length < u.length)) : Reads 0 (chain .diverged step fuel a) s := by
  have hinv : ∀ a u, u.length ≤ s.length → Ends Fail.Proper (step a) u fun b w => w.length ≤ s.length ∧
      w.length ≤ u.length ∧ (b.isSome → w.length < u.length) ∧ (b = none → True) :=
    fun a u hu => Ends.mono (hstep a u hu) fun b w hw => ⟨hw.1.trans hu, hw.1, hw.2, fun _ => trivial⟩
  exact (Ends.chain List.length hinv fuel le_rfl hf).mono fun _ w hw => hw.2.1

/-- ASCII bytes are text. -/
theorem unwrapUtf8_run {b : List UInt8} (h : ∀ c ∈ b, c < 128) :
    unwrapUtf8 b s = .ok (String.ofList (b.map fun c => Char.ofNat c.toNat), s) := by
  have hsome : Utf8.fromUtf8 b = some (String.ofList (b.map fun c => Char.ofNat c.toNat)) :=
    Utf8.fromUtf8_eq_some.mpr (Utf8.bytes_ascii h).symm
  unfold unwrapUtf8
  rw [hsome]

theorem ascii_takeWhile {q : UInt8 → Bool} (hq : ∀ c, q c = true → c < 128) : ∀ c ∈ s.takeWhile q, c < 128 :=
  fun c hc => hq c (List.mem_takeWhile_imp hc)

theorem digit_ascii (c : UInt8) (h : isAsciiDigit c = true) : c < 128 := by
  simp only [isAsciiDigit, decide_eq_true_eq, UInt8.le_iff_toNat_le, UInt8.lt_iff_toNat_lt] at h ⊢
  exact h.2.trans_lt (by decide)

theorem word_ascii (c : UInt8) (h : isWord c = true) : c < 128 := by
  simp only [isWord, isAsciiAlphabetic, isAsciiDigit, decide_eq_true_eq, UInt8.le_iff_toNat_le,
    UInt8.lt_iff_toNat_lt, ← UInt8.toNat_inj] at h ⊢
  change c.toNat < 128
  simp only [UInt8.reduceToNat] at h
  omega

theorem readDigits_run : readDigits s =
    .ok (String.ofList ((s.takeWhile isAsciiDigit).map fun c => Char.ofNat c.toNat), s.dropWhile isAsciiDigit) :=
  unwrapUtf8_run (ascii_takeWhile digit_ascii)

theorem reads_digits : Reads 0 readDigits s := by
  unfold Reads Ends
  rw [readDigits_run]
  exact (List.dropWhile_sublist isAsciiDigit).length_le

theorem reads_parseBigint {t : String} : Reads 0 (parseBigint t) s := by
  unfold parseBigint
  split
  · exact .fail
  · exact .pure

theorem reads_fraction {v : ℚ} : Reads 0 (readFraction v) s := by
  refine reads_front.seq fun c u hu => ?_
  split
  · refine reads_next.seq fun _ w hw => reads_digits.seq fun t x hx => ?_
    split
    · exact .fail
    · exact reads_parseBigint.seq fun n y hy => .pure
  · exact .pure

theorem reads_exponent {v : ℚ} : Reads 0 (readExponent v) s := by
  refine reads_front.seq fun c u hu => ?_
  split
  · refine reads_next.seq fun _ w hw => reads_front.seq fun sign x hx => ?_
    have hskip : Reads 0 (skipSign sign) x := by
      unfold skipSign
      split
      · exact reads_next
      · exact .pure
    refine hskip.seq fun _ y hy => reads_digits.seq fun t z hz => ?_
    split
    · exact .fail
    · split
      · exact .pure
      · exact .fail
  · exact .pure

/-- A number without a digit at the front is refused. -/
theorem reads_number : Reads 1 readNumber s := by
  have hint : Reads 1 (do
      let integer_part ← readDigits
      parseBigint integer_part : L Nat) s := by
    refine Ends.bind ?_
    unfold Ends
    rw [readDigits_run]
    change Ends _ (parseBigint _) _ _
    unfold parseBigint
    split
    · exact ⟨_, rfl⟩
    · next hne =>
      have hlen : (s.takeWhile isAsciiDigit).length + (s.dropWhile isAsciiDigit).length = s.length := by
        rw [← List.length_append, List.takeWhile_append_dropWhile]
      have hpos : 0 < (s.takeWhile isAsciiDigit).length := by
        refine List.length_pos_iff.mpr fun h => hne ?_
        rw [h]
        rfl
      change (s.dropWhile isAsciiDigit).length + 1 ≤ s.length
      omega
  have heq : readNumber = (do
      let integer_part ← readDigits
      parseBigint integer_part : L Nat) >>= fun n => readFraction n >>= readExponent := by
    unfold readNumber
    rw [bind_assoc]
  rw [heq]
  exact hint.lead fun n u _ => reads_fraction.seq fun v w _ => reads_exponent

theorem reads_word (h : s.head?.any isWord) : Reads 1 readWord s := by
  cases s with
  | nil => simp at h
  | cons c s =>
    have hc : isWord c = true := by simpa using h
    refine Ends.bind ?_
    change Ends _ (unwrapUtf8 _ >>= _) _ _
    refine Ends.bind ?_
    unfold Ends
    rw [unwrapUtf8_run (ascii_takeWhile word_ascii)]
    change ((c :: s).dropWhile isWord).length + 1 ≤ (c :: s).length
    rw [List.dropWhile_cons, if_pos hc, List.length_cons]
    exact Nat.succ_le_succ (List.dropWhile_sublist isWord).length_le

theorem reads_orEq {p q : L Token} (hp : ∀ u, Reads 0 p u) (hq : ∀ u, Reads 0 q u) : Reads 0 (orEq p q) s := by
  refine reads_front.seq fun c u hu => ?_
  split
  · exact reads_next.seq fun _ w _ => hp w
  · exact hq u

theorem reads_symbol {c : UInt8} : Reads 0 (readSymbol c) s := by
  unfold readSymbol
  split
  all_goals first
    | exact .pure
    | exact .fail
    | exact reads_orEq (fun _ => .pure) fun _ => .pure
    | exact reads_orEq (fun _ => .pure) fun _ => .fail

theorem reads_flush {a : Pieces} : Reads 0 (flush a) s := by
  unfold flush
  split
  · exact .pure
  · split
    · exact .pure
    · exact .fail

end

/-! ### Trivia -/

theorem reads_trivia (fuel : Nat) : ∀ {s : List UInt8}, s.length < fuel → Reads 0 (skipTrivia fuel) s := by
  induction fuel with
  | zero => exact fun h => absurd h (Nat.not_lt_zero _)
  | succ fuel ih =>
    intro s hs
    refine reads_takeBytes.seq fun _ u hu => ?_
    -- a comment takes at least its hash
    have hcomment : ∀ rest, u = 35 :: rest → Reads 0 (do
        let _ ← takeBytes (· ≠ 10)
        skipTrivia fuel) u := by
      rintro rest rfl
      have hhash : Reads 1 (takeBytes (· ≠ 10)) (35 :: rest) := by
        change ((35 :: rest).dropWhile _).length + 1 ≤ _
        rw [List.dropWhile_cons, if_pos (by decide), List.length_cons]
        exact Nat.succ_le_succ (List.dropWhile_sublist _).length_le
      exact hhash.seq fun _ w hw => ih (by omega)
    change Reads 0 (match u with
      | 35 :: c :: _ => _
      | [35] => _
      | _ => _) u
    split
    · split
      · exact hcomment _ rfl
      · exact .pure
    · exact hcomment _ rfl
    · exact .pure

/-- Behind blanks that no comment follows there is a token. -/
theorem skipTrivia_stop {fuel : Nat} {b s u : List UInt8} (h : takeBytes isAsciiWhitespace s = .ok (b, u))
    (hhash : ∀ v, u ≠ 35 :: v) : skipTrivia (fuel + 1) s = .ok ((), u) := by
  have hget : (get : L (List UInt8)) u = .ok (u, u) := rfl
  rw [skipTrivia, run_bind h, run_bind hget]
  split
  · exact absurd rfl (hhash _)
  · exact absurd rfl (hhash _)
  · rfl

/-! ### Tokens -/

/-- A reader of tokens takes bytes unless it reads the end. -/
def ReadsToken (p : L Token) (s : List UInt8) : Prop :=
  Ends Fail.Proper p s fun t u => u.length ≤ s.length ∧ (t = .sym .eof ∨ u.length < s.length)

section
variable {token : L Token} {fuel : Nat} {s : List UInt8}

theorem Reads.readsToken {p : L Token} (h : Reads 1 p s) : ReadsToken p s :=
  Ends.mono h fun _ u hu => ⟨by omega, .inr (by omega)⟩

theorem reads_interpolation (ht : ∀ u, u.length + 1 < fuel → ReadsToken token u) (hs : s.length + 1 < fuel) :
    Reads 0 (readInterpolation token fuel) s := by
  refine (Reads.chain (by omega) fun a u hu => ?_).seq fun _ _ _ => .pure
  refine Ends.bind (Ends.mono (ht u (by omega)) fun t w hw => ?_)
  obtain ⟨hle, hor⟩ := hw
  have hgo : t ≠ .sym .eof → w.length < u.length := fun hne => hor.resolve_left hne
  split
  · exact ⟨hle, fun _ => hgo (by simp)⟩
  · split
    · exact ⟨hle, fun hb => by simp at hb⟩
    · exact ⟨hle, fun _ => hgo (by simp)⟩
  · exact ⟨_, rfl⟩
  · next hne => exact ⟨hle, fun _ => hgo hne⟩

theorem reads_escape (ht : ∀ u, u.length + 1 < fuel → ReadsToken token u) (hs : s.length + 1 < fuel) {a : Pieces} :
    Reads 0 (readEscape token fuel a) s := by
  refine reads_front.seq fun e u hu => ?_
  split
  · exact .fail
  · refine reads_next.seq fun _ w hw => ?_
    split
    all_goals first
      | exact .pure
      | exact .fail
      | exact reads_flush.seq fun b x hx => (reads_interpolation ht (by omega)).seq fun toks y hy => .pure

theorem stringStep_ends (ht : ∀ u, u.length + 1 < fuel → ReadsToken token u) (hs : s.length + 1 < fuel) (a : Pieces) :
    Ends Fail.Proper (stringStep token fuel a) s fun b u => u.length ≤ s.length ∧ (b.isSome → u.length < s.length) := by
  cases s with
  | nil => exact ⟨_, rfl⟩
  | cons c rest =>
    rw [List.length_cons] at hs
    have hrest : rest.length < (c :: rest).length := Nat.lt_succ_self _
    change Ends _ (match some c with
      | none => _
      | some 34 => _
      | some 92 => _
      | some c => _) _ _
    split
    · exact ⟨_, rfl⟩
    · exact ⟨hrest.le, fun hb => absurd hb Bool.false_ne_true⟩
    · have hesc : Reads 0 (readEscape token fuel a) rest := reads_escape ht (by omega)
      have hgo : Ends Fail.Proper (readEscape token fuel a >>= fun a => pure (some a)) rest fun b u =>
          u.length ≤ rest.length := Ends.bind hesc
      refine Ends.mono hgo fun b u hu => ?_
      exact ⟨by omega, fun _ => by omega⟩
    · exact ⟨hrest.le, fun _ => hrest⟩

theorem reads_string (ht : ∀ u, u.length + 1 < fuel → ReadsToken token u) {c : UInt8}
    (hs : (c :: s).length < fuel) : Reads 1 (readString token fuel) (c :: s) := by
  have hnext : Reads 1 next (c :: s) := le_rfl
  refine hnext.lead fun _ u hu => ?_
  rw [List.length_cons] at hs hu
  refine (Reads.chain (by omega) fun a w hw => ?_).seq fun a w hw => reads_flush.seq fun b x hx => .pure
  exact stringStep_ends ht (by omega) a

theorem ReadsToken.after {p : L Token} {u : List UInt8} (h : ReadsToken p u) (hu : u.length ≤ s.length) :
    Ends Fail.Proper p u fun t w => w.length ≤ s.length ∧ (t = .sym .eof ∨ w.length < s.length) :=
  Ends.mono h fun _ _ hw => ⟨hw.1.trans hu, hw.2.imp_right (lt_of_lt_of_le · hu)⟩

theorem reads_nextTokenWith (ht : ∀ u, u.length + 1 < fuel → ReadsToken token u) (hs : s.length < fuel) :
    ReadsToken (nextTokenWith token fuel) s := by
  refine Ends.bind (Ends.mono (reads_trivia fuel hs) fun _ u hu => ?_)
  refine ReadsToken.after ?_ hu
  cases u with
  | nil => exact ⟨le_rfl, .inl rfl⟩
  | cons c rest =>
    rw [List.length_cons] at hu
    change ReadsToken (if c = 34 then _ else _) _
    split
    · exact (reads_string ht (by rw [List.length_cons]; omega)).readsToken
    · split
      · have hnum : Reads 1 (readNumber >>= fun n => (pure (.num n) : L Token)) (c :: rest) :=
          reads_number.lead fun n w _ => .pure
        exact hnum.readsToken
      · split
        · next hword =>
          refine (reads_word ?_).readsToken
          change isWord c = true
          simp only [isWord, decide_eq_true_eq]
          exact hword.imp_right .inr
        · have hsym : Reads 1 (next >>= fun _ => readSymbol c) (c :: rest) :=
            Reads.lead (p := next) le_rfl fun _ w _ => reads_symbol
          exact hsym.readsToken

end

theorem reads_nextToken (fuel : Nat) : ∀ {s : List UInt8}, s.length + 1 < fuel → ReadsToken (nextToken fuel) s := by
  induction fuel with
  | zero => exact fun h => absurd h (Nat.not_lt_zero _)
  | succ fuel ih => exact fun hs => reads_nextTokenWith (fun u hu => ih hu) (by omega)

/-- Every text has tokens or is refused. -/
theorem tokenize_ends (input : String) :
    (∃ ts, tokenize input = .ok ts ∧ .sym .eof ∈ ts) ∨ ∃ e, tokenize input = .error (.parse e) := by
  let s := Utf8.bytes input
  have hstep : ∀ tokens u, u.length ≤ s.length → Ends Fail.Proper (tokenizeStep (s.length + 2) tokens) u
      fun b w => w.length ≤ u.length ∧ (b.isSome → w.length < u.length) := by
    intro tokens u hu
    refine Ends.bind (Ends.mono (reads_nextToken (s.length + 2) (by omega)) fun tok w hw => ?_)
    split
    · exact ⟨hw.1, fun hb => absurd hb Bool.false_ne_true⟩
    · next hne =>
      exact ⟨hw.1, fun _ => hw.2.resolve_left fun h => hne (Token.is_iff.mpr h)⟩
  have hchain : Reads 0 (chain .diverged (tokenizeStep (s.length + 2)) (s.length + 2) []) s :=
    Reads.chain (by omega) hstep
  rcases hchain.elim with ⟨tokens, u, hrun, -⟩ | ⟨e, hrun, err, rfl⟩
  · refine .inl ⟨tokens ++ [.sym .eof], ?_, List.mem_append_right _ (List.mem_singleton.mpr rfl)⟩
    unfold tokenize
    change Except.bind (chain _ _ _ _ s) _ = _
    rw [hrun]
    rfl
  · refine .inr ⟨err, ?_⟩
    unfold tokenize
    change Except.bind (chain _ _ _ _ s) _ = _
    rw [hrun]
    rfl

end GenVM.FeeExpr
