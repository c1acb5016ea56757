import GenVM.Fees.Parse

/-!
# Tokens as text (`executor/crates/common/src/expr/tokenizer.rs`)

`spell` writes tokens as a text, with a blank before each. A number is written
with an exponent, a string with its quotes and backslashes escaped.

**Results.**
* `Spelled`: a token is read back up to a blank or the end.
* `tokenize_spell`: tokens that can be written are those of their text.
-/
namespace GenVM.FeeExpr

open GenVM.Lib GenVM.Lib.Consume

/-! ## Writing -/

def Sym.chars : Sym → List Char
  | .plus => ['+']
  | .minus => ['-']
  | .star => ['*']
  | .slash => ['/']
  | .lParen => ['(']
  | .rParen => [')']
  | .lt => ['<']
  | .gt => ['>']
  | .le => ['<', '=']
  | .ge => ['>', '=']
  | .eqEq => ['=', '=']
  | .ne => ['!', '=']
  | .let_ => ['l', 'e', 't']
  | .eq => ['=']
  | .in_ => ['i', 'n']
  | .if_ => ['i', 'f']
  | .then_ => ['t', 'h', 'e', 'n']
  | .else_ => ['e', 'l', 's', 'e']
  | .backslash => ['\\']
  | .lBracket => ['[']
  | .rBracket => [']']
  | .lBrace => ['\x7b']
  | .rBrace => ['\x7d']
  | .comma => [',']
  | .semicolon => [';']
  | .dot => ['.']
  | .eof => []

/-- As many decimal places as a number has, if it has finitely many. -/
def places (n : ℚ) : Nat := n.den.log2

def numChars (n : ℚ) : List Char :=
  Nat.toDigits 10 (n.num.toNat * (10 ^ places n / n.den)) ++ 'e' :: '-' :: Nat.toDigits 10 (places n)

def escapeChar (c : Char) : List Char := if c = '"' ∨ c = '\\' then ['\\', c] else [c]

mutual

def Token.chars : Token → List Char
  | .ident s => s.toList
  | .num n => numChars n
  | .str parts => '"' :: (partsChars parts ++ ['"'])
  | .sym s => s.chars

def partsChars : List StrPart → List Char
  | [] => []
  | .lit s :: parts => s.toList.flatMap escapeChar ++ partsChars parts
  | .interp tokens :: parts => '\\' :: '(' :: (chars tokens ++ ' ' :: ')' :: partsChars parts)

def chars : List Token → List Char
  | [] => []
  | t :: ts => ' ' :: (t.chars ++ chars ts)

end

def spell (ts : List Token) : String := String.ofList (chars ts)

/-! ## What can be written -/

/-- A name that is not a keyword. -/
def Word (s : String) : Prop :=
  (Utf8.bytes s).head?.any (fun c => isAsciiAlphabetic c ∨ c = 95) = true ∧
    (∀ c ∈ Utf8.bytes s, isWord c = true) ∧ keyword s = .ident s

/-- A number with finitely many decimal places. -/
def Decimal (n : ℚ) : Prop := 0 ≤ n ∧ n.den ∣ 10 ^ places n ∧ places n < 2 ^ 32

/-- The parentheses open behind the tokens, of `d` open before them; those of an
interpolation do not close it. -/
def balance : Nat → List Token → Option Nat
  | d, [] => some d
  | d, .sym .lParen :: ts => balance (d + 1) ts
  | d, .sym .rParen :: ts => if d - 1 = 0 then none else balance (d - 1) ts
  | d, _ :: ts => balance d ts

mutual

def Token.Fine : Token → Prop
  | .ident s => Word s
  | .num n => Decimal n
  | .str parts => FineParts false parts
  | .sym s => s ≠ .eof

/-- No literal is empty, or behind another one. -/
def FineParts : Bool → List StrPart → Prop
  | _, [] => True
  | behind, .lit s :: parts => behind = false ∧ s ≠ "" ∧ FineParts true parts
  | _, .interp tokens :: parts => Fine tokens ∧ balance 1 tokens = some 1 ∧ FineParts false parts

def Fine : List Token → Prop
  | [] => True
  | t :: ts => t.Fine ∧ Fine ts

end

/-! ## Bytes -/

/-- The bytes of a text. -/
def enc (cs : List Char) : List UInt8 := cs.flatMap String.utf8EncodeChar

theorem bytes_ofList (cs : List Char) : Utf8.bytes (String.ofList cs) = enc cs := by
  rw [Utf8.bytes_eq, String.toList_ofList]
  rfl

theorem enc_toList (s : String) : enc s.toList = Utf8.bytes s := (Utf8.bytes_eq s).symm

theorem enc_append (xs ys : List Char) : enc (xs ++ ys) = enc xs ++ enc ys := List.flatMap_append

/-- A rest that a token does not run into. -/
def Clear (rest : List UInt8) : Prop := rest = [] ∨ ∃ u, rest = 32 :: u

theorem Clear.takeWhile {q : UInt8 → Bool} (hq : q 32 = false) {rest : List UInt8} (h : Clear rest) :
    rest.takeWhile q = [] ∧ rest.dropWhile q = rest := by
  rcases h with rfl | ⟨u, rfl⟩
  · exact ⟨rfl, rfl⟩
  · rw [List.takeWhile_cons, List.dropWhile_cons, hq]
    exact ⟨rfl, rfl⟩

theorem takeBytes_run {q : UInt8 → Bool} {b rest : List UInt8} (hb : ∀ c ∈ b, q c = true)
    (hrest : rest.takeWhile q = [] ∧ rest.dropWhile q = rest) : takeBytes q (b ++ rest) = .ok (b, rest) := by
  unfold takeBytes
  rw [List.takeWhile_append_of_pos hb, List.dropWhile_append_of_pos hb, hrest.1, hrest.2, List.append_nil]

/-! ## Dispatch -/

section
variable {token : L Token} {fuel : Nat} {rest : List UInt8}

theorem skipTrivia_blank {c : UInt8} (hc : isAsciiWhitespace c = false) (hhash : c ≠ 35) :
    skipTrivia (fuel + 1) (32 :: c :: rest) = .ok ((), c :: rest) := by
  have htake : takeBytes isAsciiWhitespace (32 :: c :: rest) = .ok ([32], c :: rest) := by
    refine takeBytes_run (b := [32]) (fun d hd => ?_) ?_
    · rw [List.mem_singleton.mp hd]
      decide
    · rw [List.takeWhile_cons, List.dropWhile_cons, hc]
      exact ⟨rfl, rfl⟩
  exact skipTrivia_stop htake fun v heq => hhash (List.cons.inj heq).1

theorem nextToken_cons {c : UInt8} (hc : isAsciiWhitespace c = false) (hhash : c ≠ 35) :
    nextToken (fuel + 2) (32 :: c :: rest) =
      (if c = 34 then readString (nextToken (fuel + 1)) (fuel + 1)
      else if isAsciiDigit c ∨ (c = 46 ∧ rest.head?.any isAsciiDigit) then do
        let n ← readNumber
        pure (.num n)
      else if isAsciiAlphabetic c ∨ c = 95 then readWord
      else do
        next
        readSymbol c : L Token) (c :: rest) := by
  have hget : (get : L (List UInt8)) (c :: rest) = .ok (c :: rest, c :: rest) := rfl
  rw [nextToken, nextTokenWith, run_bind (skipTrivia_blank hc hhash), run_bind hget]

theorem nextToken_nil : nextToken (fuel + 2) [] = .ok (.sym .eof, []) := by
  have hskip : skipTrivia (fuel + 1) [] = .ok ((), []) := skipTrivia_stop (b := []) rfl fun _ h => by cases h
  have hget : (get : L (List UInt8)) [] = .ok ([], []) := rfl
  rw [nextToken, nextTokenWith, run_bind hskip, run_bind hget]
  rfl

/-! ## Words -/

theorem unwrapUtf8_bytes (s : String) (u : List UInt8) : unwrapUtf8 (Utf8.bytes s) u = .ok (s, u) := by
  unfold unwrapUtf8
  rw [Utf8.fromUtf8_bytes]

theorem readWord_run {cs : List Char} (hs : ∀ c ∈ enc cs, isWord c = true) (hrest : Clear rest) :
    readWord (enc cs ++ rest) = .ok (keyword (String.ofList cs), rest) := by
  unfold readWord
  rw [run_bind (takeBytes_run hs (hrest.takeWhile rfl)), ← bytes_ofList, run_bind (unwrapUtf8_bytes _ rest)]
  rfl

/-- What starts a word starts nothing else. -/
theorem alpha_apart {c : UInt8} (h : isAsciiAlphabetic c ∨ c = 95) :
    isAsciiWhitespace c = false ∧ c ≠ 35 ∧ c ≠ 34 ∧ ¬ isAsciiDigit c ∧ c ≠ 46 := by
  simp only [isAsciiAlphabetic, isAsciiDigit, isAsciiWhitespace, decide_eq_true_eq, decide_eq_false_iff_not,
    UInt8.le_iff_toNat_le, ← UInt8.toNat_inj, UInt8.reduceToNat, ne_eq] at h ⊢
  omega

theorem word_run {cs : List Char} (hhead : (enc cs).head?.any (fun c => isAsciiAlphabetic c ∨ c = 95) = true)
    (hs : ∀ c ∈ enc cs, isWord c = true) (hrest : Clear rest) :
    nextToken (fuel + 2) (32 :: (enc cs ++ rest)) = .ok (keyword (String.ofList cs), rest) := by
  have hrun := readWord_run hs hrest
  cases hb : enc cs with
  | nil =>
    rw [hb] at hhead
    cases hhead
  | cons c w =>
    have hc : isAsciiAlphabetic c ∨ c = 95 := by
      rw [hb] at hhead
      simpa using hhead
    obtain ⟨hblank, hhash, hquote, hdigit, hdot⟩ := alpha_apart hc
    rw [hb, List.cons_append] at hrun
    rw [List.cons_append, nextToken_cons hblank hhash, if_neg hquote, if_neg (by simp [hdigit, hdot]), if_pos hc, hrun]

/-! ## Numbers -/

theorem encode_digit {c : Char} (h : c.isDigit = true) :
    String.utf8EncodeChar c = [UInt8.ofNat c.toNat] ∧ isAsciiDigit (UInt8.ofNat c.toNat) = true := by
  have hc : 48 ≤ c.toNat ∧ c.toNat ≤ 57 := by
    simpa [Char.isDigit, UInt32.le_iff_toNat_le] using h
  have hv : c.val.toNat ≤ 127 := le_trans hc.2 (by decide)
  constructor
  · unfold String.utf8EncodeChar
    simp only [hv, if_true]
    rfl
  · simp only [isAsciiDigit, decide_eq_true_eq, UInt8.le_iff_toNat_le, UInt8.toNat_ofNat', UInt8.reduceToNat]
    omega

theorem enc_digits {cs : List Char} (h : ∀ c ∈ cs, c.isDigit = true) : ∀ b ∈ enc cs, isAsciiDigit b = true := by
  intro b hb
  obtain ⟨c, hc, hbc⟩ := List.mem_flatMap.mp hb
  obtain ⟨henc, hdigit⟩ := encode_digit (h c hc)
  rw [henc] at hbc
  rwa [List.mem_singleton.mp hbc]

theorem digitsValue_toDigits (n : Nat) : digitsValue (Nat.toDigits 10 n) = n := by
  have h := @Nat.ofDigitChars_ten_toDigits n
  rwa [Nat.ofDigitChars_eq_foldl] at h

theorem readDigits_toDigits {n : Nat} (hrest : rest.takeWhile isAsciiDigit = [] ∧ rest.dropWhile isAsciiDigit = rest) :
    readDigits (enc (Nat.toDigits 10 n) ++ rest) = .ok (String.ofList (Nat.toDigits 10 n), rest) := by
  have hdigits : ∀ c ∈ Nat.toDigits 10 n, c.isDigit = true := fun c hc =>
    Nat.isDigit_of_mem_toDigits (by decide) (by decide) hc
  unfold readDigits
  rw [run_bind (takeBytes_run (enc_digits hdigits) hrest), ← bytes_ofList, unwrapUtf8_bytes]

theorem parseBigint_toDigits (n : Nat) : parseBigint (String.ofList (Nat.toDigits 10 n)) rest = .ok (n, rest) := by
  unfold parseBigint
  rw [String.toList_ofList, if_neg Nat.toDigits_ne_nil, digitsValue_toDigits]
  rfl

theorem exponentDigits_run {v : ℚ} {d : Nat} (hd : d < 2 ^ 32) (hrest : Clear rest) :
    exponentDigits v true (enc (Nat.toDigits 10 d) ++ rest) = .ok (v / 10 ^ d, rest) := by
  unfold exponentDigits
  rw [run_bind (readDigits_toDigits (hrest.takeWhile rfl)), String.toList_ofList, if_neg Nat.toDigits_ne_nil,
    digitsValue_toDigits, if_pos hd]
  rfl

theorem decimal_value {n : ℚ} (h : Decimal n) :
    ((n.num.toNat * (10 ^ places n / n.den) : Nat) : ℚ) / 10 ^ places n = n := by
  obtain ⟨hpos, ⟨q, hq⟩, -⟩ := h
  have hden : (n.den : ℚ) ≠ 0 := Nat.cast_ne_zero.mpr n.den_ne_zero
  have hten : (10 : ℚ) ^ places n = n.den * q := by exact_mod_cast hq
  have hne : (n.den : ℚ) * q ≠ 0 := hten ▸ pow_ne_zero _ (by norm_num)
  have hnum : ((n.num.toNat : Nat) : ℚ) = n.num := by
    exact_mod_cast Int.toNat_of_nonneg (Rat.num_nonneg.mpr hpos)
  rw [hten, hq, Nat.mul_div_cancel_left q n.den_pos, Nat.cast_mul, hnum]
  calc (n.num : ℚ) * q / (n.den * q) = n.num / n.den := mul_div_mul_right _ _ (right_ne_zero_of_mul hne)
    _ = n := n.num_div_den

theorem enc_numChars (n : ℚ) : enc (numChars n) =
    enc (Nat.toDigits 10 (n.num.toNat * (10 ^ places n / n.den))) ++ 101 :: 45 :: enc (Nat.toDigits 10 (places n)) := by
  unfold numChars
  rw [enc_append]
  rfl

theorem readNumber_run {n : ℚ} (h : Decimal n) (hrest : Clear rest) :
    readNumber (enc (numChars n) ++ rest) = .ok (n, rest) := by
  rw [enc_numChars, List.append_assoc, List.cons_append, List.cons_append]
  unfold readNumber
  rw [run_bind (readDigits_toDigits ⟨rfl, rfl⟩), run_bind (parseBigint_toDigits _)]
  -- no point, and the exponent is negative
  change exponentDigits _ true (enc (Nat.toDigits 10 (places n)) ++ rest) = _
  rw [exponentDigits_run h.2.2 hrest, decimal_value h]

theorem digit_apart {c : UInt8} (h : isAsciiDigit c = true) : isAsciiWhitespace c = false ∧ c ≠ 35 ∧ c ≠ 34 := by
  simp only [isAsciiDigit, isAsciiWhitespace, decide_eq_true_eq, decide_eq_false_iff_not,
    UInt8.le_iff_toNat_le, ← UInt8.toNat_inj, UInt8.reduceToNat, ne_eq] at h ⊢
  omega

theorem num_run {n : ℚ} (h : Decimal n) (hrest : Clear rest) :
    nextToken (fuel + 2) (32 :: (enc (numChars n) ++ rest)) = .ok (.num n, rest) := by
  have hrun := readNumber_run h hrest
  obtain ⟨c, w, hcw, hc⟩ : ∃ c w, enc (numChars n) = c :: w ∧ isAsciiDigit c = true := by
    obtain ⟨d, ds, hds⟩ := List.exists_cons_of_ne_nil
      (Nat.toDigits_ne_nil (n := n.num.toNat * (10 ^ places n / n.den)) (b := 10))
    have hd : d.isDigit = true := Nat.isDigit_of_mem_toDigits (by decide) (by decide) (hds ▸ List.mem_cons_self)
    rw [enc_numChars, hds, enc, List.flatMap_cons, (encode_digit hd).1]
    exact ⟨_, _, rfl, (encode_digit hd).2⟩
  obtain ⟨hblank, hhash, hquote⟩ := digit_apart hc
  rw [hcw, List.cons_append] at hrun ⊢
  rw [nextToken_cons hblank hhash, if_neg hquote, if_pos (.inl hc), run_bind hrun]
  rfl

/-! ## Symbols -/

theorem sym_run {s : Sym} (h : s ≠ .eof) (hrest : Clear rest) :
    nextToken (fuel + 2) (32 :: (enc s.chars ++ rest)) = .ok (.sym s, rest) := by
  have hword : ∀ s : Sym, keyword (String.ofList s.chars) = .sym s →
      (enc s.chars).head?.any (fun c => isAsciiAlphabetic c ∨ c = 95) = true → (enc s.chars).all isWord = true →
      nextToken (fuel + 2) (32 :: (enc s.chars ++ rest)) = .ok (.sym s, rest) := by
    intro s hs hhead hall
    rw [word_run hhead (List.all_eq_true.mp hall) hrest, hs]
  cases s
  case eof => exact absurd rfl h
  case let_ => exact hword _ rfl rfl rfl
  case in_ => exact hword _ (by simp [keyword, Sym.chars]) rfl rfl
  case if_ => exact hword _ (by simp [keyword, Sym.chars]) rfl rfl
  case then_ => exact hword _ (by simp [keyword, Sym.chars]) rfl rfl
  case else_ => exact hword _ (by simp [keyword, Sym.chars]) rfl rfl
  all_goals
    refine (nextToken_cons rfl (by decide)).trans ?_
    rcases hrest with rfl | ⟨u, rfl⟩
  all_goals rfl

/-! ## Strings -/

/-- The token is read back from less than `n` bytes. -/
def ReadsBack (token : L Token) (n : Nat) (t : Token) : Prop :=
  ∀ rest, Clear rest → (enc t.chars ++ rest).length < n → token (32 :: (enc t.chars ++ rest)) = .ok (t, rest)

theorem clear_chars (ts : List Token) (h : Clear rest) : Clear (enc (chars ts) ++ rest) := by
  cases ts with
  | nil => exact h
  | cons t ts => exact .inr ⟨_, rfl⟩

theorem enc_chars_cons (t : Token) (ts : List Token) (u : List UInt8) :
    enc (chars (t :: ts)) ++ u = 32 :: (enc t.chars ++ (enc (chars ts) ++ u)) := by
  rw [chars, ← List.append_assoc, ← enc_append]
  rfl

theorem interpStep_other {a : List Token × Nat} {t : Token} {s u : List UInt8} (h : token s = .ok (t, u))
    (ht : t ≠ .sym .lParen ∧ t ≠ .sym .rParen ∧ t ≠ .sym .eof) :
    interpStep token a s = .ok (some (a.1 ++ [t], a.2), u) := by
  unfold interpStep
  rw [run_bind h]
  split
  · exact absurd rfl ht.1
  · exact absurd rfl ht.2.1
  · exact absurd rfl ht.2.2
  · rfl

theorem balance_other {d : Nat} {t : Token} {ts : List Token} (ht : t ≠ .sym .lParen ∧ t ≠ .sym .rParen) :
    balance d (t :: ts) = balance d ts := by
  rw [balance]
  · exact ht.1
  · exact ht.2

theorem interp_goes {n : Nat} {u : List UInt8} (hu : Clear u) (ts : List Token) : ∀ (acc : List Token) {d d' : Nat},
    (∀ t ∈ ts, ReadsBack token n t ∧ t ≠ .sym .eof) → balance d ts = some d' →
    (enc (chars ts) ++ u).length ≤ n →
    Goes List.length .diverged (interpStep token) (acc, d) (enc (chars ts) ++ u) (acc ++ ts, d') u := by
  induction ts with
  | nil =>
    intro acc d d' _ hd _
    obtain rfl := Option.some.inj hd
    rw [List.append_nil]
    exact .refl
  | cons t ts ih =>
    intro acc d d' hts hd hn
    rw [enc_chars_cons] at hn ⊢
    simp only [List.length_cons, List.length_append] at hn
    obtain ⟨hread, heof⟩ := hts t List.mem_cons_self
    have hrun := hread _ (clear_chars ts hu) (by simp only [List.length_append]; omega)
    have hgo : ∀ {e : Nat}, balance e ts = some d' →
        interpStep token (acc, d) (32 :: (enc t.chars ++ (enc (chars ts) ++ u))) =
          .ok (some (acc ++ [t], e), enc (chars ts) ++ u) →
        Goes List.length .diverged (interpStep token) (acc, d) (32 :: (enc t.chars ++ (enc (chars ts) ++ u)))
          (acc ++ t :: ts, d') u := by
      intro e he hstep
      have htail := ih (acc ++ [t]) (fun t' ht' => hts t' (List.mem_cons_of_mem _ ht')) he
        (by simp only [List.length_append]; omega)
      rw [List.append_assoc, List.singleton_append] at htail
      exact (Goes.one hstep (by simp only [List.length_cons, List.length_append]; omega)).trans htail
    by_cases hl : t = .sym .lParen
    · subst hl
      refine hgo hd ?_
      unfold interpStep
      rw [run_bind hrun]
      rfl
    · by_cases hr : t = .sym .rParen
      · subst hr
        rw [balance] at hd
        split at hd
        · cases hd
        · next hne =>
          refine hgo hd ?_
          unfold interpStep
          rw [run_bind hrun]
          change (if d - 1 = 0 then pure none else pure (some (acc ++ [.sym .rParen], d - 1)) :
            L (Option (List Token × Nat))) _ = _
          rw [if_neg hne]
          rfl
      · rw [balance_other ⟨hl, hr⟩] at hd
        exact hgo hd (interpStep_other hrun ⟨hl, hr, heof⟩)

/-- The parenthesis that closes an interpolation may be run into. -/
theorem readInterpolation_run {n : Nat} {u : List UInt8} {ts : List Token}
    (hts : ∀ t ∈ ts, ReadsBack token n t ∧ t ≠ .sym .eof)
    (hparen : ∀ u, token (32 :: 41 :: u) = .ok (.sym .rParen, u)) (hbal : balance 1 ts = some 1)
    (hn : (enc (chars ts) ++ 32 :: 41 :: u).length ≤ n) (hf : n < fuel) :
    readInterpolation token fuel (enc (chars ts) ++ 32 :: 41 :: u) = .ok (ts, u) := by
  have hgoes := interp_goes (.inr ⟨_, rfl⟩) ts [] hts hbal hn
  have hstop : interpStep token (ts, 1) (32 :: 41 :: u) = .ok (none, u) := by
    unfold interpStep
    rw [run_bind (hparen u)]
    rfl
  unfold readInterpolation
  rw [run_bind (hgoes.stop hstop (by omega))]
  rfl

/-- No byte of another character is a quote or a backslash. -/
theorem encode_apart {c : Char} (h : c ≠ '"' ∧ c ≠ '\\') : ∀ b ∈ String.utf8EncodeChar c, b ≠ 34 ∧ b ≠ 92 := by
  have hquote : c.val.toNat ≠ 34 := fun hc => h.1 (Char.ext (UInt32.toNat_inj.mp hc))
  have hback : c.val.toNat ≠ 92 := fun hc => h.2 (Char.ext (UInt32.toNat_inj.mp hc))
  have hmax : c.val.toNat < 0x110000 := by
    rcases c.valid with hv | hv <;> omega
  unfold String.utf8EncodeChar
  generalize c.val.toNat = v at *
  intro b hb
  simp only at hb
  split_ifs at hb
  all_goals
    simp only [List.mem_cons, List.not_mem_nil, or_false] at hb
    simp only [ne_eq, ← UInt8.toNat_inj, UInt8.reduceToNat]
  · subst hb
    rw [UInt8.toNat_ofNat']
    omega
  · rcases hb with rfl | rfl
    all_goals
      rw [UInt8.toNat_ofNat']
      omega
  · rcases hb with rfl | rfl | rfl
    all_goals
      rw [UInt8.toNat_ofNat']
      omega
  · rcases hb with rfl | rfl | rfl | rfl
    all_goals
      rw [UInt8.toNat_ofNat']
      omega

theorem stringStep_plain {a : Pieces} {b : UInt8} {u : List UInt8} (h : b ≠ 34 ∧ b ≠ 92) :
    stringStep token fuel a (b :: u) = .ok (some (a.1 ++ [b], a.2), u) := by
  obtain ⟨o, ho, hfront⟩ : ∃ o, o = some b ∧ front (b :: u) = .ok (o, b :: u) := ⟨_, rfl, rfl⟩
  unfold stringStep
  rw [run_bind hfront]
  split
  · cases ho
  · exact absurd (Option.some.inj ho).symm h.1
  · exact absurd (Option.some.inj ho).symm h.2
  · rw [Option.some.inj ho]
    rfl

theorem plain_goes {bs : List UInt8} : ∀ (b : List UInt8) (acc : List StrPart) {u : List UInt8},
    (∀ c ∈ bs, c ≠ 34 ∧ c ≠ 92) →
    Goes List.length .diverged (stringStep token fuel) (b, acc) (bs ++ u) (b ++ bs, acc) u := by
  induction bs with
  | nil =>
    intro b acc u _
    rw [List.append_nil]
    exact .refl
  | cons c bs ih =>
    intro b acc u h
    have htail := ih (b ++ [c]) acc (u := u) fun d hd => h d (List.mem_cons_of_mem _ hd)
    rw [List.append_assoc, List.singleton_append] at htail
    exact (Goes.one (stringStep_plain (h c List.mem_cons_self)) (Nat.lt_succ_self _)).trans htail

theorem char_goes (c : Char) {b : List UInt8} {acc : List StrPart} {u : List UInt8} :
    Goes List.length .diverged (stringStep token fuel) (b, acc) (enc (escapeChar c) ++ u)
      (b ++ String.utf8EncodeChar c, acc) u := by
  by_cases hc : c = '"' ∨ c = '\\'
  · have htwo : ∀ b : UInt8, u.length < (92 :: b :: u).length := fun b => by
      rw [List.length_cons, List.length_cons]
      omega
    rcases hc with rfl | rfl
    · exact Goes.one (s := 92 :: 34 :: u) rfl (htwo 34)
    · exact Goes.one (s := 92 :: 92 :: u) rfl (htwo 92)
  · unfold escapeChar
    rw [if_neg hc, enc, List.flatMap_singleton]
    exact plain_goes _ _ (encode_apart (not_or.mp hc))

theorem lit_goes (cs : List Char) : ∀ {b : List UInt8} {acc : List StrPart} {u : List UInt8},
    Goes List.length .diverged (stringStep token fuel) (b, acc) (enc (cs.flatMap escapeChar) ++ u)
      (b ++ enc cs, acc) u := by
  induction cs with
  | nil =>
    intro b acc u
    change Goes _ _ _ _ _ (b ++ [], acc) u
    rw [List.append_nil]
    exact .refl
  | cons c cs ih =>
    intro b acc u
    have heq : enc ((c :: cs).flatMap escapeChar) ++ u = enc (escapeChar c) ++ (enc (cs.flatMap escapeChar) ++ u) := by
      rw [List.flatMap_cons, enc_append, List.append_assoc]
    have hb : b ++ enc (c :: cs) = b ++ String.utf8EncodeChar c ++ enc cs := by
      rw [enc, List.flatMap_cons, List.append_assoc]
      rfl
    rw [heq, hb]
    exact (char_goes c).trans ih

/-- The parts once what has been read since the last one is a part. -/
def pend (s : String) (acc : List StrPart) : List StrPart := if s = "" then acc else acc ++ [.lit s]

theorem flush_run (s : String) (acc : List StrPart) (u : List UInt8) :
    flush (Utf8.bytes s, acc) u = .ok (([], pend s acc), u) := by
  have hiff : Utf8.bytes s = [] ↔ s = "" := ⟨fun h => Utf8.bytes_inj (h.trans rfl), fun h => h ▸ rfl⟩
  unfold flush pend
  by_cases hs : s = ""
  · rw [if_pos (hiff.mpr hs), if_pos hs, hiff.mpr hs]
    rfl
  · rw [if_neg (mt hiff.mp hs), if_neg hs, Utf8.fromUtf8_bytes]
    rfl

theorem stringStep_interp {s : String} {acc : List StrPart} {ts : List Token} {v u : List UInt8}
    (h : readInterpolation token fuel v = .ok (ts, u)) :
    stringStep token fuel (Utf8.bytes s, acc) (92 :: 40 :: v) =
      .ok (some ([], pend s acc ++ [.interp ts]), u) := by
  have hesc : readEscape token fuel (Utf8.bytes s, acc) (40 :: v) = .ok (([], pend s acc ++ [.interp ts]), u) := by
    change (do
      let a ← flush (Utf8.bytes s, acc)
      let toks ← readInterpolation token fuel
      pure (a.1, a.2 ++ [.interp toks]) : L Pieces) v = _
    rw [run_bind (flush_run s acc v), run_bind h]
    rfl
  change (readEscape token fuel (Utf8.bytes s, acc) >>= fun a => (pure (some a) : L (Option Pieces))) (40 :: v) = _
  rw [run_bind hesc]
  rfl

/-- The tokens of an interpolation are read back. -/
def StrPart.ReadsBack (token : L Token) (n : Nat) : StrPart → Prop
  | .lit _ => True
  | .interp ts => ∀ t ∈ ts, FeeExpr.ReadsBack token n t ∧ t ≠ .sym .eof

theorem parts_goes {n : Nat} (hparen : ∀ u, token (32 :: 41 :: u) = .ok (.sym .rParen, u)) (hf : n < fuel)
    (parts : List StrPart) : ∀ {behind : Bool} (s : String) (acc : List StrPart) {u : List UInt8},
    FineParts behind parts → (∀ p ∈ parts, p.ReadsBack token n) → (behind = false → s = "") →
    (enc (partsChars parts) ++ u).length ≤ n →
    ∃ s' acc', Goes List.length .diverged (stringStep token fuel) (Utf8.bytes s, acc) (enc (partsChars parts) ++ u)
      (Utf8.bytes s', acc') u ∧ pend s' acc' = pend s acc ++ parts := by
  induction parts with
  | nil => exact fun s acc _ _ _ _ _ => ⟨s, acc, .refl, (List.append_nil _).symm⟩
  | cons p parts ih =>
    intro behind s acc u hfine hp hs hn
    have htail : ∀ p ∈ parts, p.ReadsBack token n := fun p' hp' => hp p' (List.mem_cons_of_mem _ hp')
    cases p with
    | lit t =>
      obtain ⟨hbehind, ht, hparts⟩ := hfine
      obtain rfl := hs hbehind
      have heq : enc (partsChars (.lit t :: parts)) ++ u =
          enc (t.toList.flatMap escapeChar) ++ (enc (partsChars parts) ++ u) := by
        rw [partsChars, enc_append, List.append_assoc]
      rw [heq] at hn ⊢
      rw [List.length_append] at hn
      obtain ⟨s', acc', hgoes, hpend⟩ := ih t acc (u := u) hparts htail Bool.noConfusion (by omega)
      have hlit : Goes List.length .diverged (stringStep token fuel) ([], acc)
          (enc (t.toList.flatMap escapeChar) ++ (enc (partsChars parts) ++ u)) ([] ++ enc t.toList, acc)
          (enc (partsChars parts) ++ u) := lit_goes t.toList
      rw [List.nil_append, enc_toList] at hlit
      refine ⟨s', acc', hlit.trans hgoes, ?_⟩
      rw [hpend, pend, pend, if_neg ht, if_pos rfl, List.append_assoc, List.singleton_append]
    | interp ts =>
      obtain ⟨-, hbal, hparts⟩ := hfine
      have heq : enc (partsChars (.interp ts :: parts)) ++ u =
          92 :: 40 :: (enc (chars ts) ++ 32 :: 41 :: (enc (partsChars parts) ++ u)) := by
        have hchars : enc (partsChars (.interp ts :: parts)) =
            92 :: 40 :: enc (chars ts ++ ' ' :: ')' :: partsChars parts) := rfl
        rw [hchars, enc_append, List.cons_append, List.cons_append, List.append_assoc]
        rfl
      rw [heq] at hn ⊢
      simp only [List.length_cons, List.length_append] at hn
      have hread := readInterpolation_run (u := enc (partsChars parts) ++ u) (hp _ List.mem_cons_self) hparen hbal
        (by simp only [List.length_cons, List.length_append]; omega) hf
      obtain ⟨s', acc', hgoes, hpend⟩ := ih "" (pend s acc ++ [.interp ts]) (u := u) hparts htail
        (fun _ => rfl) (by simp only [List.length_append]; omega)
      refine ⟨s', acc', (Goes.one (stringStep_interp hread) ?_).trans hgoes, ?_⟩
      · simp only [List.length_cons, List.length_append]
        omega
      · rw [hpend, pend, if_pos rfl, List.append_assoc, List.singleton_append]

theorem readString_run {n : Nat} {parts : List StrPart} (hparen : ∀ u, token (32 :: 41 :: u) = .ok (.sym .rParen, u))
    (hf : n < fuel) (hfine : FineParts false parts) (hp : ∀ p ∈ parts, p.ReadsBack token n)
    (hn : (enc (partsChars parts) ++ 34 :: rest).length ≤ n) :
    readString token fuel (34 :: (enc (partsChars parts) ++ 34 :: rest)) = .ok (.str parts, rest) := by
  obtain ⟨s, acc, hgoes, hpend⟩ := parts_goes hparen hf parts "" [] hfine hp (fun _ => rfl) hn
  have hstop : stringStep token fuel (Utf8.bytes s, acc) (34 :: rest) = .ok (none, rest) := rfl
  have hchain : chain .diverged (stringStep token fuel) fuel ([], []) (enc (partsChars parts) ++ 34 :: rest) =
      .ok ((Utf8.bytes s, acc), rest) := hgoes.stop hstop (by omega)
  change (do
    let a ← chain .diverged (stringStep token fuel) fuel ([], [])
    let a ← flush a
    pure (.str a.2) : L Token) (enc (partsChars parts) ++ 34 :: rest) = _
  rw [run_bind hchain, run_bind (flush_run s acc rest), hpend]
  rfl

end

/-! ## Every token -/

/-- The token is read back by the tokenizer. -/
def Spelled (t : Token) : Prop := ∀ fuel, ReadsBack (nextToken (fuel + 2)) fuel t

def StrPart.Spelled : StrPart → Prop
  | .lit _ => True
  | .interp ts => ∀ t ∈ ts, FeeExpr.Spelled t ∧ t ≠ .sym .eof

theorem spelled_ident {s : String} (h : Word s) : Spelled (.ident s) := by
  obtain ⟨hhead, hall, hkey⟩ := h
  intro fuel rest hrest _
  rw [← enc_toList] at hhead hall
  rw [Token.chars, word_run hhead hall hrest, String.ofList_toList, hkey]

theorem StrPart.Spelled.readsBack {p : StrPart} (h : p.Spelled) (fuel : Nat) :
    p.ReadsBack (nextToken (fuel + 2)) fuel := by
  cases p with
  | lit _ => exact trivial
  | interp ts => exact fun t ht => ⟨(h t ht).1 fuel, (h t ht).2⟩

theorem spelled_str {parts : List StrPart} (hfine : FineParts false parts) (h : ∀ p ∈ parts, p.Spelled) :
    Spelled (.str parts) := by
  intro fuel rest _ hn
  obtain ⟨fuel, rfl⟩ := Nat.exists_eq_add_of_lt (Nat.zero_lt_of_lt hn)
  have heq : enc (Token.str parts).chars ++ rest = 34 :: (enc (partsChars parts) ++ 34 :: rest) := by
    have hchars : enc (Token.str parts).chars = 34 :: enc (partsChars parts ++ ['"']) := rfl
    rw [hchars, enc_append, List.cons_append, List.append_assoc]
    rfl
  rw [Nat.zero_add] at hn ⊢
  rw [heq] at hn ⊢
  rw [nextToken_cons rfl (by decide), if_pos rfl]
  rw [List.length_cons] at hn
  exact readString_run (fun u => (nextToken_cons rfl (by decide)).trans rfl) (by omega) hfine
    (fun p hp => (h p hp).readsBack fuel) (by omega)

theorem Token.Fine.ne_eof {t : Token} (h : t.Fine) : t ≠ .sym .eof := by
  rintro rfl
  exact h rfl

mutual

theorem spelled : ∀ t : Token, t.Fine → Spelled t
  | .ident _, h => spelled_ident h
  | .num _, h => fun _ _ hrest _ => num_run h hrest
  | .str parts, h => spelled_str h (spelled_parts parts false h)
  | .sym _, h => fun _ _ hrest _ => sym_run h hrest

theorem spelled_parts : ∀ (parts : List StrPart) (behind : Bool), FineParts behind parts → ∀ p ∈ parts, p.Spelled
  | [], _, _ => fun _ hp => absurd hp List.not_mem_nil
  | .lit _ :: parts, _, h => fun _ hp =>
    (List.mem_cons.mp hp).elim (fun heq => heq ▸ trivial) (spelled_parts parts true h.2.2 _)
  | .interp tokens :: parts, _, h => fun _ hp =>
    (List.mem_cons.mp hp).elim (fun heq => heq ▸ spelled_all tokens h.1) (spelled_parts parts false h.2.2 _)

theorem spelled_all : ∀ ts : List Token, Fine ts → ∀ t ∈ ts, Spelled t ∧ t ≠ .sym .eof
  | [], _ => fun _ ht => absurd ht List.not_mem_nil
  | t :: ts, h => fun _ ht =>
    (List.mem_cons.mp ht).elim (fun heq => heq ▸ ⟨spelled t h.1, h.1.ne_eof⟩) (spelled_all ts h.2 _)

end

theorem tokens_go {n fuel : Nat} (ts : List Token) : ∀ acc : List Token,
    (∀ t ∈ ts, ReadsBack (nextToken fuel) n t ∧ t ≠ .sym .eof) → (enc (chars ts)).length ≤ n →
    Goes List.length .diverged (tokenizeStep fuel) acc (enc (chars ts)) (acc ++ ts) [] := by
  induction ts with
  | nil =>
    intro acc _ _
    rw [List.append_nil]
    exact .refl
  | cons t ts ih =>
    intro acc hts hn
    obtain ⟨hread, heof⟩ := hts t List.mem_cons_self
    have heq := enc_chars_cons t ts []
    rw [List.append_nil, List.append_nil] at heq
    rw [heq] at hn ⊢
    simp only [List.length_cons, List.length_append] at hn
    have hclear : Clear (enc (chars ts)) := by
      have h := clear_chars ts (.inl rfl)
      rwa [List.append_nil] at h
    have hrun := hread _ hclear (by simp only [List.length_append]; omega)
    have hstep : tokenizeStep fuel acc (32 :: (enc t.chars ++ enc (chars ts))) =
        .ok (some (acc ++ [t]), enc (chars ts)) := by
      unfold tokenizeStep
      rw [run_bind hrun, if_neg (mt Token.is_iff.mp heof)]
      rfl
    have htail := ih (acc ++ [t]) (fun t' ht' => hts t' (List.mem_cons_of_mem _ ht')) (by omega)
    rw [List.append_assoc, List.singleton_append] at htail
    exact (Goes.one hstep (by simp only [List.length_cons, List.length_append]; omega)).trans htail

/-- Tokens that can be written are those of their text. -/
theorem tokenize_spell (ts : List Token) (h : Fine ts) : tokenize (spell ts) = .ok (ts ++ [.sym .eof]) := by
  have hbytes : Utf8.bytes (spell ts) = enc (chars ts) := bytes_ofList _
  have hts : ∀ t ∈ ts, ReadsBack (nextToken ((enc (chars ts)).length + 2)) (enc (chars ts)).length t ∧
      t ≠ .sym .eof := fun t ht => ⟨(spelled_all ts h t ht).1 _, (spelled_all ts h t ht).2⟩
  have hgoes := tokens_go ts [] hts le_rfl
  have hstop : tokenizeStep ((enc (chars ts)).length + 2) ts [] = .ok (none, []) := by
    unfold tokenizeStep
    rw [run_bind nextToken_nil]
    rfl
  unfold tokenize
  rw [hbytes]
  change Except.bind (chain _ _ _ _ _) _ = _
  rw [hgoes.stop hstop (by omega)]
  rfl

end GenVM.FeeExpr
