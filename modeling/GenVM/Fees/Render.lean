import GenVM.Fees.Print
import GenVM.Fees.Spell

/-!
# Fee expressions as text (`executor/crates/common/src/expr/lexer.rs`)

A tree is rendered as the text of the tokens it is printed as. The tokens close
the parentheses they open, so that a tree may stand in an interpolation.

**Results.**
* `print_closed`: the parentheses of a printed tree.
* `parse_render`: the text of a tree that can be written parses to the tree.
-/
namespace GenVM.FeeExpr

def render (e : Expr) : String := spell (print e)

mutual

/-- Its names are names, its numbers decimal, and no literal of its strings is
empty or behind another one. -/
def Expr.Writable : Expr → Prop
  | .const n => Decimal n
  | .ident s => Word s
  | .unaryMinus e => e.Writable
  | .binOp _ l r => l.Writable ∧ r.Writable
  | .letIn x value body => Word x ∧ value.Writable ∧ body.Writable
  | .ifElse c t e => c.Writable ∧ t.Writable ∧ e.Writable
  | .lambda x body => Word x ∧ body.Writable
  | .apply f a => f.Writable ∧ a.Writable
  | .array es => WritableElems es
  | .str segs => WritableSegs false segs
  | .object fields => WritableFields fields
  | .field e _ => e.Writable

def WritableElems : List Expr → Prop
  | [] => True
  | e :: es => e.Writable ∧ WritableElems es

def WritableSegs : Bool → List StrSeg → Prop
  | _, [] => True
  | behind, .lit s :: segs => behind = false ∧ s ≠ "" ∧ WritableSegs true segs
  | _, .interp e :: segs => e.Writable ∧ WritableSegs false segs

def WritableFields : List (String × Expr) → Prop
  | [] => True
  | (_, e) :: fields => e.Writable ∧ WritableFields fields

end

/-! ## Parentheses -/

/-- The tokens close the parentheses they open, and no others. -/
def Closed (ts : List Token) : Prop := ∀ d, balance (d + 1) ts = some (d + 1)

theorem balance_append (xs ys : List Token) : ∀ d, balance d (xs ++ ys) = (balance d xs).bind (balance · ys) := by
  induction xs with
  | nil => exact fun _ => rfl
  | cons t xs ih =>
    intro d
    by_cases hl : t = .sym .lParen
    · subst hl
      exact ih (d + 1)
    · by_cases hr : t = .sym .rParen
      · subst hr
        rw [List.cons_append, balance, balance]
        split
        · rfl
        · exact ih (d - 1)
      · rw [List.cons_append, balance_other ⟨hl, hr⟩, balance_other ⟨hl, hr⟩, ih]

theorem Closed.nil : Closed [] := fun _ => rfl

theorem Closed.append {xs ys : List Token} (hx : Closed xs) (hy : Closed ys) : Closed (xs ++ ys) := by
  intro d
  rw [balance_append, hx d]
  exact hy d

theorem Closed.cons {t : Token} {ts : List Token} (ht : t ≠ .sym .lParen ∧ t ≠ .sym .rParen) (h : Closed ts) :
    Closed (t :: ts) := fun d => (balance_other ht).trans (h d)

theorem Closed.one {t : Token} (ht : t ≠ .sym .lParen ∧ t ≠ .sym .rParen) : Closed [t] := .cons ht .nil

theorem Closed.paren {p : Nat} {e : Expr} {ts : List Token} (h : Closed ts) : Closed (paren p e ts) := by
  unfold FeeExpr.paren
  split
  · intro d
    rw [balance, balance_append, h (d + 1)]
    change (if d + 1 + 1 - 1 = 0 then none else some (d + 1 + 1 - 1)) = _
    rw [if_neg (by omega)]
    rfl
  · exact h

theorem BinOp.token_apart (op : BinOp) : op.token ≠ .sym .lParen ∧ op.token ≠ .sym .rParen := by
  cases op <;> simp [BinOp.token]

mutual

theorem print_closed : ∀ e : Expr, Closed (print e)
  | .const _ => .one (by simp)
  | .ident _ => .one (by simp)
  | .unaryMinus e => .cons (by simp) (print_closed e).paren
  | .binOp op l r => (print_closed l).paren.append (.cons op.token_apart (print_closed r).paren)
  | .letIn _ value body =>
    .cons (by simp) (.cons (by simp) (.cons (by simp)
      ((print_closed value).append (.cons (by simp) (print_closed body)))))
  | .ifElse c t e =>
    .cons (by simp) ((print_closed c).append (.cons (by simp)
      ((print_closed t).append (.cons (by simp) (print_closed e)))))
  | .lambda _ body => .cons (by simp) (.cons (by simp) (.cons (by simp) (print_closed body)))
  | .apply f a => (print_closed f).paren.append (print_closed a).paren
  | .array [] => .cons (by simp) (.one (by simp))
  | .array (e :: es) => .cons (by simp) ((print_closed e).append ((printTail_closed es).append (.one (by simp))))
  | .str _ => .one (by simp)
  | .object fields => .cons (by simp) ((printFields_closed fields).append (.one (by simp)))
  | .field e _ => (print_closed e).paren.append (.cons (by simp) (.one (by simp)))

theorem printTail_closed : ∀ es : List Expr, Closed (printTail es)
  | [] => .nil
  | e :: es => .cons (by simp) ((print_closed e).append (printTail_closed es))

theorem printFields_closed : ∀ fields : List (String × Expr), Closed (printFields fields)
  | [] => .nil
  | (_, e) :: fields =>
    .cons (by simp) (.cons (by simp) ((print_closed e).append (.cons (by simp) (printFields_closed fields))))

end

/-! ## What is printed can be written -/

theorem fine_append {xs ys : List Token} (hx : Fine xs) (hy : Fine ys) : Fine (xs ++ ys) := by
  induction xs with
  | nil => exact hy
  | cons t xs ih => exact ⟨hx.1, ih hx.2⟩

theorem fine_sym {s : Sym} (h : s ≠ .eof) : Token.Fine (.sym s) := h

theorem fine_paren {p : Nat} {e : Expr} {ts : List Token} (h : Fine ts) : Fine (paren p e ts) := by
  unfold paren
  split
  · exact ⟨fine_sym (by decide), fine_append h ⟨fine_sym (by decide), trivial⟩⟩
  · exact h

theorem fine_keyParts (key : String) : Token.Fine (.str (keyParts key)) := by
  change FineParts false (keyParts key)
  unfold keyParts
  split
  · exact trivial
  · next hne => exact ⟨rfl, hne, trivial⟩

theorem BinOp.token_fine (op : BinOp) : op.token.Fine := by
  cases op <;> exact fine_sym (by decide)

mutual

theorem fine_print : ∀ e : Expr, e.Writable → Fine (print e)
  | .const _, h => ⟨h, trivial⟩
  | .ident _, h => ⟨h, trivial⟩
  | .unaryMinus e, h => ⟨fine_sym (by decide), fine_paren (fine_print e h)⟩
  | .binOp op l r, h =>
    fine_append (fine_paren (fine_print l h.1)) ⟨op.token_fine, fine_paren (fine_print r h.2)⟩
  | .letIn _ value body, ⟨hx, hvalue, hbody⟩ =>
    ⟨fine_sym (by decide), hx, fine_sym (by decide), fine_append (fine_print value hvalue)
      ⟨fine_sym (by decide), fine_print body hbody⟩⟩
  | .ifElse c t e, ⟨hc, ht, he⟩ =>
    ⟨fine_sym (by decide), fine_append (fine_print c hc) ⟨fine_sym (by decide),
      fine_append (fine_print t ht) ⟨fine_sym (by decide), fine_print e he⟩⟩⟩
  | .lambda _ body, ⟨hx, hbody⟩ => ⟨fine_sym (by decide), hx, fine_sym (by decide), fine_print body hbody⟩
  | .apply f a, h => fine_append (fine_paren (fine_print f h.1)) (fine_paren (fine_print a h.2))
  | .array [], _ => ⟨fine_sym (by decide), fine_sym (by decide), trivial⟩
  | .array (e :: es), h =>
    ⟨fine_sym (by decide), fine_append (fine_print e h.1)
      (fine_append (fine_printTail es h.2) ⟨fine_sym (by decide), trivial⟩)⟩
  | .str segs, h => ⟨fine_printSegs segs false h, trivial⟩
  | .object fields, h =>
    ⟨fine_sym (by decide), fine_append (fine_printFields fields h) ⟨fine_sym (by decide), trivial⟩⟩
  | .field e key, h => fine_append (fine_paren (fine_print e h)) ⟨fine_sym (by decide), fine_keyParts key, trivial⟩

theorem fine_printTail : ∀ es : List Expr, WritableElems es → Fine (printTail es)
  | [], _ => trivial
  | e :: es, h => ⟨fine_sym (by decide), fine_append (fine_print e h.1) (fine_printTail es h.2)⟩

theorem fine_printSegs : ∀ (segs : List StrSeg) (behind : Bool), WritableSegs behind segs →
    FineParts behind (printSegs segs)
  | [], _, _ => trivial
  | .lit _ :: segs, _, h => ⟨h.1, h.2.1, fine_printSegs segs true h.2.2⟩
  | .interp e :: segs, _, h => ⟨fine_print e h.1, print_closed e 0, fine_printSegs segs false h.2⟩

theorem fine_printFields : ∀ fields : List (String × Expr), WritableFields fields → Fine (printFields fields)
  | [], _ => trivial
  | (key, e) :: fields, h =>
    ⟨fine_keyParts key, fine_sym (by decide), fine_append (fine_print e h.1)
      ⟨fine_sym (by decide), fine_printFields fields h.2⟩⟩

end

/-! ## Reading what is rendered -/

/-- The text of a tree that can be written parses to the tree. -/
theorem parse_render (e : Expr) (h : e.Writable) : parse (render e) = .ok e := by
  unfold parse render
  rw [tokenize_spell _ (fine_print e h)]
  exact (parsed e).whole.parseTokens

theorem word_ofList {cs : List Char} (hhead : (enc cs).head?.any (fun c => isAsciiAlphabetic c ∨ c = 95) = true)
    (hall : (enc cs).all isWord = true) (hkey : keyword (String.ofList cs) = .ident (String.ofList cs)) :
    Word (String.ofList cs) := by
  unfold Word
  rw [bytes_ofList]
  exact ⟨hhead, List.all_eq_true.mp hall, hkey⟩

theorem parse_render_interp :
    parse (render (.str [.lit "a", .interp (.binOp .mul (.binOp .add (.const (1 / 2)) (.ident "x")) (.ident "y"))])) =
      .ok (.str [.lit "a", .interp (.binOp .mul (.binOp .add (.const (1 / 2)) (.ident "x")) (.ident "y"))]) := by
  have hden : (1 / 2 : ℚ).den = 2 := by norm_num
  have hhalf : Decimal (1 / 2) := by
    unfold Decimal places
    rw [hden]
    decide +kernel
  have hx : Word "x" := @word_ofList ['x'] rfl rfl (by simp [keyword])
  have hy : Word "y" := @word_ofList ['y'] rfl rfl (by simp [keyword])
  exact parse_render _ ⟨rfl, by decide, ⟨⟨hhalf, hx⟩, hy⟩, trivial⟩

end GenVM.FeeExpr
