import Mathlib

/-!
# Fee expressions (`executor/crates/common/src/expr/evaluator.rs`, `expr/value.rs`)

The language of fee expressions: rational numbers, strings, arrays, objects and
functions, with lazy `let` and lazy arguments. What one call of `eval` does is a
program (`Prog`) whose recursive calls and thunks are left open, over values
that hold thunks of any kind `α`. It is run in two ways.

* `need`: as the code runs it. A thunk is a cell in memory that is computed at
  most once; a cell under computation, or whose computation failed, is
  `inProgress`.
* `name`: call by name. There is no memory; a thunk is the suspended expression
  itself with what its variables stand for (its substitution), and it is
  evaluated wherever it is demanded.

Both run on fuel; no result means that the run has not ended yet.
-/
namespace GenVM.FeeExpr

/-- mirrors expr/value.rs:115-127 -/
inductive BinOp where
  | add | sub | mul | div | lt | gt | le | ge | eq | ne
  deriving DecidableEq

mutual

/-- mirrors expr/value.rs:68-113 -/
inductive Expr where
  | const (n : ℚ)
  | ident (name : String)
  | unaryMinus (e : Expr)
  | binOp (op : BinOp) (lhs rhs : Expr)
  | letIn (name : String) (value body : Expr)
  | ifElse (cond then_branch else_branch : Expr)
  | lambda (param : String) (body : Expr)
  | apply (func arg : Expr)
  | array (elems : List Expr)
  | str (segs : List StrSeg)
  | object (fields : List (String × Expr))
  | field (obj : Expr) (key : String)

inductive StrSeg where
  | lit (s : String)
  | interp (e : Expr)

end

/-- mirrors expr/value.rs:33-43 -/
inductive EvalError where
  | undefinedVariable (name : String)
  | divisionByZero
  | typeError (expected got : String)
  | custom (msg : String)

/-- The names that `resolve_builtin` knows. -/
inductive Builtin where
  | floor | toString | hasKey | arrayLen | arrayGetElem | pow
  deriving DecidableEq

/-- Values whose functions hold thunks `α`, mirrors expr/value.rs:150-164. A host
function is a builtin, or the closure a builtin of two arguments makes of its
first one; the fields of an object are in the order of their keys. -/
inductive Value (α : Type) where
  | rational (r : ℚ)
  | bool (b : Bool)
  | hostFn (b : Builtin)
  | hasKeyOf (keys : List String)
  | arrayGetElemOf (elems : List (Value α))
  | powOf (base : ℚ)
  | guestFn (name : String) (body : Expr) (env : List (String × α))
  | array (elems : List (Value α))
  | str (s : String)
  | object (fields : List (String × Value α))

abbrev Env (α : Type) := List (String × α)

/-- What the caller resolves free variables with. Its values hold no thunks. -/
abbrev GetVar := String → Except EvalError (Value Empty)

/-- mirrors expr/evaluator.rs:12-16 -/
structure EvalContext (α : Type) where
  get_var : GetVar
  let_bindings : Env α

abbrev Res (α : Type) := Except EvalError (Value α)

variable {α : Type}

def EvalContext.insert (ctx : EvalContext α) (name : String) (thunk : α) : EvalContext α :=
  { ctx with let_bindings := (name, thunk) :: ctx.let_bindings }

/-! ## Values -/

/-- mirrors expr/value.rs:233-242 -/
def Value.typ : Value α → String
  | .rational _ => "number"
  | .bool _ => "bool"
  | .hostFn _ | .hasKeyOf _ | .arrayGetElemOf _ | .powOf _ | .guestFn _ _ _ => "function"
  | .array _ => "array"
  | .str _ => "string"
  | .object _ => "object"

def Value.as_str : Value α → Except EvalError String
  | .str s => .ok s
  | other => .error (.typeError "string" other.typ)

def Value.as_object : Value α → Except EvalError (List (String × Value α))
  | .object fields => .ok fields
  | other => .error (.typeError "object" other.typ)

def Value.into_rational : Value α → Except EvalError ℚ
  | .rational r => .ok r
  | other => .error (.typeError "number" other.typ)

def Value.is_truthy : Value α → Except EvalError Bool
  | .bool b => .ok b
  | other => .error (.typeError "bool" other.typ)

def ratText (r : ℚ) : String :=
  if r.den = 1 then toString r.num else toString r.num ++ "/" ++ toString r.den

mutual

/-- mirrors expr/value.rs:341-369; at the top `stringify` gives the same text -/
def Value.text : Value α → String
  | .rational r => ratText r
  | .bool b => toString b
  | .hostFn _ | .hasKeyOf _ | .arrayGetElemOf _ | .powOf _ => "<host-fn>"
  | .guestFn name _ _ => "<fn " ++ name ++ ">"
  | .array elems => "[" ++ ", ".intercalate (Value.texts elems) ++ "]"
  | .str s => s
  | .object fields => "\x7b " ++ Value.fieldsText fields ++ "\x7d"

def Value.texts : List (Value α) → List String
  | [] => []
  | v :: vs => v.text :: Value.texts vs

def Value.fieldsText : List (String × Value α) → String
  | [] => ""
  | (k, v) :: fields => k ++ " = " ++ v.text ++ "; " ++ Value.fieldsText fields

end

mutual

/-- A value without thunks, over any thunks. -/
def Value.lift : Value Empty → Value α
  | .rational r => .rational r
  | .bool b => .bool b
  | .hostFn b => .hostFn b
  | .hasKeyOf keys => .hasKeyOf keys
  | .arrayGetElemOf elems => .arrayGetElemOf (Value.lifts elems)
  | .powOf base => .powOf base
  | .guestFn name body _ => .guestFn name body []
  | .array elems => .array (Value.lifts elems)
  | .str s => .str s
  | .object fields => .object (Value.liftFields fields)

def Value.lifts : List (Value Empty) → List (Value α)
  | [] => []
  | v :: vs => v.lift :: Value.lifts vs

def Value.liftFields : List (String × Value Empty) → List (String × Value α)
  | [] => []
  | (k, v) :: fields => (k, v.lift) :: Value.liftFields fields

end

/-- `BTreeMap::insert` -/
def insertField (k : String) (v : Value α) : List (String × Value α) → List (String × Value α)
  | [] => [(k, v)]
  | (k', v') :: fields =>
    if k < k' then (k, v) :: (k', v') :: fields
    else if k = k' then (k, v) :: fields
    else (k', v') :: insertField k v fields

def keyOf : List (String × Value α) → String → Option (Value α)
  | [], _ => none
  | (k, v) :: fields, key => if key = k then some v else keyOf fields key

/-! ## Operators, builtins and fields -/

def ok_or (o : Option (Value α)) (e : EvalError) : Res α :=
  match o with
  | some v => .ok v
  | none => .error e

/-- Both operands as numbers, the left one first. -/
def numbers (l r : Value α) (f : ℚ → ℚ → Value α) : Res α :=
  match l.into_rational with
  | .error e => .error e
  | .ok a =>
    match r.into_rational with
    | .error e => .error e
    | .ok b => .ok (f a b)

/-- The right operand is looked at first. -/
def divide (l r : Value α) : Res α :=
  match r.into_rational with
  | .error e => .error e
  | .ok b =>
    if b = 0 then .error .divisionByZero
    else
      match l.into_rational with
      | .error e => .error e
      | .ok a => .ok (.rational (a / b))

/-- mirrors expr/evaluator.rs:59-74 -/
def equality (l r : Value α) (neg : Bool) : Res α :=
  match l, r with
  | .bool a, .bool b => .ok (.bool ((a == b) != neg))
  | .rational a, .rational b => .ok (.bool (decide (a = b) != neg))
  | l, r => .error (.typeError l.typ r.typ)

/-- mirrors expr/evaluator.rs:44-75, when both sides are evaluated -/
def binOp (op : BinOp) (l r : Value α) : Res α :=
  match op with
  | .add => numbers l r fun a b => .rational (a + b)
  | .sub => numbers l r fun a b => .rational (a - b)
  | .mul => numbers l r fun a b => .rational (a * b)
  | .div => divide l r
  | .lt => numbers l r fun a b => .bool (decide (a < b))
  | .gt => numbers l r fun a b => .bool (decide (a > b))
  | .le => numbers l r fun a b => .bool (decide (a ≤ b))
  | .ge => numbers l r fun a b => .bool (decide (a ≥ b))
  | .eq => equality l r false
  | .ne => equality l r true

/-- mirrors expr/evaluator.rs:169-245, the names -/
def resolve_builtin : String → Option Builtin
  | "floor" => some .floor
  | "toString" => some .toString
  | "hasKey" => some .hasKey
  | "arrayLen" => some .arrayLen
  | "arrayGetElem" => some .arrayGetElem
  | "pow" => some .pow
  | _ => none

/-- mirrors expr/evaluator.rs:219-240 -/
def power (base : ℚ) (exp : ℚ) : Res α :=
  if exp.den ≠ 1 then .error (.custom ("pow exponent must be an integer, got " ++ ratText exp))
  else if exp.num.natAbs ≥ 2 ^ 64 then .error (.custom "pow exponent too large")
  else
    let result := base ^ exp.num.natAbs
    if exp.num < 0 then
      if result = 0 then .error .divisionByZero else .ok (.rational result⁻¹)
    else .ok (.rational result)

/-- mirrors expr/evaluator.rs:195-210; `to_integer` cuts towards zero -/
def elemAt (elems : List (Value α)) (idx : ℚ) : Res α :=
  let i := idx.num.tdiv idx.den
  if i < 0 ∨ i ≥ 2 ^ 64 then .error (.custom ("array index out of range: " ++ ratText idx))
  else
    ok_or elems[i.toNat]? (.custom ("array index " ++ toString i ++ " out of bounds for length "
      ++ toString elems.length))

/-- A builtin on its first argument, mirrors expr/evaluator.rs:169-245 -/
def builtin (b : Builtin) (arg : Value α) : Res α :=
  match b with
  | .floor => arg.into_rational.map fun r => .rational (r.floor : ℤ)
  | .toString => .ok (.str arg.text)
  | .hasKey => arg.as_object.map fun fields => .hasKeyOf (fields.map Prod.fst)
  | .arrayLen =>
    match arg with
    | .array elems => .ok (.rational elems.length)
    | other => .error (.typeError "array" other.typ)
  | .arrayGetElem =>
    match arg with
    | .array elems => .ok (.arrayGetElemOf elems)
    | other => .error (.typeError "array" other.typ)
  | .pow => arg.into_rational.map .powOf

/-- mirrors expr/evaluator.rs:133-139 -/
def getField (obj : Value α) (key : String) : Res α :=
  obj.as_object.bind fun fields =>
    ok_or (keyOf fields key) (.custom ("object has no key `" ++ key ++ "`"))

/-! ## One call of `eval` -/

/-- A call up to its recursive calls and its thunks. An error of one of these
ends the call with it. -/
inductive Prog (α : Type) where
  | ret (r : Res α)
  | eval (e : Expr) (ctx : EvalContext α) (k : Value α → Prog α)
  /-- `thunk_of` -/
  | delay (e : Expr) (ctx : EvalContext α) (k : α → Prog α)
  | force (thunk : α) (k : Value α → Prog α)

def Prog.done (v : Value α) : Prog α := .ret (.ok v)

/-- mirrors expr/evaluator.rs:151-167 -/
def apply (f : Value α) (arg : α) (ctx : EvalContext α) : Prog α :=
  match f with
  | .hostFn b => .force arg fun v => .ret (builtin b v)
  | .hasKeyOf keys =>
    .force arg fun v => .ret (v.as_str.map fun key => .bool (decide (key ∈ keys)))
  | .arrayGetElemOf elems => .force arg fun v => .ret (v.into_rational.bind fun i => elemAt elems i)
  | .powOf base => .force arg fun v => .ret (v.into_rational.bind fun exp => power base exp)
  | .guestFn name body env => .eval body ⟨ctx.get_var, (name, arg) :: env⟩ .done
  | other => .ret (.error (.typeError "function" other.typ))

/-- mirrors expr/evaluator.rs:112-115 -/
def evalElems (ctx : EvalContext α) : List Expr → List (Value α) → Prog α
  | [], vals => .done (.array vals.reverse)
  | e :: es, vals => .eval e ctx fun v => evalElems ctx es (v :: vals)

/-- mirrors expr/evaluator.rs:116-125 -/
def evalSegs (ctx : EvalContext α) : List StrSeg → String → Prog α
  | [], out => .done (.str out)
  | .lit s :: segs, out => evalSegs ctx segs (out ++ s)
  | .interp e :: segs, out => .eval e ctx fun v => evalSegs ctx segs (out ++ v.text)

/-- mirrors expr/evaluator.rs:126-132 -/
def evalFields (ctx : EvalContext α) : List (String × Expr) → List (String × Value α) → Prog α
  | [], map => .done (.object map)
  | (k, e) :: fields, map => .eval e ctx fun v => evalFields ctx fields (insertField k v map)

/-- mirrors expr/evaluator.rs:28-36 -/
def ident (name : String) (ctx : EvalContext α) : Prog α :=
  match ctx.let_bindings.lookup name with
  | some thunk => .force thunk .done
  | none =>
    match resolve_builtin name with
    | some b => .done (.hostFn b)
    | none => .ret ((ctx.get_var name).map Value.lift)

/-- mirrors expr/evaluator.rs:88-99, with the condition evaluated -/
def branch (c : Value α) (then_branch else_branch : Expr) (ctx : EvalContext α) : Prog α :=
  match c.is_truthy with
  | .error e => .ret (.error e)
  | .ok true => .eval then_branch ctx .done
  | .ok false => .eval else_branch ctx .done

/-- mirrors expr/evaluator.rs:25-141 -/
def evalBody : Expr → EvalContext α → Prog α
  | .const n, _ => .done (.rational n)
  | .ident name, ctx => ident name ctx
  | .unaryMinus e, ctx =>
    .eval e ctx fun v => .ret (v.into_rational.map fun r => .rational (-r))
  | .binOp op lhs rhs, ctx => .eval lhs ctx fun l => .eval rhs ctx fun r => .ret (binOp op l r)
  -- the thunk closes over `ctx` without itself
  | .letIn name value body, ctx =>
    .delay value ctx fun thunk => .eval body (ctx.insert name thunk) .done
  | .ifElse cond then_branch else_branch, ctx =>
    .eval cond ctx fun c => branch c then_branch else_branch ctx
  | .lambda param body, ctx => .done (.guestFn param body ctx.let_bindings)
  | .apply func arg, ctx => .eval func ctx fun f => .delay arg ctx fun arg => apply f arg ctx
  | .array elems, ctx => evalElems ctx elems []
  | .str segs, ctx => evalSegs ctx segs ""
  | .object fields, ctx => evalFields ctx fields []
  | .field obj key, ctx => .eval obj ctx fun v => .ret (getField v key)

/-! ## Call by need -/

/-- mirrors expr/value.rs:176-180, over the addresses of thunks -/
inductive ThunkState where
  | forced (v : Value Nat)
  | deferred (e : Expr) (ctx : EvalContext Nat)
  | inProgress

abbrev Heap := List ThunkState

/-- No result while the run has not ended. -/
abbrev NeedRun := Option (Res Nat × Heap)

/-- Go on with a value; an error ends the run where it is. -/
def NeedRun.next (r : NeedRun) (k : Value Nat → Heap → NeedRun) : NeedRun :=
  match r with
  | none => none
  | some (.error e, h) => some (.error e, h)
  | some (.ok v, h) => k v h

section
variable (ev : Expr → EvalContext Nat → Heap → NeedRun)

/-- mirrors expr/value.rs:191-221 -/
def force (a : Nat) (h : Heap) : NeedRun :=
  match h[a]? with
  | some (.forced v) => some (.ok v, h)
  | some .inProgress =>
    some (.error (.custom "infinite recursion while forcing a lazy value"), h)
  | some (.deferred e ctx) =>
    -- on an error the cell is left `inProgress`
    (ev e ctx (h.set a .inProgress)).next fun v h => some (.ok v, h.set a (.forced v))
  | none => none

def runNeed : Prog Nat → Heap → NeedRun
  | .ret r, h => some (r, h)
  | .eval e ctx k, h => (ev e ctx h).next fun v h => runNeed (k v) h
  | .delay e ctx k, h => runNeed (k h.length) (h ++ [.deferred e ctx])
  | .force a k, h => (force ev a h).next fun v h => runNeed (k v) h

end

/-- mirrors expr/evaluator.rs:25-141 -/
def need : Nat → Expr → EvalContext Nat → Heap → NeedRun
  | 0, _, _, _ => none
  | fuel + 1, e, ctx, h => runNeed (need fuel) (evalBody e ctx) h

/-- mirrors expr/evaluator.rs:268-279 -/
def evaluate_with (fuel : Nat) (e : Expr) (get_var : GetVar) (h : Heap) : NeedRun :=
  need fuel e ⟨get_var, []⟩ h

/-- mirrors expr/evaluator.rs:250-260 -/
def apply_with (fuel : Nat) (f : Value Nat) (arg : Value Empty) (get_var : GetVar) (h : Heap) :
    NeedRun :=
  runNeed (need fuel) (apply f h.length ⟨get_var, []⟩) (h ++ [.forced arg.lift])

/-- mirrors rt/fees.rs:25-29 -/
def no_free_vars : GetVar := fun name => .error (.undefinedVariable name)

/-! ## Call by name -/

/-- An expression that is suspended with what its variables stand for, or a value
that is given. -/
inductive Closure where
  | expr (e : Expr) (get_var : GetVar) (env : List (String × Closure))
  | given (v : Value Empty)

abbrev NameRun := Option (Res Closure)

def NameRun.next (r : NameRun) (k : Value Closure → NameRun) : NameRun :=
  match r with
  | none => none
  | some (.error e) => some (.error e)
  | some (.ok v) => k v

section
variable (ev : Expr → EvalContext Closure → NameRun)

def demand : Closure → NameRun
  | .expr e get_var env => ev e ⟨get_var, env⟩
  | .given v => some (.ok v.lift)

def runName : Prog Closure → NameRun
  | .ret r => some r
  | .eval e ctx k => (ev e ctx).next fun v => runName (k v)
  | .delay e ctx k => runName (k (.expr e ctx.get_var ctx.let_bindings))
  | .force c k => (demand ev c).next fun v => runName (k v)

end

def name : Nat → Expr → EvalContext Closure → NameRun
  | 0, _, _ => none
  | fuel + 1, e, ctx => runName (name fuel) (evalBody e ctx)

/-- What a value comes from: an expression, or an application of such a value to
an argument. -/
inductive Origin where
  | expr (e : Expr) (get_var : GetVar)
  | applied (f : Origin) (arg : Value Empty) (get_var : GetVar)

/-- The value by name: everything is evaluated again from the expression. -/
def nameOf (fuel : Nat) : Origin → NameRun
  | .expr e get_var => name fuel e ⟨get_var, []⟩
  | .applied f arg get_var =>
    (nameOf fuel f).next fun f => runName (name fuel) (apply f (.given arg) ⟨get_var, []⟩)

end GenVM.FeeExpr
