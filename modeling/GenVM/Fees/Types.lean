import GenVM.Lib.SortedMap

/-!
# Data fees (`executor/src/rt/fees.rs`)

A `DataLimit` holds what is left of the on-chain buckets and, for each fee
category, which buckets its costs go to and what it consumed so far. Amounts are
`U256`: naturals below `2^256`, whose `+` and `-` panic where the result is not
one. The build profiles set `panic = "abort"`, so nothing is left to observe
after a panic; a function that can panic returns `none` there.

The fee expressions are parameters: `delta` maps the attributes of a charge to
the value of the expression, or to nothing when its evaluation fails.
-/
namespace GenVM.Fees
open GenVM.Lib

/-! ## Amounts -/

def U256_BOUND : Nat := 2 ^ 256

/-- `a + b` -/
def add (a b : Nat) : Option Nat := if a + b < U256_BOUND then some (a + b) else none

/-- `a - b` -/
def sub (a b : Nat) : Option Nat := if b ≤ a then some (a - b) else none

/-! ## Values of the fee expressions -/

/-- `other` stands for functions and strings, which no cost is made of.
mirrors executor/crates/common/src/expr/value.rs:150-164 -/
inductive Value where
  | rational (r : ℚ)
  | bool (b : Bool)
  | array (xs : List Value)
  | object (kvs : List (String × Value))
  | other

/-- mirrors executor/src/rt/fees.rs:88-103 -/
def rational_to_u256 (r : ℚ) : Option Nat :=
  if r.den ≠ 1 then none
  else if r.num < 0 then none
  else if U256_BOUND ≤ r.num.toNat then none
  else some r.num.toNat

def Value.toU256 : Value → Option Nat
  | .rational r => rational_to_u256 r
  | _ => none

/-- mirrors executor/src/rt/fees.rs:105-132 -/
def value_to_u256_vec (value : Value) (bucket_count : Nat) : Option (List Nat) :=
  match value with
  | .rational r => (rational_to_u256 r).map (List.replicate bucket_count)
  | .array arr => if arr.length = bucket_count then arr.mapM Value.toU256 else none
  | _ => none

/-- The attributes of a charge. -/
abbrev Attrs := List (String × Value)

/-- mirrors executor/src/rt/fees.rs:10-12 -/
def num (n : Nat) : Value := .rational n

/-! ## Categories -/

/-- The fee categories, the fields of `DataLimit`. -/
inductive Category where
  | storage | message_receipt | nondet_output | message_fee | event
  deriving DecidableEq

/-- mirrors executor/src/rt/fees.rs:161-168 -/
structure Bucket where
  bucket_nos : List Nat
  subtract_on_start : List Nat
  delta : Attrs → Option Value
  oom_error : String
  total_consumed : List Nat

/-- What the node configures for a category: the buckets, and the values of the
two expressions over the node's constants.
mirrors executor/src/config.rs:51-61 -/
structure FeesBucketConfig where
  bucket_no : List Nat
  subtract_on_start : Option Value
  delta : Option (Attrs → Option Value)

/-- mirrors executor/src/rt/fees.rs:179-206 -/
def build_bucket (cfg : FeesBucketConfig) (oom_error : String) : Option Bucket :=
  let n := cfg.bucket_no.length
  if n = 0 then none
  else do
    let subtract_on_start ← value_to_u256_vec (← cfg.subtract_on_start) n
    let delta ← cfg.delta
    some ⟨cfg.bucket_no, subtract_on_start, delta, oom_error, List.replicate n 0⟩

/-- mirrors executor/src/rt/fees.rs:246-253 -/
structure DataLimit where
  buckets : List Nat
  category : Category → Bucket

/-- mirrors executor/src/rt/fees.rs:276-305 -/
def oom_error : Category → String
  | .storage => "OOM storage"
  | .message_receipt => "OOM receipt message internal"
  | .nondet_output => "OOM receipt nondet_output"
  | .message_fee => "OOM fees internal"
  | .event => "OOM storage"

/-- mirrors executor/src/rt/fees.rs:256-315 -/
def DataLimit.new (bucket_totals : List Nat) (fees : Category → FeesBucketConfig) :
    Option DataLimit := do
  let storage ← build_bucket (fees .storage) (oom_error .storage)
  let message_receipt ← build_bucket (fees .message_receipt) (oom_error .message_receipt)
  let nondet_output ← build_bucket (fees .nondet_output) (oom_error .nondet_output)
  let message_fee ← build_bucket (fees .message_fee) (oom_error .message_fee)
  let event ← build_bucket (fees .event) (oom_error .event)
  some ⟨bucket_totals, fun
    | .storage => storage
    | .message_receipt => message_receipt
    | .nondet_output => nondet_output
    | .message_fee => message_fee
    | .event => event⟩

/-! ## Charging a category -/

/-- The costs already checked for the same bucket, on top of `cost`.
mirrors executor/src/rt/fees.rs:363-369 -/
def cumulative (bno : Nat) : Nat → List (Nat × Nat) → Option Nat
  | cost, [] => some cost
  | cost, (prev_bno, prev_cost) :: prev =>
    if prev_bno = bno then do
      let cost ← add cost prev_cost
      cumulative bno cost prev
    else cumulative bno cost prev

/-- `prev` are the costs before the current one.
mirrors executor/src/rt/fees.rs:347-379 -/
def checkCosts (buckets : List Nat) : List (Nat × Nat) → List (Nat × Nat) → Option Bool
  | _, [] => some true
  | prev, (bno, cost) :: rest =>
    match buckets[bno]? with
    | none => some false
    | some remaining =>
      if remaining < cost then some false
      else do
        let cumulative ← cumulative bno cost prev
        if remaining < cumulative then some false
        else checkCosts buckets (prev ++ [(bno, cost)]) rest

/-- Subtract one cost from its bucket. -/
def subtractAt (buckets : List Nat) (bno cost : Nat) : Option (List Nat) := do
  let remaining ← buckets[bno]?
  let remaining ← sub remaining cost
  some (buckets.set bno remaining)

/-- The second list walks along `total_consumed`.
mirrors executor/src/rt/fees.rs:380-389 -/
def applyCosts : List (Nat × Nat) → List Nat → List Nat → Option (List Nat × List Nat)
  | [], totals, buckets => some (buckets, totals)
  | (bno, cost) :: rest, totals, buckets => do
    let buckets ← subtractAt buckets bno cost
    let total ← totals.head?
    let total ← add total cost
    let (buckets, totals) ← applyCosts rest totals.tail buckets
    some (buckets, total :: totals)

def Bucket.setConsumed (bucket : Bucket) (totals : List Nat) : Bucket :=
  { bucket with total_consumed := totals }

def DataLimit.setConsumed (s : DataLimit) (cat : Category) (totals : List Nat) : DataLimit :=
  { s with category := Function.update s.category cat ((s.category cat).setConsumed totals) }

/-- mirrors executor/src/rt/fees.rs:345-392 -/
def consume_bucket_raw (s : DataLimit) (cat : Category) (costs : List Nat) :
    Option (Bool × DataLimit) := do
  let pairs := (s.category cat).bucket_nos.zip costs
  if ← checkCosts s.buckets [] pairs then
    let (buckets, totals) ← applyCosts pairs (s.category cat).total_consumed s.buckets
    some (true, { s with buckets := buckets }.setConsumed cat totals)
  else some (false, s)

/-- mirrors executor/src/rt/fees.rs:317-334 -/
def calculate_bucket (bucket : Bucket) (vars : Attrs) : Option (List Nat) := do
  value_to_u256_vec (← bucket.delta vars) bucket.bucket_nos.length

/-- The result is `none` when the expression fails.
mirrors executor/src/rt/fees.rs:336-343 -/
def consume_bucket (s : DataLimit) (cat : Category) (vars : Attrs) :
    Option (Option Bool × DataLimit) :=
  match calculate_bucket (s.category cat) vars with
  | none => some (none, s)
  | some costs => do
    let (charged, s) ← consume_bucket_raw s cat costs
    some (some charged, s)

/-- mirrors executor/src/rt/fees.rs:444-447 -/
def consume_storage_pages (s : DataLimit) (pages : Nat) : Option (Option Bool × DataLimit) :=
  consume_bucket s .storage [("pages", num pages)]

/-- mirrors executor/src/rt/fees.rs:466-473 -/
def consume_nondet_output (s : DataLimit) (output_length : Nat) :
    Option (Option Bool × DataLimit) :=
  consume_bucket s .nondet_output [("outputLength", num output_length)]

/-- The categories in the order they are charged up-front.
mirrors executor/src/rt/fees.rs:421-427 -/
def initialOrder : List Category := [.storage, .message_receipt, .nondet_output, .message_fee, .event]

/-- The result names the category that cannot cover its initial cost.
mirrors executor/src/rt/fees.rs:420-442 -/
def consumeInOrder (s : DataLimit) : List Category → Option (Option Category × DataLimit)
  | [] => some (none, s)
  | cat :: rest => do
    let (charged, s) ← consume_bucket_raw s cat (s.category cat).subtract_on_start
    if charged then consumeInOrder s rest else some (some cat, s)

def consume_initial (s : DataLimit) : Option (Option Category × DataLimit) :=
  consumeInOrder s initialOrder

/-- mirrors executor/src/rt/fees.rs:213-218 -/
def sum : List Nat → Nat → Option Nat
  | [], acc => some acc
  | c :: cs, acc => do sum cs (← add acc c)

/-- The result is `none` when the expression fails, `some none` when the fee is
not covered.
mirrors executor/src/rt/fees.rs:475-492 -/
def consume_event (s : DataLimit) (blob_size topics_count : Nat) :
    Option (Option (Option Nat) × DataLimit) :=
  match calculate_bucket (s.category .event)
      [("blobSize", num blob_size), ("topicsCount", num topics_count)] with
  | none => some (none, s)
  | some costs => do
    let (charged, s) ← consume_bucket_raw s .event costs
    if charged then
      let total ← sum costs 0
      some (some (some total), s)
    else some (some none, s)

/-! ## Charging a message -/

/-- mirrors executor/src/rt/fees.rs:520-530 -/
def addDeductions : List (Nat × Nat) → List (Nat × Nat) → Option (List (Nat × Nat))
  | deductions, [] => some deductions
  | deductions, (bno, cost) :: rest => do
    let total ← add ((deductions.lookup bno).getD 0) cost
    addDeductions (SortedMap.insert (· < ·) bno total deductions) rest

/-- mirrors executor/src/rt/fees.rs:533-547 -/
def checkDeductions (buckets : List Nat) : List (Nat × Nat) → Bool
  | [] => true
  | (bno, total) :: rest =>
    match buckets[bno]? with
    | none => false
    | some remaining => if remaining < total then false else checkDeductions buckets rest

/-- mirrors executor/src/rt/fees.rs:550-552 -/
def applyDeductions : List (Nat × Nat) → List Nat → Option (List Nat)
  | [], buckets => some buckets
  | (bno, total) :: rest, buckets => do applyDeductions rest (← subtractAt buckets bno total)

/-- mirrors executor/src/rt/fees.rs:556-561 -/
def record : List Nat → List Nat → Option (List Nat)
  | [], totals => some totals
  | cost :: costs, totals => do
    let total ← totals.head?
    let total ← add total cost
    let totals ← record costs totals.tail
    some (total :: totals)

/-- mirrors executor/src/rt/fees.rs:513-565 -/
def consume_message_fee (s : DataLimit) (cost_fee cost_receipt : List Nat) :
    Option (Bool × DataLimit) := do
  let deductions ← addDeductions [] ((s.category .message_fee).bucket_nos.zip cost_fee)
  let deductions ←
    addDeductions deductions ((s.category .message_receipt).bucket_nos.zip cost_receipt)
  if checkDeductions s.buckets deductions then
    let buckets ← applyDeductions deductions s.buckets
    let s := { s with buckets := buckets }
    let fee ← record cost_fee (s.category .message_fee).total_consumed
    let s := s.setConsumed .message_fee fee
    let receipt ← record cost_receipt (s.category .message_receipt).total_consumed
    some (true, s.setConsumed .message_receipt receipt)
  else some (false, s)

end GenVM.Fees
