import Mathlib

/-!
# From float instructions to softfloat calls (`runners/support/tools/genvm-floats-to-soft/src/main.rs`)

The tool appends the softfloat functions to the imports of a core module,
replaces float instructions by calls of them, and shifts the function indices
behind the imports. What it reads and writes with `wasmparser` and
`wasm_encoder` is modelled by a list of sections; `β` is what it only copies
(of the contents of a section that holds no function index, the whole).
-/
namespace GenVM.FloatsToSoft

inductive ValType where
  | i32 | i64 | f32 | f64 | v128
  deriving DecidableEq

structure FuncType where
  params : List ValType
  results : List ValType
  deriving DecidableEq

inductive Width where
  | f32 | f64
  deriving DecidableEq

def Width.val : Width → ValType
  | .f32 => .f32
  | .f64 => .f64

def Width.text : Width → String
  | .f32 => "f32"
  | .f64 => "f64"

def Width.other : Width → Width
  | .f32 => .f64
  | .f64 => .f32

/-! ## Instructions -/

/-- The scalar instructions of the pass, named for `F32Neg`, `I32TruncF32S` and so
on without the width; `convertFloat` is `F32DemoteF64` or `F64PromoteF32`. -/
inductive ScalarInstr where
  | neg | abs | copysign
  | convertI32U | convertI32S | convertI64U | convertI64S
  | add | sub | mul | div | min | max
  | le | lt | ge | gt | eq | ne
  | i32TruncS | i32TruncU | i64TruncS | i64TruncU
  | i32TruncSatS | i32TruncSatU | i64TruncSatS | i64TruncSatU
  | floor | ceil | trunc | nearest
  | convertFloat
  | sqrt
  deriving DecidableEq

/-- The vector instructions of one shape; `convertFloat` is `F32x4DemoteF64x2Zero`
or `F64x2PromoteLowF32x4`. -/
inductive LaneInstr where
  | add | sub | mul | div | sqrt | neg | abs | min | max | pmin | pmax
  | ceil | floor | trunc | nearest
  | eq | ne | lt | gt | le | ge
  | convertI32x4S | convertI32x4U
  | convertFloat
  deriving DecidableEq

/-- The float instructions the pass replaces. -/
inductive FloatInstr where
  | scalar (w : Width) (i : ScalarInstr)
  | lanes (w : Width) (i : LaneInstr)
  /-- `I32x4TruncSatF32x4S`, `I32x4TruncSatF64x2UZero` and so on -/
  | truncSat (w : Width) (unsigned : Bool)
  deriving DecidableEq

inductive Instr (β : Type) where
  | float (f : FloatInstr)
  | call (func : Nat)
  | returnCall (func : Nat)
  | refFunc (func : Nat)
  | other (x : β)

/-- Of a constant expression. -/
inductive ConstInstr (β : Type) where
  | refFunc (func : Nat)
  | other (x : β)

/-! ## Modules -/

inductive ImportKind (β : Type) where
  | func (type : Nat)
  /-- a table, memory, global or tag -/
  | other (x : β)

structure Import (β : Type) where
  modul : String
  name : String
  kind : ImportKind β

/-- What an export exports. -/
inductive ExportKind (β : Type) where
  | func (func : Nat)
  | other (x : β)

inductive ElemItems (β : Type) where
  | functions (funcs : List Nat)
  | exprs (exprs : List (List (ConstInstr β)))

structure Body (β : Type) where
  locals : β
  code : List (Instr β)

inductive Section (β : Type) where
  | types (types : List FuncType)
  | imports (imports : List (Import β))
  | functions (types : List Nat)
  /-- each table with its initial expression -/
  | tables (tables : List (β × List (ConstInstr β)))
  | globals (globals : List (β × List (ConstInstr β)))
  | exports (exports : List (String × ExportKind β))
  | start (func : Nat)
  | elements (elems : List (β × ElemItems β))
  | code (bodies : List (Body β))
  /-- memories, tags, data count, data, custom -/
  | other (x : β)

abbrev Module (β : Type) := List (Section β)

variable {β : Type}

/-! ## The tables of the pass -/

/-- mirrors main.rs:54-63 -/
inductive FTypes where
  | bopf | uopf | boolop | from_i32 | from_i64 | sat_to_i32 | sat_to_i64
  deriving DecidableEq

/-- mirrors main.rs:65-103 -/
inductive FOps where
  | add | mul | sub | div | neg | abs | lt | le | eq | ne | ge | gt
  | from_u32 | from_i32 | from_u64 | from_i64 | to_u32 | to_i32 | to_u64 | to_i64
  | flt_conv_to
  | floor | ceil | trunc_float | nearest | sqrt
  | copysign | min | max | sat_to_i32 | sat_to_u32 | sat_to_i64 | sat_to_u64
  deriving DecidableEq

/-- The types the pass adds. -/
inductive TypeVar where
  | f (w : Width) (t : FTypes)
  | to_f64 | to_f32
  | simd_bop | simd_uop
  deriving DecidableEq

/-- The functions the pass adds, `f32_ops`, `f64_ops` and `simd_ops`; the fields of
the last are named for the instructions. -/
inductive OpVar where
  | f (w : Width) (op : FOps)
  | lanes (w : Width) (i : LaneInstr)
  | truncSat (w : Width) (unsigned : Bool)
  deriving DecidableEq

/-- mirrors main.rs:213-231, each of the two -/
def f_types (w : Width) : List (TypeVar × FuncType) :=
  [(.f w .bopf, ⟨[w.val, w.val], [w.val]⟩),
   (.f w .uopf, ⟨[w.val], [w.val]⟩),
   (.f w .boolop, ⟨[w.val, w.val], [.i32]⟩),
   (.f w .from_i32, ⟨[.i32], [w.val]⟩),
   (.f w .from_i64, ⟨[.i64], [w.val]⟩),
   (.f w .sat_to_i32, ⟨[w.val], [.i32]⟩),
   (.f w .sat_to_i64, ⟨[w.val], [.i64]⟩)]

/-- mirrors main.rs:213-237, in the order of the calls of `adder.add` -/
def addedTypes : List (TypeVar × FuncType) :=
  f_types .f32 ++ f_types .f64 ++
    [(.to_f64, ⟨[.f32], [.f64]⟩), (.to_f32, ⟨[.f64], [.f32]⟩),
     (.simd_bop, ⟨[.v128, .v128], [.v128]⟩), (.simd_uop, ⟨[.v128], [.v128]⟩)]

/-- `f64_to_f32_type` and `f32_to_f64_type` -/
def Width.conv_type : Width → TypeVar
  | .f32 => .to_f32
  | .f64 => .to_f64

/-- mirrors main.rs:270-345, each of the two -/
def f_ops (w : Width) : List (OpVar × String × TypeVar) :=
  [(.f w .add, w.text ++ "_add", .f w .bopf),
   (.f w .mul, w.text ++ "_mul", .f w .bopf),
   (.f w .sub, w.text ++ "_sub", .f w .bopf),
   (.f w .div, w.text ++ "_div", .f w .bopf),
   (.f w .neg, w.text ++ "_neg", .f w .uopf),
   (.f w .abs, w.text ++ "_abs", .f w .uopf),
   (.f w .lt, w.text ++ "_lt_quiet", .f w .boolop),
   (.f w .le, w.text ++ "_le_quiet", .f w .boolop),
   (.f w .eq, w.text ++ "_eq", .f w .boolop),
   (.f w .ne, w.text ++ "_ne", .f w .boolop),
   (.f w .ge, w.text ++ "_ge_quiet", .f w .boolop),
   (.f w .gt, w.text ++ "_gt_quiet", .f w .boolop),
   (.f w .from_u32, "ui32_to_" ++ w.text, .f w .from_i32),
   (.f w .from_i32, "i32_to_" ++ w.text, .f w .from_i32),
   (.f w .from_u64, "ui64_to_" ++ w.text, .f w .from_i64),
   (.f w .from_i64, "i64_to_" ++ w.text, .f w .from_i64),
   (.f w .to_i32, w.text ++ "_to_i32_trunc", .f w .sat_to_i32),
   (.f w .to_u32, w.text ++ "_to_ui32_trunc", .f w .sat_to_i32),
   (.f w .to_i64, w.text ++ "_to_i64_trunc", .f w .sat_to_i64),
   (.f w .to_u64, w.text ++ "_to_ui64_trunc", .f w .sat_to_i64),
   (.f w .flt_conv_to, w.other.text ++ "_to_" ++ w.text, w.conv_type),
   (.f w .floor, w.text ++ "_floor", .f w .uopf),
   (.f w .ceil, w.text ++ "_ceil", .f w .uopf),
   (.f w .trunc_float, w.text ++ "_trunc", .f w .uopf),
   (.f w .nearest, w.text ++ "_nearest", .f w .uopf),
   (.f w .sqrt, w.text ++ "_sqrt", .f w .uopf),
   (.f w .copysign, w.text ++ "_copysign", .f w .bopf),
   (.f w .min, w.text ++ "_min", .f w .bopf),
   (.f w .max, w.text ++ "_max", .f w .bopf),
   (.f w .sat_to_i32, w.text ++ "_to_i32_sat", .f w .sat_to_i32),
   (.f w .sat_to_u32, w.text ++ "_to_ui32_sat", .f w .sat_to_i32),
   (.f w .sat_to_i64, w.text ++ "_to_i64_sat", .f w .sat_to_i64),
   (.f w .sat_to_u64, w.text ++ "_to_ui64_sat", .f w .sat_to_i64)]

/-- mirrors main.rs:352-372 and 389-409, the operations both shapes have -/
def lane_ops (w : Width) (shape : String) : List (OpVar × String × TypeVar) :=
  [(.lanes w .add, shape ++ "_add", .simd_bop),
   (.lanes w .sub, shape ++ "_sub", .simd_bop),
   (.lanes w .mul, shape ++ "_mul", .simd_bop),
   (.lanes w .div, shape ++ "_div", .simd_bop),
   (.lanes w .sqrt, shape ++ "_sqrt", .simd_uop),
   (.lanes w .neg, shape ++ "_neg", .simd_uop),
   (.lanes w .abs, shape ++ "_abs", .simd_uop),
   (.lanes w .min, shape ++ "_min", .simd_bop),
   (.lanes w .max, shape ++ "_max", .simd_bop),
   (.lanes w .pmin, shape ++ "_pmin", .simd_bop),
   (.lanes w .pmax, shape ++ "_pmax", .simd_bop),
   (.lanes w .ceil, shape ++ "_ceil", .simd_uop),
   (.lanes w .floor, shape ++ "_floor", .simd_uop),
   (.lanes w .trunc, shape ++ "_trunc", .simd_uop),
   (.lanes w .nearest, shape ++ "_nearest", .simd_uop),
   (.lanes w .eq, shape ++ "_eq", .simd_bop),
   (.lanes w .ne, shape ++ "_ne", .simd_bop),
   (.lanes w .lt, shape ++ "_lt", .simd_bop),
   (.lanes w .gt, shape ++ "_gt", .simd_bop),
   (.lanes w .le, shape ++ "_le", .simd_bop),
   (.lanes w .ge, shape ++ "_ge", .simd_bop)]

/-- mirrors main.rs:351-446 -/
def simd_ops : List (OpVar × String × TypeVar) :=
  lane_ops .f32 "f32x4" ++
    [(.lanes .f32 .convertI32x4S, "f32x4_convert_i32x4_s", .simd_uop),
     (.lanes .f32 .convertI32x4U, "f32x4_convert_i32x4_u", .simd_uop),
     (.lanes .f32 .convertFloat, "f32x4_demote_f64x2_zero", .simd_uop)] ++
    (lane_ops .f64 "f64x2" ++
    [(.lanes .f64 .convertI32x4S, "f64x2_convert_low_i32x4_s", .simd_uop),
     (.lanes .f64 .convertI32x4U, "f64x2_convert_low_i32x4_u", .simd_uop),
     (.lanes .f64 .convertFloat, "f64x2_promote_low_f32x4", .simd_uop),
     (.truncSat .f32 false, "i32x4_trunc_sat_f32x4_s", .simd_uop),
     (.truncSat .f32 true, "i32x4_trunc_sat_f32x4_u", .simd_uop),
     (.truncSat .f64 false, "i32x4_trunc_sat_f64x2_s_zero", .simd_uop),
     (.truncSat .f64 true, "i32x4_trunc_sat_f64x2_u_zero", .simd_uop)])

/-- The calls of `adder.add` and `adder.add_from`, in their order. -/
def addedOps : List (OpVar × String × TypeVar) := f_ops .f32 ++ f_ops .f64 ++ simd_ops

/-- The position at which a key was added. -/
def position {κ ν : Type} [DecidableEq κ] (table : List (κ × ν)) (key : κ) : Nat :=
  table.findIdx fun row => row.1 = key

/-- mirrors main.rs:576-779 -/
def scalarOp : ScalarInstr → FOps
  | .neg => .neg
  | .abs => .abs
  | .copysign => .copysign
  | .convertI32U => .from_u32
  | .convertI32S => .from_i32
  | .convertI64U => .from_u64
  | .convertI64S => .from_i64
  | .add => .add
  | .sub => .sub
  | .mul => .mul
  | .div => .div
  | .min => .min
  | .max => .max
  | .le => .le
  | .lt => .lt
  | .ge => .ge
  | .gt => .gt
  | .eq => .eq
  | .ne => .ne
  | .i32TruncS => .to_i32
  | .i32TruncU => .to_u32
  | .i64TruncS => .to_i64
  | .i64TruncU => .to_u64
  | .i32TruncSatS => .sat_to_i32
  | .i32TruncSatU => .sat_to_u32
  | .i64TruncSatS => .sat_to_i64
  | .i64TruncSatU => .sat_to_u64
  | .floor => .floor
  | .ceil => .ceil
  | .trunc => .trunc_float
  | .nearest => .nearest
  | .convertFloat => .flt_conv_to
  | .sqrt => .sqrt

def opOf : FloatInstr → OpVar
  | .scalar w i => .f w (scalarOp i)
  | .lanes w i => .lanes w i
  | .truncSat w unsigned => .truncSat w unsigned

/-! ## The pass -/

/-- `MyEncoder` and the variables of `parse_core_module`. The indices of the added
types and functions are counted on from where they begin. -/
structure State where
  start : Nat
  off : Nat
  types : Option Nat
  ops : Option Nat

def State.new : State := ⟨0, 0, none, none⟩

/-- mirrors main.rs:24-30 -/
def State.function_index (s : State) (func : Nat) : Nat :=
  if func ≥ s.start then (func + s.off) % 2 ^ 32 else func

def constInstr (s : State) : ConstInstr β → ConstInstr β
  | .refFunc func => .refFunc (s.function_index func)
  | .other x => .other x

/-- mirrors main.rs:574-961; `unwrap` of operations that are not there panics -/
def instr (s : State) : Instr β → Option (Instr β)
  | .float f => s.ops.map fun base => .call (base + position addedOps (opOf f))
  | .call func => some (.call (s.function_index func))
  | .returnCall func => some (.returnCall (s.function_index func))
  | .refFunc func => some (.refFunc (s.function_index func))
  | .other x => some (.other x)

def body (s : State) (b : Body β) : Option (Body β) :=
  (b.code.mapM (instr s)).map fun code => { b with code := code }

def elemItems (s : State) : ElemItems β → ElemItems β
  | .functions funcs => .functions (funcs.map s.function_index)
  | .exprs exprs => .exprs (exprs.map (List.map (constInstr s)))

def exportKind (s : State) : ExportKind β → ExportKind β
  | .func func => .func (s.function_index func)
  | .other x => .other x

def softImports (types : Nat) : List (Import β) :=
  addedOps.map fun row => ⟨"softfloat", row.2.1, .func (types + position addedTypes row.2.2)⟩

/-- mirrors main.rs:176-1017, one section -/
def parseSection (s : State) : Section β → Option (Section β × State)
  | .types types =>
    some (.types (types ++ addedTypes.map Prod.snd), { s with types := some types.length })
  | .imports imports =>
    s.types.map fun types =>
      (.imports (imports ++ softImports types),
        { s with start := imports.length, off := addedOps.length, ops := some imports.length })
  | .functions types => some (.functions types, s)
  | .tables tables => some (.tables (tables.map fun t => (t.1, t.2.map (constInstr s))), s)
  | .globals globals => some (.globals (globals.map fun g => (g.1, g.2.map (constInstr s))), s)
  | .exports exports => some (.exports (exports.map fun e => (e.1, exportKind s e.2)), s)
  | .start func => some (.start (s.function_index func), s)
  | .elements elems => some (.elements (elems.map fun e => (e.1, elemItems s e.2)), s)
  | .code bodies => (bodies.mapM (body s)).map fun bodies => (.code bodies, s)
  | .other x => some (.other x, s)

/-- mirrors main.rs:176-1020 -/
def parseSections (s : State) : Module β → Option (Module β)
  | [] => some []
  | sec :: rest =>
    (parseSection s sec).bind fun out =>
      (parseSections out.2 rest).map fun rest => out.1 :: rest

def parse_core_module (m : Module β) : Option (Module β) := parseSections .new m

/-! ## What an index denotes -/

def Section.typesOf : Section β → List FuncType
  | .types ts => ts
  | _ => []

def Section.importsOf : Section β → List (Import β)
  | .imports is => is
  | _ => []

def Section.functionsOf : Section β → List Nat
  | .functions ts => ts
  | _ => []

def Module.types (m : Module β) : List FuncType := m.flatMap Section.typesOf
def Module.imports (m : Module β) : List (Import β) := m.flatMap Section.importsOf
def Module.functions (m : Module β) : List Nat := m.flatMap Section.functionsOf

def Import.isFunc (i : Import β) : Bool :=
  match i.kind with
  | .func _ => true
  | .other _ => false

/-- A function of a module: an import, by its position among all imports, or the
body at a position of the code section. -/
inductive Entity where
  | imported (position : Nat)
  | defined (position : Nat)
  deriving DecidableEq

/-- The functions among imports that begin at a position, in their order. -/
def imported : Nat → List (Import β) → List Entity
  | _, [] => []
  | p, i :: is => if i.isFunc then .imported p :: imported (p + 1) is else imported (p + 1) is

/-- The function index space: imported functions, then the defined ones. -/
def Module.funcs (m : Module β) : List Entity :=
  imported 0 m.imports ++ (List.range m.functions.length).map .defined

/-! ## The softfloat operation of an instruction -/

/-- By the names of the softfloat library. -/
def ScalarInstr.softName (w : Width) : ScalarInstr → String
  | .neg => w.text ++ "_neg"
  | .abs => w.text ++ "_abs"
  | .copysign => w.text ++ "_copysign"
  | .convertI32U => "ui32_to_" ++ w.text
  | .convertI32S => "i32_to_" ++ w.text
  | .convertI64U => "ui64_to_" ++ w.text
  | .convertI64S => "i64_to_" ++ w.text
  | .add => w.text ++ "_add"
  | .sub => w.text ++ "_sub"
  | .mul => w.text ++ "_mul"
  | .div => w.text ++ "_div"
  | .min => w.text ++ "_min"
  | .max => w.text ++ "_max"
  | .le => w.text ++ "_le_quiet"
  | .lt => w.text ++ "_lt_quiet"
  | .ge => w.text ++ "_ge_quiet"
  | .gt => w.text ++ "_gt_quiet"
  | .eq => w.text ++ "_eq"
  | .ne => w.text ++ "_ne"
  | .i32TruncS => w.text ++ "_to_i32_trunc"
  | .i32TruncU => w.text ++ "_to_ui32_trunc"
  | .i64TruncS => w.text ++ "_to_i64_trunc"
  | .i64TruncU => w.text ++ "_to_ui64_trunc"
  | .i32TruncSatS => w.text ++ "_to_i32_sat"
  | .i32TruncSatU => w.text ++ "_to_ui32_sat"
  | .i64TruncSatS => w.text ++ "_to_i64_sat"
  | .i64TruncSatU => w.text ++ "_to_ui64_sat"
  | .floor => w.text ++ "_floor"
  | .ceil => w.text ++ "_ceil"
  | .trunc => w.text ++ "_trunc"
  | .nearest => w.text ++ "_nearest"
  | .convertFloat => w.other.text ++ "_to_" ++ w.text
  | .sqrt => w.text ++ "_sqrt"

/-- The instruction's type in the specification of core modules. -/
def ScalarInstr.type (w : Width) : ScalarInstr → FuncType
  | .neg | .abs | .floor | .ceil | .trunc | .nearest | .sqrt => ⟨[w.val], [w.val]⟩
  | .copysign | .add | .sub | .mul | .div | .min | .max => ⟨[w.val, w.val], [w.val]⟩
  | .le | .lt | .ge | .gt | .eq | .ne => ⟨[w.val, w.val], [.i32]⟩
  | .convertI32U | .convertI32S => ⟨[.i32], [w.val]⟩
  | .convertI64U | .convertI64S => ⟨[.i64], [w.val]⟩
  | .i32TruncS | .i32TruncU | .i32TruncSatS | .i32TruncSatU => ⟨[w.val], [.i32]⟩
  | .i64TruncS | .i64TruncU | .i64TruncSatS | .i64TruncSatU => ⟨[w.val], [.i64]⟩
  | .convertFloat => ⟨[w.other.val], [w.val]⟩

def Width.shape : Width → String
  | .f32 => "f32x4"
  | .f64 => "f64x2"

def LaneInstr.softName (w : Width) : LaneInstr → String
  | .add => w.shape ++ "_add"
  | .sub => w.shape ++ "_sub"
  | .mul => w.shape ++ "_mul"
  | .div => w.shape ++ "_div"
  | .sqrt => w.shape ++ "_sqrt"
  | .neg => w.shape ++ "_neg"
  | .abs => w.shape ++ "_abs"
  | .min => w.shape ++ "_min"
  | .max => w.shape ++ "_max"
  | .pmin => w.shape ++ "_pmin"
  | .pmax => w.shape ++ "_pmax"
  | .ceil => w.shape ++ "_ceil"
  | .floor => w.shape ++ "_floor"
  | .trunc => w.shape ++ "_trunc"
  | .nearest => w.shape ++ "_nearest"
  | .eq => w.shape ++ "_eq"
  | .ne => w.shape ++ "_ne"
  | .lt => w.shape ++ "_lt"
  | .gt => w.shape ++ "_gt"
  | .le => w.shape ++ "_le"
  | .ge => w.shape ++ "_ge"
  | .convertI32x4S => match w with
    | .f32 => "f32x4_convert_i32x4_s"
    | .f64 => "f64x2_convert_low_i32x4_s"
  | .convertI32x4U => match w with
    | .f32 => "f32x4_convert_i32x4_u"
    | .f64 => "f64x2_convert_low_i32x4_u"
  | .convertFloat => match w with
    | .f32 => "f32x4_demote_f64x2_zero"
    | .f64 => "f64x2_promote_low_f32x4"

def LaneInstr.type : LaneInstr → FuncType
  | .sqrt | .neg | .abs | .ceil | .floor | .trunc | .nearest => ⟨[.v128], [.v128]⟩
  | .convertI32x4S | .convertI32x4U | .convertFloat => ⟨[.v128], [.v128]⟩
  | _ => ⟨[.v128, .v128], [.v128]⟩

def FloatInstr.softName : FloatInstr → String
  | .scalar w i => i.softName w
  | .lanes w i => i.softName w
  | .truncSat .f32 false => "i32x4_trunc_sat_f32x4_s"
  | .truncSat .f32 true => "i32x4_trunc_sat_f32x4_u"
  | .truncSat .f64 false => "i32x4_trunc_sat_f64x2_s_zero"
  | .truncSat .f64 true => "i32x4_trunc_sat_f64x2_u_zero"

def FloatInstr.type : FloatInstr → FuncType
  | .scalar w i => i.type w
  | .lanes _ i => i.type
  | .truncSat _ _ => ⟨[.v128], [.v128]⟩

/-! ## Preservation -/

/-- `func'` denotes in `out` what `func` denotes in `m`. -/
def SameFunc (m out : Module β) (func func' : Nat) : Prop :=
  ∃ e, m.funcs[func]? = some e ∧ out.funcs[func']? = some e

/-- `func` denotes the softfloat import of an instruction, with its type. -/
def SoftFunc (out : Module β) (f : FloatInstr) (func : Nat) : Prop :=
  ∃ p t, out.funcs[func]? = some (.imported p) ∧
    out.imports[p]? = some ⟨"softfloat", f.softName, .func t⟩ ∧ out.types[t]? = some f.type

def KeptInstr (m out : Module β) : Instr β → Instr β → Prop
  | .float f, i => ∃ func, i = .call func ∧ SoftFunc out f func
  | .call func, i => ∃ func', i = .call func' ∧ SameFunc m out func func'
  | .returnCall func, i => ∃ func', i = .returnCall func' ∧ SameFunc m out func func'
  | .refFunc func, i => ∃ func', i = .refFunc func' ∧ SameFunc m out func func'
  | .other x, i => i = .other x

def KeptConst (m out : Module β) : ConstInstr β → ConstInstr β → Prop
  | .refFunc func, i => ∃ func', i = .refFunc func' ∧ SameFunc m out func func'
  | .other x, i => i = .other x

def KeptItems (m out : Module β) : ElemItems β → ElemItems β → Prop
  | .functions funcs, items =>
    ∃ funcs', items = .functions funcs' ∧ List.Forall₂ (SameFunc m out) funcs funcs'
  | .exprs exprs, items =>
    ∃ exprs', items = .exprs exprs' ∧
      List.Forall₂ (List.Forall₂ (KeptConst m out)) exprs exprs'

def KeptExport (m out : Module β) : ExportKind β → ExportKind β → Prop
  | .func func, k => ∃ func', k = .func func' ∧ SameFunc m out func func'
  | .other x, k => k = .other x

/-- A pair whose first part is copied. -/
def Beside {κ ν : Type} (R : ν → ν → Prop) (x y : κ × ν) : Prop := y.1 = x.1 ∧ R x.2 y.2

/-- Types and imports are there still, in their places; functions are denoted by
their new indices; everything else is the same. -/
def KeptSection (m out : Module β) : Section β → Section β → Prop
  | .types types, s => ∃ added, s = .types (types ++ added)
  | .imports imports, s => ∃ added, s = .imports (imports ++ added)
  | .functions types, s => s = .functions types
  | .tables tables, s =>
    ∃ tables', s = .tables tables' ∧
      List.Forall₂ (Beside (List.Forall₂ (KeptConst m out))) tables tables'
  | .globals globals, s =>
    ∃ globals', s = .globals globals' ∧
      List.Forall₂ (Beside (List.Forall₂ (KeptConst m out))) globals globals'
  | .exports exports, s =>
    ∃ exports', s = .exports exports' ∧ List.Forall₂ (Beside (KeptExport m out)) exports exports'
  | .start func, s => ∃ func', s = .start func' ∧ SameFunc m out func func'
  | .elements elems, s =>
    ∃ elems', s = .elements elems' ∧ List.Forall₂ (Beside (KeptItems m out)) elems elems'
  | .code bodies, s =>
    ∃ bodies', s = .code bodies' ∧ List.Forall₂ (fun b b' =>
      b'.locals = b.locals ∧ List.Forall₂ (KeptInstr m out) b.code b'.code) bodies bodies'
  | .other x, s => s = .other x

def Preserved (m out : Module β) : Prop := List.Forall₂ (KeptSection m out) m out

end GenVM.FloatsToSoft
