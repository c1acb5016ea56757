import Mathlib
import GenVM.Runners.FloatsToSoft

/-!
# Where the two numberings of functions agree

The pass takes the number of all imports for the number of imported functions:
it shifts indices from there on, and counts the softfloat functions from there
on. With `k` imports that are not functions, the first `k` defined functions are
not shifted, and an operation is called `k` places behind its import.

**Results.**
* `sameFunc_iff`: a reference keeps its function unless it is to one of these.
* `softFunc_iff`: an operation is called right when all imports are functions.
* `preserved_iff`: the module is kept exactly when it has only functions among
  its imports, or no such reference and no float instruction.
-/
namespace GenVM.FloatsToSoft

variable {β : Type}

/-! ## The tables -/

theorem length_addedOps : addedOps.length = 118 := rfl

set_option maxRecDepth 4000 in
theorem softNames_nodup : (addedOps.map fun row => row.2.1).Nodup := by
  decide

/-- Every operation is in the table, by the name and with the type of its
instruction. -/
theorem op_row (f : FloatInstr) : ∃ t,
    addedOps[position addedOps (opOf f)]? = some (opOf f, f.softName, t) ∧
      addedTypes[position addedTypes t]? = some (t, f.type) := by
  cases f with
  | scalar w i => cases w <;> cases i <;> exact ⟨_, rfl, rfl⟩
  | lanes w i => cases w <;> cases i <;> exact ⟨_, rfl, rfl⟩
  | truncSat w unsigned => cases w <;> cases unsigned <;> exact ⟨_, rfl, rfl⟩

theorem op_lt (f : FloatInstr) : position addedOps (opOf f) < 118 := by
  obtain ⟨_, h, _⟩ := op_row f
  exact (List.getElem?_eq_some_iff.mp h).1

theorem softName_inj {k k' : Nat} {row row' : OpVar × String × TypeVar}
    (h : addedOps[k]? = some row) (h' : addedOps[k']? = some row') (hn : row.2.1 = row'.2.1) :
    k = k' := by
  have hk := (List.getElem?_eq_some_iff.mp h).1
  have hm : (addedOps.map fun row => row.2.1)[k]? = (addedOps.map fun row => row.2.1)[k']? := by
    rw [List.getElem?_map, List.getElem?_map, h, h', Option.map_some, Option.map_some, hn]
  exact (List.getElem?_inj (by rw [List.length_map]; exact hk) softNames_nodup).mp hm

/-! ## The function index space -/

theorem imported_append (p : Nat) (is js : List (Import β)) :
    imported p (is ++ js) = imported p is ++ imported (p + is.length) js := by
  induction is generalizing p with
  | nil => rfl
  | cons i is ih =>
    have hl : p + (i :: is).length = p + 1 + is.length := by rw [List.length_cons]; omega
    rw [List.cons_append, imported, imported, ih, hl]
    split
    · rfl
    · rfl

theorem length_imported_le (p : Nat) (is : List (Import β)) : (imported p is).length ≤ is.length := by
  induction is generalizing p with
  | nil => exact le_rfl
  | cons i is ih =>
    have := ih (p + 1)
    rw [imported]
    split
    · rw [List.length_cons, List.length_cons]; omega
    · rw [List.length_cons]; omega

/-- Of functions alone, each import is a function. -/
theorem imported_funcs (p : Nat) (is : List (Import β)) (hf : ∀ i ∈ is, i.isFunc = true) :
    imported p is = (List.range is.length).map fun k => .imported (p + k) := by
  induction is generalizing p with
  | nil => rfl
  | cons i is ih =>
    have hi := hf i List.mem_cons_self
    have ht := ih (p + 1) fun j hj => hf j (List.mem_cons_of_mem i hj)
    rw [imported, if_pos hi, ht, List.length_cons, List.range_succ_eq_map, List.map_cons,
      List.map_map]
    have : (fun k => Entity.imported (p + 1 + k)) = (fun k => Entity.imported (p + k)) ∘ Nat.succ := by
      funext k
      simp only [Function.comp_apply, Nat.succ_eq_add_one]
      congr 1
      omega
    rw [this]
    rfl

theorem softImports_funcs (types : Nat) : ∀ i ∈ softImports (β := β) types, i.isFunc = true := by
  intro i hi
  obtain ⟨row, _, rfl⟩ := List.mem_map.mp hi
  rfl

theorem length_softImports (types : Nat) : (softImports (β := β) types).length = 118 := by
  rw [softImports, List.length_map, length_addedOps]

/-- A module and what the pass makes of it: the same functions behind the
softfloat imports. -/
structure Extends (m out : Module β) : Prop where
  types : out.types = m.types ++ addedTypes.map Prod.snd
  imports : out.imports = m.imports ++ softImports m.types.length
  functions : out.functions = m.functions

/-- The number of imported functions. -/
def Module.importedFuncs (m : Module β) : Nat := (imported 0 m.imports).length

theorem Module.importedFuncs_le (m : Module β) : m.importedFuncs ≤ m.imports.length :=
  length_imported_le 0 m.imports

theorem funcs_imported {m : Module β} {r : Nat} (h : r < m.importedFuncs) :
    m.funcs[r]? = (imported 0 m.imports)[r]? :=
  List.getElem?_append_left h

theorem funcs_defined {m : Module β} {r : Nat} (h : m.importedFuncs ≤ r)
    (h' : r < m.importedFuncs + m.functions.length) :
    m.funcs[r]? = some (.defined (r - m.importedFuncs)) := by
  have hr : r - m.importedFuncs < m.functions.length := by omega
  rw [Module.funcs, List.getElem?_append_right h, List.getElem?_map]
  change (List.range m.functions.length)[r - m.importedFuncs]?.map _ = _
  rw [List.getElem?_range hr]
  rfl

section
variable {m out : Module β} (he : Extends m out)
include he

theorem out_funcs : out.funcs = imported 0 m.imports ++
    ((List.range 118).map (fun k => .imported (m.imports.length + k)) ++
      (List.range m.functions.length).map .defined) := by
  rw [Module.funcs, he.imports, he.functions, imported_append, Nat.zero_add,
    imported_funcs m.imports.length _ (softImports_funcs _), length_softImports, List.append_assoc]

theorem out_imported {r : Nat} (h : r < m.importedFuncs) : out.funcs[r]? = m.funcs[r]? := by
  rw [out_funcs he, List.getElem?_append_left h, funcs_imported h]

theorem out_soft {r : Nat} (h : m.importedFuncs ≤ r) (h' : r < m.importedFuncs + 118) :
    out.funcs[r]? = some (.imported (m.imports.length + (r - m.importedFuncs))) := by
  have hr : r - m.importedFuncs < 118 := by omega
  rw [out_funcs he, List.getElem?_append_right h, List.getElem?_append_left, List.getElem?_map]
  · change (List.range 118)[r - m.importedFuncs]?.map _ = _
    rw [List.getElem?_range hr]
    rfl
  · rw [List.length_map, List.length_range]
    exact hr

theorem out_defined {r : Nat} (h : m.importedFuncs + 118 ≤ r)
    (h' : r < m.importedFuncs + 118 + m.functions.length) :
    out.funcs[r]? = some (.defined (r - 118 - m.importedFuncs)) := by
  have hr : r - m.importedFuncs - 118 < m.functions.length := by omega
  rw [out_funcs he, List.getElem?_append_right (by exact le_trans (Nat.le_add_right _ _) h),
    List.getElem?_append_right]
  · change ((List.range m.functions.length).map Entity.defined)[
      r - m.importedFuncs - ((List.range 118).map _).length]? = _
    rw [List.length_map, List.length_range, List.getElem?_map, List.getElem?_range hr,
      Option.map_some, Nat.sub_right_comm]
  · rw [List.length_map, List.length_range]
    change 118 ≤ r - m.importedFuncs
    omega

end

/-- The encoder behind the import section. -/
def stateOf (m : Module β) : State :=
  ⟨m.imports.length, addedOps.length, some m.types.length, some m.imports.length⟩

/-- A reference that the pass can keep: not to one of the first defined functions,
as many as there are imports that are not functions. -/
def Kept (m : Module β) (r : Nat) : Prop := ¬ (m.importedFuncs ≤ r ∧ r < m.imports.length)

/-- The index spaces of the result fit in 32 bits: an import takes at least four
bytes of its section and a function at least two of the code section, whose sizes
are 32-bit numbers. -/
structure Sized (m : Module β) : Prop where
  imports : m.imports.length ≤ 2 ^ 30
  functions : m.functions.length ≤ 2 ^ 31

theorem function_index_eq {m : Module β} (hz : Sized m) {r : Nat}
    (hr : r < m.importedFuncs + m.functions.length) :
    (stateOf m).function_index r = if r ≥ m.imports.length then r + 118 else r := by
  have h₁ := hz.imports
  have h₂ := hz.functions
  have h₃ := m.importedFuncs_le
  have hlt : r + 118 < 2 ^ 32 := by omega
  change (if r ≥ m.imports.length then (r + 118) % 2 ^ 32 else r) = _
  rw [Nat.mod_eq_of_lt hlt]

/-- A reference keeps its function unless it is one of a defined function that is
not shifted. -/
theorem sameFunc_iff {m out : Module β} (he : Extends m out) (hz : Sized m) {r : Nat}
    (hr : r < m.importedFuncs + m.functions.length) :
    SameFunc m out r ((stateOf m).function_index r) ↔ Kept m r := by
  rw [function_index_eq hz hr]
  by_cases hi : r < m.importedFuncs
  · have hlt : r < m.imports.length := lt_of_lt_of_le hi m.importedFuncs_le
    rw [if_neg (by omega)]
    have hs : r < (imported 0 m.imports).length := hi
    refine iff_of_true ?_ (fun h => by omega)
    refine ⟨(imported 0 m.imports)[r], ?_, ?_⟩
    · rw [funcs_imported hi, List.getElem?_eq_getElem hs]
    · rw [out_imported he hi, funcs_imported hi, List.getElem?_eq_getElem hs]
  have hd := funcs_defined (not_lt.mp hi) hr
  by_cases hn : r ≥ m.imports.length
  · rw [if_pos hn]
    refine iff_of_true ⟨_, hd, ?_⟩ (fun h => by omega)
    rw [out_defined he (by omega) (by omega), Nat.add_sub_cancel]
  · rw [if_neg hn]
    refine iff_of_false ?_ (fun h => h ⟨not_lt.mp hi, not_le.mp hn⟩)
    rintro ⟨e, h, h'⟩
    rw [hd] at h
    cases h
    by_cases hs : r < m.importedFuncs + 118
    · rw [out_soft he (not_lt.mp hi) hs] at h'
      cases h'
    · rw [out_defined he (by omega) (by omega)] at h'
      have := Entity.defined.inj (Option.some.inj h')
      omega

/-- An operation is called at the right place exactly when all imports are
functions. -/
theorem softFunc_iff {m out : Module β} (he : Extends m out) (f : FloatInstr) :
    SoftFunc out f (m.imports.length + position addedOps (opOf f)) ↔
      m.importedFuncs = m.imports.length := by
  obtain ⟨t, hop, hty⟩ := op_row f
  have hk := op_lt f
  have hle := m.importedFuncs_le
  have soft : ∀ k, k < 118 → ∀ row, addedOps[k]? = some row →
      out.imports[m.imports.length + k]? =
        some ⟨"softfloat", row.2.1, .func (m.types.length + position addedTypes row.2.2)⟩ := by
    intro k _ row hrow
    rw [he.imports, List.getElem?_append_right (Nat.le_add_right _ _), Nat.add_sub_cancel_left,
      softImports, List.getElem?_map, hrow]
    rfl
  generalize position addedOps (opOf f) = k at hop hk ⊢
  constructor
  · rintro ⟨p, t', hp, hi, _⟩
    by_contra hne
    by_cases hs : m.imports.length + k < m.importedFuncs + 118
    · rw [out_soft he (by omega) hs] at hp
      cases hp
      have hlt : m.imports.length + k - m.importedFuncs < 118 := by omega
      have hlt' : m.imports.length + k - m.importedFuncs < addedOps.length := hlt
      have hrow := List.getElem?_eq_getElem hlt'
      rw [soft _ hlt _ hrow] at hi
      have hname := congrArg Import.name (Option.some.inj hi)
      have := softName_inj hrow hop hname
      omega
    · have hfun : out.funcs[m.imports.length + k]? ≠ some (.imported p) := by
        intro h
        rw [out_funcs he, List.getElem?_append_right (by change m.importedFuncs ≤ _; omega),
          List.getElem?_append_right] at h
        · rw [List.getElem?_map] at h
          obtain ⟨_, _, hx⟩ := Option.map_eq_some_iff.mp h
          cases hx
        · rw [List.length_map, List.length_range]
          change 118 ≤ m.imports.length + k - m.importedFuncs
          omega
      exact hfun hp
  · intro heq
    refine ⟨m.imports.length + k, m.types.length + position addedTypes t, ?_, soft k hk _ hop, ?_⟩
    · rw [out_soft he (by omega) (by omega), heq, Nat.add_sub_cancel_left]
    · rw [he.types, List.getElem?_append_right (Nat.le_add_right _ _), Nat.add_sub_cancel_left,
        List.getElem?_map, hty]
      rfl

/-! ## References of a module -/

def ConstInstr.refs : ConstInstr β → List Nat
  | .refFunc i => [i]
  | .other _ => []

def Instr.refs : Instr β → List Nat
  | .call i | .returnCall i | .refFunc i => [i]
  | .float _ | .other _ => []

def Instr.floats : Instr β → List FloatInstr
  | .float f => [f]
  | _ => []

def ExportKind.refs : ExportKind β → List Nat
  | .func i => [i]
  | .other _ => []

def ElemItems.refs : ElemItems β → List Nat
  | .functions fs => fs
  | .exprs es => es.flatMap (List.flatMap ConstInstr.refs)

/-- The function references of a section. -/
def Section.refs : Section β → List Nat
  | .tables ts => ts.flatMap fun t => t.2.flatMap ConstInstr.refs
  | .globals gs => gs.flatMap fun g => g.2.flatMap ConstInstr.refs
  | .exports es => es.flatMap fun e => e.2.refs
  | .start func => [func]
  | .elements es => es.flatMap fun e => e.2.refs
  | .code bodies => bodies.flatMap fun b => b.code.flatMap Instr.refs
  | _ => []

/-- The float instructions of a section. -/
def Section.floats : Section β → List FloatInstr
  | .code bodies => bodies.flatMap fun b => b.code.flatMap Instr.floats
  | _ => []

/-- Before the imports, a custom section. -/
def Section.isOther (s : Section β) : Prop := ∃ x, s = .other x

/-- A section behind the imports. -/
def Section.isLater : Section β → Prop
  | .types _ | .imports _ => False
  | _ => True

/-- A core module with a type and an import section. Sections come in their order,
with custom ones between them, and references are to functions that exist. -/
structure Valid (m : Module β) : Prop where
  layout : ∃ pre types mid imports rest, m = pre ++ .types types :: (mid ++ .imports imports :: rest) ∧
    (∀ s ∈ pre, s.isOther) ∧ (∀ s ∈ mid, s.isOther) ∧ ∀ s ∈ rest, s.isLater
  sized : Sized m
  refs : ∀ s ∈ m, ∀ r ∈ s.refs, r < m.importedFuncs + m.functions.length

/-! ## The result of the pass -/

def instrTo (m : Module β) : Instr β → Instr β
  | .float f => .call (m.imports.length + position addedOps (opOf f))
  | .call func => .call ((stateOf m).function_index func)
  | .returnCall func => .returnCall ((stateOf m).function_index func)
  | .refFunc func => .refFunc ((stateOf m).function_index func)
  | .other x => .other x

def bodyTo (m : Module β) (b : Body β) : Body β := { b with code := b.code.map (instrTo m) }

def sectionTo (m : Module β) : Section β → Section β
  | .types ts => .types (ts ++ addedTypes.map Prod.snd)
  | .imports is => .imports (is ++ softImports m.types.length)
  | .functions ts => .functions ts
  | .tables ts => .tables (ts.map fun t => (t.1, t.2.map (constInstr (stateOf m))))
  | .globals gs => .globals (gs.map fun g => (g.1, g.2.map (constInstr (stateOf m))))
  | .exports es => .exports (es.map fun e => (e.1, exportKind (stateOf m) e.2))
  | .start func => .start ((stateOf m).function_index func)
  | .elements es => .elements (es.map fun e => (e.1, elemItems (stateOf m) e.2))
  | .code bodies => .code (bodies.map (bodyTo m))
  | .other x => .other x

theorem instr_eq (m : Module β) (i : Instr β) : instr (stateOf m) i = some (instrTo m i) := by
  cases i <;> rfl

theorem body_eq (m : Module β) (b : Body β) : body (stateOf m) b = some (bodyTo m b) := by
  have h : b.code.mapM (instr (stateOf m)) = some (b.code.map (instrTo m)) := by
    rw [funext (instr_eq m)]
    exact List.mapM_pure
  rw [body, h]
  rfl

theorem parseSection_later (m : Module β) {s : Section β} (hs : s.isLater) :
    parseSection (stateOf m) s = some (sectionTo m s, stateOf m) := by
  cases s with
  | types | imports => exact hs.elim
  | code bodies =>
    have h : bodies.mapM (body (stateOf m)) = some (bodies.map (bodyTo m)) := by
      rw [funext (body_eq m)]
      exact List.mapM_pure
    rw [parseSection, h]
    rfl
  | _ => rfl

theorem parseSections_later (m : Module β) (rest : Module β) (hr : ∀ s ∈ rest, s.isLater) :
    parseSections (stateOf m) rest = some (rest.map (sectionTo m)) := by
  induction rest with
  | nil => rfl
  | cons s rest ih =>
    have hs := parseSection_later m (hr s List.mem_cons_self)
    have ht := ih fun t ht => hr t (List.mem_cons_of_mem s ht)
    rw [parseSections, hs, Option.bind_some, ht]
    rfl

/-- Custom sections are copied. -/
theorem parseSections_other (st : State) (pre rest : Module β) (hp : ∀ s ∈ pre, s.isOther) :
    parseSections st (pre ++ rest) = (parseSections st rest).map fun rest => pre ++ rest := by
  induction pre with
  | nil => rw [List.nil_append]; cases parseSections st rest <;> rfl
  | cons s pre ih =>
    obtain ⟨x, rfl⟩ := hp s List.mem_cons_self
    rw [List.cons_append, parseSections, parseSection, Option.bind_some,
      ih fun t ht => hp t (List.mem_cons_of_mem _ ht), Option.map_map]
    rfl

theorem map_other (m : Module β) (pre : Module β) (hp : ∀ s ∈ pre, s.isOther) :
    pre.map (sectionTo m) = pre := by
  induction pre with
  | nil => rfl
  | cons s pre ih =>
    obtain ⟨x, rfl⟩ := hp s List.mem_cons_self
    rw [List.map_cons, ih fun t ht => hp t (List.mem_cons_of_mem _ ht)]
    rfl

theorem flatMap_other {γ : Type} {f : Section β → List γ} {l : Module β}
    (h : ∀ s ∈ l, f s = []) : l.flatMap f = [] :=
  List.flatMap_eq_nil_iff.mpr h

/-- What only a type or an import section has. -/
theorem flatMap_layout {γ : Type} {f : Section β → List γ} (ho : ∀ x, f (.other x) = [])
    (hl : ∀ s : Section β, s.isLater → f s = []) {pre mid rest : Module β} {s t : Section β}
    (hp : ∀ s ∈ pre, s.isOther) (hm : ∀ s ∈ mid, s.isOther) (hr : ∀ s ∈ rest, s.isLater) :
    (pre ++ s :: (mid ++ t :: rest)).flatMap f = f s ++ f t := by
  have other : ∀ l : Module β, (∀ s ∈ l, s.isOther) → l.flatMap f = [] := by
    intro l h
    refine flatMap_other fun s hs => ?_
    obtain ⟨x, rfl⟩ := h s hs
    exact ho x
  rw [List.flatMap_append, List.flatMap_cons, List.flatMap_append, List.flatMap_cons, other pre hp,
    other mid hm, flatMap_other fun s hs => hl s (hr s hs), List.nil_append, List.nil_append,
    List.append_nil]

theorem typesOf_later (s : Section β) (hs : s.isLater) : s.typesOf = [] := by
  cases s with
  | types => exact hs.elim
  | _ => rfl

theorem importsOf_later (s : Section β) (hs : s.isLater) : s.importsOf = [] := by
  cases s with
  | imports => exact hs.elim
  | _ => rfl

/-- Every section is replaced in its place. -/
theorem parse_eq {m : Module β} (hv : Valid m) : parse_core_module m = some (m.map (sectionTo m)) := by
  obtain ⟨pre, types, mid, imports, rest, hm, hp, hmid, hr⟩ := hv.layout
  have ht : m.types = types := by
    rw [hm, Module.types, flatMap_layout (fun _ => rfl) typesOf_later hp hmid hr]
    exact List.append_nil types
  have hi : m.imports = imports := by
    rw [hm, Module.imports, flatMap_layout (fun _ => rfl) importsOf_later hp hmid hr]
    rfl
  have hrest := parseSections_later m rest hr
  have himp : parseSections ⟨0, 0, some types.length, none⟩ (.imports imports :: rest) =
      some (sectionTo m (.imports imports) :: rest.map (sectionTo m)) := by
    have hst : stateOf m = ⟨imports.length, addedOps.length, some types.length, some imports.length⟩ := by
      rw [stateOf, ht, hi]
    rw [hst] at hrest
    rw [parseSections, parseSection]
    simp only [Option.map_some, Option.bind_some]
    rw [hrest, sectionTo, ht]
    rfl
  have htyp : parseSections .new (.types types :: (mid ++ .imports imports :: rest)) =
      some (sectionTo m (.types types) ::
        (mid ++ sectionTo m (.imports imports) :: rest.map (sectionTo m))) := by
    rw [parseSections, parseSection, Option.bind_some]
    change (parseSections ⟨0, 0, some types.length, none⟩ _).map _ = _
    rw [parseSections_other _ _ _ hmid, himp]
    rfl
  have hall : m.map (sectionTo m) = pre ++ sectionTo m (.types types) ::
      (mid ++ sectionTo m (.imports imports) :: rest.map (sectionTo m)) := by
    conv_lhs => rw [hm]
    rw [List.map_append, List.map_cons, List.map_append, List.map_cons, ← hm, map_other m pre hp,
      map_other m mid hmid]
  rw [hall, parse_core_module]
  conv_lhs => rw [hm]
  rw [parseSections_other _ _ _ hp, htyp]
  rfl

theorem isLater_sectionTo {m : Module β} {s : Section β} (hs : s.isLater) : (sectionTo m s).isLater := by
  cases s with
  | types | imports => exact hs.elim
  | _ => trivial

theorem extends_map {m : Module β} (hv : Valid m) : Extends m (m.map (sectionTo m)) := by
  obtain ⟨pre, types, mid, imports, rest, hm, hp, hmid, hr⟩ := hv.layout
  have hall : m.map (sectionTo m) = pre ++ sectionTo m (.types types) ::
      (mid ++ sectionTo m (.imports imports) :: rest.map (sectionTo m)) := by
    conv_lhs => rw [hm]
    rw [List.map_append, List.map_cons, List.map_append, List.map_cons, ← hm, map_other m pre hp,
      map_other m mid hmid]
  have hr' : ∀ s ∈ rest.map (sectionTo m), s.isLater := by
    intro s hs
    obtain ⟨t, ht, rfl⟩ := List.mem_map.mp hs
    exact isLater_sectionTo (hr t ht)
  have ht : m.types = types := by
    rw [hm, Module.types, flatMap_layout (fun _ => rfl) typesOf_later hp hmid hr]
    exact List.append_nil types
  have hi : m.imports = imports := by
    rw [hm, Module.imports, flatMap_layout (fun _ => rfl) importsOf_later hp hmid hr]
    rfl
  refine ⟨?_, ?_, ?_⟩
  · rw [ht, hall, Module.types, flatMap_layout (fun _ => rfl) typesOf_later hp hmid hr']
    exact List.append_nil _
  · rw [hi, hall, Module.imports, flatMap_layout (fun _ => rfl) importsOf_later hp hmid hr']
    rfl
  · rw [Module.functions, Module.functions, List.flatMap_map]
    congr 1
    funext s
    cases s <;> rfl

/-! ## What is kept -/

theorem forall₂_map_iff {γ δ : Type} {R : γ → δ → Prop} {f : γ → δ} (l : List γ) :
    List.Forall₂ R l (l.map f) ↔ ∀ x ∈ l, R x (f x) := by
  rw [List.forall₂_map_right_iff, List.forall₂_same]

section
variable {m out : Module β} (he : Extends m out) (hz : Sized m)

/-- All these references are to functions that exist. -/
def InRange (m : Module β) (rs : List Nat) : Prop :=
  ∀ r ∈ rs, r < m.importedFuncs + m.functions.length

theorem InRange.of_flatMap {γ : Type} {f : γ → List Nat} {l : List γ} (h : InRange m (l.flatMap f))
    {x : γ} (hx : x ∈ l) : InRange m (f x) :=
  fun r hr => h r (List.mem_flatMap.mpr ⟨x, hx, hr⟩)

include he hz

theorem keptConst_iff {i : ConstInstr β} (hr : InRange m i.refs) :
    KeptConst m out i (constInstr (stateOf m) i) ↔ ∀ r ∈ i.refs, Kept m r := by
  cases i with
  | refFunc r =>
    have hs := sameFunc_iff he hz (hr r (List.mem_singleton_self r))
    simp only [KeptConst, constInstr, ConstInstr.refFunc.injEq, exists_eq_left', hs,
      ConstInstr.refs, List.forall_mem_singleton]
  | other x => simp [KeptConst, constInstr, ConstInstr.refs]

theorem keptConsts_iff {l : List (ConstInstr β)} (hr : InRange m (l.flatMap ConstInstr.refs)) :
    List.Forall₂ (KeptConst m out) l (l.map (constInstr (stateOf m))) ↔
      ∀ r ∈ l.flatMap ConstInstr.refs, Kept m r := by
  rw [forall₂_map_iff, List.forall_mem_flatMap]
  exact forall₂_congr fun i hi => keptConst_iff he hz (hr.of_flatMap hi)

theorem keptItems_iff {i : ElemItems β} (hr : InRange m i.refs) :
    KeptItems m out i (elemItems (stateOf m) i) ↔ ∀ r ∈ i.refs, Kept m r := by
  cases i with
  | functions fs =>
    simp only [KeptItems, elemItems, ElemItems.functions.injEq, exists_eq_left', forall₂_map_iff,
      ElemItems.refs]
    exact forall₂_congr fun r h => sameFunc_iff he hz (hr r h)
  | exprs es =>
    simp only [KeptItems, elemItems, ElemItems.exprs.injEq, exists_eq_left', forall₂_map_iff (γ := List _),
      ElemItems.refs, List.forall_mem_flatMap (l := es)]
    exact forall₂_congr fun l hl => keptConsts_iff he hz (hr.of_flatMap hl)

theorem keptExport_iff {k : ExportKind β} (hr : InRange m k.refs) :
    KeptExport m out k (exportKind (stateOf m) k) ↔ ∀ r ∈ k.refs, Kept m r := by
  cases k with
  | func r =>
    have hs := sameFunc_iff he hz (hr r (List.mem_singleton_self r))
    simp only [KeptExport, exportKind, ExportKind.func.injEq, exists_eq_left', hs,
      ExportKind.refs, List.forall_mem_singleton]
  | other x => simp [KeptExport, exportKind, ExportKind.refs]

/-- All imports are functions. -/
def OnlyFuncs (m : Module β) : Prop := m.importedFuncs = m.imports.length

theorem keptInstr_iff {i : Instr β} (hr : InRange m i.refs) :
    KeptInstr m out i (instrTo m i) ↔
      (∀ r ∈ i.refs, Kept m r) ∧ ∀ f ∈ i.floats, OnlyFuncs m := by
  cases i with
  | float f =>
    have hs := softFunc_iff he f
    simp [KeptInstr, instrTo, Instr.refs, Instr.floats, hs, OnlyFuncs]
  | call r | returnCall r | refFunc r =>
    have hs := sameFunc_iff he hz (hr r (List.mem_singleton_self r))
    simp [KeptInstr, instrTo, Instr.refs, Instr.floats, hs]
  | other x => simp [KeptInstr, instrTo, Instr.refs, Instr.floats]

theorem keptBody_iff {b : Body β} (hr : InRange m (b.code.flatMap Instr.refs)) :
    List.Forall₂ (KeptInstr m out) b.code (bodyTo m b).code ↔
      (∀ r ∈ b.code.flatMap Instr.refs, Kept m r) ∧
        ∀ f ∈ b.code.flatMap Instr.floats, OnlyFuncs m := by
  rw [bodyTo, forall₂_map_iff, List.forall_mem_flatMap, List.forall_mem_flatMap,
    ← forall₂_and]
  exact forall₂_congr fun i hi => keptInstr_iff he hz (hr.of_flatMap hi)

theorem keptSection_iff {s : Section β} (hr : InRange m s.refs) :
    KeptSection m out s (sectionTo m s) ↔
      (∀ r ∈ s.refs, Kept m r) ∧ ∀ f ∈ s.floats, OnlyFuncs m := by
  cases s with
  | types ts => simp [KeptSection, sectionTo, Section.refs, Section.floats]
  | imports is => simp [KeptSection, sectionTo, Section.refs, Section.floats]
  | functions ts => simp [KeptSection, sectionTo, Section.refs, Section.floats]
  | other x => simp [KeptSection, sectionTo, Section.refs, Section.floats]
  | tables ts | globals ts =>
    have h := forall₂_congr fun t (ht : t ∈ ts) => keptConsts_iff he hz (hr.of_flatMap ht)
    simp only [KeptSection, sectionTo, Section.tables.injEq, Section.globals.injEq,
      exists_eq_left', Section.refs, Section.floats, List.forall_mem_flatMap (l := ts), ← h,
      forall₂_map_iff, Beside, true_and, List.not_mem_nil, false_imp_iff, implies_true, and_true]
  | exports es =>
    have h := forall₂_congr fun t (ht : t ∈ es) => keptExport_iff he hz (hr.of_flatMap ht)
    simp only [KeptSection, sectionTo, Section.exports.injEq, exists_eq_left', Section.refs,
      Section.floats, List.forall_mem_flatMap (l := es), ← h, forall₂_map_iff, Beside, true_and,
      List.not_mem_nil, false_imp_iff, implies_true, and_true]
  | elements es =>
    have h := forall₂_congr fun t (ht : t ∈ es) => keptItems_iff he hz (hr.of_flatMap ht)
    simp only [KeptSection, sectionTo, Section.elements.injEq, exists_eq_left', Section.refs,
      Section.floats, List.forall_mem_flatMap (l := es), ← h, forall₂_map_iff, Beside, true_and,
      List.not_mem_nil, false_imp_iff, implies_true, and_true]
  | start r =>
    have hs := sameFunc_iff he hz (hr r (List.mem_singleton_self r))
    simp [KeptSection, sectionTo, Section.refs, Section.floats, hs]
  | code bodies =>
    have h := forall₂_congr fun b (hb : b ∈ bodies) => keptBody_iff he hz (hr.of_flatMap hb)
    simp only [forall₂_and] at h
    simp only [KeptSection, sectionTo, Section.code.injEq, exists_eq_left', Section.refs,
      Section.floats, List.forall_mem_flatMap (l := bodies), ← h, forall₂_map_iff]
    exact forall₂_congr fun b _ => and_iff_right rfl

end

/-- The function references of a module. -/
def Module.refs (m : Module β) : List Nat := m.flatMap Section.refs

/-- The float instructions of a module. -/
def Module.floats (m : Module β) : List FloatInstr := m.flatMap Section.floats

theorem preserved_map_iff {m : Module β} (hv : Valid m) : Preserved m (m.map (sectionTo m)) ↔
    (∀ r ∈ m.refs, Kept m r) ∧ ∀ f ∈ m.floats, OnlyFuncs m := by
  rw [Preserved, forall₂_map_iff, Module.refs, Module.floats, List.forall_mem_flatMap,
    List.forall_mem_flatMap, ← forall₂_and]
  exact forall₂_congr fun s hs => keptSection_iff (extends_map hv) hv.sized (hv.refs s hs)

/-- The pass keeps a module exactly when it imports only functions, or has no float
instruction and no reference to one of its first defined functions, as many as it
has imports that are not functions. -/
theorem preserved_iff {m : Module β} (hv : Valid m) :
    (∃ out, parse_core_module m = some out ∧ Preserved m out) ↔
      m.importedFuncs = m.imports.length ∨ m.floats = [] ∧
        ∀ r ∈ m.refs, ¬ (m.importedFuncs ≤ r ∧ r < m.imports.length) := by
  rw [parse_eq hv]
  simp only [Option.some.injEq, exists_eq_left', preserved_map_iff hv]
  by_cases ho : m.importedFuncs = m.imports.length
  · refine iff_of_true ⟨fun r _ => ?_, fun _ _ => ho⟩ (.inl ho)
    rintro ⟨h, h'⟩
    omega
  · have hf : (∀ f ∈ m.floats, OnlyFuncs m) ↔ m.floats = [] := by
      constructor
      · intro h
        exact List.eq_nil_iff_forall_not_mem.mpr fun f hf => ho (h f hf)
      · intro h f hf
        rw [h] at hf
        cases hf
    rw [hf, or_iff_right ho]
    exact and_comm

/-- `(func (export "add") (param f32 f32) (result f32) local.get 0 local.get 1 f32.add)`
with one import. -/
def adding (i : Import String) : Module String :=
  [.types [⟨[.f32, .f32], [.f32]⟩],
   .imports [i],
   .functions [0],
   .exports [("add", .func 0)],
   .code [⟨"", [.other "local.get 0", .other "local.get 1", .float (.scalar .f32 .add),
     .other "end"]⟩]]

theorem valid_adding (i : Import String) : Valid (adding i) where
  layout := ⟨[], _, [], _, _, rfl, by simp, by simp, by simp [Section.isLater]⟩
  sized := ⟨by simp [adding, Module.imports, Section.importsOf],
    by simp [adding, Module.functions, Section.functionsOf]⟩
  refs s hs r hr := by
    have hm : r ∈ (adding i).refs := List.mem_flatMap.mpr ⟨s, hs, hr⟩
    have h0 : r = 0 := List.mem_singleton.mp hm
    have h1 : (adding i).functions.length = 1 := rfl
    omega

/-- With an imported function, its addition is the call of `f32_add`. -/
theorem preserved_iff_function :
    ∃ out, parse_core_module (adding ⟨"env", "now", .func 0⟩) = some out ∧
      Preserved (adding ⟨"env", "now", .func 0⟩) out :=
  (preserved_iff (valid_adding _)).mpr (.inl rfl)

/-- With an imported memory, the export is left at index 0, which is `f32_add` now. -/
theorem imported_memory_shifts : ¬ ∀ m : Module String, Valid m →
    ∃ out, parse_core_module m = some out ∧ Preserved m out := by
  intro h
  have hv := valid_adding ⟨"env", "memory", .other "memory"⟩
  obtain ⟨out, hp, hk⟩ := h _ hv
  rw [parse_eq hv] at hp
  cases hp
  have hkept := ((preserved_map_iff hv).mp hk).1 0 (by decide)
  exact hkept ⟨by decide, by decide⟩

end GenVM.FloatsToSoft
