import GenVM.Lib.Abi
import GenVM.Fees.Allocation

/-!
# The ABI form of the allocation forest (`common/src/domain/fees/abi.rs`)

`abi_encode` writes its own offsets. Here they are compared with the standard
encoding of a `MessageAllocationNode[]` whose `feeParams` are themselves the
standard encodings of their structs, and the forest is rebuilt from the parent
pointers of the decoded records.

Results:
* `encode_node_eq`, `abi_encode_eq`: the bytes are those of the standard encoding.
* `flattened`: the records are the nodes in pre-order, every parent stands before
  its children, and following the parent pointers back gives the forest.
* `abi_encode_lossless`: all of it, for the bytes that `abi_encode` returns.
-/
namespace GenVM.Fees
open GenVM.Abi
open GenVM.Calldata (Address Bytes)
open GenVM.Vm (On)

/-! ## The structs of the chain -/

def uint256 : Ty := .uint 31

/-- `InternalMessageFeeParams`.
mirrors executor/crates/common/src/domain/fees/abi.rs:24-29 -/
def internalParamsTy : Ty :=
  .tuple [uint256, uint256, uint256, uint256, .array uint256, uint256, uint256, uint256]

def externalParamsTy : Ty := .tuple [uint256, uint256]

/-- `MessageAllocationNode`: messageType, onAcceptance, parentIndex, recipient, callKey,
budget, feeParams.
mirrors executor/crates/common/src/domain/fees/abi.rs:20-22 -/
def nodeTy : Ty := .tuple [.uint 0, .bool, uint256, .address, .fixedBytes 31, uint256, .bytes]

/-- The parameters of `abi.encode(nodes)`. -/
def nodesTy : Ty := .tuple [.array nodeTy]

/-! ## Records -/

def u256 (n : Nat) : uint256.Val := ⟨n % bound 31, Nat.mod_lt _ (by decide)⟩

def uint8 (n : Nat) : (Ty.uint 0).Val := ⟨n % bound 0, Nat.mod_lt _ (by decide)⟩

def noAddress : Address := ⟨List.replicate 20 0, Calldata.length_zeros_20⟩

def wildcard : CallKey := ⟨List.replicate 32 0, Calldata.length_zeros_32⟩

def feeParams : MessageAllocationNodeParams → Bytes
  | .Internal params => encode_internal_params params
  | .External params => encode_external_params params

/-- Only an internal message can be `onAcceptance`. -/
def onAcceptance (on : On) : MessageAllocationNodeParams → Bool
  | .Internal _ => decide (on = On.Accepted)
  | .External _ => false

def messageType : MessageAllocationNodeParams → Nat
  | .Internal _ => MESSAGE_TYPE_INTERNAL
  | .External _ => MESSAGE_TYPE_EXTERNAL

def nodeRecord (node : MessageAllocationNode) (parent : Nat) : nodeTy.Val :=
  let addr := node.recipient.getD noAddress
  let key := node.call_key.getD wildcard
  (uint8 (messageType node.fee_params), onAcceptance node.on node.fee_params, u256 parent,
    ⟨addr.raw, addr.size⟩, ⟨key.raw, key.size⟩, u256 node.budget, feeParams node.fee_params, ())

/-! ## What the types of the source say -/

def InternalMessageParams.AmountsFit (p : InternalMessageParams) : Prop :=
  p.leader_timeunits_allocation < U256_BOUND ∧ p.validator_timeunits_allocation < U256_BOUND ∧
  p.execution_budget_per_round < U256_BOUND ∧ (∀ n ∈ p.rotations, n < U256_BOUND) ∧
  p.max_price_gen_per_time_unit < U256_BOUND ∧ p.storage_fee_max_gas_price < U256_BOUND ∧
  p.receipt_fee_max_gas_price < U256_BOUND

def MessageAllocationNodeParams.AmountsFit : MessageAllocationNodeParams → Prop
  | .Internal p => p.AmountsFit
  | .External p => p.gas_limit < U256_BOUND ∧ p.max_gas_price < U256_BOUND

def MessageAllocationNode.AmountsFit (node : MessageAllocationNode) : Prop :=
  node.budget < U256_BOUND ∧ node.fee_params.AmountsFit

/-! ## The forest in pre-order -/

mutual
def MessageAllocationNode.preorder : MessageAllocationNode → List MessageAllocationNode
  | .mk r k b o p children => .mk r k b o p children :: preorderList children
def preorderList : List MessageAllocationNode → List MessageAllocationNode
  | [] => []
  | node :: nodes => node.preorder ++ preorderList nodes
end

mutual
/-- The nodes of a tree whose root has the index `n`, each with the index of its parent. -/
def flattenedNode (parent n : Nat) : MessageAllocationNode → List (MessageAllocationNode × Nat)
  | .mk r k b o p children => (.mk r k b o p children, parent) :: flattened n (n + 1) children
def flattened (parent n : Nat) :
    List MessageAllocationNode → List (MessageAllocationNode × Nat)
  | [] => []
  | node :: nodes => flattenedNode parent n node ++
    flattened parent (n + (flattenedNode parent n node).length) nodes
end

mutual
theorem flattenNode_eq : ∀ (node : MessageAllocationNode) (parent : Nat)
    (out : List (MessageAllocationNode × Nat)),
    flattenNode parent out node = out ++ flattenedNode parent out.length node
  | .mk r k b o p children, parent, out => by
    unfold flattenNode flattenedNode
    rw [flatten_eq children, List.length_append, List.length_singleton, List.append_assoc]
    rfl
theorem flatten_eq : ∀ (nodes : List MessageAllocationNode) (parent : Nat)
    (out : List (MessageAllocationNode × Nat)),
    flatten parent out nodes = out ++ flattened parent out.length nodes
  | [], _, out => (List.append_nil out).symm
  | node :: nodes, parent, out => by
    unfold flatten flattened
    rw [flattenNode_eq node, flatten_eq nodes, List.length_append, List.append_assoc]
end

mutual
theorem flattenedNode_fst : ∀ (node : MessageAllocationNode) (parent n : Nat),
    (flattenedNode parent n node).map Prod.fst = node.preorder
  | .mk r k b o p children, parent, n => by
    unfold flattenedNode MessageAllocationNode.preorder
    rw [List.map_cons, flattened_fst children]
theorem flattened_fst : ∀ (nodes : List MessageAllocationNode) (parent n : Nat),
    (flattened parent n nodes).map Prod.fst = preorderList nodes
  | [], _, _ => rfl
  | node :: nodes, parent, n => by
    unfold flattened preorderList
    rw [List.map_append, flattenedNode_fst node, flattened_fst nodes]
end

/-- A parent is the one given, or stands before its child. -/
def Before (parent n : Nat) (flat : List (MessageAllocationNode × Nat)) : Prop :=
  ∀ i p, flat[i]? = some p → p.2 = parent ∨ (n ≤ p.2 ∧ p.2 < n + i)

theorem Before.append {parent n : Nat} {a b : List (MessageAllocationNode × Nat)}
    (ha : Before parent n a) (hb : Before parent (n + a.length) b) : Before parent n (a ++ b) := by
  intro i p h
  rcases Nat.lt_or_ge i a.length with hi | hi
  · rw [List.getElem?_append_left hi] at h
    exact ha i p h
  · rw [List.getElem?_append_right hi] at h
    rcases hb _ p h with hp | hp
    · exact .inl hp
    · exact .inr (by omega)

mutual
theorem flattenedNode_before : ∀ (node : MessageAllocationNode) (parent n : Nat),
    Before parent n (flattenedNode parent n node)
  | .mk r k b o p children, parent, n, 0, q, h => by
    unfold flattenedNode at h
    rw [List.getElem?_cons_zero, Option.some.injEq] at h
    subst h
    exact .inl rfl
  | .mk r k b o p children, parent, n, i + 1, q, h => by
    unfold flattenedNode at h
    rw [List.getElem?_cons_succ] at h
    rcases flattened_before children n (n + 1) i q h with hq | hq
    · exact .inr (by omega)
    · exact .inr (by omega)
theorem flattened_before : ∀ (nodes : List MessageAllocationNode) (parent n : Nat),
    Before parent n (flattened parent n nodes)
  | [], _, _, _, _, h => by simp [flattened] at h
  | node :: nodes, parent, n, i, p, h => by
    unfold flattened at h
    exact (flattenedNode_before node parent n).append (flattened_before nodes parent _) i p h
end

/-! ## The bytes -/

@[simp] theorem to_big_endian_eq : to_big_endian = word := rfl

theorem u256_val {n : Nat} (h : n < U256_BOUND) : (u256 n).val = n := Nat.mod_eq_of_lt h

/-- A parameter's struct on its own, as `abi.encode(params)` writes it. -/
def internalParams (p : InternalMessageParams) (h : p.rotations.length < 2 ^ 256) :
    internalParamsTy.Val :=
  (u256 p.leader_timeunits_allocation, u256 p.validator_timeunits_allocation,
    u256 (p.rotations.length - 1), u256 p.execution_budget_per_round,
    ⟨p.rotations.map u256, by rw [List.length_map]; exact h⟩,
    u256 p.max_price_gen_per_time_unit, u256 p.storage_fee_max_gas_price,
    u256 p.receipt_fee_max_gas_price, ())

def externalParams (p : ExternalMessageParams) : externalParamsTy.Val :=
  (u256 p.gas_limit, u256 p.max_gas_price, ())

theorem heads_words (off : Nat) (ns : List Nat) :
    heads off (ns.map fun n => Part.inline (word n)) = ns.flatMap word := by
  induction ns with
  | nil => rfl
  | cons n ns ih => rw [List.map_cons, heads, ih, List.flatMap_cons]

theorem enc_words (ns : List Nat) :
    layout (ns.map fun n => Part.inline (word n)) = ns.flatMap word := by
  have htails : tails (ns.map fun n => Part.inline (word n)) = [] := tails_of_static word ns
  unfold layout
  rw [heads_words, htails, List.append_nil]

theorem map_u256 {ns : List Nat} (h : ∀ n ∈ ns, n < U256_BOUND) :
    (ns.map u256).map (fun v => Part.of uint256.dynamic (enc uint256 v)) =
      ns.map fun n => Part.inline (word n) := by
  rw [List.map_map]
  apply List.map_congr_left
  intro n hn
  change Part.inline (word (u256 n).val) = _
  rw [u256_val (h n hn)]

theorem enc_rotations {ns : List Nat} (h : ∀ n ∈ ns, n < U256_BOUND) (hlen) :
    enc (.array uint256) ⟨ns.map u256, hlen⟩ = word ns.length ++ ns.flatMap word := by
  change word (ns.map u256).length ++ layout ((ns.map u256).map _) = _
  rw [map_u256 h, enc_words, List.length_map]

theorem encode_internal_params_eq {p : InternalMessageParams} (hp : p.AmountsFit)
    (h : p.rotations.length < 2 ^ 256) :
    encode_internal_params p = enc (.tuple [internalParamsTy]) (internalParams p h, ()) := by
  obtain ⟨h1, h2, h3, h4, h5, h6, h7⟩ := hp
  have hlen : p.rotations.length - 1 < U256_BOUND := by unfold U256_BOUND; omega
  have harray := enc_rotations h4 (by rw [List.length_map]; exact h)
  have hbody : enc internalParamsTy (internalParams p h) = layout
      [.inline (word (u256 p.leader_timeunits_allocation).val),
        .inline (word (u256 p.validator_timeunits_allocation).val),
        .inline (word (u256 (p.rotations.length - 1)).val),
        .inline (word (u256 p.execution_budget_per_round).val),
        .behind (enc (.array uint256) ⟨p.rotations.map u256, by rw [List.length_map]; exact h⟩),
        .inline (word (u256 p.max_price_gen_per_time_unit).val),
        .inline (word (u256 p.storage_fee_max_gas_price).val),
        .inline (word (u256 p.receipt_fee_max_gas_price).val)] := rfl
  have htop : enc (.tuple [internalParamsTy]) (internalParams p h, ()) =
      layout [.behind (enc internalParamsTy (internalParams p h))] := rfl
  rw [htop, hbody, harray, u256_val h1, u256_val h2, u256_val hlen, u256_val h3, u256_val h5,
    u256_val h6, u256_val h7]
  simp [encode_internal_params, layout, heads, tails, Part.tail, sizes, Part.size,
    INTERNAL_PARAMS_HEAD_WORDS]

theorem encode_external_params_eq {p : ExternalMessageParams} (hg : p.gas_limit < U256_BOUND)
    (hm : p.max_gas_price < U256_BOUND) :
    encode_external_params p = enc (.tuple [externalParamsTy]) (externalParams p, ()) := by
  simp [encode_external_params, enc, parts, externalParamsTy, externalParams, layout, heads,
    Ty.dynamic, Ty.anyDynamic, Part.of, uint256, Part.tail, u256_val, hg, hm]

theorem abi_address_eq (addr : Option Address) :
    abi_address addr = List.replicate 12 0 ++ (addr.getD noAddress).raw := by cases addr <;> rfl

theorem abi_call_key_eq (key : Option CallKey) : abi_call_key key = (key.getD wildcard).raw := by
  cases key <;> rfl

theorem pad_eq (n : Nat) : List.replicate ((n + 31) / 32 * 32 - n) (0 : UInt8) = padding n := by
  unfold padding
  congr 1
  omega

theorem encode_node_eq {node : MessageAllocationNode} {parent : Nat}
    (hb : node.budget < U256_BOUND) (hp : parent < U256_BOUND) :
    encode_node node parent = enc nodeTy (nodeRecord node parent) := by
  have hrecord : enc nodeTy (nodeRecord node parent) = layout
      [.inline (word (uint8 (messageType node.fee_params)).val),
        .inline (word (onAcceptance node.on node.fee_params).toNat),
        .inline (word (u256 parent).val),
        .inline (List.replicate 12 0 ++ (node.recipient.getD noAddress).raw),
        .inline ((node.call_key.getD wildcard).raw ++
          List.replicate (32 - (node.call_key.getD wildcard).raw.length) 0),
        .inline (word (u256 node.budget).val),
        .behind (encBytes (feeParams node.fee_params))] := rfl
  have haddr : (node.recipient.getD noAddress).raw.length = 20 := (node.recipient.getD noAddress).size
  have hkey : (node.call_key.getD wildcard).raw.length = 32 := (node.call_key.getD wildcard).size
  rw [hrecord, u256_val hb, u256_val hp, hkey]
  unfold encode_node
  rw [abi_address_eq, abi_call_key_eq]
  cases node.fee_params with
  | Internal params =>
    simp only [pad_eq]
    simp [layout, heads, tails, Part.tail, sizes, Part.size, hkey, haddr, encBytes, feeParams,
      messageType, onAcceptance, NODE_HEAD_WORDS]
    rfl
  | External params =>
    simp only [pad_eq]
    simp [layout, heads, tails, Part.tail, sizes, Part.size, hkey, haddr, encBytes, feeParams,
      messageType, onAcceptance, NODE_HEAD_WORDS]
    rfl

/-! ## The forest from its records -/

/-- The struct at the start of a `feeParams`. -/
def internalParamsOf (b : Bytes) : Option InternalMessageParams :=
  (decode (.tuple [internalParamsTy]) b 0).map fun ((leader, validator, _, budget, rotations,
      price_gen, storage_price, receipt_price, _), _) =>
    ⟨leader.val, validator.val, budget.val, rotations.val.map fun r => r.val, price_gen.val,
      storage_price.val, receipt_price.val⟩

def externalParamsOf (b : Bytes) : Option ExternalMessageParams :=
  (decode (.tuple [externalParamsTy]) b 0).map fun ((gas, price, _), _) => ⟨gas.val, price.val⟩

/-- The node of a record, with the children found for it. -/
def nodeOf (r : nodeTy.Val) (children : List MessageAllocationNode) :
    Option MessageAllocationNode :=
  let (type, on, _, addr, key, budget, params, _) := r
  let on : Bool := on
  let node (p : MessageAllocationNodeParams) : MessageAllocationNode :=
    .mk (some ⟨addr.val, addr.property⟩) (some ⟨key.val, key.property⟩) budget.val
      (if on then On.Accepted else On.Finalized) p children
  if type.val = MESSAGE_TYPE_INTERNAL then (internalParamsOf params).map fun p => node (.Internal p)
  else if type.val = MESSAGE_TYPE_EXTERNAL then
    (externalParamsOf params).map fun p => node (.External p)
  else none

def parentOf (r : nodeTy.Val) : Nat := r.2.2.1.val

/-- The children of every index, from the records that start at index `i`. -/
def rebuild : Nat → List nodeTy.Val → Option (Nat → List MessageAllocationNode)
  | _, [] => some fun _ => []
  | i, r :: rs => (rebuild (i + 1) rs).bind fun later =>
    (nodeOf r (later i)).map fun node p => if p = parentOf r then node :: later p else later p

mutual
/-- Absent fields as their zero wildcard. An external message has no lifecycle to keep. -/
def MessageAllocationNode.collapse : MessageAllocationNode → MessageAllocationNode
  | .mk r k b o p children =>
    .mk (some (r.getD noAddress)) (some (k.getD wildcard)) b
      (if onAcceptance o p then On.Accepted else On.Finalized) p (collapseList children)
def collapseList : List MessageAllocationNode → List MessageAllocationNode
  | [] => []
  | node :: nodes => node.collapse :: collapseList nodes
end

/-- A node whose parameters are within the range of an offset. -/
def MessageAllocationNode.Ok (node : MessageAllocationNode) : Prop :=
  node.AmountsFit ∧ (feeParams node.fee_params).length < 2 ^ 256

theorem length_internal (p : InternalMessageParams) :
    (encode_internal_params p).length = 320 + 32 * p.rotations.length := by
  have hflat (ns : List Nat) : (ns.flatMap word).length = 32 * ns.length := by
    induction ns with
    | nil => rfl
    | cons n ns ih =>
      rw [List.flatMap_cons, List.length_append, length_word, ih, List.length_cons]
      ring
  simp [encode_internal_params, hflat]
  omega

theorem map_u256_val {ns : List Nat} (h : ∀ n ∈ ns, n < U256_BOUND) :
    (ns.map u256).map (fun r => r.val) = ns := by
  rw [List.map_map]
  calc ns.map _ = ns.map id := List.map_congr_left fun n hn => u256_val (h n hn)
    _ = ns := List.map_id ns

theorem internalParamsOf_eq {p : InternalMessageParams} (hp : p.AmountsFit)
    (hlen : (encode_internal_params p).length < 2 ^ 256) :
    internalParamsOf (encode_internal_params p) = some p := by
  have hrot : p.rotations.length < 2 ^ 256 := by
    rw [length_internal] at hlen
    omega
  have henc := encode_internal_params_eq hp hrot
  rw [henc] at hlen ⊢
  have hdec := decode_self (.tuple [internalParamsTy]) (internalParams p hrot, ()) hlen
  obtain ⟨h1, h2, h3, h4, h5, h6, h7⟩ := hp
  refine (congrArg (Option.map _) hdec).trans ?_
  change some (InternalMessageParams.mk (u256 _).val (u256 _).val (u256 _).val
    ((p.rotations.map u256).map _) (u256 _).val (u256 _).val (u256 _).val) = some p
  rw [u256_val h1, u256_val h2, u256_val h3, map_u256_val h4, u256_val h5, u256_val h6,
    u256_val h7]

theorem externalParamsOf_eq {p : ExternalMessageParams} (hg : p.gas_limit < U256_BOUND)
    (hm : p.max_gas_price < U256_BOUND) :
    externalParamsOf (encode_external_params p) = some p := by
  have hlen : (encode_external_params p).length < 2 ^ 256 := by
    simp [encode_external_params]
  have henc := encode_external_params_eq hg hm
  rw [henc] at hlen ⊢
  have hdec := decode_self (.tuple [externalParamsTy]) (externalParams p, ()) hlen
  refine (congrArg (Option.map _) hdec).trans ?_
  change some (ExternalMessageParams.mk (u256 _).val (u256 _).val) = some p
  rw [u256_val hg, u256_val hm]

theorem nodeOf_internal (node : MessageAllocationNode) (parent : Nat)
    (children : List MessageAllocationNode) {params : InternalMessageParams}
    (h : node.fee_params = .Internal params) :
    nodeOf (nodeRecord node parent) children =
      (internalParamsOf (encode_internal_params params)).map fun p =>
        .mk (some (node.recipient.getD noAddress)) (some (node.call_key.getD wildcard))
          (u256 node.budget).val (if decide (node.on = On.Accepted) then On.Accepted else On.Finalized)
          (.Internal p) children := by
  have htype : (uint8 MESSAGE_TYPE_INTERNAL).val = MESSAGE_TYPE_INTERNAL := by decide
  unfold nodeOf nodeRecord
  rw [h]
  exact if_pos htype

theorem nodeOf_external (node : MessageAllocationNode) (parent : Nat)
    (children : List MessageAllocationNode) {params : ExternalMessageParams}
    (h : node.fee_params = .External params) :
    nodeOf (nodeRecord node parent) children =
      (externalParamsOf (encode_external_params params)).map fun p =>
        .mk (some (node.recipient.getD noAddress)) (some (node.call_key.getD wildcard))
          (u256 node.budget).val On.Finalized (.External p) children := by
  have hother : (uint8 MESSAGE_TYPE_EXTERNAL).val ≠ MESSAGE_TYPE_INTERNAL := by decide
  have htype : (uint8 MESSAGE_TYPE_EXTERNAL).val = MESSAGE_TYPE_EXTERNAL := by decide
  unfold nodeOf nodeRecord
  rw [h]
  exact (if_neg hother).trans (if_pos htype)

theorem nodeOf_record {r : Option Address} {k : Option CallKey} {b : Nat} {o : On}
    {p : MessageAllocationNodeParams} {children : List MessageAllocationNode} (parent : Nat)
    (h : (MessageAllocationNode.mk r k b o p children).Ok) :
    nodeOf (nodeRecord (.mk r k b o p children) parent) (collapseList children) =
      some (MessageAllocationNode.mk r k b o p children).collapse := by
  obtain ⟨⟨hb, hp⟩, hlen⟩ := h
  cases p with
  | Internal p =>
    rw [nodeOf_internal _ _ _ rfl, internalParamsOf_eq hp hlen, Option.map_some, u256_val hb]
    rfl
  | External p =>
    rw [nodeOf_external _ _ _ rfl, externalParamsOf_eq hp.1 hp.2, Option.map_some, u256_val hb]
    rfl

theorem parentOf_record {node : MessageAllocationNode} {parent : Nat} (h : parent < U256_BOUND) :
    parentOf (nodeRecord node parent) = parent := u256_val h

/-- `later` has no children for the indices from `n` to `m`. -/
def Childless (later : Nat → List MessageAllocationNode) (n m : Nat) : Prop :=
  ∀ p, n ≤ p → p < m → later p = []

/-- `later` with the nodes added to the children of `parent`, outside `n` to `m`. -/
def Added (parent n m : Nat) (nodes : List MessageAllocationNode)
    (later now : Nat → List MessageAllocationNode) : Prop :=
  now parent = nodes ++ later parent ∧ ∀ p, p ≠ parent → (p < n ∨ m ≤ p) → now p = later p

mutual
/-- The records of a tree put the tree back under its parent. The children come back first, since
their records stand later. -/
theorem rebuild_node : ∀ (node : MessageAllocationNode) (parent n m : Nat) (rest : List nodeTy.Val)
    (later : Nat → List MessageAllocationNode),
    (∀ u ∈ node.preorder, u.Ok) → m = n + (flattenedNode parent n node).length →
    (parent < n ∨ m ≤ parent) → parent < U256_BOUND → m ≤ U256_BOUND →
    rebuild m rest = some later → Childless later n m →
    ∃ now, rebuild n ((flattenedNode parent n node).map (fun p => nodeRecord p.1 p.2) ++ rest) =
      some now ∧ Added parent n m [node.collapse] later now
  | .mk r k b o p children, parent, n, m, rest, later, hok, hm, hpar, hlt, hbound, hrest, hnone => by
    unfold MessageAllocationNode.preorder at hok
    unfold flattenedNode at hm ⊢
    rw [List.length_cons] at hm
    have hchildren : ∀ u ∈ preorderList children, u.Ok :=
      fun u hu => hok u (List.mem_cons_of_mem _ hu)
    have hin : Childless later (n + 1) m := fun q h1 h2 => hnone q (by omega) h2
    obtain ⟨below, hbelow, hat, hout⟩ := rebuild_nodes children n (n + 1) m rest later hchildren
      (by omega) (.inl (by omega)) (by omega) hbound hrest hin
    rw [hnone n le_rfl (by omega), List.append_nil] at hat
    have hnode := nodeOf_record parent (hok _ List.mem_cons_self)
    have hparent := hout parent (by omega) (by omega)
    rw [List.map_cons, List.cons_append, rebuild, hbelow, Option.bind_some, hat, hnode,
      Option.map_some, parentOf_record hlt]
    refine ⟨_, rfl, ?_, ?_⟩
    · exact (if_pos rfl).trans (congrArg (_ :: ·) hparent)
    · intro q hq hqs
      refine (if_neg hq).trans ?_
      by_cases hn : q = n
      · omega
      · exact hout q hn (by omega)
theorem rebuild_nodes : ∀ (nodes : List MessageAllocationNode) (parent n m : Nat)
    (rest : List nodeTy.Val) (later : Nat → List MessageAllocationNode),
    (∀ u ∈ preorderList nodes, u.Ok) → m = n + (flattened parent n nodes).length →
    (parent < n ∨ m ≤ parent) → parent < U256_BOUND → m ≤ U256_BOUND →
    rebuild m rest = some later → Childless later n m →
    ∃ now, rebuild n ((flattened parent n nodes).map (fun p => nodeRecord p.1 p.2) ++ rest) =
      some now ∧ Added parent n m (collapseList nodes) later now
  | [], parent, n, m, rest, later, _, hm, _, _, _, hrest, _ => by
    have hmn : m = n := hm
    subst hmn
    exact ⟨later, hrest, rfl, fun _ _ _ => rfl⟩
  | node :: nodes, parent, n, m, rest, later, hok, hm, hpar, hlt, hbound, hrest, hnone => by
    unfold preorderList at hok
    unfold flattened at hm ⊢
    rw [List.length_append] at hm
    have hfirst : ∀ u ∈ node.preorder, u.Ok := fun u hu => hok u (List.mem_append_left _ hu)
    have hothers : ∀ u ∈ preorderList nodes, u.Ok := fun u hu => hok u (List.mem_append_right _ hu)
    obtain ⟨mid, hmid, hat, hout⟩ := rebuild_nodes nodes parent
      (n + (flattenedNode parent n node).length) m rest later hothers (by omega) (by omega) hlt
      hbound hrest fun q h1 h2 => hnone q (by omega) h2
    have hnone2 : Childless mid n (n + (flattenedNode parent n node).length) := by
      intro q h1 h2
      rw [hout q (by omega) (.inl h2)]
      exact hnone q h1 (by omega)
    obtain ⟨now, hnow, hat2, hout2⟩ := rebuild_node node parent n _ _ mid hfirst rfl (by omega) hlt
      (by omega) hmid hnone2
    rw [List.map_append, List.append_assoc]
    refine ⟨now, hnow, ?_, ?_⟩
    · rw [hat2, hat]
      rfl
    · intro q hq hqs
      rw [hout2 q hq (by omega), hout q hq (by omega)]
end

/-! ## The whole array -/

theorem elementOffsets_eq (off : Nat) (elements : List Bytes) :
    elementOffsets off elements = heads off (elements.map Part.behind) := by
  induction elements generalizing off with
  | nil => rfl
  | cons element elements ih => rw [elementOffsets, ih, List.map_cons, heads, to_big_endian_eq]

theorem layout_behind (elements : List Bytes) : layout (elements.map Part.behind) =
    elementOffsets (elements.length * 32) elements ++ elements.flatten := by
  have hsizes := sizes_map fun (element : Bytes) (_ : element ∈ elements) =>
    (rfl : (Part.behind element).size = 32)
  have htails : tails (elements.map Part.behind) = elements.flatten := by
    simp [tails, Part.tail, List.flatMap_map, ← List.flatMap_id']
  unfold layout
  rw [hsizes, htails, elementOffsets_eq]

/-- The nodes with their parents, as `abi_encode` flattens them. -/
def flat (roots : List MessageAllocationNode) : List (MessageAllocationNode × Nat) :=
  flattened NODE_ROOT_SENTINEL 0 roots

theorem abi_encode_flat (roots : List MessageAllocationNode) :
    abi_encode roots = word 32 ++ word (flat roots).length ++
      layout ((flat roots).map fun p => Part.behind (encode_node p.1 p.2)) := by
  have hflat : flatten NODE_ROOT_SENTINEL [] roots = flat roots := flatten_eq roots _ []
  have hparts : (flat roots).map (fun p => Part.behind (encode_node p.1 p.2)) =
      ((flat roots).map fun p => encode_node p.1 p.2).map Part.behind := by
    rw [List.map_map]
    rfl
  unfold abi_encode
  rw [hflat, hparts, layout_behind]
  simp

theorem length_abi_encode (roots : List MessageAllocationNode) :
    (abi_encode roots).length = 64 + 32 * (flat roots).length +
      ((flat roots).flatMap fun p => encode_node p.1 p.2).length := by
  have hsizes := sizes_map fun (p : MessageAllocationNode × Nat) (_ : p ∈ flat roots) =>
    (rfl : (Part.behind (encode_node p.1 p.2)).size = 32)
  have htails : tails ((flat roots).map fun p => Part.behind (encode_node p.1 p.2)) =
      (flat roots).flatMap fun p => encode_node p.1 p.2 := by
    unfold tails
    rw [List.flatMap_map]
    rfl
  rw [abi_encode_flat, List.length_append, length_layout, hsizes, htails]
  simp
  omega

theorem feeParams_le (node : MessageAllocationNode) (parent : Nat) :
    (feeParams node.fee_params).length ≤ (encode_node node parent).length := by
  unfold encode_node feeParams
  cases node.fee_params with
  | Internal params =>
    simp
    omega
  | External params =>
    simp
    omega

theorem mem_flat {roots : List MessageAllocationNode} {node : MessageAllocationNode}
    (h : node ∈ preorderList roots) : ∃ parent, (node, parent) ∈ flat roots := by
  rw [← flattened_fst roots NODE_ROOT_SENTINEL 0] at h
  obtain ⟨⟨u, parent⟩, hmem, hu⟩ := List.mem_map.mp h
  exact ⟨parent, hu ▸ hmem⟩

theorem length_le_flatMap {α β : Type} (f : α → List β) {a : α} {l : List α} (h : a ∈ l) :
    (f a).length ≤ (l.flatMap f).length :=
  (List.sublist_flatten_of_mem (List.mem_map_of_mem h)).length_le

theorem encode_node_le {flat : List (MessageAllocationNode × Nat)}
    {p : MessageAllocationNode × Nat} (h : p ∈ flat) :
    (encode_node p.1 p.2).length ≤ (flat.flatMap fun p => encode_node p.1 p.2).length := by
  have hle := length_le_flatMap (fun p : MessageAllocationNode × Nat => encode_node p.1 p.2) h
  exact hle

/-- A node's parameters are a part of the bytes. -/
theorem feeParams_lt {roots : List MessageAllocationNode} {n : Nat}
    (hlen : (abi_encode roots).length < n) {node : MessageAllocationNode}
    (h : node ∈ preorderList roots) : (feeParams node.fee_params).length < n := by
  obtain ⟨parent, hmem⟩ := mem_flat h
  have hle := feeParams_le node parent
  have hsub := encode_node_le hmem
  rw [length_abi_encode] at hlen
  dsimp only at hsub
  omega

theorem flat_parent {roots : List MessageAllocationNode} (hlen : (flat roots).length < U256_BOUND)
    {i : Nat} {p : MessageAllocationNode × Nat} (h : (flat roots)[i]? = some p) :
    p.2 < U256_BOUND ∧ (p.2 < i ∨ p.2 = NODE_ROOT_SENTINEL) := by
  have hi := (List.getElem?_eq_some_iff.mp h).1
  rcases flattened_before roots NODE_ROOT_SENTINEL 0 i p h with hp | hp
  · rw [hp]
    exact ⟨by decide, .inr rfl⟩
  · exact ⟨by omega, .inl (by omega)⟩

/-- The records of the array. -/
def records (roots : List MessageAllocationNode) : List nodeTy.Val :=
  (flat roots).map fun p => nodeRecord p.1 p.2

theorem abi_encode_eq {roots : List MessageAllocationNode}
    (hfit : ∀ node ∈ preorderList roots, node.AmountsFit)
    (hlen : (flat roots).length < U256_BOUND) (hrecords : (records roots).length < 2 ^ 256) :
    abi_encode roots = enc nodesTy (⟨records roots, hrecords⟩, ()) := by
  have hnodes : (flat roots).map (fun p => Part.behind (encode_node p.1 p.2)) =
      (records roots).map fun r => Part.of nodeTy.dynamic (enc nodeTy r) := by
    unfold records
    rw [List.map_map]
    apply List.map_congr_left
    intro p hp
    obtain ⟨i, hi⟩ := List.mem_iff_getElem?.mp hp
    have hmem : p.1 ∈ preorderList roots := by
      rw [← flattened_fst roots NODE_ROOT_SENTINEL 0]
      exact List.mem_map_of_mem hp
    exact congrArg Part.behind (encode_node_eq (hfit _ hmem).1 (flat_parent hlen hi).1)
  have hcount : (flat roots).length = (records roots).length := (List.length_map _).symm
  rw [abi_encode_flat, hnodes, hcount]
  change _ = word 32 ++ (word (records roots).length ++ layout _ ++ [])
  rw [List.append_nil, List.append_assoc]

/-- What the chain decodes from the bytes is the forest, up to the wildcards: a `Vec` holds at most
`isize::MAX` bytes. -/
theorem abi_encode_lossless (roots : List MessageAllocationNode)
    (hfit : ∀ node ∈ preorderList roots, node.AmountsFit)
    (hlen : (abi_encode roots).length < 2 ^ 63) :
    ∃ (flat : List (MessageAllocationNode × Nat)) (records : (Ty.array nodeTy).Val),
      flat.map Prod.fst = preorderList roots ∧
      records.val = flat.map (fun p => nodeRecord p.1 p.2) ∧
      (∀ i r, records.val[i]? = some r → parentOf r < i ∨ parentOf r = NODE_ROOT_SENTINEL) ∧
      abi_encode roots = enc nodesTy (records, ()) ∧
      decode nodesTy (abi_encode roots) 0 = some (records, ()) ∧
      ∃ children, rebuild 0 records.val = some children ∧
        children NODE_ROOT_SENTINEL = collapseList roots := by
  have hcount : (flat roots).length < U256_BOUND - 1 := by
    rw [length_abi_encode] at hlen
    unfold U256_BOUND
    omega
  have hrecords : (records roots).length < 2 ^ 256 := by
    unfold records
    rw [List.length_map]
    unfold U256_BOUND at hcount
    omega
  have henc := abi_encode_eq hfit (by omega) hrecords
  have hdec : decode nodesTy (abi_encode roots) 0 = some (⟨records roots, hrecords⟩, ()) := by
    have hsize : (enc nodesTy (⟨records roots, hrecords⟩, ())).length < 2 ^ 256 := by
      rw [← henc]
      omega
    rw [henc]
    exact decode_self nodesTy _ hsize
  have hok : ∀ u ∈ preorderList roots, u.Ok :=
    fun u hu => ⟨hfit u hu, (feeParams_lt hlen hu).trans (by norm_num)⟩
  obtain ⟨children, hchildren, hroots, -⟩ := rebuild_nodes roots NODE_ROOT_SENTINEL 0
    (flat roots).length [] (fun _ => []) hok (Nat.zero_add _).symm
    (.inr (by unfold NODE_ROOT_SENTINEL; omega)) (by decide) (by omega) rfl fun _ _ _ => rfl
  rw [List.append_nil] at hchildren hroots
  refine ⟨flat roots, ⟨records roots, hrecords⟩, flattened_fst _ _ _, rfl, ?_, henc, hdec,
    children, hchildren, hroots⟩
  intro i r hr
  obtain ⟨p, hp, rfl⟩ := Option.map_eq_some_iff.mp ((List.getElem?_map ..).symm.trans hr)
  obtain ⟨hlt, hparent⟩ := flat_parent (by omega) hp
  rwa [parentOf_record hlt]

/-- One internal root over one external child, both for any recipient. -/
def smallForest : List MessageAllocationNode :=
  [.mk none none 7 .Accepted (.Internal ⟨1, 2, 3, [4, 5], 6, 7, 8⟩)
    [.mk none none 9 .Finalized (.External ⟨10, 11⟩) []]]

theorem smallForest_fits : ∀ node ∈ preorderList smallForest, node.AmountsFit := by
  intro node h
  simp only [smallForest, preorderList, MessageAllocationNode.preorder, List.append_nil,
    List.mem_cons, List.not_mem_nil, or_false] at h
  rcases h with rfl | rfl
  · exact ⟨by decide, by decide, by decide, by decide, by decide, by decide, by decide, by decide⟩
  · exact ⟨by decide, by decide, by decide⟩

theorem abi_encode_lossless_small :
    (∀ node ∈ preorderList smallForest, node.AmountsFit) ∧
    (abi_encode smallForest).length < 2 ^ 63 ∧
    ∃ (flat : List (MessageAllocationNode × Nat)) (records : (Ty.array nodeTy).Val),
      flat.map Prod.fst = preorderList smallForest ∧
      records.val = flat.map (fun p => nodeRecord p.1 p.2) ∧
      (∀ i r, records.val[i]? = some r → parentOf r < i ∨ parentOf r = NODE_ROOT_SENTINEL) ∧
      abi_encode smallForest = enc nodesTy (records, ()) ∧
      decode nodesTy (abi_encode smallForest) 0 = some (records, ()) ∧
      ∃ children, rebuild 0 records.val = some children ∧
        children NODE_ROOT_SENTINEL = collapseList smallForest := by
  have hlen : (abi_encode smallForest).length < 2 ^ 63 := by decide +kernel
  exact ⟨smallForest_fits, hlen, abi_encode_lossless smallForest smallForest_fits hlen⟩

/-- An external message for a fixed recipient and call key. -/
def fixedExternal (on : On) : MessageAllocationNode :=
  .mk (some noAddress) (some wildcard) 1 on (.External ⟨2, 3⟩) []

/-- No decoder can tell an external message on acceptance from one on finalization. -/
theorem external_on_lost : ¬ ∃ back : Bytes → List MessageAllocationNode,
    ∀ roots, (∀ node ∈ preorderList roots, node.recipient.isSome ∧ node.call_key.isSome) →
      back (abi_encode roots) = roots := by
  intro ⟨back, hback⟩
  have hpresent (on : On) : ∀ node ∈ preorderList [fixedExternal on],
      node.recipient.isSome ∧ node.call_key.isSome := by
    intro node h
    rw [List.mem_singleton.mp h]
    exact ⟨rfl, rfl⟩
  have h1 := hback [fixedExternal .Accepted] (hpresent _)
  have h2 := hback [fixedExternal .Finalized] (hpresent _)
  have hsame : abi_encode [fixedExternal .Accepted] = abi_encode [fixedExternal .Finalized] := rfl
  rw [hsame, h2] at h1
  have hon := congrArg (List.map MessageAllocationNode.on) h1
  exact absurd hon (by decide)

end GenVM.Fees
