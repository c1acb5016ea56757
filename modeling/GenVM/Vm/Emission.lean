import GenVM.Vm.Host

/-!
# Emissions and the nodes they are matched to

What an emission records, and which allocation node paid for it. The node is
found from what the emission records, and the search does not look at budgets,
so the match of an emission never changes (`matched_setBudget`).
-/
namespace GenVM.Vm
open GenVM.Lib GenVM.Calldata GenVM.Fees

namespace ExecutionEmission

def value : ExecutionEmission → Nat
  | EthSend _ _ value _ _ _ => value
  | PostMessage _ _ _ value _ _ _ _ _ => value
  | DeployContract _ _ value _ _ _ _ _ _ => value
  | EmitEvent _ _ _ => 0

def message_fee : ExecutionEmission → Nat
  | EthSend _ _ _ message_fee _ _ => message_fee
  | PostMessage _ _ _ _ _ message_fee _ _ _ => message_fee
  | DeployContract _ _ _ _ _ message_fee _ _ _ => message_fee
  | EmitEvent _ _ _ => 0

def receipt_fee : ExecutionEmission → Nat
  | EthSend _ _ _ _ receipt_fee _ => receipt_fee
  | PostMessage _ _ _ _ _ _ receipt_fee _ _ => receipt_fee
  | DeployContract _ _ _ _ _ _ receipt_fee _ _ => receipt_fee
  | EmitEvent _ _ _ => 0

def storage_fee : ExecutionEmission → Nat
  | EmitEvent _ _ storage_fee => storage_fee
  | _ => 0

/-- The node that pays for an emission. -/
def matched (nodes : List MessageAllocationNode) : ExecutionEmission → Option Nat
  | EthSend address calldata _ _ _ _ =>
    (findMatch (·.matches_external address (selector_key calldata)) nodes).map Prod.fst
  | PostMessage key address _ _ on _ _ _ _ =>
    (findMatch (·.matches_internal on address key) nodes).map Prod.fst
  | DeployContract _ _ _ on _ _ _ _ _ =>
    (findMatch (·.matches_internal on Address.zero CallKey.DEPLOY) nodes).map Prod.fst
  | EmitEvent _ _ _ => none

/-- The contract data in an emission came with an accepted request. -/
def Accepted : ExecutionEmission → Prop
  | EthSend _ _ _ _ _ _ => True
  | PostMessage _ _ calldata _ _ _ _ _ _ => Carries 126 calldata
  | DeployContract calldata _ _ _ _ _ _ _ _ => Carries 126 calldata
  | EmitEvent _ blob _ => ∃ kvs, blob = .materialized kvs ∧ Tree.Ok 126 (.map kvs)

end ExecutionEmission

/-! ## The search -/

theorem findMatch_some {α : Type} {f : MessageAllocationNode → Option α} :
    ∀ {nodes : List MessageAllocationNode} {i : Nat} {node : MessageAllocationNode} {params : α},
      findMatch f nodes = some (i, node, params) → nodes[i]? = some node ∧ f node = some params
  | [], _, _, _, h => nomatch h
  | n :: nodes, i, node, params, h => by
    unfold findMatch at h
    split at h
    · next hf =>
      cases h
      exact ⟨rfl, hf⟩
    · obtain ⟨⟨j, n', p'⟩, hj, he⟩ := Option.map_eq_some_iff.mp h
      cases he
      have ih := findMatch_some hj
      exact ⟨ih.1, ih.2⟩

/-- The search finds the same place when only budgets differ. -/
theorem findMatch_modify {α : Type} {f : MessageAllocationNode → Option α}
    (hf : ∀ node budget, f (node.setBudget budget) = f node) (budget : Nat) :
    ∀ (nodes : List MessageAllocationNode) (i : Nat),
      (findMatch f (nodes.modify i (·.setBudget budget))).map Prod.fst =
        (findMatch f nodes).map Prod.fst
  | [], i => by cases i <;> rfl
  | n :: nodes, 0 => by
    rw [List.modify_zero_cons]
    unfold findMatch
    rw [hf]
    cases f n with
    | some p => rfl
    | none => rfl
  | n :: nodes, i + 1 => by
    have ih := findMatch_modify hf budget nodes i
    rw [List.modify_succ_cons]
    unfold findMatch
    cases f n with
    | some p => rfl
    | none =>
      show ((findMatch f _).map _).map _ = ((findMatch f _).map _).map _
      rw [Option.map_map, Option.map_map]
      have hcomp : ∀ o : Option (Nat × MessageAllocationNode × α),
          o.map (Prod.fst ∘ fun r => (r.1 + 1, r.2)) = (o.map Prod.fst).map (· + 1) := by
        intro o
        cases o <;> rfl
      rw [hcomp, hcomp, ih]

theorem matches_internal_setBudget (node : MessageAllocationNode) (budget : Nat) (on : On)
    (recipient : Address) (call_key : CallKey) :
    (node.setBudget budget).matches_internal on recipient call_key =
      node.matches_internal on recipient call_key := by
  cases node
  rfl

theorem matches_external_setBudget (node : MessageAllocationNode) (budget : Nat)
    (recipient : Address) (call_key : CallKey) :
    (node.setBudget budget).matches_external recipient call_key =
      node.matches_external recipient call_key := by
  cases node
  rfl

theorem matched_setBudget (e : ExecutionEmission) (nodes : List MessageAllocationNode)
    (i budget : Nat) : e.matched (nodes.modify i (·.setBudget budget)) = e.matched nodes := by
  cases e with
  | EthSend _ _ _ _ _ _ =>
    exact findMatch_modify (fun node b => matches_external_setBudget node b _ _) budget nodes i
  | PostMessage _ _ _ _ _ _ _ _ _ =>
    exact findMatch_modify (fun node b => matches_internal_setBudget node b _ _ _) budget nodes i
  | DeployContract _ _ _ _ _ _ _ _ _ =>
    exact findMatch_modify (fun node b => matches_internal_setBudget node b _ _ _) budget nodes i
  | EmitEvent _ _ _ => rfl

end GenVM.Vm
