import Mathlib.Data.Prod.Lex
import Mathlib.Data.List.Lex
import Mathlib.Data.Finset.Insert
import SchedArchive.Common.Machine

abbrev Pubkey := BitVec 256

-- An account and whether it is locked for writing.
abbrev Lock := Pubkey × Bool

-- Keys of the bridge's slot map. Only their identity and order are ever used.
abbrev TransactionKey := Nat

abbrev bundleMarker : Nat := u64Max

abbrev priorityMultiplier : Nat := 1000000

abbrev maxBlockUnits : Nat := 60000000

structure PriorityId where
  priority : Nat
  cost     : Nat
  key      : TransactionKey
  deriving DecidableEq

namespace PriorityId

-- `Ord for PriorityId`: by priority, then by cost, then by key.
def rank (p : PriorityId) : Nat ×ₗ Nat ×ₗ Nat :=
  toLex (p.priority, toLex (p.cost, p.key))

theorem rank_injective : Function.Injective rank := by
  intro ⟨_, _, _⟩ ⟨_, _, _⟩ h
  simp only [rank, EmbeddingLike.apply_eq_iff_eq, Prod.mk.injEq] at h
  simp [h]

instance : LinearOrder PriorityId :=
  LinearOrder.lift' rank rank_injective

theorem priority_le {p q : PriorityId} (h : p ≤ q) : p.priority ≤ q.priority :=
  Prod.Lex.monotone_fst _ _ (show p.rank ≤ q.rank from h)

end PriorityId

structure BundleId where
  priority   : Nat
  cost       : Nat
  receivedAt : Nat
  keys       : List TransactionKey
  deriving DecidableEq

namespace BundleId

-- The derived `Ord`: field by field, in the order of declaration.
def rank (b : BundleId) : Nat ×ₗ Nat ×ₗ Nat ×ₗ List TransactionKey :=
  toLex (b.priority, toLex (b.cost, toLex (b.receivedAt, b.keys)))

theorem rank_injective : Function.Injective rank := by
  intro ⟨_, _, _, _⟩ ⟨_, _, _, _⟩ h
  simp only [rank, EmbeddingLike.apply_eq_iff_eq, Prod.mk.injEq] at h
  simp [h]

instance : LinearOrder BundleId :=
  LinearOrder.lift' rank rank_injective

theorem priority_le {b b' : BundleId} (h : b ≤ b') : b.priority ≤ b'.priority :=
  Prod.Lex.monotone_fst _ _ (show b.rank ≤ b'.rank from h)

end BundleId

structure Instruction where
  programId : Pubkey
  accounts  : List Nat
  data      : List UInt8
  deriving DecidableEq

-- What the cost model and the compute budget parser make of a transaction.
structure CostDetails where
  transactionFee    : Nat
  prioritizationFee : Nat
  computeUnitLimit  : Nat
  totalCost         : Nat
  deriving DecidableEq

-- What `bridge.transaction(key)` lets a scheduler read. `locks` are those on the static accounts, and
-- `lookups` those on the accounts that a check resolves from address tables, whose entries never
-- change. `costs` is `none` when `RuntimeTransaction::try_new` or the compute budget parser fails.
structure Tx where
  staticAccountKeys : List Pubkey
  locks             : List Lock
  lookups           : List Lock
  instructions      : List Instruction
  costs             : Option CostDetails
  deriving DecidableEq

namespace Tx

def empty : Tx where
  staticAccountKeys := []
  locks             := []
  lookups           := []
  instructions      := []
  costs             := none

-- The locks once a check has resolved them all.
def resolvedLocks (tx : Tx) : List Lock :=
  tx.locks ++ tx.lookups

theorem locks_sublist {tx : Tx} : tx.locks.Sublist tx.resolvedLocks :=
  List.sublist_append_left ..

def shouldFilterStatic (filterKeys : Finset Pubkey) (tx : Tx) : Bool :=
  tx.staticAccountKeys.any (· ∈ filterKeys)

-- `calculate_cost_and_reward`: the cost of a transaction and what including it pays.
def calculateCostAndReward (checks : Bool) (burnPercent : Nat) (tx : Tx) :
    Except Fault (Option (Nat × Nat)) :=
  match tx.costs with
  | none         => .ok none
  | some details =>
    match Machine.checkedMul details.transactionFee burnPercent with
    | none        => .ok none
    | some burned => do
      let baseFee ← Machine.sub checks details.transactionFee (burned / 100)
      return some (details.totalCost, Machine.saturatingAdd baseFee details.prioritizationFee)

-- The cost of a transaction, where one that has none counts as 0.
def totalCost (tx : Tx) : Nat :=
  tx.costs.elim 0 CostDetails.totalCost

theorem ensures_calculateCostAndReward {checks : Bool} {burnPercent : Nat} {tx : Tx}
    {F : Fault → Prop} (hf : checks → F .overflow) :
    (tx.calculateCostAndReward checks burnPercent).Ensures (fun x => ∀ p ∈ x, p.1 = tx.totalCost)
      F := by
  unfold calculateCostAndReward
  split
  case h_1 => simp
  case h_2 details hd =>
    split
    case h_1 => simp
    case h_2 =>
      rw [Except.ensures_bind]
      refine (Machine.ensures_sub hf).imp fun _ _ => ?_
      simp [totalCost, hd]

end Tx
