import SchedArchive.Theorems.Runs

-- What the schedulers make of the amounts of a transaction: when it has no price, and when the
-- arithmetic on it leaves the range of a `u64`.

open Except Ledger

-- The amounts by which a scheduler judges a transaction.
structure Tariff (L : Type) where
  -- A packet of its own has no price.
  unpriced         : Env → Tx → Prop
  -- In a bundle, the transaction has no price or scores too low.
  rejects          : Env → World L → Tx → Prop
  packetOverflows  : Env → World L → Tx → Prop
  bundledOverflows : Env → Tx → Prop
  -- What the transaction adds to the value of its bundle.
  value            : Env → World L → Tx → Nat

namespace Tariff

variable {L : Type} (t : Tariff L) (E : Env) (w : World L)

-- A packet on which `on_bundle` gives up inside its loop.
def Refuses : Packet → Prop
  | none    => True
  | some tx => t.rejects E w tx

-- A packet because of which no bundle is stored.
def Spoils (packet : Packet) : Prop :=
  t.Refuses E w packet ∨ ∃ tx ∈ packet, tx.shouldFilterStatic E.filterKeys

-- The packets of a bundle are priced up to a transaction at which its own amounts are too much for a
-- `u64`, or the sums that start with `cost` and `value`.
def BundleOverflows (cost value : Nat) (bundle : List Packet) : Prop :=
  ∃ txs tx rest, bundle = txs.map some ++ some tx :: rest ∧ (∀ tx' ∈ txs, ¬t.rejects E w tx') ∧
    (t.bundledOverflows E tx ∨ ¬t.rejects E w tx ∧
      (u64Max < cost + ((txs ++ [tx]).map Tx.totalCost).sum ∨
        u64Max < value + ((txs ++ [tx]).map (t.value E w)).sum))

variable {t E w} {cost value : Nat} {tx : Tx} {bundle : List Packet}

theorem not_bundleOverflows_nil : ¬t.BundleOverflows E w cost value [] := by
  rintro ⟨txs, _, _, he, _⟩
  simp at he

theorem not_bundleOverflows_none : ¬t.BundleOverflows E w cost value (none :: bundle) := by
  rintro ⟨txs, _, _, he, _⟩
  cases txs <;> simp at he

theorem bundleOverflows_cons : t.BundleOverflows E w cost value (some tx :: bundle) ↔
    t.bundledOverflows E tx ∨ ¬t.rejects E w tx ∧
      ((u64Max < cost + tx.totalCost ∨ u64Max < value + t.value E w tx) ∨
        t.BundleOverflows E w (cost + tx.totalCost) (value + t.value E w tx) bundle) := by
  constructor
  case mp =>
    rintro ⟨txs, tx', rest, he, hp, ho⟩
    cases txs
    case nil =>
      obtain ⟨rfl, rfl⟩ : tx = tx' ∧ bundle = rest := by simpa using he
      exact ho.imp_right fun h => h.imp_right fun h => .inl <| by simpa using h
    case cons head txs =>
      obtain ⟨rfl, rfl⟩ : tx = head ∧ bundle = txs.map some ++ some tx' :: rest := by simpa using he
      obtain ⟨ht, hp⟩ := List.forall_mem_cons.mp hp
      refine .inr ⟨ht, .inr ⟨txs, tx', rest, rfl, hp, ho.imp_right fun h => h.imp_right fun h => ?_⟩⟩
      simpa [Nat.add_assoc] using h
  case mpr =>
    rintro (ho | ⟨ht, ho | ⟨txs, tx', rest, rfl, hp, ho⟩⟩)
    · exact ⟨[], tx, bundle, rfl, by simp, .inl ho⟩
    · exact ⟨[], tx, bundle, rfl, by simp, .inr ⟨ht, by simpa using ho⟩⟩
    · refine ⟨tx :: txs, tx', rest, rfl, List.forall_mem_cons.mpr ⟨ht, hp⟩, ?_⟩
      exact ho.imp_right fun h => h.imp_right fun h => by simpa [Nat.add_assoc] using h

end Tariff

namespace BatchScheduler

open TipProgram

-- The cost model fails, or the part of the fee that is burnt cannot be computed.
def Unpriced (E : Env) (tx : Tx) : Prop :=
  tx.costs = none ∨ ∃ details ∈ tx.costs, u64Max < details.transactionFee * E.burnPercent

-- More than the whole fee is burnt.
def OverBurnt (E : Env) (tx : Tx) : Prop :=
  ∃ details ∈ tx.costs, details.transactionFee * E.burnPercent ≤ u64Max ∧
    details.transactionFee < details.transactionFee * E.burnPercent / 100

def rewardOf (E : Env) (details : CostDetails) : Nat :=
  min (details.transactionFee - details.transactionFee * E.burnPercent / 100 +
    details.prioritizationFee) u64Max

-- The reward and the tips are too much for a `u64`.
def OverPaid (E : Env) (tx : Tx) : Prop :=
  ∃ details ∈ tx.costs, details.transactionFee * E.burnPercent ≤ u64Max ∧
    u64Max < rewardOf E details + (tips tx).sum

def tariff : Tariff InFlightLocks where
  unpriced         := Unpriced
  rejects          := fun E _ tx => Unpriced E tx
  packetOverflows  := fun E _ tx => OverBurnt E tx
  bundledOverflows := fun E tx => OverBurnt E tx ∨ OverPaid E tx
  value            := fun E _ tx => tx.costs.elim 0 fun details => rewardOf E details + (tips tx).sum

end BatchScheduler

namespace AuctionBatchScheduler

open AuctionEngine TipProgram

-- `effective_remaining_cu` goes below zero: more is left of the block than there is in one, or more
-- is in flight than is left.
def CusUnderflow (w : World Engine) : Prop :=
  maxBlockUnits < w.progress.remainingCostUnits ∨ w.progress.remainingCostUnits < w.inFlightCus

-- The fee and the tips are too much for a `u64`.
def OverPaid (tx : Tx) : Prop :=
  ∃ details ∈ tx.costs, u64Max < details.prioritizationFee + (tips tx).sum

-- The score for what is left of fee and tips in a `u64`.
def scoreOf (w : World Engine) (tx : Tx) (details : CostDetails) : Nat :=
  w.locks.priorityOf details tx.locks ((details.prioritizationFee + (tips tx).sum) % 2 ^ 64)

def tariff (minScore : Nat) : Tariff Engine where
  unpriced         := fun _ tx => tx.costs = none
  rejects          := fun _ w tx =>
    tx.costs = none ∨ ∃ details ∈ tx.costs, scoreOf w tx details < minScore
  packetOverflows  := fun _ w tx => CusUnderflow w ∨ OverPaid tx
  bundledOverflows := fun _ tx => OverPaid tx
  value            := fun _ w tx => tx.costs.elim 0 (scoreOf w tx)

end AuctionBatchScheduler

namespace BatchScheduler

open TipProgram

variable {E : Env} {w : World InFlightLocks} {tx : Tx}

theorem cases_calculateCostAndReward :
    (tx.calculateCostAndReward E.overflowChecks E.burnPercent).Ensures
      (fun x => (E.overflowChecks → ¬OverBurnt E tx) ∧ (x = none ↔ Unpriced E tx) ∧
        ∀ p ∈ x, ∃ details ∈ tx.costs, details.transactionFee * E.burnPercent ≤ u64Max ∧
          p.1 = details.totalCost ∧ (E.overflowChecks → p.2 = rewardOf E details))
      (fun f => f = .overflow ∧ E.overflowChecks = true ∧ OverBurnt E tx) := by
  unfold Tx.calculateCostAndReward
  cases hd : tx.costs
  case none => simp [OverBurnt, Unpriced, hd]
  case some details =>
    dsimp only
    cases hm : Machine.checkedMul details.transactionFee E.burnPercent
    case none =>
      have hb : u64Max < details.transactionFee * E.burnPercent := by
        simpa [Machine.checkedMul] using hm
      simp [OverBurnt, Unpriced, hd, hb]
    case some burned =>
      obtain ⟨hb, rfl⟩ : details.transactionFee * E.burnPercent ≤ u64Max ∧
          details.transactionFee * E.burnPercent = burned := by
        simpa [Machine.checkedMul] using hm
      have ho : OverBurnt E tx ↔
          details.transactionFee < details.transactionFee * E.burnPercent / 100 := by
        simp [OverBurnt, hd, hb]
      have hu : ¬Unpriced E tx := by simpa [Unpriced, hd] using hb
      rw [ensures_bind]
      refine Machine.cases_sub.mono (fun baseFee h => ?_) fun f hf => ?_
      case refine_1 =>
        refine ⟨fun hc => ho.not.mpr <| Nat.not_lt_of_le (h hc).left, by simpa using hu, ?_⟩
        simp only [Option.mem_some_iff, forall_eq']
        refine ⟨details, rfl, hb, rfl, fun hc => ?_⟩
        rw [(h hc).right]
        rfl
      case refine_2 => exact ⟨hf.left, hf.right.left, ho.mpr hf.right.right⟩

theorem cases_calculatePriority : (calculatePriority E w tx).Ensures
    (fun x => (E.overflowChecks → ¬OverBurnt E tx) ∧ (x = none ↔ Unpriced E tx))
    (fun f => f = .overflow ∧ E.overflowChecks = true ∧ OverBurnt E tx) := by
  rw [calculatePriority, ensures_bind]
  refine cases_calculateCostAndReward.imp fun x hx => ?_
  cases x
  case none   => exact ⟨hx.left, hx.right.left⟩
  case some p =>
    refine ⟨hx.left, iff_of_false (by simp) <| hx.right.left.not.mp (by simp)⟩

theorem cases_bundledTx : (bundledTx E w tx).Ensures
    (fun x => (E.overflowChecks → ¬(OverBurnt E tx ∨ OverPaid E tx)) ∧ (x = none ↔ Unpriced E tx) ∧
      ∀ p ∈ x, p.1 = tx.totalCost ∧ (E.overflowChecks → p.2 = tariff.value E w tx))
    (fun f => f = .overflow ∧ E.overflowChecks = true ∧ (OverBurnt E tx ∨ OverPaid E tx)) := by
  rw [bundledTx, ensures_bind]
  refine cases_calculateCostAndReward.mono (fun x hx => ?_) fun f hf =>
    ⟨hf.left, hf.right.left, .inl hf.right.right⟩
  obtain ⟨hb, hu, hr⟩ := hx
  cases x
  case none =>
    have hp : ¬OverPaid E tx := by
      rintro ⟨details, hd, hm, _⟩
      rcases hu.mp rfl with hn | ⟨details', hd', hm'⟩
      · cases hn.symm.trans hd
      · obtain rfl := Option.mem_unique hd hd'
        exact Nat.not_lt_of_le hm hm'
    exact ⟨fun hc => not_or.mpr ⟨hb hc, hp⟩, hu, fun p h => by cases h⟩
  case some p =>
    obtain ⟨details, hd, hm, hc, hr⟩ := hr p rfl
    have hv : tariff.value E w tx = rewardOf E details + (tips tx).sum := by
      simp [tariff, Option.mem_def.mp hd]
    have ho : OverPaid E tx ↔ u64Max < rewardOf E details + (tips tx).sum := by
      simp [OverPaid, Option.mem_def.mp hd, hm]
    have ht : tx.totalCost = details.totalCost := by simp [Tx.totalCost, Option.mem_def.mp hd]
    obtain ⟨cost, reward⟩ := p
    change (extractTip E.overflowChecks tx >>= fun tip =>
      Machine.add E.overflowChecks reward tip >>= _).Ensures _ _
    simp only [extractTip_eq_total, Machine.add_eq_total, Nat.add_comm reward, Machine.total_bind]
    rw [Nat.add_comm, ensures_bind]
    refine Machine.cases_total.mono (fun v h => ?_) fun f hf => ?_
    case refine_1 =>
      have hf : E.overflowChecks → rewardOf E details + (tips tx).sum ≤ u64Max := fun c => by
        rw [← hr c]
        exact h.right c
      refine ⟨fun c => not_or.mpr ⟨hb c, ho.not.mpr <| Nat.not_lt_of_le <| hf c⟩, by simpa using hu, ?_⟩
      simp only [Option.mem_some_iff, forall_eq', ht]
      refine ⟨hc, fun c => ?_⟩
      rw [hv, ← hr c, h.left]
      exact Nat.mod_eq_of_lt <| Nat.lt_of_le_pred (by decide) <| h.right c
    case refine_2 =>
      refine ⟨hf.left, hf.right.left, .inr <| ho.mpr ?_⟩
      rw [← hr hf.right.left]
      exact hf.right.right

end BatchScheduler

namespace AuctionBatchScheduler

open AuctionEngine TipProgram

variable {E : Env} {w : World Engine} {tx : Tx} {details : CostDetails} {minScore : Nat}

theorem cases_effectiveRemainingCu : (effectiveRemainingCu E w).Ensures
    (fun _ => E.overflowChecks → ¬CusUnderflow w)
    (fun f => f = .overflow ∧ E.overflowChecks = true ∧ CusUnderflow w) := by
  simp only [effectiveRemainingCu, ensures_bind]
  refine Machine.cases_sub.mono (fun used hu => ?_) fun f hf => ?_
  case refine_2 => exact ⟨hf.left, hf.right.left, .inl hf.right.right⟩
  refine Machine.cases_sub.mono (fun left hl => ?_) fun f hf => ?_
  case refine_2 =>
    have := hu hf.right.left
    omega
  refine Machine.cases_sub.mono (fun _ hi hc => ?_) fun f hf => ?_
  case refine_2 =>
    have := hu hf.right.left
    have := hl hf.right.left
    exact ⟨hf.left, hf.right.left, .inr (by omega)⟩
  case refine_1 =>
    have := hu hc
    have := hl hc
    have := hi hc
    unfold CusUnderflow
    omega

-- The score is taken of what is left of fee and tips in a `u64`.
theorem cases_score (hd : tx.costs = some details) :
    (extractTip E.overflowChecks tx >>= scoreWithAuction E w details tx.locks).Ensures
      (fun x => (E.overflowChecks → ¬OverPaid tx) ∧ x = (scoreOf w tx details, details.totalCost))
      (fun f => f = .overflow ∧ E.overflowChecks = true ∧ OverPaid tx) := by
  have ho : OverPaid tx ↔ u64Max < details.prioritizationFee + (tips tx).sum := by
    simp [OverPaid, hd]
  unfold scoreWithAuction
  simp only [extractTip_eq_total, Machine.add_eq_total, Nat.add_comm details.prioritizationFee,
    Machine.total_bind]
  rw [Nat.add_comm, ensures_bind]
  refine Machine.cases_total.mono (fun paid h => ?_) fun f hf => ?_
  case refine_1 =>
    rw [ensures_pure, h.left]
    exact ⟨fun hc => ho.not.mpr <| Nat.not_lt_of_le <| h.right hc, rfl⟩
  case refine_2 => exact ⟨hf.left, hf.right.left, ho.mpr hf.right.right⟩

theorem not_overPaid_of_none (hd : tx.costs = none) : ¬OverPaid tx := by
  simp [OverPaid, hd]

theorem cases_calculatePriority : (calculatePriority E w tx).Ensures
    (fun x => (E.overflowChecks → ¬(CusUnderflow w ∨ OverPaid tx)) ∧ (x = none ↔ tx.costs = none))
    (fun f => f = .overflow ∧ E.overflowChecks = true ∧ (CusUnderflow w ∨ OverPaid tx)) := by
  rw [calculatePriority, ensures_bind]
  refine cases_effectiveRemainingCu.mono (fun _ hu => ?_) fun f hf =>
    ⟨hf.left, hf.right.left, .inl hf.right.right⟩
  cases hd : tx.costs
  case none =>
    exact ⟨fun hc => not_or.mpr ⟨hu hc, not_overPaid_of_none hd⟩, by simp⟩
  case some details =>
    have hs := cases_score (E := E) (w := w) hd
    rw [ensures_bind] at hs
    dsimp only
    rw [ensures_bind]
    refine hs.mono (fun tip ht => ?_) fun f hf => ⟨hf.left, hf.right.left, .inr hf.right.right⟩
    rw [ensures_bind]
    refine ht.mono (fun x hx => ?_) fun f hf => ⟨hf.left, hf.right.left, .inr hf.right.right⟩
    exact ⟨fun hc => not_or.mpr ⟨hu hc, hx.left hc⟩, by simp⟩

theorem cases_bundledTx : (bundledTx minScore E w tx).Ensures
    (fun x => (E.overflowChecks → ¬OverPaid tx) ∧ (x = none ↔ (tariff minScore).rejects E w tx) ∧
      ∀ p ∈ x, p.1 = tx.totalCost ∧ p.2 = (tariff minScore).value E w tx)
    (fun f => f = .overflow ∧ E.overflowChecks = true ∧ OverPaid tx) := by
  rw [bundledTx]
  cases hd : tx.costs
  case none =>
    exact ⟨fun _ => not_overPaid_of_none hd, by simp [tariff, hd], fun p h => by cases h⟩
  case some details =>
    have hs := cases_score (E := E) (w := w) hd
    rw [ensures_bind] at hs
    dsimp only
    rw [ensures_bind]
    refine hs.imp fun tip ht => ?_
    rw [ensures_bind]
    refine ht.imp fun x hx => ?_
    obtain ⟨ho, rfl⟩ := hx
    refine ⟨ho, by simp [tariff, hd], ?_⟩
    simp +contextual [tariff, hd, Tx.totalCost]

end AuctionBatchScheduler

namespace Scheduler

-- The schedulers with their amounts.
inductive Charges : {L : Type} → Scheduler L → L → Tariff L → Prop
  | batch : Charges BatchScheduler.scheduler ∅ BatchScheduler.tariff
  | auction (libm : AuctionEngine.Libm ℚ) (minScore : Nat) :
    Charges (AuctionBatchScheduler.scheduler libm minScore) AuctionBatchScheduler.initialEngine
      (AuctionBatchScheduler.tariff minScore)

namespace Charges

variable {L : Type} {S : Scheduler L} {E : Env} {locks : L} {t : Tariff L} {w w' : World L} {tx : Tx}

theorem known (hS : S.Charges locks t) : S.Known locks := by
  cases hS
  case batch   => exact .batch
  case auction => exact .auction ..

-- What the schedulers compute is what the amounts say.

theorem cases_calculatePriority (hS : S.Charges locks t) : (S.calculatePriority E w tx).Ensures
    (fun x => ¬(E.overflowChecks = true ∧ t.packetOverflows E w tx) ∧ (x = none ↔ t.unpriced E tx))
    (fun f => f = .overflow ∧ E.overflowChecks = true ∧ t.packetOverflows E w tx) := by
  cases hS
  case batch =>
    have h : (BatchScheduler.calculatePriority E w tx).Ensures _ _ :=
      BatchScheduler.cases_calculatePriority
    exact h.imp fun _ h => ⟨not_and.mpr h.left, h.right⟩
  case auction =>
    exact AuctionBatchScheduler.cases_calculatePriority.imp fun _ h => ⟨not_and.mpr h.left, h.right⟩

theorem cases_bundledTx (hS : S.Charges locks t) : (S.bundledTx E w tx).Ensures
    (fun x => ¬(E.overflowChecks = true ∧ t.bundledOverflows E tx) ∧ (x = none ↔ t.rejects E w tx) ∧
      ∀ p ∈ x, p.1 = tx.totalCost ∧ (E.overflowChecks → p.2 = t.value E w tx))
    (fun f => f = .overflow ∧ E.overflowChecks = true ∧ t.bundledOverflows E tx) := by
  cases hS
  case batch =>
    exact BatchScheduler.cases_bundledTx.imp fun _ h => ⟨not_and.mpr h.left, h.right⟩
  case auction =>
    refine AuctionBatchScheduler.cases_bundledTx.imp fun _ h => ⟨not_and.mpr h.left, h.right.left, ?_⟩
    exact fun p hp => (h.right.right p hp).imp_right fun hv _ => hv

-- In a bundle, only the locks matter of the state.
theorem rejects_congr (hS : S.Charges locks t) (hl : w'.locks = w.locks) :
    t.rejects E w' tx ↔ t.rejects E w tx := by
  cases hS
  case batch => rfl
  case auction =>
    simp [AuctionBatchScheduler.tariff, AuctionBatchScheduler.scoreOf, hl]

theorem value_congr (hS : S.Charges locks t) (hl : w'.locks = w.locks) :
    t.value E w' tx = t.value E w tx := by
  cases hS
  case batch => rfl
  case auction =>
    change tx.costs.elim 0 _ = tx.costs.elim 0 _
    unfold AuctionBatchScheduler.scoreOf
    rw [hl]

theorem refuses_congr (hS : S.Charges locks t) (hl : w'.locks = w.locks) {packet : Packet} :
    t.Refuses E w' packet ↔ t.Refuses E w packet := by
  cases packet
  case none => rfl
  case some => exact hS.rejects_congr hl

theorem bundleOverflows_congr (hS : S.Charges locks t) (hl : w'.locks = w.locks) {cost value : Nat}
    {bundle : List Packet} :
    t.BundleOverflows E w' cost value bundle ↔ t.BundleOverflows E w cost value bundle := by
  have hv : t.value E w' = t.value E w := funext fun _ => hS.value_congr hl
  simp only [Tariff.BundleOverflows, hS.rejects_congr hl, hv]

end Charges

end Scheduler
