import Mathlib.Algebra.Order.BigOperators.Group.List
import SchedArchive.Theorems.Ingest

-- What a bundle is worth: the tips and rewards of its transactions added up.

open Except Ledger

namespace Sample

-- A transfer of `top * 2 ^ 56` lamports to the second account.
def transfer (top : UInt8) : Instruction where
  programId := TipProgram.systemProgram
  accounts  := [0, 1]
  data      := [2, 0, 0, 0, 0, 0, 0, 0, 0, 0, 0, top]

def tipping (tops : List UInt8) : Tx :=
  { tx [(10, true), (TipProgram.tipAccounts.headD 0, true)] 999 1000 with
    instructions := tops.map transfer }

end Sample

namespace Scheduler

variable {L : Type} {S : Scheduler L} {E : Env} {locks : L} {w : World L} {txs txs' : List Tx}
variable {keys : List TransactionKey} {bundle : List Packet} {b : BundleId}
variable {cost value : Tx → Nat} {m n : Nat}

-- The transaction costs `cost tx` and is worth `value tx`, or what is left of that in a `u64`.
def Values (S : Scheduler L) (E : Env) (w : World L) (cost value : Tx → Nat) (tx : Tx) : Prop :=
  S.bundledTx E w tx = (fun v => some (cost tx, v)) <$> Machine.total E.overflowChecks (value tx)

theorem values_arrive (hS : S.Known locks) {tx tx' : Tx} (h : Values S E w cost value tx) :
    Values S E (arrive E w tx') cost value tx :=
  hS.bundledTx_arrive.trans h

-- One packet of `on_bundle`, after the sums `m` and `n`.
theorem total_gather_cons (hS : S.Known locks) {tx : Tx} (h : Values S E w cost value tx) :
    (do
      let c ← Machine.total E.overflowChecks m
      let v ← Machine.total E.overflowChecks n
      S.gather E w ⟨keys, c, v⟩ (some tx :: bundle)) = (do
      let c ← Machine.total E.overflowChecks (m + cost tx)
      let v ← Machine.total E.overflowChecks (n + value tx)
      S.gather E (arrive E w tx) ⟨keys ++ [w.nextKey E], c, v⟩ bundle) := by
  have hg {c v : Nat} : S.gather E w ⟨keys, c, v⟩ (some tx :: bundle) = (do
      let a ← Machine.total E.overflowChecks (value tx)
      let c ← Machine.total E.overflowChecks (c + cost tx)
      let v ← Machine.total E.overflowChecks (v + a)
      S.gather E (arrive E w tx) ⟨keys ++ [w.nextKey E], c, v⟩ bundle) := by
    change (S.bundledTx E (arrive E w tx) tx >>= _) = _
    rw [values_arrive hS h, bind_map_left]
    rfl
  simp only [hg]
  calc
    _ = (do
      let c ← Machine.total E.overflowChecks m
      let c ← Machine.total E.overflowChecks (c + cost tx)
      let a ← Machine.total E.overflowChecks (value tx)
      let v ← Machine.total E.overflowChecks n
      let v ← Machine.total E.overflowChecks (a + v)
      S.gather E (arrive E w tx) ⟨keys ++ [w.nextKey E], c, v⟩ bundle) := by
      refine bind_congr fun c => ?_
      rw [Machine.total_comm]
      simp only [Machine.total_comm (n := c + cost tx), Nat.add_comm]
    _ = _ := by
      simp only [Machine.total_bind, Machine.total_bind_bind, Nat.add_comm (value tx)]

-- The sums over a whole bundle.
theorem total_gather (hS : S.Known locks) (hv : ∀ tx ∈ txs, Values S E w cost value tx) : (do
      let c ← Machine.total E.overflowChecks m
      let v ← Machine.total E.overflowChecks n
      S.gather E w ⟨keys, c, v⟩ (txs.map some)) = (do
      let c ← Machine.total E.overflowChecks (m + (txs.map cost).sum)
      let v ← Machine.total E.overflowChecks (n + (txs.map value).sum)
      return (arriveAll E w txs, some ⟨keys ++ newKeys E w txs.length, c, v⟩)) := by
  induction txs generalizing w keys m n
  case nil => simp [gather, newKeys, arriveAll, pure, Except.pure]
  case cons tx txs ih =>
    obtain ⟨ht, hv⟩ := List.forall_mem_cons.mp hv
    rw [List.map_cons, total_gather_cons hS ht, ih fun tx hm => values_arrive hS <| hv tx hm,
      List.length_cons, newKeys_succ tx]
    simp only [List.map_cons, List.sum_cons, Nat.add_assoc, List.append_assoc]
    rfl

theorem gather_eq_total (hS : S.Known locks) (hv : ∀ tx ∈ txs, Values S E w cost value tx) :
    S.gather E w ⟨[], 0, 0⟩ (txs.map some) = (do
      let c ← Machine.total E.overflowChecks (txs.map cost).sum
      let v ← Machine.total E.overflowChecks (txs.map value).sum
      return (arriveAll E w txs, some ⟨newKeys E w txs.length, c, v⟩)) := by
  have h : S.gather E w ⟨[], 0, 0⟩ (txs.map some) = _ := total_gather (m := 0) (n := 0) hS hv
  simpa only [Nat.zero_add, List.nil_append] using h

-- `on_bundle` adds up what the transactions are worth to exactly `n`, or to all that a `u64` can hold.
def AddsUpTo (S : Scheduler L) (E : Env) (w : World L) (txs : List Tx) (n : Nat) : Prop :=
  ∃ w' g, S.gather E w ⟨[], 0, 0⟩ (txs.map some) = .ok (w', some g) ∧ g.value = min n u64Max

-- The sum `n` is not cut off, unless what is left of it happens to be all that a `u64` can hold.
def Fits (E : Env) (n : Nat) : Prop :=
  n ≤ u64Max ∨ (E.overflowChecks = false ∧ n % 2 ^ 64 = u64Max)

instance : Decidable (Fits E n) :=
  inferInstanceAs <| Decidable (_ ∨ _)

-- All sums of a bundle are in order. A wrapped around cost only counts where it would panic.
def SumsFit (E : Env) (cost value : Tx → Nat) (txs : List Tx) : Prop :=
  (E.overflowChecks → (txs.map cost).sum ≤ u64Max) ∧ Fits E (txs.map value).sum

instance : Decidable (SumsFit E cost value txs) :=
  inferInstanceAs <| Decidable (_ ∧ _)

theorem sums_of_gather (hS : S.Known locks) (hv : ∀ tx ∈ txs, Values S E w cost value tx)
    {w' : World L} {g : Gathered} (hg : S.gather E w ⟨[], 0, 0⟩ (txs.map some) = .ok (w', some g)) :
    Machine.total E.overflowChecks (txs.map cost).sum = .ok g.cost ∧
      Machine.total E.overflowChecks (txs.map value).sum = .ok g.value := by
  rw [gather_eq_total hS hv] at hg
  obtain ⟨c, hc, hg⟩ := bind_eq_ok.mp hg
  obtain ⟨v, hv, hg⟩ := bind_eq_ok.mp hg
  obtain rfl := Option.some_inj.mp (Prod.mk.inj <| Except.ok.inj hg).right
  exact ⟨hc, hv⟩

theorem addsUpTo_iff (hS : S.Known locks) (hv : ∀ tx ∈ txs, Values S E w cost value tx) :
    AddsUpTo S E w txs (txs.map value).sum ↔ SumsFit E cost value txs := by
  rw [SumsFit, Fits, ← Machine.total_eq_saturated_iff, ← Machine.exists_total_eq_ok_iff]
  constructor
  case mp =>
    rintro ⟨w', g, hg, hs⟩
    obtain ⟨hc, hv⟩ := sums_of_gather hS hv hg
    exact ⟨⟨_, hc⟩, hs ▸ hv⟩
  case mpr =>
    rintro ⟨⟨c, hc⟩, hs⟩
    rw [AddsUpTo, gather_eq_total hS hv]
    exact ⟨_, _, bind_eq_ok.mpr ⟨c, hc, bind_eq_ok.mpr ⟨_, hs, rfl⟩⟩, rfl⟩

-- `on_bundle` stores the bundle as `b`.
def TakesIn (S : Scheduler L) (E : Env) (w : World L) (bundle : List Packet) (b : BundleId) : Prop :=
  ∃ w', S.onBundle E w bundle = .ok w' ∧ b ∈ w'.bundles ∧ b ∉ w.bundles

theorem exists_takesIn {p : Nat} (h : (S.onBundle E w bundle).Ensures
    (fun w' => ∃ b ∈ w'.bundles, b ∉ w.bundles ∧ b.priority = p) (fun _ => False)) :
    ∃ b, TakesIn S E w bundle b ∧ b.priority = p := by
  obtain ⟨w', hw, b, hm, hn, hp⟩ := h.exists_ok
  exact ⟨b, ⟨w', hw, hm, hn⟩, hp⟩

theorem mem_bundles_storeBundle {g : Gathered} : (S.storeBundle w g).Ensures (fun w' =>
    ∀ b ∈ w'.bundles, b ∉ w.bundles → b.keys = g.keys ∧ b.priority = S.bundlePriority g.value g.cost)
    (fun _ => True) := by
  rw [storeBundle, ensures_bind]
  refine ensures_of_forall fun _ => ?_
  rw [ensures_bind]
  refine fields_evictBundle.imp fun w₁ h₁ => ?_
  rw [ensures_pure, toLedger_queueKeys]
  intro b hm hn
  obtain rfl := (Finset.mem_insert.mp hm).resolve_right fun hm => hn <| h₁.right.left hm
  exact ⟨rfl, rfl⟩

-- The stored bundle has the priority that belongs to the sums of the packet loop.
theorem TakesIn.gathered (h : TakesIn S E w bundle b) : ∃ w₁ g,
    S.gather E w ⟨[], 0, 0⟩ bundle = .ok (w₁, some g) ∧ b.keys = g.keys ∧
      b.priority = S.bundlePriority g.value g.cost := by
  obtain ⟨w', hw, hm, hn⟩ := h
  obtain ⟨⟨w₁, g⟩, hg, hw⟩ := bind_eq_ok.mp hw
  have hb := (fields_gather.of_ok hg).right
  cases g
  case none =>
    obtain rfl := Except.ok.inj hw
    exact absurd (hb ▸ hm) hn
  case some g =>
    have hw : (if _ then _ else _) = Except.ok w' := hw
    split_ifs at hw
    case pos =>
      obtain rfl := Except.ok.inj hw
      exact absurd (fields_dropAll.right.trans hb ▸ hm) hn
    case neg => exact ⟨w₁, g, hg, mem_bundles_storeBundle.of_ok hw b hm <| hb.symm ▸ hn⟩

-- What should be true of two bundles if the second one is worth more: both are added up in full, and
-- the second one does not get the lower priority.
structure Ranks (S : Scheduler L) (E : Env) (w : World L) (value : Tx → Nat) (txs txs' : List Tx) :
    Prop where
  exact  : AddsUpTo S E w txs (txs.map value).sum
  exact' : AddsUpTo S E w txs' (txs'.map value).sum
  ranks  : ∀ b b', TakesIn S E w (txs.map some) b → TakesIn S E w (txs'.map some) b' →
             b.priority ≤ b'.priority

theorem ranks_iff (hS : S.Known locks) (hv : ∀ tx ∈ txs, Values S E w cost value tx)
    (hv' : ∀ tx ∈ txs', Values S E w cost value tx)
    (hle : (txs.map value).sum ≤ (txs'.map value).sum)
    (hp : ∀ {c c' v v'}, Machine.total E.overflowChecks (txs.map cost).sum = .ok c →
      Machine.total E.overflowChecks (txs'.map cost).sum = .ok c' → v ≤ v' →
      S.bundlePriority v c ≤ S.bundlePriority v' c') :
    Ranks S E w value txs txs' ↔ SumsFit E cost value txs ∧ SumsFit E cost value txs' := by
  refine ⟨fun h => ⟨(addsUpTo_iff hS hv).mp h.exact, (addsUpTo_iff hS hv').mp h.exact'⟩, ?_⟩
  rintro ⟨hf, hf'⟩
  refine ⟨(addsUpTo_iff hS hv).mpr hf, (addsUpTo_iff hS hv').mpr hf', fun b b' hb hb' => ?_⟩
  obtain ⟨_, g, hg, _, hb⟩ := hb.gathered
  obtain ⟨_, g', hg', _, hb'⟩ := hb'.gathered
  obtain ⟨hc, hs⟩ := sums_of_gather hS hv hg
  obtain ⟨hc', hs'⟩ := sums_of_gather hS hv' hg'
  rw [Machine.total_eq_saturated_iff.mpr hf.right] at hs
  rw [Machine.total_eq_saturated_iff.mpr hf'.right] at hs'
  rw [hb, hb', ← Except.ok.inj hs, ← Except.ok.inj hs']
  exact hp hc hc' <| min_le_min_right _ hle

end Scheduler

namespace BatchScheduler

open Scheduler TipProgram

variable {E : Env} {w : World InFlightLocks} {txs txs' : List Tx} {cost reward : Tx → Nat}

-- What a transaction pays besides its reward.
def rewardAndTips (reward : Tx → Nat) (tx : Tx) : Nat :=
  reward tx + (tips tx).sum

-- The transaction is priced: including it costs `cost tx` and pays `reward tx`.
def Priced (E : Env) (cost reward : Tx → Nat) (tx : Tx) : Prop :=
  tx.calculateCostAndReward E.overflowChecks E.burnPercent = .ok (some (cost tx, reward tx))

theorem Priced.values {tx : Tx} (h : Priced E cost reward tx) :
    Values scheduler E w cost (rewardAndTips reward) tx := by
  change bundledTx E w tx = _
  rw [bundledTx, h, rewardAndTips, Nat.add_comm, ← bind_pure_comp]
  change (extractTip E.overflowChecks tx >>= fun tip =>
    Machine.add E.overflowChecks (reward tx) tip >>= _) = _
  simp only [extractTip_eq_total, Machine.add_eq_total, Nat.add_comm (reward tx),
    Machine.total_bind]

-- The same transaction, except that some of its tips may be higher.
structure Raises (tx tx' : Tx) : Prop where
  costs : tx'.costs = tx.costs
  tips  : List.Forall₂ (· ≤ ·) (tips tx) (TipProgram.tips tx')

theorem Raises.priced {tx tx' : Tx} (h : Raises tx tx') (hp : Priced E cost reward tx)
    (hp' : Priced E cost reward tx') : cost tx' = cost tx ∧ reward tx' = reward tx := by
  have hc : tx'.calculateCostAndReward E.overflowChecks E.burnPercent =
      tx.calculateCostAndReward E.overflowChecks E.burnPercent := by
    unfold Tx.calculateCostAndReward
    rw [h.costs]
  exact Prod.mk.inj <| Option.some_inj.mp <| Except.ok.inj <| hp'.symm.trans <| hc.trans hp

-- The costs stay what they are, and what is paid does not decrease.
theorem sums_of_raises (hr : List.Forall₂ Raises txs txs') (hp : ∀ tx ∈ txs, Priced E cost reward tx)
    (hp' : ∀ tx ∈ txs', Priced E cost reward tx) : (txs'.map cost).sum = (txs.map cost).sum ∧
      (txs.map (rewardAndTips reward)).sum ≤ (txs'.map (rewardAndTips reward)).sum := by
  induction hr
  case nil => exact ⟨rfl, le_rfl⟩
  case cons tx tx' _ _ h _ ih =>
    obtain ⟨hp, hps⟩ := List.forall_mem_cons.mp hp
    obtain ⟨hp', hps'⟩ := List.forall_mem_cons.mp hp'
    obtain ⟨hc, hle⟩ := ih hps hps'
    obtain ⟨hct, hrt⟩ := h.priced hp hp'
    have ht := h.tips.sum_le_sum
    simp only [List.map_cons, List.sum_cons, rewardAndTips, hct, hrt] at hle ⊢
    omega

theorem bundlePriority_mono {v v' c : Nat} (h : v ≤ v') : bundlePriority v c ≤ bundlePriority v' c :=
  Nat.div_le_div_right <| min_le_min_right _ <| Nat.mul_le_mul_right _ h

-- What should be true if tips are raised: no tip and no reward is lost in a sum, and the bundle does
-- not get a lower priority.
structure TipsCount (E : Env) (w : World InFlightLocks) (reward : Tx → Nat) (txs txs' : List Tx) :
    Prop extends Ranks scheduler E w (rewardAndTips reward) txs txs' where
  tips : ∀ tx ∈ txs ++ txs',
           extractTip E.overflowChecks tx = .ok (min (TipProgram.tips tx).sum u64Max)

theorem tips_count_iff (hp : ∀ tx ∈ txs, Priced E cost reward tx)
    (hp' : ∀ tx ∈ txs', Priced E cost reward tx) (hr : List.Forall₂ Raises txs txs') :
    TipsCount E w reward txs txs' ↔ (∀ tx ∈ txs ++ txs', Fits E (tips tx).sum) ∧
      SumsFit E cost (rewardAndTips reward) txs ∧ SumsFit E cost (rewardAndTips reward) txs' := by
  obtain ⟨hc, hle⟩ := sums_of_raises hr hp hp'
  have hi := ranks_iff (S := scheduler) (w := w) .batch (fun tx hm => (hp tx hm).values)
    (fun tx hm => (hp' tx hm).values) hle fun h h' hv => by
      rw [hc] at h'
      obtain rfl := Except.ok.inj <| h.symm.trans h'
      exact bundlePriority_mono hv
  rw [← hi]
  simp only [Fits, ← Machine.total_eq_saturated_iff, ← extractTip_eq_total]
  exact ⟨fun h => ⟨h.tips, h.toRanks⟩, fun h => ⟨h.right, h.left⟩⟩

-- One of two tips of the bundle is doubled.
theorem tips_count_iff_doubled :
    TipsCount Sample.env (Sample.world ∅) (fun _ => 1000) [Sample.tipping [1, 3]]
      [Sample.tipping [2, 3]] := by
  have hp (tops : List UInt8) : ∀ tx ∈ [Sample.tipping tops],
      Priced Sample.env (fun _ => 999) (fun _ => 1000) tx := by
    refine List.forall_mem_singleton.mpr ?_
    change (Sample.tipping []).calculateCostAndReward true 50 = .ok (some (999, 1000))
    decide +kernel
  exact (tips_count_iff (hp [1, 3]) (hp [2, 3]) (.cons ⟨rfl, by decide⟩ .nil)).mpr
    (by decide +kernel)

-- One of two tips is raised, and now they add up to 2 ^ 64.
theorem tips_wrap_around :
    extractTip false (Sample.tipping [128, 128]) = .ok 0 ∧
    (∃ b b', TakesIn scheduler Sample.release (Sample.world ∅) [some <| Sample.tipping [64, 128]] b ∧
      TakesIn scheduler Sample.release (Sample.world ∅) [some <| Sample.tipping [128, 128]] b' ∧
      b'.priority < b.priority) ∧
    scheduler.onBundle Sample.env (Sample.world ∅) [some <| Sample.tipping [128, 128]] =
      .error .overflow ∧
    ¬TipsCount Sample.release (Sample.world ∅) (fun _ => 1000) [Sample.tipping [64, 128]]
      [Sample.tipping [128, 128]] := by
  obtain ⟨b, hb, hp⟩ : ∃ b, TakesIn scheduler Sample.release (Sample.world ∅)
      [some <| Sample.tipping [64, 128]] b ∧ b.priority = u64Max / 999 :=
    exists_takesIn (by decide +kernel)
  obtain ⟨b', hb', hp'⟩ : ∃ b, TakesIn scheduler Sample.release (Sample.world ∅)
      [some <| Sample.tipping [128, 128]] b ∧ b.priority = 1000000000 / 999 :=
    exists_takesIn (by decide +kernel)
  have hlt : b'.priority < b.priority := by
    rw [hp, hp']
    decide
  refine ⟨by decide, ⟨b, b', hb, hb', hlt⟩, Ensures.eq_error (by decide +kernel), fun h => ?_⟩
  exact absurd (h.ranks b b' hb hb') hlt.not_ge

end BatchScheduler
