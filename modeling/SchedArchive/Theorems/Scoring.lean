import Mathlib.Algebra.Order.BigOperators.Group.List
import Mathlib.Data.Rat.Floor
import Mathlib.Tactic.GCongr
import Mathlib.Tactic.Linarith
import Mathlib.Tactic.Positivity
import SchedArchive.Auction.Engine

-- The scores of the auction engine: the bounds that every run of the engine keeps, and how a score
-- moves with what it depends on.

namespace AuctionEngine

open LockManager

section Reachable

variable {R : Type} [Field R] [LinearOrder R] [IsStrictOrderedRing R] [FloorSemiring R]

-- The engine after any ticks and updates of the base prices, with whatever transactions do to its
-- locks and queues in between.
inductive Reachable (libm : Libm R) : AuctionEngine R → Prop
  | new : Reachable libm (.new .default)
  | processTick {e now stats remainingCu msRemaining} :
    Reachable libm e → Reachable libm (e.processTick libm now stats remainingCu msRemaining)
  | updateBasePrices {e baseCu baseWriteLock baseReadLock baseTime baseSpace} :
    Reachable libm e → 0 ≤ baseCu → 0 ≤ baseWriteLock → 0 ≤ baseReadLock → 0 ≤ baseTime →
    0 ≤ baseSpace →
    Reachable libm (e.updateBasePrices baseCu baseWriteLock baseReadLock baseTime baseSpace)
  | acquireLocks {e key txLocks} : Reachable libm e → Reachable libm (e.acquireLocks key txLocks).1
  | releaseLocks {e key txLocks} : Reachable libm e → Reachable libm (e.releaseLocks key txLocks)
  | queueTransaction {e txLocks} : Reachable libm e → Reachable libm (e.queueTransaction txLocks)
  | dequeueTransaction {e txLocks} : Reachable libm e → Reachable libm (e.dequeueTransaction txLocks)

end Reachable

section Clamp

variable {R : Type} [LinearOrder R] {lo hi x y : R}

theorem clamp_mem (h : lo ≤ hi) : lo ≤ clamp lo hi x ∧ clamp lo hi x ≤ hi :=
  ⟨le_max_left .., max_le h <| min_le_left ..⟩

theorem clamp_le_clamp (h : x ≤ y) : clamp lo hi x ≤ clamp lo hi y :=
  max_le_max le_rfl <| min_le_min le_rfl h

end Clamp

variable {R : Type} [Field R] [LinearOrder R] {libm : Libm R} {e e' : AuctionEngine R} {x y : R}
variable {m m' : LockManager R} {l : Lock} {txLocks : List Lock} {a : Pubkey}

section Depths

-- No account has an entry below zero.
def Counts (m : LockManager R) : Prop :=
  ∀ a depth, m.queueDepths.lookup a = some depth → 0 ≤ depth

theorem Counts.congr (h : Counts m) (hq : m'.queueDepths = m.queueDepths) : Counts m' := by
  rwa [Counts, hq]

theorem Counts.queueDepth_nonneg (h : Counts m) (a : Pubkey) : 0 ≤ queueDepth m a := by
  rw [queueDepth]
  cases hd : m.queueDepths.lookup a
  case none       => exact le_rfl
  case some depth => exact h a depth hd

theorem Counts.insert (h : Counts m) (hx : 0 ≤ x) :
    Counts { m with queueDepths := m.queueDepths.insert a x } := by
  intro a' depth hd
  rw [Finmap.lookup_insert_eq_ite] at hd
  split_ifs at hd
  case pos => exact Option.some_inj.mp hd ▸ hx
  case neg => exact h a' depth hd

theorem Counts.erase (h : Counts m) : Counts { m with queueDepths := m.queueDepths.erase a } := by
  intro a' depth hd
  rw [Finmap.lookup_erase_eq_ite] at hd
  split_ifs at hd
  exact h a' depth hd

end Depths

variable [IsStrictOrderedRing R]

section Bounds

theorem Counts.queueOne (h : Counts m) : Counts (m.queueOne l) :=
  h.insert <| add_nonneg (h.queueDepth_nonneg _) zero_le_one

theorem Counts.dequeueOne (h : Counts m) : Counts (m.dequeueOne l) := by
  rw [LockManager.dequeueOne.eq_def]
  dsimp only
  split
  case h_1 => exact h
  case h_2 =>
    split_ifs with hd
    case pos => exact h.erase
    case neg => exact h.insert <| le_trans (by norm_num) <| not_lt.mp hd

theorem Counts.queue (h : Counts m) : Counts (m.queueTransaction txLocks) :=
  txLocks.foldlRecOn _ h fun _ h _ _ => h.queueOne

theorem Counts.dequeue (h : Counts m) : Counts (m.dequeueTransaction txLocks) :=
  txLocks.foldlRecOn _ h fun _ h _ _ => h.dequeueOne

theorem counts_decay : Counts (m.decay libm x) := by
  intro a depth hd
  rw [LockManager.decay, Finmap.lookup_filterMapValues, Option.bind_eq_some_iff] at hd
  obtain ⟨_, _, hd⟩ := hd
  split_ifs at hd with hf
  exact Option.some_inj.mp hd ▸ le_trans (by norm_num) hf.le

theorem minPrice_le_maxPrice : (minPrice : R) ≤ maxPrice := by
  norm_num [minPrice, maxPrice]

-- What the observations of the prices lie between.
theorem utilization_mem :
    0 ≤ ResourcePrices.utilization x y ∧ ResourcePrices.utilization x y ≤ maxPrice := by
  have hm : (0 : R) ≤ minPrice := by norm_num [minPrice]
  unfold ResourcePrices.utilization
  split_ifs
  case pos => exact (clamp_mem minPrice_le_maxPrice).imp_left hm.trans
  case neg => exact ⟨hm.trans minPrice_le_maxPrice, le_rfl⟩

structure EWMA.Bounded (p : EWMA R) : Prop where
  alpha : 0 ≤ p.alpha ∧ p.alpha ≤ 1
  value : 0 ≤ p.value ∧ p.value ≤ maxPrice

-- The average of two values in an interval stays in it.
theorem EWMA.Bounded.update {p : EWMA R} (h : p.Bounded) (hx : 0 ≤ x ∧ x ≤ maxPrice) :
    (p.update x).Bounded := by
  have ha := sub_nonneg.mpr h.alpha.right
  refine ⟨h.alpha, add_nonneg (mul_nonneg h.alpha.left hx.left) (mul_nonneg ha h.value.left), ?_⟩
  calc p.alpha * x + (1 - p.alpha) * p.value
    _ ≤ p.alpha * maxPrice + (1 - p.alpha) * maxPrice :=
      add_le_add (mul_le_mul_of_nonneg_left hx.right h.alpha.left)
        (mul_le_mul_of_nonneg_left h.value.right ha)
    _ = maxPrice := by rw [← add_mul, add_sub_cancel, one_mul]

structure ResourcePrices.Bounded (p : ResourcePrices R) : Prop where
  cu                 : p.cu.Bounded
  lock               : p.lock.Bounded
  time               : p.time.Bounded
  space              : p.space.Bounded
  baseCuPrice        : 0 ≤ p.baseCuPrice
  baseWriteLockPrice : 0 ≤ p.baseWriteLockPrice
  baseReadLockPrice  : 0 ≤ p.baseReadLockPrice

theorem ResourcePrices.Bounded.update {p : ResourcePrices R} (h : p.Bounded)
    {cuDemand cuCapacity lockDemand lockCapacity timeElapsed msRemaining fragmentation : R} :
    (p.update cuDemand cuCapacity lockDemand lockCapacity timeElapsed msRemaining
      fragmentation).Bounded :=
  { h with
    cu    := h.cu.update utilization_mem
    lock  := h.lock.update utilization_mem
    time  := h.time.update utilization_mem
    space := h.space.update <|
      (clamp_mem minPrice_le_maxPrice).imp_left (le_trans <| by norm_num [minPrice]) }

theorem ResourcePrices.Bounded.totalCost_le {p : ResourcePrices R} (h : p.Bounded)
    {cu cu' writes writes' reads reads' : Nat} (hc : cu ≤ cu') (hw : writes ≤ writes')
    (hr : reads ≤ reads') :
    p.totalCost cu writes reads ≤ p.totalCost cu' writes' reads' := by
  have hcu := h.cu.value.left
  have hl := h.lock.value.left
  have hb := h.baseCuPrice
  have hbw := h.baseWriteLockPrice
  have hbr := h.baseReadLockPrice
  unfold ResourcePrices.totalCost
  gcongr

-- A write lock in place of a read lock.
theorem ResourcePrices.Bounded.totalCost_le_of_write {p : ResourcePrices R} (h : p.Bounded)
    {cu writes reads : Nat} (hb : p.baseReadLockPrice ≤ p.baseWriteLockPrice) :
    p.totalCost cu writes (reads + 1) ≤ p.totalCost cu (writes + 1) reads := by
  have hl := mul_le_mul_of_nonneg_left hb h.lock.value.left
  unfold ResourcePrices.totalCost
  push_cast
  linarith

structure Bounded (e : AuctionEngine R) : Prop where
  config : e.config = .default
  prices : e.prices.Bounded
  depths : Counts e.lockManager

theorem bounded_new : Bounded (.new .default : AuctionEngine R) where
  config := rfl
  prices := by
    have h {alpha : R} (ha : 0 ≤ alpha ∧ alpha ≤ 1) : EWMA.Bounded ⟨0, alpha⟩ :=
      ⟨ha, le_rfl, by norm_num [maxPrice]⟩
    constructor
    case cu | lock | time | space => exact h (by constructor <;> norm_num [AuctionEngineConfig.default])
    all_goals norm_num [new, ResourcePrices.new, AuctionEngineConfig.default]
  depths := nofun

-- The share of the cost that is left after the discount. Whatever the entropy is, the discount is
-- less than 6/10.
theorem Bounded.discount (h : Bounded e) :
    0 < 1 - e.flexibilityCoeff * (3 / 10) ∧ 1 - e.flexibilityCoeff * (3 / 10) ≤ 1 := by
  have hf : e.flexibilityCoeff = 2 * (1 - 1 / (1 + 1 / 2 * |e.entropy|)) := by
    rw [flexibilityCoeff, h.config]
    rfl
  have h1 : 1 ≤ 1 + 1 / 2 * |e.entropy| := le_add_of_nonneg_right <| by positivity
  have hp : 0 < 1 / (1 + 1 / 2 * |e.entropy|) := by positivity
  have hl : 1 / (1 + 1 / 2 * |e.entropy|) ≤ 1 := (div_le_one <| one_pos.trans_le h1).mpr h1
  rw [hf]
  constructor <;> linarith

end Bounds

theorem serializationPenalty_nonneg : 0 ≤ m.serializationPenalty txLocks :=
  (clamp_mem <| by norm_num).left

theorem serializationPenalty_le
    (h : (txLocks.map fun l => queueDepth m l.1).sum ≤ (txLocks'.map fun l => queueDepth m' l.1).sum) :
    m.serializationPenalty txLocks ≤ m'.serializationPenalty txLocks' := by
  refine clamp_le_clamp ?_
  change (txLocks.map fun l => queueDepth m l.1).sum * 25 / 400 ≤
    (txLocks'.map fun l => queueDepth m' l.1).sum * 25 / 400
  gcongr

variable [FloorSemiring R] {p : ResourcePrices R} {details details' : CostDetails} {txLocks' : List Lock}
variable {cost cost' tip tip' : Nat}

theorem Reachable.bounded (hr : Reachable libm e) : Bounded e := by
  induction hr
  case new => exact bounded_new
  case processTick ih => exact ⟨ih.config, ih.prices.update, counts_decay⟩
  case updateBasePrices hc hw hr _ _ ih =>
    exact ⟨ih.config, ⟨ih.prices.cu, ih.prices.lock, ih.prices.time, ih.prices.space, hc, hw, hr⟩,
      ih.depths⟩
  case acquireLocks ih =>
    rw [AuctionEngine.acquireLocks]
    split_ifs
    case pos => exact ⟨ih.config, ih.prices, ih.depths.congr queueDepths_acquire⟩
    case neg => exact ih
  case releaseLocks ih => exact ⟨ih.config, ih.prices, ih.depths.congr queueDepths_release⟩
  case queueTransaction ih => exact ⟨ih.config, ih.prices, ih.depths.queue⟩
  case dequeueTransaction ih => exact ⟨ih.config, ih.prices, ih.depths.dequeue⟩

section Score

theorem asU64_mono (h : x ≤ y) : asU64 x ≤ asU64 y :=
  min_le_min (Nat.floor_le_floor h) le_rfl

theorem toPriority_mono (h : x ≤ y) : toPriority x ≤ toPriority y := by
  have hm : max x 0 ≤ max y 0 := max_le_max h le_rfl
  by_cases hy : ((bundleMarker - 1 : Nat) : R) ≤ max y 0
  case pos => exact toPriority_le.trans_eq (if_pos hy).symm
  case neg =>
    rw [toPriority, toPriority, if_neg hy, if_neg fun hx => hy <| hx.trans hm]
    exact asU64_mono hm

theorem scaled_mono (h : x ≤ y) : scaled x ≤ scaled y := by
  unfold scaled
  gcongr

theorem effCu_le (hc : cost ≤ cost')
    (h : m.serializationPenalty txLocks ≤ m'.serializationPenalty txLocks') :
    effCu m cost txLocks ≤ effCu m' cost' txLocks' := by
  refine asU64_mono <| max_le_max ?_ le_rfl
  have hp : 0 ≤ m.serializationPenalty txLocks := serializationPenalty_nonneg
  gcongr

theorem resourceCost_le (h : p.Bounded) (hc : cost ≤ cost')
    (hp : m.serializationPenalty txLocks ≤ m'.serializationPenalty txLocks')
    (hw : txLocks.countP (·.2) ≤ txLocks'.countP (·.2))
    (hr : txLocks.length - txLocks.countP (·.2) ≤ txLocks'.length - txLocks'.countP (·.2)) :
    resourceCost p m cost txLocks ≤ resourceCost p m' cost' txLocks' :=
  h.totalCost_le (effCu_le hc hp) hw hr

theorem readLocks_eq {before after : List Lock} : (before ++ l :: after).length -
    (before ++ l :: after).countP (·.2) =
      (before ++ after).length - (before ++ after).countP (·.2) + if l.2 then 0 else 1 := by
  have hl := (before ++ after).countP_le_length (p := (·.2))
  simp only [List.length_append, List.length_cons, List.countP_append, List.countP_cons] at hl ⊢
  split_ifs <;> omega

theorem ResourcePrices.Bounded.resourceCost_le_of_write (h : p.Bounded)
    (hb : p.baseReadLockPrice ≤ p.baseWriteLockPrice) {before after : List Lock} :
    resourceCost p m cost (before ++ (a, false) :: after) ≤
      resourceCost p m cost (before ++ (a, true) :: after) := by
  have hp : m.serializationPenalty (before ++ (a, false) :: after) =
      m.serializationPenalty (before ++ (a, true) :: after) := by
    simp only [serializationPenalty, List.map_append, List.map_cons]
  have hw : (before ++ (a, true) :: after).countP (·.2) =
      (before ++ (a, false) :: after).countP (·.2) + 1 := by
    simp [Nat.add_assoc]
  rw [resourceCost, resourceCost, effCu, effCu, hp, readLocks_eq, readLocks_eq, hw]
  exact h.totalCost_le_of_write hb

-- What pays more and costs less does not score less.
theorem Bounded.score_le_of_lockManager (h : Bounded e)
    (hp : details.prioritizationFee + tip ≤ details'.prioritizationFee + tip')
    (hr : resourceCost e.prices m' details'.totalCost txLocks' ≤
      resourceCost e.prices m details.totalCost txLocks) :
    { e with lockManager := m }.score details txLocks tip ≤
      { e with lockManager := m' }.score details' txLocks' tip' := by
  rw [score, score, priorityOf, priorityOf]
  refine toPriority_mono <| scaled_mono <| sub_le_sub (Nat.cast_le.mpr hp) ?_
  exact mul_le_mul_of_nonneg_right hr h.discount.left.le

theorem Bounded.score_le (h : Bounded e)
    (hp : details.prioritizationFee + tip ≤ details'.prioritizationFee + tip')
    (hr : resourceCost e.prices e.lockManager details'.totalCost txLocks' ≤
      resourceCost e.prices e.lockManager details.totalCost txLocks) :
    e.score details txLocks tip ≤ e.score details' txLocks' tip' :=
  h.score_le_of_lockManager hp hr

-- The prices stay in their bounds, and a score does not decrease if more is paid or less is used.
structure ScoresFairly (e : AuctionEngine R) : Prop where
  prices     : ∀ p ∈ [e.prices.cu, e.prices.lock, e.prices.time, e.prices.space],
                 0 ≤ p.value ∧ p.value ≤ maxPrice
  discount   : 0 < 1 - e.flexibilityCoeff * (3 / 10) ∧ 1 - e.flexibilityCoeff * (3 / 10) ≤ 1
  le_max     : ∀ details txLocks tip, e.score details txLocks tip ≤ bundleMarker - 1
  fee        : ∀ details txLocks tip fee, details.prioritizationFee ≤ fee →
                 e.score details txLocks tip ≤
                   e.score { details with prioritizationFee := fee } txLocks tip
  tip        : ∀ details txLocks tip tip', tip ≤ tip' →
                 e.score details txLocks tip ≤ e.score details txLocks tip'
  totalCost  : ∀ details txLocks tip cost, details.totalCost ≤ cost →
                 e.score { details with totalCost := cost } txLocks tip ≤
                   e.score details txLocks tip
  queueDepth : ∀ m details txLocks tip, (∀ a, queueDepth e.lockManager a ≤ queueDepth m a) →
                 { e with lockManager := m }.score details txLocks tip ≤
                   e.score details txLocks tip
  added      : ∀ details before lock after tip,
                 e.score details (before ++ lock :: after) tip ≤
                   e.score details (before ++ after) tip
  written    : e.prices.baseReadLockPrice ≤ e.prices.baseWriteLockPrice →
                 ∀ details before addr after tip,
                   e.score details (before ++ (addr, true) :: after) tip ≤
                     e.score details (before ++ (addr, false) :: after) tip

theorem scoring_monotone (hr : Reachable libm e) : ScoresFairly e := by
  have h := hr.bounded
  constructor
  case prices =>
    simp only [List.forall_mem_cons]
    exact ⟨h.prices.cu.value, h.prices.lock.value, h.prices.time.value, h.prices.space.value, by simp⟩
  case discount => exact h.discount
  case le_max => exact fun _ _ _ => toPriority_le
  case fee => exact fun _ _ tip _ hf => h.score_le (Nat.add_le_add_right hf tip) le_rfl
  case tip => exact fun _ _ _ _ ht => h.score_le (Nat.add_le_add_left ht _) le_rfl
  case totalCost =>
    exact fun _ _ _ _ hc => h.score_le le_rfl <| resourceCost_le h.prices hc le_rfl le_rfl le_rfl
  case queueDepth =>
    intro m _ _ _ hd
    have hd {txLocks : List Lock} := List.sum_le_sum fun l (_ : l ∈ txLocks) => hd l.1
    exact h.score_le_of_lockManager le_rfl <|
      resourceCost_le h.prices le_rfl (serializationPenalty_le hd) le_rfl le_rfl
  case added =>
    intro _ before lock after _
    have hd := h.depths.queueDepth_nonneg lock.1
    refine h.score_le le_rfl <| resourceCost_le h.prices le_rfl (serializationPenalty_le ?_) ?_ ?_
    · simp only [List.map_append, List.map_cons, List.sum_append, List.sum_cons]
      linarith
    · exact (List.sublist_cons_self ..).append_left before |>.countP_le
    · exact readLocks_eq.symm ▸ Nat.le_add_right ..
  case written =>
    intro hb _ before addr after _
    exact h.score_le le_rfl <| h.prices.resourceCost_le_of_write hb

-- An engine that has seen one tick.
def Sample.ticked : AuctionEngine ℚ :=
  (new .default).processTick ⟨fun _ => 0, fun _ _ => 1⟩ 0 ⟨30000000, 40, 1 / 2, 1⟩ 30000000 200

theorem scoring_monotone_repriced :
    ScoresFairly (Sample.ticked.updateBasePrices (1 / 100) 1000 200 500 1000) :=
  scoring_monotone <| .updateBasePrices (.processTick .new) (by norm_num) (by norm_num) (by norm_num)
    (by norm_num) (by norm_num)

end Score

end AuctionEngine
