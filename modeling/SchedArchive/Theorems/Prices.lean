import Mathlib.Analysis.SpecialFunctions.Pow.Real
import SchedArchive.Lib.Smoothing
import SchedArchive.Theorems.Decay
import SchedArchive.Theorems.Scoring

-- Where many ticks take the prices and the queue depths.

namespace AuctionEngine

open LockManager Smoothing

section DecayRate

variable {R : Type} {m : LockManager R} {key : TransactionKey} {l : Lock} {txLocks : List Lock}

-- Transactions leave the decay rate alone.

theorem decayRate_foldl {f : LockManager R → Lock → LockManager R}
    (hf : ∀ m l, (f m l).decayRate = m.decayRate) : (txLocks.foldl f m).decayRate = m.decayRate := by
  induction txLocks generalizing m
  case nil             => rfl
  case cons l locks ih => exact ih.trans <| hf m l

theorem decayRate_acquire : (m.acquire key txLocks).decayRate = m.decayRate := by
  rw [acquire]
  exact decayRate_foldl fun _ _ => rfl

theorem decayRate_releaseOne : (m.releaseOne key l).decayRate = m.decayRate := by
  obtain ⟨addr, _⟩ := l
  unfold releaseOne
  dsimp only
  split
  case h_1 => rfl
  case h_2 => split_ifs <;> rfl

variable [Field R]

theorem decayRate_queue : (m.queueTransaction txLocks).decayRate = m.decayRate := by
  rw [LockManager.queueTransaction]
  exact decayRate_foldl fun _ _ => rfl

theorem decayRate_dequeueOne [LinearOrder R] : (m.dequeueOne l).decayRate = m.decayRate := by
  obtain ⟨addr, _⟩ := l
  unfold dequeueOne
  dsimp only
  split
  case h_1 => rfl
  case h_2 => split_ifs <;> rfl

end DecayRate

section Decay

variable {R : Type} [Field R] [LinearOrder R] {libm : Libm R}

-- The laws of `powf` that `decay` relies on.
structure Libm.Exponential (libm : Libm R) : Prop where
  add    : ∀ {x a b}, 0 ≤ x → 0 ≤ a → 0 ≤ b → libm.powf x (a + b) = libm.powf x a * libm.powf x b
  nonneg : ∀ {x a}, 0 ≤ x → 0 ≤ libm.powf x a
  le_one : ∀ {x a}, 0 ≤ x → x ≤ 1 → 0 ≤ a → libm.powf x a ≤ 1

variable [IsStrictOrderedRing R] {m : LockManager R} {a b : R} {es : List R}

-- An account that falls out half way would also be out at the end.
theorem decay_decay (hl : libm.Exponential) (hm : Counts m) (hr₀ : 0 ≤ m.decayRate)
    (hr₁ : m.decayRate ≤ 1) (ha : 0 ≤ a) (hb : 0 ≤ b) :
    (m.decay libm a).decay libm b = m.decay libm (a + b) := by
  have hx : 0 ≤ 1 - m.decayRate := sub_nonneg.mpr hr₁
  have hx₁ : 1 - m.decayRate ≤ 1 := sub_le_self _ hr₀
  have hf : libm.powf (1 - m.decayRate) ((a + b) / 1000) =
      libm.powf (1 - m.decayRate) (a / 1000) * libm.powf (1 - m.decayRate) (b / 1000) := by
    rw [add_div, hl.add hx (by positivity) (by positivity)]
  have hq : ((m.decay libm a).decay libm b).queueDepths = (m.decay libm (a + b)).queueDepths := by
    refine Finmap.ext_lookup fun addr => ?_
    simp only [LockManager.decay, Finmap.lookup_filterMapValues, hf]
    cases hd : m.queueDepths.lookup addr
    case none => rfl
    case some depth =>
      have hd₀ := hm addr depth hd
      have hk : 0 ≤ depth * libm.powf (1 - m.decayRate) (a / 1000) := mul_nonneg hd₀ <| hl.nonneg hx
      have hb' : 0 ≤ b / 1000 := by positivity
      have hle := mul_le_of_le_one_right hk <| hl.le_one hx hx₁ hb'
      rw [mul_assoc] at hle
      simp only [Option.bind_some]
      by_cases hc : 1 / 100 < depth * libm.powf (1 - m.decayRate) (a / 1000)
      case pos => simp only [if_pos hc, Option.bind_some, mul_assoc]
      case neg => rw [if_neg hc, if_neg fun h => hc <| h.trans_le hle, Option.bind_none]
  rw [LockManager.decay, LockManager.decay, LockManager.decay] at hq ⊢
  exact congrArg (fun d => (⟨m.accountLocks, d, m.decayRate⟩ : LockManager R)) hq

theorem foldl_decay (hl : libm.Exponential) (hm : Counts m) (hr₀ : 0 ≤ m.decayRate)
    (hr₁ : m.decayRate ≤ 1) (hs : ∀ x ∈ es, 0 ≤ x) (ha : 0 ≤ a) :
    (a :: es).foldl (LockManager.decay libm) m = m.decay libm (a :: es).sum := by
  induction es generalizing a
  case nil => simp
  case cons b es ih =>
    have hb := hs b <| .head es
    have h := ih (fun x hx => hs x <| .tail b hx) (add_nonneg ha hb)
    rw [List.foldl_cons, List.sum_cons, List.sum_cons, ← add_assoc, ← List.sum_cons, ← h,
      List.foldl_cons, List.foldl_cons, decay_decay hl hm hr₀ hr₁ ha hb]

end Decay

-- What there is a price for.
inductive Resource
  | cu
  | lock
  | time
  | space

variable {R : Type} [Field R] [LinearOrder R]

namespace ResourcePrices

def of (p : ResourcePrices R) : Resource → EWMA R
  | .cu    => p.cu
  | .lock  => p.lock
  | .time  => p.time
  | .space => p.space

theorem Bounded.of {p : ResourcePrices R} {r : Resource} (h : p.Bounded) : (p.of r).Bounded := by
  cases r
  case cu    => exact h.cu
  case lock  => exact h.lock
  case time  => exact h.time
  case space => exact h.space

end ResourcePrices

variable [FloorSemiring R]

-- The capacity for locks that `process_tick` assumes.
def lockCapacity : Nat := 100

-- What a tick shows of the use of a resource.
def observation (e : AuctionEngine R) (t : Tick R) : Resource → R
  | .cu    => ResourcePrices.utilization t.stats.cuDemand t.remainingCu
  | .lock  => ResourcePrices.utilization t.stats.lockDemand lockCapacity
  | .time  => ResourcePrices.utilization (e.elapsedMs t.now) t.msRemaining
  | .space => clamp minPrice maxPrice t.stats.fragmentation

def observations (libm : Libm R) (r : Resource) : AuctionEngine R → List (Tick R) → List R
  | _, []         => []
  | e, t :: ticks => e.observation t r :: observations libm r (tick libm e t) ticks

variable {libm : Libm R} {e : AuctionEngine R} {r : Resource} {ticks : List (Tick R)} {t : Tick R}

theorem length_observations : (observations libm r e ticks).length = ticks.length := by
  induction ticks generalizing e
  case nil             => rfl
  case cons t ticks ih => exact congrArg (· + 1) ih

theorem of_tick : (tick libm e t).prices.of r = (e.prices.of r).update (e.observation t r) := by
  cases r <;> rfl

-- A price is the smoothed use of its resource.
theorem of_ticks : ((ticks.foldl (tick libm) e).prices.of r).value =
    (observations libm r e ticks).foldl (smooth (e.prices.of r).alpha) (e.prices.of r).value := by
  induction ticks generalizing e
  case nil => rfl
  case cons t ticks ih =>
    rw [List.foldl_cons, ih, of_tick, observations, List.foldl_cons]
    rfl

theorem decayRate_of_reachable (h : Reachable libm e) : e.lockManager.decayRate = 1 / 10 := by
  induction h
  case new                   => rfl
  case processTick ih        => exact ih
  case updateBasePrices ih   => exact ih
  case releaseLocks ih       => exact (decayRate_foldl fun _ _ => decayRate_releaseOne).trans ih
  case queueTransaction ih   => exact decayRate_queue.trans ih
  case dequeueTransaction ih => exact (decayRate_foldl fun _ _ => decayRate_dequeueOne).trans ih
  case acquireLocks ih =>
    rw [acquireLocks]
    split_ifs
    case pos => exact decayRate_acquire.trans ih
    case neg => exact ih

variable [IsStrictOrderedRing R] {lo hi : R}

-- While the use of a resource stays between two bounds, its price goes there: what it lies outside
-- shrinks by `1 - alpha` with every tick.
theorem prices_track (h : Reachable libm e)
    (hx : ∀ x ∈ observations libm r e ticks, lo ≤ x ∧ x ≤ hi) :
    let price := (ticks.foldl (tick libm) e).prices.of r
    let before := e.prices.of r
    (1 - before.alpha) ^ ticks.length * (before.value - lo) ≤ price.value - lo ∧
      price.value - hi ≤ (1 - before.alpha) ^ ticks.length * (before.value - hi) := by
  intro price before
  have ha := (h.bounded.prices.of (r := r)).alpha
  have hn : (observations libm r e ticks).length = ticks.length := length_observations
  rw [← hn, show price.value = _ from of_ticks]
  exact ⟨le_foldl ha.left ha.right fun x hm => (hx x hm).left,
    foldl_le ha.left ha.right fun x hm => (hx x hm).right⟩

-- The demand for compute units is what is left in the block, twice.
theorem prices_track_full :
    let ticks := [Sample.tickAt 0, Sample.tickAt 1500000]
    let price := (ticks.foldl (tick Sample.flat) (.new .default)).prices.of .cu
    let before := (new (.default : AuctionEngineConfig ℚ)).prices.of .cu
    (1 - before.alpha) ^ ticks.length * (before.value - 1) ≤ price.value - 1 ∧
      price.value - 1 ≤ (1 - before.alpha) ^ ticks.length * (before.value - 1) := by
  have hx : ∀ x ∈ observations Sample.flat .cu (.new .default)
      [Sample.tickAt 0, Sample.tickAt 1500000], 1 ≤ x ∧ x ≤ 1 := by
    decide +kernel
  exact prices_track .new hx

theorem decayedMs_nonneg {x : R} (hx : x ∈ decayedMs libm e ticks) : 0 ≤ x := by
  induction ticks generalizing e
  case nil => exact nomatch hx
  case cons t ticks ih =>
    rcases List.mem_cons.mp hx with rfl | hx
    case inr => exact ih hx
    case inl =>
      unfold elapsedMs
      split
      case h_1 => exact zero_le_one
      case h_2 => exact Nat.cast_nonneg _

-- However many ticks there are, the queue depths decay as they would in a single one of the same time.
theorem decays_at_once (hl : libm.Exponential) (h : Reachable libm e) (hn : ticks ≠ []) :
    (ticks.foldl (tick libm) e).lockManager =
      e.lockManager.decay libm (decayedMs libm e ticks).sum := by
  have hd : ∀ x ∈ decayedMs libm e ticks, 0 ≤ x := fun x => decayedMs_nonneg
  have hr := decayRate_of_reachable h
  rw [lockManager_ticks]
  cases ticks
  case nil => exact absurd rfl hn
  case cons t ticks =>
    exact foldl_decay hl h.bounded.depths (by rw [hr]; norm_num) (by rw [hr]; norm_num)
      (fun x hx => hd x <| .tail _ hx) <| hd _ <| .head _

noncomputable def Sample.exact : Libm ℝ :=
  ⟨Real.log, fun x a => x ^ a⟩

theorem Sample.exponential_exact : Sample.exact.Exponential where
  add    := Real.rpow_add_of_nonneg
  nonneg := fun hx => Real.rpow_nonneg hx _
  le_one := fun hx hx₁ ha => Real.rpow_le_one hx hx₁ ha

-- A tick at `now` in a slot of which `msRemaining` are left.
noncomputable def Sample.realTick (now : Nat) (msRemaining : ℝ) : Tick ℝ :=
  ⟨now, ⟨0, 0, 0, 0⟩, 0, msRemaining⟩

-- With one transaction queued.
noncomputable def Sample.queued : AuctionEngine ℝ :=
  (new .default).queueTransaction [(7, true)]

theorem Sample.reachable_queued : Reachable Sample.exact Sample.queued :=
  .queueTransaction .new

theorem decays_at_once_two :
    ([Sample.realTick 0 400, Sample.realTick 5000000 395].foldl (tick Sample.exact)
      Sample.queued).lockManager =
    Sample.queued.lockManager.decay Sample.exact (decayedMs Sample.exact Sample.queued
      [Sample.realTick 0 400, Sample.realTick 5000000 395]).sum :=
  decays_at_once Sample.exponential_exact Sample.reachable_queued (by simp)

end AuctionEngine
