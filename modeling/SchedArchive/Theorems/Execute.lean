import SchedArchive.Batch.Locks
import SchedArchive.Auction.Attempts
import SchedArchive.Theorems.Custody

-- What `schedule_execute` sends to an idle worker, and when it sends nothing.

open Except Ledger LockTable Scheduler

namespace Scheduler

variable {L : Type} {E : Env} {w : World L} {batch : ScheduleBatch}

-- An attempt to fill a worker returns, and it sent the batch.
def Sent (w : World L) (batch : ScheduleBatch)
    (x : Except Fault (World L × Nat × List PriorityId)) : Prop :=
  x.Ensures (·.1.sent = batch :: w.sent) (fun _ => False)

instance (x : Except Fault (World L × Nat × List PriorityId)) : Decidable (Sent w batch x) :=
  inferInstanceAs <| Decidable (x.Ensures _ _)

theorem not_sent_ok {x : World L × Nat × List PriorityId} (hx : x.1.sent = w.sent) :
    ¬Sent w batch (.ok x) := by
  intro hs
  exact List.cons_ne_self _ _ <| hs.symm.trans hx

theorem schedule_idle {E : Env} (hq : w.queued batch.worker = 0) :
    (w.schedule E batch).Ensures (·.toLedger = w.toLedger.send batch) (fun _ => False) := by
  rw [World.schedule_eq_ok <| hq ▸ E.queueCapacity_pos]
  rfl

theorem add_inFlightCus {budget cost : Nat} (hb : w.inFlightCus + budget ≤ maxBlockUnits)
    (hc : cost ≤ budget) : Machine.add E.overflowChecks w.inFlightCus cost =
      .ok (w.inFlightCus + cost) := by
  refine Machine.add_eq_ok ?_
  unfold u64Max
  unfold maxBlockUnits at hb
  omega

end Scheduler

namespace BatchScheduler

variable {E : Env} {w : World InFlightLocks} {g : Holders TransactionKey Pubkey}
variable {worker budget : Nat} {b : BundleId}

theorem sent_bundle_iff (h : Exact w.locks g) (hq : w.queued worker = 0)
    (hb : w.inFlightCus + budget ≤ maxBlockUnits) (hn : b.keys.Nodup)
    (hk : ∀ k ∈ b.keys, (w.locksOf k).Nodup ∧ ∀ l, k ∉ g l) :
    Sent w (bundleBatch w worker b) (tryScheduleBundle E worker budget w b) ↔
      b.cost ≤ budget ∧ ∀ k ∈ b.keys, Grants g (w.locksOf k) := by
  simp only [← h.canLock_iff]
  unfold tryScheduleBundle
  split_ifs with hf hl
  case pos => exact iff_of_false (not_sent_ok rfl) fun hc => absurd hc.left <| by omega
  case pos =>
    refine iff_of_false (not_sent_ok rfl) fun hc => ?_
    simp [List.all_eq_true.mpr hc.right] at hl
  case neg =>
    refine iff_of_true ?_ ⟨by omega, by simpa using hl⟩
    have hx : ∀ tx ∈ w.keyedLocks b.keys, tx.2.Nodup ∧ ∀ l, tx.1 ∉ g l := by
      simpa [keyedLocks] using hk
    rw [Sent, ensures_bind]
    refine (h.lockAll hx (by simpa [keyedLocks, Function.comp_def] using hn)).imp fun locks _ => ?_
    rw [ensures_bind]
    refine Ensures.imp (schedule_idle hq) fun w' hw => ?_
    have hcus : w'.inFlightCus = w.inFlightCus := by rw [hw]; rfl
    rw [hcus, add_inFlightCus hb (by omega), hw]
    rfl

end BatchScheduler

namespace AuctionBatchScheduler

variable {E : Env} {w : World Engine} {g : Holders TransactionKey Pubkey} {worker budget : Nat}
variable {b : BundleId}

-- A bundle that can be sent: it fits the budget and can be locked.
def BundleFits (w : World Engine) (budget : Nat) (b : BundleId) : Prop :=
  b.cost ≤ budget ∧ InTurn w.locks (w.keyedLocks b.keys)

instance (w : World Engine) (budget : Nat) (b : BundleId) : Decidable (BundleFits w budget b) :=
  inferInstanceAs <| Decidable (_ ∧ _)

theorem sent_bundle_iff_fits (hq : w.queued worker = 0)
    (hb : w.inFlightCus + budget ≤ maxBlockUnits) :
    Sent w (bundleBatch w worker b) (tryScheduleBundle E worker budget w b) ↔
      BundleFits w budget b := by
  rw [BundleFits, ← acquireBundle_iff_inTurn (w.keyedLocks b.keys)]
  unfold tryScheduleBundle
  split_ifs with hf hl
  case pos => exact iff_of_false (not_sent_ok rfl) fun hc => absurd hc.left <| by omega
  case pos =>
    refine iff_of_false (not_sent_ok rfl) fun hc => ?_
    have hg := ((acquireBundle_iff_inTurn _).mp hc.right).canLock
    simp only [keyedLocks, List.forall_mem_map] at hg
    simp [List.all_eq_true.mpr hg] at hl
  case neg =>
    split
    case h_1 engine he =>
      refine iff_of_false (not_sent_ok rfl) fun hc => ?_
      simp [he] at hc
    case h_2 engine he =>
      refine iff_of_true ?_ ⟨by omega, by rw [he]⟩
      rw [Sent, ensures_bind]
      refine Ensures.imp (schedule_idle hq) fun w' hw => ?_
      have hcus : w'.inFlightCus = w.inFlightCus := by rw [hw]; rfl
      rw [hcus, add_inFlightCus hb (by omega)]
      change w'.sent = _
      rw [hw]
      rfl

-- If the lock manager records who holds what, this is a matter of conflicts.
theorem sent_bundle_iff (h : Records w.locks.lockManager g) (hq : w.queued worker = 0)
    (hb : w.inFlightCus + budget ≤ maxBlockUnits) (hn : b.keys.Nodup)
    (hk : ∀ k ∈ b.keys, ((w.locksOf k).map Prod.fst).Nodup ∧ ∀ l, k ∉ g l) :
    Sent w (bundleBatch w worker b) (tryScheduleBundle E worker budget w b) ↔
      b.cost ≤ budget ∧ (∀ k ∈ b.keys, Grants g (w.locksOf k)) ∧
        b.keys.Pairwise fun k k' => ¬Conflict (w.locksOf k') (w.locksOf k) := by
  have hx : ∀ tx ∈ w.keyedLocks b.keys, (tx.2.map Prod.fst).Nodup ∧ ∀ l, tx.1 ∉ g l := by
    simpa [keyedLocks] using hk
  have ha := Records.acquireBundle_iff [] h (fun tx ht => (hx tx ht).right)
    (fun tx ht => (hx tx ht).left) (by simpa [keyedLocks, Function.comp_def] using hn)
  rw [List.nil_append, acquireBundle_iff_inTurn] at ha
  simp only [List.forall_mem_map, List.pairwise_map, addAll] at ha
  rw [sent_bundle_iff_fits hq hb, BundleFits, ← ha]
  rfl

end AuctionBatchScheduler

-- Both schedulers find the same bundle in front of an idle worker, while the transactions in
-- `executing` hold their locks.
structure Facing (worker budget : Nat) (b : BundleId) (executing : Finset TransactionKey)
    (locks : TransactionKey → List Lock) (w : World BatchScheduler.InFlightLocks)
    (w' : World AuctionBatchScheduler.Engine) : Prop where
  table  : BatchScheduler.Exact w.locks (held executing locks)
  table' : AuctionBatchScheduler.Records w'.locks.lockManager (held executing locks)
  asks   : ∀ k ∈ b.keys, w.locksOf k = locks k
  asks'  : ∀ k ∈ b.keys, w'.locksOf k = locks k
  idle   : w.queued worker = 0
  idle'  : w'.queued worker = 0
  room   : w.inFlightCus + budget ≤ maxBlockUnits
  room'  : w'.inFlightCus + budget ≤ maxBlockUnits
  keys   : b.keys.Nodup
  fresh  : ∀ k ∈ b.keys, k ∉ executing
  listed : ∀ k ∈ b.keys, ((locks k).map Prod.fst).Nodup

section Bundles

variable {E : Env} {worker budget : Nat} {b : BundleId} {executing : Finset TransactionKey}
variable {locks : TransactionKey → List Lock} {w : World BatchScheduler.InFlightLocks}
variable {w' : World AuctionBatchScheduler.Engine}

-- `BatchScheduler` sends a bundle if it fits the budget and conflicts with no one else.
theorem Facing.sent_batch (f : Facing worker budget b executing locks w w') :
    Sent w (bundleBatch w worker b) (BatchScheduler.tryScheduleBundle E worker budget w b) ↔
      b.cost ≤ budget ∧ ∀ k ∈ b.keys, ∀ k' ∈ executing, ¬Conflict (locks k) (locks k') := by
  have hk : ∀ k ∈ b.keys, (w.locksOf k).Nodup ∧ ∀ l, k ∉ held executing locks l := by
    intro k hk
    rw [f.asks k hk]
    exact ⟨(f.listed k hk).of_map _, fun l hm => f.fresh k hk (mem_held.mp hm).left⟩
  rw [BatchScheduler.sent_bundle_iff f.table f.idle f.room f.keys hk]
  refine and_congr_right fun _ => forall₂_congr fun k hk => ?_
  rw [f.asks k hk, grants_held]

-- `AuctionBatchScheduler` does so if moreover its transactions do not conflict with each other.
theorem Facing.sent_auction (f : Facing worker budget b executing locks w w') :
    Sent w' (bundleBatch w' worker b)
        (AuctionBatchScheduler.tryScheduleBundle E worker budget w' b) ↔
      b.cost ≤ budget ∧ (∀ k ∈ b.keys, ∀ k' ∈ executing, ¬Conflict (locks k) (locks k')) ∧
        b.keys.Pairwise fun k k' => ¬Conflict (locks k) (locks k') := by
  have hk : ∀ k ∈ b.keys, ((w'.locksOf k).map Prod.fst).Nodup ∧
      ∀ l, k ∉ held executing locks l := by
    intro k hk
    rw [f.asks' k hk]
    exact ⟨f.listed k hk, fun l hm => f.fresh k hk (mem_held.mp hm).left⟩
  rw [AuctionBatchScheduler.sent_bundle_iff f.table' f.idle' f.room' f.keys hk]
  refine and_congr_right fun _ => and_congr (forall₂_congr fun k hk => ?_) ?_
  · rw [f.asks' k hk, grants_held]
  · refine List.Pairwise.iff_of_mem fun {k k'} hk hk' => not_congr ?_
    rw [f.asks' k hk, f.asks' k' hk']
    exact ⟨Conflict.symm, Conflict.symm⟩

-- The two schedulers agree on a bundle exactly if its own transactions do not conflict with each
-- other, or it cannot be sent anyway.
theorem bundle_agreement (f : Facing worker budget b executing locks w w') :
    ((Sent w' (bundleBatch w' worker b)
        (AuctionBatchScheduler.tryScheduleBundle E worker budget w' b) ↔
      Sent w (bundleBatch w worker b) (BatchScheduler.tryScheduleBundle E worker budget w b)) ∧
    (Sent w (bundleBatch w worker b) (BatchScheduler.tryScheduleBundle E worker budget w b) ↔
      b.cost ≤ budget ∧ ∀ k ∈ b.keys, ∀ k' ∈ executing, ¬Conflict (locks k) (locks k'))) ↔
    (b.cost ≤ budget → (∀ k ∈ b.keys, ∀ k' ∈ executing, ¬Conflict (locks k) (locks k')) →
      b.keys.Pairwise fun k k' => ¬Conflict (locks k) (locks k')) := by
  rw [f.sent_auction, f.sent_batch]
  tauto

end Bundles

namespace Sample

-- A bundle of two transactions, and nothing else.
def pair : BundleId :=
  ⟨1000000, 200, 0, [0, 1]⟩

def pairWorld {L : Type} (payer : TransactionKey → Pubkey) (locks : L) : World L :=
  { world locks with
    data    := fun k => tx [(payer k, true), (20 + BitVec.ofNat 256 k, true)] 100 1000
    bundles := {pair} }

theorem facing_pair (payer : TransactionKey → Pubkey)
    (hl : ∀ k ∈ pair.keys, (((pairWorld payer ()).locksOf k).map Prod.fst).Nodup) :
    Facing 1 1000 pair ∅ (pairWorld payer ()).locksOf (pairWorld payer ∅)
      (pairWorld payer AuctionBatchScheduler.initialEngine) where
  table  := (held_empty (pairWorld payer ()).locksOf) ▸ BatchScheduler.exact_empty
  table' := (held_empty (pairWorld payer ()).locksOf) ▸ AuctionBatchScheduler.records_new
  asks   := fun _ _ => rfl
  asks'  := fun _ _ => rfl
  idle   := rfl
  idle'  := rfl
  room   := show 0 + 1000 ≤ maxBlockUnits by decide
  room'  := show 0 + 1000 ≤ maxBlockUnits by decide
  keys   := by decide
  fresh  := by decide
  listed := hl

end Sample

theorem bundle_agreement_two_payers :
    ∃ w w', Facing 1 1000 Sample.pair ∅ (Sample.pairWorld (BitVec.ofNat 256) ()).locksOf w w' ∧
      (Sent w' (bundleBatch w' 1 Sample.pair)
        (AuctionBatchScheduler.tryScheduleBundle Sample.env 1 1000 w' Sample.pair) ↔
      Sent w (bundleBatch w 1 Sample.pair)
        (BatchScheduler.tryScheduleBundle Sample.env 1 1000 w Sample.pair)) := by
  have f := Sample.facing_pair (BitVec.ofNat 256) (by decide +kernel)
  exact ⟨_, _, f, ((bundle_agreement f).mpr fun _ _ => by decide +kernel).left⟩

-- With one payer for both transactions, `BatchScheduler` sends the bundle and
-- `AuctionBatchScheduler` does not.
theorem bundle_disagreement_shared_payer :
    ∃ w w', Facing 1 1000 Sample.pair ∅ (Sample.pairWorld (fun _ => 10) ()).locksOf w w' ∧
      Sent w (bundleBatch w 1 Sample.pair)
        (BatchScheduler.tryScheduleBundle Sample.env 1 1000 w Sample.pair) ∧
      ¬Sent w' (bundleBatch w' 1 Sample.pair)
        (AuctionBatchScheduler.tryScheduleBundle Sample.env 1 1000 w' Sample.pair) :=
  ⟨_, _, Sample.facing_pair _ (by decide +kernel), by decide +kernel, by decide +kernel⟩

namespace Scheduler

section Rounds

variable {L : Type}

-- The rounds of the worker loop of `schedule_execute`: the workers and the budget that are left, and
-- the state the loop is in.
inductive Round (S : Scheduler L) (E : Env) (w₀ : World L) : List Nat → Nat → World L → Prop
  | start {budget} :
    fillBudget E w₀ = .ok budget → Round S E w₀ (executeWorkers E) budget w₀
  | busy {worker rest budget w} :
    Round S E w₀ (worker :: rest) budget w → budget ≠ 0 → w.queued worker ≠ 0 →
    Round S E w₀ rest budget w
  | filled {worker rest budget w w₁ budget₁ batch w₂} :
    Round S E w₀ (worker :: rest) budget w → budget ≠ 0 → w.queued worker = 0 →
    S.tryBest E worker budget w = .ok (w₁, budget₁, batch) → batch ≠ [] →
    batch.foldlM markExecuting w₁ = .ok w₂ →
    Round S E w₀ rest budget₁
      (w₂.count fun s => { s with executeRequested := s.executeRequested + batch.length })

variable {S : Scheduler L} {E : Env} {t : Terms L} {F : Fault → Prop}
variable {I : Ledger L → Multiset TransactionKey → Prop} {w₀ w : World L} {workers : List Nat}
variable {budget : Nat}

-- From any round on, the loop does what is left of the whole call.
theorem Round.scheduleExecute_eq (hw : S.Round E w₀ workers budget w) :
    S.scheduleExecute E w₀ = S.scheduleWorkers E workers budget w := by
  induction hw
  case start hf => rw [scheduleExecute, hf]; rfl
  case busy hb hq ih => rw [ih, scheduleWorkers, if_neg hb, if_pos hq]
  case filled hb hq ht hn hm ih =>
    rw [ih, scheduleWorkers, if_neg hb, if_neg (not_not.mpr hq), ht]
    change (if _ then _ else _) = _
    rw [if_neg hn, hm]
    rfl

theorem Kept.round (K : Kept S.toLockPolicy E t F I) (law : S.Lawful) (hs : t.starts)
    (hi : I w₀.toLedger 0) (hw : S.Round E w₀ workers budget w) :
    I w.toLedger 0 ∧ w.inFlightCus + budget ≤ maxBlockUnits := by
  induction hw
  case start hf => exact ⟨hi, (ensures_fillBudget (K.custody hi).metered).of_ok hf⟩
  case busy ih => exact ih
  case filled ht _ hm ih =>
    have ha := (law.attempt _ _ _ _ ih.right).of_ok ht
    have hk := (K.attempt ih.left hs ih.right ha).of_ok hm
    exact hk

end Rounds

end Scheduler

namespace AuctionBatchScheduler

variable {E : Env} {w w₀ : World Engine} {worker budget : Nat} {b : BundleId}
variable {libm : AuctionEngine.Libm ℚ} {minScore : Nat} {rest : List Nat}

-- Something is sent to the worker.
def Fills (w : World Engine) (worker : Nat) (x : Except Fault (World Engine × Nat × List PriorityId)) :
    Prop :=
  ∃ batch, batch.worker = worker ∧ Sent w batch x

-- A transaction that can be sent to the worker.
def Schedulable (w : World Engine) (budget : Nat) (tx : PriorityId) : Prop :=
  tx ∈ w.checkedTx ∧ tx.cost ≤ budget ∧ canLock w.locks (w.locksOf tx.key)

instance (w : World Engine) (budget : Nat) (tx : PriorityId) : Decidable (Schedulable w budget tx) :=
  inferInstanceAs <| Decidable (_ ∧ _ ∧ _)

-- The transaction that was found is sent.
theorem ensures_found {tx : PriorityId} (hs : findTransaction budget w = some tx)
    (hq : w.queued worker = 0) (hb : w.inFlightCus + budget ≤ maxBlockUnits) :
    (tryScheduleTransaction E worker budget w).Ensures (fun x =>
      x.2.2 ≠ [] ∧ x.1.sent = transactionBatch w worker tx :: w.sent) (fun _ => False) := by
  have hi : w.queued worker < E.queueCapacity := hq ▸ E.queueCapacity_pos
  refine (ensures_started hs (hb.trans (by decide)) fun hn => hn hi).imp fun x hx => ?_
  rw [hx.left, hx.right]
  exact ⟨List.cons_ne_nil _ _, rfl⟩

theorem exists_found {tx : PriorityId} (ht : Schedulable w budget tx) :
    ∃ tx', findTransaction budget w = some tx' := by
  refine Option.ne_none_iff_exists'.mp fun hn => ?_
  exact Finset.findLast_eq_none_iff.mp hn tx ht.left <| by simpa using ht.right

theorem ensures_bundle : (tryScheduleBundle E worker budget w b).Ensures (fun x =>
    x.1.sent = w.sent ∨ x.1.sent = bundleBatch w worker b :: w.sent) (fun _ => True) := by
  unfold tryScheduleBundle
  split_ifs
  case pos => exact .inl rfl
  case pos => exact .inl rfl
  case neg =>
    split
    case h_1 => exact .inl rfl
    case h_2 =>
      simp only [ensures_bind]
      refine World.ensures_schedule.mono (fun w' hw => ?_) fun _ _ => trivial
      refine (Machine.ensures_add fun _ => trivial).imp fun cus _ => .inr ?_
      rw [hw]
      rfl

theorem fills_bundle_iff :
    Fills w worker (tryScheduleBundle E worker budget w b) ↔
      Sent w (bundleBatch w worker b) (tryScheduleBundle E worker budget w b) := by
  constructor
  case mpr => exact fun hs => ⟨_, rfl, hs⟩
  case mp  =>
    intro ⟨batch, _, hs⟩
    rcases hx : tryScheduleBundle E worker budget w b with f | x
    · rw [hx] at hs
      exact hs.elim
    · rw [hx] at hs
      exact (ensures_bundle.of_ok hx).resolve_left fun he => not_sent_ok he hs

-- Suppose some checked transaction could be sent. Then something is sent, unless the best bundle has
-- a higher priority than every transaction and cannot be sent itself.
theorem fills_tryBest {tx : PriorityId} (hq : w.queued worker = 0)
    (hb : w.inFlightCus + budget ≤ maxBlockUnits)
    (ht : Schedulable w budget tx) :
    Fills w worker (tryBest E worker budget w) ↔ ∀ tx b, w.checkedTx.last = some tx →
      w.bundles.last = some b → tx.priority < b.priority → BundleFits w budget b := by
  have ⟨tx', hs⟩ := exists_found ht
  have hn : w.checkedTx.last ≠ none := fun hn =>
    Finset.notMem_empty tx <| Finset.last_eq_none_iff.mp hn ▸ ht.left
  have ⟨⟨w', budget', batch⟩, hx, hne, he⟩ := (ensures_found (E := E) hs hq hb).exists_ok
  have hs : Fills w worker (.ok (w', budget', batch)) := ⟨transactionBatch w worker tx', rfl, he⟩
  unfold tryBest
  split
  case h_1 tx' b hl hm =>
    split
    case isTrue hp =>
      refine iff_of_true ?_ fun tx b hl' hm' hp' => ?_
      case refine_1 =>
        rw [hx]
        change Fills w worker (if batch = [] then _ else _)
        rw [if_neg hne]
        exact hs
      case refine_2 =>
        cases hl.symm.trans hl'
        cases hm.symm.trans hm'
        omega
    case isFalse hp =>
      rw [fills_bundle_iff, sent_bundle_iff_fits hq hb]
      constructor
      case mp =>
        intro hf tx b hl' hm' _
        cases hm.symm.trans hm'
        exact hf
      case mpr => exact fun hc => hc tx' b hl hm (by omega)
  case h_2 hm =>
    rw [hx]
    refine iff_of_true hs fun _ _ _ hm' => ?_
    exact nomatch hm.symm.trans hm'
  case h_3 hl _ => exact absurd hl hn
  case h_4 hl _ => exact absurd hl hn

-- The worker loop is work-conserving exactly as long as the best bundle does not stand in the way:
-- with a higher priority than every transaction, it has to be one that can be sent.
theorem work_conserving {tx : PriorityId}
    (hr : (scheduler libm minScore).Reachable E initialEngine w₀)
    (hw : (scheduler libm minScore).Round E w₀ (worker :: rest) budget w)
    (hq : w.queued worker = 0) (ht : Schedulable w budget tx) :
    Fills w worker (tryBest E worker budget w) ↔ ∀ tx b, w.checkedTx.last = some tx →
      w.bundles.last = some b → tx.priority < b.priority → BundleFits w budget b := by
  have ⟨_, hb⟩ := Kept.round (S := scheduler libm minScore) (kept_vetted lockFaults) lawful trivial
    (Known.vetted (.auction libm minScore) hr) hw
  exact fills_tryBest hq hb ht

-- The second worker is reached after the first, which has the two tips to do.
theorem round_second {w : World Engine} (hb : fillBudget Sample.env w = .ok 12000000)
    (hq : w.queued 1 ≠ 0) : Sample.auction.Round Sample.env w [2] 12000000 w :=
  .busy (.start hb) (by decide) hq

theorem work_conserving_without_bundles :
    ∃ w, Sample.auction.Reachable Sample.env initialEngine w ∧
      Sample.auction.Round Sample.env w [2] 12000000 w ∧
      Fills w 2 (tryBest Sample.env 2 12000000 w) := by
  have ⟨w, hr, hb, hq, hq', ht, hn⟩ :
      ∃ w, Sample.auction.Reachable Sample.env initialEngine w ∧
        fillBudget Sample.env w = .ok 12000000 ∧ w.queued 1 ≠ 0 ∧ w.queued 2 = 0 ∧
        Schedulable w 12000000 ⟨999399374, 999, 0⟩ ∧ w.bundles.last = none :=
    Sample.exists_reach
      (Sample.poll false 1 [] [Sample.tx [(10, true), (11, true)] 999 1000] [.tipConfig ⟨20, 21⟩] ++
        [.checkSlotRoll (some <| Sample.progress true 1 0),
          .workerResponse ⟨⟨999399374, 999, 0⟩, .firstCheck⟩ Sample.passed])
      (by decide +kernel)
  refine ⟨w, hr, round_second hb hq, ?_⟩
  refine (work_conserving hr (round_second hb hq) hq' ht).mpr fun _ _ _ hm => ?_
  exact nomatch hn.symm.trans hm

-- A bundle that pays more than the only transaction does not fit the budget. The transaction does,
-- and still nothing is sent to the idle worker.
theorem not_work_conserving :
    ∃ w tx, Sample.auction.Reachable Sample.env initialEngine w ∧
      Sample.auction.Round Sample.env w [2] 12000000 w ∧ w.queued 2 = 0 ∧
      Schedulable w 12000000 tx ∧ ¬Fills w 2 (tryBest Sample.env 2 12000000 w) := by
  have ⟨w, hr, hb, hq, hq', ht, hs⟩ :
      ∃ w, Sample.auction.Reachable Sample.env initialEngine w ∧
        fillBudget Sample.env w = .ok 12000000 ∧ w.queued 1 ≠ 0 ∧ w.queued 2 = 0 ∧
        Schedulable w 12000000 ⟨999399374, 999, 0⟩ ∧
        (tryBest Sample.env 2 12000000 w).Ensures (·.1.sent = w.sent) (fun _ => False) :=
    Sample.exists_reach
      (Sample.poll false 1 [] [Sample.tx [(10, true), (11, true)] 999 1000]
          [.tipConfig ⟨20, 21⟩, .bundle [some <| Sample.tx [(12, true)] 13000000 2000000]] ++
        [.checkSlotRoll (some <| Sample.progress true 1 0),
          .workerResponse ⟨⟨999399374, 999, 0⟩, .firstCheck⟩ Sample.passed])
      (by decide +kernel)
  refine ⟨w, _, hr, round_second hb hq, hq', ht, fun ⟨batch, _, hf⟩ => ?_⟩
  have ⟨x, hx, he⟩ := hs.exists_ok
  rw [hx] at hf
  exact not_sent_ok he hf

end AuctionBatchScheduler
