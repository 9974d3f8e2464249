import SchedArchive.Theorems.Execute

-- Whether `AuctionBatchScheduler` sends the best there is, and what is left of an attempt that failed.

open Except Ledger Scheduler

namespace AuctionBatchScheduler

variable {E : Env} {w : World Engine} {worker budget : Nat} {b : BundleId}

-- A bundle for which `try_schedule_bundle` does not even start to acquire locks.
def Blocked (w : World Engine) (budget : Nat) (b : BundleId) : Prop :=
  budget < b.cost ∨ ∃ k ∈ b.keys, ¬canLock w.locks (w.locksOf k)

instance (w : World Engine) (budget : Nat) (b : BundleId) : Decidable (Blocked w budget b) :=
  inferInstanceAs <| Decidable (_ ∨ _)

theorem tryScheduleBundle_blocked (E : Env) (worker : Nat) {b : BundleId} (hb : Blocked w budget b) :
    tryScheduleBundle E worker budget w b = .ok (w, budget, []) := by
  unfold tryScheduleBundle
  split_ifs with hf hl
  case pos => rfl
  case pos => rfl
  case neg =>
    rcases hb with hc | ⟨k, hk, hn⟩
    · exact absurd hc hf
    · exact absurd (by simpa using hl) fun h : ∀ k ∈ b.keys, canLock w.locks (w.locksOf k) = true =>
        hn <| h k hk

-- Nothing that an attempt to send a bundle works on has changed.
structure Unchanged (w : World Engine) (budget : Nat) (x : World Engine × Nat × List PriorityId) :
    Prop where
  accountLocks : x.1.locks.lockManager.accountLocks = w.locks.lockManager.accountLocks
  queueDepths  : x.1.locks.lockManager.queueDepths = w.locks.lockManager.queueDepths
  bundles      : x.1.bundles = w.bundles
  checkedTx    : x.1.checkedTx = w.checkedTx
  inFlightCus  : x.1.inFlightCus = w.inFlightCus
  budget       : x.2.1 = budget
  batch        : x.2.2 = []

-- An attempt that sends nothing leaves everything as it was exactly if it did not start to take
-- locks: the bundle is over the budget, or one of its transactions is blocked by held locks.
theorem failed_bundle_unchanged {x : World Engine × Nat × List PriorityId}
    (hx : tryScheduleBundle E worker budget w b = .ok x) (hn : x.1.sent = w.sent) :
    Unchanged w budget x ↔ Blocked w budget b := by
  constructor
  case mpr =>
    intro hb
    cases (tryScheduleBundle_blocked E worker hb).symm.trans hx
    constructor <;> rfl
  case mp =>
    intro hu
    by_contra hb
    simp only [Blocked, not_or, not_exists, not_and, not_not] at hb
    obtain ⟨hc, hl⟩ := hb
    rw [tryScheduleBundle, if_neg hc, if_neg (by simpa using hl)] at hx
    split at hx
    case h_1 engine he =>
      cases hx
      have hl : ∀ tx ∈ w.keyedLocks b.keys, canLock w.locks tx.2 = true := by
        simpa [keyedLocks] using hl
      obtain ⟨a, ha⟩ := acquireBundle_grows hl .refl he
      refine ha.ne ?_
      rw [depth, depth, ← hu.queueDepths]
    case h_2 engine he =>
      obtain ⟨w', hw, hx⟩ := bind_eq_ok.mp hx
      obtain ⟨cus, _, hx⟩ := bind_eq_ok.mp hx
      cases hx
      have hs := congrArg (·.sent) <| World.ensures_schedule.of_ok hw
      exact List.cons_ne_self _ _ <| hs.symm.trans hn

-- A bundle of two transactions that both write to account 10.
def entangled : List Event :=
  Sample.poll false 1 [] [] [.bundle [some <| Sample.tx [(10, true), (11, true)] 999 1000,
    some <| Sample.tx [(10, true), (12, true)] 999 1000]]

theorem failed_bundle_unchanged_over_budget :
    ∃ w b x, Sample.auction.Reachable Sample.env initialEngine w ∧ w.bundles.last = some b ∧
      tryScheduleBundle Sample.env 2 1000 w b = .ok x ∧ Unchanged w 1000 x := by
  have ⟨w, hr, b, hm, hl, hb⟩ :
      ∃ w, Sample.auction.Reachable Sample.env initialEngine w ∧
        ∃ b ∈ w.bundles, w.bundles.last = some b ∧ Blocked w 1000 b :=
    Sample.exists_reach entangled (by decide +kernel)
  have hx := tryScheduleBundle_blocked Sample.env 2 hb
  exact ⟨w, b, _, hr, hl, hx, (failed_bundle_unchanged hx rfl).mpr hb⟩

-- Within the budget, the first transaction is locked and queued before the second one fails.
theorem failed_bundle_stays_queued :
    ∃ w b x, Sample.auction.Reachable Sample.env initialEngine w ∧ w.bundles.last = some b ∧
      tryScheduleBundle Sample.env 2 2000 w b = .ok x ∧ x.1.sent = w.sent ∧
      ¬Unchanged w 2000 x := by
  have ⟨w, hr, b, hm, hl, hx⟩ :
      ∃ w, Sample.auction.Reachable Sample.env initialEngine w ∧
        ∃ b ∈ w.bundles, w.bundles.last = some b ∧
        (tryScheduleBundle Sample.env 2 2000 w b).Ensures (fun x => x.1.sent = w.sent ∧
          x.1.locks.lockManager.queueDepths ≠ w.locks.lockManager.queueDepths) (fun _ => False) :=
    Sample.exists_reach entangled (by decide +kernel)
  have ⟨x, hx, hs, hd⟩ := hx.exists_ok
  exact ⟨w, b, x, hr, hl, hx, hs, fun hu => hd hu.queueDepths⟩

-- What is sent to an idle worker is the best there is: no transaction while a better bundle could be
-- sent, and no bundle while a transaction at least as good could be.
structure NoInversion (w : World Engine) (worker budget : Nat)
    (x : Except Fault (World Engine × Nat × List PriorityId)) : Prop where
  transaction : ∀ tx, Sent w (transactionBatch w worker tx) x → ∀ b ∈ w.bundles.last,
                  BundleFits w budget b → b.priority ≤ tx.priority
  bundle      : ∀ b ∈ w.bundles.last, Sent w (bundleBatch w worker b) x →
                  ∀ tx, Schedulable w budget tx → tx.priority < b.priority

theorem le_found {tx tx' : PriorityId} (hs : findTransaction budget w = some tx)
    (ht : Schedulable w budget tx') : tx' ≤ tx :=
  (Finset.findLast_eq_some_iff.mp hs).right tx' ht.left <| by simpa using ht.right

-- An attempt at a bundle sends no transaction.
theorem not_sent_transaction {tx : PriorityId} :
    ¬Sent w (transactionBatch w worker tx) (tryScheduleBundle E worker budget w b) := by
  intro hs
  cases hx : tryScheduleBundle E worker budget w b
  case error f =>
    rw [hx] at hs
    exact hs
  case ok x =>
    rw [hx] at hs
    rcases ensures_bundle.of_ok hx with he | he
    · exact not_sent_ok he hs
    · have hb := List.head_eq_of_cons_eq <| he.symm.trans hs
      simp [transactionBatch, bundleBatch] at hb

theorem NoInversion.of_bundle (hl : w.bundles.last = some b)
    (ht : ∀ tx, Schedulable w budget tx → tx.priority < b.priority) :
    NoInversion w worker budget (tryScheduleBundle E worker budget w b) where
  transaction _ hs := absurd hs not_sent_transaction
  bundle b' hb' _  := by
    cases hl.symm.trans hb'
    exact ht

theorem NoInversion.of_found {tx : PriorityId} {x : World Engine × Nat × List PriorityId}
    (he : x.1.sent = transactionBatch w worker tx :: w.sent) :
    NoInversion w worker budget (.ok x) ↔
      ∀ b ∈ w.bundles.last, BundleFits w budget b → b.priority ≤ tx.priority := by
  constructor
  case mp => exact fun hn => hn.transaction tx he
  case mpr =>
    intro hp
    constructor
    case transaction =>
      intro tx' hs'
      have hb := List.head_eq_of_cons_eq <| he.symm.trans hs'
      simp only [transactionBatch, ScheduleBatch.mk.injEq, List.cons.injEq, Request.mk.injEq] at hb
      exact hb.right.left.left.left ▸ hp
    case bundle =>
      intro b _ hs'
      have hb := List.head_eq_of_cons_eq <| he.symm.trans hs'
      simp [transactionBatch, bundleBatch] at hb

-- There is no inversion exactly if the transaction that is found out of order does not stand in for
-- a better one: where the best transaction is at least as good as a bundle that could be sent, but
-- cannot be sent itself, another one as good as the bundle can, or none can.
theorem no_priority_inversion (hq : w.queued worker = 0)
    (hb : w.inFlightCus + budget ≤ maxBlockUnits) :
    NoInversion w worker budget (tryBest E worker budget w) ↔
      ∀ top b, w.checkedTx.last = some top → w.bundles.last = some b → b.priority ≤ top.priority →
        BundleFits w budget b → ∀ tx, Schedulable w budget tx →
        ∃ tx', Schedulable w budget tx' ∧ b.priority ≤ tx'.priority := by
  unfold tryBest
  split
  case h_1 top b hl hm =>
    split
    case isTrue hp =>
      cases hs : findTransaction budget w
      case none =>
        have hn : ∀ tx, ¬Schedulable w budget tx := fun tx ht => by
          obtain ⟨tx', hs'⟩ := exists_found ht
          cases hs.symm.trans hs'
        have ht : tryScheduleTransaction E worker budget w = .ok (w, budget, []) := by
          rw [tryScheduleTransaction, hs]
        rw [ht]
        exact iff_of_true (.of_bundle hm fun tx ht => absurd ht <| hn tx)
          fun _ _ _ _ _ _ tx ht => absurd ht <| hn tx
      case some tx =>
        obtain ⟨⟨w', budget', batch⟩, hx, hne, he⟩ := (ensures_found (E := E) hs hq hb).exists_ok
        rw [hx]
        change NoInversion w worker budget (if batch = [] then _ else _) ↔ _
        rw [if_neg hne]
        refine (NoInversion.of_found he).trans ⟨?_, ?_⟩
        · intro hi top' b' hl' hm' _ hf _ _
          exact ⟨tx, findTransaction_eq_some hs, hi b' hm' hf⟩
        · intro hc b' hm' hf
          cases hm.symm.trans hm'
          obtain ⟨tx', ht, hp'⟩ := hc top b hl hm hp hf tx <| findTransaction_eq_some hs
          exact hp'.trans <| PriorityId.priority_le <| le_found hs ht
    case isFalse hp =>
      refine iff_of_true (.of_bundle hm fun tx ht => ?_) fun top' b' hl' hm' hp' => ?_
      · have hle := PriorityId.priority_le <| (Finset.last_eq_some_iff.mp hl).right tx ht.left
        exact hle.trans_lt <| not_le.mp hp
      · cases hl.symm.trans hl'
        cases hm.symm.trans hm'
        exact absurd hp' hp
  case h_2 hm =>
    refine iff_of_true ⟨fun _ _ b hm' => ?_, fun b hm' => ?_⟩ fun _ _ _ hm' => ?_
    all_goals cases hm.symm.trans hm'
  case h_3 b hl hm =>
    refine iff_of_true (.of_bundle hm fun tx ht => ?_) fun _ _ hl' => by cases hl.symm.trans hl'
    exact absurd ht.left <| Finset.last_eq_none_iff.mp hl ▸ Finset.notMem_empty tx
  case h_4 hl hm =>
    refine iff_of_true ⟨fun _ hs => absurd hs <| not_sent_ok rfl, fun _ hm' => ?_⟩ fun _ _ _ hm' => ?_
    all_goals cases hm.symm.trans hm'

-- Two checked transactions and a bundle. The bundle's priority is between theirs.
def ranked (cost : Nat) (id : PriorityId) : List Event :=
  Sample.poll false 1 [] [Sample.tx [(10, true)] cost 2000000, Sample.tx [(11, true)] 999 1000]
    [.tipConfig ⟨20, 21⟩, .bundle [some <| Sample.tx [(12, true)] 999 2]] ++
  [.checkSlotRoll (some <| Sample.progress true 1 0), .workerResponse ⟨id, .firstCheck⟩ Sample.passed,
    .workerResponse ⟨⟨999549374, 999, 1⟩, .firstCheck⟩ Sample.passed]

theorem no_priority_inversion_in_order :
    ∃ w, Sample.auction.Reachable Sample.env initialEngine w ∧ w.bundles ≠ ∅ ∧
      NoInversion w 2 12000000 (tryBest Sample.env 2 12000000 w) := by
  have ⟨w, hr, hn, hq, hb, top, hc, hl, ht, hp⟩ :
      ∃ w, Sample.auction.Reachable Sample.env initialEngine w ∧ w.bundles ≠ ∅ ∧ w.queued 2 = 0 ∧
        w.inFlightCus + 12000000 ≤ maxBlockUnits ∧ ∃ top ∈ w.checkedTx,
        w.checkedTx.last = some top ∧ Schedulable w 12000000 top ∧
        ∀ b ∈ w.bundles, b.priority ≤ top.priority :=
    Sample.exists_reach (ranked 11000000 ⟨1999988550373, 11000000, 0⟩) (by decide +kernel)
  refine ⟨w, hr, hn, (no_priority_inversion hq hb).mpr fun top' b hl' hm _ _ _ _ => ?_⟩
  exact ⟨top, ht, hp b <| Finset.last_mem hm⟩

-- The better transaction does not fit the budget. The other one is sent, and not the bundle.
theorem priority_inversion :
    ∃ w, Sample.auction.Reachable Sample.env initialEngine w ∧ w.queued 2 = 0 ∧
      w.inFlightCus + 12000000 ≤ maxBlockUnits ∧
      ¬NoInversion w 2 12000000 (tryBest Sample.env 2 12000000 w) := by
  have ⟨w, hr, hq, hb, hs, b, hm, hl, hf, hp⟩ :
      ∃ w, Sample.auction.Reachable Sample.env initialEngine w ∧ w.queued 2 = 0 ∧
        w.inFlightCus + 12000000 ≤ maxBlockUnits ∧
        Sent w (transactionBatch w 2 ⟨999549374, 999, 1⟩) (tryBest Sample.env 2 12000000 w) ∧
        ∃ b ∈ w.bundles, w.bundles.last = some b ∧ BundleFits w 12000000 b ∧ 999549374 < b.priority :=
    Sample.exists_reach (ranked 13000000 ⟨1999986550373, 13000000, 0⟩) (by decide +kernel)
  exact ⟨w, hr, hq, hb, fun hn => absurd (hn.transaction _ hs b hl hf) <| not_le.mpr hp⟩

-- The transaction `tx` is picked and sent, and all there is to it is recorded.
structure Picks (w : World Engine) (worker budget : Nat) (tx : PriorityId)
    (x : World Engine × Nat × List PriorityId) : Prop where
  schedulable : Schedulable w budget tx
  greatest    : ∀ tx', Schedulable w budget tx' → tx' ≤ tx
  batch       : x.2.2 = [tx]
  sent        : x.1.sent = transactionBatch w worker tx :: w.sent
  checkedTx   : x.1.checkedTx = w.checkedTx.erase tx
  locked      : ∀ a v, (a, v) ∈ w.locksOf tx.key →
                  x.1.locks.lockManager.accountLocks.lookup a =
                    some (((w.locks.lockManager.accountLocks.lookup a).getD ∅).insert tx.key v)
  others      : ∀ a, a ∉ (w.locksOf tx.key).map Prod.fst →
                  x.1.locks.lockManager.accountLocks.lookup a =
                    w.locks.lockManager.accountLocks.lookup a
  budget      : x.2.1 + tx.cost = budget
  inFlightCus : x.1.inFlightCus = w.inFlightCus + tx.cost

theorem picks_of_found {tx : PriorityId} {x : World Engine × Nat × List PriorityId}
    (hs : findTransaction budget w = some tx) (hn : ((w.locksOf tx.key).map Prod.fst).Nodup)
    (hw : x.1.toLedger = started w worker tx) (hx : x.2 = (budget - tx.cost, [tx])) :
    Picks w worker budget tx x := by
  obtain ⟨hc, hf, hg⟩ := findTransaction_eq_some hs
  constructor
  case schedulable => exact ⟨hc, hf, hg⟩
  case greatest => exact fun tx' => le_found hs
  case batch => rw [hx]
  case sent => rw [hw]; rfl
  case checkedTx => rw [hw]; rfl
  case locked =>
    intro a v hm
    rw [hw, started, accountLocks_startTx hg, lookup_acquire_of_nodup hn hm]
  case others =>
    intro a ha
    rw [hw, started, accountLocks_startTx hg, lookup_acquire_of_not_mem ha]
  case budget =>
    rw [hx]
    exact Nat.sub_add_cancel hf
  case inFlightCus => rw [hw]; rfl

-- The greatest transaction that fits the budget and can be locked is sent, and only if there is none
-- nothing is sent. `schedule_execute` sees to it that the queue has room and that the counter of
-- compute units does not overflow.
theorem tryScheduleTransaction_picks_greatest (hq : w.queued worker < E.queueCapacity)
    (hb : w.inFlightCus + budget ≤ u64Max)
    (hn : ∀ tx ∈ w.checkedTx, ((w.locksOf tx.key).map Prod.fst).Nodup) :
    ((∃ tx, Schedulable w budget tx) →
      ∃ tx x, tryScheduleTransaction E worker budget w = .ok x ∧ Picks w worker budget tx x) ∧
    ((¬∃ tx, Schedulable w budget tx) →
      tryScheduleTransaction E worker budget w = .ok (w, budget, [])) := by
  constructor
  case left =>
    rintro ⟨tx', ht⟩
    obtain ⟨tx, hs⟩ := exists_found ht
    obtain ⟨x, hx, hw, hr⟩ := (ensures_started hs hb fun h => h hq).exists_ok
    exact ⟨tx, x, hx, picks_of_found hs (hn tx (findTransaction_eq_some hs).left) hw hr⟩
  case right =>
    intro ht
    have hs : findTransaction budget w = none := by
      refine Option.eq_none_iff_forall_ne_some.mpr fun tx hs => ht ⟨tx, ?_⟩
      exact findTransaction_eq_some hs
    rw [tryScheduleTransaction, hs]

-- Two checked transactions, the better of which costs more.
def costly : World Engine :=
  { Sample.world initialEngine with
    data      := fun _ => Sample.tx [(10, true)] 100 1000
    checkedTx := {⟨5, 100, 0⟩, ⟨7, 5000, 1⟩} }

theorem tryScheduleTransaction_picks_affordable :
    ∃ tx x, tryScheduleTransaction Sample.env 1 1000 costly = .ok x ∧ Picks costly 1 1000 tx x := by
  have hq : costly.queued 1 < Sample.env.queueCapacity := by decide
  have hp :=
    tryScheduleTransaction_picks_greatest hq (show costly.inFlightCus + 1000 ≤ u64Max by decide)
    (by decide)
  exact hp.left ⟨⟨5, 100, 0⟩, by decide⟩

end AuctionBatchScheduler
