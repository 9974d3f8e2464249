import SchedArchive.Custody.Frame
import SchedArchive.Batch.Scheduler

-- What the shared handlers rely on holds of `BatchScheduler`.

namespace BatchScheduler

open Except Scheduler World

variable {E : Env} {w : World InFlightLocks} {worker budget : Nat} {tx : PriorityId}
variable {bundle : BundleId}

theorem ensures_calculatePriority {F : Fault → Prop} (hf : E.overflowChecks → F .overflow)
    (w : World InFlightLocks) (tx : Tx) :
    (calculatePriority E w tx).Ensures (fun x => ∀ p ∈ x, p.1 < bundleMarker) F := by
  rw [calculatePriority, ensures_bind]
  refine (Tx.ensures_calculateCostAndReward hf).imp ?_
  rintro (_ | ⟨cost, reward⟩) _
  case none => simp
  case some =>
    rintro _ ⟨⟩
    exact lt_of_le_of_lt (min_le_right ..) (by decide)

theorem ensures_bundledTx {F : Fault → Prop} (hf : E.overflowChecks → F .overflow)
    (w : World InFlightLocks) (tx : Tx) :
    (bundledTx E w tx).Ensures (fun x => ∀ p ∈ x, p.1 = tx.totalCost) F := by
  rw [bundledTx, ensures_bind]
  refine (Tx.ensures_calculateCostAndReward hf).imp ?_
  rintro (_ | ⟨cost, reward⟩) hc
  case none => simp
  case some =>
    simp only [ensures_bind]
    refine (TipProgram.ensures_extractTip hf).imp fun _ _ => (Machine.ensures_add hf).imp fun _ _ => ?_
    simpa using hc

-- Only transactions in `checked_tx` are rechecked.
theorem mem_of_popRecheck {checked : Finset PriorityId} {executing : Finset TransactionKey} {n : Nat}
    {cursor next : Option PriorityId} {id : PriorityId}
    (h : popRecheck checked executing n cursor = some (some id, next)) : id ∈ checked := by
  induction n generalizing cursor
  case zero => simp [popRecheck] at h
  case succ n ih =>
    cases cursor
    case none => simp [popRecheck] at h
    case some curr =>
      rw [popRecheck] at h
      split at h
      case isTrue  => exact ih h
      case isFalse hn =>
        simp only [Option.some.injEq, Prod.mk.injEq] at h
        by_contra hc
        exact hn <| .inl <| h.left ▸ hc

theorem attempt_transaction (hb : w.inFlightCus + budget ≤ maxBlockUnits) (hc : tx ∈ w.checkedTx) :
    (tryScheduleTransaction E worker budget w tx).Ensures
      (Attempt lockPolicy E worker budget w) (AttemptFault lockPolicy w) := by
  unfold tryScheduleTransaction
  split_ifs with hf hl
  case pos => exact .nothing
  case pos => exact .nothing
  case neg =>
    have hg : canLock w.locks (w.locksOf tx.key) = true := by simpa using hl
    rw [ensures_bind]
    cases hs : lock w.locks tx.key (w.locksOf tx.key)
    case error f => exact .transaction hc hg hs
    case ok locks =>
      rw [ensures_ok, ensures_bind]
      refine ensures_schedule.mono (fun w' hw => ?_) fun f hf => hf ▸ .queueFull
      have hcus : w'.inFlightCus = w.inFlightCus := by rw [hw]; rfl
      rw [hcus, Machine.add_eq_ok (by unfold u64Max; unfold maxBlockUnits at hb; omega)]
      refine .transaction hc (by omega) hg hs ?_
      rw [hw]
      rfl

theorem attempt_bundle (hb : w.inFlightCus + budget ≤ maxBlockUnits) (hm : bundle ∈ w.bundles) :
    (tryScheduleBundle E worker budget w bundle).Ensures
      (Attempt lockPolicy E worker budget w) (AttemptFault lockPolicy w) := by
  unfold tryScheduleBundle
  split_ifs with hf hl
  case pos => exact .nothing
  case pos => exact .nothing
  case neg =>
    have hg : ∀ key ∈ bundle.keys, canLock w.locks (w.locksOf key) = true := by simpa using hl
    rw [ensures_bind]
    cases hs : lockAll w.locks (w.keyedLocks bundle.keys)
    case error f =>
      refine .bundle hm hg ?_
      change _ <$> lockAll w.locks (w.keyedLocks bundle.keys) = _
      rw [hs]
      rfl
    case ok locks =>
      rw [ensures_ok, ensures_bind]
      refine ensures_schedule.mono (fun w' hw => ?_) fun f hf => hf ▸ .queueFull
      have hcus : w'.inFlightCus = w.inFlightCus := by rw [hw]; rfl
      rw [hcus, Machine.add_eq_ok (by unfold u64Max; unfold maxBlockUnits at hb; omega)]
      have hl : lockPolicy.startBundle w.locks (w.keyedLocks bundle.keys) = .ok (locks, true) := by
        change _ <$> lockAll w.locks (w.keyedLocks bundle.keys) = _
        rw [hs]
        rfl
      refine .bundle hm (by omega) hg hl ?_
      rw [hw]
      rfl

theorem attempt_tryBest (hb : w.inFlightCus + budget ≤ maxBlockUnits) :
    (tryBest E worker budget w).Ensures
      (Attempt lockPolicy E worker budget w) (AttemptFault lockPolicy w) := by
  unfold tryBest
  split
  case h_1 tx bundle ht hm =>
    split
    case isTrue  => exact attempt_transaction hb <| Finset.last_mem ht
    case isFalse => exact attempt_bundle hb <| Finset.last_mem hm
  case h_2 ht _ => exact attempt_transaction hb <| Finset.last_mem ht
  case h_3 _ hm => exact attempt_bundle hb <| Finset.last_mem hm
  case h_4      => exact .nothing

theorem lawful : scheduler.Lawful where
  priority _ w tx     := ensures_calculatePriority (F := (· = .overflow)) (fun _ => rfl) w tx
  bundled _ w tx      :=
    .imp (ensures_bundledTx (F := (· = .overflow)) (fun _ => rfl) w tx) fun _ _ => trivial
  recheck _ _ _ _ _ _ := mem_of_popRecheck
  attempt _ _ _ _     := attempt_tryBest

-- The lock table itself can only fault with its own panics.

theorem ensures_lock (s : InFlightLocks) (k : TransactionKey) (x : List Lock) :
    (lock s k x).Ensures (fun _ => True) Fault.IsLock := by
  refine ensures_foldlM (fun s l _ _ => ?_) trivial
  obtain ⟨a, _ | _⟩ := l <;> simp [lockOne, AccountLockers.insert, Fault.IsLock]

theorem ensures_unlock (s : InFlightLocks) (k : TransactionKey) (x : List Lock) :
    (unlock s k x).Ensures (fun _ => True) Fault.IsLock := by
  refine ensures_foldlM (fun s l _ _ => ?_) trivial
  obtain ⟨a, v⟩ := l
  unfold unlockOne
  dsimp only
  split
  case h_1 => simp [Fault.IsLock]
  case h_2 => cases v <;> simp [AccountLockers.remove, Fault.IsLock]

theorem lockFaults : LockFaults lockPolicy where
  lock              := ensures_lock
  unlock            := ensures_unlock
  startTx           := ensures_lock
  startBundle s txs := by
    rw [lockPolicy, ensures_map]
    exact ensures_foldlM (fun s tx _ _ => ensures_lock s tx.1 tx.2) trivial

-- An attempt to fill a worker concerns no other worker.

theorem visits_tryScheduleTransaction :
    (tryScheduleTransaction E worker budget w tx).Ensures (Visits worker w ·.1) (fun _ => True) := by
  unfold tryScheduleTransaction
  split_ifs
  case pos => exact .refl
  case pos => exact .refl
  case neg =>
    simp only [ensures_bind]
    refine ensures_of_forall fun locks => visits_schedule.imp fun w₁ h₁ => ?_
    exact ensures_of_forall fun _ => ⟨h₁.settings, h₁.queued⟩

theorem visits_tryScheduleBundle :
    (tryScheduleBundle E worker budget w bundle).Ensures (Visits worker w ·.1) (fun _ => True) := by
  unfold tryScheduleBundle
  split_ifs
  case pos => exact .refl
  case pos => exact .refl
  case neg =>
    simp only [ensures_bind]
    refine ensures_of_forall fun locks => visits_schedule.imp fun w₁ h₁ => ?_
    exact ensures_of_forall fun _ => ⟨h₁.settings, h₁.queued⟩

theorem visits_tryBest :
    (tryBest E worker budget w).Ensures (Visits worker w ·.1) (fun _ => True) := by
  unfold tryBest
  split
  case h_1 =>
    split
    case isTrue  => exact visits_tryScheduleTransaction
    case isFalse => exact visits_tryScheduleBundle
  case h_2 => exact visits_tryScheduleTransaction
  case h_3 => exact visits_tryScheduleBundle
  case h_4 => exact .refl

end BatchScheduler
