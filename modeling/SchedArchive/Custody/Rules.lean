import SchedArchive.Custody.Invariant

-- The rule by which the handlers are verified: an invariant that every move keeps is kept by every
-- handler, as each of them is a sequence of moves.

open Except Ledger

namespace Scheduler

variable {L : Type}

-- `I` may speak of the lock state. It has to be strong enough to exclude, up to `F`, the faults with
-- which locks are taken and released.
structure Kept (P : LockPolicy L) (E : Env) (t : Terms L) (F : Fault → Prop)
    (I : Ledger L → Multiset TransactionKey → Prop) : Prop where
  custody     : ∀ {l h}, I l h → l.Custody E h
  move        : ∀ {l h l' h'}, Move P E t l h l' h' → I l h → I l' h'
  benign      : ∀ f : Fault, ¬f.IsCustody → ¬f.IsLock → F f
  compiled    : ∀ payer ixs, t.brings (TipProgram.newSignedWithPayer payer ixs)
  unlocks     : ∀ {l h r}, I l h → r ∈ l.inFlight → r.kind = .execute →
                  (P.unlock l.locks r.key (l.locksOf r.key)).Ensures (fun _ => True) F
  locksTips   : ∀ {l h init change}, I l (init ::ₘ change ::ₘ h) → t.tips →
                  P.tipsLockable l.locks (l.locksOf init) (l.locksOf change) = true →
                  (P.lock l.locks init (l.locksOf init)).Ensures
                    (fun locks => (P.lock locks change (l.locksOf change)).Ensures
                      (fun _ => True) F) F
  locksTx     : ∀ {l h id}, I l h → t.starts → id ∈ l.checkedTx →
                  P.canLock l.locks (l.locksOf id.key) = true →
                  (P.startTx l.locks id.key (l.locksOf id.key)).Ensures (fun _ => True) F
  locksBundle : ∀ {l h b}, I l h → t.starts → b ∈ l.bundles → l.grantsAll P b.keys →
                  (P.startBundle l.locks (l.keyedLocks b.keys)).Ensures (fun _ => True) F

-- What an attempt to fill a worker comes to, before the batch is marked as executing.
inductive Attempt (P : LockPolicy L) (E : Env) (worker budget : Nat) (w : World L) :
    World L × Nat × List PriorityId → Prop
  | nothing : Attempt P E worker budget w (w, budget, [])
  | aborted {b locks} :
    b ∈ w.bundles → w.grantsAll P b.keys →
    P.startBundle w.locks (w.keyedLocks b.keys) = .ok (locks, false) →
    Attempt P E worker budget w ({ w with locks := locks }, budget, [])
  | transaction {id locks w'} :
    id ∈ w.checkedTx → id.cost ≤ budget → P.canLock w.locks (w.locksOf id.key) = true →
    P.startTx w.locks id.key (w.locksOf id.key) = .ok locks →
    w'.toLedger = { w.toLedger.send (transactionBatch w worker id) with
      checkedTx   := w.checkedTx.erase id
      inFlightCus := w.inFlightCus + id.cost
      locks       := locks
      units       := .transaction id.key :: w.units } →
    Attempt P E worker budget w (w', budget - id.cost, [id])
  | bundle {b locks w'} :
    b ∈ w.bundles → b.cost ≤ budget → w.grantsAll P b.keys →
    P.startBundle w.locks (w.keyedLocks b.keys) = .ok (locks, true) →
    w'.toLedger = { w.toLedger.send (bundleBatch w worker b) with
      bundles     := w.bundles.erase b
      inFlightCus := w.inFlightCus + b.cost
      locks       := locks
      units       := .bundle b.keys :: w.units } →
    Attempt P E worker budget w (w', budget - b.cost, bundleIds b)

-- How such an attempt can fault.
inductive AttemptFault (P : LockPolicy L) (w : World L) : Fault → Prop
  | queueFull : AttemptFault P w .queueFull
  | transaction {id f} :
    id ∈ w.checkedTx → P.canLock w.locks (w.locksOf id.key) = true →
    P.startTx w.locks id.key (w.locksOf id.key) = .error f → AttemptFault P w f
  | bundle {b f} :
    b ∈ w.bundles → w.grantsAll P b.keys →
    P.startBundle w.locks (w.keyedLocks b.keys) = .error f → AttemptFault P w f

-- What the shared handlers rely on in a scheduler.
structure Lawful (S : Scheduler L) : Prop where
  priority : ∀ E w tx, (S.calculatePriority E w tx).Ensures
               (fun x => ∀ p ∈ x, p.1 < bundleMarker) (· = .overflow)
  bundled  : ∀ E w tx, (S.bundledTx E w tx).Ensures (fun _ => True) (· = .overflow)
  recheck  : ∀ checked executing n cursor id next,
               S.popRecheck checked executing n cursor = some (some id, next) → id ∈ checked
  attempt  : ∀ E worker budget w, w.inFlightCus + budget ≤ maxBlockUnits →
               (S.tryBest E worker budget w).Ensures
                 (Attempt S.toLockPolicy E worker budget w) (AttemptFault S.toLockPolicy w)

-- The operations on locks fault only in the lock table.
structure LockFaults (P : LockPolicy L) : Prop where
  lock        : ∀ s k x, (P.lock s k x).Ensures (fun _ => True) Fault.IsLock
  unlock      : ∀ s k x, (P.unlock s k x).Ensures (fun _ => True) Fault.IsLock
  startTx     : ∀ s k x, (P.startTx s k x).Ensures (fun _ => True) Fault.IsLock
  startBundle : ∀ s txs, (P.startBundle s txs).Ensures (fun _ => True) Fault.IsLock

variable {S : Scheduler L} {E : Env} {t : Terms L} {F : Fault → Prop}
variable {I : Ledger L → Multiset TransactionKey → Prop} {w : World L}
variable {h : Multiset TransactionKey} {keys : List TransactionKey} {id : PriorityId}

theorem not_custody_of_lock {f : Fault} (hf : f.IsLock) : ¬f.IsCustody := by
  revert hf
  cases f <;> decide

-- If all that is wanted is that no assert on the containers fails, locks do not matter.
theorem LockFaults.kept {P : LockPolicy L} (lf : LockFaults P)
    (hc : ∀ {l h}, I l h → l.Custody E h) (hm : ∀ {l h l' h'}, Move P E t l h l' h' → I l h → I l' h')
    (hb : ∀ payer ixs, t.brings (TipProgram.newSignedWithPayer payer ixs)) :
    Kept P E t (¬·.IsCustody) I where
  custody             := hc
  move                := hm
  benign _ hf _       := hf
  compiled            := hb
  unlocks _ _ _       := (lf.unlock ..).mono (fun _ => id) fun _ => not_custody_of_lock
  locksTips _ _ _     := (lf.lock ..).mono
    (fun _ _ => (lf.lock ..).mono (fun _ => id) fun _ => not_custody_of_lock)
    fun _ => not_custody_of_lock
  locksTx _ _ _ _     := (lf.startTx ..).mono (fun _ => id) fun _ => not_custody_of_lock
  locksBundle _ _ _ _ := (lf.startBundle ..).mono (fun _ => id) fun _ => not_custody_of_lock

namespace Kept

variable (K : Kept S.toLockPolicy E t F I)

include K

theorem overflow : F .overflow :=
  K.benign _ (by decide) (by decide)

theorem of_overflow {f : Fault} (hf : f = .overflow) : F f :=
  hf ▸ K.overflow

theorem of_queueFull {f : Fault} (hf : f = .queueFull) : F f :=
  hf ▸ K.benign _ (by decide) (by decide)

theorem owned {l : Ledger L} (hi : I l h) : l.Owned E h :=
  (K.custody hi).owned

theorem dropAll {l : Ledger L} (hi : I l (↑keys + h)) : I (l.dropAll keys) h := by
  induction keys generalizing l
  case nil => simpa [Ledger.dropAll] using hi
  case cons k ks ih =>
    refine ih (l := l.dropTransaction k) ?_
    rw [← Multiset.cons_coe, Multiset.cons_add] at hi
    exact K.move .drop hi

end Kept

end Scheduler
