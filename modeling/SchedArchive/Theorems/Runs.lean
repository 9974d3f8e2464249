import SchedArchive.Custody.Run
import SchedArchive.Batch.Laws
import SchedArchive.Auction.Laws

-- Runs of the two schedulers.

open Except Ledger

namespace Scheduler

-- The schedulers with the lock states they start from.
inductive Known : {L : Type} → Scheduler L → L → Prop
  | batch : Known BatchScheduler.scheduler ∅
  | auction (libm : AuctionEngine.Libm ℚ) (minScore : Nat) :
    Known (AuctionBatchScheduler.scheduler libm minScore) AuctionBatchScheduler.initialEngine

abbrev Reachable {L : Type} (S : Scheduler L) (E : Env) (locks : L) : World L → Prop :=
  S.Reach E locks fun _ _ => True

variable {L : Type} {S : Scheduler L} {E : Env} {locks : L} {w : World L} {e : Event}
variable {C : World L → Event → Prop}

-- No transaction that comes in lists a lock twice.
def LocksOnce (_ : World L) (e : Event) : Prop :=
  ∀ tx ∈ e.brought, tx.resolvedLocks.Nodup

-- No transaction that comes in lists an account twice.
def AccountsOnce (_ : World L) (e : Event) : Prop :=
  ∀ tx ∈ e.brought, (tx.resolvedLocks.map Prod.fst).Nodup

instance : Decidable (LocksOnce w e) :=
  inferInstanceAs <| Decidable (∀ tx ∈ e.brought, tx.resolvedLocks.Nodup)

instance : Decidable (AccountsOnce w e) :=
  inferInstanceAs <| Decidable (∀ tx ∈ e.brought, (tx.resolvedLocks.map Prod.fst).Nodup)

namespace Known

theorem lawful (hS : S.Known locks) : S.Lawful := by
  cases hS
  case batch   => exact BatchScheduler.lawful
  case auction => exact AuctionBatchScheduler.lawful

theorem lockFaults (hS : S.Known locks) : LockFaults S.toLockPolicy := by
  cases hS
  case batch   => exact BatchScheduler.lockFaults
  case auction => exact AuctionBatchScheduler.lockFaults

theorem visits_tryBest (hS : S.Known locks) (worker budget : Nat) (w : World L) :
    (S.tryBest E worker budget w).Ensures (Visits worker w ·.1) (fun _ => True) := by
  cases hS
  case batch   => exact BatchScheduler.visits_tryBest
  case auction => exact AuctionBatchScheduler.visits_tryBest

theorem settings_tryBest (hS : S.Known locks) (worker budget : Nat) (w : World L) :
    (S.tryBest E worker budget w).Ensures (·.1.settings = w.settings) (fun _ => True) :=
  (hS.visits_tryBest worker budget w).imp fun _ => Visits.settings

end Known

-- The settings after a step. Only three kinds of steps change any of them.
def settingsAfter (w : World L) : Event → Settings
  | .setRuntimeConfig update => (setRuntimeConfig w update).settings
  | .checkSlotRoll message   => { w.settings with
    progress       := observed w message
    slot           := (observed w message).currentSlot
    wasLeaderReady := decide (Activates w message) ||
                        (decide ((observed w message).currentSlot = w.slot) &&
                          w.slotStats.wasLeaderReady) }
  | .drainJito channel _     => { w.settings with
    tipConfig := latestTip w.tipConfig channel.messages }
  | _                        => w.settings

theorem Known.settings_step (hS : S.Known locks) :
    (S.step E w e).Ensures (·.settings = settingsAfter w e) (fun _ => True) := by
  cases e
  case clock | workerReads | setRuntimeConfig | updateBasePrices | processTick | restartRecheck => rfl
  case checkSlotRoll      => exact settings_checkSlotRoll
  case workerResponse     => exact settings_drainWorkerResponse
  case drainTpu           => exact spares_drainTpu.imp fun _ => Spares.settings
  case dropExpiredBundles => exact (spares_dropExpiredBundles (S := S)).settings
  case drainJito          => exact heeds_drainJito.imp fun _ => Heeds.settings
  case scheduleChecks     => exact (spares_scheduleChecks hS.lawful).imp fun _ => Spares.settings
  case scheduleExecute    => exact settings_scheduleExecute hS.settings_tryBest

theorem initial_newWithJito {args : RuntimeUpdate} {builderKey : Pubkey} {progress : ProgressMessage}
    {now : Nat} : Initial locks (newWithJito args builderKey progress now locks) := by
  constructor <;> rfl

theorem Reach.reachable (hr : S.Reach E locks C w) : S.Reachable E locks w := by
  induction hr
  case init h => exact .init h
  case step he _ hs hi => exact hi.step he trivial hs

theorem Reach.follow [∀ w e, Decidable (C w e)] {es : List Event} {w' : World L}
    (hr : S.Reach E locks C w) (hf : S.follow E C w es = some w') : S.Reach E locks C w' := by
  induction es generalizing w
  case nil =>
    cases hf
    exact hr
  case cons e es ih =>
    rw [Scheduler.follow] at hf
    split at hf
    case isFalse => exact nomatch hf
    case isTrue he =>
      split at hf
      case h_1 hs => exact ih (hr.step he.left he.right hs) hf
      case h_2 => exact nomatch hf

theorem exists_reach [∀ w e, Decidable (C w e)] {P : World L → Prop} [DecidablePred P]
    (es : List Event) (h₀ : Initial locks w) (hf : (S.follow E C w es).any (P ·) = true) :
    ∃ w', S.Reach E locks C w' ∧ P w' := by
  have ⟨w', hf, hp⟩ := Option.any_eq_true .. |>.mp hf
  exact ⟨w', (Reach.init h₀).follow hf, of_decide_eq_true hp⟩

theorem Reach.free (hr : S.Reach E locks (fun _ _ => True) w) (he : e.Enabled w) {w' : World L}
    (hs : S.step E w e = .ok w') : S.Reach E locks (fun _ _ => True) w' :=
  hr.step he trivial hs

theorem Reach.runs {w' : World L} (hr : S.Reach E locks C w) (hw : S.Runs E C w w') :
    S.Reach E locks C w' := by
  induction hw
  case refl               => exact hr
  case step he hc hs hi => exact hi.step he hc hs

theorem Reach.exists_runs (hr : S.Reach E locks C w) : ∃ w₀, Initial locks w₀ ∧ S.Runs E C w₀ w := by
  induction hr
  case init w₀ h₀         => exact ⟨w₀, h₀, .refl⟩
  case step he hc hs hi =>
    obtain ⟨w₀, h₀, hw⟩ := hi
    exact ⟨w₀, h₀, hw.step he hc hs⟩

theorem Runs.follow [∀ w e, Decidable (C w e)] {es : List Event} {w₁ w' : World L}
    (hr : S.Runs E C w w₁) (hf : S.follow E C w₁ es = some w') : S.Runs E C w w' := by
  induction es generalizing w₁
  case nil =>
    cases hf
    exact hr
  case cons e es ih =>
    rw [Scheduler.follow] at hf
    split at hf
    case isFalse => exact nomatch hf
    case isTrue he =>
      split at hf
      case h_1 hs => exact ih (hr.step he.left he.right hs) hf
      case h_2 => exact nomatch hf

theorem Reach.answers {answers : List (Request × WorkerAction)} {w' : World L}
    (hr : S.Reach E locks (fun _ _ => True) w) (ha : S.Promised E w answers)
    (hw : answers.foldlM (fun w (r, a) => S.drainWorkerResponse E w r a) w = .ok w') :
    S.Reach E locks (fun _ _ => True) w' := by
  induction answers generalizing w
  case nil =>
    cases hw
    exact hr
  case cons x answers ih =>
    obtain ⟨r, a⟩ := x
    rw [List.foldlM_cons] at hw
    have ⟨w₁, h₁, hw⟩ := bind_eq_ok.mp hw
    have hr := hr.free (e := .workerResponse r a) ha.left h₁
    exact ih hr (ha.right w₁ h₁) hw

-- Every call of `poll` is a chain of steps.
theorem Reach.poll {input : PollInput} {w' : World L} (hr : S.Reach E locks (fun _ _ => True) w)
    (ha : ∀ w₁, S.checkSlotRoll E w input.message = .ok w₁ → S.Promised E w₁ input.answers)
    (hp : S.poll E w input = .ok w') : S.Reach E locks (fun _ _ => True) w' := by
  have ⟨w₁, h₁, hp⟩ := bind_eq_ok.mp hp
  have ⟨w₂, h₂, hp⟩ := bind_eq_ok.mp hp
  have ⟨w₃, h₃, hp⟩ := bind_eq_ok.mp hp
  have ⟨w₄, h₄, hp⟩ := bind_eq_ok.mp hp
  have ⟨w₅, h₅, hp⟩ := bind_eq_ok.mp hp
  have hr := hr.free (e := .checkSlotRoll input.message) trivial h₁
  have hr := hr.answers (ha w₁ h₁) h₂
  have hr := hr.free (e := .processTick) trivial rfl
  have hr := hr.free (e := .drainTpu input.backlog _) trivial h₃
  have hr := hr.free (e := .dropExpiredBundles) trivial rfl
  have hr := hr.free (e := .drainJito input.channel input.cancelled) trivial h₄
  have hr := hr.free (e := .scheduleChecks input.checkReads) trivial h₅
  split at hp
  case isFalse =>
    cases hp
    exact hr
  case isTrue =>
    have ⟨w₆, h₆, hp⟩ := bind_eq_ok.mp hp
    cases hp
    exact (hr.free (e := .scheduleExecute) trivial h₆).free (e := .restartRecheck) trivial rfl

end Scheduler

-- A validator with two execute workers, for concrete runs.

namespace Sample

def env : Env where
  keyAt              := id
  keyAt_injective    := Function.injective_id
  overflowChecks     := true
  burnPercent        := 50
  workerCount        := 3
  queueCapacity      := 8
  queueCapacity_pos  := by decide
  events             := true
  keypair            := 1
  tip                := ⟨2, 3, 500⟩
  findProgramAddress := fun voteAccount epoch => voteAccount + 1000 + BitVec.ofNat 256 epoch
  configuredFilter   := ∅

def args : RuntimeUpdate where
  uncheckedCapacity := 16
  checkedCapacity   := 16
  bundleCapacity    := 4
  runtime           := ⟨4, 20, 5000000000, 1000000000⟩

def progress (leaderReady : Bool) (slot : Nat) (percentage : UInt8) : ProgressMessage :=
  ⟨leaderReady, slot, maxBlockUnits, percentage⟩

def world {L : Type} (locks : L) : World L :=
  Scheduler.newWithJito args 5 (progress false 0 0) 0 locks

-- The same with another capacity for checked transactions.
def narrow {L : Type} (checkedCapacity : Nat) (locks : L) : World L :=
  Scheduler.newWithJito { args with checkedCapacity := checkedCapacity } 5 (progress false 0 0) 0 locks

-- A transaction that pays `fee` for the use of `cost` compute units.
def tx (locks : List Lock) (cost fee : Nat) : Tx where
  staticAccountKeys := locks.map Prod.fst
  locks             := locks
  lookups           := []
  instructions      := []
  costs             := some ⟨0, fee, 200000, cost⟩

def passed : WorkerAction :=
  .check ⟨.done, .done, .done, .done⟩ none

-- The blockhash of the transaction is too old by now.
def expired : WorkerAction :=
  .check ⟨.done, ⟨true, true, true, false⟩, .done, .done⟩ none

-- One call of `poll`.
def poll (leaderReady : Bool) (slot : Nat) (answers : List (Request × WorkerAction))
    (backlog : List Tx) (messages : List JitoUpdate) : List Event :=
  let input : Scheduler.PollInput :=
    { message    := some <| progress leaderReady slot 0
      answers    := answers
      backlog    := backlog.map some
      channel    := ⟨messages, true⟩
      cancelled  := false
      checkReads := fun _ => 0 }
  input.events leaderReady

-- A transaction and a bundle that both write to account 10 come in. Once leader, the scheduler
-- takes over as tip receiver and sends the bundle.
def bundled (id : PriorityId) : List Event :=
  poll false 1 [] [tx [(10, true), (11, false)] 999 1000]
    [.tipConfig ⟨20, 21⟩, .bundle [some <| tx [(10, true), (12, true)] 999 2000]] ++
  poll true 1 [(⟨id, .firstCheck⟩, passed)] [] []

-- A transaction is still out for its first check when the scheduler takes over as tip receiver.
def tipped : List Event :=
  poll false 1 [] [tx [(10, true), (11, false)] 999 1000] [.tipConfig ⟨20, 21⟩] ++
  poll true 1 [] [] []

-- A transaction is checked before the scheduler is leader and then executed beside the tips.
def executed (id : PriorityId) : List Event :=
  poll false 1 [] [tx [(10, true), (11, false)] 999 1000] [.tipConfig ⟨20, 21⟩] ++
  poll false 1 [(⟨id, .firstCheck⟩, passed)] [] [] ++
  poll true 1 [] [] []

-- A transaction is checked and, in the next slot, out for a recheck.
def outForRecheck (id : PriorityId) : List Event :=
  poll false 1 [] [tx [(10, true), (11, false)] 999 1000] [.tipConfig ⟨20, 21⟩] ++
  poll false 1 [(⟨id, .firstCheck⟩, passed)] [] [] ++
  poll false 2 [] [] []

-- A transaction is checked, executed, and executed again after a lock conflict.
def retried (id : PriorityId) : List Event :=
  poll false 1 [] [tx [(10, true), (11, false)] 999 1000] [.tipConfig ⟨20, 21⟩] ++
  poll true 1 [(⟨id, .firstCheck⟩, .check ⟨.done, .done, .done, .done⟩ (some [11]))] [] [] ++
  [.workerReads 2] ++
  poll true 1 [(⟨id, .execute⟩, .execute ⟨1, .accountInUse⟩)] [] []

theorem exists_reach {L : Type} {S : Scheduler L} {locks : L} {C : World L → Event → Prop}
    [∀ w e, Decidable (C w e)] {P : World L → Prop} [DecidablePred P] (es : List Event)
    (hf : (S.follow env C (world locks) es).any (P ·) = true) :
    ∃ w, S.Reach env locks C w ∧ P w :=
  Scheduler.exists_reach es Scheduler.initial_newWithJito hf

-- Concrete runs only need `ln` at 1 and `powf` at the exponent 0.
def libm : AuctionEngine.Libm ℚ where
  ln _     := 0
  powf _ _ := 1

abbrev auction : Scheduler AuctionBatchScheduler.Engine :=
  AuctionBatchScheduler.scheduler libm 0

end Sample
