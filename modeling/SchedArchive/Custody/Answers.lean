import SchedArchive.Custody.Frame

-- What the answer to an execute request comes to, once its locks are released.

open Except Ledger

namespace Scheduler

variable {L : Type} (S : Scheduler L)

-- The callback of `bridge.drain_worker`, called with the answer to a request.
abbrev respond (E : Env) (w : World L) (r : Request) (a : WorkerAction) :
    Except Fault (World L × TxDecision) :=
  S.onResponse E { w with toLedger := w.toLedger.answer r a } r.id a

-- The callback, and what the bridge does on its decision.
def handleResponse (E : Env) (w : World L) (r : Request) (a : WorkerAction) :
    Except Fault (World L × TxDecision) := do
  match ← S.respond E w r a with
  | (w, .keep) => return (w, .keep)
  | (w, .drop) => return (w.dropTransaction r.key, .drop)

def finished (w : World L) (r : Request) (a : WorkerAction) (locks : L) : World L :=
  { w with toLedger := w.toLedger.finish r a locks }

-- Where a retryable transaction waits for its next execution.
def requeued (w : World L) (id : PriorityId) (rep : ExecutionResponse) : World L :=
  if rep.executionSlot = w.slot ∧ rep.notIncludedReason ≠ .accountInUse then
    { w with deferredTx := w.deferredTx ++ [id] }
  else
    w.insertChecked S.toLockPolicy id

def answeredExecution (w : World L) (r : Request) (locks : L) :
    WorkerAction → World L × TxDecision
  | .check _ _   => (w, .keep)
  | .unprocessed =>
    let w := finished w r .unprocessed locks
    if r.id.priority = bundleMarker then
      (w, .drop)
    else
      let w := w.count fun s => { s with executeUnprocessed := s.executeUnprocessed + 1 }
      (w.insertChecked S.toLockPolicy r.id, .keep)
  | .execute rep =>
    let w := countExecution (finished w r (.execute rep) locks) rep.notIncludedReason
    if r.id.priority = bundleMarker ∨ ¬isRetryable rep.notIncludedReason then
      (w, .drop)
    else
      (S.trim <| S.requeued w r.id rep, .keep)

variable {S : Scheduler L} {E : Env} {w : World L} {id : PriorityId} {r : Request}
variable {a : WorkerAction} {locks : L}

theorem drainWorkerResponse_eq (hl : r.key ∈ w.live) :
    S.drainWorkerResponse E w r a = Prod.fst <$> S.handleResponse E w r a := by
  rw [drainWorkerResponse, if_pos hl, handleResponse, respond]
  cases S.onResponse E { w with toLedger := w.toLedger.answer r a } r.id a
  case error => rfl
  case ok x =>
    obtain ⟨w', d⟩ := x
    cases d <;> rfl

theorem retry_eq_ok {rep : ExecutionResponse} (hc : id ∉ w.checkedTx) (hd : id ∉ w.deferredTx) :
    S.retry w id rep = .ok (S.requeued w id rep) := by
  unfold Scheduler.retry requeued
  split
  case isTrue  => simp [require, hd, bind, Except.bind, pure, Except.pure]
  case isFalse => simp [World.insertCheckedNew, require, hc, bind, Except.bind, pure, Except.pure]

theorem pendingLen_requeued {rep : ExecutionResponse} (hc : id ∉ w.checkedTx) :
    (S.requeued w id rep).pendingLen = w.pendingLen + 1 := by
  unfold requeued
  split
  case isTrue =>
    change w.checkedTx.card + w.executingTx.card + (w.deferredTx ++ [id]).length = _
    rw [List.length_append, List.length_singleton, ← Nat.add_assoc]
    rfl
  case isFalse =>
    change (insert id w.checkedTx).card + w.executingTx.card + w.deferredTx.length = _
    rw [Finset.card_insert_of_notMem hc, World.pendingLen]
    omega

theorem pendingLen_finished (hx : r.key ∈ w.executingTx) :
    (finished w r a locks).pendingLen + 1 = w.pendingLen := by
  have hc := Finset.card_erase_add_one hx
  change w.checkedTx.card + (w.executingTx.erase r.key).card + w.deferredTx.length + 1 = _
  unfold World.pendingLen
  omega

theorem mem_live_trim {k : TransactionKey} :
    k ∈ (S.trim w).live ↔ k ∈ w.live ∧
      ¬(w.checkedCapacity < w.pendingLen ∧ ∃ lowest ∈ w.checkedTx.first, lowest.key = k) := by
  unfold trim
  split
  case isFalse hp => simp [hp]
  case isTrue hp =>
    split
    case h_1 hn => simp [hn]
    case h_2 lowest hl =>
      have he : (w.evictChecked S.toLockPolicy lowest).live = w.live.erase lowest.key := by
        rw [toLedger_evictChecked <| Finset.first_mem hl]
        rfl
      rw [he, Finset.mem_erase, hl]
      simp only [hp, Option.mem_some_iff, exists_eq_left', true_and]
      rw [and_comm, ne_comm]

section Execution

variable (c : w.Custody E 0) (hm : r ∈ w.inFlight) (hk : r.kind = .execute)

include c hm hk

theorem onUnprocessed_eq (hu : S.unlock w.locks r.key (w.locksOf r.key) = .ok locks) :
    S.onUnprocessed E { w with toLedger := w.toLedger.answer r .unprocessed } r.id =
      .ok (S.answeredExecution w r locks .unprocessed) := by
  have hx := c.owned.executing_of_request hm hk
  have hc := c.metered.cost_le hm hk
  have hl : S.releaseLocks { w with toLedger := { w.toLedger.answer r .unprocessed with
      executingTx := w.executingTx.erase r.key } } r.id = .ok _ :=
    bind_eq_ok.mpr ⟨_, hu, rfl⟩
  rw [onUnprocessed, if_pos (by exact hx)]
  refine bind_eq_ok.mpr ⟨_, hl, bind_eq_ok.mpr ⟨_, releaseCus_eq_ok (by exact hc), ?_⟩⟩
  unfold answeredExecution
  dsimp only
  split <;> rfl

theorem onExecute_eq {rep : ExecutionResponse}
    (hu : S.unlock w.locks r.key (w.locksOf r.key) = .ok locks) :
    S.onExecute E { w with toLedger := w.toLedger.answer r (.execute rep) } r.id rep =
      .ok (S.answeredExecution w r locks (.execute rep)) := by
  have hx := c.owned.executing_of_request hm hk
  have hc := c.metered.cost_le hm hk
  obtain ⟨hn, hd⟩ := c.owned.not_queued_of_request hm hk
  refine bind_eq_ok.mpr ⟨(), require_eq_ok.mpr hx, ?_⟩
  refine bind_eq_ok.mpr ⟨_, releaseCus_eq_ok (by exact hc), ?_⟩
  refine bind_eq_ok.mpr ⟨_, bind_eq_ok.mpr ⟨_, hu, rfl⟩, ?_⟩
  unfold answeredExecution
  dsimp only
  split
  case isTrue  => rfl
  case isFalse => exact bind_eq_ok.mpr ⟨_, retry_eq_ok (by exact hn) (by exact hd), rfl⟩

theorem onResponse_execution (hf : r.Fits a)
    (hu : S.unlock w.locks r.key (w.locksOf r.key) = .ok locks) :
    S.respond E w r a = .ok (S.answeredExecution w r locks a) := by
  cases a
  case check       => exact absurd hk hf
  case unprocessed => exact onUnprocessed_eq c hm hk hu
  case execute     => exact onExecute_eq c hm hk hu

-- If the callback returns, the locks were released.
theorem exists_unlocked {x : World L × TxDecision} (hf : r.Fits a)
    (hx : S.respond E w r a = .ok x) :
    ∃ locks, S.unlock w.locks r.key (w.locksOf r.key) = .ok locks ∧
      x = S.answeredExecution w r locks a := by
  suffices hu : ∃ locks, S.unlock w.locks r.key (w.locksOf r.key) = .ok locks by
    obtain ⟨locks, hu⟩ := hu
    have he := (onResponse_execution c hm hk hf hu).symm.trans hx
    exact ⟨locks, hu, Except.ok.inj he.symm⟩
  have hx' := c.owned.executing_of_request hm hk
  have hc := c.metered.cost_le hm hk
  cases a
  case check => exact absurd hk hf
  case unprocessed =>
    rw [respond, onResponse, onUnprocessed, if_pos (by exact hx')] at hx
    obtain ⟨_, h₁, _⟩ := bind_eq_ok.mp hx
    obtain ⟨locks, hu, _⟩ := bind_eq_ok.mp h₁
    exact ⟨locks, hu⟩
  case execute rep =>
    obtain ⟨_, _, hx⟩ := bind_eq_ok.mp hx
    obtain ⟨_, h₁, hx⟩ := bind_eq_ok.mp hx
    obtain ⟨_, h₂, _⟩ := bind_eq_ok.mp hx
    obtain rfl := Except.ok.inj <| (releaseCus_eq_ok (by exact hc)).symm.trans h₁
    obtain ⟨locks, hu, _⟩ := bind_eq_ok.mp h₂
    exact ⟨locks, hu⟩

end Execution

end Scheduler
