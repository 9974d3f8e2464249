import SchedArchive.Custody.Answers
import SchedArchive.Theorems.Locks

-- The order in which the answers to two execute requests are handled does not matter.

open Except Ledger LockTable

namespace Scheduler

-- Where the answer to an execute request sends its transaction.
inductive Fate
  | dropped
  | checked
  | deferred
  deriving DecidableEq

def Fate.decision : Fate → TxDecision
  | dropped            => .drop
  | checked | deferred => .keep

def fate (slot : Nat) (r : Request) : WorkerAction → Fate
  | .check _ _   => .dropped
  | .unprocessed => if r.id.priority = bundleMarker then .dropped else .checked
  | .execute rep =>
    if r.id.priority = bundleMarker ∨ ¬isRetryable rep.notIncludedReason then .dropped
    else if rep.executionSlot = slot ∧ rep.notIncludedReason ≠ .accountInUse then .deferred
    else .checked

-- What the answer adds to the stats of the slot.
def tally (r : Request) (a : WorkerAction) (s : SlotStats) : SlotStats :=
  match a with
  | .check _ _   => s
  | .unprocessed =>
    if r.id.priority = bundleMarker then s
    else { s with executeUnprocessed := s.executeUnprocessed + 1 }
  | .execute rep =>
    if rep.notIncludedReason = .none then { s with executeOk := s.executeOk + 1 }
    else { s with executeErr := s.executeErr + 1 }

theorem tally_comm (r₁ r₂ : Request) (a₁ a₂ : WorkerAction) (s : SlotStats) :
    tally r₂ a₂ (tally r₁ a₁ s) = tally r₁ a₁ (tally r₂ a₂ s) := by
  unfold tally
  cases a₁ <;> cases a₂ <;> dsimp only <;> split_ifs <;> rfl

variable {L : Type}

-- All that handling the answer does to the state, as long as nothing is evicted.
structure Handled (w : World L) (r : Request) (a : WorkerAction) (w' : World L) : Prop where
  checkedTx       : w'.checkedTx =
                      if fate w.slot r a = .checked then insert r.id w.checkedTx else w.checkedTx
  deferredTx      : w'.deferredTx =
                      if fate w.slot r a = .deferred then w.deferredTx ++ [r.id] else w.deferredTx
  executingTx     : w'.executingTx = w.executingTx.erase r.key
  inFlightCus     : w'.inFlightCus = w.inFlightCus - r.id.cost
  slotStats       : w'.slotStats = tally r a w.slotStats
  inFlight        : w'.inFlight = w.inFlight.erase r
  locksOf         : w'.locksOf = w.locksOf
  slot            : w'.slot = w.slot
  checkedCapacity : w'.checkedCapacity = w.checkedCapacity

variable {S : Scheduler L} {E : Env} {w w' w₁ w₂ w₁₂ w₂₁ : World L} {r r₁ r₂ : Request}
variable {a a₁ a₂ : WorkerAction} {locks : L}

theorem trim_of_room (hp : w.pendingLen ≤ w.checkedCapacity) : S.trim w = w := by
  rw [trim, if_neg (by omega)]

theorem Handled.drop (h : Handled w r a w') : Handled w r a (w'.dropTransaction r.key) :=
  ⟨h.checkedTx, h.deferredTx, h.executingTx, h.inFlightCus, h.slotStats, h.inFlight, h.locksOf, h.slot,
    h.checkedCapacity⟩

-- Where the transaction goes, with nothing evicted for it.
def placed (S : Scheduler L) (w : World L) (id : PriorityId) : Fate → World L
  | .dropped  => w
  | .checked  => w.insertChecked S.toLockPolicy id
  | .deferred => { w with deferredTx := w.deferredTx ++ [id] }

theorem handled_placed :
    Handled w r a <|
      S.placed ((finished w r a locks).count <| tally r a) r.id (fate w.slot r a) := by
  cases hf : fate w.slot r a
  all_goals
    constructor
    case checkedTx | deferredTx =>
      rw [hf]
      rfl
    all_goals rfl

theorem requeued_eq {rep : ExecutionResponse}
    (hb : ¬(r.id.priority = bundleMarker ∨ ¬isRetryable rep.notIncludedReason)) :
    S.requeued w r.id rep = S.placed w r.id (fate w.slot r (.execute rep)) ∧
      (fate w.slot r (.execute rep)).decision = .keep := by
  rw [fate, if_neg hb, requeued]
  split
  case isTrue  => exact ⟨rfl, rfl⟩
  case isFalse => exact ⟨rfl, rfl⟩

theorem answeredExecution_eq (c : w.Custody E 0) (hm : r ∈ w.inFlight) (hk : r.kind = .execute)
    (hf : r.Fits a) (hp : w.pendingLen ≤ w.checkedCapacity) :
    S.answeredExecution w r locks a =
      (S.placed ((finished w r a locks).count <| tally r a) r.id (fate w.slot r a),
        (fate w.slot r a).decision) := by
  cases a
  case check => exact absurd hk hf
  case unprocessed =>
    unfold answeredExecution fate tally
    dsimp only
    split <;> rfl
  case execute rep =>
    have hn := (c.owned.not_queued_of_request hm hk).left
    obtain ⟨w₁, hw⟩ : ∃ w₁, w₁ = countExecution (finished w r (.execute rep) locks)
      rep.notIncludedReason := ⟨_, rfl⟩
    have hlen : (S.requeued w₁ r.id rep).pendingLen ≤ (S.requeued w₁ r.id rep).checkedCapacity := by
      have hcap : (S.requeued w₁ r.id rep).checkedCapacity = w.checkedCapacity := by
        rw [hw, requeued]
        split <;> rfl
      have hc : r.id ∉ w₁.checkedTx := by
        rw [hw]
        exact hn
      rw [hcap, pendingLen_requeued hc, hw]
      exact (pendingLen_finished <| c.owned.executing_of_request hm hk).le.trans hp
    unfold answeredExecution
    dsimp only
    rw [← hw, trim_of_room hlen]
    split
    case isTrue hb =>
      rw [fate, if_pos hb, hw]
      rfl
    case isFalse hb =>
      obtain ⟨hr, hd⟩ := requeued_eq (S := S) (w := w₁) hb
      have hs : w₁.slot = w.slot := by
        rw [hw]
        rfl
      rw [hr, hs, ← hd, hs, hw]
      rfl

theorem handleResponse_eq_ok (c : w.Custody E 0) (hm : r ∈ w.inFlight) (hk : r.kind = .execute)
    (hf : r.Fits a) (hp : w.pendingLen ≤ w.checkedCapacity)
    (hu : S.unlock w.locks r.key (w.locksOf r.key) = .ok locks) :
    ∃ w', S.handleResponse E w r a = .ok (w', (fate w.slot r a).decision) ∧ Handled w r a w' := by
  rw [handleResponse, onResponse_execution c hm hk hf hu, answeredExecution_eq c hm hk hf hp]
  cases (fate w.slot r a).decision
  case keep => exact ⟨_, rfl, handled_placed⟩
  case drop => exact ⟨_, rfl, handled_placed.drop⟩

-- What the order of two answers must not change.
structure SameOutcome (w w' : World L) : Prop where
  checkedTx   : w.checkedTx = w'.checkedTx
  executingTx : w.executingTx = w'.executingTx
  locks       : w.locks = w'.locks
  inFlightCus : w.inFlightCus = w'.inFlightCus
  slotStats   : w.slotStats = w'.slotStats
  deferredTx  : w.deferredTx.Perm w'.deferredTx

theorem Handled.sameOutcome (h₁ : Handled w r₁ a₁ w₁) (h₁₂ : Handled w₁ r₂ a₂ w₁₂)
    (h₂ : Handled w r₂ a₂ w₂) (h₂₁ : Handled w₂ r₁ a₁ w₂₁) (hl : w₁₂.locks = w₂₁.locks) :
    SameOutcome w₁₂ w₂₁ where
  checkedTx := by
    rw [h₁₂.checkedTx, h₂₁.checkedTx, h₁.checkedTx, h₂.checkedTx, h₁.slot, h₂.slot]
    split_ifs
    · exact Finset.insert_comm ..
    all_goals rfl
  executingTx := by
    rw [h₁₂.executingTx, h₂₁.executingTx, h₁.executingTx, h₂.executingTx]
    exact Finset.erase_right_comm
  locks := hl
  inFlightCus := by
    rw [h₁₂.inFlightCus, h₂₁.inFlightCus, h₁.inFlightCus, h₂.inFlightCus]
    exact Nat.sub_right_comm ..
  slotStats := by
    rw [h₁₂.slotStats, h₂₁.slotStats, h₁.slotStats, h₂.slotStats]
    exact tally_comm ..
  deferredTx := by
    rw [h₁₂.deferredTx, h₂₁.deferredTx, h₁.deferredTx, h₂.deferredTx, h₁.slot, h₂.slot]
    split_ifs
    · rw [List.append_assoc, List.append_assoc]
      exact (List.Perm.swap ..).append_left _
    all_goals rfl

theorem Handled.pendingLen_le (c : w.Custody E 0) (hm : r ∈ w.inFlight) (hk : r.kind = .execute)
    (h : Handled w r a w') : w'.pendingLen ≤ w.pendingLen := by
  have hx := Finset.card_erase_add_one <| c.owned.executing_of_request hm hk
  have hi := Finset.card_insert_le r.id w.checkedTx
  rw [World.pendingLen, h.checkedTx, h.executingTx, h.deferredTx, World.pendingLen]
  cases fate w.slot r a
  all_goals
    simp only [reduceCtorEq, if_true, if_false, List.length_append, List.length_singleton]
    omega

end Scheduler

namespace BatchScheduler

open Scheduler

variable {E : Env} {w : World InFlightLocks} {r r₁ r₂ : Request} {a a₁ a₂ : WorkerAction}

theorem handled (hi : w.Custody E 0 ∧ w.Locked Exact List.Nodup) (hm : r ∈ w.inFlight)
    (hk : r.kind = .execute) (hf : r.Fits a) (hp : w.pendingLen ≤ w.checkedCapacity) :
    ∃ w', scheduler.handleResponse E w r a = .ok (w', (fate w.slot r a).decision) ∧
      Handled w r a w' ∧ w'.Custody E 0 ∧ w'.Locked Exact List.Nodup := by
  have o := hi.left.owned
  have T : lockPolicy.Tracks terms Exact List.Nodup := tracks (fun _ => id) fun _ _ => id
  obtain ⟨locks, hu, _⟩ := (hi.right.unlock T o hm hk).exists_ok
  obtain ⟨w', hr, hh⟩ := handleResponse_eq_ok (S := scheduler) hi.left hm hk hf hp hu
  refine ⟨w', hr, hh, (kept_terms.drainWorkerResponse (S := scheduler) hi hm hf).of_ok ?_⟩
  rw [drainWorkerResponse_eq <| o.live_of_keysIn <| key_mem_executing <|
    o.executing_of_request hm hk, hr]
  rfl

-- Two execute requests that are in flight may be answered in either order: the bridge is told the
-- same, and the state is the same up to the order of the deferred transactions. That the lock table
-- is determined by the executing transactions makes up for the different orders of unlocking.
theorem execute_responses_commute (hr : scheduler.Reach E ∅ LocksOnce w)
    (hp : w.pendingLen ≤ w.checkedCapacity) (hm₁ : r₁ ∈ w.inFlight) (hm₂ : r₂ ∈ w.inFlight)
    (hk₁ : r₁.kind = .execute) (hk₂ : r₂.kind = .execute) (hn : r₁.key ≠ r₂.key)
    (hf₁ : r₁.Fits a₁) (hf₂ : r₂.Fits a₂) :
    ∃ d₁ d₂ w₁ w₂ w₁₂ w₂₁,
      scheduler.handleResponse E w r₁ a₁ = .ok (w₁, d₁) ∧
      scheduler.handleResponse E w₁ r₂ a₂ = .ok (w₁₂, d₂) ∧
      scheduler.handleResponse E w r₂ a₂ = .ok (w₂, d₂) ∧
      scheduler.handleResponse E w₂ r₁ a₁ = .ok (w₂₁, d₁) ∧
      SameOutcome w₁₂ w₂₁ := by
  have hi := locked hr
  have hne : r₁ ≠ r₂ := by
    rintro rfl
    exact hn rfl
  obtain ⟨w₁, hw₁, h₁, hi₁⟩ := handled hi hm₁ hk₁ hf₁ hp
  obtain ⟨w₂, hw₂, h₂, hi₂⟩ := handled hi hm₂ hk₂ hf₂ hp
  have hp₁ : w₁.pendingLen ≤ w₁.checkedCapacity := by
    rw [h₁.checkedCapacity]
    exact (h₁.pendingLen_le hi.left hm₁ hk₁).trans hp
  have hp₂ : w₂.pendingLen ≤ w₂.checkedCapacity := by
    rw [h₂.checkedCapacity]
    exact (h₂.pendingLen_le hi.left hm₂ hk₂).trans hp
  have hm₁₂ : r₂ ∈ w₁.inFlight := by
    rw [h₁.inFlight]
    exact (Multiset.mem_erase_of_ne hne.symm).mpr hm₂
  have hm₂₁ : r₁ ∈ w₂.inFlight := by
    rw [h₂.inFlight]
    exact (Multiset.mem_erase_of_ne hne).mpr hm₁
  obtain ⟨w₁₂, hw₁₂, h₁₂, hi₁₂⟩ := handled hi₁ hm₁₂ hk₂ hf₂ hp₁
  obtain ⟨w₂₁, hw₂₁, h₂₁, hi₂₁⟩ := handled hi₂ hm₂₁ hk₁ hf₁ hp₂
  rw [h₁.slot] at hw₁₂
  rw [h₂.slot] at hw₂₁
  refine ⟨_, _, w₁, w₂, w₁₂, w₂₁, hw₁, hw₁₂, hw₂, hw₂₁, h₁.sameOutcome h₁₂ h₂ h₂₁ ?_⟩
  have hx : w₁₂.executingTx = w₂₁.executingTx := by
    rw [h₁₂.executingTx, h₂₁.executingTx, h₁.executingTx, h₂.executingTx]
    exact Finset.erase_right_comm
  have hd : w₁₂.locksOf = w₂₁.locksOf := by
    rw [h₁₂.locksOf, h₂₁.locksOf, h₁.locksOf, h₂.locksOf]
  have ht := hi₁₂.right.table
  rw [hx, hd] at ht
  exact ht.unique hi₂₁.right.table

-- A transaction that ran into a lock conflict, and one of the two tip transactions.
theorem execute_responses_commute_tip :
    ∃ w, scheduler.Reach Sample.env ∅ LocksOnce w ∧ w.executingTx = {0, 1, 2} ∧
      ∃ d₁ d₂ w₁ w₂ w₁₂ w₂₁,
        scheduler.handleResponse Sample.env w ⟨⟨1000000, 999, 0⟩, .execute⟩
          (.execute ⟨1, .accountInUse⟩) = .ok (w₁, d₁) ∧
        scheduler.handleResponse Sample.env w₁ (tipRequest 1) .unprocessed = .ok (w₁₂, d₂) ∧
        scheduler.handleResponse Sample.env w (tipRequest 1) .unprocessed = .ok (w₂, d₂) ∧
        scheduler.handleResponse Sample.env w₂ ⟨⟨1000000, 999, 0⟩, .execute⟩
          (.execute ⟨1, .accountInUse⟩) = .ok (w₂₁, d₁) ∧
        SameOutcome w₁₂ w₂₁ := by
  obtain ⟨w, hr, hx, hp, hm₁, hm₂⟩ : ∃ w, scheduler.Reach Sample.env ∅ LocksOnce w ∧
      w.executingTx = {0, 1, 2} ∧ w.pendingLen ≤ w.checkedCapacity ∧
      ⟨⟨1000000, 999, 0⟩, .execute⟩ ∈ w.inFlight ∧ tipRequest 1 ∈ w.inFlight :=
    Sample.exists_reach (Sample.executed ⟨1000000, 999, 0⟩) (by decide +kernel)
  refine ⟨w, hr, hx, ?_⟩
  exact execute_responses_commute hr hp hm₁ hm₂ rfl rfl (by decide) (by decide) (by decide)

end BatchScheduler
