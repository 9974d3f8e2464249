import SchedArchive.Custody.Answers
import SchedArchive.Theorems.Custody

-- Whether what a scheduler tells the bridge to do with a transaction agrees with what it has done.

open Except Ledger

namespace Scheduler

variable {L : Type} {S : Scheduler L} {E : Env} {w w' : World L} {k : TransactionKey}
variable {id : PriorityId} {r : Request} {a : WorkerAction} {locks : L}

-- A transaction that is kept was not dropped and is in one of the containers; one that the bridge is
-- to drop was not dropped already and is in none of them. An outstanding first check is not a
-- container.
def Coherent (key : TransactionKey) : World L × TxDecision → Prop
  | (w, .keep) => key ∉ w.dropped ∧ ∃ p ≠ Place.firstCheck, key ∈ w.keysIn p
  | (w, .drop) => key ∉ w.dropped ∧ ∀ p, key ∉ w.keysIn p

theorem coherent_drop (o : (w.toLedger.dropTransaction k).Owned E 0) : Coherent k (w, .drop) := by
  have hn : (k :: w.dropped).Nodup := Multiset.coe_nodup.mp (Multiset.nodup_add.mp o.nodup_minted).left
  refine ⟨(List.nodup_cons.mp hn).left, fun p hp => ?_⟩
  · have hl : k ∈ w.live.erase k := o.live_of_keysIn (p := p) (by cases p <;> exact hp)
    exact Finset.notMem_erase k w.live hl

theorem coherent_keep_iff (o : w.Owned E 0) (hf : k ∉ w.keysIn .firstCheck) :
    Coherent k (w, .keep) ↔ k ∈ w.live := by
  constructor
  case mp =>
    rintro ⟨_, p, _, hp⟩
    exact o.live_of_keysIn hp
  case mpr =>
    intro hl
    obtain ⟨p, hp⟩ := o.mem_live_iff.mp hl |>.resolve_right <| Multiset.notMem_zero k
    refine ⟨o.not_dropped hl, p, ?_, hp⟩
    rintro rfl
    exact hf hp

-- The answered request itself is no longer out for a first check.
theorem not_firstCheck (o : w.Owned E 0) (hm : r ∈ w.inFlight) (hi : w'.inFlight = w.inFlight.erase r)
    (hp : r.kind ≠ .firstCheck → ∃ p ≠ Place.firstCheck, r.key ∈ w.keysIn p) :
    r.key ∉ w'.keysIn .firstCheck := by
  have he : w'.firstChecks = (w.inFlight.erase r).filter (·.kind = .firstCheck) := by
    rw [firstChecks, hi]
  by_cases hk : r.kind = .firstCheck
  case pos =>
    have hn := o.nodup_keysIn (p := .firstCheck)
    have hw : w.firstChecks = r ::ₘ w'.firstChecks := by
      rw [he, firstChecks]
      nth_rewrite 1 [← Multiset.cons_erase hm]
      exact Multiset.filter_cons_of_pos _ hk
    rw [keysIn, hw, Multiset.map_cons, Multiset.nodup_cons] at hn
    exact hn.left
  case neg =>
    intro hf
    obtain ⟨p, hn, hp⟩ := hp hk
    obtain ⟨r', hr, hr'⟩ := Multiset.mem_map.mp hf
    rw [he, Multiset.mem_filter] at hr
    have hw := key_mem_firstCheck (Multiset.mem_of_mem_erase hr.left) hr.right
    rw [hr'] at hw
    exact hn <| o.place_unique hp hw

-- A retried transaction that goes back to `checked_tx` is the lowest there, and more transactions
-- are pending than there is room for.
def EvictsItself (w : World L) (r : Request) : WorkerAction → Prop
  | .execute rep =>
    r.id.priority ≠ bundleMarker ∧ isRetryable rep.notIncludedReason ∧
      ¬(rep.executionSlot = w.slot ∧ rep.notIncludedReason ≠ .accountInUse) ∧
      w.checkedCapacity < w.pendingLen ∧ ∀ id ∈ w.checkedTx, r.id ≤ id
  | _ => False

instance : DecidablePred (EvictsItself w r)
  | .execute _ => inferInstanceAs <| Decidable (_ ∧ _ ∧ _ ∧ _ ∧ _)
  | .unprocessed | .check _ _ => isFalse fun h => h

theorem mem_live_requeued {rep : ExecutionResponse} (c : w.Custody E 0) (hm : r ∈ w.inFlight)
    (hk : r.kind = .execute) (hp : r.id.priority ≠ bundleMarker)
    (hr : isRetryable rep.notIncludedReason) {w₁ : World L}
    (hw : w₁ = countExecution (finished w r (.execute rep) locks) rep.notIncludedReason) :
    r.key ∈ (S.trim <| S.requeued w₁ r.id rep).live ↔ ¬EvictsItself w r (.execute rep) := by
  have hx := c.owned.executing_of_request hm hk
  have hn := (c.owned.not_queued_of_request hm hk).left
  have hl : r.key ∈ w.live := c.owned.live_of_keysIn <| key_mem_executing hx
  have hs : w₁.slot = w.slot := by rw [hw]; rfl
  have hc : w₁.checkedTx = w.checkedTx := by rw [hw]; rfl
  have hlen : (S.requeued w₁ r.id rep).pendingLen = w.pendingLen := by
    rw [pendingLen_requeued (hc ▸ hn), ← pendingLen_finished hx, hw]
    rfl
  have hcap : (S.requeued w₁ r.id rep).checkedCapacity = w.checkedCapacity := by
    rw [hw, requeued]
    split <;> rfl
  have hlive : (S.requeued w₁ r.id rep).live = w.live := by
    rw [hw, requeued]
    split <;> rfl
  rw [mem_live_trim, hlen, hcap, hlive]
  simp only [EvictsItself, hp, hr, hl, ne_eq, not_false_eq_true, true_and]
  refine not_congr ?_
  by_cases hd : rep.executionSlot = w.slot ∧ rep.notIncludedReason ≠ .accountInUse
  case pos =>
    have he : (S.requeued w₁ r.id rep).checkedTx = w.checkedTx := by
      rw [requeued, if_pos (hs ▸ hd)]
      exact hc
    rw [he]
    refine iff_of_false ?_ fun h => h.left hd
    rintro ⟨_, lowest, hf, he⟩
    have hq := key_mem_checked <| Finset.first_mem hf
    rw [he] at hq
    exact nomatch c.owned.place_unique hq <| key_mem_executing hx
  case neg =>
    have he : (S.requeued w₁ r.id rep).checkedTx = insert r.id w.checkedTx := by
      rw [requeued, if_neg (hs ▸ hd), ← hc]
      rfl
    rw [he, and_iff_right hd]
    refine and_congr_right fun _ => ⟨?_, fun hall => ⟨r.id, ?_, rfl⟩⟩
    case refine_1 =>
      rintro ⟨lowest, hf, hk⟩ id hi
      obtain ⟨hf, hall⟩ := Finset.first_eq_some_iff.mp hf
      rcases Finset.mem_insert.mp hf with rfl | hf
      · exact hall id <| Finset.mem_insert_of_mem hi
      · have hq := key_mem_checked hf
        rw [hk] at hq
        exact nomatch c.owned.place_unique hq <| key_mem_executing hx
    case refine_2 =>
      refine Finset.first_eq_some_iff.mpr ⟨Finset.mem_insert_self .., fun id hi => ?_⟩
      rcases Finset.mem_insert.mp hi with rfl | hi
      · exact le_rfl
      · exact hall id hi

theorem inFlight_removeChecked {P : LockPolicy L} :
    (w.removeChecked P id).inFlight = w.inFlight := by
  unfold World.removeChecked
  split <;> rfl

-- A check evicts before it admits, so what it keeps it does not evict.
theorem ensures_accept : (S.accept w id).Ensures
    (fun w' => w'.inFlight = w.inFlight ∧ id ∈ w'.checkedTx) (fun _ => True) := by
  unfold accept
  split
  case isFalse => exact ⟨rfl, Finset.mem_insert_self ..⟩
  case isTrue =>
    split
    case h_1 => trivial
    case h_2 => exact ⟨inFlight_removeChecked, Finset.mem_insert_self ..⟩

theorem ensures_onCheck {rep : CheckResponse} {keys : Option (List Pubkey)} :
    (S.onCheck E w id rep keys).Ensures (fun x => x.1.inFlight = w.inFlight ∧
      (x.2 = .keep → x.1.live = w.live ∨ id ∈ x.1.checkedTx)) (fun _ => True) := by
  unfold onCheck
  split
  case isTrue => exact ⟨rfl, fun _ => .inl rfl⟩
  case isFalse =>
    split
    case isTrue =>
      simp only [ensures_bind, ensures_require, ensures_pure]
      exact ⟨fun _ => ⟨inFlight_removeChecked, fun hd => by cases hd⟩, fun _ => trivial⟩
    case isFalse =>
      simp only [ensures_bind, ensures_require]
      refine ⟨fun _ => ?_, fun _ => trivial⟩
      split_ifs
      case pos => exact ⟨rfl, fun _ => .inl rfl⟩
      case pos => exact ⟨rfl, fun hd => by cases hd⟩
      case neg =>
        rw [ensures_bind]
        exact ensures_accept.imp fun w' h => ⟨h.left, fun _ => .inr h.right⟩

theorem inFlight_answeredExecution (hf : r.Fits a) (hk : r.kind = .execute) :
    (S.answeredExecution w r locks a).1.inFlight = w.inFlight.erase r := by
  have ht : ∀ w : World L, (S.trim w).inFlight = w.inFlight := by
    intro w
    unfold trim
    split
    case isFalse => rfl
    case isTrue =>
      split
      case h_1 => rfl
      case h_2 => exact inFlight_removeChecked
  cases a
  case check => exact absurd hk hf
  case unprocessed =>
    unfold answeredExecution
    dsimp only
    split <;> rfl
  case execute rep =>
    unfold answeredExecution
    dsimp only
    split
    case isTrue => rfl
    case isFalse =>
      refine (ht _).trans ?_
      unfold requeued
      split <;> rfl

-- The ledger once the decision is carried out is still in order.
theorem Known.owned_settled (hS : S.Known locks) (hr : S.Reachable E locks w) (hm : r ∈ w.inFlight)
    (hf : r.Fits a) (hl : r.key ∈ w.live) {x : World L × TxDecision}
    (hx : S.respond E w r a = .ok x) :
    (settled r.key x).Owned E 0 := by
  have hd := (kept_vetted hS.lockFaults).drainWorkerResponse (hS.vetted hr) hm hf
  rw [drainWorkerResponse, if_pos hl] at hd
  rw [respond] at hx
  rw [hx] at hd
  obtain ⟨w', d⟩ := x
  cases d <;> exact hd.left.owned

theorem coherent_check {rep : CheckResponse} {keys : Option (List Pubkey)} (c : w.Custody E 0)
    (hm : r ∈ w.inFlight) (hk : r.kind ≠ .execute) (hl : r.key ∈ w.live) {x : World L × TxDecision}
    (o : (settled r.key x).Owned E 0)
    (hx : S.onCheck E { w with toLedger := w.toLedger.answer r (.check rep keys) } r.id rep keys =
      .ok x) : Coherent r.key x := by
  obtain ⟨hi, hc⟩ := ensures_onCheck.of_ok hx
  obtain ⟨w', d⟩ := x
  cases d
  case drop => exact coherent_drop o
  case keep =>
    have hn : r.key ∉ w'.keysIn .firstCheck := by
      refine not_firstCheck c.owned hm hi fun hf => ?_
      have hr : r.kind = .recheck := by cases h : r.kind <;> simp_all
      exact c.place_of_recheck hm hr hl
    rw [coherent_keep_iff o hn]
    rcases hc rfl with hw | hc
    · rw [show w'.live = w.live from hw]
      exact hl
    · exact o.live_of_keysIn <| key_mem_checked hc

theorem coherent_execution_iff (c : w.Custody E 0) (hm : r ∈ w.inFlight) (hk : r.kind = .execute)
    (hf : r.Fits a) (o : (settled r.key <| S.answeredExecution w r locks a).Owned E 0) :
    Coherent r.key (S.answeredExecution w r locks a) ↔ ¬EvictsItself w r a := by
  have hp := key_mem_executing <| c.owned.executing_of_request hm hk
  have hi : (S.answeredExecution w r locks a).1.inFlight = w.inFlight.erase r :=
    inFlight_answeredExecution hf hk
  have hn := not_firstCheck c.owned hm hi fun _ => ⟨.executing, nofun, hp⟩
  cases a
  case check => exact absurd hk hf
  case unprocessed =>
    refine iff_of_true ?_ fun h => h
    unfold answeredExecution at o hn ⊢
    dsimp only at o hn ⊢
    split at o
    case isTrue hb =>
      rw [if_pos hb]
      exact coherent_drop o
    case isFalse hb =>
      rw [if_neg hb] at hn ⊢
      exact (coherent_keep_iff o hn).mpr <| c.owned.live_of_keysIn hp
  case execute rep =>
    unfold answeredExecution at o hn ⊢
    dsimp only at o hn ⊢
    split at o
    case isTrue hb =>
      rw [if_pos hb]
      refine iff_of_true (coherent_drop o) fun h => ?_
      exact hb.elim h.left fun hn => hn h.right.left
    case isFalse hb =>
      rw [if_neg hb] at hn ⊢
      obtain ⟨hb, hr⟩ := not_or.mp hb
      rw [coherent_keep_iff o hn]
      exact mem_live_requeued c hm hk hb (not_not.mp hr) rfl

-- The decision on the answer to a request agrees with what was done to its transaction, unless the
-- answer puts it back into `checked_tx` and the eviction that follows takes it out again.
theorem Known.decision_coherent_iff (hS : S.Known locks) (hr : S.Reachable E locks w)
    (hm : r ∈ w.inFlight) (hf : r.Fits a) (hl : r.key ∈ w.live) {x : World L × TxDecision}
    (hx : S.respond E w r a = .ok x) :
    Coherent r.key x ↔ ¬EvictsItself w r a := by
  have c := hS.custody hr
  have o := hS.owned_settled hr hm hf hl hx
  by_cases hk : r.kind = .execute
  case pos =>
    obtain ⟨locks, _, rfl⟩ := exists_unlocked c hm hk hf hx
    exact coherent_execution_iff c hm hk hf o
  case neg =>
    cases a
    case unprocessed | execute => exact absurd hf hk
    case check rep keys        => exact iff_of_true (coherent_check c hm hk hl o hx) fun h => h

-- A lock conflict, with room for the transaction to be tried again.
theorem Known.decision_coherent_iff_retry :
    ∃ w, BatchScheduler.scheduler.Reachable Sample.env ∅ w ∧ ∃ x,
      BatchScheduler.scheduler.respond Sample.env w ⟨⟨1000000, 999, 0⟩, .execute⟩
        (.execute ⟨1, .accountInUse⟩) = .ok x ∧ x.2 = .keep ∧ Coherent 0 x := by
  obtain ⟨w, hr, hm, hl, hn, hx⟩ : ∃ w, BatchScheduler.scheduler.Reachable Sample.env ∅ w ∧
      ⟨⟨1000000, 999, 0⟩, .execute⟩ ∈ w.inFlight ∧ 0 ∈ w.live ∧
      ¬EvictsItself w ⟨⟨1000000, 999, 0⟩, .execute⟩ (.execute ⟨1, .accountInUse⟩) ∧
      (BatchScheduler.scheduler.respond Sample.env w ⟨⟨1000000, 999, 0⟩, .execute⟩
        (.execute ⟨1, .accountInUse⟩)).Ensures (·.2 = .keep) (fun _ => False) :=
    Sample.exists_reach (Sample.executed ⟨1000000, 999, 0⟩) (by decide +kernel)
  obtain ⟨x, hx, hk⟩ := hx.exists_ok
  exact ⟨w, hr, x, hx, hk, (decision_coherent_iff .batch hr hm (by decide) hl hx).mpr hn⟩

-- The same with a capacity of one: the transaction is evicted as soon as it is back, and the bridge
-- is told to keep it.
theorem Known.keeps_evicted :
    ∃ w, BatchScheduler.scheduler.Reachable Sample.env ∅ w ∧
      ⟨⟨1000000, 999, 0⟩, .execute⟩ ∈ w.inFlight ∧ 0 ∈ w.live ∧ ∃ x,
      BatchScheduler.scheduler.respond Sample.env w ⟨⟨1000000, 999, 0⟩, .execute⟩
        (.execute ⟨1, .accountInUse⟩) = .ok x ∧ x.2 = .keep ∧ 0 ∈ x.1.dropped ∧ ¬Coherent 0 x := by
  obtain ⟨w, hr, hm, hl, hx⟩ : ∃ w, BatchScheduler.scheduler.Reachable Sample.env ∅ w ∧
      ⟨⟨1000000, 999, 0⟩, .execute⟩ ∈ w.inFlight ∧ 0 ∈ w.live ∧
      (BatchScheduler.scheduler.respond Sample.env w ⟨⟨1000000, 999, 0⟩, .execute⟩
        (.execute ⟨1, .accountInUse⟩)).Ensures (fun x => x.2 = .keep ∧ 0 ∈ x.1.dropped)
        (fun _ => False) :=
    Scheduler.exists_reach (w := Sample.narrow 1 ∅) (Sample.executed ⟨1000000, 999, 0⟩)
      initial_newWithJito (by decide +kernel)
  obtain ⟨⟨w', d⟩, hx, hk, hd⟩ := hx.exists_ok
  refine ⟨w, hr, hm, hl, (w', d), hx, hk, hd, fun hc => ?_⟩
  obtain rfl : d = .keep := hk
  exact hc.left hd

end Scheduler
