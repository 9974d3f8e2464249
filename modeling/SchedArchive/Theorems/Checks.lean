import SchedArchive.Theorems.Custody

-- What one call of `schedule_checks` sends, and in which order.

open Except Ledger

namespace Scheduler

variable {L : Type} {S : Scheduler L} {E : Env} {locks : L} {w w' w₁ w₂ : World L}
variable {ids ids' again again' : List PriorityId} {batches batches' : List ScheduleBatch}

-- The requests for the first checks of `ids`, and after them those for the rechecks of `again`.
def checkRequests (ids again : List PriorityId) : List Request :=
  ids.map (⟨·, .firstCheck⟩) ++ again.map (⟨·, .recheck⟩)

@[simp]
theorem length_checkRequests : (checkRequests ids again).length = ids.length + again.length := by
  simp [checkRequests]

-- The transactions that calls of `pop_next` have yielded. There are rechecks only once there is
-- nothing left to be checked for the first time.
structure Popped (w : World L) (ids again : List PriorityId) (w' : World L) : Prop where
  drawn     : Multiset.Drawn w.uncheckedTx ids w'.uncheckedTx
  late      : again ≠ [] → w'.uncheckedTx = 0
  rechecks  : ∀ id ∈ again, id ∈ w.checkedTx
  checked   : w'.checkedTx = w.checkedTx
  runtime   : w'.runtime = w.runtime
  slotStats : w'.slotStats = w.slotStats

theorem Popped.nil : Popped w [] [] w :=
  ⟨.nil, by simp, by simp, rfl, rfl, rfl⟩

theorem Popped.append (h₁ : Popped w ids again w₁) (h₂ : Popped w₁ ids' again' w') :
    Popped w (ids ++ ids') (again ++ again') w' where
  drawn       := h₁.drawn.append h₂.drawn
  late ha     := by
    by_cases hn : again = []
    case pos => exact h₂.late <| by simpa [hn] using ha
    case neg => exact (h₁.late hn ▸ h₂.drawn).eq_nil.right
  rechecks id hi := by
    rcases List.mem_append.mp hi with hi | hi
    · exact h₁.rechecks id hi
    · exact h₁.checked ▸ h₂.rechecks id hi
  checked     := h₂.checked.trans h₁.checked
  runtime     := h₂.runtime.trans h₁.runtime
  slotStats   := h₂.slotStats.trans h₁.slotStats

-- First checks that come after a recheck would be out of order, but there are none.
theorem Popped.requests_append (h₁ : Popped w ids again w₁) (h₂ : Popped w₁ ids' again' w') :
    checkRequests ids again ++ checkRequests ids' again' =
      checkRequests (ids ++ ids') (again ++ again') := by
  by_cases ha : again = []
  case pos => simp [checkRequests, ha]
  case neg =>
    have hi := (h₁.late ha ▸ h₂.drawn).eq_nil.left
    simp [checkRequests, hi]

-- Nothing is sent yet.
structure Unsent (w w' : World L) : Prop where
  sent   : w'.sent = w.sent
  queued : w'.queued = w.queued

theorem Lawful.popped_popNext (law : S.Lawful) : (S.popNext w).Ensures
    (fun x => Unsent w x.2 ∧ match x with
      | (none, w')   => w'.uncheckedTx = 0 ∧ Popped w [] [] w'
      | (some r, w') => ∃ ids again, [r] = checkRequests ids again ∧ Popped w ids again w')
    (fun _ => True) := by
  unfold Scheduler.popNext
  split
  case h_1 id rest hp =>
    exact ⟨⟨rfl, rfl⟩, [id], [], rfl, .of_popMax hp, by simp, by simp, rfl, rfl, rfl⟩
  case h_2 hn =>
    have hu : w.uncheckedTx = 0 := Multiset.popMax_eq_none.mp hn
    split
    case h_1 => trivial
    case h_2 found cursor hr =>
      refine ⟨⟨rfl, rfl⟩, ?_⟩
      cases found
      case none    => exact ⟨hu, .nil, by simp, by simp, rfl, rfl, rfl⟩
      case some id =>
        refine ⟨[], [id], rfl, .nil, fun _ => hu, ?_, rfl, rfl, rfl⟩
        simpa using law.recheck _ _ _ _ _ _ hr

-- A batch that is not full has taken the last unchecked transaction.
theorem Lawful.popped_takeNext (law : S.Lawful) {n : Nat} : (S.takeNext n w).Ensures
    (fun (rs, w') => Unsent w w' ∧ rs.length ≤ n ∧ (rs.length < n → w'.uncheckedTx = 0) ∧
      ∃ ids again, rs = checkRequests ids again ∧ Popped w ids again w') (fun _ => True) := by
  induction n generalizing w
  case zero => exact ⟨⟨rfl, rfl⟩, le_rfl, fun h => absurd h <| Nat.lt_irrefl _, [], [], rfl, .nil⟩
  case succ n ih =>
    rw [Scheduler.takeNext, ensures_bind]
    refine law.popped_popNext.imp ?_
    rintro ⟨_ | r, w₁⟩ ⟨hu, h₁⟩
    case none => exact ⟨hu, Nat.zero_le _, fun _ => h₁.left, [], [], rfl, h₁.right⟩
    case some =>
      obtain ⟨ids, again, hr, h₁⟩ := h₁
      simp only [ensures_bind]
      refine ih.imp ?_
      rintro ⟨rs, w'⟩ ⟨hu', hl, hf, ids', again', rfl, h'⟩
      refine ⟨⟨hu'.sent.trans hu.sent, hu'.queued.trans hu.queued⟩, Nat.succ_le_succ hl,
        fun h => hf <| Nat.lt_of_succ_lt_succ h, _, _, ?_, h₁.append h'⟩
      rw [← h₁.requests_append h', ← hr]
      rfl

-- The length of the check queue when it is looked at for the batch `k`.
def checkQueueLen (reads : Nat → Nat) (queued : Nat) : Nat → Nat
  | 0     => queued - reads 0
  | k + 1 => checkQueueLen reads queued k + 1 - reads (k + 1)

-- How many batches the check queue may hold.
def checkQueueLimit (E : Env) (w : World L) : Nat :=
  min w.runtime.maxCheckBatches E.queueCapacity

-- The queue after the first batch.
theorem checkQueueLen_succ {reads : Nat → Nat} {queued k : Nat} :
    checkQueueLen (fun k => reads (k + 1)) (queued - reads 0 + 1) k =
      checkQueueLen reads queued (k + 1) := by
  induction k
  case zero => rfl
  case succ k ih =>
    rw [checkQueueLen, ih]
    rfl

-- What the rounds of the loop of `schedule_checks` have sent when it comes to its end.
structure CheckRounds (E : Env) (reads : Nat → Nat) (w : World L) (batches : List ScheduleBatch)
    (w' : World L) : Prop where
  sent     : w'.sent = batches.reverse ++ w.sent
  requests : ∃ ids again, batches.flatMap (·.transactions) = checkRequests ids again ∧
               Popped w ids again w'
  shape    : ∀ b ∈ batches, ∃ rs, b = checkBatch rs ∧ rs ≠ [] ∧ rs.length ≤ maxCheckBatch ∧
               (rs.length < maxCheckBatch → w'.uncheckedTx = 0)
  room     : ∀ k < batches.length,
               checkQueueLen reads (w.queued checkWorker) k < checkQueueLimit E w
  queued   : w'.queued checkWorker = checkQueueLen reads (w.queued checkWorker) batches.length
  full     : w'.uncheckedTx ≠ 0 → checkQueueLimit E w ≤ w'.queued checkWorker

theorem queued_workerReads {n : Nat} :
    (w.workerReads checkWorker n).queued checkWorker = w.queued checkWorker - n := by
  simp [World.workerReads]

theorem popped_workerReads {n : Nat} : Popped w [] [] (w.workerReads checkWorker n) :=
  ⟨.nil, by simp, by simp, rfl, rfl, rfl⟩

theorem popped_schedule {b : ScheduleBatch} (hs : w.schedule E b = .ok w') :
    w'.sent = b :: w.sent ∧ w'.queued = Function.update w.queued b.worker (w.queued b.worker + 1) ∧
      Popped w [] [] w' := by
  obtain ⟨_, _, hs⟩ := bind_eq_ok.mp hs
  cases hs
  exact ⟨rfl, rfl, .nil, by simp, by simp, rfl, rfl, rfl⟩

section Rounds

variable {reads : Nat → Nat} {rs : List Request}

-- The last round sends nothing.
theorem CheckRounds.done (hp : Popped w [] [] w') (hs : w'.sent = w.sent)
    (hq : w'.queued checkWorker = w.queued checkWorker - reads 0)
    (hf : w'.uncheckedTx ≠ 0 → checkQueueLimit E w ≤ w'.queued checkWorker) :
    CheckRounds E reads w [] w' where
  sent     := hs
  requests := ⟨[], [], rfl, hp⟩
  shape    := by simp
  room     := by simp
  queued   := hq
  full     := hf

-- A round that sends a batch, and then further rounds.
theorem CheckRounds.cons (hu : Unsent (w.workerReads checkWorker (reads 0)) w₁)
    (hl : rs.length ≤ maxCheckBatch) (hf : rs.length < maxCheckBatch → w₁.uncheckedTx = 0)
    (hr : rs = checkRequests ids again) (h₁ : Popped w ids again w₁) (hn : rs ≠ [])
    (hb : w.queued checkWorker - reads 0 < checkQueueLimit E w)
    (hw : w₁.schedule E (checkBatch rs) = .ok w₂)
    (h₂ : CheckRounds E (fun k => reads (k + 1)) w₂ batches w') :
    CheckRounds E reads w (checkBatch rs :: batches) w' := by
  obtain ⟨hs, hq, hp⟩ := popped_schedule hw
  obtain ⟨ids', again', hr', h'⟩ := h₂.requests
  have hq : w₂.queued checkWorker = w.queued checkWorker - reads 0 + 1 := by
    rw [hq, hu.queued, ← queued_workerReads]
    exact Function.update_self ..
  have hz : w₁.uncheckedTx = 0 → w'.uncheckedTx = 0 := fun hz =>
    (hz ▸ (hp.append h').drawn).eq_nil.right
  have hm : checkQueueLimit E w₂ = checkQueueLimit E w := by
    rw [checkQueueLimit, checkQueueLimit, (h₁.append hp).runtime]
  constructor
  case sent => rw [h₂.sent, hs, hu.sent, List.reverse_cons, List.append_assoc]; rfl
  case requests =>
    refine ⟨_, _, ?_, h₁.append <| hp.append h'⟩
    rw [← h₁.requests_append (hp.append h'), ← hr]
    exact congrArg (rs ++ ·) hr'
  case shape =>
    intro b hb
    rcases List.mem_cons.mp hb with rfl | hb
    · exact ⟨rs, rfl, hn, hl, fun h => hz <| hf h⟩
    · exact h₂.shape b hb
  case room =>
    rintro (_ | k) hk
    case zero => exact hb
    case succ =>
      have hr := h₂.room k <| Nat.lt_of_succ_lt_succ hk
      rwa [hq, hm, checkQueueLen_succ] at hr
  case queued => rw [h₂.queued, hq, checkQueueLen_succ, List.length_cons]
  case full   => exact hm ▸ h₂.full

-- The loop ends when the queue is as full as it may get or nothing is left.
theorem Lawful.rounds_scheduleChecksLoop (law : S.Lawful) {n : Nat} :
    (S.scheduleChecksLoop E reads n w).Ensures
      (fun w' => ∃ batches, CheckRounds E reads w batches w') (fun _ => True) := by
  induction n generalizing reads w
  case zero => trivial
  case succ n ih =>
    rw [Scheduler.scheduleChecksLoop]
    split
    case isFalse hb =>
      refine ⟨[], .done popped_workerReads rfl queued_workerReads fun _ => ?_⟩
      exact Nat.le_of_not_lt fun h => hb <| lt_min_iff.mp h
    case isTrue hb =>
      rw [ensures_bind]
      refine law.popped_takeNext.imp ?_
      rintro ⟨rs, w₁⟩ ⟨hu, hl, hf, ids, again, hr, h₁⟩
      have h₁ := popped_workerReads.append h₁
      dsimp only at hu hl hf hr h₁ ⊢
      split
      case isTrue hn =>
        have hz := hf (by simp [hn, maxCheckBatch])
        rw [hr] at hn
        obtain ⟨rfl, rfl⟩ : ids = [] ∧ again = [] := by simpa [checkRequests] using hn
        refine ⟨[], .done h₁ hu.sent ?_ fun h => absurd hz h⟩
        rw [hu.queued, queued_workerReads]
      case isFalse hn =>
        rw [ensures_bind]
        cases hw : w₁.schedule E (checkBatch rs)
        case error => trivial
        case ok w₂ =>
          refine ih.imp ?_
          rintro w' ⟨batches, h₂⟩
          have hb := lt_min_iff.mpr hb
          rw [queued_workerReads] at hb
          exact ⟨_, .cons hu hl hf hr h₁ hn hb hw h₂⟩

theorem CheckRounds.le_limit (h : CheckRounds E reads w batches w') (hn : batches ≠ []) :
    w'.queued checkWorker ≤ checkQueueLimit E w := by
  obtain ⟨k, hk⟩ : ∃ k, batches.length = k + 1 :=
    Nat.exists_eq_add_one.mpr <| List.length_pos_iff.mpr hn
  have hr := h.room k (by omega)
  have hq := h.queued
  rw [hk, checkQueueLen] at hq
  omega

end Rounds

-- One call of `schedule_checks` takes the transactions from `unchecked_tx` from the highest down,
-- over all of its batches, and turns to rechecks only when there is nothing left there. No batch is
-- empty, only one that takes the last of them is not full, and the call does not stop before the
-- queue is as full as it may get or nothing is left unchecked. All of this holds however many requests
-- the check worker reads meanwhile.
theorem Known.checks_in_order {reads : Nat → Nat} (hS : S.Known locks)
    (hs : S.scheduleChecks E reads w = .ok w') :
    ∃ batches ids again,
      w'.sent = batches.reverse ++ w.sent ∧
      batches.flatMap (·.transactions) = checkRequests ids again ∧
      Multiset.Drawn w.uncheckedTx ids w'.uncheckedTx ∧
      (again ≠ [] → w'.uncheckedTx = 0) ∧ (∀ id ∈ again, id ∈ w.checkedTx) ∧
      (∀ b ∈ batches, ∃ rs, b = checkBatch rs ∧ rs ≠ [] ∧ rs.length ≤ maxCheckBatch ∧
        (rs.length < maxCheckBatch → w'.uncheckedTx = 0)) ∧
      (∀ k < batches.length, checkQueueLen reads (w.queued checkWorker) k < checkQueueLimit E w) ∧
      w'.queued checkWorker = checkQueueLen reads (w.queued checkWorker) batches.length ∧
      (batches ≠ [] → w'.queued checkWorker ≤ checkQueueLimit E w) ∧
      (w'.uncheckedTx ≠ 0 → checkQueueLimit E w ≤ w'.queued checkWorker) ∧
      w'.slotStats.checkRequested = w.slotStats.checkRequested + ids.length := by
  obtain ⟨w₁, h₁, hs⟩ := bind_eq_ok.mp hs
  cases hs
  obtain ⟨batches, hr⟩ := hS.lawful.rounds_scheduleChecksLoop.of_ok h₁
  obtain ⟨ids, again, hq, hp⟩ := hr.requests
  refine ⟨batches, ids, again, hr.sent, hq, hp.drawn, hp.late, hp.rechecks, hr.shape, hr.room,
    hr.queued, hr.le_limit, hr.full, ?_⟩
  have ht := congrArg Multiset.card hp.drawn.total
  rw [Multiset.card_add, Multiset.coe_card] at ht
  change w₁.slotStats.checkRequested + (w.uncheckedTx.card - w₁.uncheckedTx.card) = _
  rw [hp.slotStats]
  omega

-- One unchecked transaction more than there is room for in a batch, and one to be rechecked.
def crowded : World BatchScheduler.InFlightLocks :=
  { Sample.world ∅ with
    uncheckedTx := (Multiset.range 65).map fun i => ⟨i, 1, i⟩
    checkedTx   := {⟨100, 1, 100⟩}
    nextRecheck := some ⟨100, 1, 100⟩ }

theorem Known.checks_in_order_two :
    ∃ w', ∃ batches : List ScheduleBatch, ∃ ids again,
      BatchScheduler.scheduler.scheduleChecks Sample.env (fun _ => 1) crowded = .ok w' ∧
      batches.flatMap (·.transactions) = checkRequests ids again ∧
      Multiset.Drawn crowded.uncheckedTx ids w'.uncheckedTx ∧
      batches.length = 2 ∧ ids.length = 65 ∧ again.length = 1 := by
  obtain ⟨w', hs, hl, hc, hr⟩ : ∃ w',
      BatchScheduler.scheduler.scheduleChecks Sample.env (fun _ => 1) crowded = .ok w' ∧
      w'.sent.length = 2 ∧ w'.slotStats.checkRequested = 65 ∧
      (w'.sent.reverse.flatMap (·.transactions)).length = 66 :=
    Ensures.exists_ok <| by decide +kernel
  obtain ⟨batches, ids, again, hb, hq, hd, _, _, _, _, _, _, _, hi⟩ := checks_in_order .batch hs
  have hb : w'.sent = batches.reverse := hb.trans <| List.append_nil _
  rw [hb, List.length_reverse] at hl
  have hi : 65 = ids.length := hc.symm.trans <| hi.trans <| Nat.zero_add _
  rw [hb, List.reverse_reverse, hq, length_checkRequests] at hr
  exact ⟨w', batches, ids, again, hs, hq, hd, hl, hi.symm, by omega⟩

end Scheduler
