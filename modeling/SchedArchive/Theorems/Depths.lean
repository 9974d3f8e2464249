import SchedArchive.Theorems.Attempts

-- Whether the queue depths go back to where they came from.

open Except Ledger Scheduler

namespace Sample

-- A transaction is checked, which resolves a third account, fails its recheck in the next slot and is
-- dropped.
def resolvedAndDropped : List Event :=
  let tx := { tx [(10, true), (11, true)] 999 1000 with lookups := [(12, true)] }
  let found := .check ⟨.done, .done, .done, .done⟩ (some [12])
  poll false 1 [] [tx] [] ++
    poll false 1 [(⟨⟨999399374, 999, 0⟩, .firstCheck⟩, found)] [] [] ++
    poll false 2 [] [] [] ++
    poll false 2 [(⟨⟨999399374, 999, 0⟩, .recheck⟩, expired)] [] []

end Sample

namespace AuctionBatchScheduler

variable {E : Env} {w : World Engine} {worker budget : Nat} {e : Event}
variable {libm : AuctionEngine.Libm ℚ} {minScore : Nat}

-- Neither a bundle nor a transaction is tried: the best bundle is blocked, and either no transaction
-- can be sent or that bundle outranks them all.
def NothingToSend (w : World Engine) (budget : Nat) : Prop :=
  (∀ b ∈ w.bundles.last, Blocked w budget b) ∧
  ((∀ tx ∈ w.checkedTx, ¬Schedulable w budget tx) ∨
    ∃ tx ∈ w.checkedTx.last, ∃ b ∈ w.bundles.last, tx.priority < b.priority)

-- `schedule_execute` finds nothing to do: no budget, no idle worker, or nothing to send.
def Idle (E : Env) (w : World Engine) : Prop :=
  (fillBudget E w).Ensures (fun budget => budget = 0 ∨
    (∀ worker ∈ executeWorkers E, w.queued worker ≠ 0) ∨ NothingToSend w budget) (fun _ => True)

instance (w : World Engine) (budget : Nat) : Decidable (NothingToSend w budget) :=
  inferInstanceAs <| Decidable (_ ∧ _)

instance (E : Env) (w : World Engine) : Decidable (Idle E w) :=
  inferInstanceAs <| Decidable (Ensures _ _ _)

theorem tryScheduleTransaction_none (hn : ∀ tx ∈ w.checkedTx, ¬Schedulable w budget tx) :
    tryScheduleTransaction E worker budget w = .ok (w, budget, []) := by
  unfold tryScheduleTransaction
  split
  case h_1 => rfl
  case h_2 tx ht =>
    have hs := findTransaction_eq_some ht
    exact absurd hs <| hn tx hs.left

theorem tryBest_nothing (hn : NothingToSend w budget) :
    tryBest E worker budget w = .ok (w, budget, []) := by
  have ⟨hb, ht⟩ := hn
  unfold tryBest
  split
  case h_1 tx b hl hm =>
    have hb := tryScheduleBundle_blocked E worker <| hb b hm
    split
    case isFalse => exact hb
    case isTrue hp =>
      have ht := ht.resolve_right fun ⟨tx', hl', b', hm', hp'⟩ => by
        cases hl.symm.trans hl'
        cases hm.symm.trans hm'
        omega
      rw [tryScheduleTransaction_none ht]
      exact hb
  case h_2 hl hm =>
    refine tryScheduleTransaction_none <| ht.resolve_right fun ⟨_, _, b, hm', _⟩ => ?_
    exact nomatch hm.symm.trans hm'
  case h_3 hm => exact tryScheduleBundle_blocked E worker <| hb _ hm
  case h_4 => rfl

theorem scheduleWorkers_idle {workers : List Nat} (hi : budget = 0 ∨
    (∀ worker ∈ workers, w.queued worker ≠ 0) ∨ NothingToSend w budget) :
    (scheduler libm minScore).scheduleWorkers E workers budget w = .ok w := by
  induction workers
  case nil => rfl
  case cons worker rest ih =>
    rw [scheduleWorkers]
    split_ifs with hz hq
    case pos => rfl
    case pos =>
      refine ih <| hi.imp_right <| Or.imp_left fun hb worker' hm => ?_
      exact hb worker' <| List.mem_cons_of_mem _ hm
    case neg =>
      rcases hi with hi | hb | hn
      · exact absurd hi hz
      · exact absurd (hb worker List.mem_cons_self) hq
      · have ht : (scheduler libm minScore).tryBest E worker budget w = .ok (w, budget, []) :=
          tryBest_nothing hn
        rw [ht]
        rfl

theorem scheduleExecute_idle (c : w.Metered) (hi : Idle E w) :
    ((scheduler libm minScore).scheduleExecute E w).Ensures (·.toLedger = w.toLedger)
      (· = .overflow) := by
  rw [scheduleExecute, ensures_bind]
  refine (ensures_fillBudget c).with_eq.imp fun budget hw => ?_
  obtain ⟨hb, _⟩ := hw
  rw [scheduleWorkers_idle <| hi.of_ok hb]
  rfl

-- No time passes between ticks. The first tick counts as a millisecond, which does not matter as
-- long as nothing is queued.
def DecayOff (w : World Engine) : Event → Prop
  | .processTick =>
    w.locks.elapsedMs w.now = 0 ∨ w.locks.lockManager.queueDepths = ∅
  | _ => True

instance (w : World Engine) : DecidablePred (DecayOff w)
  | .processTick => inferInstanceAs <| Decidable (_ ∨ _)
  | .checkSlotRoll _ | .clock _ | .workerReads _ | .setRuntimeConfig _ | .updateBasePrices _
  | .workerResponse _ _ | .drainTpu _ _ | .dropExpiredBundles | .drainJito _ _ | .scheduleChecks _
  | .scheduleExecute | .restartRecheck => isTrue trivial

-- Nothing is tried for execution.
def NothingTried (E : Env) (w : World Engine) : Event → Prop
  | .scheduleExecute => Idle E w
  | _                => True

instance (E : Env) (w : World Engine) : DecidablePred (NothingTried E w)
  | .scheduleExecute => inferInstanceAs <| Decidable (Idle E w)
  | .checkSlotRoll _ | .clock _ | .workerReads _ | .setRuntimeConfig _ | .updateBasePrices _
  | .workerResponse _ _ | .processTick | .drainTpu _ _ | .dropExpiredBundles | .drainJito _ _
  | .scheduleChecks _ | .restartRecheck => isTrue trivial

def idleTerms : Terms Engine where
  brings _      := True
  reprices s s' := s'.lockManager.queueDepths = s.lockManager.queueDepths
  tips          := True
  starts        := False

theorem lookup_tick {a : Pubkey} :
    ((scheduler libm minScore).tick w).locks.lockManager.queueDepths.lookup a =
      (w.locks.lockManager.queueDepths.lookup a).bind fun depth =>
        let factor := libm.powf (1 - w.locks.lockManager.decayRate) (w.locks.elapsedMs w.now / 1000)
        if 1 / 100 < depth * factor then some (depth * factor) else none :=
  Finmap.lookup_filterMapValues ..

-- Without decay, depths of at least 1 stay as they are.
theorem queueDepths_tick (hp : ∀ x, libm.powf x 0 = 1) {d : Pubkey → Nat}
    (hd : Reflects w.locks.lockManager d) (ho : DecayOff w .processTick) :
    ((scheduler libm minScore).tick w).locks.lockManager.queueDepths =
      w.locks.lockManager.queueDepths := by
  refine Finmap.ext_lookup fun a => ?_
  rw [lookup_tick]
  rcases ho with he | he
  case inr => simp [he]
  case inl =>
    rw [he, zero_div, hp, hd a]
    split
    case isTrue  => rfl
    case isFalse hn =>
      have hg : (1 / 100 : ℚ) < d a := by
        have : (1 : ℚ) ≤ d a := by exact_mod_cast Nat.one_le_iff_ne_zero.mpr hn
        linarith
      simp only [Option.bind_some, mul_one]
      exact if_pos hg

theorem within_idleTerms (hp : ∀ x, libm.powf x 0 = 1) (c : w.Custody E 0)
    (hd : Covered w.toLedger) (ho : DecayOff w e) (hi : NothingTried E w e) :
    (scheduler libm minScore).Within E idleTerms w e where
  brings _ _ := trivial
  tips _ _   := .inl trivial
  starts he  := .inr <| scheduleExecute_idle c.metered <| by subst he; exact hi
  ticks he   := by
    obtain ⟨_, hr, _⟩ := hd
    exact queueDepths_tick hp hr <| he ▸ ho
  prices _ _ := rfl

theorem kept_covered : Kept lockPolicy E idleTerms (¬·.IsCustody)
    (fun l h => l.Custody E h ∧ Covered l) :=
  lockFaults.kept And.left
    (fun m c => ⟨c.left.move m, covered_move c.left.owned (fun _ _ => id) id c.right m⟩)
    fun _ _ => trivial

theorem covered_empty : Covered (empty initialEngine) := by
  refine ⟨fun _ => 0, fun a => ?_, fun a => Nat.zero_le _⟩
  simp [initialEngine, AuctionEngine.new, AuctionEngine.LockManager.withDecayRate, empty]

theorem demand_empty (hc : w.checkedTx = ∅) (hb : w.bundles = ∅) (a : Pubkey) :
    demand w.toLedger a = 0 := by
  simp [demand, queuedKeys, keysIn, hc, hb]

-- As long as nothing is tried for execution, the queue depths are covered by what is queued. Hence
-- there are none left once the scheduler has nothing queued, executing or deferred.
theorem queue_depths_balanced (hp : ∀ x, libm.powf x 0 = 1)
    (hr : (scheduler libm minScore).Reach E initialEngine
      (fun w e => DecayOff w e ∧ NothingTried E w e) w)
    (hc : w.checkedTx = ∅) (hb : w.bundles = ∅) (_hx : w.executingTx = ∅) (_hd : w.deferredTx = []) :
    w.locks.lockManager.queueDepths = ∅ := by
  have ⟨_, d, hd, hle⟩ := kept_covered.reach lawful ⟨custody_empty, covered_empty⟩
    (fun w e c hw => within_idleTerms hp c.left c.right hw.left hw.right) hr
  refine Finmap.eq_empty_iff_lookup.mpr fun a => ?_
  have hz : d a = 0 := Nat.le_zero.mp <| demand_empty hc hb a ▸ hle a
  rw [hd a, if_pos hz]

theorem queue_depths_balanced_recheck :
    ∃ w, Sample.auction.Reach Sample.env initialEngine
        (fun w e => DecayOff w e ∧ NothingTried Sample.env w e) w ∧
      w.inserted = 1 ∧ w.locksOf 0 = [(10, true), (11, true), (12, true)] ∧
      w.locks.lockManager.queueDepths = ∅ := by
  have ⟨w, hr, hi, hl, hc, hb, hx, hd⟩ :
      ∃ w, Sample.auction.Reach Sample.env initialEngine
          (fun w e => DecayOff w e ∧ NothingTried Sample.env w e) w ∧
        w.inserted = 1 ∧ w.locksOf 0 = [(10, true), (11, true), (12, true)] ∧ w.checkedTx = ∅ ∧
        w.bundles = ∅ ∧ w.executingTx = ∅ ∧ w.deferredTx = [] :=
    Sample.exists_reach Sample.resolvedAndDropped (by decide +kernel)
  exact ⟨w, hr, hi, hl, queue_depths_balanced (fun _ => rfl) hr hc hb hx hd⟩

-- A transaction is checked, executed and included, and so are the two tip transactions.
theorem queue_depths_leaked :
    ∃ w, Sample.auction.Reach Sample.env initialEngine DecayOff w ∧ w.checkedTx = ∅ ∧ w.bundles = ∅ ∧
      w.executingTx = ∅ ∧ w.deferredTx = [] ∧ w.locks.lockManager.queueDepths ≠ ∅ :=
  Sample.exists_reach
    (Sample.poll false 1 [] [Sample.tx [(10, true), (11, true)] 999 1000] [.tipConfig ⟨20, 21⟩] ++
      Sample.poll true 1 [(⟨⟨999399374, 999, 0⟩, .firstCheck⟩, Sample.passed)] [] [] ++
      Sample.poll true 1 [(⟨⟨999399374, 999, 0⟩, .execute⟩, .execute ⟨1, .none⟩),
        (tipRequest 1, .execute ⟨1, .none⟩), (tipRequest 2, .execute ⟨1, .none⟩)] [] [])
    (by decide +kernel)

end AuctionBatchScheduler
