import SchedArchive.Custody.Ingest

-- Handing out CHECK and EXECUTE requests keeps every invariant that the moves keep.

open Except Ledger World

namespace Scheduler

variable {L : Type} {S : Scheduler L} {E : Env} {t : Terms L} {F : Fault → Prop}
variable {I : Ledger L → Multiset TransactionKey → Prop} {w w' : World L}
variable {h : Multiset TransactionKey} {id : PriorityId} {r : Request} {rs : List Request}

-- What `pop_next` calls have taken for a batch of checks.
structure Taken (w : World L) (rs : List Request) (w' : World L) : Prop where
  ledger    : w'.toLedger = { w.toLedger with uncheckedTx := w'.uncheckedTx }
  unchecked : w.uncheckedTx =
                ((rs : Multiset Request).filter (·.kind = .firstCheck)).map (·.id) + w'.uncheckedTx
  kinds     : ∀ r ∈ rs, r.kind ≠ .execute
  rechecks  : ∀ r ∈ rs, r.kind = .recheck → r.id ∈ w.checkedTx

theorem Taken.nil (hl : w'.toLedger = w.toLedger) : Taken w [] w' where
  ledger    := by rw [hl]
  unchecked := by simp [hl]
  kinds     := by simp
  rechecks  := by simp

theorem Taken.toLedger_eq (h : Taken w [] w') : w'.toLedger = w.toLedger := by
  have hu := h.unchecked
  simp only [Multiset.coe_nil, Multiset.filter_zero, Multiset.map_zero, zero_add] at hu
  rw [h.ledger, ← hu]

theorem Taken.cons {w₁ : World L} (h₁ : Taken w [r] w₁) (h₂ : Taken w₁ rs w') :
    Taken w (r :: rs) w' where
  ledger := by rw [h₂.ledger, h₁.ledger]
  unchecked := by
    have hu := h₁.unchecked
    rw [h₂.unchecked, ← add_assoc, ← Multiset.map_add, ← Multiset.filter_add] at hu
    exact hu
  kinds := by
    intro r' hr
    rcases List.mem_cons.mp hr with rfl | hr
    · exact h₁.kinds _ List.mem_cons_self
    · exact h₂.kinds r' hr
  rechecks := by
    intro r' hr hk
    rcases List.mem_cons.mp hr with rfl | hr
    · exact h₁.rechecks _ List.mem_cons_self hk
    · have hc := h₂.rechecks r' hr hk
      rw [h₁.ledger] at hc
      exact hc

namespace Lawful

variable (law : S.Lawful)

include law

theorem popNext : (S.popNext w).Ensures (fun (r, w') => Taken w r.toList w') (· = .hang) := by
  unfold Scheduler.popNext
  split
  case h_1 id rest hp =>
    have ⟨hu, _⟩ := Multiset.popMax_eq_some hp
    exact ⟨rfl, by simp [hu, Multiset.filter_singleton], by simp, by simp⟩
  case h_2 =>
    split
    case h_1 => rfl
    case h_2 found cursor hr =>
      cases found
      case none => exact .nil rfl
      case some id =>
        have hc := law.recheck _ _ _ _ _ _ hr
        exact ⟨rfl, by simp [Multiset.filter_singleton], by simp, by simpa using hc⟩

theorem takeNext {n : Nat} :
    (S.takeNext n w).Ensures (fun (rs, w') => Taken w rs w') (· = .hang) := by
  induction n generalizing w
  case zero => exact .nil rfl
  case succ n ih =>
    rw [Scheduler.takeNext, ensures_bind]
    refine law.popNext.imp ?_
    rintro ⟨_ | r, w₁⟩ h₁
    case none => exact h₁
    case some =>
      simp only [ensures_bind]
      refine ih.imp ?_
      rintro ⟨rs, w'⟩ h₂
      exact h₁.cons h₂

end Lawful

-- The rule for the loop of `schedule_checks`: what reading from the queue and sending a batch keep, the
-- whole loop keeps.
theorem ensures_scheduleChecksLoop {J : World L → Prop} {reads : Nat → Nat} {n : Nat}
    (hh : F .hang) (hr : ∀ w k, J w → J (w.workerReads checkWorker k))
    (hb : ∀ w, J w → (S.takeNext maxCheckBatch w).Ensures (fun x => (x.1 = [] → J x.2) ∧
      (x.1 ≠ [] → (x.2.schedule E (checkBatch x.1)).Ensures J F)) F) (hw : J w) :
    (S.scheduleChecksLoop E reads n w).Ensures J F := by
  induction n generalizing reads w
  case zero => exact hh
  case succ n ih =>
    rw [scheduleChecksLoop]
    have hw := hr w (reads 0) hw
    split
    case isFalse => exact hw
    case isTrue =>
      rw [ensures_bind]
      refine (hb _ hw).imp fun x hx => ?_
      dsimp only
      split
      case isTrue hn  => exact hx.left hn
      case isFalse hn =>
        rw [ensures_bind]
        exact (hx.right hn).imp fun _ => ih

-- Marking a batch changes nothing but `executing_tx`.
theorem ensures_foldlM_markExecuting {ids : List PriorityId} : (ids.foldlM markExecuting w).Ensures
    (fun w' => ∃ executing, w' = { w with executingTx := executing }) (fun _ => True) := by
  refine ensures_foldlM (fun w₁ id _ h₁ => ?_) ⟨w.executingTx, rfl⟩
  obtain ⟨executing, rfl⟩ := h₁
  simp only [markExecuting, ensures_bind, ensures_require]
  exact ⟨fun _ => ⟨_, rfl⟩, fun _ => trivial⟩

-- Marking a batch whose transactions are distinct and not executing yet.
theorem foldlM_markExecuting (ids : List PriorityId) (hn : (ids.map (·.key)).Nodup)
    (hx : ∀ k ∈ ids.map (·.key), k ∉ w.executingTx) :
    ids.foldlM markExecuting w =
      .ok { w with executingTx := w.executingTx ∪ (ids.map (·.key)).toFinset } := by
  induction ids generalizing w
  case nil => simp [pure, Except.pure]
  case cons id ids ih =>
    have hk : id.key ∉ w.executingTx := hx _ List.mem_cons_self
    have hm : markExecuting w id = .ok { w with executingTx := insert id.key w.executingTx } := by
      simp [markExecuting, require, hk, bind, Except.bind, pure, Except.pure]
    rw [List.foldlM_cons, hm]
    refine (ih (List.nodup_cons.mp hn).right fun k hk => ?_).trans ?_
    · rw [Finset.mem_insert, not_or]
      refine ⟨?_, hx k <| List.mem_cons_of_mem _ hk⟩
      rintro rfl
      exact (List.nodup_cons.mp hn).left hk
    · simp [Finset.insert_union]

theorem ensures_budgetPercentage :
    (budgetPercentage E w).Ensures (· ≤ 100) (· = .overflow) := by
  unfold budgetPercentage
  dsimp only
  split_ifs
  · exact Nat.min_le_right ..
  · rfl
  · exact Nat.min_le_right ..

theorem budgetLimit_le {percentage : Nat} (h : percentage ≤ 100) :
    budgetLimit percentage ≤ maxBlockUnits := by
  unfold budgetLimit maxBlockUnits
  omega

-- The budget leaves room for the compute units in flight.
theorem ensures_fillBudget (c : w.Metered) :
    (fillBudget E w).Ensures (fun budget => w.inFlightCus + budget ≤ maxBlockUnits)
      (· = .overflow) := by
  have hc := c.bound
  rw [fillBudget, ensures_bind]
  refine ensures_budgetPercentage.imp fun percentage hp => ?_
  have hl := budgetLimit_le hp
  rw [Machine.add_eq_ok (by unfold u64Max; unfold maxBlockUnits at hc ⊢; omega)]
  change w.inFlightCus + (budgetLimit percentage - _) ≤ _
  omega

namespace Kept

variable (K : Kept S.toLockPolicy E t F I)

include K

theorem scheduleChecks (law : S.Lawful) {reads : Nat → Nat} (hi : I w.toLedger h) :
    (S.scheduleChecks E reads w).Ensures (fun w' => I w'.toLedger h) F := by
  rw [Scheduler.scheduleChecks, ensures_bind]
  have hh : F .hang := K.benign _ (by decide) (by decide)
  refine (ensures_scheduleChecksLoop (J := fun w' => I w'.toLedger h) hh (fun _ _ hi => hi) ?_ hi).imp
    fun _ hi => hi
  intro w hi
  refine law.takeNext.mono (fun x ht => ⟨fun hn => ?_, fun _ => ?_⟩) fun f hf => hf ▸ hh
  case refine_1 =>
    rw [(show Taken w [] x.2 from hn ▸ ht).toLedger_eq]
    exact hi
  case refine_2 =>
    refine ensures_schedule.mono (fun w₂ hw => ?_) fun f => K.of_queueFull
    rw [hw, ht.ledger]
    exact K.move (.sendChecks ht.unchecked ht.kinds ht.rechecks) hi

theorem attempt {worker budget : Nat} {x : World L × Nat × List PriorityId} (hi : I w.toLedger h)
    (hs : t.starts) (hb : w.inFlightCus + budget ≤ maxBlockUnits)
    (ha : Attempt S.toLockPolicy E worker budget w x) :
    (x.2.2.foldlM markExecuting x.1).Ensures
      (fun w' => I w'.toLedger h ∧ w'.inFlightCus + x.2.1 ≤ maxBlockUnits) F := by
  cases ha
  case nothing => exact ⟨hi, hb⟩
  case aborted b locks hm hg hl => exact ⟨K.move (.abortBundle hs hm hg hl) hi, hb⟩
  case transaction id locks w' hc hf hg hl hw =>
    have hx : w'.executingTx = w.executingTx := by rw [hw]; rfl
    have hf' := (K.owned hi).fresh_checked hc
    rw [← hx] at hf'
    rw [foldlM_markExecuting [id] (List.nodup_singleton _) hf']
    refine ⟨?_, ?_⟩
    · rw [hx, hw]
      exact K.move (.startTx hs hc hg hl (by omega) rfl rfl) hi
    · have hcus : w'.inFlightCus = w.inFlightCus + id.cost := by rw [hw]
      change w'.inFlightCus + (budget - id.cost) ≤ _
      omega
  case bundle b locks w' hm hf hg hl hw =>
    have hx : w'.executingTx = w.executingTx := by rw [hw]; rfl
    have ho := K.owned hi
    rw [foldlM_markExecuting _ (by rw [keys_bundleIds]; exact ho.nodup_bundle hm)
      (by rw [keys_bundleIds, hx]; exact ho.fresh_bundle hm), keys_bundleIds]
    refine ⟨?_, ?_⟩
    · rw [hx, hw]
      exact K.move (.startBundle hs hm hg hl (by omega) rfl rfl) hi
    · have hcus : w'.inFlightCus = w.inFlightCus + b.cost := by rw [hw]
      change w'.inFlightCus + (budget - b.cost) ≤ _
      omega

theorem attemptFault {f : Fault} (hi : I w.toLedger h) (hs : t.starts)
    (ha : AttemptFault S.toLockPolicy w f) : F f := by
  cases ha
  case queueFull => exact K.of_queueFull rfl
  case transaction hc hg hl => exact (K.locksTx hi hs hc hg).of_error hl
  case bundle hm hg hl => exact (K.locksBundle hi hs hm hg).of_error hl

theorem scheduleWorkers (law : S.Lawful) {workers : List Nat} {budget : Nat} (hi : I w.toLedger h)
    (hs : t.starts) (hb : w.inFlightCus + budget ≤ maxBlockUnits) :
    (S.scheduleWorkers E workers budget w).Ensures (fun w' => I w'.toLedger h) F := by
  induction workers generalizing budget w
  case nil => exact hi
  case cons worker rest ih =>
    unfold Scheduler.scheduleWorkers
    split_ifs
    case pos => exact hi
    case pos => exact ih hi hb
    case neg =>
      rw [ensures_bind]
      refine (law.attempt E worker budget w hb).mono ?_ fun f => K.attemptFault hi hs
      rintro ⟨w₁, budget₁, batch⟩ ha
      have ha := K.attempt hi hs hb ha
      dsimp only at ha ⊢
      split_ifs with hn
      case pos =>
        rw [hn] at ha
        exact ha.left
      case neg =>
        rw [ensures_bind]
        exact ha.imp fun w₂ ⟨hi, hb⟩ => ih (w := w₂.count _) hi hb

theorem scheduleExecute (law : S.Lawful) (hi : I w.toLedger h) (hs : t.starts) :
    (S.scheduleExecute E w).Ensures (fun w' => I w'.toLedger h) F := by
  rw [Scheduler.scheduleExecute, ensures_bind]
  refine (ensures_fillBudget (K.custody hi).metered).mono ?_ fun f => K.of_overflow
  exact fun budget hb => K.scheduleWorkers law hi hs hb

end Kept

end Scheduler
