import SchedArchive.Theorems.Execute

-- What one call of `schedule_execute` sends: how much, to which workers, and in which order.

open Except Ledger

-- A transaction or a bundle that is sent to one worker.
inductive Job
  | transaction (tx : PriorityId)
  | bundle (b : BundleId)
  deriving DecidableEq

namespace Job

def cost : Job → Nat
  | transaction tx => tx.cost
  | bundle b       => b.cost

def priority : Job → Nat
  | transaction tx => tx.priority
  | bundle b       => b.priority

def batch {L : Type} (w : World L) (worker : Nat) : Job → ScheduleBatch
  | transaction tx => Scheduler.transactionBatch w worker tx
  | bundle b       => Scheduler.bundleBatch w worker b

def Waiting {L : Type} (w : World L) : Job → Prop
  | transaction tx => tx ∈ w.checkedTx
  | bundle b       => b ∈ w.bundles

-- The order of priorities, in which a transaction comes before a bundle of the same priority.
def Before : Job → Job → Prop
  | bundle b, transaction tx => tx.priority < b.priority
  | job, job'                => job'.priority ≤ job.priority

theorem Before.priority_le {job job' : Job} (h : job.Before job') : job'.priority ≤ job.priority := by
  cases job <;> cases job'
  case bundle.transaction => exact Nat.le_of_lt h
  all_goals exact h

-- The batch depends on the state only by the slot.
theorem batch_congr {L : Type} {w w' : World L} {worker : Nat} {job : Job}
    (hs : w'.settings = w.settings) : job.batch w' worker = job.batch w worker := by
  have hp : w'.progress = w.progress := congrArg Settings.progress hs
  cases job
  case transaction => simp only [batch, Scheduler.transactionBatch, hp]
  case bundle      => simp only [batch, Scheduler.bundleBatch, hp]

end Job

namespace Scheduler

-- The call comes to an end after some round: the workers or the budget are used up, or nothing that
-- would have to be marked as executing was sent to the worker whose turn it was.
inductive LastRound {L : Type} (S : Scheduler L) (E : Env) (w₀ w' : World L) : Prop
  | done {workers budget} : S.Round E w₀ workers budget w' → LastRound S E w₀ w'
  | idle {worker rest budget budget' w} :
    S.Round E w₀ (worker :: rest) budget w → w.queued worker = 0 →
    S.tryBest E worker budget w = .ok (w', budget', []) → LastRound S E w₀ w'

variable {L : Type} {S : Scheduler L} {E : Env} {locks : L} {w w' w₀ w₁ w₂ : World L}
variable {workers rest : List Nat} {worker budget budget₀ budget₁ : Nat} {jobs : List (Nat × Job)}
variable {job : Job} {x : World L × Nat × List PriorityId}

theorem Round.last (hw : S.Round E w₀ workers budget w)
    (hs : S.scheduleWorkers E workers budget w = .ok w') : LastRound S E w₀ w' := by
  induction workers generalizing budget w
  case nil =>
    cases hs
    exact .done hw
  case cons worker rest ih =>
    rw [scheduleWorkers] at hs
    split_ifs at hs with hb hq
    case pos =>
      cases hs
      exact .done hw
    case pos => exact ih (hw.busy hb hq) hs
    case neg =>
      rw [not_not] at hq
      obtain ⟨⟨w₁, budget₁, batch⟩, ht, hs⟩ := bind_eq_ok.mp hs
      change (if batch = [] then _ else _) = _ at hs
      split_ifs at hs with hn
      case pos =>
        cases hs
        exact .idle hw hq <| hn ▸ ht
      case neg =>
        obtain ⟨w₂, hm, hs⟩ := bind_eq_ok.mp hs
        exact ih (hw.filled hb hq ht hn hm) hs

theorem exists_last_round (hs : S.scheduleExecute E w₀ = .ok w') : LastRound S E w₀ w' := by
  obtain ⟨budget, hb, hs⟩ := bind_eq_ok.mp hs
  exact (Round.start hb).last hs

-- The jobs are what a call has sent by some round, in this order.
structure Dispatched (w₀ w : World L) (jobs : List (Nat × Job)) : Prop where
  settings : w.settings = w₀.settings
  sent     : w.sent = (jobs.map fun j => j.2.batch w₀ j.1).reverse ++ w₀.sent

theorem Dispatched.snoc (h : Dispatched w₀ w jobs) (hv : w'.settings = w.settings)
    (hs : w'.sent = job.batch w worker :: w.sent) : Dispatched w₀ w' (jobs ++ [(worker, job)]) where
  settings := hv.trans h.settings
  sent     := by
    rw [hs, h.sent, Job.batch_congr h.settings, List.map_append, List.reverse_append]
    rfl

section Pacing

-- What an attempt comes to: nothing is sent, or one job that is paid for from the budget.
theorem Attempt.pays {P : LockPolicy L} (ha : Attempt P E worker budget w x) :
    (x.1.sent = w.sent ∧ x.1.inFlightCus = w.inFlightCus ∧ x.2 = (budget, [])) ∨
    ∃ job : Job, x.1.sent = job.batch w worker :: w.sent ∧
      x.1.inFlightCus = w.inFlightCus + job.cost ∧ x.2.1 + job.cost = budget := by
  cases ha
  case nothing => exact .inl ⟨rfl, rfl, rfl⟩
  case aborted => exact .inl ⟨rfl, rfl, rfl⟩
  case transaction id locks w' _ hf _ _ hw =>
    refine .inr ⟨.transaction id, ?_, ?_, Nat.sub_add_cancel hf⟩ <;> rw [hw] <;> rfl
  case bundle b locks w' _ hf _ _ hw =>
    refine .inr ⟨.bundle b, ?_, ?_, Nat.sub_add_cancel hf⟩ <;> rw [hw] <;> rfl

-- What the jobs cost and where they went, when `workers` are still to be visited.
structure Spent (E : Env) (w₀ w : World L) (workers : List Nat) (jobs : List (Nat × Job)) : Prop
    extends Dispatched w₀ w jobs where
  cus     : w.inFlightCus = w₀.inFlightCus + (jobs.map (·.2.cost)).sum
  visited : (jobs.map Prod.fst ++ workers).Sublist (executeWorkers E)
  idle    : ∀ j ∈ jobs, w₀.queued j.1 = 0
  unseen  : ∀ v ∈ workers, w.queued v = w₀.queued v

namespace Spent

theorem nodup (h : Spent E w₀ w workers jobs) : (jobs.map Prod.fst ++ workers).Nodup :=
  h.visited.nodup List.nodup_range'

theorem unseen_of_visits (h : Spent E w₀ w (worker :: rest) jobs) (hv : Visits worker w w') :
    ∀ v ∈ rest, w'.queued v = w₀.queued v := by
  intro v hm
  have hn := (List.nodup_append.mp h.nodup).right.left
  have hne : v ≠ worker := fun he => (List.nodup_cons.mp hn).left <| he ▸ hm
  rw [hv.queued v hne, h.unseen v <| List.mem_cons_of_mem _ hm]

-- One more worker is visited, without a job for it.
theorem pass (h : Spent E w₀ w (worker :: rest) jobs) (hv : Visits worker w w')
    (hs : w'.sent = w.sent) (hc : w'.inFlightCus = w.inFlightCus) : Spent E w₀ w' rest jobs where
  settings := hv.settings.trans h.settings
  sent     := hs.trans h.sent
  cus      := hc.trans h.cus
  visited  := ((List.sublist_cons_self ..).append_left _).trans h.visited
  idle     := h.idle
  unseen   := h.unseen_of_visits hv

theorem fill (h : Spent E w₀ w (worker :: rest) jobs) (hv : Visits worker w w')
    (hq : w.queued worker = 0) (hs : w'.sent = job.batch w worker :: w.sent)
    (hc : w'.inFlightCus = w.inFlightCus + job.cost) :
    Spent E w₀ w' rest (jobs ++ [(worker, job)]) where
  toDispatched := h.toDispatched.snoc hv.settings hs
  cus          := by
    rw [hc, h.cus, List.map_append, List.sum_append, add_assoc]
    rfl
  visited      := by
    rw [List.map_append, List.append_assoc]
    exact h.visited
  idle         := by
    intro j hj
    rcases List.mem_append.mp hj with hj | hj
    · exact h.idle j hj
    · rw [List.mem_singleton.mp hj, ← h.unseen worker List.mem_cons_self, hq]
  unseen       := h.unseen_of_visits hv

end Spent

-- What has been spent by some round is missing from the budget.
theorem Round.spent (hS : S.Known locks) (hi : w₀.Custody E 0 ∧ w₀.Vetted E)
    (hb : fillBudget E w₀ = .ok budget₀) (hw : S.Round E w₀ workers budget w) :
    w.inFlightCus + budget = w₀.inFlightCus + budget₀ ∧ ∃ jobs, Spent E w₀ w workers jobs := by
  induction hw
  case start hf =>
    cases hf.symm.trans hb
    exact ⟨rfl, [], ⟨rfl, rfl⟩, rfl, .refl _, by simp, fun _ _ => rfl⟩
  case busy ih =>
    obtain ⟨he, jobs, hj⟩ := ih
    exact ⟨he, jobs, hj.pass .refl rfl rfl⟩
  case filled worker rest budget w w₁ budget₁ batch w₂ hw _ hq ht hn hm ih =>
    obtain ⟨he, jobs, hj⟩ := ih
    have hk := Kept.round (kept_vetted hS.lockFaults) hS.lawful trivial hi hw
    have ha := (hS.lawful.attempt _ _ _ _ hk.right).of_ok ht
    have hv := (hS.visits_tryBest worker budget w).of_ok ht
    rcases ha.pays with ⟨_, _, hx⟩ | ⟨job, hs, hc, hp⟩
    · exact absurd (congrArg Prod.snd hx) hn
    · have h₁ := hj.fill hv hq hs hc
      -- Marking the job as executing changes nothing of this.
      obtain ⟨executing, rfl⟩ := ensures_foldlM_markExecuting.of_ok hm
      refine ⟨?_, _, ⟨h₁.settings, h₁.sent⟩, h₁.cus, h₁.visited, h₁.idle, h₁.unseen⟩
      change w₁.inFlightCus + budget₁ = _
      change w₁.inFlightCus = _ at hc
      change budget₁ + _ = _ at hp
      omega

theorem LastRound.spent (hS : S.Known locks) (hi : w₀.Custody E 0 ∧ w₀.Vetted E)
    (hb : fillBudget E w₀ = .ok budget₀) (hw : LastRound S E w₀ w') :
    w'.inFlightCus ≤ w₀.inFlightCus + budget₀ ∧ ∃ workers jobs, Spent E w₀ w' workers jobs := by
  cases hw
  case done workers budget hw =>
    obtain ⟨he, jobs, hj⟩ := hw.spent hS hi hb
    exact ⟨by omega, workers, jobs, hj⟩
  case idle worker rest budget budget' w hw hq ht =>
    obtain ⟨he, jobs, hj⟩ := hw.spent hS hi hb
    have hk := Kept.round (kept_vetted hS.lockFaults) hS.lawful trivial hi hw
    have ha := (hS.lawful.attempt _ _ _ _ hk.right).of_ok ht
    have hv := (hS.visits_tryBest worker budget w).of_ok ht
    rcases ha.pays with ⟨hs, hc, _⟩ | ⟨job, hs, hc, hp⟩
    · have h₁ := hj.pass hv hs hc
      change w'.inFlightCus = _ at hc
      exact ⟨by omega, rest, jobs, h₁⟩
    · have h₁ := hj.fill hv hq hs hc
      change w'.inFlightCus = _ at hc
      change budget' + _ = _ at hp
      exact ⟨by omega, rest, _, h₁⟩

-- If there is a budget at all, it is what is missing to the limit.
theorem used_add_budget (hm : w.Metered) (hb : fillBudget E w = .ok budget) (hn : budget ≠ 0) :
    ∃ percentage, budgetPercentage E w = .ok percentage ∧
      maxBlockUnits - w.progress.remainingCostUnits + w.inFlightCus + budget =
        budgetLimit percentage := by
  have hc := hm.bound
  obtain ⟨percentage, hp, hb⟩ := bind_eq_ok.mp hb
  rw [Machine.add_eq_ok (by unfold u64Max; unfold maxBlockUnits at hc ⊢; omega)] at hb
  have hb : budgetLimit percentage -
      (maxBlockUnits - w.progress.remainingCostUnits + w.inFlightCus) = budget := Except.ok.inj hb
  exact ⟨percentage, hp, by omega⟩

-- What a call sent: nothing, or no more than the limit allows, one job to each worker that had
-- nothing to do, and all of it is accounted for.
structure Paced (E : Env) (w w' : World L) (jobs : List (Nat × Job)) : Prop where
  sent    : w'.sent = (jobs.map fun j => j.2.batch w j.1).reverse ++ w.sent
  limit   : jobs = [] ∨ ∃ percentage, budgetPercentage E w = .ok percentage ∧
              maxBlockUnits - w.progress.remainingCostUnits + w'.inFlightCus ≤
                budgetLimit percentage
  once    : (jobs.map Prod.fst).Nodup
  workers : ∀ j ∈ jobs, j.1 ∈ executeWorkers E ∧ w.queued j.1 = 0
  cus     : w'.inFlightCus = w.inFlightCus + (jobs.map (·.2.cost)).sum

theorem Paced.of_no_budget (hb : fillBudget E w = .ok 0) (hs : S.scheduleExecute E w = .ok w') :
    Paced E w w' [] := by
  have hw : w' = w := by
    rw [(Round.start hb).scheduleExecute_eq] at hs
    generalize executeWorkers E = workers at hs
    cases workers <;> exact (Except.ok.inj hs).symm
  subst hw
  exact ⟨rfl, .inl rfl, .nil, by simp, rfl⟩

theorem exists_paced (hS : S.Known locks) (hi : w.Custody E 0 ∧ w.Vetted E)
    (hs : S.scheduleExecute E w = .ok w') : ∃ jobs, Paced E w w' jobs := by
  obtain ⟨budget₀, hb, _⟩ := bind_eq_ok.mp hs
  by_cases hn : budget₀ = 0
  case pos =>
    subst hn
    exact ⟨[], .of_no_budget hb hs⟩
  case neg =>
    obtain ⟨percentage, hp, hl⟩ := used_add_budget hi.left.metered hb hn
    obtain ⟨hc, workers, jobs, hj⟩ := (exists_last_round hs).spent hS hi hb
    refine ⟨jobs, hj.sent, .inr ⟨percentage, hp, by omega⟩, ?_, fun j hm => ⟨?_, hj.idle j hm⟩, hj.cus⟩
    · exact (List.nodup_append.mp hj.nodup).left
    · exact hj.visited.subset <| List.mem_append_left _ <| List.mem_map_of_mem hm

-- However far the slot has progressed and whatever the cutoff is, a call paces itself. In each of its
-- rounds the budget is what the compute units in flight leave of it: it never goes below zero.
theorem schedule_execute_paced (hS : S.Known locks) (hr : S.Reachable E locks w)
    (progress : ProgressMessage) (runtime : RuntimeConfig)
    (hs : S.scheduleExecute E { w with progress := progress, runtime := runtime } = .ok w') :
    (∃ jobs, Paced E { w with progress := progress, runtime := runtime } w' jobs) ∧
    ∀ budget₀ workers budget w₁,
      fillBudget E { w with progress := progress, runtime := runtime } = .ok budget₀ →
      S.Round E { w with progress := progress, runtime := runtime } workers budget w₁ →
      w₁.inFlightCus + budget = w.inFlightCus + budget₀ := by
  have hi := hS.vetted hr
  constructor
  case left => exact exists_paced hS (by exact hi) hs
  case right =>
    intro budget₀ workers budget w₁ hb hw
    exact (hw.spent hS (by exact hi) hb).left

-- Half of the slot has passed, and the only transaction is sent.
theorem schedule_execute_paced_sends :
    ∃ w w' jobs, Sample.auction.Reachable Sample.env AuctionBatchScheduler.initialEngine w ∧
      w'.sent.length = w.sent.length + 1 ∧
      Paced Sample.env { w with progress := Sample.progress true 1 50, runtime := Sample.args.runtime }
        w' jobs := by
  have ⟨w, hr, hs⟩ : ∃ w, Sample.auction.Reachable Sample.env AuctionBatchScheduler.initialEngine w ∧
      (Sample.auction.scheduleExecute Sample.env
        { w with progress := Sample.progress true 1 50, runtime := Sample.args.runtime }).Ensures
        (fun w' => w'.sent.length = w.sent.length + 1) (fun _ => False) :=
    Sample.exists_reach
      (Sample.poll false 1 [] [Sample.tx [(10, true), (11, true)] 999 1000] [.tipConfig ⟨20, 21⟩] ++
        [.checkSlotRoll (some <| Sample.progress true 1 0),
          .workerResponse ⟨⟨999399374, 999, 0⟩, .firstCheck⟩ Sample.passed])
      (by decide +kernel)
  obtain ⟨w', hw, hl⟩ := hs.exists_ok
  obtain ⟨jobs, hj⟩ := (schedule_execute_paced (.auction Sample.libm 0) hr _ _ hw).left
  exact ⟨w, w', jobs, hr, hl, hj⟩

end Pacing

end Scheduler

namespace BatchScheduler

open Scheduler

variable {E : Env} {w w' w₀ : World InFlightLocks} {workers : List Nat} {worker budget : Nat}
variable {jobs : List (Nat × Job)} {job : Job} {tx : PriorityId} {b : BundleId}

-- The job comes before everything that waits, and is sent.
structure Takes (w : World InFlightLocks) (worker : Nat) (job : Job) (w' : World InFlightLocks) :
    Prop where
  waiting : job.Waiting w
  best    : ∀ job' : Job, job'.Waiting w → job.Before job'
  sent    : w'.sent = job.batch w worker :: w.sent
  rest    : ∀ job' : Job, job'.Waiting w' ↔ job'.Waiting w ∧ job' ≠ job

theorem takes_transaction (hl : w.checkedTx.last = some tx)
    (hp : ∀ b ∈ w.bundles, b.priority ≤ tx.priority) :
    (tryScheduleTransaction E worker budget w tx).Ensures
      (fun x => x = (w, budget, []) ∨ Takes w worker (.transaction tx) x.1) (fun _ => True) := by
  obtain ⟨hm, hg⟩ := Finset.last_eq_some_iff.mp hl
  unfold tryScheduleTransaction
  split_ifs
  case pos => exact .inl rfl
  case pos => exact .inl rfl
  case neg =>
    simp only [ensures_bind]
    refine ensures_of_forall fun locks => World.ensures_schedule.mono (fun w₁ hw => ?_) fun _ _ => trivial
    refine ensures_of_forall fun cus => .inr ?_
    constructor
    case waiting => exact hm
    case best =>
      intro job' hj
      cases job'
      case transaction tx' => exact PriorityId.priority_le <| hg tx' hj
      case bundle b        => exact hp b hj
    case sent => exact congrArg Ledger.sent hw
    case rest =>
      intro job'
      have hc : w₁.checkedTx = w.checkedTx := by rw [hw]; rfl
      have hb : w₁.bundles = w.bundles := by rw [hw]; rfl
      cases job' <;> simp [Job.Waiting, hc, hb, and_comm]

theorem takes_bundle (hl : w.bundles.last = some b)
    (hp : ∀ tx ∈ w.checkedTx, tx.priority < b.priority) :
    (tryScheduleBundle E worker budget w b).Ensures
      (fun x => x = (w, budget, []) ∨ Takes w worker (.bundle b) x.1) (fun _ => True) := by
  obtain ⟨hm, hg⟩ := Finset.last_eq_some_iff.mp hl
  unfold tryScheduleBundle
  split_ifs
  case pos => exact .inl rfl
  case pos => exact .inl rfl
  case neg =>
    simp only [ensures_bind]
    refine ensures_of_forall fun locks => World.ensures_schedule.mono (fun w₁ hw => ?_) fun _ _ => trivial
    refine ensures_of_forall fun cus => .inr ?_
    constructor
    case waiting => exact hm
    case best =>
      intro job' hj
      cases job'
      case transaction tx => exact hp tx hj
      case bundle b'      => exact BundleId.priority_le <| hg b' hj
    case sent => exact congrArg Ledger.sent hw
    case rest =>
      intro job'
      have hc : w₁.checkedTx = w.checkedTx := by rw [hw]; rfl
      have hb : w₁.bundles = w.bundles := by rw [hw]; rfl
      cases job' <;> simp [Job.Waiting, hc, hb, and_comm]

theorem takes_tryBest : (tryBest E worker budget w).Ensures
    (fun x => x = (w, budget, []) ∨ ∃ job, Takes w worker job x.1) (fun _ => True) := by
  unfold tryBest
  split
  case h_1 tx b ht hb =>
    have hx := Finset.last_eq_some_iff.mp ht
    have hm := Finset.last_eq_some_iff.mp hb
    split
    case isTrue hp =>
      refine (takes_transaction ht fun b' hb' => ?_).imp fun x hx => hx.imp_right fun h => ⟨_, h⟩
      exact (BundleId.priority_le <| hm.right b' hb').trans hp
    case isFalse hp =>
      refine (takes_bundle hb fun tx' ht' => ?_).imp fun x hx => hx.imp_right fun h => ⟨_, h⟩
      exact (PriorityId.priority_le <| hx.right tx' ht').trans_lt <| not_le.mp hp
  case h_2 tx ht hb =>
    rw [Finset.last_eq_none_iff] at hb
    refine (takes_transaction ht fun b' hb' => ?_).imp fun x hx => hx.imp_right fun h => ⟨_, h⟩
    exact absurd hb' <| hb ▸ Finset.notMem_empty b'
  case h_3 b ht hb =>
    rw [Finset.last_eq_none_iff] at ht
    refine (takes_bundle hb fun tx' ht' => ?_).imp fun x hx => hx.imp_right fun h => ⟨_, h⟩
    exact absurd ht' <| ht ▸ Finset.notMem_empty tx'
  case h_4 => exact .inl rfl

-- In which order the jobs were sent, and what they have left behind.
structure InOrder (w₀ w : World InFlightLocks) (jobs : List (Nat × Job)) : Prop
    extends Dispatched w₀ w jobs where
  waiting : ∀ job : Job, job.Waiting w ↔ job.Waiting w₀ ∧ job ∉ jobs.map Prod.snd
  taken   : ∀ j ∈ jobs, j.2.Waiting w₀
  ordered : (jobs.map Prod.snd).Pairwise Job.Before
  behind  : ∀ j ∈ jobs, ∀ job : Job, job.Waiting w → j.2.Before job

namespace InOrder

theorem refl : InOrder w w [] where
  toDispatched := ⟨rfl, rfl⟩
  waiting      := by simp
  taken        := by simp
  ordered      := .nil
  behind       := by simp

-- The next job comes after those already sent, as it was still waiting then.
theorem take (h : InOrder w₀ w jobs) (hv : Visits worker w w') (ht : Takes w worker job w') :
    InOrder w₀ w' (jobs ++ [(worker, job)]) where
  toDispatched := h.toDispatched.snoc hv.settings ht.sent
  waiting      := by
    intro job'
    simp [ht.rest, h.waiting, and_assoc]
  taken        := by
    intro j hm
    rcases List.mem_append.mp hm with hm | hm
    · exact h.taken j hm
    · rw [List.mem_singleton.mp hm]
      exact ((h.waiting job).mp ht.waiting).left
  ordered      := by
    rw [List.map_append, List.pairwise_append]
    refine ⟨h.ordered, List.pairwise_singleton .., fun job₁ hm job₂ hm' => ?_⟩
    obtain ⟨j, hj, rfl⟩ := List.mem_map.mp hm
    rw [List.mem_singleton.mp hm']
    exact h.behind j hj job ht.waiting
  behind       := by
    intro j hm job' hw
    have hw := ((ht.rest job').mp hw).left
    rcases List.mem_append.mp hm with hm | hm
    · exact h.behind j hm job' hw
    · rw [List.mem_singleton.mp hm]
      exact ht.best job' hw

end InOrder

theorem inOrder_round (hw : scheduler.Round E w₀ workers budget w) : ∃ jobs, InOrder w₀ w jobs := by
  induction hw
  case start => exact ⟨[], .refl⟩
  case busy ih => exact ih
  case filled worker rest budget w w₁ budget₁ batch w₂ hw _ hq ht hn hm ih =>
    obtain ⟨jobs, hj⟩ := ih
    have hv := visits_tryBest.of_ok ht
    rcases takes_tryBest.of_ok ht with hx | ⟨job, hx⟩
    · exact absurd (congrArg (·.2.2) hx) hn
    · have h₁ := hj.take hv hx
      obtain ⟨executing, rfl⟩ := ensures_foldlM_markExecuting.of_ok hm
      exact ⟨_, ⟨h₁.settings, h₁.sent⟩, h₁.waiting, h₁.taken, h₁.ordered, h₁.behind⟩

-- In whatever state and with however many workers, a call sends jobs in the order of their
-- priorities, and leaves behind nothing of a higher priority than any of them.
theorem schedule_execute_in_order (hs : scheduler.scheduleExecute E w = .ok w') :
    ∃ jobs : List (Nat × Job), w'.sent = (jobs.map fun j => j.2.batch w j.1).reverse ++ w.sent ∧
      (∀ job : Job, job.Waiting w' ↔ job.Waiting w ∧ job ∉ jobs.map Prod.snd) ∧
      (∀ j ∈ jobs, j.2.Waiting w) ∧ (jobs.map Prod.snd).Pairwise Job.Before ∧
      ∀ j ∈ jobs, ∀ job : Job, job.Waiting w' → job.priority ≤ j.2.priority := by
  have hj : ∃ jobs, InOrder w w' jobs := by
    cases exists_last_round hs
    case done hw => exact inOrder_round hw
    case idle hw _ ht =>
      obtain ⟨jobs, hj⟩ := inOrder_round hw
      rcases takes_tryBest.of_ok ht with hx | ⟨job, hx⟩
      · cases hx
        exact ⟨jobs, hj⟩
      · exact ⟨_, hj.take (visits_tryBest.of_ok ht) hx⟩
  obtain ⟨jobs, hj⟩ := hj
  refine ⟨jobs, hj.sent, hj.waiting, hj.taken, hj.ordered, fun j hm job hw => ?_⟩
  exact (hj.behind j hm job hw).priority_le

-- A transaction and a bundle of the same priority, and two workers.
def tied : World InFlightLocks :=
  { Sample.world ∅ with
    data      := fun k => Sample.tx [(20 + BitVec.ofNat 256 k, true)] 100 1000
    checkedTx := {⟨7, 100, 0⟩}
    bundles   := {⟨7, 200, 0, [1, 2]⟩} }

theorem schedule_execute_in_order_tied :
    ∃ w', scheduler.scheduleExecute Sample.env tied = .ok w' ∧ w'.sent.length = 2 ∧
      ∃ jobs : List (Nat × Job), w'.sent = (jobs.map fun j => j.2.batch tied j.1).reverse ∧
        (jobs.map Prod.snd).Pairwise Job.Before := by
  have hs : (scheduler.scheduleExecute Sample.env tied).Ensures (·.sent.length = 2)
      (fun _ => False) := by decide +kernel
  obtain ⟨w', hw, hl⟩ := hs.exists_ok
  obtain ⟨jobs, hj, _, _, ho, _⟩ := schedule_execute_in_order hw
  exact ⟨w', hw, hl, jobs, hj.trans (List.append_nil _), ho⟩

end BatchScheduler
