import SchedArchive.Theorems.Termination

-- The sweep of `BatchScheduler` through its checked transactions, from the highest to the lowest, in
-- which each of them is checked once more.

namespace BatchScheduler

open Except Scheduler

variable {E : Env} {w w' w₀ w₁ w₂ : World InFlightLocks} {ws : List (World InFlightLocks)} {n : Nat}
variable {checked : Finset PriorityId} {executing : Finset TransactionKey}
variable {cursor : Option PriorityId} {start curr id : PriorityId} {ids ids' : List PriorityId}
variable {r : Option Request} {rs : List Request}

section Cursor

-- The transactions that can still be rechecked from a cursor on.
def due (checked : Finset PriorityId) (executing : Finset TransactionKey) :
    Option PriorityId → Finset PriorityId
  | none      => ∅
  | some curr => checked.filter fun id => id ≤ curr ∧ id.key ∉ executing

theorem mem_due : id ∈ due checked executing cursor ↔
    id ∈ checked ∧ id.key ∉ executing ∧ ∃ curr ∈ cursor, id ≤ curr := by
  cases cursor
  case none => simp [due]
  case some => simp [due, and_comm]

-- Nothing is lost when the cursor moves on from a transaction that cannot be rechecked.
theorem due_below (hs : curr ∉ checked ∨ curr.key ∈ executing) :
    due checked executing (checked.below curr) = due checked executing (some curr) := by
  ext id
  simp only [mem_due, Option.mem_def, Option.some.injEq, exists_eq_left']
  refine and_congr_right fun hc => and_congr_right fun hx => ?_
  constructor
  case mp =>
    rintro ⟨next, hn, hle⟩
    exact hle.trans (Finset.below_eq_some_iff.mp hn).left.right.le
  case mpr =>
    intro hle
    refine Finset.exists_below hc <| lt_of_le_of_ne hle fun he => ?_
    subst he
    exact hs.elim (fun h => h hc) hx

-- The next transaction is the highest that is due, and the one below it is the next cursor.
theorem popRecheck_eq (hc : ∀ curr ∈ cursor, curr ∈ checked) (hn : stops checked cursor < n) :
    popRecheck checked executing n cursor = some ((due checked executing cursor).last,
      (due checked executing cursor).last.bind checked.below) := by
  induction n generalizing cursor
  case zero => exact absurd hn <| Nat.not_lt_zero _
  case succ n ih =>
    cases cursor
    case none =>
      have hl : (∅ : Finset PriorityId).last = none := Finset.last_eq_none_iff.mpr rfl
      rw [due, hl]
      rfl
    case some curr =>
      have hm := hc curr rfl
      rw [popRecheck]
      split
      case isTrue hs =>
        rw [← due_below hs]
        refine ih (fun next hn => (Finset.below_eq_some_iff.mp hn).left.left) ?_
        exact (stops_below_lt hm).trans_le <| Nat.le_of_lt_succ hn
      case isFalse hs =>
        have hl : (due checked executing (some curr)).last = some curr := by
          rw [not_or, not_not] at hs
          refine Finset.last_eq_some_iff.mpr ⟨mem_due.mpr ⟨hm, hs.right, curr, rfl, le_rfl⟩, ?_⟩
          intro id hd
          obtain ⟨_, _, curr', hc', hle⟩ := mem_due.mp hd
          cases hc'
          exact hle
        rw [hl]
        rfl

-- Also from a cursor that left `checked_tx`, all iterations come to an end.
theorem popRecheck_returns (hn : checked.card + 2 ≤ n) :
    popRecheck checked executing n cursor = some ((due checked executing cursor).last,
      (due checked executing cursor).last.bind checked.below) := by
  by_cases hm : ∀ curr ∈ cursor, curr ∈ checked
  case pos =>
    refine popRecheck_eq hm ?_
    have := stops_le_card checked cursor
    omega
  case neg =>
    obtain ⟨curr, rfl, hs⟩ : ∃ curr, cursor = some curr ∧ curr ∉ checked := by simpa using hm
    obtain ⟨n, rfl⟩ : ∃ k, n = k + 1 := ⟨n - 1, by omega⟩
    rw [popRecheck, if_pos (.inl hs), ← due_below (.inl hs)]
    refine popRecheck_eq (fun next hb => (Finset.below_eq_some_iff.mp hb).left.left) ?_
    have := stops_le_card checked (checked.below curr)
    omega

end Cursor

section Advance

-- The transaction is not above the cursor.
def Ahead (w : World InFlightLocks) (id : PriorityId) : Prop :=
  ∃ curr ∈ w.nextRecheck, id ≤ curr

def rechecksIn (rs : List Request) : List PriorityId :=
  (rs.filter (·.kind = .recheck)).map Request.id

-- The cursor moves down past the transactions `ids`, and leaves out none that could be rechecked.
structure Advance (w : World InFlightLocks) (ids : List PriorityId) (w' : World InFlightLocks) :
    Prop where
  checkedTx   : w'.checkedTx = w.checkedTx
  executingTx : w'.executingTx = w.executingTx
  fresh       : ∀ id ∈ ids, id ∈ w.checkedTx ∧ id.key ∉ w.executingTx ∧ Ahead w id
  descending  : ids.Pairwise (· > ·)
  cursor      : ∀ curr ∈ w'.nextRecheck, (∀ id ∈ ids, curr < id) ∧ Ahead w curr
  covers      : ∀ id ∈ w.checkedTx, id.key ∉ w.executingTx → Ahead w id → id ∈ ids ∨ Ahead w' id

namespace Advance

-- As long as the cursor stays where it is.
theorem stay (hc : w'.checkedTx = w.checkedTx) (hx : w'.executingTx = w.executingTx)
    (hn : w'.nextRecheck = w.nextRecheck) : Advance w [] w' where
  checkedTx    := hc
  executingTx  := hx
  fresh        := by simp
  descending   := .nil
  cursor curr h := ⟨by simp, curr, hn ▸ h, le_rfl⟩
  covers id _ _ h := .inr <| by rwa [Ahead, hn]

theorem ahead (h : Advance w ids w') (ha : Ahead w' id) : Ahead w id := by
  obtain ⟨curr, hm, hle⟩ := ha
  obtain ⟨curr', hm', hle'⟩ := (h.cursor curr hm).right
  exact ⟨curr', hm', hle.trans hle'⟩

theorem lt_of_ahead (h : Advance w ids w') (ha : Ahead w' id) : ∀ id' ∈ ids, id < id' := by
  obtain ⟨curr, hm, hle⟩ := ha
  exact fun id' hi => hle.trans_lt <| (h.cursor curr hm).left id' hi

theorem trans (h₁ : Advance w ids w₁) (h₂ : Advance w₁ ids' w₂) : Advance w (ids ++ ids') w₂ where
  checkedTx   := h₂.checkedTx.trans h₁.checkedTx
  executingTx := h₂.executingTx.trans h₁.executingTx
  fresh id hm := by
    rcases List.mem_append.mp hm with hm | hm
    · exact h₁.fresh id hm
    · obtain ⟨hc, hx, ha⟩ := h₂.fresh id hm
      exact ⟨h₁.checkedTx ▸ hc, h₁.executingTx ▸ hx, h₁.ahead ha⟩
  descending  := by
    refine List.pairwise_append.mpr ⟨h₁.descending, h₂.descending, fun id hm id' hm' => ?_⟩
    exact h₁.lt_of_ahead (h₂.fresh id' hm').right.right id hm
  cursor curr hm := by
    obtain ⟨hl, ha⟩ := h₂.cursor curr hm
    refine ⟨fun id hi => ?_, h₁.ahead ha⟩
    rcases List.mem_append.mp hi with hi | hi
    · exact h₁.lt_of_ahead ha id hi
    · exact hl id hi
  covers id hc hx ha := by
    rcases h₁.covers id hc hx ha with hm | ha
    · exact .inl <| List.mem_append_left _ hm
    · refine (h₂.covers id (h₁.checkedTx ▸ hc) (h₁.executingTx ▸ hx) ha).imp_left fun hm => ?_
      exact List.mem_append_right _ hm

end Advance

-- The cursor has nothing left to stop at.
theorem advance_end (hd : due w.checkedTx w.executingTx w.nextRecheck = ∅) :
    Advance w [] { w with nextRecheck := none } where
  checkedTx   := rfl
  executingTx := rfl
  fresh       := by simp
  descending  := .nil
  cursor      := by simp
  covers id hc hx ha := absurd (mem_due.mpr ⟨hc, hx, ha⟩) <| hd ▸ Finset.notMem_empty id

-- The cursor stops at the highest transaction that is due.
theorem advance_next (hd : (due w.checkedTx w.executingTx w.nextRecheck).last = some id) :
    Advance w [id] { w with nextRecheck := w.checkedTx.below id } := by
  obtain ⟨hm, hg⟩ := Finset.last_eq_some_iff.mp hd
  obtain ⟨hc, hx, ha⟩ := mem_due.mp hm
  constructor
  case checkedTx   => rfl
  case executingTx => rfl
  case fresh       => simpa using ⟨hc, hx, ha⟩
  case descending  => exact List.pairwise_singleton ..
  case cursor =>
    intro next hn
    have hlt : next < id := (Finset.below_eq_some_iff.mp hn).left.right
    obtain ⟨curr, hcu, hle⟩ := ha
    exact ⟨by simpa using hlt, curr, hcu, hlt.le.trans hle⟩
  case covers =>
    intro id' hc' hx' ha'
    rcases (hg id' <| mem_due.mpr ⟨hc', hx', ha'⟩).eq_or_lt with rfl | hlt
    · exact .inl <| List.mem_singleton.mpr rfl
    · exact .inr <| Finset.exists_below hc' hlt

-- The cursor is used if there are no unchecked transactions.
theorem advance_popNext : (scheduler.popNext w).Ensures (fun x => x.2.sent = w.sent ∧
    Advance w (rechecksIn x.1.toList) x.2 ∧ remaining x.2 + x.1.toList.length ≤ remaining w)
    (fun _ => False) := by
  rw [popNext]
  split
  case h_1 id rest hp =>
    obtain ⟨hu, _⟩ := Multiset.popMax_eq_some hp
    refine ⟨rfl, .stay rfl rfl rfl, ?_⟩
    simp only [remaining, hu, Multiset.card_cons, Option.toList_some, List.length_singleton]
    omega
  case h_2 =>
    have hp : scheduler.popRecheck w.checkedTx w.executingTx (w.checkedTx.card + 2) w.nextRecheck =
      _ := popRecheck_returns le_rfl
    rw [hp]
    cases hd : (due w.checkedTx w.executingTx w.nextRecheck).last
    case none    =>
      exact ⟨rfl, advance_end <| Finset.last_eq_none_iff.mp hd, Nat.add_le_add_left (Nat.zero_le _) _⟩
    case some id =>
      refine ⟨rfl, advance_next hd, ?_⟩
      obtain ⟨hc, _, curr, hn, hle⟩ := mem_due.mp (Finset.last_eq_some_iff.mp hd).left
      have hl := (stops_below_lt hc).trans_le <| stops_mono w.checkedTx hle
      simp only [remaining, Option.mem_def.mp hn, Option.bind_some, Option.map_some,
        Option.toList_some, List.length_singleton]
      omega

theorem rechecksIn_cons {r : Request} :
    rechecksIn (r :: rs) = rechecksIn [r] ++ rechecksIn rs := by
  simp only [rechecksIn, List.filter_cons, List.filter_nil]
  split <;> rfl

theorem rechecksIn_append {rs' : List Request} :
    rechecksIn (rs ++ rs') = rechecksIn rs ++ rechecksIn rs' := by
  simp [rechecksIn]

theorem advance_takeNext : (scheduler.takeNext n w).Ensures (fun x => x.2.sent = w.sent ∧
    Advance w (rechecksIn x.1) x.2 ∧ remaining x.2 + x.1.length ≤ remaining w) (fun _ => False) := by
  induction n generalizing w
  case zero => exact ⟨rfl, .stay rfl rfl rfl, le_rfl⟩
  case succ n ih =>
    rw [takeNext, ensures_bind]
    refine advance_popNext.imp fun x hx => ?_
    obtain ⟨r, w₁⟩ := x
    obtain ⟨hs, ha, hm⟩ := hx
    cases r
    case none => exact ⟨hs, ha, hm⟩
    case some r =>
      dsimp only
      rw [ensures_bind]
      refine ih.imp fun y hy => ?_
      obtain ⟨hs', ha', hm'⟩ := hy
      rw [ensures_pure, rechecksIn_cons]
      refine ⟨hs'.trans hs, ha.trans ha', ?_⟩
      change remaining w₁ + 1 ≤ _ at hm
      change remaining y.2 + (y.1.length + 1) ≤ _
      omega

-- What the batches of one call of `schedule_checks` recheck.
def rechecks (batches : List ScheduleBatch) : List PriorityId :=
  rechecksIn <| batches.flatMap ScheduleBatch.transactions

theorem rechecks_append {batches : List ScheduleBatch} :
    rechecks (batches ++ [checkBatch rs]) = rechecks batches ++ rechecksIn rs := by
  rw [rechecks, List.flatMap_append, rechecksIn_append, List.flatMap_singleton]
  rfl

theorem advance_scheduleChecks {reads : Nat → Nat} : (scheduler.scheduleChecks E reads w).Ensures
    (fun w' => ∃ batches, w'.sent = batches.reverse ++ w.sent ∧ Advance w (rechecks batches) w')
    (fun _ => True) := by
  rw [scheduleChecks, ensures_bind]
  refine (ensures_scheduleChecksLoop (J := fun w' => ∃ batches,
    w'.sent = batches.reverse ++ w.sent ∧ Advance w (rechecks batches) w') trivial ?_ ?_
      ⟨[], rfl, .stay rfl rfl rfl⟩).imp fun w' hw => ?_
  case refine_1 =>
    rintro w₁ k ⟨batches, hb, ha⟩
    exact ⟨batches, hb, ha.1, ha.2, ha.3, ha.4, ha.5, ha.6⟩
  case refine_2 =>
    rintro w₁ ⟨batches, hb, ha⟩
    refine advance_takeNext.mono (fun x hx => ?_) fun _ _ => trivial
    obtain ⟨hs, ha', _⟩ := hx
    have ha := ha.trans ha'
    refine ⟨fun hr => ⟨batches, hs.trans hb, ?_⟩, fun _ => ?_⟩
    · rw [hr] at ha
      exact (List.append_nil (rechecks batches)) ▸ ha
    · simp only [World.schedule, ensures_bind, ensures_require, ensures_pure]
      refine ⟨fun _ => ⟨batches ++ [checkBatch x.1], ?_, ?_⟩, fun _ => trivial⟩
      · rw [List.reverse_append, List.append_assoc, ← hb, ← hs]
        rfl
      · rw [rechecks_append]
        exact ⟨ha.1, ha.2, ha.3, ha.4, ha.5, ha.6⟩
  case refine_3 =>
    obtain ⟨batches, hb, ha⟩ := hw
    exact ⟨batches, hb, ha.1, ha.2, ha.3, ha.4, ha.5, ha.6⟩

end Advance

section Sweep

-- A sweep from the cursor `start` on: the states in it so far, from the last one back to the first,
-- and the transactions that have been rechecked. Between two calls of `schedule_checks` anything
-- may change but the cursor, until the last call leaves none.
inductive Sweep (E : Env) (start : PriorityId) :
    List (World InFlightLocks) → List PriorityId → Prop
  | start {w : World InFlightLocks} : w.nextRecheck = some start → Sweep E start [w] []
  | change {w w' : World InFlightLocks} {ws : List (World InFlightLocks)} {ids : List PriorityId} :
    Sweep E start (w :: ws) ids → w.nextRecheck ≠ none → w'.nextRecheck = w.nextRecheck →
    Sweep E start (w' :: w :: ws) ids
  | checks {w w' : World InFlightLocks} {ws : List (World InFlightLocks)} {ids : List PriorityId}
    {batches : List ScheduleBatch} {reads : Nat → Nat} :
    Sweep E start (w :: ws) ids → w.nextRecheck ≠ none →
    scheduler.scheduleChecks E reads w = .ok w' →
    w'.sent = batches.reverse ++ w.sent → Sweep E start (w' :: w :: ws) (ids ++ rechecks batches)

-- A transaction that could be rechecked in all of the states.
def Stays (ws : List (World InFlightLocks)) (id : PriorityId) : Prop :=
  ∀ w ∈ ws, id ∈ w.checkedTx ∧ id.key ∉ w.executingTx

theorem advance_of_sent {batches : List ScheduleBatch} {reads : Nat → Nat}
    (hs : scheduler.scheduleChecks E reads w = .ok w')
    (hb : w'.sent = batches.reverse ++ w.sent) : Advance w (rechecks batches) w' := by
  obtain ⟨batches', hb', ha⟩ := advance_scheduleChecks.of_ok hs
  have he : batches' = batches :=
    List.reverse_injective <| List.append_cancel_right <| hb'.symm.trans hb
  exact he ▸ ha

-- What was rechecked so far is in descending order and above the cursor, and what was not is still
-- ahead of it.
structure Swept (start : PriorityId) (w : World InFlightLocks) (ws : List (World InFlightLocks))
    (ids : List PriorityId) : Prop where
  descending : ids.Pairwise (· > ·)
  above      : ∀ id, Ahead w id → ∀ id' ∈ ids, id < id'
  covers     : ∀ id ≤ start, Stays (w :: ws) id → id ∈ ids ∨ Ahead w id

theorem Sweep.swept {ws : List (World InFlightLocks)} (hs : Sweep E start ws ids) :
    ∃ w ws', ws = w :: ws' ∧ Swept start w ws' ids := by
  induction hs
  case start w hn =>
    exact ⟨w, [], rfl, .nil, by simp, fun id hle _ => .inr ⟨start, hn, hle⟩⟩
  case change w w' ws ids _ _ hn ih =>
    obtain ⟨w, ws, he, h⟩ := ih
    cases he
    refine ⟨w', w :: ws, rfl, h.descending, fun id ha => h.above id ?_, fun id hle hi => ?_⟩
    · rwa [Ahead, hn] at ha
    · rw [Ahead, hn]
      exact h.covers id hle fun v hv => hi v <| List.mem_cons_of_mem _ hv
  case checks w w' ws ids batches _ _ _ hs hb ih =>
    obtain ⟨w, ws, he, h⟩ := ih
    cases he
    have ha := advance_of_sent hs hb
    refine ⟨w', w :: ws, rfl, ?_, ?_, ?_⟩
    · refine List.pairwise_append.mpr ⟨h.descending, ha.descending, fun id hm id' hm' => ?_⟩
      exact h.above id' (ha.fresh id' hm').right.right id hm
    · intro id hi id' hm
      rcases List.mem_append.mp hm with hm | hm
      · exact h.above id (ha.ahead hi) id' hm
      · exact ha.lt_of_ahead hi id' hm
    · intro id hle hi
      have hi' : Stays (w :: ws) id := fun v hv => hi v <| List.mem_cons_of_mem _ hv
      rcases h.covers id hle hi' with hm | ha'
      · exact .inl <| List.mem_append_left _ hm
      · obtain ⟨hc, hx⟩ := hi' w List.mem_cons_self
        exact (ha.covers id hc hx ha').imp_left <| List.mem_append_right _

-- `pop_next` always comes back. Whatever happens between the calls of `schedule_checks`, a sweep
-- rechecks in descending order, and only what is checked and not executing at the time; and in the end
-- it has rechecked once every transaction from its start on that was there all along.
theorem recheck_sweep :
    (∀ w : World InFlightLocks, ∃ x, scheduler.popNext w = .ok x) ∧
    (∀ E reads (w w' : World InFlightLocks) batches,
      scheduler.scheduleChecks E reads w = .ok w' → w'.sent = batches.reverse ++ w.sent →
      w'.checkedTx = w.checkedTx ∧ w'.executingTx = w.executingTx ∧
        ∀ id ∈ rechecks batches, id ∈ w.checkedTx ∧ id.key ∉ w.executingTx) ∧
    ∀ E start w ws ids, Sweep E start (w :: ws) ids → ids.Pairwise (· > ·) ∧
      (w.nextRecheck = none → ∀ id ≤ start, Stays (w :: ws) id → ids.count id = 1) := by
  refine ⟨fun w => ?_, fun E reads w w' batches hs hb => ?_, fun E start w ws ids hs => ?_⟩
  · obtain ⟨x, hx, _⟩ := (advance_popNext (w := w)).exists_ok
    exact ⟨x, hx⟩
  · have ha := advance_of_sent hs hb
    refine ⟨ha.checkedTx, ha.executingTx, fun id hm => ?_⟩
    obtain ⟨hc, hx, _⟩ := ha.fresh id hm
    exact ⟨hc, hx⟩
  · obtain ⟨w', ws', he, h⟩ := hs.swept
    cases he
    refine ⟨h.descending, fun hn id hle hi => ?_⟩
    have hm : id ∈ ids := (h.covers id hle hi).resolve_right fun ⟨curr, hc, _⟩ => by
      rw [hn] at hc
      cases hc
    exact List.count_eq_one_of_mem (h.descending.imp ne_of_gt) hm

-- Two checked transactions, the higher of which is rechecked first.
def awaiting : World InFlightLocks :=
  { Sample.world ∅ with
    checkedTx   := {⟨7, 100, 0⟩, ⟨5, 100, 1⟩}
    nextRecheck := some ⟨7, 100, 0⟩ }

theorem recheck_sweep_two : ∃ w' ids, Sweep Sample.env ⟨7, 100, 0⟩ [w', awaiting] ids ∧
    w'.nextRecheck = none ∧ ids.count ⟨5, 100, 1⟩ = 1 := by
  have hs : (scheduler.scheduleChecks Sample.env (fun _ => 0) awaiting).Ensures
      (fun w' => w'.nextRecheck = none ∧ ∃ b ∈ w'.sent, w'.sent = [b]) (fun _ => False) := by
    decide +kernel
  obtain ⟨w', hw, hn, b, _, hb⟩ := hs.exists_ok
  have hb : w'.sent = [b].reverse ++ awaiting.sent := hb
  obtain ⟨hc, hx, _⟩ := recheck_sweep.right.left _ _ _ _ _ hw hb
  have hi : Stays [w', awaiting] ⟨5, 100, 1⟩ := by
    refine List.forall_mem_cons.mpr ⟨?_, List.forall_mem_singleton.mpr (by decide)⟩
    rw [hc, hx]
    decide
  have hp : Sweep Sample.env ⟨7, 100, 0⟩ [w', awaiting] ([] ++ rechecks [b]) :=
    .checks (.start rfl) (by decide) hw hb
  exact ⟨w', _, hp, hn, (recheck_sweep.right.right _ _ _ _ _ hp).right hn _ (by decide) hi⟩

end Sweep

end BatchScheduler
