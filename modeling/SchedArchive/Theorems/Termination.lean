import SchedArchive.Theorems.Checks

-- Which of the loops of `poll` come to an end.

open Except Ledger

namespace Scheduler

section Jito

variable {L : Type} {S : Scheduler L} {E : Env} {cancelled connected : Bool} {n : Nat}
variable {ms : List JitoUpdate} {w : World L}

-- The messages are handled one after the other; then it depends on the sender.
theorem drainJitoLoop_eq : S.drainJitoLoop E cancelled connected (ms.length + n + 1) ms w =
    match ms.foldlM (S.onJitoUpdate E) w with
    | .ok w    => S.drainJitoLoop E cancelled connected (n + 1) [] w
    | .error f => some (.error f) := by
  induction ms generalizing w
  case nil => rw [List.length_nil, Nat.zero_add]; rfl
  case cons m ms ih =>
    rw [List.length_cons, Nat.add_right_comm _ 1 n, List.foldlM_cons, drainJitoLoop]
    cases hm : S.onJitoUpdate E w m
    case error f => rfl
    case ok w'   => exact ih

-- A channel that is empty and disconnected never lets go of a scheduler that is shut down.
theorem drainJitoLoop_disconnected : S.drainJitoLoop E true false n [] w = none := by
  induction n
  case zero      => rfl
  case succ n ih => exact ih

theorem drainJitoLoop_mono {x : Except Fault (World L)}
    (h : S.drainJitoLoop E cancelled connected n ms w = some x) (k : Nat) :
    S.drainJitoLoop E cancelled connected (n + k) ms w = some x := by
  induction n generalizing ms w
  case zero => exact nomatch h
  case succ n ih =>
    rw [Nat.add_right_comm]
    cases ms
    case nil =>
      rw [drainJitoLoop] at h ⊢
      split_ifs at h ⊢
      · exact h
      · exact ih h
      · exact h
    case cons m ms =>
      rw [drainJitoLoop] at h ⊢
      cases hm : S.onJitoUpdate E w m
      case error f => simpa [hm] using h
      case ok w' =>
        rw [hm] at h
        exact ih h

-- `drain_jito` leaves its loop exactly if the sender is still connected and every message is handled
-- without a panic.
theorem drain_jito_returns :
    (∃ n w', S.drainJitoLoop E cancelled connected n ms w = some (.ok w')) ↔
      connected = true ∧ ∃ w', ms.foldlM (S.onJitoUpdate E) w = .ok w' := by
  constructor
  case mp =>
    intro ⟨n, w', hx⟩
    have hx := drainJitoLoop_mono hx (ms.length + 1)
    rw [show n + (ms.length + 1) = ms.length + n + 1 by omega, drainJitoLoop_eq] at hx
    split at hx
    case h_2 f hf => cases hx
    case h_1 w₁ hw =>
      refine ⟨?_, w₁, hw⟩
      cases connected
      case true  => rfl
      case false =>
        cases cancelled
        case true  => cases drainJitoLoop_disconnected.symm.trans hx
        case false => cases hx
  case mpr =>
    intro ⟨hc, w', hw⟩
    refine ⟨_, w', (drainJitoLoop_eq (n := 0)).trans ?_⟩
    rw [hw, hc]
    rfl

example : ∃ n w', BatchScheduler.scheduler.drainJitoLoop Sample.env true true n
    [.tipConfig ⟨20, 21⟩, .recentBlockhash] (Sample.world ∅) = some (.ok w') :=
  ⟨3, _, rfl⟩

-- A scheduler that is shut down after its Jito thread has gone polls an empty channel for good.
theorem drain_jito_hangs :
    (∀ n, BatchScheduler.scheduler.drainJitoLoop Sample.env true false n [] (Sample.world ∅) = none) ∧
    ∀ n, Sample.auction.drainJitoLoop Sample.env true false n []
      (Sample.world AuctionBatchScheduler.initialEngine) = none :=
  ⟨fun _ => drainJitoLoop_disconnected, fun _ => drainJitoLoop_disconnected⟩

-- The bound on the rounds in the model of `drain_jito` is large enough.
theorem drainJito_eq {channel : JitoChannel} {x : Except Fault (World L)}
    (h : S.drainJitoLoop E cancelled channel.connected n channel.messages w = some x) :
    S.drainJito E w channel cancelled = x := by
  obtain ⟨ms, connected⟩ := channel
  have hx := drainJitoLoop_mono h (ms.length + 1)
  rw [show n + (ms.length + 1) = ms.length + n + 1 by omega, drainJitoLoop_eq] at hx
  suffices hs : S.drainJitoLoop E cancelled connected (ms.length + 1) ms w = some x by
    rw [drainJito, hs]
    rfl
  refine (drainJitoLoop_eq (n := 0)).trans ?_
  cases hf : ms.foldlM (S.onJitoUpdate E) w
  case error f => simpa [hf] using hx
  case ok w' =>
    rw [hf] at hx
    cases connected <;> cases cancelled
    case false.true => cases drainJitoLoop_disconnected.symm.trans hx
    all_goals exact hx

end Jito

section Checks

-- The recheck cursor can be moved on: there is none, or it is at a transaction that can be rechecked.
def CursorOk {L : Type} (w : World L) : Prop :=
  ∀ curr ∈ w.nextRecheck, curr ∈ w.checkedTx ∧ curr.key ∉ w.executingTx

instance {L : Type} (w : World L) : Decidable (CursorOk w) :=
  match h : w.nextRecheck with
  | none      => isTrue fun _ hm => nomatch h.symm.trans hm
  | some curr => decidable_of_iff (curr ∈ w.checkedTx ∧ curr.key ∉ w.executingTx) <| by
      simp [CursorOk, h]

-- How many transactions the cursor can still stop at.
def stops (checked : Finset PriorityId) : Option PriorityId → Nat
  | none      => 0
  | some curr => (checked.filter (· ≤ curr)).card

theorem stops_le_card (checked : Finset PriorityId) (cursor : Option PriorityId) :
    stops checked cursor ≤ checked.card := by
  cases cursor
  case none => exact Nat.zero_le _
  case some => exact Finset.card_filter_le ..

theorem stops_mono (checked : Finset PriorityId) {id curr : PriorityId} (hle : id ≤ curr) :
    stops checked (some id) ≤ stops checked (some curr) :=
  Finset.card_le_card <| Finset.monotone_filter_right _ fun _ _ h => h.trans hle

theorem stops_below_lt {checked : Finset PriorityId} {curr : PriorityId} (hc : curr ∈ checked) :
    stops checked (checked.below curr) < stops checked (some curr) := by
  have hm : curr ∈ checked.filter (· ≤ curr) := Finset.mem_filter.mpr ⟨hc, le_rfl⟩
  cases hb : checked.below curr
  case none => exact Finset.card_pos.mpr ⟨curr, hm⟩
  case some next =>
    have hlt := (Finset.below_eq_some_iff.mp hb).left.right
    refine Finset.card_lt_card <| (Finset.ssubset_iff_of_subset ?_).mpr ⟨curr, hm, fun hn => ?_⟩
    · exact Finset.monotone_filter_right _ fun id _ hle => hle.trans hlt.le
    · exact absurd (Finset.mem_filter.mp hn).right <| not_le.mpr hlt

-- What `pop_next` can still yield at most.
def remaining {L : Type} (w : World L) : Nat :=
  w.uncheckedTx.card + stops w.checkedTx w.nextRecheck

section PopRecheck

variable {checked : Finset PriorityId} {executing : Finset TransactionKey} {n : Nat}
variable {cursor : Option PriorityId} {curr : PriorityId}

-- A cursor that cannot be rechecked makes `AuctionBatchScheduler` loop forever.
theorem popRecheck_stale (hs : ¬(curr ∈ checked ∧ curr.key ∉ executing)) :
    AuctionBatchScheduler.popRecheck checked executing n (some curr) = none := by
  induction n
  case zero => rfl
  case succ n ih => rw [AuctionBatchScheduler.popRecheck, if_neg hs, ih]

variable (hc : ∀ curr ∈ cursor, curr ∈ checked ∧ curr.key ∉ executing)

include hc

-- Any other cursor is what both schedulers recheck next.

theorem popRecheck_auction : AuctionBatchScheduler.popRecheck checked executing (n + 1) cursor =
    some (cursor, cursor.bind checked.below) := by
  cases cursor
  case none => rfl
  case some curr => rw [AuctionBatchScheduler.popRecheck, if_pos (hc curr rfl)]; rfl

theorem popRecheck_batch : BatchScheduler.popRecheck checked executing (n + 1) cursor =
    some (cursor, cursor.bind checked.below) := by
  cases cursor
  case none => rfl
  case some curr =>
    have ⟨hm, hx⟩ := hc curr rfl
    rw [BatchScheduler.popRecheck, if_neg (by simp [hm, hx])]
    rfl

end PopRecheck

-- What the two schedulers have in common when they look for transactions to check.
structure Agree {L L' : Type} (w : World L) (w' : World L') : Prop where
  unchecked : w'.uncheckedTx = w.uncheckedTx
  checked   : w'.checkedTx = w.checkedTx
  executing : w'.executingTx = w.executingTx
  cursor    : w'.nextRecheck = w.nextRecheck
  batches   : w'.runtime.maxCheckBatches = w.runtime.maxCheckBatches
  queued    : w'.queued checkWorker = w.queued checkWorker

variable {E : Env} (libm : AuctionEngine.Libm ℚ) (minScore : Nat) {n : Nat}
variable {w v : World AuctionBatchScheduler.Engine} {w' v' : World BatchScheduler.InFlightLocks}

-- What taking transactions out of the queue leaves alone.
structure Keeps (w v : World AuctionBatchScheduler.Engine)
    (w' v' : World BatchScheduler.InFlightLocks) : Prop where
  agree     : Agree v v'
  checked   : v.checkedTx = w.checkedTx
  executing : v.executingTx = w.executingTx
  runtime   : v.runtime = w.runtime
  queued    : v.queued = w.queued
  queued'   : v'.queued = w'.queued
  sent      : v.sent = w.sent
  sent'     : v'.sent = w'.sent
  cursor    : CursorOk w → CursorOk v

-- The two take the same, as long as there are unchecked transactions or the cursor is good.
theorem popNext_agree (ha : Agree w w') (hd : ∀ id ∈ w.checkedTx, id.key ∉ w.executingTx)
    (hc : w.uncheckedTx ≠ 0 ∨ CursorOk w) :
    ∃ r v v', (AuctionBatchScheduler.scheduler libm minScore).popNext w = .ok (r, v) ∧
      BatchScheduler.scheduler.popNext w' = .ok (r, v') ∧ Keeps w v w' v' ∧
      remaining v + r.toList.length ≤ remaining w ∧
      (w.uncheckedTx ≠ 0 → r ≠ none ∧ v.uncheckedTx.card + 1 = w.uncheckedTx.card) := by
  unfold popNext
  rw [ha.unchecked]
  split
  case h_1 id rest hp =>
    have ⟨hu, _⟩ := Multiset.popMax_eq_some hp
    refine ⟨_, _, _, rfl, rfl, ⟨⟨rfl, ha.checked, ha.executing, ha.cursor, ha.batches, ha.queued⟩,
      rfl, rfl, rfl, rfl, rfl, rfl, rfl, fun hc => hc⟩, ?_, fun _ => ⟨by simp, by simp [hu]⟩⟩
    simp only [remaining, hu, Multiset.card_cons, Option.toList_some, List.length_singleton]
    omega
  case h_2 hp =>
    have hu := Multiset.popMax_eq_none.mp hp
    have hc := hc.resolve_left <| not_not.mpr hu
    rw [ha.checked, ha.executing, ha.cursor]
    have h₁ : (AuctionBatchScheduler.scheduler libm minScore).popRecheck w.checkedTx w.executingTx
        (w.checkedTx.card + 2) w.nextRecheck = some (w.nextRecheck, _) := popRecheck_auction hc
    have h₂ : BatchScheduler.scheduler.popRecheck w.checkedTx w.executingTx
        (w.checkedTx.card + 2) w.nextRecheck = some (w.nextRecheck, _) := popRecheck_batch hc
    rw [h₁, h₂]
    refine ⟨_, _, _, rfl, rfl, ⟨⟨ha.unchecked, ha.checked, ha.executing, rfl, ha.batches, ha.queued⟩,
      rfl, rfl, rfl, rfl, rfl, rfl, rfl, fun _ curr hm => ?_⟩, ?_, fun hn => absurd hu hn⟩
    case refine_1 =>
      have ⟨_, _, hb⟩ := Option.bind_eq_some_iff.mp hm
      have hk := (Finset.below_eq_some_iff.mp hb).left.left
      exact ⟨hk, hd curr hk⟩
    case refine_2 =>
      unfold remaining
      cases hn : w.nextRecheck
      case none      => exact le_rfl
      case some curr =>
        have hl := stops_below_lt (hc curr hn).left
        simp only [Option.bind_some, Option.map_some, Option.toList_some, List.length_singleton]
        omega

theorem Keeps.trans {u : World AuctionBatchScheduler.Engine} {u' : World BatchScheduler.InFlightLocks}
    (h₁ : Keeps w v w' v') (h₂ : Keeps v u v' u') : Keeps w u w' u' where
  agree     := h₂.agree
  checked   := h₂.checked.trans h₁.checked
  executing := h₂.executing.trans h₁.executing
  runtime   := h₂.runtime.trans h₁.runtime
  queued    := h₂.queued.trans h₁.queued
  queued'   := h₂.queued'.trans h₁.queued'
  sent      := h₂.sent.trans h₁.sent
  sent'     := h₂.sent'.trans h₁.sent'
  cursor    := h₂.cursor ∘ h₁.cursor

theorem Keeps.refl (ha : Agree w w') : Keeps w w w' w' :=
  ⟨ha, rfl, rfl, rfl, rfl, rfl, rfl, rfl, id⟩

-- With enough unchecked transactions, or with a good cursor, the two take the same.
theorem takeNext_agree (ha : Agree w w') (hd : ∀ id ∈ w.checkedTx, id.key ∉ w.executingTx)
    (hc : n ≤ w.uncheckedTx.card ∨ CursorOk w) :
    ∃ rs v v', (AuctionBatchScheduler.scheduler libm minScore).takeNext n w = .ok (rs, v) ∧
      BatchScheduler.scheduler.takeNext n w' = .ok (rs, v') ∧ Keeps w v w' v' ∧
      remaining v + rs.length ≤ remaining w ∧
      (n ≤ w.uncheckedTx.card → rs.length = n ∧ v.uncheckedTx.card + n = w.uncheckedTx.card) := by
  induction n generalizing w w'
  case zero => exact ⟨[], w, w', rfl, rfl, .refl ha, le_rfl, fun _ => ⟨rfl, rfl⟩⟩
  case succ n ih =>
    have hu : n + 1 ≤ w.uncheckedTx.card → w.uncheckedTx ≠ 0 := fun hn he => by simp [he] at hn
    obtain ⟨r, v, v', h₁, h₂, hk, hm, hn⟩ := popNext_agree libm minScore ha hd <| hc.imp_left hu
    rw [takeNext, takeNext, h₁, h₂]
    cases r
    case none =>
      refine ⟨[], v, v', rfl, rfl, hk, hm, fun hl => ?_⟩
      exact absurd rfl (hn <| hu hl).left
    case some r =>
      have hd : ∀ id ∈ v.checkedTx, id.key ∉ v.executingTx := by
        rw [hk.checked, hk.executing]
        exact hd
      have hc : n ≤ v.uncheckedTx.card ∨ CursorOk v := by
        refine hc.imp (fun hl => ?_) hk.cursor
        have := (hn <| hu hl).right
        omega
      obtain ⟨rs, u, u', h₃, h₄, hk', hm', hn'⟩ := ih hk.agree hd hc
      refine ⟨r :: rs, u, u', ?_, ?_, hk.trans hk', ?_, fun hl => ?_⟩
      case refine_1 => exact bind_eq_ok.mpr ⟨_, rfl, bind_eq_ok.mpr ⟨_, h₃, rfl⟩⟩
      case refine_2 => exact bind_eq_ok.mpr ⟨_, rfl, bind_eq_ok.mpr ⟨_, h₄, rfl⟩⟩
      case refine_3 =>
        change remaining v + 1 ≤ _ at hm
        rw [List.length_cons]
        omega
      case refine_4 =>
        have := (hn <| hu hl).right
        obtain ⟨hl', hu'⟩ := hn' (by omega)
        exact ⟨by simp [hl'], by omega⟩

-- As long as there are unchecked transactions, the cursor stays where it is.
theorem takeNext_unchecked {L : Type} {S : Scheduler L} {w : World L}
    (hn : n ≤ w.uncheckedTx.card) : ∃ rs rest,
      S.takeNext n w = .ok (rs, { w with uncheckedTx := rest }) ∧ rs.length = n ∧
      rest.card + n = w.uncheckedTx.card := by
  induction n generalizing w
  case zero => exact ⟨[], w.uncheckedTx, rfl, rfl, rfl⟩
  case succ n ih =>
    cases hp : w.uncheckedTx.popMax
    case none => simp [Multiset.popMax_eq_none.mp hp] at hn
    case some x =>
      obtain ⟨id, rest⟩ := x
      have ⟨hu, _⟩ := Multiset.popMax_eq_some hp
      have ⟨rs, rest', ht, hl, hc⟩ := ih (w := { w with uncheckedTx := rest }) <| by
        simpa [hu] using hn
      refine ⟨⟨id, .firstCheck⟩ :: rs, rest', ?_, by simp [hl], ?_⟩
      · rw [takeNext, popNext, hp]
        exact bind_eq_ok.mpr ⟨_, rfl, bind_eq_ok.mpr ⟨_, ht, rfl⟩⟩
      · rw [hu, Multiset.card_cons, ← Nat.add_assoc, hc]

-- Otherwise `AuctionBatchScheduler` gets to its cursor and stays there.
theorem takeNext_hang (hc : ¬CursorOk w) (hn : w.uncheckedTx.card < n) :
    (AuctionBatchScheduler.scheduler libm minScore).takeNext n w = .error .hang := by
  induction n generalizing w
  case zero => omega
  case succ n ih =>
    rw [takeNext, popNext]
    cases hp : w.uncheckedTx.popMax
    case none =>
      obtain ⟨curr, hm, hs⟩ :
          ∃ curr ∈ w.nextRecheck, ¬(curr ∈ w.checkedTx ∧ curr.key ∉ w.executingTx) := by
        simpa [CursorOk] using hc
      have hr : (AuctionBatchScheduler.scheduler libm minScore).popRecheck w.checkedTx w.executingTx
          (w.checkedTx.card + 2) w.nextRecheck = none := by
        rw [Option.mem_def.mp hm]
        exact popRecheck_stale hs
      simp only [hr]
      rfl
    case some x =>
      obtain ⟨id, rest⟩ := x
      obtain ⟨hu, _⟩ := Multiset.popMax_eq_some hp
      have hi := ih (w := { w with uncheckedTx := rest }) hc (by simpa [hu] using hn)
      simp only [bind, Except.bind, hi]

-- The check queue has room for the batch `k` and had it for all batches before, when it was looked at
-- for each of them.
def HasRoom {L : Type} (E : Env) (reads : Nat → Nat) (w : World L) (k : Nat) : Prop :=
  ∀ j ≤ k, checkQueueLen reads (w.queued checkWorker) j < checkQueueLimit E w

section Loop

variable {L : Type} {S : Scheduler L} {w v : World L} {rs : List Request} {reads : Nat → Nat}

-- A batch of checks has been queued.
def queueChecks (w : World L) (rs : List Request) : World L :=
  { w with
    toLedger := w.toLedger.send (checkBatch rs)
    queued   := Function.update w.queued checkWorker (w.queued checkWorker + 1) }

theorem hasRoom_zero :
    HasRoom E reads w 0 ↔ w.queued checkWorker - reads 0 < checkQueueLimit E w :=
  ⟨fun h => h 0 le_rfl, fun h _ hj => Nat.le_zero.mp hj ▸ h⟩

-- The batches after the first one.
theorem hasRoom_queueChecks {k : Nat} (hq : v.queued = (w.workerReads checkWorker (reads 0)).queued)
    (hm : v.runtime = w.runtime) :
    HasRoom E (fun k => reads (k + 1)) (queueChecks v rs) k ∧ HasRoom E reads w 0 ↔
      HasRoom E reads w (k + 1) := by
  have hq : (queueChecks v rs).queued checkWorker = w.queued checkWorker - reads 0 + 1 := by
    simp [queueChecks, hq, queued_workerReads]
  have hm : checkQueueLimit E (queueChecks v rs) = checkQueueLimit E w := by
    rw [checkQueueLimit, checkQueueLimit, ← hm]
    rfl
  unfold HasRoom
  simp only [hq, hm, checkQueueLen_succ]
  constructor
  case mp =>
    rintro ⟨hs, hz⟩ (_ | j) hj
    case zero => exact hz 0 le_rfl
    case succ => exact hs j <| Nat.le_of_succ_le_succ hj
  case mpr =>
    intro h
    exact ⟨fun j hj => h (j + 1) <| Nat.succ_le_succ hj, fun j hj => h j <| hj.trans <| Nat.zero_le _⟩

theorem scheduleChecksLoop_full (hf : ¬HasRoom E reads w 0) :
    S.scheduleChecksLoop E reads (n + 1) w = .ok (w.workerReads checkWorker (reads 0)) := by
  rw [hasRoom_zero, checkQueueLimit, lt_min_iff, ← queued_workerReads] at hf
  rw [scheduleChecksLoop]
  exact if_neg hf

variable (hf : HasRoom E reads w 0)

include hf

theorem scheduleChecksLoop_room : S.scheduleChecksLoop E reads (n + 1) w = (do
    let (rs, v) ← S.takeNext maxCheckBatch (w.workerReads checkWorker (reads 0))
    if rs = [] then
      return v
    else
      let v ← v.schedule E (checkBatch rs)
      S.scheduleChecksLoop E (fun k => reads (k + 1)) n v) := by
  rw [hasRoom_zero, checkQueueLimit, lt_min_iff, ← queued_workerReads] at hf
  rw [scheduleChecksLoop]
  exact if_pos hf

theorem scheduleChecksLoop_done
    (ht : S.takeNext maxCheckBatch (w.workerReads checkWorker (reads 0)) = .ok ([], v)) :
    S.scheduleChecksLoop E reads (n + 1) w = .ok v := by
  rw [scheduleChecksLoop_room hf, ht]
  rfl

theorem scheduleChecksLoop_hang
    (ht : S.takeNext maxCheckBatch (w.workerReads checkWorker (reads 0)) = .error .hang) :
    S.scheduleChecksLoop E reads (n + 1) w = .error .hang := by
  rw [scheduleChecksLoop_room hf, ht]
  rfl

theorem scheduleChecksLoop_next
    (ht : S.takeNext maxCheckBatch (w.workerReads checkWorker (reads 0)) = .ok (rs, v))
    (hr : rs ≠ []) (hq : v.queued = (w.workerReads checkWorker (reads 0)).queued) :
    S.scheduleChecksLoop E reads (n + 1) w =
      S.scheduleChecksLoop E (fun k => reads (k + 1)) n (queueChecks v rs) := by
  have hs := World.schedule_eq_ok (E := E) (w := v) (b := checkBatch rs) <| by
    change v.queued checkWorker < _
    rw [hq, queued_workerReads]
    exact (lt_min_iff.mp <| hasRoom_zero.mp hf).right
  rw [scheduleChecksLoop_room hf, ht]
  simp only [bind, Except.bind, hr, if_false, hs]
  rfl

end Loop

variable {reads : Nat → Nat}

theorem Agree.workerReads (ha : Agree w w') (k : Nat) :
    Agree (w.workerReads checkWorker k) (w'.workerReads checkWorker k) :=
  ⟨ha.unchecked, ha.checked, ha.executing, ha.cursor, ha.batches, by
    rw [queued_workerReads, queued_workerReads, ha.queued]⟩

theorem Agree.queueChecks (ha : Agree w w') (rs : List Request) :
    Agree (queueChecks w rs) (queueChecks w' rs) :=
  ⟨ha.unchecked, ha.checked, ha.executing, ha.cursor, ha.batches, by
    simp [Scheduler.queueChecks, ha.queued]⟩

theorem Agree.hasRoom_iff (ha : Agree w w') {k : Nat} :
    HasRoom E reads w' k ↔ HasRoom E reads w k := by
  unfold HasRoom checkQueueLimit
  rw [ha.batches, ha.queued]

-- The two queue the same batches if all of them can be filled with unchecked transactions, or if the
-- cursor is good.
theorem scheduleChecksLoop_agree (ha : Agree w w')
    (hd : ∀ id ∈ w.checkedTx, id.key ∉ w.executingTx) (hn : remaining w < n)
    (hc : (∀ k, HasRoom E reads w k → maxCheckBatch * (k + 1) ≤ w.uncheckedTx.card) ∨ CursorOk w) :
    ∃ v v' batches,
      (AuctionBatchScheduler.scheduler libm minScore).scheduleChecksLoop E reads n w = .ok v ∧
      BatchScheduler.scheduler.scheduleChecksLoop E reads n w' = .ok v' ∧
      v.sent = batches ++ w.sent ∧ v'.sent = batches ++ w'.sent := by
  induction n generalizing reads w w'
  case zero => exact absurd hn <| Nat.not_lt_zero _
  case succ n ih =>
    by_cases hf : HasRoom E reads w 0
    case neg =>
      exact ⟨_, _, [], scheduleChecksLoop_full hf, scheduleChecksLoop_full <| mt ha.hasRoom_iff.mp hf,
        rfl, rfl⟩
    case pos =>
      have hf' : HasRoom E reads w' 0 := ha.hasRoom_iff.mpr hf
      have ⟨rs, v, v', h₁, h₂, hk, hm, hl⟩ := takeNext_agree libm minScore
        (ha.workerReads (reads 0)) hd <| hc.imp_left fun hc => hc 0 hf
      by_cases hr : rs = []
      case pos =>
        subst hr
        exact ⟨v, v', [], scheduleChecksLoop_done hf h₁, scheduleChecksLoop_done hf' h₂, hk.sent,
          hk.sent'⟩
      case neg =>
        have hd : ∀ id ∈ v.checkedTx, id.key ∉ v.executingTx := by
          rw [hk.checked, hk.executing]
          exact hd
        have hm : remaining (queueChecks v rs) < n := by
          have := List.length_pos_iff.mpr hr
          change remaining v < n
          change remaining v + _ ≤ remaining w at hm
          omega
        have hc : (∀ k, HasRoom E (fun k => reads (k + 1)) (queueChecks v rs) k →
            maxCheckBatch * (k + 1) ≤ v.uncheckedTx.card) ∨ CursorOk v := by
          refine hc.imp (fun hu k hk' => ?_) hk.cursor
          have hu' := hu (k + 1) <| (hasRoom_queueChecks hk.queued hk.runtime).mp ⟨hk', hf⟩
          have := (hl <| hu 0 hf).right
          change v.uncheckedTx.card + _ = w.uncheckedTx.card at this
          rw [Nat.mul_succ] at hu'
          omega
        have ⟨u, u', batches, h₃, h₄, hs, hs'⟩ := ih (hk.agree.queueChecks rs) hd hm hc
        refine ⟨u, u', batches ++ [checkBatch rs], ?_, ?_, ?_, ?_⟩
        · rw [scheduleChecksLoop_next hf h₁ hr hk.queued, h₃]
        · rw [scheduleChecksLoop_next hf' h₂ hr hk.queued', h₄]
        · rw [hs, queueChecks, Ledger.send, hk.sent]
          simp
        · rw [hs', queueChecks, Ledger.send, hk.sent']
          simp

-- Otherwise `AuctionBatchScheduler` does not come back.
theorem scheduleChecksLoop_stale {k : Nat} (hc : ¬CursorOk w) (hk : HasRoom E reads w k)
    (hu : w.uncheckedTx.card < maxCheckBatch * (k + 1)) :
    (AuctionBatchScheduler.scheduler libm minScore).scheduleChecksLoop E reads n w =
      .error .hang := by
  induction n generalizing reads w k
  case zero => rfl
  case succ n ih =>
    have hf : HasRoom E reads w 0 := fun j hj => hk j <| hj.trans <| Nat.zero_le k
    by_cases hl : w.uncheckedTx.card < maxCheckBatch
    case pos =>
      exact scheduleChecksLoop_hang hf <| takeNext_hang (w := w.workerReads checkWorker _) _ _ hc hl
    case neg =>
      have ⟨rs, rest, ht, hr, hs⟩ := takeNext_unchecked (w := w.workerReads checkWorker (reads 0))
        (S := AuctionBatchScheduler.scheduler libm minScore) (Nat.le_of_not_lt hl)
      have hne : rs ≠ [] := fun hn => by simp [hn, maxCheckBatch] at hr
      cases k
      case zero   => omega
      case succ k =>
        rw [scheduleChecksLoop_next hf ht hne rfl]
        refine ih hc ((hasRoom_queueChecks (by rfl) (by rfl)).mpr hk).left ?_
        change rest.card < _
        change rest.card + _ = w.uncheckedTx.card at hs
        rw [Nat.mul_succ] at hu
        omega

theorem remaining_lt {L : Type} {w : World L} :
    remaining w < w.uncheckedTx.card + w.checkedTx.card + 1 :=
  Nat.lt_succ_of_le <| Nat.add_le_add_left (stops_le_card ..) _

-- `AuctionBatchScheduler` comes back from `schedule_checks`, with the same batches queued as by
-- `BatchScheduler`, exactly if its cursor is good or there are enough unchecked transactions to fill
-- every batch for which there is room, however many requests the check worker reads meanwhile.
theorem schedule_checks_returns {libm : AuctionEngine.Libm ℚ} {minScore : Nat} (reads : Nat → Nat)
    (hr : (AuctionBatchScheduler.scheduler libm minScore).Reachable E
      AuctionBatchScheduler.initialEngine w) (ha : Agree w w') :
    (∃ v v' batches,
      (AuctionBatchScheduler.scheduler libm minScore).scheduleChecks E reads w = .ok v ∧
      BatchScheduler.scheduler.scheduleChecks E reads w' = .ok v' ∧
      v.sent = batches ++ w.sent ∧ v'.sent = batches ++ w'.sent) ↔
    CursorOk w ∨ ∀ k, HasRoom E reads w k → maxCheckBatch * (k + 1) ≤ w.uncheckedTx.card := by
  have o := (Known.custody (.auction libm minScore) hr).owned
  have hd : ∀ id ∈ w.checkedTx, id.key ∉ w.executingTx := fun id hc hx =>
    by cases o.place_unique (key_mem_checked hc) (key_mem_executing hx)
  constructor
  case mp =>
    rintro ⟨v, _, _, hv, _⟩
    by_contra hn
    obtain ⟨hc, k, hk, hu⟩ : ¬CursorOk w ∧ ∃ k, HasRoom E reads w k ∧
        w.uncheckedTx.card < maxCheckBatch * (k + 1) := by simpa using hn
    rw [scheduleChecks, scheduleChecksLoop_stale _ _ hc hk hu] at hv
    cases hv
  case mpr =>
    intro hc
    obtain ⟨v, v', batches, h₁, h₂, hs, hs'⟩ := scheduleChecksLoop_agree libm minScore ha hd
      remaining_lt hc.symm
    refine ⟨_, _, batches, bind_eq_ok.mpr ⟨v, h₁, rfl⟩, bind_eq_ok.mpr ⟨v', ?_, rfl⟩, hs, hs'⟩
    rw [ha.unchecked, ha.checked]
    exact h₂

end Checks

end Scheduler

namespace Sample

open Scheduler

-- A transaction that is too costly to be sent is checked and then rechecked over and over.
def rechecked (id : PriorityId) : List Event :=
  poll false 1 [] [tx [(10, true)] 13000000 2000000] [.tipConfig ⟨20, 21⟩] ++
  poll true 1 [(⟨id, .firstCheck⟩, passed)] [] [] ++
  poll true 1 [] [] []

-- The last recheck fails because of the status of the transaction. This is the call of `poll` up to
-- `schedule_checks`.
def recheckFails (id : PriorityId) : List Event :=
  poll true 1 [(⟨id, .recheck⟩, .check ⟨.done, ⟨true, true, true, false⟩, .done, .done⟩ none)] [] []
    |>.take 6

-- `BatchScheduler` in the same situation.
def batchOf (w : World AuctionBatchScheduler.Engine) : World BatchScheduler.InFlightLocks :=
  { world ∅ with
    uncheckedTx := w.uncheckedTx
    checkedTx   := w.checkedTx
    executingTx := w.executingTx
    nextRecheck := w.nextRecheck
    runtime     := w.runtime
    queued      := w.queued }

end Sample

namespace Scheduler

theorem schedule_checks_returns_rechecked :
    ∃ w v, Sample.auction.Reachable Sample.env AuctionBatchScheduler.initialEngine w ∧
      w.nextRecheck ≠ none ∧ Sample.auction.scheduleChecks Sample.env (fun _ => 0) w = .ok v := by
  have ⟨w, hr, hn, hc⟩ :
      ∃ w, Sample.auction.Reachable Sample.env AuctionBatchScheduler.initialEngine w ∧
        w.nextRecheck ≠ none ∧ CursorOk w :=
    Sample.exists_reach (Sample.rechecked ⟨1999986550373, 13000000, 0⟩) (by decide +kernel)
  have ha : Agree w (Sample.batchOf w) := ⟨rfl, rfl, rfl, rfl, rfl, rfl⟩
  have ⟨v, _, _, hv, _⟩ := (schedule_checks_returns (fun _ => 0) hr ha).mpr <| .inl hc
  exact ⟨w, v, hr, hn, hv⟩

-- The transaction at the cursor is dropped. The next `schedule_checks` never comes back.
theorem schedule_checks_hangs :
    ∃ w, Sample.auction.Reachable Sample.env AuctionBatchScheduler.initialEngine w ∧
      (Sample.auction.scheduleChecks Sample.env (fun _ => 0) w).Ensures (fun _ => False) (· = .hang) ∧
      w.uncheckedTx = 0 ∧
      ∀ n, AuctionBatchScheduler.popRecheck w.checkedTx w.executingTx n w.nextRecheck = none := by
  have ⟨w, hr, hs, hu, hn, hc⟩ :
      ∃ w, Sample.auction.Reachable Sample.env AuctionBatchScheduler.initialEngine w ∧
        (Sample.auction.scheduleChecks Sample.env (fun _ => 0) w).Ensures (fun _ => False) (· = .hang) ∧
        w.uncheckedTx = 0 ∧ w.nextRecheck = some ⟨1999986550373, 13000000, 0⟩ ∧
        ⟨1999986550373, 13000000, 0⟩ ∉ w.checkedTx :=
    Sample.exists_reach (Sample.rechecked ⟨1999986550373, 13000000, 0⟩ ++
      Sample.recheckFails ⟨1999986550373, 13000000, 0⟩) (by decide +kernel)
  refine ⟨w, hr, hs, hu, fun n => ?_⟩
  rw [hn]
  exact popRecheck_stale fun h => hc h.left

end Scheduler
