import SchedArchive.Theorems.Custody

-- What becomes of a CHECK request that is answered as unprocessed. The bridge does not promise that
-- this never happens, and the callback only looks at whether the key is executing.

open Except Ledger

namespace Scheduler

variable {L : Type}

-- The answer is swallowed, or the transaction is where a recheck leaves it and not executing.
def Harmless (w : World L) (r : Request) : Prop :=
  r.key ∉ w.live ∨ r.kind = .recheck ∧ r.key ∉ w.executingTx

instance {w : World L} {r : Request} : Decidable (Harmless w r) :=
  inferInstanceAs <| Decidable (_ ∨ _)

-- The events of runs in which a CHECK may be answered as unprocessed, where that is harmless.
def Lenient (w : World L) : Event → Prop
  | .workerResponse r a => r ∈ w.inFlight ∧ (r.Fits a ∨ a = .unprocessed ∧ Harmless w r)
  | _                   => True

inductive LenientReach (S : Scheduler L) (E : Env) (locks : L) : World L → Prop
  | init {w} : Initial locks w → LenientReach S E locks w
  | step {w w' e} :
    LenientReach S E locks w → Lenient w e → S.step E w e = .ok w' → LenientReach S E locks w'

-- What the answer to a CHECK has to leave alone, and what has to become of its transaction.
structure Attributed (w : World L) (r : Request) (w' : World L) : Prop where
  executingTx : w'.executingTx = w.executingTx
  locks       : w'.locks = w.locks
  inFlightCus : w'.inFlightCus = w.inFlightCus
  executions  : w'.executions = w.executions
  place       : r.key ∈ w'.live → ∃! p, p ≠ Place.firstCheck ∧ r.key ∈ w'.keysIn p

variable {S : Scheduler L} {E : Env} {w w' : World L} {r : Request} {locks : L}

theorem Reach.lenient {C : World L → Event → Prop} (hr : S.Reach E locks C w) :
    LenientReach S E locks w := by
  induction hr
  case init h => exact .init h
  case step e _ he _ hs hi =>
    refine hi.step ?_ hs
    cases e
    case workerResponse => exact ⟨he.left, .inl he.right⟩
    all_goals trivial

theorem drain_unprocessed_dead (hl : r.key ∉ w.live) :
    S.drainWorkerResponse E w r .unprocessed = .ok { w with toLedger := w.toLedger.swallow r } := by
  rw [drainWorkerResponse, if_neg hl]

theorem drain_unprocessed_idle (hl : r.key ∈ w.live) (hx : r.key ∉ w.executingTx) :
    S.drainWorkerResponse E w r .unprocessed =
      .ok { w with toLedger := w.toLedger.answer r .unprocessed } := by
  have hr : S.onResponse E { w with toLedger := w.toLedger.answer r .unprocessed } r.id .unprocessed =
      .ok ({ w with toLedger := w.toLedger.answer r .unprocessed }, .keep) := by
    rw [onResponse, onUnprocessed, if_neg (by exact hx)]
  rw [drainWorkerResponse, if_pos hl, hr]
  rfl

-- The key leaves `executing_tx`, whichever of its requests was answered.
theorem drain_unprocessed_executing (hl : r.key ∈ w.live) (hx : r.key ∈ w.executingTx) :
    (S.drainWorkerResponse E w r .unprocessed).Ensures
      (fun w' => w'.executingTx = w.executingTx.erase r.key) (fun _ => True) := by
  refine ensures_drainWorkerResponse (Q := (·.executingTx = w.executingTx.erase r.key)) hl ?_
  rw [onResponse, onUnprocessed, if_pos (by exact hx)]
  simp only [releaseLocks, releaseCus, bind_assoc, ensures_bind]
  refine ensures_of_forall fun locks => ?_
  rw [ensures_pure]
  refine ensures_of_forall fun cus => ?_
  rw [ensures_pure]
  split <;> rfl

theorem keysIn_answer {p : Place} (a : WorkerAction) (hp : p ≠ .firstCheck) :
    (w.toLedger.answer r a).keysIn p = w.keysIn p := by
  cases p
  case firstCheck => exact absurd rfl hp
  all_goals rfl

theorem custody_answer_recheck (P : LockPolicy L) (c : w.Custody E 0) (hm : r ∈ w.inFlight)
    (hk : r.kind = .recheck) : (w.toLedger.answer r .unprocessed).Custody E 0 := by
  have m : Move P E (.all L) w.toLedger 0
      (w.toLedger.answer r (.check ⟨.done, .done, .done, .done⟩ none)) 0 := .answerRecheck hm hk
  exact (c.move m).of_answered

theorem Lenient.cases {e : Event} (h : Lenient w e) :
    e.Enabled w ∨ ∃ r, e = .workerResponse r .unprocessed ∧ r ∈ w.inFlight ∧ Harmless w r := by
  cases e
  case workerResponse r a =>
    obtain ⟨hm, hf | ⟨rfl, hh⟩⟩ := h
    · exact .inl ⟨hm, hf⟩
    · exact .inr ⟨r, rfl, hm, hh⟩
  all_goals exact .inl trivial

theorem custody_harmless (P : LockPolicy L) (c : w.Custody E 0) (hm : r ∈ w.inFlight)
    (hh : Harmless w r) (hs : S.drainWorkerResponse E w r .unprocessed = .ok w') :
    w'.Custody E 0 := by
  by_cases hl : r.key ∈ w.live
  case neg =>
    obtain rfl := Except.ok.inj <| (drain_unprocessed_dead hl).symm.trans hs
    exact c.move <| Move.swallow (P := P) (t := .all L) hm hl
  case pos =>
    obtain ⟨hk, hx⟩ := hh.resolve_left <| not_not.mpr hl
    obtain rfl := Except.ok.inj <| (drain_unprocessed_idle hl hx).symm.trans hs
    exact custody_answer_recheck P c hm hk

theorem Known.lenient_custody (hS : S.Known locks) (hr : LenientReach S E locks w) :
    w.Custody E 0 := by
  have K : Kept S.toLockPolicy E (.all L) (¬·.IsCustody) (fun l h => l.Custody E h) :=
    hS.lockFaults.kept (fun c => c) (fun m c => c.move m) fun _ _ => trivial
  induction hr
  case init h => exact h.ledger ▸ custody_empty
  case step he hs c =>
    rcases he.cases with he | ⟨r, rfl, hm, hh⟩
    · exact (K.step hS.lawful c he within_all).of_ok hs
    · exact custody_harmless S.toLockPolicy c hm hh hs

theorem attributed_dead (hm : r ∈ w.inFlight) (hk : r.kind ≠ .execute) (hl : r.key ∉ w.live) :
    Attributed w r { w with toLedger := w.toLedger.swallow r } where
  executingTx := rfl
  locks       := rfl
  inFlightCus := rfl
  executions  := (Owned.executions_erase_check hm hk).symm
  place       := fun hl' => absurd hl' hl

theorem attributed_idle (c : w.Custody E 0) (hm : r ∈ w.inFlight) (hk : r.kind = .recheck)
    (hl : r.key ∈ w.live) :
    Attributed w r { w with toLedger := w.toLedger.answer r .unprocessed } where
  executingTx := rfl
  locks       := rfl
  inFlightCus := rfl
  executions  := (Owned.executions_erase_check hm (by simp [hk])).symm
  place       := by
    intro _
    obtain ⟨p, hn, hp⟩ := c.place_of_recheck hm hk hl
    refine ⟨p, ⟨hn, (keysIn_answer .unprocessed hn).symm ▸ hp⟩, fun q hq => ?_⟩
    obtain ⟨hq, hm⟩ := hq
    rw [keysIn_answer .unprocessed hq] at hm
    exact c.owned.place_unique hm hp

-- A CHECK that comes back unprocessed is taken for what it is exactly when its transaction is gone,
-- or it is a recheck and the transaction is not executing.
theorem Known.unprocessed_check_iff (hS : S.Known locks) (hr : LenientReach S E locks w)
    (hm : r ∈ w.inFlight) (hk : r.kind ≠ .execute) :
    (S.drainWorkerResponse E w r .unprocessed).Ensures (Attributed w r) (fun _ => False) ↔
      Harmless w r := by
  have c := hS.lenient_custody hr
  by_cases hl : r.key ∈ w.live
  case neg =>
    rw [drain_unprocessed_dead hl]
    exact iff_of_true (attributed_dead hm hk hl) <| .inl hl
  case pos =>
    by_cases hx : r.key ∈ w.executingTx
    case pos =>
      refine iff_of_false (fun ha => ?_) fun hh => ?_
      · obtain ⟨w', hw, ha⟩ := ha.exists_ok
        have he := (drain_unprocessed_executing hl hx).of_ok hw
        rw [← ha.executingTx, he] at hx
        exact Finset.notMem_erase _ _ hx
      · exact hh.elim (· hl) fun h => h.right hx
    case neg =>
      rw [drain_unprocessed_idle hl hx]
      cases hf : r.kind
      case execute => exact absurd hf hk
      case recheck => exact iff_of_true (attributed_idle c hm hf hl) <| .inr ⟨hf, hx⟩
      case firstCheck =>
        refine iff_of_false (fun ha => ?_) fun hh => ?_
        · obtain ⟨p, ⟨hn, hp⟩, _⟩ := Attributed.place ha hl
          rw [keysIn_answer .unprocessed hn] at hp
          exact hn <| c.owned.place_unique hp <| key_mem_firstCheck hm hf
        · exact hh.elim (· hl) fun h => nomatch hf.symm.trans h.left

theorem Known.unprocessed_check_iff_recheck :
    ∃ w, LenientReach BatchScheduler.scheduler Sample.env ∅ w ∧
      ⟨⟨1000000, 999, 0⟩, .recheck⟩ ∈ w.inFlight ∧ 0 ∈ w.live ∧
      (BatchScheduler.scheduler.drainWorkerResponse Sample.env w ⟨⟨1000000, 999, 0⟩, .recheck⟩
        .unprocessed).Ensures (Attributed w ⟨⟨1000000, 999, 0⟩, .recheck⟩) (fun _ => False) := by
  obtain ⟨w, hr, hm, hl, hh⟩ : ∃ w, BatchScheduler.scheduler.Reachable Sample.env ∅ w ∧
      ⟨⟨1000000, 999, 0⟩, .recheck⟩ ∈ w.inFlight ∧ 0 ∈ w.live ∧
      Harmless w ⟨⟨1000000, 999, 0⟩, .recheck⟩ :=
    Sample.exists_reach (Sample.outForRecheck ⟨1000000, 999, 0⟩) (by decide +kernel)
  exact ⟨w, hr.lenient, hm, hl, (unprocessed_check_iff .batch hr.lenient hm nofun).mpr hh⟩

-- A recheck comes back unprocessed while its transaction is executing: the transaction counts as no
-- longer executing and its compute units as no longer in flight.
theorem Known.unprocessed_recheck_misattributed :
    ∃ w, BatchScheduler.scheduler.Reachable Sample.env ∅ w ∧
      ⟨⟨1000000, 999, 0⟩, .recheck⟩ ∈ w.inFlight ∧ ⟨⟨1000000, 999, 0⟩, .execute⟩ ∈ w.inFlight ∧
      0 ∈ w.executingTx ∧ w.inFlightCus = 999 ∧
      ∃ w', BatchScheduler.scheduler.drainWorkerResponse Sample.env w
          ⟨⟨1000000, 999, 0⟩, .recheck⟩ .unprocessed = .ok w' ∧
        0 ∉ w'.executingTx ∧ w'.inFlightCus = 0 ∧ ⟨⟨1000000, 999, 0⟩, .execute⟩ ∈ w'.inFlight ∧
        ¬Attributed w ⟨⟨1000000, 999, 0⟩, .recheck⟩ w' := by
  obtain ⟨w, hr, hm, hx, he, hc, hd⟩ : ∃ w, BatchScheduler.scheduler.Reachable Sample.env ∅ w ∧
      ⟨⟨1000000, 999, 0⟩, .recheck⟩ ∈ w.inFlight ∧ ⟨⟨1000000, 999, 0⟩, .execute⟩ ∈ w.inFlight ∧
      0 ∈ w.executingTx ∧ w.inFlightCus = 999 ∧
      (BatchScheduler.scheduler.drainWorkerResponse Sample.env w ⟨⟨1000000, 999, 0⟩, .recheck⟩
        .unprocessed).Ensures (fun w' => 0 ∉ w'.executingTx ∧ w'.inFlightCus = 0 ∧
          ⟨⟨1000000, 999, 0⟩, .execute⟩ ∈ w'.inFlight) (fun _ => False) :=
    Sample.exists_reach
      (Sample.outForRecheck ⟨1000000, 999, 0⟩ ++ Sample.poll true 2 [] [] []) (by decide +kernel)
  obtain ⟨w', hw, hn, hz, hf⟩ := hd.exists_ok
  refine ⟨w, hr, hm, hx, he, hc, w', hw, hn, hz, hf, fun ha => ?_⟩
  exact hn <| ha.executingTx ▸ he

end Scheduler
