import SchedArchive.Theorems.Ingest
import SchedArchive.Theorems.Pacing

-- The compute units that are left: for a slot, when `schedule_execute` starts, and for the block, when
-- a transaction comes in.

open Except Ledger

namespace Sample

-- The slot is almost over, and the cutoff leaves no room in a `u8` for the last percent.
def lastPercent : World BatchScheduler.InFlightLocks :=
  { world ∅ with
    progress := progress true 1 99
    runtime  := { args.runtime with blockFillCutoff := 156 } }

end Sample

namespace Scheduler

section FillBudget

variable {L : Type} {E : Env} {w : World L} {progress cutoff : UInt8}

-- What is used up of the block, and what is on its way.
def costUsed (w : World L) : Nat :=
  maxBlockUnits - w.progress.remainingCostUnits + w.inFlightCus

-- The budget over unbounded integers.
def exactBudget (w : World L) : Nat :=
  let percentage := w.progress.currentSlotProgress.toNat + w.runtime.blockFillCutoff.toNat
  maxBlockUnits * min percentage 100 / 100 - costUsed w

-- The same state later in the slot, or with another cutoff.
def later (w : World L) (progress cutoff : UInt8) : World L :=
  { w with
    progress := { w.progress with currentSlotProgress := progress }
    runtime  := { w.runtime with blockFillCutoff := cutoff } }

theorem fillBudget_eq (hc : costUsed w ≤ u64Max) : fillBudget E w = (do
    let percentage ← budgetPercentage E w
    return budgetLimit percentage - costUsed w) := by
  rw [fillBudget]
  refine bind_congr fun percentage => ?_
  rw [Machine.add_eq_ok hc]
  rfl

-- A percentage beyond what a `u8` can hold does not matter only if there is nothing left to spend,
-- and only in a build that wraps around.
theorem fillBudget_eq_exact_iff (hc : costUsed w ≤ u64Max)
    (hs : w.progress.currentSlotProgress ≤ 100) :
    fillBudget E w = .ok (exactBudget w) ↔
      w.progress.currentSlotProgress.toNat + w.runtime.blockFillCutoff.toNat < 256 ∨
        (E.overflowChecks = false ∧ maxBlockUnits ≤ costUsed w) := by
  have hs : w.progress.currentSlotProgress.toNat ≤ 100 := UInt8.le_iff_toNat_le.mp hs
  rw [fillBudget_eq hc]
  unfold budgetPercentage exactBudget
  generalize w.progress.currentSlotProgress = p at hs
  generalize w.runtime.blockFillCutoff = q
  dsimp only
  split_ifs with hu ho
  case pos => exact iff_of_true rfl <| .inl hu
  case pos => exact iff_of_false (fun he => by cases he) <| by simp [hu, ho]
  case neg =>
    have hq := q.toNat_lt
    have hw : (p + q).toNat = p.toNat + q.toNat - 256 := by
      rw [UInt8.toNat_add]
      omega
    simp only [hu, ho, false_or, true_and, hw]
    change Except.ok (_ - _) = _ ↔ _
    rw [Except.ok.injEq, budgetLimit]
    unfold maxBlockUnits
    omega

-- What the budget should do: it is what it is over unbounded integers, and it does not decrease as
-- the slot goes on or the cutoff is raised.
structure BudgetGrows (E : Env) (w : World L) (progress cutoff : UInt8) : Prop where
  exact : fillBudget E w = .ok (exactBudget w)
  later : fillBudget E (later w progress cutoff) = .ok (exactBudget (later w progress cutoff))
  grows : ∃ budget budget', fillBudget E w = .ok budget ∧
            fillBudget E (Scheduler.later w progress cutoff) = .ok budget' ∧ budget ≤ budget'

theorem exactBudget_le_later (hp : w.progress.currentSlotProgress ≤ progress)
    (hc : w.runtime.blockFillCutoff ≤ cutoff) :
    exactBudget w ≤ exactBudget (later w progress cutoff) := by
  have hp : w.progress.currentSlotProgress.toNat ≤ progress.toNat := UInt8.le_iff_toNat_le.mp hp
  have hc : w.runtime.blockFillCutoff.toNat ≤ cutoff.toNat := UInt8.le_iff_toNat_le.mp hc
  change maxBlockUnits * min (_ + _) 100 / 100 - costUsed w ≤
    maxBlockUnits * min (progress.toNat + cutoff.toNat) 100 / 100 - costUsed w
  unfold maxBlockUnits
  omega

-- The budget grows as it should exactly if its percentage fits a `u8`, or wraps around when the block
-- is full anyway.
theorem fill_budget_grows_iff (hu : w.inFlightCus ≤ maxBlockUnits)
    (hp : w.progress.currentSlotProgress ≤ progress) (h100 : progress ≤ 100)
    (hc : w.runtime.blockFillCutoff ≤ cutoff) :
    BudgetGrows E w progress cutoff ↔ progress.toNat + cutoff.toNat < 256 ∨
      (E.overflowChecks = false ∧
        maxBlockUnits ≤ maxBlockUnits - w.progress.remainingCostUnits + w.inFlightCus) := by
  have hu : costUsed w ≤ u64Max := by
    unfold costUsed u64Max
    unfold maxBlockUnits at hu ⊢
    omega
  have he := fillBudget_eq_exact_iff (E := E) hu (UInt8.le_trans hp h100)
  have hl := fillBudget_eq_exact_iff (E := E) (w := later w progress cutoff) hu h100
  constructor
  case mp => exact fun hg => hl.mp hg.later
  case mpr =>
    intro hw
    have hl := hl.mpr hw
    have he : fillBudget E w = .ok (exactBudget w) := by
      refine he.mpr <| hw.imp_left fun hs => hs.trans_le' ?_
      exact Nat.add_le_add (UInt8.le_iff_toNat_le.mp hp) (UInt8.le_iff_toNat_le.mp hc)
    exact ⟨he, hl, _, _, he, hl, exactBudget_le_later hp hc⟩

-- With the default cutoff, the budget grows to the end of the slot.
theorem fill_budget_grows_iff_default :
    BudgetGrows Sample.env (Sample.world (∅ : BatchScheduler.InFlightLocks)) 100 20 :=
  (fill_budget_grows_iff (by decide) (by decide) (by decide) (by decide)).mpr (by decide)

theorem budget_wraps_around :
    fillBudget Sample.release Sample.lastPercent = .ok 60000000 ∧
      fillBudget Sample.release (later Sample.lastPercent 100 156) = .ok 0 ∧
      fillBudget Sample.env (later Sample.lastPercent 100 156) = .error .overflow ∧
      ¬BudgetGrows Sample.release Sample.lastPercent 100 156 ∧
      ¬BudgetGrows Sample.env Sample.lastPercent 100 156 := by
  have hr : fillBudget Sample.release Sample.lastPercent = .ok 60000000 := by decide
  have hr' : fillBudget Sample.release (later Sample.lastPercent 100 156) = .ok 0 := by decide
  have he : fillBudget Sample.env (later Sample.lastPercent 100 156) = .error .overflow := by decide
  refine ⟨hr, hr', he, fun hg => ?_, fun hg => ?_⟩
  · obtain ⟨_, _, hb, hb', hle⟩ := hg.grows
    cases hr.symm.trans hb
    cases hr'.symm.trans hb'
    exact absurd hle (by decide)
  · obtain ⟨_, _, _, hb', _⟩ := hg.grows
    cases he.symm.trans hb'

end FillBudget

section RemainingCu

variable {L : Type} {S : Scheduler L} {E : Env} {locks : L} {w w' w₁ : World L} {e : Event} {n : Nat}

-- The message that a step receives from the validator.
def progressMessage : Event → Option ProgressMessage
  | .checkSlotRoll message => message
  | _                      => none

-- The validator never has more than a whole block left, and no message leaves less of it than what is
-- in flight.
def Covers (w : World L) (e : Event) : Prop :=
  w.progress.remainingCostUnits ≤ maxBlockUnits ∧
    ∀ m ∈ progressMessage e, w.inFlightCus ≤ m.remainingCostUnits

instance : Decidable (Covers w e) :=
  inferInstanceAs <| Decidable (_ ∧ _)

-- Everything is allowed but starting work from the queues.
def paused (L : Type) : Terms L where
  brings   := fun _ => True
  reprices := fun _ _ => True
  tips     := True
  starts   := False

theorem inFlightCus_move {P : LockPolicy L} {l l' : Ledger L} {h h' : Multiset TransactionKey}
    (m : Move P E (paused L) l h l' h') : l'.inFlightCus ≤ l.inFlightCus := by
  cases m
  case finishDrop | finishChecked | finishDeferred => exact Nat.sub_le ..
  case dropBundle => rw [dropBundle, dropAll_eq]
  case startTx hs _ _ _ _ _ _     => exact hs.elim
  case startBundle hs _ _ _ _ _ _ => exact hs.elim
  all_goals exact le_rfl

-- Without work from the queues, what is in flight does not grow.
theorem kept_paused (lf : LockFaults S.toLockPolicy) (n : Nat) :
    Kept S.toLockPolicy E (paused L) (¬·.IsCustody)
      (fun l h => (l.Custody E h ∧ l.Vetted E) ∧ l.inFlightCus ≤ n) :=
  lf.kept (fun hi => hi.left.left) (fun m hi =>
    ⟨⟨hi.left.left.move m, hi.left.right.move hi.left.left m⟩, (inFlightCus_move m).trans hi.right⟩)
    fun _ _ => trivial

theorem within_paused (hn : e ≠ .scheduleExecute) : S.Within E (paused L) w e where
  brings _ _ := trivial
  tips _ _   := .inl trivial
  starts he  := absurd he hn
  ticks _    := trivial
  prices _ _ := trivial

-- What `schedule_execute` sends is covered by what is left of the block.
theorem scheduleExecute_covered (hS : S.Known locks) (hi : w.Custody E 0 ∧ w.Vetted E)
    (hm : w.progress.remainingCostUnits ≤ maxBlockUnits)
    (hc : w.inFlightCus ≤ w.progress.remainingCostUnits) (hs : S.scheduleExecute E w = .ok w') :
    w'.inFlightCus ≤ w.progress.remainingCostUnits := by
  obtain ⟨budget, hb, _⟩ := bind_eq_ok.mp hs
  obtain ⟨hle, _⟩ := (exists_last_round hs).spent hS hi hb
  by_cases hn : budget = 0
  case pos => omega
  case neg =>
    obtain ⟨percentage, hp, hl⟩ := used_add_budget hi.left.metered hb hn
    have hl' := budgetLimit_le (ensures_budgetPercentage.of_ok hp)
    omega

theorem covered_step (hS : S.Known locks) (hi : w.Custody E 0 ∧ w.Vetted E)
    (hc : w.inFlightCus ≤ w.progress.remainingCostUnits) (he : e.Enabled w) (hC : Covers w e) :
    (S.step E w e).Ensures (fun w' => w'.inFlightCus ≤ w'.progress.remainingCostUnits)
      (fun _ => True) := by
  cases hs : S.step E w e
  case error => trivial
  case ok w' =>
    have hp : w'.progress = (settingsAfter w e).progress :=
      congrArg (·.progress) <| hS.settings_step.of_ok hs
    have hk : e ≠ .scheduleExecute → w'.inFlightCus ≤ w.inFlightCus := fun hn =>
      ((kept_paused hS.lockFaults _).step hS.lawful ⟨hi, le_rfl⟩ he (within_paused hn)).of_ok hs |>.right
    rw [ensures_ok, hp]
    cases e
    case checkSlotRoll message =>
      refine (hk nofun).trans ?_
      cases message
      case none   => exact hc
      case some m => exact hC.right m rfl
    case scheduleExecute => exact scheduleExecute_covered hS hi hC.left hc hs
    all_goals exact (hk nofun).trans hc

theorem Known.covered (hS : S.Known locks) (hr : S.Reach E locks Covers w) :
    (w.Custody E 0 ∧ w.Vetted E) ∧ w.inFlightCus ≤ w.progress.remainingCostUnits := by
  induction hr
  case init h =>
    rw [h.ledger]
    exact ⟨⟨custody_empty, vetted_empty⟩, Nat.zero_le _⟩
  case step he hC hs ih =>
    refine ⟨((kept_vetted hS.lockFaults).step hS.lawful ih.left he within_all).of_ok hs, ?_⟩
    exact (covered_step hS ih.left ih.right he hC).of_ok hs

-- The states in which `drain_tpu` and `on_packet` call `effective_remaining_cu`, in a step from `w`.
inductive Calls (S : Scheduler L) (E : Env) (w : World L) : Event → World L → Prop
  | drainTpu {backlog before after : List Packet} {tx : Tx} {maxCount : Nat} {w₁ w₂ : World L} :
    evictUnchecked (shortfall w backlog maxCount) w = .ok w₁ →
    backlog.take maxCount = before ++ some tx :: after →
    before.foldlM (S.onTpu E) (w₁.count fun s =>
      { s with ingestTpuEvict := s.ingestTpuEvict + shortfall w backlog maxCount }) = .ok w₂ →
    Calls S E w (.drainTpu backlog maxCount) (w₂.insertTransaction E tx)
  | onPacket {channel : JitoChannel} {cancelled : Bool} {before after : List JitoUpdate} {tx : Tx}
    {w₂ : World L} :
    channel.messages = before ++ .packet (some tx) :: after →
    before.foldlM (S.onJitoUpdate E) w = .ok w₂ →
    Calls S E w (.drainJito channel cancelled) (w₂.insertTransaction E tx)

-- What the loops of these two do between the calls.
structure Between (E : Env) (w w' : World L) : Prop where
  ledger   : (w'.Custody E 0 ∧ w'.Vetted E) ∧ w'.inFlightCus ≤ w.inFlightCus
  progress : w'.progress = w.progress

theorem ensures_between {F : Fault → Prop} {x : Except Fault (World L)}
    (hk : x.Ensures
      (fun w' => (w'.Custody E 0 ∧ w'.Vetted E) ∧ w'.inFlightCus ≤ w.inFlightCus) F)
    (hp : x.Ensures (·.progress = w.progress) (fun _ => True)) :
    x.Ensures (Between E w) (fun _ => True) := by
  cases x
  case ok w'  => exact ⟨hk, hp⟩
  case error => trivial

theorem between_foldlM_onTpu (hS : S.Known locks) {packets : List Packet} (hb : Between E w w₁) :
    (packets.foldlM (S.onTpu E) w₁).Ensures (Between E w) (fun _ => True) := by
  refine ensures_foldlM (I := Between E w) (fun w₂ packet _ h₂ => ?_) hb
  cases packet
  case none => exact h₂
  case some =>
    refine ensures_between ((kept_paused hS.lockFaults _).onTpu hS.lawful h₂.ledger trivial) ?_
    exact spares_onTpu.imp fun w₃ h₃ => (congrArg (·.progress) h₃.settings).trans h₂.progress

theorem between_foldlM_onJitoUpdate (hS : S.Known locks) {messages : List JitoUpdate}
    (hb : Between E w w₁) :
    (messages.foldlM (S.onJitoUpdate E) w₁).Ensures (Between E w) (fun _ => True) := by
  refine ensures_foldlM (I := Between E w) (fun w₂ m _ h₂ => ?_) hb
  refine ensures_between ((kept_paused hS.lockFaults _).onJitoUpdate hS.lawful h₂.ledger
    (fun _ _ => trivial) (fun _ _ _ _ => trivial)) ?_
  exact heeds_onJitoUpdate.imp fun w₃ h₃ => (congrArg (·.progress) h₃.settings).trans h₂.progress

theorem Calls.between (hS : S.Known locks) (hi : w.Custody E 0 ∧ w.Vetted E)
    (hc : Calls S E w e w₁) : w₁.inFlightCus ≤ w.inFlightCus ∧ w₁.progress = w.progress := by
  cases hc
  case drainTpu backlog _ _ _ maxCount w₀ w₂ hv _ hw =>
    have hk := (kept_paused hS.lockFaults w.inFlightCus).evictUnchecked
      (n := shortfall w backlog maxCount) ⟨hi, le_rfl⟩
    have hp : w₀.progress = w.progress :=
      congrArg (·.progress) (spares_evictUnchecked.of_ok hv).settings
    have hb (f) : Between E w (w₀.count f) := ⟨(hk.of_ok hv).left, hp⟩
    have hb := (between_foldlM_onTpu hS (hb _)).of_ok hw
    exact ⟨hb.ledger.right, hb.progress⟩
  case onPacket w₂ _ hw =>
    have hb := (between_foldlM_onJitoUpdate hS (w := w) ⟨⟨hi, le_rfl⟩, rfl⟩).of_ok hw
    exact ⟨hb.ledger.right, hb.progress⟩

end RemainingCu

end Scheduler

namespace AuctionBatchScheduler

open Scheduler

variable {E : Env} {w w₁ : World Engine} {e : Event} {libm : AuctionEngine.Libm ℚ} {minScore : Nat}

theorem effectiveRemainingCu_eq (hc : w.inFlightCus ≤ w.progress.remainingCostUnits)
    (hm : w.progress.remainingCostUnits ≤ maxBlockUnits) :
    effectiveRemainingCu E w = .ok (w.progress.remainingCostUnits - w.inFlightCus) := by
  rw [effectiveRemainingCu, Machine.sub_eq_ok hm]
  change (Machine.sub E.overflowChecks _ _ >>= _) = _
  rw [Machine.sub_eq_ok (Nat.sub_le ..), Nat.sub_sub_self hm]
  exact Machine.sub_eq_ok hc

-- As long as no progress message leaves less of the block than what is in flight, neither subtraction
-- goes below zero, wherever `effective_remaining_cu` is called.
theorem effective_remaining_cu_covered
    (hr : (scheduler libm minScore).Reach E initialEngine Covers w) (hC : Covers w e)
    (hc : Calls (scheduler libm minScore) E w e w₁) :
    w₁.inFlightCus ≤ w₁.progress.remainingCostUnits ∧
      w₁.progress.remainingCostUnits ≤ maxBlockUnits ∧
      effectiveRemainingCu E w₁ = .ok (w₁.progress.remainingCostUnits - w₁.inFlightCus) := by
  obtain ⟨hi, hw⟩ := Known.covered (.auction libm minScore) hr
  obtain ⟨hle, hp⟩ := hc.between (.auction libm minScore) hi
  have hle : w₁.inFlightCus ≤ w₁.progress.remainingCostUnits := hp ▸ hle.trans hw
  have hm : w₁.progress.remainingCostUnits ≤ maxBlockUnits := hp ▸ hC.left
  exact ⟨hle, hm, effectiveRemainingCu_eq hle hm⟩

-- A packet comes in while a transaction is executing.
theorem effective_remaining_cu_covered_executing :
    ∃ w w₁, Sample.auction.Reach Sample.env initialEngine Covers w ∧ w.inFlightCus = 999 ∧
      Calls Sample.auction Sample.env w (.drainTpu [Sample.packet 10] 128) w₁ ∧
      effectiveRemainingCu Sample.env w₁ =
        .ok (w₁.progress.remainingCostUnits - w₁.inFlightCus) := by
  obtain ⟨w, hr, hu, hs, hC⟩ : ∃ w, Sample.auction.Reach Sample.env initialEngine Covers w ∧
      w.inFlightCus = 999 ∧ shortfall w [Sample.packet 10] 128 = 0 ∧
      Covers w (.drainTpu [Sample.packet 10] 128) :=
    Sample.exists_reach (Sample.executed ⟨999519374, 999, 0⟩) (by decide +kernel)
  have hc := @Calls.drainTpu _ Sample.auction Sample.env w [Sample.packet 10] [] [] _ 128 _ _
    (by rw [hs]; rfl) rfl rfl
  exact ⟨w, _, hr, hu, hc, (effective_remaining_cu_covered hr hC hc).right.right⟩

-- The block fills up while a transaction is executing, and the next packet brings the scheduler down.
theorem remaining_cu_underflows :
    ∃ w, Sample.auction.Reachable Sample.env initialEngine w ∧
      w.progress.remainingCostUnits < w.inFlightCus ∧
      Sample.auction.drainTpu Sample.env w [Sample.packet 10] 128 = .error .overflow := by
  obtain ⟨w, hr, hu, hd⟩ : ∃ w, Sample.auction.Reachable Sample.env initialEngine w ∧
      w.progress.remainingCostUnits < w.inFlightCus ∧
      (Sample.auction.drainTpu Sample.env w [Sample.packet 10] 128).Ensures (fun _ => False)
        (· = .overflow) :=
    Sample.exists_reach
      (Sample.executed ⟨999519374, 999, 0⟩ ++ [.checkSlotRoll (some ⟨true, 1, 500, 50⟩)])
      (by decide +kernel)
  exact ⟨w, hr, hu, hd.eq_error⟩

end AuctionBatchScheduler
