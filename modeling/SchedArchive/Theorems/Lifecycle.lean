import SchedArchive.Custody.Stages
import SchedArchive.Custody.Places
import SchedArchive.Theorems.Custody

-- Which stages of its life a key can go through, and which handler takes it from one to the next.

open Except Ledger

namespace Event

open Stage Place

-- The changes of stage a step can bring about.
def changes : Event → List (Stage × Stage)
  | checkSlotRoll _    =>
    [(held deferred, held checked), (unborn, held executing), (unborn, dropped)]
  | workerResponse _ _ =>
    [(held firstCheck, held checked), (held firstCheck, dropped), (held checked, dropped),
      (held executing, held checked), (held executing, held deferred), (held executing, dropped)]
  | drainTpu _ _       =>
    [(unborn, held unchecked), (unborn, dropped), (held unchecked, dropped)]
  | dropExpiredBundles => [(held bundled, dropped)]
  | drainJito _ _      =>
    [(unborn, held unchecked), (unborn, held bundled), (unborn, dropped), (held unchecked, dropped),
      (held bundled, dropped)]
  | scheduleChecks _   => [(held unchecked, held firstCheck)]
  | scheduleExecute    => [(held checked, held executing), (held bundled, held executing)]
  | _                  => []

end Event

namespace Ledger

variable {L : Type} {l : Ledger L} {k : TransactionKey}

theorem mem_keysIn_deferred (hk : k ∈ l.keysIn .deferred) : ∃ id ∈ l.deferredTx, id.key = k := by
  simpa [keysIn] using hk

theorem mem_keysIn_checked (hk : k ∈ l.keysIn .checked) : ∃ id ∈ l.checkedTx, id.key = k := by
  simpa [keysIn] using hk

theorem mem_keysIn_bundled (hk : k ∈ l.keysIn .bundled) : ∃ b ∈ l.bundles, k ∈ b.keys := by
  simpa [keysIn] using hk

end Ledger

namespace Scheduler

variable {L : Type} {E : Env} {l l' : Ledger L}

theorem keysIn_of_pending (h : l'.pending = l.pending) {p : Place} (hu : p ≠ .unchecked)
    (hf : p ≠ .firstCheck) (hb : p ≠ .bundled) : l'.keysIn p = l.keysIn p := by
  cases p
  case unchecked  => exact absurd rfl hu
  case firstCheck => exact absurd rfl hf
  case bundled    => exact absurd rfl hb
  case checked    => exact congrArg (fun x : Pending => x.checkedTx.val.map (·.key)) h
  case executing  => exact congrArg (fun x : Pending => x.executingTx.val) h
  case deferred   =>
    exact congrArg (fun x : Pending => (x.deferredTx : Multiset PriorityId).map (·.key)) h

-- What comes in leaves all but the unchecked and the bundled transactions alone.
structure Intake (l l' : Ledger L) : Prop where
  pending  : l'.pending = l.pending
  inFlight : l'.inFlight = l.inFlight

theorem Intake.keysIn_eq (h : Intake l l') {p : Place} (hu : p ≠ .unchecked) (hb : p ≠ .bundled) :
    l'.keysIn p = l.keysIn p := by
  by_cases hf : p = .firstCheck
  case pos => rw [hf, keysIn, keysIn, firstChecks, firstChecks, h.inFlight]
  case neg => exact keysIn_of_pending h.pending hu hf hb

section

variable (g : Grown E l l') (c : l.Custody E 0) (c' : l'.Custody E 0)

include g c c'

theorem Answers.changes (h : Answers l l') {r : Request} {a : WorkerAction} :
    Changes E (Event.workerResponse r a).changes l l' := by
  have sh : Shift E [.held .firstCheck, .held .checked, .held .executing]
      [.held .checked, .held .deferred, .dropped] l l' := by
    refine g.shift (fun _ => h.inserted) (fun hd => by simp at hd) (fun p hp k hk => ?_)
      fun p hp k hk => ?_
    case refine_1 =>
      cases p
      case unchecked => rwa [keysIn, h.unchecked]
      case deferred  =>
        obtain ⟨id, hi, rfl⟩ := mem_keysIn_deferred hk
        exact key_mem_deferred <| h.deferred id hi
      case bundled   => rwa [keysIn, h.bundles]
      all_goals simp at hp
    case refine_2 =>
      cases p
      case unchecked  => rwa [keysIn, h.unchecked] at hk
      case firstCheck =>
        exact Multiset.subset_of_le (Multiset.map_le_map <| Multiset.filter_le_filter _ h.inFlight) hk
      case executing  => exact h.executing k hk
      case bundled    => rwa [keysIn, h.bundles] at hk
      all_goals simp at hp
  -- What is deferred was executing before.
  refine sh.changes c.owned c'.owned
    (X := [(.held .firstCheck, .held .deferred), (.held .checked, .held .deferred)]) ?_
    (by simp [Event.changes])
  have hd : ∀ {k p}, k ∈ l'.keysIn .deferred → k ∈ l.keysIn p → p = .deferred ∨ p = .executing := by
    intro k p hk hp
    obtain ⟨id, hi, rfl⟩ := mem_keysIn_deferred hk
    refine (h.deferring id hi).imp (fun hi => ?_) fun hi => ?_
    · exact c.owned.place_unique hp <| key_mem_deferred hi
    · exact c.owned.place_unique hp <| key_mem_executing hi
  simp only [List.mem_cons, List.not_mem_nil, or_false]
  rintro _ (rfl | rfl) k hs hs'
  · simpa using hd hs' hs
  · simpa using hd hs' hs

theorem Intake.changes_drainTpu (h : Intake l l') (hb : l'.bundles = l.bundles)
    {backlog : List Packet} {maxCount : Nat} :
    Changes E (Event.drainTpu backlog maxCount).changes l l' := by
  have hk : ∀ p ≠ .unchecked, l'.keysIn p = l.keysIn p := by
    intro p hp
    by_cases hn : p = .bundled
    case neg => exact h.keysIn_eq hp hn
    case pos => rw [hn, keysIn, keysIn, hb]
  have sh : Shift E [.unborn, .held .unchecked] [.held .unchecked, .dropped] l l' := by
    refine g.shift (fun hu => by simp at hu) (fun hd => by simp at hd) (fun p hp => ?_) fun p hp => ?_
    case refine_1 => exact (hk p fun he => by simp [he] at hp) ▸ Multiset.Subset.refl _
    case refine_2 => exact (hk p fun he => by simp [he] at hp) ▸ Multiset.Subset.refl _
  exact sh.changes c.owned c'.owned (X := []) (by simp) (by simp [Event.changes])

theorem Intake.changes_dropExpiredBundles (h : Intake l l') (hu : l'.uncheckedTx = l.uncheckedTx)
    (hi : l'.inserted = l.inserted) (hb : ∀ b ∈ l'.bundles, b ∈ l.bundles) :
    Changes E Event.dropExpiredBundles.changes l l' := by
  have hk : ∀ p ≠ .bundled, l'.keysIn p = l.keysIn p := by
    intro p hp
    by_cases hn : p = .unchecked
    case neg => exact h.keysIn_eq hn hp
    case pos => rw [hn, keysIn, keysIn, hu]
  have sh : Shift E [.held .bundled] [.dropped] l l' := by
    refine g.shift (fun _ => hi) (fun hd => by simp at hd) (fun p hp => ?_) fun p hp k hk' => ?_
    case refine_1 => exact (hk p fun he => by simp [he] at hp) ▸ Multiset.Subset.refl _
    case refine_2 =>
      by_cases hn : p = .bundled
      case neg => exact hk p hn ▸ hk'
      case pos =>
        obtain ⟨b, hb', hm⟩ := mem_keysIn_bundled (hn ▸ hk')
        exact hn ▸ key_mem_bundled (hb b hb') hm
  exact sh.changes c.owned c'.owned (X := []) (by simp) (by decide)

theorem Intake.changes_drainJito (h : Intake l l') {channel : JitoChannel} {cancelled : Bool} :
    Changes E (Event.drainJito channel cancelled).changes l l' := by
  have sh : Shift E [.unborn, .held .unchecked, .held .bundled]
      [.held .unchecked, .held .bundled, .dropped] l l' := by
    have hk : ∀ p, p ≠ .unchecked ∧ p ≠ .bundled → l'.keysIn p = l.keysIn p :=
      fun p hp => h.keysIn_eq hp.left hp.right
    refine g.shift (fun hu => by simp at hu) (fun hd => by simp at hd) (fun p hp => ?_) fun p hp => ?_
    case refine_1 => exact (hk p <| by simpa using hp) ▸ Multiset.Subset.refl _
    case refine_2 => exact (hk p <| by simpa using hp) ▸ Multiset.Subset.refl _
  -- A key that was handed out before is the key of a bundled transaction or never becomes one.
  have hv : ∀ {l : Ledger L} {k}, l.Custody E 0 → k ∈ l.keysIn .unchecked → k ∉ l.viaBundle := by
    intro l k c hk
    obtain ⟨id, hi, rfl⟩ := Multiset.mem_map.mp hk
    exact (c.labelled.unchecked id hi).key
  have hb : ∀ {l : Ledger L} {k}, l.Custody E 0 → k ∈ l.keysIn .bundled → k ∈ l.viaBundle := by
    intro l k c hk
    obtain ⟨b, hb, hk⟩ := mem_keysIn_bundled hk
    exact ((c.labelled.bundles b hb).right k hk).left
  refine sh.changes c.owned c'.owned
    (X := [(.held .unchecked, .held .bundled), (.held .bundled, .held .unchecked)]) ?_
    (by simp [Event.changes])
  simp only [List.mem_cons, List.not_mem_nil, or_false]
  rintro _ (rfl | rfl) k hs hs'
  · refine hv c hs <| g.bundled k (hb c' hs') ?_
    exact c.owned.minted_of_live <| c.owned.live_of_keysIn hs
  · exact hv c' hs' <| g.viaBundle k <| hb c hs

theorem Asks.changes {reads : Nat → Nat} (h : Asks l l') (hp : l'.pending = l.pending) :
    Changes E (Event.scheduleChecks reads).changes l l' := by
  rw [Event.changes]
  have hf : l.firstChecks ≤ l'.firstChecks := Multiset.filter_le_filter _ h.inFlight
  have hk : ∀ p, p ≠ .unchecked ∧ p ≠ .firstCheck → l'.keysIn p = l.keysIn p := by
    intro p hn
    by_cases hb : p = .bundled
    case pos => rw [hb, keysIn, keysIn, h.bundles]
    case neg => exact keysIn_of_pending hp hn.left hn.right hb
  have sh : Shift E [.held .unchecked] [.held .firstCheck] l l' := by
    refine g.shift (fun _ => h.inserted) (fun _ => h.dropped) (fun p hn => ?_) fun p hn => ?_
    case refine_1 =>
      by_cases he : p = .firstCheck
      case pos => exact he ▸ Multiset.subset_of_le (Multiset.map_le_map hf)
      case neg => exact (hk p ⟨by simpa using hn, he⟩) ▸ Multiset.Subset.refl _
    case refine_2 =>
      by_cases he : p = .unchecked
      case pos => exact he ▸ Multiset.subset_of_le (Multiset.map_le_map h.unchecked)
      case neg => exact (hk p ⟨he, by simpa using hn⟩) ▸ Multiset.Subset.refl _
  exact sh.changes c.owned c'.owned (X := []) (by simp) (by decide)

theorem Starts.changes (h : Starts l l') : Changes E Event.scheduleExecute.changes l l' := by
  have sh : Shift E [.held .checked, .held .bundled] [.held .executing] l l' := by
    refine g.shift (fun _ => h.inserted) (fun _ => h.dropped) (fun p hp k hk => ?_)
      fun p hp k hk => ?_
    case refine_1 =>
      cases p
      case unchecked  => rwa [keysIn, h.unchecked]
      case firstCheck => rwa [keysIn, h.firstChecks]
      case executing  => exact h.executing k hk
      case deferred   => rwa [keysIn, h.deferred]
      all_goals simp at hp
    case refine_2 =>
      cases p
      case unchecked  => rwa [keysIn, h.unchecked] at hk
      case firstCheck => rwa [keysIn, h.firstChecks] at hk
      case checked    =>
        obtain ⟨id, hi, rfl⟩ := mem_keysIn_checked hk
        exact key_mem_checked <| h.checked id hi
      case deferred   => rwa [keysIn, h.deferred] at hk
      case bundled    =>
        obtain ⟨b, hb, hk⟩ := mem_keysIn_bundled hk
        exact key_mem_bundled (h.bundles b hb) hk
      case executing  => simp at hp
  exact sh.changes c.owned c'.owned (X := []) (by simp) (by decide)

theorem Rolls.changes (h : Rolls l l') :
    Changes E [(.held .deferred, .held .checked)] l l' := by
  have sh : Shift E [.held .deferred] [.held .checked] l l' := by
    refine g.shift (fun _ => h.inserted) (fun _ => h.dropped) (fun p hp k hk => ?_)
      fun p hp k hk => ?_
    case refine_1 =>
      cases p
      case unchecked  => rwa [keysIn, h.unchecked]
      case firstCheck => rwa [keysIn, firstChecks, h.inFlight]
      case checked    =>
        obtain ⟨id, hi, rfl⟩ := mem_keysIn_checked hk
        exact key_mem_checked <| h.checked id hi
      case executing  => rwa [keysIn, h.executing]
      case bundled    => rwa [keysIn, h.bundles]
      case deferred   => simp at hp
    case refine_2 =>
      cases p
      case unchecked  => rwa [keysIn, h.unchecked] at hk
      case firstCheck => rwa [keysIn, firstChecks, h.inFlight] at hk
      case executing  => rwa [keysIn, h.executing] at hk
      case deferred   =>
        obtain ⟨id, hi, rfl⟩ := mem_keysIn_deferred hk
        exact key_mem_deferred <| h.deferred id hi
      case bundled    => rwa [keysIn, h.bundles] at hk
      case checked    => simp at hp
  exact sh.changes c.owned c'.owned (X := []) (by simp) (by decide)

theorem Tips.changes (h : Tips l l') :
    Changes E [(.unborn, .held .executing), (.unborn, .dropped)] l l' := by
  have hk : ∀ p ≠ .executing, l'.keysIn p = l.keysIn p := by
    intro p hp
    cases p
    case unchecked  => rw [keysIn, keysIn, h.unchecked]
    case firstCheck => rw [keysIn, keysIn, h.firstChecks]
    case checked    => rw [keysIn, keysIn, h.checked]
    case executing  => exact absurd rfl hp
    case deferred   => rw [keysIn, keysIn, h.deferred]
    case bundled    => rw [keysIn, keysIn, h.bundles]
  have sh : Shift E [.unborn] [.held .executing, .dropped] l l' := by
    refine g.shift (fun hu => by simp at hu) (fun hd => by simp at hd) (fun p hp => ?_) fun p hp => ?_
    case refine_1 =>
      by_cases he : p = .executing
      case pos => exact he ▸ h.executing
      case neg => exact (hk p he) ▸ Multiset.Subset.refl _
    case refine_2 => exact (hk p <| by simpa using hp) ▸ Multiset.Subset.refl _
  exact sh.changes c.owned c'.owned (X := []) (by simp) (by decide)

end

variable {S : Scheduler L} {locks : L} {w w' : World L} {e : Event}

theorem intake_drainTpu {backlog : List Packet} {maxCount : Nat} :
    (S.drainTpu E w backlog maxCount).Ensures (fun w' => Intake w.toLedger w'.toLedger ∧
      w'.bundles = w.bundles) (fun _ => True) := by
  have U : Untouched E fun l' : Ledger L => l'.inFlight = w.inFlight ∧ l'.bundles = w.bundles :=
    ⟨fun _ h => h, fun h => h, fun h => h⟩
  cases hs : S.drainTpu E w backlog maxCount
  case error => trivial
  case ok w' =>
    have ⟨hi, hb⟩ := (U.drainTpu ⟨rfl, rfl⟩).of_ok hs
    exact ⟨⟨(spares_drainTpu.of_ok hs).pending, hi⟩, hb⟩

theorem intake_drainJito {channel : JitoChannel} {cancelled : Bool} :
    (S.drainJito E w channel cancelled).Ensures (fun w' => Intake w.toLedger w'.toLedger)
      (fun _ => True) := by
  have U : UntouchedByBundles E fun l' : Ledger L => l'.inFlight = w.inFlight :=
    ⟨⟨fun _ h => h, fun h => h, fun h => h⟩, fun _ h => h, fun _ h => h, fun _ h => h⟩
  cases hs : S.drainJito E w channel cancelled
  case error => trivial
  case ok w' => exact ⟨(heeds_drainJito.of_ok hs).pending, (U.drainJito rfl).of_ok hs⟩

theorem intake_dropExpiredBundles :
    Intake w.toLedger (S.dropExpiredBundles w).toLedger ∧
      (S.dropExpiredBundles w).uncheckedTx = w.uncheckedTx ∧
      (S.dropExpiredBundles w).inserted = w.inserted ∧
      ∀ b ∈ (S.dropExpiredBundles w).bundles, b ∈ w.bundles := by
  have hf : ∀ (bs : List BundleId) (w : World L),
      (bs.foldl (World.dropBundle S.toLockPolicy) w).inFlight = w.inFlight ∧
      (bs.foldl (World.dropBundle S.toLockPolicy) w).uncheckedTx = w.uncheckedTx ∧
      (bs.foldl (World.dropBundle S.toLockPolicy) w).inserted = w.inserted ∧
      ∀ b ∈ (bs.foldl (World.dropBundle S.toLockPolicy) w).bundles, b ∈ w.bundles := by
    intro bs
    induction bs
    case nil => exact fun w => ⟨rfl, rfl, rfl, fun _ h => h⟩
    case cons b bs ih =>
      intro w
      obtain ⟨hi, hu, hn, hb⟩ := ih <| w.dropBundle S.toLockPolicy b
      rw [toLedger_dropBundle, Ledger.dropBundle, dropAll_eq] at hi hu hn hb
      exact ⟨hi, hu, hn, fun b' hm => Finset.mem_of_mem_erase <| hb b' hm⟩
  obtain ⟨hi, hr⟩ := hf _ w
  exact ⟨⟨spares_dropExpiredBundles.pending, hi⟩, hr⟩

theorem Known.changes_checkSlotRoll (hS : S.Known locks) {m : Option ProgressMessage}
    (c : w.Custody E 0) : (S.checkSlotRoll E w m).Ensures
      (fun w' => Changes E (Event.checkSlotRoll m).changes w.toLedger w'.toLedger)
      (fun _ => True) := by
  rw [checkSlotRoll, ensures_bind]
  cases hw : S.rolled E w m
  case error => trivial
  case ok w₁ =>
    obtain ⟨c₁, g₁⟩ := ((kept_grown hS.lockFaults w.toLedger).rolled ⟨c, .refl⟩).of_ok hw
    have h₁ := (rolls_rolled.of_ok hw).left.changes g₁ c c₁
    rw [ensures_ok]
    split
    case isFalse => exact h₁.mono <| by simp [Event.changes]
    case isTrue =>
      cases hw' : S.becomeTipReceiver E (w₁.count fun s => { s with wasLeaderReady := true })
      case error => trivial
      case ok w' =>
        have K := kept_grown (E := E) hS.lockFaults w₁.toLedger
        obtain ⟨c', g'⟩ := (K.becomeTipReceiver (w := w₁.count _) ⟨c₁, .refl⟩ <| .inl trivial).of_ok hw'
        have h' := (tips_becomeTipReceiver.of_ok hw').changes g' c₁ c'
        -- The tip transactions are new, so none of them was deferred.
        exact h₁.trans h' c₁.owned (by simp [Event.changes]) (by simp [Event.changes])
          (by simp)

theorem Known.changes_step (hS : S.Known locks) (c : w.Custody E 0) (he : e.Enabled w)
    (hs : S.step E w e = .ok w') : Changes E e.changes w.toLedger w'.toLedger := by
  obtain ⟨c', g⟩ :=
    ((kept_grown hS.lockFaults w.toLedger).step hS.lawful ⟨c, .refl⟩ he within_all).of_ok hs
  cases e
  case clock | workerReads | setRuntimeConfig | updateBasePrices | processTick | restartRecheck =>
    cases hs
    exact fun k s s' hs hs' => .inl <| c.owned.stage_unique hs hs'
  case checkSlotRoll      => exact (hS.changes_checkSlotRoll c).of_ok hs
  case workerResponse     => exact (answers_drainWorkerResponse.of_ok hs).changes g c c'
  case drainTpu           =>
    have ⟨hi, hb⟩ := intake_drainTpu.of_ok hs
    exact hi.changes_drainTpu g c c' hb
  case dropExpiredBundles =>
    cases hs
    have ⟨hi, hu, hn, hb⟩ := intake_dropExpiredBundles (S := S) (w := w)
    exact hi.changes_dropExpiredBundles g c c' hu hn hb
  case drainJito          => exact (intake_drainJito.of_ok hs).changes_drainJito g c c'
  case scheduleChecks     =>
    exact ((asks_scheduleChecks hS.lawful).of_ok hs).changes g c c'
      ((spares_scheduleChecks hS.lawful).of_ok hs).pending
  case scheduleExecute    =>
    exact ((starts_scheduleExecute hS.lockFaults hS.lawful c).of_ok hs).changes g c c'

theorem rank_le_of_changes {s s' : Stage} (h : (s, s') ∈ e.changes) : s.rank ≤ s'.rank := by
  have hc : ∀ x ∈ e.changes, x.1.rank ≤ x.2.rank := by
    cases e <;> simp [Event.changes, Stage.rank]
  exact hc _ h

variable {C : World L → Event → Prop}

theorem Known.moves_step (hS : S.Known locks) (c : w.Custody E 0) (he : e.Enabled w)
    (hs : S.step E w e = .ok w') : Moves S.toLockPolicy E w.toLedger w'.toLedger := by
  have K : Kept S.toLockPolicy E (.all L) (¬·.IsCustody) (fun l h => l.Custody E h ∧
      Relation.ReflTransGen (fun x y => Move S.toLockPolicy E (.all L) x.1 x.2 y.1 y.2)
        (w.toLedger, 0) (l, h)) :=
    hS.lockFaults.kept And.left (fun m c => ⟨c.left.move m, c.right.tail m⟩) fun _ _ => trivial
  exact ((K.step hS.lawful ⟨c, .refl⟩ he within_all).of_ok hs).right

-- Whatever order the handlers are called in, they only move transactions between the places, into
-- the scheduler's care and out of it: every step is a sequence of moves that leaves nothing in hand,
-- and so is every run.
theorem Known.refines_moves (hS : S.Known locks) (hr : S.Reachable E locks w) :
    Moves S.toLockPolicy E (.empty locks) w.toLedger ∧
    ∀ w', S.Runs E (fun _ _ => True) w w' → Moves S.toLockPolicy E w.toLedger w'.toLedger := by
  have hm : ∀ {w}, S.Reachable E locks w → ∀ w', S.Runs E (fun _ _ => True) w w' →
      Moves S.toLockPolicy E w.toLedger w'.toLedger := by
    intro w hr w' hw
    induction hw
    case refl => exact .refl
    case step w₁ w' e hw he _ hs hi =>
      exact hi.trans <| hS.moves_step (hS.custody <| hr.runs hw) he hs
  refine ⟨?_, hm hr⟩
  have ⟨w₀, h₀, hw⟩ := hr.exists_runs
  exact h₀.ledger ▸ hm (.init h₀) w hw

theorem Known.refines_moves_tips_and_bundle :
    ∃ w, BatchScheduler.scheduler.Reachable Sample.env ∅ w ∧ w.executingTx = {1, 2, 3} ∧
      Moves BatchScheduler.scheduler.toLockPolicy Sample.env (.empty ∅) w.toLedger := by
  have ⟨w, hr, hw⟩ : ∃ w, BatchScheduler.scheduler.Reachable Sample.env ∅ w ∧
      w.executingTx = {1, 2, 3} :=
    Sample.exists_reach (Sample.bundled ⟨1000000, 999, 0⟩) (by decide +kernel)
  exact ⟨w, hr, hw, (refines_moves .batch hr).left⟩

-- Every key is always at exactly one stage of its life. A step takes it from one stage to another
-- only as the table of the step says, so that no stage it has left behind for good comes again.
theorem Known.life_cycle (hS : S.Known locks) (hr : S.Reachable E locks w) :
    (∀ k, ∃! s, w.At E k s) ∧
    (∀ e w', e.Enabled w → S.step E w e = .ok w' → Changes E e.changes w.toLedger w'.toLedger) ∧
    ∀ w', S.Runs E (fun _ _ => True) w w' → ∀ k s s', w.At E k s → w'.At E k s' →
      s.rank ≤ s'.rank := by
  refine ⟨fun k => ?_, fun e w' => hS.changes_step (hS.custody hr), fun w' hw k s => ?_⟩
  case refine_1 =>
    obtain ⟨s, hs⟩ := (hS.custody hr).owned.exists_stage k
    exact ⟨s, hs, fun s' hs' => (hS.custody hr).owned.stage_unique hs' hs⟩
  case refine_2 =>
    induction hw
    case refl =>
      intro s' hs hs'
      rw [(hS.custody hr).owned.stage_unique hs hs']
    case step w₁ w' e hw he _ hse hi =>
      intro s' hs hs'
      have c := hS.custody <| hr.runs hw
      obtain ⟨s₁, hs₁⟩ := c.owned.exists_stage k
      refine (hi s₁ hs hs₁).trans ?_
      rcases hS.changes_step c he hse k s₁ s' hs₁ hs' with rfl | hc
      · exact le_rfl
      · exact rank_le_of_changes hc

theorem Known.life_cycle_tips_and_bundle :
    ∃ w, Sample.auction.Reachable Sample.env AuctionBatchScheduler.initialEngine w ∧
      w.At Sample.env 0 (.held .checked) ∧ w.At Sample.env 1 (.held .executing) ∧
      ∃! s, w.At Sample.env 1 s := by
  have ⟨w, hr, hw⟩ : ∃ w, Sample.auction.Reachable Sample.env AuctionBatchScheduler.initialEngine w ∧
      0 ∈ w.keysIn .checked ∧ 1 ∈ w.keysIn .executing :=
    Sample.exists_reach (Sample.bundled ⟨999519374, 999, 0⟩) (by decide +kernel)
  exact ⟨w, hr, hw.left, hw.right, (life_cycle (.auction ..) hr).left 1⟩

-- No roll of the slot.
def KeepsSlot (w : World L) (e : Event) : Prop :=
  ∀ m, e = .checkSlotRoll m → (observed w m).currentSlot = w.slot

instance : Decidable (KeepsSlot w e) := by
  cases e
  case checkSlotRoll m =>
    exact decidable_of_iff ((observed w m).currentSlot = w.slot) (by simp [KeepsSlot])
  all_goals exact .isTrue (by simp [KeepsSlot])

theorem Known.deferred_step (hS : S.Known locks) (c : w.Custody E 0) (hn : KeepsSlot w e)
    (hs : S.step E w e = .ok w') {id : PriorityId} (hd : id ∈ w.deferredTx) : id ∈ w'.deferredTx := by
  have hp : ∀ {w' : World L}, w'.pending = w.pending → id ∈ w'.deferredTx := by
    intro w' h
    have h : w'.deferredTx = w.deferredTx := congrArg (·.deferredTx) h
    exact h ▸ hd
  cases e
  case clock | workerReads | setRuntimeConfig | updateBasePrices | processTick | restartRecheck =>
    cases hs
    exact hd
  case checkSlotRoll m =>
    obtain ⟨w₁, h₁, hs⟩ := bind_eq_ok.mp hs
    have h₁ := (rolls_rolled.of_ok h₁).right.left (hn m rfl)
    rw [← h₁] at hd
    split at hs
    case isTrue  => exact (tips_becomeTipReceiver.of_ok hs).deferred ▸ hd
    case isFalse =>
      cases hs
      exact hd
  case workerResponse     => exact (answers_drainWorkerResponse.of_ok hs).deferred id hd
  case drainTpu           => exact hp (spares_drainTpu.of_ok hs).pending
  case dropExpiredBundles =>
    cases hs
    exact hp spares_dropExpiredBundles.pending
  case drainJito          => exact hp (heeds_drainJito.of_ok hs).pending
  case scheduleChecks     => exact hp ((spares_scheduleChecks hS.lawful).of_ok hs).pending
  case scheduleExecute    =>
    exact ((starts_scheduleExecute hS.lockFaults hS.lawful c).of_ok hs).deferred ▸ hd

-- A deferred transaction waits for the next slot: until the slot rolls it stays where it is and is
-- not sent for execution, whatever else happens. The roll takes all of them back.
theorem Known.deferred_until_roll (hS : S.Known locks) (hr : S.Reachable E locks w) :
    (∀ w', S.Runs E KeepsSlot w w' → ∀ id ∈ w.deferredTx, id ∈ w'.deferredTx ∧ id ∉ w'.checkedTx ∧
      ∀ r ∈ w'.inFlight, r.kind = .execute → r.key ≠ id.key) ∧
    ∀ m w', (observed w m).currentSlot ≠ w.slot → S.step E w (.checkSlotRoll m) = .ok w' →
      w'.deferredTx = [] ∧ ∀ id ∈ w.deferredTx, id ∈ w'.checkedTx := by
  constructor
  case left =>
    intro w' hw id hd
    have ⟨hr', hd'⟩ : S.Reachable E locks w' ∧ id ∈ w'.deferredTx := by
      induction hw
      case refl => exact ⟨hr, hd⟩
      case step he hn hs hi =>
        exact ⟨hi.left.free he hs, hS.deferred_step (hS.custody hi.left) hn hs hi.right⟩
    have o := (hS.custody hr').owned
    refine ⟨hd', fun hc => ?_, fun r hm hk he => ?_⟩
    · exact nomatch o.place_unique (key_mem_checked hc) (key_mem_deferred hd')
    · have hx := key_mem_executing <| o.executing_of_request hm hk
      rw [he] at hx
      exact nomatch o.place_unique hx (key_mem_deferred hd')
  case right =>
    intro m w' hn hs
    obtain ⟨w₁, h₁, hs⟩ := bind_eq_ok.mp hs
    obtain ⟨hd, hc⟩ := (rolls_rolled.of_ok h₁).right.right hn
    split at hs
    case isTrue =>
      have ht := tips_becomeTipReceiver.of_ok hs
      exact ⟨ht.deferred.trans hd, fun id hi => ht.checked ▸ hc id hi⟩
    case isFalse =>
      cases hs
      exact ⟨hd, hc⟩

-- A transaction does not make it into the block and waits, through another call of `poll`, for the
-- next slot.
theorem Known.deferred_until_roll_full_block :
    ∃ w w', BatchScheduler.scheduler.Reachable Sample.env ∅ w ∧
      BatchScheduler.scheduler.Runs Sample.env KeepsSlot w w' ∧ w.deferredTx = [⟨1000000, 999, 0⟩] ∧
      ⟨1000000, 999, 0⟩ ∈ w'.deferredTx := by
  have ⟨w, hr, hd, hf⟩ : ∃ w, BatchScheduler.scheduler.Reachable Sample.env ∅ w ∧
      w.deferredTx = [⟨1000000, 999, 0⟩] ∧
      (BatchScheduler.scheduler.follow Sample.env KeepsSlot w (Sample.poll true 1 [] [] [])).isSome :=
    Sample.exists_reach (Sample.executed ⟨1000000, 999, 0⟩ ++
      [.workerResponse ⟨⟨1000000, 999, 0⟩, .execute⟩
        (.execute ⟨1, .wouldExceedMaxBlockCostLimit⟩)]) (by decide +kernel)
  obtain ⟨w', hf⟩ := Option.isSome_iff_exists.mp hf
  have hw := Runs.follow .refl hf
  exact ⟨w, w', hr, hw, hd, ((deferred_until_roll .batch hr).left w' hw _ (by simp [hd])).left⟩

end Scheduler
