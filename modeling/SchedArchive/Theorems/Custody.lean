import SchedArchive.Custody.Sent
import SchedArchive.Theorems.Runs

-- What holds in every state that either scheduler can reach, whatever the order of its steps.

open Except Ledger

namespace Scheduler

namespace Known

variable {L : Type} {S : Scheduler L} {E : Env} {locks : L} {w : World L} {k : TransactionKey}

theorem inFlightCus_trim : (S.trim w).inFlightCus = w.inFlightCus := by
  unfold trim
  split
  case isFalse => rfl
  case isTrue  =>
    split
    case h_1 => rfl
    case h_2 hf =>
      rw [toLedger_evictChecked <| Finset.first_mem hf]
      rfl

section Lemmas

variable (hS : S.Known locks) (hr : S.Reachable E locks w)

include hS hr

theorem vetted : w.Custody E 0 ∧ w.Vetted E :=
  (kept_vetted hS.lockFaults).reach hS.lawful ⟨custody_empty, vetted_empty⟩
    (fun _ _ _ _ => within_all) hr

theorem custody : w.Custody E 0 :=
  (hS.vetted hr).left

-- No assert on a container fails in the next step.
theorem ensures_step {e : Event} (he : e.Enabled w) :
    (S.step E w e).Ensures (fun _ => True) (¬·.IsCustody) :=
  (kept_vetted hS.lockFaults).step hS.lawful (hS.vetted hr) he within_all |>.imp fun _ _ => trivial

theorem bundle_unique (hk : k ∈ w.keysIn .bundled) : ∃! b, b ∈ w.bundles ∧ k ∈ b.keys := by
  have hn := (hS.custody hr).owned.nodup_keysIn (p := .bundled)
  have ⟨b, hb, hm⟩ := Multiset.mem_bind.mp hk
  refine ⟨b, ⟨hb, hm⟩, fun b' ⟨hb', hm'⟩ => ?_⟩
  by_contra hne
  rw [keysIn, ← Multiset.cons_erase hb, Multiset.cons_bind, Multiset.nodup_add] at hn
  refine Multiset.disjoint_left.mp hn.right.right hm <| Multiset.mem_bind.mpr ⟨b', ?_, hm'⟩
  exact (Multiset.mem_erase_of_ne hne).mpr hb'

-- The key of a bundled transaction is never in a place for ordinary ones.
theorem place_of_viaBundle {p : Place} (hk : k ∈ w.viaBundle) (hp : k ∈ w.keysIn p) :
    p = .bundled ∨ p = .executing := by
  have n := (hS.custody hr).labelled
  cases p
  case bundled   => exact .inl rfl
  case executing => exact .inr rfl
  case unchecked =>
    obtain ⟨id, hi, he⟩ := Multiset.mem_map.mp hp
    exact absurd (he ▸ hk) (n.unchecked id hi).key
  case firstCheck =>
    obtain ⟨r, hr, rfl⟩ := Multiset.mem_map.mp hp
    obtain ⟨hr, hf⟩ := Multiset.mem_filter.mp hr
    rcases n.requests r hr with ho | ⟨hx, _⟩
    · exact absurd hk ho.key
    · cases hf.symm.trans hx
  case checked =>
    obtain ⟨id, hi, he⟩ := Multiset.mem_map.mp hp
    exact absurd (he ▸ hk) (n.checked id hi).key
  case deferred =>
    rw [keysIn, Multiset.mem_map] at hp
    obtain ⟨id, hi, he⟩ := hp
    exact absurd (he ▸ hk) (n.deferred id hi).key

-- The answer to an execute request takes its cost off, and nothing wraps around.
theorem ensures_response {r : Request} {a : WorkerAction} (hm : r ∈ w.inFlight) (hf : r.Fits a)
    (hk : r.kind = .execute) : (S.step E w (.workerResponse r a)).Ensures
      (fun w' => w'.inFlightCus + r.id.cost = w.inFlightCus) (· ≠ .overflow) := by
  have c := hS.custody hr
  have hx := c.owned.executing_of_request hm hk
  have hc := c.metered.cost_le hm hk
  have ⟨hn, hd⟩ := c.owned.not_queued_of_request hm hk
  have hu : (S.unlock w.locks r.key (w.locksOf r.key)).Ensures (fun _ => True) (· ≠ .overflow) :=
    (hS.lockFaults.unlock ..).mono (fun _ => id) fun f hf he => by simp [he, Fault.IsLock] at hf
  refine ensures_drainWorkerResponse (Q := (·.inFlightCus + r.id.cost = w.inFlightCus))
    (c.owned.live_of_keysIn <| key_mem_executing hx) ?_
  cases a
  case check => exact absurd hk hf
  case unprocessed =>
    rw [onResponse, onUnprocessed, if_pos (by exact hx)]
    simp only [releaseLocks, ensures_bind]
    refine hu.imp fun locks _ => ?_
    rw [ensures_pure, releaseCus_eq_ok (by exact hc), ensures_ok]
    split <;> exact Nat.sub_add_cancel hc
  case execute rep =>
    simp only [onResponse, onExecute, releaseLocks, ensures_bind, ensures_require]
    refine ⟨fun _ => ?_, fun _ => by decide⟩
    rw [releaseCus_eq_ok (by exact hc), ensures_ok]
    refine hu.imp fun locks _ => ?_
    rw [ensures_pure]
    split
    case isTrue => exact Nat.sub_add_cancel hc
    case isFalse =>
      rw [ensures_bind]
      refine Ensures.imp (ensures_retry (h := 0) ?_ ?_ ?_ ?_
        (I := fun l _ => l.inFlightCus + r.id.cost = w.inFlightCus)) fun w' he => ?_
      · exact hn
      · exact hd
      · exact Nat.sub_add_cancel hc
      · exact Nat.sub_add_cancel hc
      · exact (congrArg (· + r.id.cost) inFlightCus_trim).trans he

end Lemmas

-- Every live key is in exactly one place, once, and every key in a place is live; together with the
-- dropped ones, these are the keys that were ever handed out. The key of a bundled transaction is
-- only ever bundled or executing and never sent for a check.
theorem single_ownership (hS : S.Known locks) (hr : S.Reachable E locks w) :
    (∀ k ∈ w.live, ∃! p, k ∈ w.keysIn p) ∧
    (∀ p, (w.keysIn p).Nodup ∧ ∀ k ∈ w.keysIn p, k ∈ w.live) ∧
    (∀ k ∈ w.keysIn .bundled, ∃! b, b ∈ w.bundles ∧ k ∈ b.keys) ∧
    ↑w.dropped + w.live.val = (Multiset.range w.inserted).map E.keyAt ∧
    (∀ k ∈ w.viaBundle, (∀ p, k ∈ w.keysIn p → p = .bundled ∨ p = .executing) ∧
      ∀ batch ∈ w.sent, batch.flags = .check → ∀ r ∈ batch.transactions, r.key ≠ k) ∧
    ∀ e : Event, e.Enabled w → (S.step E w e).Ensures (fun _ => True) (¬·.IsCustody) := by
  have c := hS.custody hr
  refine ⟨fun k hk => ?_, fun p => ⟨c.owned.nodup_keysIn, fun k => c.owned.live_of_keysIn⟩,
    fun k => hS.bundle_unique hr, c.owned.minted, fun k hk => ⟨fun p => hS.place_of_viaBundle hr hk,
      ?_⟩, fun e => hS.ensures_step hr⟩
  case refine_1 =>
    have ⟨p, hp⟩ := (c.owned.mem_live_iff.mp hk).resolve_right <| Multiset.notMem_zero k
    exact ⟨p, hp, fun q hq => c.owned.place_unique hq hp⟩
  case refine_2 =>
    rintro batch hb hf r hm rfl
    have ⟨_, _, ho⟩ := c.labelled.sent batch hb r hm
    exact (ho hf).key hk

theorem single_ownership_tips_and_bundle :
    ∃ w, BatchScheduler.scheduler.Reachable Sample.env ∅ w ∧
      (w.executingTx = {1, 2, 3} ∧ w.keysIn .checked = {0} ∧ w.viaBundle = [1]) ∧
      ∀ k ∈ w.live, ∃! p, k ∈ w.keysIn p := by
  have ⟨w, hr, hw⟩ : ∃ w, BatchScheduler.scheduler.Reachable Sample.env ∅ w ∧
      w.executingTx = {1, 2, 3} ∧ w.keysIn .checked = {0} ∧ w.viaBundle = [1] :=
    Sample.exists_reach (Sample.bundled ⟨1000000, 999, 0⟩) (by decide +kernel)
  exact ⟨w, hr, hw, (single_ownership .batch hr).left⟩

-- The compute units in flight are those of the execute requests in flight, where the first request
-- of a bundle carries all of its cost. Hence no answer takes off more than there is, and there is
-- nothing left when nothing is executing.
theorem in_flight_compute (hS : S.Known locks) (hr : S.Reachable E locks w) :
    w.inFlightCus = (w.executions.map (·.id.cost)).sum ∧
    (∀ batch ∈ w.sent, batch.flags = .execute true true → ∃ b,
      batch.transactions = (bundleIds b).map (⟨·, .execute⟩) ∧
      batch.transactions.map (·.id.cost) = b.cost :: List.replicate (b.keys.length - 1) 0) ∧
    (∀ batch ∈ w.sent, batch.flags = .execute true false →
      ∀ r ∈ batch.transactions, r.id.cost = 0) ∧
    (∀ r a, r ∈ w.inFlight → r.Fits a → r.kind = .execute →
      (S.step E w (.workerResponse r a)).Ensures
        (fun w' => w'.inFlightCus + r.id.cost = w.inFlightCus) (· ≠ .overflow)) ∧
    (w.executingTx = ∅ → w.inFlightCus = 0) := by
  obtain ⟨c, v⟩ := hS.vetted hr
  refine ⟨c.metered.cus, fun batch hb hf => ?_, fun batch hb hf => ?_,
    fun r a => hS.ensures_response hr, fun hx => ?_⟩
  case refine_1 =>
    cases v.sent batch hb
    case bundle b _ ht hn _ =>
      refine ⟨b, ht, ?_⟩
      rw [ht, List.map_map]
      exact costs_bundleIds hn
    case checks hf' _ | transaction hf' _ _ _ _ | tip hf' _ _ _ => cases hf.symm.trans hf'
  case refine_2 =>
    cases v.sent batch hb
    case tip ht =>
      simp [ht, tipRequest]
    case checks hf' _ | transaction hf' _ _ _ _ | bundle hf' _ _ _ => cases hf.symm.trans hf'
  case refine_3 =>
    have he := c.owned.executing
    rw [hx, Finset.empty_val, Multiset.map_eq_zero] at he
    rw [c.metered.cus, he]
    rfl

theorem in_flight_compute_bundle :
    ∃ w, Sample.auction.Reachable Sample.env AuctionBatchScheduler.initialEngine w ∧
      w.inFlightCus = 999 ∧ w.inFlightCus = (w.executions.map (·.id.cost)).sum := by
  have ⟨w, hr, hw⟩ : ∃ w, Sample.auction.Reachable Sample.env AuctionBatchScheduler.initialEngine w ∧
      w.inFlightCus = 999 :=
    Sample.exists_reach (Sample.bundled ⟨999519374, 999, 0⟩) (by decide +kernel)
  exact ⟨w, hr, hw, (in_flight_compute (.auction ..) hr).left⟩

-- Whatever is sent for execution passed the filter, except the two transactions of a tip pair: no
-- static account key is filtered, and for an ordinary transaction neither is any of the keys that
-- its first check resolved.
theorem filtered_never_executed (hS : S.Known locks) (hr : S.Reachable E locks w) :
    TipProgram.tipPaymentProgram ∈ E.filterKeys ∧
    ∀ batch ∈ w.sent, batch.flags ≠ .check →
      (∃ init change, .tipPair init change ∈ w.units ∧
        ∃ key ∈ [init, change], batch.transactions = [tipRequest key]) ∨
      ∀ r ∈ batch.transactions,
        (∀ a ∈ (w.data r.key).staticAccountKeys, a ∉ E.filterKeys) ∧
        (r.key ∉ w.viaBundle → ∃ rep resolvedKeys,
          ⟨⟨r.id, .firstCheck⟩, .check rep resolvedKeys⟩ ∈ w.answered ∧ checkFailed rep = false ∧
          ∀ keys ∈ resolvedKeys, ∀ a ∈ keys, a ∉ E.filterKeys) := by
  refine ⟨Finset.mem_insert_self .., fun batch hb hf => ?_⟩
  have hc : ∀ {k}, w.Clean E k → ∀ a ∈ (w.data k).staticAccountKeys, a ∉ E.filterKeys := by
    intro k hk a ha
    simpa using List.any_eq_false.mp hk a ha
  cases (hS.vetted hr).right.sent batch hb
  case checks hf' _ => exact absurd hf' hf
  case tip init change key _ hu hk ht => exact .inl ⟨init, change, hu, key, hk, ht⟩
  case transaction id _ ht _ hk ha =>
    refine .inr fun r hm => ?_
    obtain rfl := List.mem_singleton.mp (ht ▸ hm)
    have ⟨rep, resolvedKeys, hm, hp, hn⟩ := ha
    refine ⟨hc hk, fun _ => ⟨rep, resolvedKeys, hm, hp, fun keys he a hk => ?_⟩⟩
    obtain rfl := Option.mem_def.mp he
    simpa using List.any_eq_false.mp hn a hk
  case bundle b _ ht _ hk =>
    refine .inr fun r hm => ?_
    obtain ⟨id, hi, rfl⟩ := List.mem_map.mp (ht ▸ hm)
    have ⟨hv, hk⟩ := hk id.key <| key_mem_bundle hi
    exact ⟨hc hk, fun hn => absurd hv hn⟩

theorem filtered_never_executed_retry :
    ∃ w, BatchScheduler.scheduler.Reachable Sample.env ∅ w ∧
      w.sent.countP (·.transactions = [⟨⟨1000000, 999, 0⟩, .execute⟩]) = 2 ∧
      ∃ rep resolvedKeys,
        ⟨⟨⟨1000000, 999, 0⟩, .firstCheck⟩, .check rep resolvedKeys⟩ ∈ w.answered ∧
        ∀ keys ∈ resolvedKeys, ∀ a ∈ keys, a ∉ Sample.env.filterKeys := by
  obtain ⟨w, hr, hc, ⟨b, hb, hf, ht⟩, hn⟩ :
      ∃ w, BatchScheduler.scheduler.Reachable Sample.env ∅ w ∧
        w.sent.countP (·.transactions = [⟨⟨1000000, 999, 0⟩, .execute⟩]) = 2 ∧
        (∃ b ∈ w.sent, b.flags ≠ .check ∧ b.transactions = [⟨⟨1000000, 999, 0⟩, .execute⟩]) ∧
        0 ∉ w.viaBundle :=
    Sample.exists_reach (Sample.retried ⟨1000000, 999, 0⟩) (by decide +kernel)
  rcases (filtered_never_executed .batch hr).right b hb hf with ⟨_, _, _, _, _, he⟩ | hp
  · simp [ht, tipRequest] at he
  · obtain ⟨rep, resolvedKeys, ha, _, hk⟩ := (hp _ (ht ▸ List.mem_singleton_self _)).right hn
    exact ⟨w, hr, hc, rep, resolvedKeys, ha, hk⟩

end Known

end Scheduler
