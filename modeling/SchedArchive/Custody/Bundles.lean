import SchedArchive.Custody.Stages

-- What becomes of a bundle: its transactions are sent to a worker in one batch, or none of them is.

namespace Ledger

variable {L : Type}

-- A bundled transaction that was sent to a worker is executing, or it has been dropped since.
def Sealed (l : Ledger L) : Prop :=
  ∀ batch ∈ l.sent, ∀ r ∈ batch.transactions, r.key ∈ l.viaBundle →
    r.key ∈ l.executingTx ∨ r.key ∈ l.dropped

-- The batches with a request for one of the transactions of a bundle.
def batchesOf (l : Ledger L) (b : BundleId) : List ScheduleBatch :=
  l.sent.filter fun batch => batch.transactions.any (·.key ∈ b.keys)

-- Where a bundle that was stored can be: still waiting, sent in one batch as a whole, or given up
-- without any of it having been sent.
inductive Outcome (l : Ledger L) (b : BundleId) : Prop
  | waiting :
    b ∈ l.bundles → l.batchesOf b = [] → Outcome l b
  | sent {batch} :
    l.batchesOf b = [batch] → batch.transactions = (Scheduler.bundleIds b).map (⟨·, .execute⟩) →
    batch.flags = .execute true true → (∀ k ∈ b.keys, k ∈ l.executingTx ∨ k ∈ l.dropped) →
    Outcome l b
  | lost :
    (∀ k ∈ b.keys, k ∈ l.dropped) → l.batchesOf b = [] → Outcome l b

variable {P : LockPolicy L} {E : Env} {t : Terms L} {l l' : Ledger L}
variable {h h' : Multiset TransactionKey} {k : TransactionKey} {r : Request} {b b' : BundleId}
variable {batch : ScheduleBatch} {units : List SchedulingUnit}

theorem mem_batchesOf : batch ∈ l.batchesOf b ↔ batch ∈ l.sent ∧
    ∃ r ∈ batch.transactions, r.key ∈ b.keys := by
  simp [batchesOf]

-- A move adds its batches to those that were sent before, and what they ask to execute is executing.
theorem sent_move (m : Move P E t l h l' h') : ∃ batches, l'.sent = batches ++ l.sent ∧
    ∀ batch ∈ batches, Sends l h l'.units batch ∧
      ∀ r ∈ batch.transactions, r.kind = .execute → r.key ∈ l'.executingTx := by
  cases m
  case sendChecks hu hn hc =>
    refine ⟨[_], rfl, ?_⟩
    simpa using ⟨sends_checks hu hn hc, fun r hr hk => absurd hk <| hn r hr⟩
  case startTips init change _ _ b₁ b₂ _ _ _ _ h₁ f₁ h₂ f₂ =>
    refine ⟨[b₂, b₁], rfl, fun batch hb => ?_⟩
    rcases List.mem_cons.mp hb with rfl | hb
    · refine ⟨.tip f₂ List.mem_cons_self (by simp) (by simp) h₂, fun r hr _ => ?_⟩
      obtain rfl := List.mem_singleton.mp (h₂ ▸ hr)
      exact Finset.mem_union_right _ <| by simp [SchedulingUnit.keys, Request.key, Scheduler.tipRequest]
    · obtain rfl := List.mem_singleton.mp hb
      refine ⟨.tip f₁ List.mem_cons_self (by simp) (by simp) h₁, fun r hr _ => ?_⟩
      obtain rfl := List.mem_singleton.mp (h₁ ▸ hr)
      exact Finset.mem_union_right _ <| by simp [SchedulingUnit.keys, Request.key, Scheduler.tipRequest]
  case startTx hc _ _ _ ht hf =>
    refine ⟨[_], rfl, fun batch hb => ?_⟩
    obtain rfl := List.mem_singleton.mp hb
    refine ⟨.transaction hf hc ht, fun r hr _ => ?_⟩
    obtain rfl := List.mem_singleton.mp (ht ▸ hr)
    exact Finset.mem_union_right _ <| by simp [SchedulingUnit.keys, Request.key]
  case startBundle hm _ _ _ ht hf =>
    refine ⟨[_], rfl, fun batch hb => ?_⟩
    obtain rfl := List.mem_singleton.mp hb
    refine ⟨.bundle hf hm ht, fun r hr _ => ?_⟩
    obtain ⟨id, hi, rfl⟩ := List.mem_map.mp (ht ▸ hr)
    exact Finset.mem_union_right _ <| List.mem_toFinset.mpr <| key_mem_bundle hi
  case dropBundle =>
    rw [dropBundle, dropAll_eq]
    exact ⟨[], rfl, by simp⟩
  all_goals exact ⟨[], rfl, by simp⟩

-- An execution ends with the answer to its request.
theorem executing_move (m : Move P E t l h l' h') (hx : k ∈ l.executingTx) :
    k ∈ l'.executingTx ∨ k ∈ l'.dropped ∨
      ∃ id, ⟨id, .execute⟩ ∈ l.inFlight ∧ id.key = k ∧ id.priority < bundleMarker := by
  cases m
  case finishDrop r _ _ hr hk _ =>
    by_cases he : k = r.key
    case pos => exact .inr <| .inl <| he ▸ List.mem_cons_self
    case neg => exact .inl <| Finset.mem_erase.mpr ⟨he, hx⟩
  case finishChecked r _ _ hr hk hl hp | finishDeferred r _ _ hr hk hl hp =>
    by_cases he : k = r.key
    case pos => exact .inr <| .inr ⟨r.id, hk ▸ hr, he.symm, hp⟩
    case neg => exact .inl <| Finset.mem_erase.mpr ⟨he, hx⟩
  case dropBundle =>
    rw [dropBundle, dropAll_eq]
    exact .inl hx
  case startTips | startTx | startBundle => exact .inl <| Finset.mem_union_left _ hx
  all_goals exact .inl hx

-- A bundle stops waiting when it is sent or dropped.
theorem bundles_move (m : Move P E t l h l' h') (hb : b ∈ l.bundles) (hn : b ∉ l'.bundles) :
    (∃ batch, l'.sent = batch :: l.sent ∧
      batch.transactions = (Scheduler.bundleIds b).map (⟨·, .execute⟩) ∧
      batch.flags = .execute true true) ∨
    l'.sent = l.sent ∧ ∀ k ∈ b.keys, k ∈ l'.dropped := by
  have he : ∀ {b'}, b ∉ l.bundles.erase b' → b = b' := by
    intro b' hn
    by_contra hne
    exact hn <| Finset.mem_erase.mpr ⟨hne, hb⟩
  cases m
  case storeBundle => exact absurd (Finset.mem_insert_of_mem hb) hn
  case startBundle ht hf =>
    obtain rfl := he hn
    exact .inl ⟨_, rfl, ht, hf⟩
  case dropBundle =>
    rw [dropBundle, dropAll_eq] at hn ⊢
    obtain rfl := he hn
    exact .inr ⟨rfl, fun k hk => List.mem_append.mpr <| .inl <| List.mem_reverse.mpr hk⟩
  all_goals exact absurd hb hn

-- No batch names a transaction that is executing.
theorem Owned.not_executing_of_sends (o : l.Owned E h) (hs : Sends l h units batch)
    (hr : r ∈ batch.transactions) : r.key ∉ l.executingTx := by
  intro hx
  have hp : ∀ {p}, r.key ∈ l.keysIn p → p = .executing := fun hp =>
    o.place_unique hp <| key_mem_executing hx
  cases hs
  case checks hs =>
    rcases hs r hr with ⟨_, hu⟩ | ⟨_, hc⟩
    · cases hp <| key_mem_unchecked hu
    · cases hp <| key_mem_checked hc
  case transaction hc ht =>
    obtain rfl := List.mem_singleton.mp (ht ▸ hr)
    cases hp <| key_mem_checked hc
  case bundle hb ht =>
    obtain ⟨id, hi, rfl⟩ := List.mem_map.mp (ht ▸ hr)
    cases hp <| key_mem_bundled hb <| key_mem_bundle hi
  case tip hk ht =>
    obtain rfl := List.mem_singleton.mp (ht ▸ hr)
    exact o.not_mem_keysIn hk <| key_mem_executing hx

theorem batchesOf_move (o : l.Owned E h) (m : Move P E t l h l' h')
    (hk : ∀ k ∈ b.keys, k ∈ l.executingTx ∨ k ∈ l.dropped) : l'.batchesOf b = l.batchesOf b := by
  obtain ⟨batches, hs, hb⟩ := sent_move m
  have hn : batches.filter (fun batch => batch.transactions.any (·.key ∈ b.keys)) = [] := by
    simp only [List.filter_eq_nil_iff, List.any_eq_true, decide_eq_true_eq]
    rintro batch hm ⟨r, hr, hi⟩
    have hs := (hb batch hm).left
    rcases hk _ hi with hx | hd
    · exact o.not_executing_of_sends hs hr hx
    · exact o.not_dropped (o.live_of_sends hs hr) hd
  rw [batchesOf, hs, List.filter_append, hn]
  rfl

namespace Sealed

theorem move (s : l.Sealed) (c : l.Custody E h) (m : Move P E t l h l' h') : l'.Sealed := by
  obtain ⟨batches, hs, hb⟩ := sent_move m
  intro batch hm r hr hv
  rcases List.mem_append.mp (hs ▸ hm) with hm | hm
  · obtain ⟨hs, hx⟩ := hb batch hm
    rcases (c.labelled.of_sends hs hr).left with ho | hk
    · have hl := c.owned.minted_of_live <| c.owned.live_of_sends hs hr
      exact absurd ((Grown.of_move m).bundled _ hv hl) ho.key
    · exact .inl <| hx r hr hk.left
  · have hv := (Grown.of_move m).bundled _ hv (c.labelled.sent batch hm r hr).left
    rcases s batch hm r hr hv with hx | hd
    · rcases executing_move m hx with hx | hd | ⟨id, hi, he, hp⟩
      · exact .inl hx
      · exact .inr hd
      -- What comes back from execution is not bundled.
      · exact absurd (he ▸ hv) (c.labelled.ordinary_of_execution hi hp).key
    · exact .inr <| mem_dropped_move m hd

-- Nothing of a bundle that is waiting was sent.
theorem batchesOf_eq_nil (s : l.Sealed) (c : l.Custody E h) (hb : b ∈ l.bundles) :
    l.batchesOf b = [] := by
  simp only [batchesOf, List.filter_eq_nil_iff, List.any_eq_true, decide_eq_true_eq]
  rintro batch hm ⟨r, hr, hk⟩
  have hp := key_mem_bundled hb hk
  rcases s batch hm r hr ((c.labelled.bundles b hb).right _ hk).left with hx | hd
  · cases c.owned.place_unique hp <| key_mem_executing hx
  · exact c.owned.not_dropped (c.owned.live_of_keysIn hp) hd

-- A bundle in a batch of its own was sent in it as a whole.
theorem sent (s : l.Sealed) (hv : ∀ k ∈ b.keys, k ∈ l.viaBundle) (hb : l.batchesOf b = [batch])
    (ht : batch.transactions = (Scheduler.bundleIds b).map (⟨·, .execute⟩))
    (hf : batch.flags = .execute true true) : Outcome l b := by
  refine .sent hb ht hf fun k hk => ?_
  have hm : batch ∈ l.sent := (mem_batchesOf.mp <| hb ▸ List.mem_singleton_self batch).left
  obtain ⟨id, hi, rfl⟩ := List.mem_map.mp (keys_bundleIds ▸ hk)
  exact s batch hm _ (ht ▸ List.mem_map_of_mem hi) <| hv _ hk

end Sealed

theorem sealed_empty {locks : L} : (empty locks).Sealed := by
  simp [Sealed, empty]

-- What is known of a bundle since it was stored.
structure Tracked (E : Env) (l : Ledger L) (h : Multiset TransactionKey) (b : BundleId) : Prop where
  custody  : l.Custody E h
  sealing  : l.Sealed
  nonempty : b.keys ≠ []
  bundled  : ∀ k ∈ b.keys, k ∈ l.viaBundle
  outcome  : Outcome l b

theorem Sealed.tracked (s : l.Sealed) (c : l.Custody E h) (hb : b ∈ l.bundles) :
    Tracked E l h b where
  custody      := c
  sealing      := s
  nonempty     := (c.labelled.bundles b hb).left
  bundled k hk := ((c.labelled.bundles b hb).right k hk).left
  outcome      := .waiting hb <| s.batchesOf_eq_nil c hb

namespace Tracked

variable (y : Tracked E l h b)

include y

-- A bundle that is no longer waiting is executing or was dropped.
theorem departed (hn : b ∉ l.bundles) : ∀ k ∈ b.keys, k ∈ l.executingTx ∨ k ∈ l.dropped := by
  intro k hk
  cases y.outcome
  case waiting hb _ => exact absurd hb hn
  case sent hx      => exact hx k hk
  case lost hd _    => exact .inr <| hd k hk

variable (m : Move P E t l h l' h')

include m

theorem outcome_waiting (hs : l.batchesOf b = []) (hb : b ∈ l.bundles) : Outcome l' b := by
  have s' := y.sealing.move y.custody m
  by_cases hb' : b ∈ l'.bundles
  case pos => exact .waiting hb' <| s'.batchesOf_eq_nil (y.custody.move m) hb'
  case neg =>
    rcases bundles_move m hb hb' with ⟨batch, hs', ht, hf⟩ | ⟨hs', hd⟩
    · refine s'.sent (fun k hk => mem_viaBundle_move m <| y.bundled k hk) ?_ ht hf
      obtain ⟨k, hk⟩ := List.exists_mem_of_ne_nil _ y.nonempty
      obtain ⟨id, hi, rfl⟩ := List.mem_map.mp (keys_bundleIds ▸ hk)
      have ha : batch.transactions.any (·.key ∈ b.keys) = true :=
        List.any_eq_true.mpr ⟨_, ht ▸ List.mem_map_of_mem hi, decide_eq_true hk⟩
      rw [batchesOf, hs', ← hs]
      exact List.filter_cons_of_pos ha
    · refine .lost hd ?_
      rw [batchesOf, hs']
      exact hs

theorem move : Tracked E l' h' b where
  custody      := y.custody.move m
  sealing      := y.sealing.move y.custody m
  nonempty     := y.nonempty
  bundled k hk := mem_viaBundle_move m <| y.bundled k hk
  outcome      := by
    have s' := y.sealing.move y.custody m
    cases y.outcome
    case waiting hb hs         => exact y.outcome_waiting m hs hb
    case sent batch hs ht hf hk =>
      refine s'.sent (fun k hk => mem_viaBundle_move m <| y.bundled k hk) ?_ ht hf
      exact (batchesOf_move y.custody.owned m hk).trans hs
    case lost hd hs =>
      refine .lost (fun k hk => mem_dropped_move m <| hd k hk) ?_
      exact (batchesOf_move y.custody.owned m fun k hk => .inr <| hd k hk).trans hs

-- Once a bundle has stopped waiting, it never waits again.
theorem waited (hb' : b ∈ l'.bundles) : b ∈ l.bundles := by
  have c' := y.custody.move m
  cases y.outcome
  case waiting hb _ => exact hb
  case sent batch hs _ _ hk =>
    have hs' := (y.sealing.move y.custody m).batchesOf_eq_nil c' hb'
    rw [batchesOf_move y.custody.owned m hk, hs] at hs'
    cases hs'
  case lost hd _ =>
    obtain ⟨k, hk⟩ := List.exists_mem_of_ne_nil _ y.nonempty
    have hl := c'.owned.live_of_keysIn <| key_mem_bundled hb' hk
    exact absurd (mem_dropped_move m <| hd k hk) <| c'.owned.not_dropped hl

end Tracked

end Ledger

namespace Scheduler

open Ledger

variable {L : Type} {P : LockPolicy L} {E : Env} {b : BundleId}

theorem kept_sealed (lf : LockFaults P) :
    Kept P E (.all L) (¬·.IsCustody) (fun l h => l.Custody E h ∧ l.Sealed) :=
  lf.kept And.left (fun m c => ⟨c.left.move m, c.right.move c.left m⟩) fun _ _ => trivial

theorem kept_tracked (lf : LockFaults P) (b : BundleId) :
    Kept P E (.all L) (¬·.IsCustody) (fun l h => Tracked E l h b) :=
  lf.kept (fun y => y.custody) (fun m y => y.move m) fun _ _ => trivial

-- Once a bundle has stopped waiting, nothing more of it is sent.
theorem kept_departed (lf : LockFaults P) (b : BundleId) (batches : List ScheduleBatch) :
    Kept P E (.all L) (¬·.IsCustody) (fun l h => Tracked E l h b ∧ b ∉ l.bundles ∧
      l.batchesOf b = batches) := by
  refine lf.kept (fun y => y.left.custody) (fun m y => ?_) fun _ _ => trivial
  obtain ⟨y, hn, hs⟩ := y
  exact ⟨y.move m, hn ∘ y.waited m, (batchesOf_move y.custody.owned m <| y.departed hn).trans hs⟩

end Scheduler
