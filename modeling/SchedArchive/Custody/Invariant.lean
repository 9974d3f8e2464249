import SchedArchive.Custody.Owned

-- What holds of the ledger between any two moves of any run.

namespace Ledger

variable {L : Type}

-- A request of a bundle or a tip transaction.
def Marked (r : Request) : Prop :=
  r.kind = .execute ∧ r.id.priority = bundleMarker

-- Where ids of ordinary transactions and where those of bundles and tips can be found.
structure Labelled (E : Env) (l : Ledger L) : Prop where
  unchecked : ∀ id ∈ l.uncheckedTx, l.Ordinary E id
  checked   : ∀ id ∈ l.checkedTx, l.Ordinary E id
  deferred  : ∀ id ∈ l.deferredTx, l.Ordinary E id
  bundles   : ∀ b ∈ l.bundles, b.keys ≠ [] ∧ ∀ key ∈ b.keys, key ∈ l.viaBundle ∧ l.Clean E key
  requests  : ∀ r ∈ l.inFlight, l.Ordinary E r.id ∨ Marked r
  sent      : ∀ b ∈ l.sent, ∀ r ∈ b.transactions, l.Minted E r.key ∧
                (l.Ordinary E r.id ∨ Marked r) ∧ (b.flags = .check → l.Ordinary E r.id)
  viaBundle : ∀ key ∈ l.viaBundle, l.Minted E key

-- The transaction of a recheck that is still in flight has not left the scheduler's care under
-- another id.
def Rechecks (l : Ledger L) : Prop :=
  ∀ r ∈ l.inFlight, r.kind = .recheck → r.key ∈ l.live →
    r.id ∈ l.checkedTx ∨ r.id ∈ l.deferredTx ∨ ⟨r.id, .execute⟩ ∈ l.inFlight

-- The compute units in flight are those of the execute requests in flight.
structure Metered (l : Ledger L) : Prop where
  cus   : l.inFlightCus = (l.executions.map (·.id.cost)).sum
  bound : l.inFlightCus ≤ maxBlockUnits

structure Custody (E : Env) (l : Ledger L) (h : Multiset TransactionKey) : Prop where
  owned    : l.Owned E h
  labelled : l.Labelled E
  rechecks : l.Rechecks
  metered  : l.Metered

variable {P : LockPolicy L} {E : Env} {t : Terms L} {l l' : Ledger L}
variable {h h' : Multiset TransactionKey} {k : TransactionKey} {id : PriorityId} {r : Request}
variable {b : BundleId} {batch : ScheduleBatch}

theorem data_move (m : Move P E t l h l' h') (hk : l.Minted E k) : l'.data k = l.data k := by
  have hn : k ≠ l.nextKey E := fun hn => not_minted_nextKey (hn ▸ hk)
  cases m
  case insert | insertBundled => exact Function.update_of_ne hn ..
  case dropBundle => rw [dropBundle, dropAll_eq]
  all_goals rfl

-- Locks only change when a check has resolved them.
theorem resolved_move (m : Move P E t l h l' h') :
    l'.resolved = l.resolved ∨
      ∃ id resolvedKeys, id ∈ l.checkedTx ∧ l' = l.resolve id.key resolvedKeys := by
  cases m
  case resolve hc => exact .inr ⟨_, _, hc, rfl⟩
  case dropBundle =>
    rw [dropBundle, dropAll_eq]
    exact .inl rfl
  all_goals exact .inl rfl

theorem locksOf_congr (hd : l'.data k = l.data k) (hr : l'.resolved = l.resolved) :
    l'.locksOf k = l.locksOf k := by
  rw [locksOf, locksOf, hd, hr]

theorem locksOf_resolve {resolvedKeys : Option (List Pubkey)} (hk : k ≠ id.key) :
    (l.resolve id.key resolvedKeys).locksOf k = l.locksOf k := by
  unfold locksOf resolve
  split_ifs <;> simp_all

-- Those of an executing transaction stay.
theorem locksOf_move (o : l.Owned E h) (m : Move P E t l h l' h') (hk : k ∈ l.executingTx) :
    l'.locksOf k = l.locksOf k := by
  rcases resolved_move m with hr | ⟨id, _, hc, rfl⟩
  case inl =>
    exact locksOf_congr (data_move m <| o.minted_of_live <| o.live_of_keysIn <| key_mem_executing hk) hr
  case inr =>
    refine locksOf_resolve fun he => ?_
    subst he
    exact nomatch o.place_unique (key_mem_checked hc) (key_mem_executing hk)

theorem viaBundle_move (m : Move P E t l h l' h') :
    l'.viaBundle = l.viaBundle ∨ l'.viaBundle = l.nextKey E :: l.viaBundle := by
  cases m
  case insertBundled => exact .inr rfl
  case dropBundle =>
    rw [dropBundle, dropAll_eq]
    exact .inl rfl
  all_goals exact .inl rfl

theorem mem_viaBundle_move (m : Move P E t l h l' h') (hk : k ∈ l.viaBundle) :
    k ∈ l'.viaBundle := by
  rcases viaBundle_move m with hv | hv
  · exact hv ▸ hk
  · exact hv ▸ List.mem_cons_of_mem _ hk

theorem Clean.move (hc : l.Clean E k) (m : Move P E t l h l' h') (hm : l.Minted E k) :
    l'.Clean E k := by
  rw [Clean, data_move m hm]
  exact hc

theorem Ordinary.move (ho : l.Ordinary E id) (m : Move P E t l h l' h') (hm : l.Minted E id.key) :
    l'.Ordinary E id where
  priority := ho.priority
  clean    := ho.clean.move m hm
  key      := by
    rcases viaBundle_move m with hv | hv
    · exact hv ▸ ho.key
    · rw [hv]
      refine List.not_mem_cons_of_ne_of_not_mem (fun hn => ?_) ho.key
      exact not_minted_nextKey (hn ▸ hm)

-- An ordinary id that is executing keeps its label.
theorem Labelled.ordinary_of_execution (n : l.Labelled E) (hr : ⟨id, .execute⟩ ∈ l.inFlight)
    (hp : id.priority < bundleMarker) : l.Ordinary E id :=
  (n.requests _ hr).elim (fun h => h) fun hm => absurd hm.right hp.ne

theorem Labelled.of_sends {units : List SchedulingUnit} (n : l.Labelled E)
    (hs : Sends l h units batch) (hr : r ∈ batch.transactions) :
    (l.Ordinary E r.id ∨ Marked r) ∧ (batch.flags = .check → l.Ordinary E r.id) := by
  cases hs
  case checks hs =>
    have ho : l.Ordinary E r.id := by
      rcases hs r hr with ⟨_, hu⟩ | ⟨_, hc⟩
      · exact n.unchecked _ hu
      · exact n.checked _ hc
    exact ⟨.inl ho, fun _ => ho⟩
  case transaction hf hc ht =>
    obtain rfl := List.mem_singleton.mp (ht ▸ hr)
    exact ⟨.inl <| n.checked _ hc, fun _ => n.checked _ hc⟩
  case bundle hf hb ht =>
    obtain ⟨id, hi, rfl⟩ := List.mem_map.mp (ht ▸ hr)
    exact ⟨.inr ⟨rfl, priority_bundle hi⟩, fun hc => nomatch hf.symm.trans hc⟩
  case tip hf _ _ _ ht =>
    obtain rfl := List.mem_singleton.mp (ht ▸ hr)
    exact ⟨.inr ⟨rfl, rfl⟩, fun hc => nomatch hf.symm.trans hc⟩

theorem Labelled.move (n : l.Labelled E) (o : l.Owned E h) (m : Move P E t l h l' h') :
    l'.Labelled E where
  unchecked id hi := by
    rcases mem_unchecked_move m hi with hi | ⟨ho, hh⟩
    · exact (n.unchecked id hi).move m <| o.minted_of_live <| o.live_of_keysIn <|
        key_mem_unchecked hi
    · exact ho.move m <| o.minted_of_live <| o.mem_live_iff.mpr <| .inr hh
  checked id hi := by
    rcases mem_checked_move m hi with hi | hi | ⟨hr, hp⟩ | ⟨ho, _, hh⟩
    · exact (n.checked id hi).move m <| o.minted_of_live <| o.live_of_keysIn <| key_mem_checked hi
    · exact (n.deferred id hi).move m <| o.minted_of_live <| o.live_of_keysIn <|
        key_mem_deferred hi
    · exact (n.ordinary_of_execution hr hp).move m <| o.known _ hr
    · exact ho.move m <| o.minted_of_live <| o.mem_live_iff.mpr <| .inr hh
  deferred id hi := by
    rcases mem_deferred_move m hi with hi | ⟨hr, hp⟩
    · exact (n.deferred id hi).move m <| o.minted_of_live <| o.live_of_keysIn <|
        key_mem_deferred hi
    · exact (n.ordinary_of_execution hr hp).move m <| o.known _ hr
  bundles b hb := by
    have ⟨hn, hk⟩ : b.keys ≠ [] ∧ ∀ key ∈ b.keys, key ∈ l.viaBundle ∧ l.Clean E key :=
      (mem_bundles_move m hb).elim (n.bundles b) fun h => h
    refine ⟨hn, fun key h => ?_⟩
    have ⟨hv, hc⟩ := hk key h
    exact ⟨mem_viaBundle_move m hv, hc.move m <| n.viaBundle key hv⟩
  requests r hr := by
    rcases mem_inFlight_move m hr with hr | ⟨batch, hs, hr⟩
    · exact (n.requests r hr).imp_left fun ho => ho.move m <| o.known r hr
    · exact (n.of_sends hs hr).left.imp_left fun ho =>
        ho.move m <| o.minted_of_live <| o.live_of_sends hs hr
  sent b hb r hr := by
    rcases mem_sent_move m hb with hb | hs
    · have ⟨hm, ho, hc⟩ := n.sent b hb r hr
      exact ⟨Owned.minted_mono m hm, ho.imp_left fun ho => ho.move m hm,
        fun hf => (hc hf).move m hm⟩
    · have hm := o.minted_of_live <| o.live_of_sends hs hr
      have ⟨ho, hc⟩ := n.of_sends hs hr
      exact ⟨Owned.minted_mono m hm, ho.imp_left fun ho => ho.move m hm,
        fun hf => (hc hf).move m hm⟩
  viaBundle k hk := by
    have hv := fun k hk => Owned.minted_mono m <| n.viaBundle k hk
    cases m
    case insertBundled tx _ =>
      rcases List.mem_cons.mp hk with rfl | hk
      · exact Owned.minted_nextKey tx
      · exact hv k hk
    case dropBundle =>
      rw [dropBundle, dropAll_eq] at hk
      exact hv k hk
    all_goals exact hv k hk

-- An answer to `r` leaves the other requests, and above all those of another kind, in flight.
theorem mem_erase_request {s : Multiset Request} {r' : Request} (hr : r ∈ s) (hn : r ≠ r') :
    r ∈ s.erase r' :=
  (Multiset.mem_erase_of_ne hn).mpr hr

theorem Rechecks.move (c : l.Rechecks) (o : l.Owned E h) (m : Move P E t l h l' h') :
    l'.Rechecks := by
  intro r hr hk hl
  cases m
  case insert | insertBundled =>
    have hn : r.key ≠ l.nextKey E := fun hn => not_minted_nextKey (hn ▸ o.known r hr)
    exact c r hr hk <| (Finset.mem_insert.mp hl).resolve_left hn
  case drop | evictUnchecked => exact c r hr hk <| Finset.mem_of_mem_erase hl
  case sendChecks rs rest hu hn hc =>
    rcases Multiset.mem_add.mp hr with hr | hr
    · exact .inl <| hc r hr hk
    · exact (c r hr hk hl).imp_right <| Or.imp_right fun hx => Multiset.mem_add.mpr <| .inr hx
  case answerFirst r' _ _ _ hk' _ | answerRecheck r' _ _ _ hk' =>
    refine (c r (Multiset.mem_of_mem_erase hr) hk hl).imp_right <| Or.imp_right fun hx => ?_
    exact mem_erase_request hx <| by rintro rfl; simp at hk'
  case accept =>
    exact (c r hr hk hl).imp_left <| Finset.mem_insert_of_mem
  case swallow r' hr' hv =>
    refine (c r (Multiset.mem_of_mem_erase hr) hk hl).imp_right <| Or.imp_right fun hx => ?_
    refine mem_erase_request hx ?_
    rintro rfl
    exact hv <| o.live_of_keysIn <| key_mem_executing <| o.executing_of_request hx rfl
  case evictChecked id hc =>
    refine (c r hr hk <| Finset.mem_of_mem_erase hl).imp_left fun hi => ?_
    refine Finset.mem_erase.mpr ⟨?_, hi⟩
    rintro rfl
    exact Finset.notMem_erase _ _ hl
  case finishDrop r' _ _ hr' hk' _ =>
    refine (c r (Multiset.mem_of_mem_erase hr) hk <| Finset.mem_of_mem_erase hl).imp_right <|
      Or.imp_right fun hx => mem_erase_request hx ?_
    rintro rfl
    exact Finset.notMem_erase _ _ hl
  case finishChecked r' _ _ hr' hk' _ _ =>
    by_cases hn : (⟨r.id, .execute⟩ : Request) = r'
    case pos => exact .inl <| Finset.mem_insert.mpr <| .inl <| by rw [← hn]
    case neg =>
      refine (c r (Multiset.mem_of_mem_erase hr) hk hl).imp Finset.mem_insert_of_mem ?_
      exact Or.imp_right fun hx => mem_erase_request hx hn
  case finishDeferred r' _ _ hr' hk' _ _ =>
    by_cases hn : (⟨r.id, .execute⟩ : Request) = r'
    case pos => exact .inr <| .inl <| List.mem_append.mpr <| .inr <| by simp [← hn]
    case neg =>
      refine (c r (Multiset.mem_of_mem_erase hr) hk hl).imp_right <| Or.imp ?_ ?_
      · exact fun hd => List.mem_append.mpr <| .inl hd
      · exact fun hx => mem_erase_request hx hn
  case undefer id rest hd =>
    rcases c r hr hk hl with hi | hi | hx
    · exact .inl <| Finset.mem_insert_of_mem hi
    · rcases List.mem_cons.mp (hd ▸ hi) with hi | hi
      · exact .inl <| Finset.mem_insert.mpr <| .inl hi
      · exact .inr <| .inl hi
    · exact .inr <| .inr hx
  case dropBundle b hb =>
    rw [dropBundle, dropAll_eq] at hr hl ⊢
    exact c r hr hk (Finset.mem_sdiff.mp hl).left
  case startTips init change locks₁ locks₂ b₁ b₂ _ _ _ _ h₁ _ h₂ _ =>
    simp only [send, h₁, h₂, Multiset.mem_add, Multiset.mem_coe, List.mem_singleton] at hr ⊢
    rcases hr with rfl | rfl | hr
    · simp [Scheduler.tipRequest] at hk
    · simp [Scheduler.tipRequest] at hk
    · exact (c r hr hk hl).imp_right <| Or.imp_right fun hx => .inr <| .inr hx
  case startTx id locks b _ hc _ _ _ h₁ _ =>
    simp only [send, h₁, Multiset.mem_add, Multiset.mem_coe, List.mem_singleton] at hr ⊢
    rcases hr with rfl | hr
    · simp at hk
    · by_cases hn : r.id = id
      case pos => exact .inr <| .inr <| .inl <| by rw [hn]
      case neg =>
        refine (c r hr hk hl).imp (fun hi => Finset.mem_erase.mpr ⟨hn, hi⟩) ?_
        exact Or.imp_right fun hx => .inr hx
  case startBundle b locks batch _ hb _ _ _ h₁ _ =>
    simp only [send, h₁, Multiset.mem_add, Multiset.mem_coe, List.mem_map] at hr ⊢
    rcases hr with ⟨id, _, rfl⟩ | hr
    · simp at hk
    · exact (c r hr hk hl).imp_right <| Or.imp_right fun hx => .inr hx
  all_goals exact c r hr hk hl

-- The whole cost of a bundle is carried by its first key.
theorem costs_bundleIds (hb : b.keys ≠ []) : (Scheduler.bundleIds b).map (·.cost) =
    b.cost :: List.replicate (b.keys.length - 1) 0 := by
  obtain ⟨k, ks, hk⟩ := List.exists_cons_of_ne_nil hb
  simp only [Scheduler.bundleIds, hk, List.mapIdx_cons, List.map_cons, if_true]
  refine congrArg _ <| List.eq_replicate_iff.mpr ⟨by simp, ?_⟩
  simp only [List.mem_map, List.mem_mapIdx]
  rintro _ ⟨_, ⟨_, _, rfl⟩, rfl⟩
  rfl

theorem sum_cost_bundleIds (hb : b.keys ≠ []) :
    ((Scheduler.bundleIds b).map (·.cost)).sum = b.cost := by
  simp [costs_bundleIds hb]

theorem Metered.cost_le (c : l.Metered) (hr : r ∈ l.inFlight) (hk : r.kind = .execute) :
    r.id.cost ≤ l.inFlightCus := by
  rw [c.cus, Owned.executions_erase_execute hr hk, Multiset.map_cons, Multiset.sum_cons]
  exact Nat.le_add_right ..

theorem Metered.finish (c : l.Metered) (hr : r ∈ l.inFlight) (hk : r.kind = .execute)
    (a : WorkerAction) (locks : L) : (l.finish r a locks).Metered := by
  have hc := c.cus
  rw [Owned.executions_erase_execute hr hk, Multiset.map_cons, Multiset.sum_cons] at hc
  constructor
  case cus =>
    change l.inFlightCus - r.id.cost = _
    rw [hc, Nat.add_sub_cancel_left]
    rfl
  case bound =>
    exact (Nat.sub_le ..).trans c.bound

theorem Metered.congr (c : l.Metered) (hc : l'.inFlightCus = l.inFlightCus)
    (hx : l'.executions = l.executions) : l'.Metered :=
  ⟨by rw [hc, hx, c.cus], hc ▸ c.bound⟩

theorem Metered.start (c : l.Metered) (u : SchedulingUnit) (cost : Nat) (locks : L)
    (hb : ∀ r ∈ batch.transactions, r.kind = .execute)
    (hs : (batch.transactions.map (·.id.cost)).sum = cost)
    (hm : l.inFlightCus + cost ≤ maxBlockUnits) : ((l.start u cost locks).send batch).Metered := by
  constructor
  case cus =>
    change l.inFlightCus + cost = _
    rw [Owned.executions_send_execute hb, Multiset.map_add, Multiset.sum_add, c.cus, add_comm]
    congr 1
    rw [Multiset.map_coe, Multiset.sum_coe, hs]
  case bound => exact hm

theorem Metered.move (c : l.Metered) (o : l.Owned E h) (n : l.Labelled E)
    (m : Move P E t l h l' h') : l'.Metered := by
  cases m
  case sendChecks hk _ => exact c.congr rfl <| Owned.executions_send_check hk
  case answerFirst hr hk _ =>
    exact c.congr rfl <| (Owned.executions_erase_check hr (by simp [hk])).symm
  case answerRecheck hr hk =>
    exact c.congr rfl <| (Owned.executions_erase_check hr (by simp [hk])).symm
  case swallow r hr hv =>
    have hk : r.kind ≠ .execute := fun hk =>
      hv <| o.live_of_keysIn <| key_mem_executing <| o.executing_of_request hr hk
    exact c.congr rfl <| (Owned.executions_erase_check hr hk).symm
  case finishDrop r a locks hr hk _ => exact (c.finish hr hk a locks).congr rfl rfl
  case finishChecked r a locks hr hk _ _ => exact (c.finish hr hk a locks).congr rfl rfl
  case finishDeferred r a locks hr hk _ _ => exact (c.finish hr hk a locks).congr rfl rfl
  case dropBundle =>
    rw [dropBundle, dropAll_eq]
    exact c.congr rfl rfl
  case startTips init change locks₁ locks₂ b₁ b₂ _ _ _ _ h₁ _ h₂ _ =>
    have hs : Metered (send _ b₁) := c.start (.tipPair init change) 0 locks₂
      (by simp [h₁, Scheduler.tipRequest]) (by simp [h₁, Scheduler.tipRequest]) c.bound
    have hs : Metered (send _ b₂) := hs.start (.tipPair init change) 0 locks₂
      (by simp [h₂, Scheduler.tipRequest]) (by simp [h₂, Scheduler.tipRequest]) hs.bound
    exact hs.congr rfl rfl
  case startTx id locks b _ hc _ _ hm h₁ _ =>
    exact Metered.start (l := l.takeChecked id) (c.congr rfl rfl) _ _ _ (by simp [h₁]) (by simp [h₁]) hm
  case startBundle b locks batch _ hb _ _ hm h₁ _ =>
    refine Metered.start (l := l.takeBundle b) (c.congr rfl rfl) _ _ _ (by simp [h₁]) ?_ hm
    rw [h₁, List.map_map]
    exact sum_cost_bundleIds (n.bundles b hb).left
  all_goals exact c.congr rfl rfl

theorem Custody.place_of_recheck (c : l.Custody E h) (hm : r ∈ l.inFlight) (hk : r.kind = .recheck)
    (hl : r.key ∈ l.live) : ∃ p ≠ Place.firstCheck, r.key ∈ l.keysIn p := by
  rcases c.rechecks r hm hk hl with hc | hd | hx
  · exact ⟨.checked, nofun, key_mem_checked hc⟩
  · exact ⟨.deferred, nofun, key_mem_deferred hd⟩
  · have hx := c.owned.executing_of_request (r := ⟨r.id, .execute⟩) hx rfl
    exact ⟨.executing, nofun, key_mem_executing hx⟩

theorem Custody.move (c : l.Custody E h) (m : Move P E t l h l' h') : l'.Custody E h' where
  owned    := c.owned.move m
  labelled := c.labelled.move c.owned m
  rechecks := c.rechecks.move c.owned m
  metered  := c.metered.move c.owned c.labelled m

-- The invariant does not depend on what requests were answered with.

theorem Ordinary.of_answered {as : List Answer} (ho : l.Ordinary E id) :
    { l with answered := as }.Ordinary E id :=
  ⟨ho.priority, ho.key, ho.clean⟩

theorem Labelled.of_answered {as : List Answer} (n : l.Labelled E) :
    { l with answered := as }.Labelled E where
  unchecked id hi := (n.unchecked id hi).of_answered
  checked id hi   := (n.checked id hi).of_answered
  deferred id hi  := (n.deferred id hi).of_answered
  bundles         := n.bundles
  requests r hr   := (n.requests r hr).imp_left (·.of_answered)
  sent b hb r hr  :=
    have ⟨hm, ho, hc⟩ := n.sent b hb r hr
    ⟨hm, ho.imp_left (·.of_answered), fun hf => (hc hf).of_answered⟩
  viaBundle       := n.viaBundle

theorem Custody.of_answered {as : List Answer} (c : l.Custody E h) :
    { l with answered := as }.Custody E h where
  owned    := ⟨c.owned.live, c.owned.minted, c.owned.executing, c.owned.known⟩
  labelled := c.labelled.of_answered
  rechecks := c.rechecks
  metered  := ⟨c.metered.cus, c.metered.bound⟩

theorem custody_empty {locks : L} : (empty locks).Custody E 0 where
  owned    := by constructor <;> simp [empty, owned, keysIn, firstChecks, executions]
  labelled := by constructor <;> simp [empty]
  rechecks := by simp [empty, Rechecks]
  metered  := by constructor <;> simp [empty, executions]

end Ledger
