import SchedArchive.Custody.Responses

-- What comes in, and the roll of slots, keep every invariant that the moves keep.

open Except Ledger World

namespace Scheduler

variable {L : Type} {S : Scheduler L} {E : Env} {t : Terms L} {F : Fault → Prop}
variable {I : Ledger L → Multiset TransactionKey → Prop} {w : World L}
variable {h : Multiset TransactionKey} {id : PriorityId} {b : BundleId} {tx : Tx}

theorem toLedger_dropKeys {P : LockPolicy L} {keys : List TransactionKey} :
    (keys.foldl (dropBundle.dropKey P) w).toLedger = Ledger.dropAll { w.toLedger with
      locks := keys.foldl (fun locks key => P.dequeue locks (w.locksOf key)) w.locks } keys := by
  induction keys generalizing w
  case nil => rfl
  case cons k ks ih =>
    rw [List.foldl_cons, ih, dropAll_eq, dropAll_eq]
    simp [dropBundle.dropKey, World.dropTransaction, Ledger.dropTransaction,
      Finset.erase_sdiff_comm, Finset.sdiff_insert]
    rfl

theorem toLedger_dropAll_eq {keys : List TransactionKey} : (w.dropAll keys).toLedger =
    { w.toLedger with
      live    := w.live \ keys.toFinset
      dropped := keys.reverse ++ w.dropped } := by
  rw [toLedger_dropAll, ← Ledger.dropAll, dropAll_eq]

theorem toLedger_dropBundle {P : LockPolicy L} :
    (w.dropBundle P b).toLedger = w.toLedger.dropBundle P b := by
  rw [World.dropBundle, toLedger_dropKeys]
  rfl

-- The rule for the loop that takes deferred transactions back. `J` speaks of those that are left.
theorem ensures_drainDeferred {J : List PriorityId → World L → Prop} {ids : List PriorityId}
    (hj : ∀ {id ids w}, J (id :: ids) w →
      ({ w with deferredTx := ids }.insertCheckedNew S id).Ensures (J ids) F)
    (hi : J ids w) : (S.drainDeferred ids w).Ensures (J []) F := by
  induction ids generalizing w
  case nil => exact hi
  case cons id ids ih =>
    rw [drainDeferred, ensures_bind]
    exact (hj hi).imp fun w' => ih

theorem toLedger_queueKeys {keys : List TransactionKey} :
    (S.queueKeys w keys).toLedger = { w.toLedger with
      locks := keys.foldl (fun locks key => S.queue locks (w.locksOf key)) w.locks } := by
  rw [queueKeys]
  induction keys generalizing w
  case nil => rfl
  case cons k ks ih => exact ih

-- The call of `check_slot_roll` makes the scheduler send the tip transactions.
def ActivatesTips (S : Scheduler L) (E : Env) (w : World L) (message : Option ProgressMessage) :
    Prop :=
  ∃ w₁ config, S.rolled E w message = .ok w₁ ∧ w₁.progress.leaderReady ∧
    ¬w.slotStats.wasLeaderReady ∧ w₁.tipConfig = some config ∧
    S.tipsLockable w₁.locks (initTx E w₁).locks (changeTx E w₁ config).locks

-- A transaction that just came in is not a bundled one.
theorem not_mem_viaBundle_nextKey {l : Ledger L} (c : l.Custody E h) : l.nextKey E ∉ l.viaBundle :=
  fun hv => not_minted_nextKey <| c.labelled.viaBundle _ hv

namespace Kept

variable (K : Kept S.toLockPolicy E t F I)

include K

-- The eviction loop changes neither the transactions nor which of them are bundled.
theorem evictUnchecked {n : Nat} (hi : I w.toLedger h) :
    (Scheduler.evictUnchecked n w).Ensures (fun w' => I w'.toLedger h ∧ w'.data = w.data ∧
      w'.viaBundle = w.viaBundle) F := by
  induction n generalizing w
  case zero => exact ⟨hi, rfl, rfl⟩
  case succ n ih =>
    unfold Scheduler.evictUnchecked
    split
    case h_1 => exact K.benign _ (by decide) (by decide)
    case h_2 id rest hp => exact ih <| K.move (.evictUnchecked (Multiset.popMin_eq_some hp).left) hi

theorem ingest {priority cost : Nat} {key : TransactionKey} (hi : I w.toLedger (key ::ₘ h))
    (hp : priority < bundleMarker) (hv : key ∉ w.viaBundle) (hc : w.Clean E key) :
    I { w.toLedger with uncheckedTx := ⟨priority, cost, key⟩ ::ₘ w.uncheckedTx } h :=
  K.move (.ingest ⟨hp, hv, hc⟩) hi

theorem onTpu (law : S.Lawful) (hi : I w.toLedger h) (hb : t.brings tx) :
    (S.onTpu E w (some tx)).Ensures (fun w' => I w'.toLedger h) F := by
  have hv := not_mem_viaBundle_nextKey (K.custody hi)
  have hd : (w.insertTransaction E tx).data (w.nextKey E) = tx := Function.update_self ..
  replace hi := K.move (.insert hb) hi
  simp only [Scheduler.onTpu, ensures_bind]
  refine (law.priority E _ tx).mono ?_ fun f => K.of_overflow
  rintro (_ | ⟨priority, cost⟩) hp
  case none => exact K.move .drop hi
  case some =>
    dsimp only
    split
    case isTrue => exact K.move .drop hi
    case isFalse hf =>
      refine K.ingest (w := w.insertTransaction E tx) hi (hp _ rfl) hv ?_
      rw [Clean, hd]
      simpa using hf

theorem drainTpu (law : S.Lawful) {backlog : List Packet} {maxCount : Nat} (hi : I w.toLedger h)
    (hb : ∀ tx, some tx ∈ backlog → t.brings tx) :
    (S.drainTpu E w backlog maxCount).Ensures (fun w' => I w'.toLedger h) F := by
  simp only [Scheduler.drainTpu, ensures_bind]
  refine (K.evictUnchecked hi).imp fun w' hw => ?_
  obtain ⟨hi, _⟩ := hw
  refine ensures_foldlM (I := fun w' : World L => I w'.toLedger h) (fun w' packet hp hi => ?_) hi
  cases packet
  case none => exact hi
  case some => exact K.onTpu law hi <| hb _ <| List.mem_of_mem_take hp

theorem makeRoom (hi : I w.toLedger h) :
    (Scheduler.makeRoom w).Ensures (fun w' => I w'.toLedger h ∧ w'.data = w.data ∧
      w'.viaBundle = w.viaBundle) F := by
  unfold Scheduler.makeRoom
  split
  case isTrue  => exact K.evictUnchecked hi
  case isFalse => exact ⟨hi, rfl, rfl⟩

theorem onPacket (law : S.Lawful) {packet : Packet} (hi : I w.toLedger h)
    (hb : ∀ tx, packet = some tx → t.brings tx) :
    (S.onPacket E w packet).Ensures (fun w' => I w'.toLedger h) F := by
  cases packet
  case none => exact hi
  case some tx =>
    have hv := not_mem_viaBundle_nextKey (K.custody hi)
    have hd : (w.insertTransaction E tx).data (w.nextKey E) = tx := Function.update_self ..
    replace hi := K.move (.insert <| hb tx rfl) hi
    simp only [Scheduler.onPacket, ensures_bind]
    refine (law.priority E _ tx).mono ?_ fun f => K.of_overflow
    rintro (_ | ⟨priority, cost⟩) hp
    case none => exact K.move .drop hi
    case some =>
      dsimp only
      split
      case isTrue => exact K.move .drop hi
      case isFalse hf =>
        rw [ensures_bind]
        refine (K.makeRoom (w := w.insertTransaction E tx) hi).imp fun w' hw => ?_
        obtain ⟨hi, hd', hv'⟩ := hw
        refine K.ingest (w := w') hi (hp _ rfl) (hv' ▸ hv) ?_
        rw [Clean, hd', hd]
        simpa using hf

-- The keys gathered for a bundle are in the handler's hand.
theorem gather (law : S.Lawful) {g : Gathered} {packets : List Packet}
    (hi : I w.toLedger (↑g.keys + h)) (hv : ∀ key ∈ g.keys, key ∈ w.viaBundle)
    (hb : ∀ tx, some tx ∈ packets → t.brings tx) :
    (S.gather E w g packets).Ensures (fun (w', g') => match g' with
      | none   => I w'.toLedger h
      | some g => I w'.toLedger (↑g.keys + h) ∧ ∀ key ∈ g.keys, key ∈ w'.viaBundle) F := by
  induction packets generalizing w g
  case nil => exact ⟨hi, hv⟩
  case cons packet rest ih =>
    cases packet
    case none =>
      rw [Scheduler.gather, ensures_ok]
      dsimp only
      rw [toLedger_dropAll]
      exact K.dropAll hi
    case some tx =>
      replace hi := K.move (.insertBundled <| hb tx List.mem_cons_self) hi
      rw [← Multiset.cons_add, ← Multiset.singleton_add, add_comm {w.nextKey E},
        ← Multiset.coe_singleton, Multiset.coe_add] at hi
      have hv : ∀ key ∈ g.keys ++ [w.nextKey E], key ∈ w.nextKey E :: w.viaBundle := by
        intro key hk
        rcases List.mem_append.mp hk with hk | hk
        · exact List.mem_cons_of_mem _ <| hv key hk
        · exact List.mem_cons.mpr <| .inl <| List.mem_singleton.mp hk
      simp only [Scheduler.gather, ensures_bind]
      refine (law.bundled E _ tx).mono ?_ fun f => K.of_overflow
      rintro (_ | ⟨cost, value⟩) _
      case none =>
        rw [ensures_pure]
        dsimp only
        rw [toLedger_dropAll]
        exact K.dropAll hi
      case some =>
        simp only [ensures_bind]
        refine (Machine.ensures_add fun _ => K.overflow).imp fun _ _ => ?_
        refine (Machine.ensures_add fun _ => K.overflow).imp fun _ _ => ?_
        exact ih (g := ⟨_, _, _⟩) hi hv fun tx ht => hb tx <| List.mem_cons_of_mem _ ht

theorem evictBundle (hi : I w.toLedger h) :
    (S.evictBundle w).Ensures (fun w' => I w'.toLedger h ∧ w'.data = w.data ∧
      w'.viaBundle = w.viaBundle) F := by
  unfold Scheduler.evictBundle
  split
  case isFalse => exact ⟨hi, rfl, rfl⟩
  case isTrue  =>
    split
    case h_1 => exact K.benign _ (by decide) (by decide)
    case h_2 b hb =>
      rw [ensures_ok, toLedger_dropBundle]
      refine ⟨K.move (.dropBundle <| Finset.first_mem hb) hi, ?_, ?_⟩
      all_goals rw [Ledger.dropBundle, dropAll_eq]

theorem storeBundle {g : Gathered} (hi : I w.toLedger (↑g.keys + h))
    (hk : ∀ key ∈ g.keys, key ∈ w.viaBundle ∧ w.Clean E key) :
    (S.storeBundle w g).Ensures (fun w' => I w'.toLedger h) F := by
  simp only [Scheduler.storeBundle, ensures_bind, ensures_require]
  refine ⟨fun hn => ?_, fun _ => K.benign _ (by decide) (by decide)⟩
  refine (K.evictBundle hi).imp fun w' hw => ?_
  obtain ⟨hi, hd, hv⟩ := hw
  change I { (S.queueKeys w' g.keys).toLedger with bundles := _ } h
  rw [toLedger_queueKeys]
  refine K.move (.storeBundle (b := { priority := _, cost := _, receivedAt := _, keys := _ }) hn ?_) hi
  intro key hm
  rw [Clean, hd, hv]
  exact hk key hm

theorem onBundle (law : S.Lawful) {bundle : List Packet} (hi : I w.toLedger h)
    (hb : ∀ tx, some tx ∈ bundle → t.brings tx) :
    (S.onBundle E w bundle).Ensures (fun w' => I w'.toLedger h) F := by
  rw [Scheduler.onBundle, ensures_bind]
  refine (K.gather law (h := h) (g := ⟨[], 0, 0⟩) (by simpa using hi) (by simp) hb).imp ?_
  rintro ⟨w', _ | g⟩ hg
  case none => exact hg
  case some =>
    dsimp only at hg ⊢
    split
    case isTrue =>
      rw [ensures_pure, toLedger_dropAll]
      exact K.dropAll hg.left
    case isFalse hf =>
      refine K.storeBundle hg.left fun key hk => ⟨hg.right key hk, ?_⟩
      simp only [List.any_eq_true, not_exists, not_and, Bool.not_eq_true] at hf
      exact hf key hk

theorem dropBundles {bs : List BundleId} (hi : I w.toLedger h) (hn : bs.Nodup)
    (hb : ∀ b ∈ bs, b ∈ w.bundles) :
    I (bs.foldl (World.dropBundle S.toLockPolicy) w).toLedger h := by
  induction bs generalizing w
  case nil => exact hi
  case cons b bs ih =>
    refine ih ?_ hn.of_cons fun b' hb' => ?_
    · rw [toLedger_dropBundle]
      exact K.move (.dropBundle <| hb b List.mem_cons_self) hi
    · have hne : b' ≠ b := fun he => (List.nodup_cons.mp hn).left (he ▸ hb')
      rw [toLedger_dropBundle, Ledger.dropBundle, dropAll_eq]
      exact Finset.mem_erase.mpr ⟨hne, hb b' <| List.mem_cons_of_mem _ hb'⟩

theorem dropExpiredBundles (hi : I w.toLedger h) : I (S.dropExpiredBundles w).toLedger h := by
  refine K.dropBundles hi Finset.nodup_ascending fun b hb => ?_
  exact (Finset.mem_filter.mp <| Finset.mem_ascending.mp hb).left

theorem onJitoUpdate (law : S.Lawful) {m : JitoUpdate} (hi : I w.toLedger h)
    (hp : ∀ tx, m = .packet (some tx) → t.brings tx)
    (hb : ∀ b tx, m = .bundle b → some tx ∈ b → t.brings tx) :
    (S.onJitoUpdate E w m).Ensures (fun w' => I w'.toLedger h) F := by
  cases m
  case builderConfig | tipConfig | recentBlockhash => exact hi
  case packet packet => exact K.onPacket law hi fun tx ht => hp tx <| by rw [ht]
  case bundle bundle => exact K.onBundle law hi fun tx => hb bundle tx rfl

-- However many rounds the loop of `drain_jito` goes, if it ends it keeps the invariant.
theorem drainJitoLoop (law : S.Lawful) (cancelled connected : Bool) (n : Nat)
    {ms : List JitoUpdate} (hi : I w.toLedger h)
    (hp : ∀ tx, .packet (some tx) ∈ ms → t.brings tx)
    (hb : ∀ b tx, .bundle b ∈ ms → some tx ∈ b → t.brings tx) :
    ∀ x ∈ S.drainJitoLoop E cancelled connected n ms w, x.Ensures (fun w' => I w'.toLedger h) F := by
  induction n generalizing ms w
  case zero => simp [Scheduler.drainJitoLoop]
  case succ n ih =>
    intro x hx
    cases ms
    case nil =>
      rw [Scheduler.drainJitoLoop] at hx
      split_ifs at hx
      · obtain rfl := Option.some_inj.mp hx
        exact hi
      · exact ih hi hp hb x hx
      · obtain rfl := Option.some_inj.mp hx
        exact K.benign _ (by decide) (by decide)
    case cons m ms =>
      have hm := K.onJitoUpdate law (m := m) hi (fun tx ht => hp tx <| ht ▸ List.mem_cons_self)
        (fun b tx ht => hb b tx <| ht ▸ List.mem_cons_self)
      rw [Scheduler.drainJitoLoop] at hx
      split at hx
      case h_1 w' hw =>
        exact ih (hm.of_ok hw) (fun tx ht => hp tx <| List.mem_cons_of_mem _ ht)
          (fun b tx ht => hb b tx <| List.mem_cons_of_mem _ ht) x hx
      case h_2 f hf =>
        obtain rfl := Option.some_inj.mp hx
        exact hm.of_error hf

theorem drainJito (law : S.Lawful) {channel : JitoChannel} {cancelled : Bool}
    (hi : I w.toLedger h)
    (hp : ∀ tx, .packet (some tx) ∈ channel.messages → t.brings tx)
    (hb : ∀ b tx, .bundle b ∈ channel.messages → some tx ∈ b → t.brings tx) :
    (S.drainJito E w channel cancelled).Ensures (fun w' => I w'.toLedger h) F := by
  have hl := K.drainJitoLoop law cancelled channel.connected (channel.messages.length + 1) hi hp hb
  rw [Scheduler.drainJito]
  cases hd : S.drainJitoLoop E cancelled channel.connected (channel.messages.length + 1)
    channel.messages w
  case none   => exact K.benign _ (by decide) (by decide)
  case some x => exact hl x hd

theorem drainDeferred {ids : List PriorityId} (hi : I w.toLedger h) (hd : w.deferredTx = ids) :
    (S.drainDeferred ids w).Ensures (fun w' => I w'.toLedger h) F := by
  refine Ensures.imp (ensures_drainDeferred
    (J := fun ids w => w.deferredTx = ids ∧ I w.toLedger h) ?_ ⟨hd, hi⟩) fun w' hw => hw.right
  rintro id ids w ⟨hd, hi⟩
  have hc : id ∉ w.checkedTx := fun hc => nomatch (K.owned hi).place_unique (key_mem_checked hc)
    (key_mem_deferred <| hd ▸ List.mem_cons_self)
  simp only [insertCheckedNew, ensures_bind, ensures_require, ensures_pure]
  exact ⟨fun _ => ⟨rfl, K.move (.undefer hd) hi⟩, fun hn => absurd (fun _ => hc) hn⟩

theorem startTips {init change : TransactionKey} (hi : I w.toLedger (init ::ₘ change ::ₘ h))
    (ht : t.tips) (hl : S.tipsLockable w.locks (w.locksOf init) (w.locksOf change) = true) :
    (S.startTips E w init change).Ensures (fun w' => I w'.toLedger h) F := by
  obtain ⟨hn, hx⟩ := (K.owned hi).fresh_tips
  have he : insert change (insert init w.executingTx) = w.executingTx ∪ [init, change].toFinset := by
    ext
    simp
    tauto
  have hc : change ∉ insert init w.executingTx := by
    rw [Finset.mem_insert, not_or]
    exact ⟨fun he => by simp [he] at hn, hx change (by simp)⟩
  simp only [Scheduler.startTips, ensures_bind, ensures_require]
  refine (K.locksTips hi ht hl).with_eq.imp fun locks₁ hw => ?_
  obtain ⟨h₁, hs⟩ := hw
  refine hs.with_eq.imp fun locks₂ hw => ?_
  obtain ⟨h₂, _⟩ := hw
  refine ⟨fun _ => ⟨fun _ => ?_, fun hn => absurd hc hn⟩, fun hn => absurd (hx init (by simp)) hn⟩
  refine ensures_schedule.mono (fun w₁ hw₁ => ?_) fun f => K.of_queueFull
  refine ensures_schedule.mono (fun w₂ hw₂ => ?_) fun f => K.of_queueFull
  rw [hw₂, hw₁, he]
  exact K.move (.startTips ht hl h₁ h₂ rfl rfl rfl rfl) hi

-- The two tip transactions are either locked and started, or dropped again.
theorem becomeTipReceiver (hi : I w.toLedger h)
    (ht : t.tips ∨ ∀ config, w.tipConfig = some config →
      S.tipsLockable w.locks (initTx E w).locks (changeTx E w config).locks = false) :
    (S.becomeTipReceiver E w).Ensures (fun w' => I w'.toLedger h) F := by
  unfold Scheduler.becomeTipReceiver
  split
  case h_1 => exact K.benign _ (by decide) (by decide)
  case h_2 config hc =>
    have hb₁ : t.brings (initTx E w) := K.compiled ..
    have hb₂ : t.brings (changeTx E w config) := K.compiled ..
    obtain ⟨w₁, hw₁⟩ : ∃ w₁, w₁ = w.insertTransaction E (initTx E w) := ⟨_, rfl⟩
    obtain ⟨w₂, hw₂⟩ : ∃ w₂, w₂ = w₁.insertTransaction E (changeTx E w config) := ⟨_, rfl⟩
    have hk : w.nextKey E ≠ w₁.nextKey E := by
      intro he
      have hm := Owned.minted_nextKey (l := w.toLedger) (E := E) (initTx E w)
      rw [he, ← toLedger_insertTransaction, ← hw₁] at hm
      exact not_minted_nextKey hm
    have hl₁ : w₂.locksOf (w.nextKey E) = (initTx E w).locks := by
      rw [hw₂, toLedger_insertTransaction, locksOf_insertTransaction hk, hw₁]
      exact locksOf_nextKey rfl
    have hl₂ : w₂.locksOf (w₁.nextKey E) = (changeTx E w config).locks := by
      rw [hw₂]
      exact locksOf_nextKey rfl
    have hi : I w₂.toLedger (w.nextKey E ::ₘ w₁.nextKey E ::ₘ h) := by
      rw [Multiset.cons_swap, hw₂, hw₁]
      exact K.move (.insert hb₂) <| K.move (.insert hb₁) hi
    dsimp only
    rw [← hw₁, ← hw₂]
    split
    case isTrue hl =>
      refine K.startTips hi (ht.resolve_right fun hn => ?_) hl
      have hf := hn config hc
      rw [← hl₁, ← hl₂, show w.locks = w₂.locks by rw [hw₂, hw₁]; rfl, hl] at hf
      cases hf
    case isFalse => exact K.move .drop <| K.move .drop hi

theorem rolled {message : Option ProgressMessage} (hi : I w.toLedger h) :
    (S.rolled E w message).Ensures (fun w' => I w'.toLedger h) F := by
  rw [Scheduler.rolled, ensures_bind]
  suffices ho : (observeProgress w message).Ensures (fun w' => I w'.toLedger h) F by
    refine ho.imp fun w' hi => ?_
    split
    case isTrue  =>
      simp only [rollSlot, ensures_bind]
      refine Ensures.imp (K.drainDeferred ?_ ?_) fun w' hi => hi
      · exact hi
      · rfl
    case isFalse => exact hi
  unfold observeProgress
  split
  case h_1 => exact hi
  case h_2 =>
    simp only [ensures_bind, ensures_require]
    exact ⟨fun _ => hi, fun _ => K.benign _ (by decide) (by decide)⟩

theorem checkSlotRoll {message : Option ProgressMessage} (hi : I w.toLedger h)
    (ht : t.tips ∨ ¬S.ActivatesTips E w message) :
    (S.checkSlotRoll E w message).Ensures (fun w' => I w'.toLedger h) F := by
  rw [Scheduler.checkSlotRoll, ensures_bind]
  refine (K.rolled hi).with_eq.imp fun w₁ ⟨hw, hi⟩ => ?_
  split
  case isFalse => exact hi
  case isTrue hl =>
    refine K.becomeTipReceiver (w := w₁.count _) hi <| ht.imp_right fun ha config hc => ?_
    by_contra hn
    exact ha ⟨w₁, config, hw, hl.left, by simpa using hl.right, hc, eq_true_of_ne_false hn⟩

end Kept

end Scheduler
