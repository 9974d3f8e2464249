import SchedArchive.Scheduler.Run

-- The moves of keys between the places that can own them. Everything a handler does to a ledger is
-- a sequence of these moves. Besides the ledger they act on the keys which the running handler has
-- in its hand: inserted, or taken out of a place, and neither stored nor dropped yet.

-- What the runs in question allow: which transactions may come in, how the lock state may change
-- other than by locking and queueing, and whether tips and work from the queues may be started.
structure Terms (L : Type) where
  brings   : Tx → Prop
  reprices : L → L → Prop
  tips     : Prop
  starts   : Prop

namespace Ledger

variable {L : Type} (P : LockPolicy L) (E : Env)

-- An execute request is answered: its key leaves `executing_tx`, its locks are already released.
def finish (l : Ledger L) (r : Request) (a : WorkerAction) (locks : L) : Ledger L :=
  { l.answer r a with
    executingTx := l.executingTx.erase r.key
    inFlightCus := l.inFlightCus - r.id.cost
    locks       := locks }

def enterChecked (l : Ledger L) (id : PriorityId) : Ledger L :=
  { l with
    locks     := P.queue l.locks (l.locksOf id.key)
    checkedTx := insert id l.checkedTx }

def leaveChecked (l : Ledger L) (id : PriorityId) : Ledger L :=
  { l with
    locks     := P.dequeue l.locks (l.locksOf id.key)
    checkedTx := l.checkedTx.erase id }

def enterBundle (l : Ledger L) (b : BundleId) : Ledger L :=
  { l with
    locks   := b.keys.foldl (fun locks key => P.queue locks (l.locksOf key)) l.locks
    bundles := insert b l.bundles }

def dropAll (l : Ledger L) (keys : List TransactionKey) : Ledger L :=
  keys.foldl dropTransaction l

def dropBundle (l : Ledger L) (b : BundleId) : Ledger L :=
  dropAll { l with
    locks   := b.keys.foldl (fun locks key => P.dequeue locks (l.locksOf key)) l.locks
    bundles := l.bundles.erase b } b.keys

def takeChecked (l : Ledger L) (id : PriorityId) : Ledger L :=
  { l with checkedTx := l.checkedTx.erase id }

def takeBundle (l : Ledger L) (b : BundleId) : Ledger L :=
  { l with bundles := l.bundles.erase b }

-- A unit is sent for execution with its locks already taken.
def start (l : Ledger L) (u : SchedulingUnit) (cost : Nat) (locks : L) : Ledger L :=
  { l with
    executingTx := l.executingTx ∪ u.keys.toFinset
    inFlightCus := l.inFlightCus + cost
    locks       := locks
    units       := u :: l.units }

-- The check that let a transaction into `checked_tx`.
def Admitted (l : Ledger L) (id : PriorityId) : Prop :=
  ∃ rep resolvedKeys, ⟨⟨id, .firstCheck⟩, .check rep resolvedKeys⟩ ∈ l.answered ∧
    Scheduler.checkFailed rep = false ∧ Scheduler.resolvesFiltered E resolvedKeys = false

-- No static account key of the transaction is filtered.
def Clean (l : Ledger L) (key : TransactionKey) : Prop :=
  (l.data key).shouldFilterStatic E.filterKeys = false

-- An id that did not come from a bundle and passed the static filter.
structure Ordinary (l : Ledger L) (id : PriorityId) : Prop where
  priority : id.priority < bundleMarker
  key      : id.key ∉ l.viaBundle
  clean    : l.Clean E id.key

def grantsAll (l : Ledger L) (keys : List TransactionKey) : Prop :=
  ∀ key ∈ keys, P.canLock l.locks (l.locksOf key) = true

end Ledger

open Ledger

inductive Move {L : Type} (P : LockPolicy L) (E : Env) (t : Terms L) :
    Ledger L → Multiset TransactionKey → Ledger L → Multiset TransactionKey → Prop
  | insert {l h tx} :
    t.brings tx → Move P E t l h (l.insertTransaction E tx) (l.nextKey E ::ₘ h)
  | insertBundled {l h tx} :
    t.brings tx →
    Move P E t l h { l.insertTransaction E tx with viaBundle := l.nextKey E :: l.viaBundle }
      (l.nextKey E ::ₘ h)
  | drop {l h key} :
    Move P E t l (key ::ₘ h) (l.dropTransaction key) h
  | ingest {l h id} :
    l.Ordinary E id → Move P E t l (id.key ::ₘ h) { l with uncheckedTx := id ::ₘ l.uncheckedTx } h
  | evictUnchecked {l h id rest} :
    l.uncheckedTx = id ::ₘ rest →
    Move P E t l h ({ l with uncheckedTx := rest }.dropTransaction id.key) h
  | sendChecks {l h} {rs : List Request} {rest} :
    l.uncheckedTx = ((rs : Multiset Request).filter (·.kind = .firstCheck)).map (·.id) + rest →
    (∀ r ∈ rs, r.kind ≠ .execute) → (∀ r ∈ rs, r.kind = .recheck → r.id ∈ l.checkedTx) →
    Move P E t l h ({ l with uncheckedTx := rest }.send (Scheduler.checkBatch rs)) h
  | answerFirst {l h r rep resolvedKeys} :
    r ∈ l.inFlight → r.kind = .firstCheck → r.key ∈ l.live →
    Move P E t l h (l.answer r (.check rep resolvedKeys)) (r.key ::ₘ h)
  | accept {l h id} :
    l.Ordinary E id → l.Admitted E id → Move P E t l (id.key ::ₘ h) (l.enterChecked P id) h
  | resolve {l h id resolvedKeys} :
    id ∈ l.checkedTx → Move P E t l h (l.resolve id.key resolvedKeys) h
  | answerRecheck {l h r rep resolvedKeys} :
    r ∈ l.inFlight → r.kind = .recheck → Move P E t l h (l.answer r (.check rep resolvedKeys)) h
  | swallow {l h r} :
    r ∈ l.inFlight → r.key ∉ l.live → Move P E t l h (l.swallow r) h
  | evictChecked {l h id} :
    id ∈ l.checkedTx → Move P E t l h ((l.leaveChecked P id).dropTransaction id.key) h
  | finishDrop {l h r a locks} :
    r ∈ l.inFlight → r.kind = .execute → P.unlock l.locks r.key (l.locksOf r.key) = .ok locks →
    Move P E t l h ((l.finish r a locks).dropTransaction r.key) h
  | finishChecked {l h r a locks} :
    r ∈ l.inFlight → r.kind = .execute → P.unlock l.locks r.key (l.locksOf r.key) = .ok locks →
    r.id.priority < bundleMarker → Move P E t l h ((l.finish r a locks).enterChecked P r.id) h
  | finishDeferred {l h r a locks} :
    r ∈ l.inFlight → r.kind = .execute → P.unlock l.locks r.key (l.locksOf r.key) = .ok locks →
    r.id.priority < bundleMarker →
    Move P E t l h { l.finish r a locks with deferredTx := l.deferredTx ++ [r.id] } h
  | undefer {l h id rest} :
    l.deferredTx = id :: rest → Move P E t l h ({ l with deferredTx := rest }.enterChecked P id) h
  | storeBundle {l h b} :
    b.keys ≠ [] → (∀ key ∈ b.keys, key ∈ l.viaBundle ∧ l.Clean E key) →
    Move P E t l (↑b.keys + h) (l.enterBundle P b) h
  | dropBundle {l h b} :
    b ∈ l.bundles → Move P E t l h (l.dropBundle P b) h
  | startTips {l h init change locks₁ locks₂ b₁ b₂} :
    t.tips → P.tipsLockable l.locks (l.locksOf init) (l.locksOf change) = true →
    P.lock l.locks init (l.locksOf init) = .ok locks₁ →
    P.lock locks₁ change (l.locksOf change) = .ok locks₂ →
    b₁.transactions = [Scheduler.tipRequest init] → b₁.flags = .execute true false →
    b₂.transactions = [Scheduler.tipRequest change] → b₂.flags = .execute true false →
    Move P E t l (init ::ₘ change ::ₘ h)
      (((l.start (.tipPair init change) 0 locks₂).send b₁).send b₂) h
  | startTx {l h id locks b} :
    t.starts → id ∈ l.checkedTx → P.canLock l.locks (l.locksOf id.key) = true →
    P.startTx l.locks id.key (l.locksOf id.key) = .ok locks →
    l.inFlightCus + id.cost ≤ maxBlockUnits →
    b.transactions = [⟨id, .execute⟩] → b.flags = .execute false false →
    Move P E t l h (((l.takeChecked id).start (.transaction id.key) id.cost locks).send b) h
  | startBundle {l h b locks batch} :
    t.starts → b ∈ l.bundles → l.grantsAll P b.keys →
    P.startBundle l.locks (l.keyedLocks b.keys) = .ok (locks, true) →
    l.inFlightCus + b.cost ≤ maxBlockUnits →
    batch.transactions = (Scheduler.bundleIds b).map (⟨·, .execute⟩) →
    batch.flags = .execute true true →
    Move P E t l h (((l.takeBundle b).start (.bundle b.keys) b.cost locks).send batch) h
  | abortBundle {l h b locks} :
    t.starts → b ∈ l.bundles → l.grantsAll P b.keys →
    P.startBundle l.locks (l.keyedLocks b.keys) = .ok (locks, false) →
    Move P E t l h { l with locks := locks } h
  | reprice {l h locks} :
    t.reprices l.locks locks → Move P E t l h { l with locks := locks } h

namespace Ledger

-- The batches a move can send: whose requests they hold and where these come from.
inductive Sends {L : Type} (l : Ledger L) (h : Multiset TransactionKey) (units : List SchedulingUnit) :
    ScheduleBatch → Prop
  | checks {batch} :
    batch.flags = .check →
    (∀ r ∈ batch.transactions, r.kind = .firstCheck ∧ r.id ∈ l.uncheckedTx ∨
      r.kind = .recheck ∧ r.id ∈ l.checkedTx) →
    Sends l h units batch
  | transaction {batch id} :
    batch.flags = .execute false false → id ∈ l.checkedTx →
    batch.transactions = [⟨id, .execute⟩] → Sends l h units batch
  | bundle {batch b} :
    batch.flags = .execute true true → b ∈ l.bundles →
    batch.transactions = (Scheduler.bundleIds b).map (⟨·, .execute⟩) → Sends l h units batch
  | tip {batch init change key} :
    batch.flags = .execute true false → .tipPair init change ∈ units →
    key ∈ [init, change] → key ∈ h → batch.transactions = [Scheduler.tipRequest key] →
    Sends l h units batch

variable {L : Type} {P : LockPolicy L} {E : Env} {t : Terms L} {l l' : Ledger L}
variable {h h' : Multiset TransactionKey} {k : TransactionKey} {id : PriorityId} {r : Request}
variable {b : BundleId} {batch : ScheduleBatch} {keys : List TransactionKey}

theorem dropAll_eq : l.dropAll keys =
    { l with live := l.live \ keys.toFinset, dropped := keys.reverse ++ l.dropped } := by
  induction keys generalizing l
  case nil => simp [dropAll]
  case cons k ks hi =>
    rw [dropAll, List.foldl_cons, ← dropAll, hi]
    simp [dropTransaction, Finset.erase_sdiff_comm, Finset.sdiff_insert]

theorem keys_bundleIds : (Scheduler.bundleIds b).map (·.key) = b.keys := by
  simp [Scheduler.bundleIds, List.mapIdx_eq_zipIdx_map, Function.comp_def]

theorem key_mem_bundle (hi : id ∈ Scheduler.bundleIds b) : id.key ∈ b.keys := by
  rw [← keys_bundleIds]
  exact List.mem_map_of_mem hi

theorem priority_bundle (hi : id ∈ Scheduler.bundleIds b) : id.priority = bundleMarker := by
  simp only [Scheduler.bundleIds, List.mem_mapIdx] at hi
  obtain ⟨_, _, rfl⟩ := hi
  rfl

-- What can be in a place after a move.

theorem mem_unchecked_move (m : Move P E t l h l' h') (hi : id ∈ l'.uncheckedTx) :
    id ∈ l.uncheckedTx ∨ l.Ordinary E id ∧ id.key ∈ h := by
  cases m
  case ingest id' ho =>
    refine (Multiset.mem_cons.mp hi).symm.imp_right ?_
    rintro rfl
    exact ⟨ho, Multiset.mem_cons_self ..⟩
  case evictUnchecked hu => exact .inl <| hu ▸ Multiset.mem_cons_of_mem hi
  case sendChecks hu _ _ => exact .inl <| hu ▸ Multiset.mem_add.mpr (.inr hi)
  case dropBundle =>
    rw [dropBundle, dropAll_eq] at hi
    exact .inl hi
  all_goals exact .inl hi

theorem mem_checked_move (m : Move P E t l h l' h') (hi : id ∈ l'.checkedTx) :
    id ∈ l.checkedTx ∨ id ∈ l.deferredTx ∨
      (⟨id, .execute⟩ ∈ l.inFlight ∧ id.priority < bundleMarker) ∨
      (l.Ordinary E id ∧ l.Admitted E id ∧ id.key ∈ h) := by
  cases m
  case accept id' ho ha =>
    refine (Finset.mem_insert.mp hi).symm.imp_right ?_
    rintro rfl
    exact .inr <| .inr ⟨ho, ha, Multiset.mem_cons_self ..⟩
  case evictChecked => exact .inl <| Finset.mem_of_mem_erase hi
  case finishChecked r _ _ hr hk _ hp =>
    refine (Finset.mem_insert.mp hi).symm.imp_right ?_
    rintro rfl
    exact .inr <| .inl ⟨hk ▸ hr, hp⟩
  case undefer id' rest hd =>
    refine (Finset.mem_insert.mp hi).symm.imp_right ?_
    rintro rfl
    exact .inl <| hd ▸ List.mem_cons_self
  case dropBundle =>
    rw [dropBundle, dropAll_eq] at hi
    exact .inl hi
  case startTx => exact .inl <| Finset.mem_of_mem_erase hi
  all_goals exact .inl hi

theorem mem_deferred_move (m : Move P E t l h l' h') (hi : id ∈ l'.deferredTx) :
    id ∈ l.deferredTx ∨ (⟨id, .execute⟩ ∈ l.inFlight ∧ id.priority < bundleMarker) := by
  cases m
  case finishDeferred r _ _ hr hk _ hp =>
    refine (List.mem_append.mp hi).imp_right fun hi => ?_
    obtain rfl := List.mem_singleton.mp hi
    exact ⟨hk ▸ hr, hp⟩
  case undefer hd => exact .inl <| hd ▸ List.mem_cons_of_mem _ hi
  case dropBundle =>
    rw [dropBundle, dropAll_eq] at hi
    exact .inl hi
  all_goals exact .inl hi

theorem mem_bundles_move (m : Move P E t l h l' h') (hb : b ∈ l'.bundles) :
    b ∈ l.bundles ∨ b.keys ≠ [] ∧ ∀ key ∈ b.keys, key ∈ l.viaBundle ∧ l.Clean E key := by
  cases m
  case storeBundle b' hn hk =>
    refine (Finset.mem_insert.mp hb).symm.imp_right ?_
    rintro rfl
    exact ⟨hn, hk⟩
  case dropBundle =>
    rw [dropBundle, dropAll_eq] at hb
    exact .inl <| Finset.mem_of_mem_erase hb
  case startBundle => exact .inl <| Finset.mem_of_mem_erase hb
  all_goals exact .inl hb

theorem sends_checks {rs : List Request} {rest : Multiset PriorityId} {units : List SchedulingUnit}
    (hu : l.uncheckedTx = ((rs : Multiset Request).filter (·.kind = .firstCheck)).map (·.id) + rest)
    (hn : ∀ r ∈ rs, r.kind ≠ .execute) (hc : ∀ r ∈ rs, r.kind = .recheck → r.id ∈ l.checkedTx) :
    Sends l h units (Scheduler.checkBatch rs) := by
  refine .checks rfl fun r hr => ?_
  cases hk : r.kind
  case firstCheck =>
    rw [hu]
    refine .inl ⟨rfl, Multiset.mem_add.mpr <| .inl <| Multiset.mem_map_of_mem _ ?_⟩
    exact Multiset.mem_filter.mpr ⟨hr, hk⟩
  case recheck => exact .inr ⟨rfl, hc r hr hk⟩
  case execute => exact absurd hk <| hn r hr

theorem mem_sent_move (m : Move P E t l h l' h') (hb : batch ∈ l'.sent) :
    batch ∈ l.sent ∨ Sends l h l'.units batch := by
  cases m
  case sendChecks rs rest hu hn hc =>
    refine (List.mem_cons.mp hb).symm.imp_right ?_
    rintro rfl
    exact sends_checks hu hn hc
  case dropBundle =>
    rw [dropBundle, dropAll_eq] at hb
    exact .inl hb
  case startTips init change _ _ b₁ b₂ _ _ _ _ h₁ f₁ h₂ f₂ =>
    rcases List.mem_cons.mp hb with rfl | hb
    · exact .inr <| .tip f₂ List.mem_cons_self (by simp) (by simp) h₂
    · rcases List.mem_cons.mp hb with rfl | hb
      · exact .inr <| .tip f₁ List.mem_cons_self (by simp) (by simp) h₁
      · exact .inl hb
  case startTx id _ _ _ hc _ _ _ ht hf =>
    refine (List.mem_cons.mp hb).symm.imp_right ?_
    rintro rfl
    exact .transaction hf hc ht
  case startBundle b _ _ _ hm _ _ _ ht hf =>
    refine (List.mem_cons.mp hb).symm.imp_right ?_
    rintro rfl
    exact .bundle hf hm ht
  all_goals exact .inl hb

-- A new request is one of a batch that was just sent.
theorem mem_inFlight_move (m : Move P E t l h l' h') (hr : r ∈ l'.inFlight) :
    r ∈ l.inFlight ∨ ∃ batch, Sends l h l'.units batch ∧ r ∈ batch.transactions := by
  cases m
  case sendChecks rs rest hu hn hc =>
    refine (Multiset.mem_add.mp hr).symm.imp_right fun hr => ?_
    exact ⟨_, sends_checks hu hn hc, hr⟩
  case answerFirst | answerRecheck | swallow | finishDrop | finishChecked | finishDeferred =>
    exact .inl <| Multiset.mem_of_mem_erase hr
  case dropBundle =>
    rw [dropBundle, dropAll_eq] at hr
    exact .inl hr
  case startTips init change _ _ b₁ b₂ _ _ _ _ h₁ f₁ h₂ f₂ =>
    rcases Multiset.mem_add.mp hr with hr | hr
    · exact .inr ⟨b₂, .tip f₂ List.mem_cons_self (by simp) (by simp) h₂, hr⟩
    · refine (Multiset.mem_add.mp hr).symm.imp_right fun hr => ?_
      exact ⟨b₁, .tip f₁ List.mem_cons_self (by simp) (by simp) h₁, hr⟩
  case startTx id _ _ _ hc _ _ _ ht hf =>
    refine (Multiset.mem_add.mp hr).symm.imp_right fun hr => ?_
    exact ⟨_, .transaction hf hc ht, hr⟩
  case startBundle b _ _ _ hm _ _ _ ht hf =>
    refine (Multiset.mem_add.mp hr).symm.imp_right fun hr => ?_
    exact ⟨_, .bundle hf hm ht, hr⟩
  all_goals exact .inl hr

end Ledger
