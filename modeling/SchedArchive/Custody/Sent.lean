import SchedArchive.Custody.Run

-- What the schedulers have sent to the workers, and that all of it passed the filter.

namespace Ledger

variable {L : Type}

-- The batches that are ever sent. The transactions of an EXECUTE batch passed the static filter, and
-- an ordinary one also the filter on its resolved keys, unless it is one of a pair of tips.
inductive Passed (E : Env) (l : Ledger L) (batch : ScheduleBatch) : Prop
  | checks :
    batch.flags = .check → (∀ r ∈ batch.transactions, r.kind ≠ .execute) → Passed E l batch
  | transaction {id} :
    batch.flags = .execute false false → batch.transactions = [⟨id, .execute⟩] →
    l.Minted E id.key → l.Clean E id.key → l.Admitted E id → Passed E l batch
  | bundle {b} :
    batch.flags = .execute true true →
    batch.transactions = (Scheduler.bundleIds b).map (⟨·, .execute⟩) → b.keys ≠ [] →
    (∀ key ∈ b.keys, key ∈ l.viaBundle ∧ l.Clean E key) → Passed E l batch
  | tip {init change key} :
    batch.flags = .execute true false → .tipPair init change ∈ l.units → key ∈ [init, change] →
    batch.transactions = [Scheduler.tipRequest key] → Passed E l batch

-- Whatever is or may again become a checked transaction was admitted by a first check.
structure Vetted (E : Env) (l : Ledger L) : Prop where
  checked   : ∀ id ∈ l.checkedTx, l.Admitted E id
  deferred  : ∀ id ∈ l.deferredTx, l.Admitted E id
  executing : ∀ id, ⟨id, .execute⟩ ∈ l.inFlight → id.priority < bundleMarker → l.Admitted E id
  sent      : ∀ batch ∈ l.sent, l.Passed E batch

variable {P : LockPolicy L} {E : Env} {t : Terms L} {l l' : Ledger L}
variable {h h' : Multiset TransactionKey} {k : TransactionKey} {id : PriorityId}
variable {batch : ScheduleBatch}

theorem Admitted.move (ha : l.Admitted E id) (m : Move P E t l h l' h') : l'.Admitted E id := by
  have ⟨rep, resolvedKeys, hm, hp⟩ := ha
  refine ⟨rep, resolvedKeys, ?_, hp⟩
  cases m
  case dropBundle =>
    rw [dropBundle, dropAll_eq]
    exact hm
  case answerFirst | answerRecheck | finishDrop | finishChecked | finishDeferred =>
    exact List.mem_cons_of_mem _ hm
  all_goals exact hm

theorem mem_units_move {u : SchedulingUnit} (m : Move P E t l h l' h') (hu : u ∈ l.units) :
    u ∈ l'.units := by
  cases m
  case dropBundle =>
    rw [dropBundle, dropAll_eq]
    exact hu
  case startTips | startTx | startBundle => exact List.mem_cons_of_mem _ hu
  all_goals exact hu

theorem Passed.move (hb : l.Passed E batch) (n : l.Labelled E) (m : Move P E t l h l' h') :
    l'.Passed E batch := by
  cases hb
  case checks hf hr => exact .checks hf hr
  case transaction hf ht hm hc ha =>
    exact .transaction hf ht (Owned.minted_mono m hm) (hc.move m hm) <| ha.move m
  case bundle hf ht hn hk =>
    refine .bundle hf ht hn fun key hm => ?_
    have ⟨hv, hc⟩ := hk key hm
    exact ⟨mem_viaBundle_move m hv, hc.move m <| n.viaBundle key hv⟩
  case tip hf hu hk ht => exact .tip hf (mem_units_move m hu) hk ht

namespace Vetted

-- A batch is as its source in the ledger.
theorem of_sends (v : l.Vetted E) (c : l.Custody E h) (hs : Sends l h l'.units batch)
    (m : Move P E t l h l' h') : l'.Passed E batch := by
  cases hs
  case checks hf hr =>
    refine .checks hf fun r hm => ?_
    rcases hr r hm with ⟨hk, _⟩ | ⟨hk, _⟩ <;> simp [hk]
  case transaction id hf hc ht =>
    have hm := c.owned.minted_of_live <| c.owned.live_of_keysIn <| key_mem_checked hc
    exact .transaction hf ht (Owned.minted_mono m hm) ((c.labelled.checked id hc).clean.move m hm) <|
      (v.checked id hc).move m
  case bundle b hf hb ht =>
    have ⟨hn, hl⟩ := c.labelled.bundles b hb
    refine .bundle hf ht hn fun key hk => ?_
    have ⟨hv, hc⟩ := hl key hk
    exact ⟨mem_viaBundle_move m hv, hc.move m <| c.labelled.viaBundle key hv⟩
  case tip hf hu hk _ ht => exact .tip hf hu hk ht

-- An ordinary request for execution is that of a transaction that was checked.
theorem of_request (v : l.Vetted E) (hs : Sends l h l'.units batch)
    (hr : ⟨id, .execute⟩ ∈ batch.transactions) (hp : id.priority < bundleMarker) :
    l.Admitted E id := by
  cases hs
  case checks hc => rcases hc _ hr with ⟨hk, _⟩ | ⟨hk, _⟩ <;> cases hk
  case transaction id' _ hc ht =>
    rw [ht, List.mem_singleton, Request.mk.injEq] at hr
    exact hr.left ▸ v.checked id' hc
  case bundle ht =>
    rw [ht, List.mem_map] at hr
    have ⟨id', hi, he⟩ := hr
    rw [Request.mk.injEq] at he
    exact absurd (priority_bundle <| he.left ▸ hi) hp.ne
  case tip ht =>
    rw [ht, List.mem_singleton, Scheduler.tipRequest, Request.mk.injEq] at hr
    rw [hr.left] at hp
    exact absurd hp <| lt_irrefl _

theorem move (v : l.Vetted E) (c : l.Custody E h) (m : Move P E t l h l' h') : l'.Vetted E where
  checked id hi := by
    rcases mem_checked_move m hi with hi | hi | ⟨hr, hp⟩ | ⟨_, ha, _⟩
    · exact (v.checked id hi).move m
    · exact (v.deferred id hi).move m
    · exact (v.executing id hr hp).move m
    · exact ha.move m
  deferred id hi := by
    rcases mem_deferred_move m hi with hi | ⟨hr, hp⟩
    · exact (v.deferred id hi).move m
    · exact (v.executing id hr hp).move m
  executing id hr hp := by
    rcases mem_inFlight_move m hr with hr | ⟨batch, hs, hr⟩
    · exact (v.executing id hr hp).move m
    · exact (v.of_request hs hr hp).move m
  sent batch hb := by
    rcases mem_sent_move m hb with hb | hs
    · exact (v.sent batch hb).move c.labelled m
    · exact v.of_sends c hs m

end Vetted

theorem vetted_empty {locks : L} : (empty locks).Vetted E := by
  constructor <;> simp [empty]

end Ledger

namespace Scheduler

open Except Ledger

variable {L : Type} {P : LockPolicy L} {E : Env}

theorem kept_vetted (lf : LockFaults P) :
    Kept P E (.all L) (¬·.IsCustody) (fun l h => l.Custody E h ∧ l.Vetted E) :=
  lf.kept And.left (fun m c => ⟨c.left.move m, c.right.move c.left m⟩) fun _ _ => trivial

end Scheduler
