import SchedArchive.Lib.LockTable
import SchedArchive.Custody.Run

-- Executing transactions hold their locks, and execution is exclusive, for any lock policy that
-- keeps track of the holders.

open Except Ledger LockTable

namespace LockPolicy

variable {L : Type}

-- `Rep s g` says that the lock state `s` records the holders `g`. Transactions are only ever locked
-- if their lists of locks are `ok`.
structure Tracks (P : LockPolicy L) (t : Terms L) (Rep : L → Holders TransactionKey Pubkey → Prop)
    (ok : List Lock → Prop) : Prop where
  brings      : ∀ tx, t.brings tx → ok tx.locks ∧ ok tx.resolvedLocks
  canLock     : ∀ {s g x}, Rep s g → (P.canLock s x = true ↔ Grants g x)
  queue       : ∀ {s g x}, Rep s g → Rep (P.queue s x) g
  dequeue     : ∀ {s g x}, Rep s g → Rep (P.dequeue s x) g
  reprices    : ∀ {s s' g}, Rep s g → t.reprices s s' → Rep s' g
  unlock      : ∀ {s g k x}, Rep s g → ok x → (∀ l, k ∈ g l ↔ l ∈ x) →
                  (P.unlock s k x).Ensures (Rep · (remove g k)) (fun _ => False)
  lockTips    : ∀ {s g k x k' x'}, Rep s g → t.tips → ok x → ok x' → k ≠ k' → (∀ l, k ∉ g l) →
                  (∀ l, k' ∉ g l) → P.tipsLockable s x x' = true →
                  Grants g x ∧ Grants g x' ∧
                  (P.lock s k x).Ensures (fun s => (P.lock s k' x').Ensures
                    (Rep · (add (add g k x) k' x')) (fun _ => False)) (fun _ => False)
  startTx     : ∀ {s g k x}, Rep s g → ok x → (∀ l, k ∉ g l) → Grants g x →
                  (P.startTx s k x).Ensures (Rep · (add g k x)) (fun _ => False)
  startBundle : ∀ {s g} {txs : List (TransactionKey × List Lock)}, Rep s g →
                  (∀ tx ∈ txs, ok tx.2 ∧ Grants g tx.2 ∧ ∀ l, tx.1 ∉ g l) →
                  (txs.map Prod.fst).Nodup →
                  (P.startBundle s txs).Ensures
                    (fun (s, done) => Rep s (if done then addAll g txs else g)) (fun _ => False)

namespace Tracks

variable {P : LockPolicy L} {t : Terms L} {Rep : L → Holders TransactionKey Pubkey → Prop}
variable {ok : List Lock → Prop} {s : L} {g : Holders TransactionKey Pubkey}
variable {keys : List TransactionKey} {locks : TransactionKey → List Lock}

theorem foldl_queue (T : P.Tracks t Rep ok) (hs : Rep s g) :
    Rep (keys.foldl (fun s k => P.queue s (locks k)) s) g := by
  induction keys generalizing s
  case nil          => exact hs
  case cons k ks ih => exact ih <| T.queue hs

theorem foldl_dequeue (T : P.Tracks t Rep ok) (hs : Rep s g) :
    Rep (keys.foldl (fun s k => P.dequeue s (locks k)) s) g := by
  induction keys generalizing s
  case nil          => exact hs
  case cons k ks ih => exact ih <| T.dequeue hs

end Tracks

end LockPolicy

namespace Ledger

variable {L : Type}

-- Two transactions that execute at the same time and conflict were sent as one unit.
def Exclusive (l : Ledger L) : Prop :=
  ∀ k ∈ l.executingTx, ∀ k' ∈ l.executingTx, k ≠ k' → Conflict (l.locksOf k) (l.locksOf k') →
    ∃ u ∈ l.units, k ∈ u.keys ∧ k' ∈ u.keys

structure Locked (Rep : L → Holders TransactionKey Pubkey → Prop) (ok : List Lock → Prop)
    (l : Ledger L) : Prop where
  table     : Rep l.locks (held l.executingTx l.locksOf)
  listed    : ∀ k ∈ l.live, ok (l.data k).locks ∧ ok (l.data k).resolvedLocks
  exclusive : l.Exclusive

variable {P : LockPolicy L} {E : Env} {t : Terms L} {l l' : Ledger L}
variable {h h' : Multiset TransactionKey} {k : TransactionKey} {b : BundleId}
variable {Rep : L → Holders TransactionKey Pubkey → Prop} {ok : List Lock → Prop}

-- A live key was live before or just came in.
theorem live_move (m : Move P E t l h l' h') (hk : k ∈ l'.live) :
    k ∈ l.live ∨ ∃ tx, t.brings tx ∧ l'.data k = tx := by
  cases m
  case insert tx hb | insertBundled tx hb =>
    refine (Finset.mem_insert.mp hk).symm.imp_right ?_
    rintro rfl
    exact ⟨tx, hb, by simp [insertTransaction]⟩
  case drop | evictUnchecked | evictChecked | finishDrop =>
    exact .inl <| Finset.mem_of_mem_erase hk
  case dropBundle =>
    rw [dropBundle, dropAll_eq] at hk
    exact .inl (Finset.mem_sdiff.mp hk).left
  all_goals exact .inl hk

theorem held_move (o : l.Owned E h) (m : Move P E t l h l' h') :
    held l.executingTx l'.locksOf = held l.executingTx l.locksOf :=
  held_congr fun _ hk => locksOf_move o m hk

theorem not_mem_held (hk : k ∉ l.executingTx) (x : Lock) : k ∉ held l.executingTx l.locksOf x :=
  fun hh => hk (mem_held.mp hh).left

theorem Exclusive.mono (c : l.Exclusive) (hx : ∀ k ∈ l'.executingTx, k ∈ l.executingTx)
    (hl : ∀ k ∈ l.executingTx, l'.locksOf k = l.locksOf k) (hu : l'.units = l.units) :
    l'.Exclusive := by
  intro k hk k' hk' hn hc
  rw [hl k <| hx k hk, hl k' <| hx k' hk'] at hc
  rw [hu]
  exact c k (hx k hk) k' (hx k' hk') hn hc

-- A unit none of whose transactions conflicts with one that is executing may start.
theorem Exclusive.start {u : SchedulingUnit} (c : l.Exclusive) (cost : Nat) (locks : L)
    (hg : ∀ k ∈ u.keys, Grants (held l.executingTx l.locksOf) (l.locksOf k)) :
    (l.start u cost locks).Exclusive := by
  intro k hk k' hk' hn hc
  rcases Finset.mem_union.mp hk with hx | hu <;> rcases Finset.mem_union.mp hk' with hx' | hu'
  · have ⟨u', hu, hk⟩ := c k hx k' hx' hn hc
    exact ⟨u', List.mem_cons_of_mem _ hu, hk⟩
  · exact absurd hc.symm <| grants_held.mp (hg k' <| List.mem_toFinset.mp hu') k hx
  · exact absurd hc <| grants_held.mp (hg k <| List.mem_toFinset.mp hu) k' hx'
  · exact ⟨u, List.mem_cons_self, List.mem_toFinset.mp hu, List.mem_toFinset.mp hu'⟩

theorem Locked.ok_locksOf (c : l.Locked Rep ok) (hk : k ∈ l.live) : ok (l.locksOf k) := by
  unfold locksOf
  split
  case isTrue  => exact (c.listed k hk).right
  case isFalse => exact (c.listed k hk).left

section Table

variable (T : P.Tracks t Rep ok) (c : l.Locked Rep ok) (o : l.Owned E h)

include T c o

theorem Locked.unlock {r : Request} (hr : r ∈ l.inFlight) (hk : r.kind = .execute) :
    (P.unlock l.locks r.key (l.locksOf r.key)).Ensures
      (Rep · (held (l.executingTx.erase r.key) l.locksOf)) (fun _ => False) := by
  have hx := o.executing_of_request hr hk
  have hl := c.ok_locksOf <| o.live_of_keysIn <| key_mem_executing hx
  rw [← remove_held]
  exact T.unlock c.table hl fun x => by simp [hx]

theorem Locked.startTx {id : PriorityId} (hc : id ∈ l.checkedTx)
    (hg : P.canLock l.locks (l.locksOf id.key) = true) :
    (P.startTx l.locks id.key (l.locksOf id.key)).Ensures
      (Rep · (held (l.executingTx ∪ [id.key].toFinset) l.locksOf)) (fun _ => False) := by
  have hx := o.fresh_checked hc id.key List.mem_cons_self
  have hl := c.ok_locksOf <| o.live_of_keysIn <| key_mem_checked hc
  rw [← addAll_held]
  exact T.startTx c.table hl (not_mem_held hx) <| (T.canLock c.table).mp hg

theorem Locked.startBundle (hb : b ∈ l.bundles) (hg : l.grantsAll P b.keys) :
    (P.startBundle l.locks (l.keyedLocks b.keys)).Ensures
      (fun (s, done) => Rep s (if done then held (l.executingTx ∪ b.keys.toFinset) l.locksOf
        else held l.executingTx l.locksOf)) (fun _ => False) := by
  rw [← addAll_held]
  refine T.startBundle c.table (fun tx ht => ?_) ?_
  case refine_1 =>
    obtain ⟨k, hk, rfl⟩ := List.mem_map.mp ht
    have hl := c.ok_locksOf <| o.live_of_keysIn <| key_mem_bundled hb hk
    exact ⟨hl, (T.canLock c.table).mp <| hg k hk, not_mem_held <| o.fresh_bundle hb k hk⟩
  case refine_2 =>
    rw [keyedLocks, List.map_map]
    simpa [Function.comp_def] using o.nodup_bundle hb

omit o in
theorem Locked.startTips {init change : TransactionKey} (ht : t.tips)
    (o : l.Owned E (init ::ₘ change ::ₘ h))
    (hl : P.tipsLockable l.locks (l.locksOf init) (l.locksOf change) = true) :
    Grants (held l.executingTx l.locksOf) (l.locksOf init) ∧
    Grants (held l.executingTx l.locksOf) (l.locksOf change) ∧
    (P.lock l.locks init (l.locksOf init)).Ensures (fun s => (P.lock s change
      (l.locksOf change)).Ensures (Rep · (held (l.executingTx ∪ [init, change].toFinset) l.locksOf))
      (fun _ => False)) (fun _ => False) := by
  obtain ⟨hn, hx⟩ := o.fresh_tips
  have h₁ := c.ok_locksOf (k := init) <| o.mem_live_iff.mpr <| .inr <| by simp
  have h₂ := c.ok_locksOf (k := change) <| o.mem_live_iff.mpr <| .inr <| by simp
  rw [← addAll_held]
  exact T.lockTips c.table ht h₁ h₂ (by simpa using hn) (not_mem_held <| hx _ (by simp))
    (not_mem_held <| hx _ (by simp)) hl

theorem Locked.table_move (m : Move P E t l h l' h') :
    Rep l'.locks (held l'.executingTx l'.locksOf) := by
  have ht := c.table
  rw [← held_move o m] at ht
  cases m
  case accept | undefer => exact T.queue ht
  case evictChecked => exact T.dequeue ht
  case finishDrop hr hk hu => exact (c.unlock T o hr hk).of_ok hu
  case finishChecked hr hk hu _ => exact T.queue <| (c.unlock T o hr hk).of_ok hu
  case finishDeferred hr hk hu _ => exact (c.unlock T o hr hk).of_ok hu
  case storeBundle => exact T.foldl_queue ht
  case dropBundle =>
    rw [dropBundle, dropAll_eq] at ht ⊢
    exact T.foldl_dequeue ht
  case startTips htips hl h₁ h₂ _ _ _ _ =>
    exact ((c.startTips T htips o hl).right.right.of_ok h₁).of_ok h₂
  case startTx _ hc hg hs _ _ _ => exact (c.startTx T o hc hg).of_ok hs
  case startBundle _ hb hg hs _ _ _ => exact (c.startBundle T o hb hg).of_ok hs
  case abortBundle _ hb hg hs => exact (c.startBundle T o hb hg).of_ok hs
  case reprice hp => exact T.reprices ht hp
  all_goals exact ht

theorem Locked.exclusive_move (m : Move P E t l h l' h') : l'.Exclusive := by
  have he := c.exclusive
  have hl : ∀ k ∈ l.executingTx, l'.locksOf k = l.locksOf k := fun k hk => locksOf_move o m hk
  cases m
  case finishDrop | finishChecked | finishDeferred =>
    exact he.mono (fun k hk => Finset.mem_of_mem_erase hk) hl rfl
  case dropBundle =>
    rw [dropBundle, dropAll_eq]
    exact he
  case startTips htips hk _ _ _ _ _ _ =>
    obtain ⟨h₁, h₂, _⟩ := c.startTips T htips o hk
    refine he.start 0 l.locks fun k hk => ?_
    simp only [SchedulingUnit.keys, List.mem_cons, List.not_mem_nil, or_false] at hk
    rcases hk with rfl | rfl
    · exact h₁
    · exact h₂
  case startTx id _ _ _ hc hg _ _ _ _ =>
    refine Exclusive.start (l := l.takeChecked id) he 0 l.locks fun k hk => ?_
    rw [List.mem_singleton.mp hk]
    exact (T.canLock c.table).mp hg
  case startBundle b _ _ _ hb hg _ _ _ _ =>
    refine Exclusive.start (l := l.takeBundle b) he 0 l.locks fun k hk => ?_
    exact (T.canLock c.table).mp <| hg k hk
  all_goals exact he.mono (fun k hk => hk) hl rfl

end Table

theorem Locked.move (T : P.Tracks t Rep ok) (c : l.Locked Rep ok) (o : l.Owned E h)
    (m : Move P E t l h l' h') : l'.Locked Rep ok where
  table     := c.table_move T o m
  exclusive := c.exclusive_move T o m
  listed k hk := by
    rcases live_move m hk with hl | ⟨tx, hb, he⟩
    · rw [data_move m <| o.minted_of_live hl]
      exact c.listed k hl
    · rw [he]
      exact T.brings tx hb

theorem locked_empty {locks : L} (h₀ : Rep locks fun _ => ∅) : (empty locks).Locked Rep ok where
  table     := by simpa [empty, held_empty] using h₀
  listed    := by simp [empty]
  exclusive := by simp [empty, Exclusive]

end Ledger

namespace Scheduler

variable {L : Type} {P : LockPolicy L} {E : Env} {t : Terms L}
variable {Rep : L → Holders TransactionKey Pubkey → Prop} {ok : List Lock → Prop}

theorem kept_locked (T : P.Tracks t Rep ok)
    (hc : ∀ payer ixs, t.brings (TipProgram.newSignedWithPayer payer ixs)) :
    Kept P E t (fun f => ¬f.IsCustody ∧ ¬f.IsLock) (fun l h => l.Custody E h ∧ l.Locked Rep ok) where
  custody     := And.left
  move m c    := ⟨c.left.move m, c.right.move T c.left.owned m⟩
  benign _    := And.intro
  compiled    := hc
  unlocks c hr hk :=
    (c.right.unlock T c.left.owned hr hk).mono (fun _ _ => trivial) fun _ => False.elim
  locksTips c ht hl := (c.right.startTips T ht c.left.owned hl).right.right.mono
    (fun _ h => h.mono (fun _ _ => trivial) fun _ => False.elim) fun _ => False.elim
  locksTx c _ hc hg := (c.right.startTx T c.left.owned hc hg).mono (fun _ _ => trivial)
    fun _ => False.elim
  locksBundle c _ hb hg := (c.right.startBundle T c.left.owned hb hg).mono (fun _ _ => trivial)
    fun _ => False.elim

end Scheduler
