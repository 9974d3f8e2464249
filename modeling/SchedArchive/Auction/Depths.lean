import Mathlib.Algebra.Order.BigOperators.Group.Multiset
import SchedArchive.Auction.Locks

-- The queue depths of the lock manager, as long as nothing is sent for execution.

namespace AuctionBatchScheduler

open AuctionEngine Except Ledger

variable {m : LockManager ℚ} {e : Engine} {x : List Lock} {l : Lock} {d : Pubkey → Nat}

-- How often a list of locks names an account.
def mentions (x : List Lock) (a : Pubkey) : Nat :=
  (x.map Prod.fst).count a

-- The queue depths are the numbers `d`, with no entry for 0.
def Reflects (m : LockManager ℚ) (d : Pubkey → Nat) : Prop :=
  ∀ a, m.queueDepths.lookup a = if d a = 0 then none else some (d a : ℚ)

theorem Reflects.congr {m' : LockManager ℚ} (h : Reflects m d)
    (hm : m'.queueDepths = m.queueDepths) : Reflects m' d := by
  intro a
  rw [hm, h a]

theorem mentions_cons {a : Pubkey} :
    mentions (l :: x) a = mentions x a + if a = l.1 then 1 else 0 := by
  by_cases ha : l.1 = a
  case pos => simp [mentions, ha]
  case neg => simp [mentions, ha, Ne.symm ha]

theorem Reflects.queueOne (h : Reflects m d) :
    Reflects (m.queueOne l) fun a => d a + if a = l.1 then 1 else 0 := by
  obtain ⟨a, v⟩ := l
  intro a'
  rw [LockManager.queueOne, Finmap.lookup_insert_eq_ite, h a]
  split
  case isTrue ha =>
    subst ha
    split <;> simp_all
  case isFalse ha => simp [ha, h a']

theorem Reflects.queue (h : Reflects m d) :
    Reflects (m.queueTransaction x) fun a => d a + mentions x a := by
  rw [LockManager.queueTransaction]
  induction x generalizing m d
  case nil => simpa [mentions] using h
  case cons l x ih =>
    have he : (fun a => d a + mentions (l :: x) a) =
        fun a => (d a + if a = l.1 then 1 else 0) + mentions x a := by
      funext a
      rw [mentions_cons]
      omega
    rw [he]
    exact ih h.queueOne

theorem Reflects.dequeueOne (h : Reflects m d) :
    Reflects (m.dequeueOne l) fun a => d a - if a = l.1 then 1 else 0 := by
  obtain ⟨a, v⟩ := l
  have ha := h a
  intro a'
  have hn := h a'
  unfold LockManager.dequeueOne
  by_cases hz : d a = 0
  case pos =>
    rw [if_pos hz] at ha
    simp only [ha]
    by_cases he : a' = a
    case pos =>
      subst he
      simpa [hz] using ha
    case neg => simpa [he] using hn
  case neg =>
    rw [if_neg hz] at ha
    obtain ⟨n, hs⟩ := Nat.exists_eq_succ_of_ne_zero hz
    have hd : max (d a : ℚ) 0 - 1 = n := by
      rw [max_eq_left (by positivity), hs, Nat.cast_succ, add_sub_cancel_right]
    simp only [ha, hd]
    split
    case isTrue hl =>
      have hz : n = 0 := by
        by_contra hp
        have : (1 : ℚ) ≤ n := by exact_mod_cast Nat.one_le_iff_ne_zero.mpr hp
        linarith
      rw [Finmap.lookup_erase_eq_ite]
      split
      case isTrue he  => simp [he, hs, hz]
      case isFalse he => simpa [he] using hn
    case isFalse hl =>
      have hz : n ≠ 0 := fun he => hl <| by norm_num [he]
      rw [Finmap.lookup_insert_eq_ite]
      split
      case isTrue he  => simp [he, hs, hz]
      case isFalse he => simpa [he] using hn

theorem Reflects.dequeue (h : Reflects m d) :
    Reflects (m.dequeueTransaction x) fun a => d a - mentions x a := by
  rw [LockManager.dequeueTransaction]
  induction x generalizing m d
  case nil => simpa [mentions] using h
  case cons l x ih =>
    have he : (fun a => d a - mentions (l :: x) a) =
        fun a => (d a - if a = l.1 then 1 else 0) - mentions x a := by
      funext a
      rw [mentions_cons]
      omega
    rw [he]
    exact ih h.dequeueOne

theorem Reflects.foldl_queue {α : Type} {f : α → List Lock} {as : List α}
    (h : Reflects e.lockManager d) :
    Reflects (as.foldl (fun e a => e.queueTransaction (f a)) e).lockManager fun a =>
      d a + (as.map fun b => mentions (f b) a).sum := by
  induction as generalizing e d
  case nil => simpa using h
  case cons a as ih =>
    simp only [List.map_cons, List.sum_cons, ← Nat.add_assoc]
    exact ih h.queue

theorem Reflects.foldl_dequeue {α : Type} {f : α → List Lock} {as : List α}
    (h : Reflects e.lockManager d) :
    Reflects (as.foldl (fun e a => e.dequeueTransaction (f a)) e).lockManager fun a =>
      d a - (as.map fun b => mentions (f b) a).sum := by
  induction as generalizing e d
  case nil => simpa using h
  case cons a as ih =>
    simp only [List.map_cons, List.sum_cons, ← Nat.sub_sub]
    exact ih h.dequeue

theorem queueDepths_lock {k : TransactionKey} :
    (lock e k x).lockManager.queueDepths = e.lockManager.queueDepths := by
  rw [lock, acquireLocks]
  split
  case isTrue  => exact queueDepths_acquire
  case isFalse => rfl

-- The keys that are queued for execution.
def queuedKeys (l : Ledger Engine) : Multiset TransactionKey :=
  l.keysIn .checked + l.keysIn .bundled

-- How often an account is named by what is queued.
def demand (l : Ledger Engine) (a : Pubkey) : Nat :=
  ((queuedKeys l).map fun k => mentions (l.locksOf k) a).sum

section Move

variable {E : Env} {t : Terms Engine} {l l' : Ledger Engine} {h h' : Multiset TransactionKey}

theorem demand_of_queuedKeys (keys : Multiset TransactionKey)
    (hk : queuedKeys l' = queuedKeys l + keys)
    (hl : ∀ k ∈ queuedKeys l, l'.locksOf k = l.locksOf k) (a : Pubkey) :
    demand l' a = demand l a + (keys.map fun k => mentions (l'.locksOf k) a).sum := by
  rw [demand, hk, Multiset.map_add, Multiset.sum_add, demand]
  congr 1
  refine congrArg _ <| Multiset.map_congr rfl fun k hm => ?_
  rw [hl k hm]

-- The queue depths are at most what is queued asks for. They are less where a check has resolved
-- locks of a transaction that was queued without them.
def Covered (l : Ledger Engine) : Prop :=
  ∃ d, Reflects l.locks.lockManager d ∧ ∀ a, d a ≤ demand l a

theorem Covered.same (c : Covered l) (hd : ∀ a, demand l a ≤ demand l' a)
    (hm : l'.locks.lockManager.queueDepths = l.locks.lockManager.queueDepths) : Covered l' := by
  obtain ⟨d, hr, hle⟩ := c
  exact ⟨d, hr.congr hm, fun a => (hle a).trans (hd a)⟩

theorem demand_congr (hk : queuedKeys l' = queuedKeys l)
    (hl : ∀ k ∈ queuedKeys l, l'.locksOf k = l.locksOf k) (a : Pubkey) : demand l a ≤ demand l' a := by
  rw [demand_of_queuedKeys 0 (by rw [hk, add_zero]) hl a]
  exact Nat.le_add_right ..

theorem demand_resolve {key : TransactionKey} {resolvedKeys : Option (List Pubkey)} (a : Pubkey) :
    demand l a ≤ demand (l.resolve key resolvedKeys) a := by
  refine Multiset.sum_map_le_sum_map _ _ fun k _ => ?_
  have hs : (l.data k).locks.Sublist (l.data k).resolvedLocks := Tx.locks_sublist
  have hr : ∀ keys : Finset TransactionKey, l.resolved ⊆ keys →
      (l.locksOf k).Sublist (Ledger.locksOf { l with resolved := keys } k) := by
    intro keys hs'
    unfold locksOf
    split_ifs with h₁ h₂ h₂
    · exact .refl _
    · exact absurd (hs' h₁) h₂
    · exact hs
    · exact .refl _
  refine List.Sublist.count_le _ <| (hr _ ?_).map _
  split
  case isTrue  => exact Finset.subset_insert ..
  case isFalse => exact Finset.Subset.refl _

-- Keys are added to the queued ones together with their locks.
theorem Covered.enter (keys : List TransactionKey) (c : Covered l)
    (hk : queuedKeys l' = queuedKeys l + keys) (hl : ∀ k ∈ queuedKeys l, l'.locksOf k = l.locksOf k)
    (hm : e.lockManager.queueDepths = l.locks.lockManager.queueDepths)
    (he : l'.locks = keys.foldl (fun e k => e.queueTransaction (l'.locksOf k)) e) : Covered l' := by
  obtain ⟨d, hr, hle⟩ := c
  have hr : Reflects e.lockManager d := hr.congr hm
  refine ⟨_, he ▸ hr.foldl_queue, fun a => ?_⟩
  have hd := demand_of_queuedKeys _ hk hl a
  rw [Multiset.map_coe, Multiset.sum_coe] at hd
  rw [hd]
  exact Nat.add_le_add_right (hle a) _

-- And the other way around.
theorem Covered.leave (keys : List TransactionKey) (c : Covered l)
    (hk : queuedKeys l = queuedKeys l' + keys)
    (hl : ∀ k ∈ queuedKeys l', l.locksOf k = l'.locksOf k)
    (he : l'.locks = keys.foldl (fun e k => e.dequeueTransaction (l.locksOf k)) l.locks) :
    Covered l' := by
  obtain ⟨d, hr, hle⟩ := c
  refine ⟨_, he ▸ hr.foldl_dequeue, fun a => ?_⟩
  have hd := demand_of_queuedKeys _ hk hl a
  have := hle a
  rw [Multiset.map_coe, Multiset.sum_coe] at hd
  omega

theorem queuedKeys_insert {id : PriorityId} (hn : id ∉ l.checkedTx) :
    queuedKeys { l with checkedTx := insert id l.checkedTx } = queuedKeys l + ↑[id.key] := by
  simp [queuedKeys, keysIn, hn, add_comm _ {id.key}]

theorem queuedKeys_erase {id : PriorityId} (hc : id ∈ l.checkedTx) :
    queuedKeys l = queuedKeys (l.takeChecked id) + ↑[id.key] := by
  have hc := Multiset.cons_erase (Finset.mem_val.mpr hc)
  simp only [queuedKeys, keysIn, takeChecked, Finset.erase_val]
  nth_rewrite 1 [← hc]
  simp [add_comm _ {id.key}]

theorem queuedKeys_insert_bundle {b : BundleId} (hn : b ∉ l.bundles) :
    queuedKeys { l with bundles := insert b l.bundles } = queuedKeys l + ↑b.keys := by
  simp only [queuedKeys, keysIn, Finset.insert_val_of_notMem hn, Multiset.cons_bind]
  abel

theorem queuedKeys_erase_bundle {b : BundleId} (hb : b ∈ l.bundles) :
    queuedKeys l = queuedKeys (l.takeBundle b) + ↑b.keys := by
  have hb := Multiset.cons_erase (Finset.mem_val.mpr hb)
  simp only [queuedKeys, keysIn, takeBundle, Finset.erase_val]
  nth_rewrite 1 [← hb]
  simp only [Multiset.cons_bind]
  abel

theorem covered_move (o : l.Owned E h)
    (hr : ∀ e e', t.reprices e e' → e'.lockManager.queueDepths = e.lockManager.queueDepths)
    (hs : ¬t.starts) (c : Covered l) (m : Move lockPolicy E t l h l' h') : Covered l' := by
  rcases resolved_move m with hn | ⟨id, _, _, rfl⟩
  case inr => exact c.same demand_resolve rfl
  have hl : ∀ k ∈ queuedKeys l, l'.locksOf k = l.locksOf k := by
    intro k hk
    refine locksOf_congr (data_move m <| o.minted_of_live ?_) hn
    rcases Multiset.mem_add.mp hk with hk | hk <;> exact o.live_of_keysIn hk
  cases m
  case accept id _ _ =>
    refine c.enter [id.key] (queuedKeys_insert fun hc => ?_) hl rfl rfl
    exact o.not_mem_keysIn (Multiset.mem_cons_self ..) (key_mem_checked hc)
  case undefer id rest hd =>
    refine c.enter [id.key] (queuedKeys_insert fun hc => ?_) hl rfl rfl
    exact nomatch o.place_unique (key_mem_checked hc) (key_mem_deferred (hd ▸ List.mem_cons_self))
  case finishChecked r a _ hr hk hu _ =>
    cases hu
    refine c.enter (e := unlock l.locks r.key _) [r.key] (queuedKeys_insert fun hc => ?_) hl
      queueDepths_release rfl
    exact nomatch o.place_unique (key_mem_checked hc)
      (key_mem_executing <| o.executing_of_request hr hk)
  case finishDrop hu | finishDeferred hu _ =>
    cases hu
    exact c.same (demand_congr rfl hl) queueDepths_release
  case evictChecked id hc =>
    exact c.leave [id.key] (queuedKeys_erase hc) (fun k hk => rfl) rfl
  case storeBundle b hb _ =>
    have ⟨k, hk⟩ := List.exists_mem_of_ne_nil _ hb
    refine c.enter b.keys (queuedKeys_insert_bundle fun hc => ?_) hl rfl rfl
    exact o.not_mem_keysIn (Multiset.mem_add.mpr <| .inl hk) (key_mem_bundled hc hk)
  case dropBundle b hb =>
    rw [dropBundle, dropAll_eq] at hl ⊢
    exact c.leave b.keys (queuedKeys_erase_bundle hb) (fun k hk => rfl) rfl
  case startTips hi hc _ _ _ _ =>
    cases hi
    cases hc
    exact c.same (demand_congr rfl hl) <| queueDepths_lock.trans queueDepths_lock
  case startTx ht _ _ _ _ _ _ | startBundle ht _ _ _ _ _ _ | abortBundle ht _ _ _ => exact absurd ht hs
  case reprice hp => exact c.same (demand_congr rfl hl) <| hr _ _ hp
  all_goals exact c.same (demand_congr rfl hl) rfl

end Move

end AuctionBatchScheduler
