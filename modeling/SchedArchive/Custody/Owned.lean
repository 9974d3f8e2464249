import Mathlib.Tactic.Abel
import SchedArchive.Custody.Move

-- Every live key is in exactly one place, and no key is lost.

inductive Place
  | unchecked
  | firstCheck
  | checked
  | executing
  | deferred
  | bundled
  deriving DecidableEq

namespace Ledger

variable {L : Type}

def firstChecks (l : Ledger L) : Multiset Request :=
  l.inFlight.filter (·.kind = .firstCheck)

def executions (l : Ledger L) : Multiset Request :=
  l.inFlight.filter (·.kind = .execute)

-- The keys in a place, as often as they are there.
def keysIn (l : Ledger L) : Place → Multiset TransactionKey
  | .unchecked  => l.uncheckedTx.map (·.key)
  | .firstCheck => l.firstChecks.map Request.key
  | .checked    => l.checkedTx.val.map (·.key)
  | .executing  => l.executingTx.val
  | .deferred   => (l.deferredTx : Multiset PriorityId).map (·.key)
  | .bundled    => l.bundles.val.bind fun b => b.keys

def owned (l : Ledger L) : Multiset TransactionKey :=
  l.keysIn .unchecked + l.keysIn .firstCheck + l.keysIn .checked + l.keysIn .executing +
    l.keysIn .deferred + l.keysIn .bundled

-- A key the bridge has handed out.
def Minted (E : Env) (l : Ledger L) (key : TransactionKey) : Prop :=
  ∃ i < l.inserted, E.keyAt i = key

structure Owned (E : Env) (l : Ledger L) (h : Multiset TransactionKey) : Prop where
  live      : l.owned + h = l.live.val
  minted    : ↑l.dropped + l.live.val = (Multiset.range l.inserted).map E.keyAt
  executing : l.executions.map Request.key = l.executingTx.val
  known     : ∀ r ∈ l.inFlight, l.Minted E r.key

variable {E : Env} {l : Ledger L} {h : Multiset TransactionKey} {k : TransactionKey} {p q : Place}

theorem count_owned :
    l.owned.count k = (l.keysIn .unchecked).count k + (l.keysIn .firstCheck).count k +
      (l.keysIn .checked).count k + (l.keysIn .executing).count k + (l.keysIn .deferred).count k +
      (l.keysIn .bundled).count k := by
  simp [owned]

theorem count_keysIn_le : (l.keysIn p).count k ≤ l.owned.count k := by
  rw [count_owned]
  cases p <;> omega

theorem mem_owned_iff : k ∈ l.owned ↔ ∃ p, k ∈ l.keysIn p := by
  constructor
  case mp =>
    simp only [owned, Multiset.mem_add]
    rintro (((((h | h) | h) | h) | h) | h) <;> exact ⟨_, h⟩
  case mpr =>
    intro ⟨p, h⟩
    rw [← Multiset.one_le_count_iff_mem] at h ⊢
    exact h.trans count_keysIn_le

theorem count_add_count_le (hn : p ≠ q) :
    (l.keysIn p).count k + (l.keysIn q).count k ≤ l.owned.count k := by
  rw [count_owned]
  cases p <;> cases q <;> first | exact absurd rfl hn | omega

namespace Owned

variable (o : l.Owned E h)

include o

theorem count_le_one : l.owned.count k + h.count k ≤ 1 := by
  rw [← Multiset.count_add, o.live]
  exact Multiset.nodup_iff_count_le_one.mp l.live.nodup k

-- A key is in at most one place.
theorem place_unique (hp : k ∈ l.keysIn p) (hq : k ∈ l.keysIn q) : p = q := by
  by_contra hn
  have hc := o.count_le_one (k := k)
  have hs := count_add_count_le (l := l) (k := k) hn
  rw [← Multiset.one_le_count_iff_mem] at hp hq
  omega

theorem not_mem_keysIn (hh : k ∈ h) : k ∉ l.keysIn p := by
  intro hp
  have hc := o.count_le_one (k := k)
  have hs := count_keysIn_le (l := l) (k := k) (p := p)
  rw [← Multiset.one_le_count_iff_mem] at hp hh
  omega

theorem nodup_keysIn : (l.keysIn p).Nodup := by
  rw [Multiset.nodup_iff_count_le_one]
  intro k
  have := o.count_le_one (k := k)
  exact count_keysIn_le.trans (by omega)

theorem nodup_hand : h.Nodup := by
  rw [Multiset.nodup_iff_count_le_one]
  intro k
  have := o.count_le_one (k := k)
  omega

theorem mem_live_iff : k ∈ l.live ↔ (∃ p, k ∈ l.keysIn p) ∨ k ∈ h := by
  rw [← Finset.mem_val, ← o.live, Multiset.mem_add, mem_owned_iff]

theorem live_of_keysIn (hp : k ∈ l.keysIn p) : k ∈ l.live :=
  o.mem_live_iff.mpr <| .inl ⟨p, hp⟩

theorem minted_of_live (hl : k ∈ l.live) : l.Minted E k := by
  have hm : k ∈ (Multiset.range l.inserted).map E.keyAt := by
    rw [← o.minted]
    exact Multiset.mem_add.mpr <| .inr hl
  obtain ⟨i, hi, hk⟩ := Multiset.mem_map.mp hm
  exact ⟨i, Multiset.mem_range.mp hi, hk⟩

-- No key is handed out twice.
theorem nodup_minted : (↑l.dropped + l.live.val).Nodup := by
  rw [o.minted]
  exact (Multiset.nodup_range _).map E.keyAt_injective

theorem not_dropped (hl : k ∈ l.live) : k ∉ l.dropped := fun hd =>
  Multiset.disjoint_left.mp (Multiset.nodup_add.mp o.nodup_minted).right.right hd hl

end Owned

theorem not_minted_nextKey : ¬l.Minted E (l.nextKey E) := by
  intro ⟨i, hi, hk⟩
  have := E.keyAt_injective hk
  omega

-- What is in which place.

theorem key_mem_unchecked {id : PriorityId} (h : id ∈ l.uncheckedTx) :
    id.key ∈ l.keysIn .unchecked :=
  Multiset.mem_map_of_mem _ h

theorem key_mem_firstCheck {r : Request} (h : r ∈ l.inFlight) (hk : r.kind = .firstCheck) :
    r.key ∈ l.keysIn .firstCheck :=
  Multiset.mem_map_of_mem _ <| Multiset.mem_filter.mpr ⟨h, hk⟩

theorem key_mem_checked {id : PriorityId} (h : id ∈ l.checkedTx) : id.key ∈ l.keysIn .checked :=
  Multiset.mem_map_of_mem _ h

theorem key_mem_executing (h : k ∈ l.executingTx) : k ∈ l.keysIn .executing :=
  h

theorem key_mem_deferred {id : PriorityId} (h : id ∈ l.deferredTx) :
    id.key ∈ l.keysIn .deferred :=
  Multiset.mem_map_of_mem _ <| Multiset.mem_coe.mpr h

theorem key_mem_bundled {b : BundleId} (h : b ∈ l.bundles) (hk : k ∈ b.keys) :
    k ∈ l.keysIn .bundled :=
  Multiset.mem_bind.mpr ⟨b, h, hk⟩

theorem Owned.executing_of_request {r : Request} (o : l.Owned E h) (hr : r ∈ l.inFlight)
    (hk : r.kind = .execute) : r.key ∈ l.executingTx := by
  rw [← Finset.mem_val, ← o.executing]
  exact Multiset.mem_map_of_mem _ <| Multiset.mem_filter.mpr ⟨hr, hk⟩

-- The transaction of an execute request is not waiting for another execution.
theorem Owned.not_queued_of_request {r : Request} (o : l.Owned E h) (hr : r ∈ l.inFlight)
    (hk : r.kind = .execute) : r.id ∉ l.checkedTx ∧ r.id ∉ l.deferredTx := by
  have hx := key_mem_executing <| o.executing_of_request hr hk
  constructor
  · exact fun hc => nomatch o.place_unique (key_mem_checked hc) hx
  · exact fun hd => nomatch o.place_unique (key_mem_deferred hd) hx

variable {P : LockPolicy L} {t : Terms L} {l' : Ledger L} {h' : Multiset TransactionKey}
variable {id : PriorityId} {b : BundleId} {r : Request} {u : SchedulingUnit}
variable {batch : ScheduleBatch} {keys : List TransactionKey} {rest : Multiset TransactionKey}

theorem Owned.nodup_bundle (o : l.Owned E h) (hb : b ∈ l.bundles) : b.keys.Nodup := by
  have hn := o.nodup_keysIn (p := .bundled)
  simp only [keysIn, Multiset.nodup_bind] at hn
  exact Multiset.coe_nodup.mp <| hn.left b hb

-- What taking something out of a place leaves.

theorem owned_erase_checked (hc : id ∈ l.checkedTx) :
    l.owned = id.key ::ₘ (l.takeChecked id).owned := by
  have hc := Multiset.cons_erase (Finset.mem_val.mpr hc)
  simp only [owned, keysIn, firstChecks, takeChecked, Finset.erase_val]
  nth_rewrite 1 [← hc]
  simp

theorem owned_erase_executing (hx : k ∈ l.executingTx) :
    l.owned = k ::ₘ owned { l with executingTx := l.executingTx.erase k } := by
  have hx := Multiset.cons_erase (Finset.mem_val.mpr hx)
  simp only [owned, keysIn, firstChecks, Finset.erase_val]
  nth_rewrite 1 [← hx]
  simp

theorem owned_erase_bundle (hb : b ∈ l.bundles) :
    l.owned = ↑b.keys + (l.takeBundle b).owned := by
  have hb := Multiset.cons_erase (Finset.mem_val.mpr hb)
  simp only [owned, keysIn, firstChecks, takeBundle, Finset.erase_val]
  nth_rewrite 1 [← hb]
  simp only [Multiset.cons_bind]
  abel

theorem owned_erase_firstCheck (hr : r ∈ l.inFlight) (hk : r.kind = .firstCheck) :
    l.owned = r.key ::ₘ owned { l with inFlight := l.inFlight.erase r } := by
  obtain ⟨rest, hr⟩ := Multiset.exists_cons_of_mem hr
  simp [owned, keysIn, firstChecks, hr, hk]

theorem owned_erase_request (hr : r ∈ l.inFlight) (hk : r.kind ≠ .firstCheck) :
    l.owned = owned { l with inFlight := l.inFlight.erase r } := by
  obtain ⟨rest, hr⟩ := Multiset.exists_cons_of_mem hr
  simp [owned, keysIn, firstChecks, hr, hk]

theorem Owned.owned_finish (o : l.Owned E h) (a : WorkerAction) (locks : L) (hr : r ∈ l.inFlight)
    (hk : r.kind = .execute) : l.owned = r.key ::ₘ (l.finish r a locks).owned := by
  rw [owned_erase_executing <| o.executing_of_request hr hk]
  congr 1
  exact owned_erase_request (l := { l with executingTx := _ }) hr (by simp [hk])

-- What putting something into a place adds.

theorem owned_insert_checked (hn : id ∉ l.checkedTx) :
    owned { l with checkedTx := insert id l.checkedTx } = id.key ::ₘ l.owned := by
  simp [owned, keysIn, firstChecks, hn]

theorem owned_insert_bundle (hn : b ∉ l.bundles) :
    owned { l with bundles := insert b l.bundles } = ↑b.keys + l.owned := by
  simp only [owned, keysIn, firstChecks, Finset.insert_val_of_notMem hn, Multiset.cons_bind]
  abel

theorem union_toFinset_val {s : Finset TransactionKey} (hn : keys.Nodup)
    (hd : ∀ k ∈ keys, k ∉ s) : (s ∪ keys.toFinset).val = ↑keys + s.val := by
  have hd : Disjoint (keys : Multiset TransactionKey) s.val :=
    Multiset.disjoint_left.mpr fun hk hs => hd _ hk hs
  rw [Finset.union_val, List.toFinset_val, List.Nodup.dedup hn, Multiset.union_comm]
  exact (Multiset.add_eq_union_iff_disjoint.mpr hd).symm

theorem owned_start {cost : Nat} {locks : L} (hn : u.keys.Nodup)
    (hd : ∀ k ∈ u.keys, k ∉ l.executingTx) : (l.start u cost locks).owned = ↑u.keys + l.owned := by
  simp only [owned, keysIn, firstChecks, start, union_toFinset_val hn hd]
  abel

theorem owned_send (hb : ∀ r ∈ batch.transactions, r.kind ≠ .firstCheck) :
    (l.send batch).owned = l.owned := by
  have hf : (batch.transactions : Multiset Request).filter (·.kind = .firstCheck) = 0 :=
    Multiset.filter_eq_nil.mpr hb
  simp [owned, keysIn, firstChecks, send, hf]

theorem live_dropAll (h : l.live.val = ↑keys + rest) : (l.dropAll keys).live.val = rest := by
  induction keys generalizing l
  case nil => simpa [dropAll] using h
  case cons k ks hi =>
    refine hi (l := l.dropTransaction k) ?_
    simp [dropTransaction, h, ← Multiset.cons_coe]

theorem live_dropBundle (h : l.live.val = ↑b.keys + rest) : (l.dropBundle P b).live.val = rest := by
  unfold dropBundle
  exact live_dropAll h

-- The keys of a unit that is about to start are distinct and not executing yet.

theorem Owned.fresh_tips {init change : TransactionKey}
    (o : l.Owned E (init ::ₘ change ::ₘ h)) :
    [init, change].Nodup ∧ ∀ k ∈ [init, change], k ∉ l.executingTx := by
  constructor
  case left =>
    have := o.nodup_hand
    simp_all
  case right =>
    intro k hk
    have hk : k ∈ init ::ₘ change ::ₘ h := by
      simp only [List.mem_cons, List.not_mem_nil, or_false] at hk
      rcases hk with rfl | rfl <;> simp
    exact o.not_mem_keysIn (p := .executing) hk

theorem Owned.fresh_checked (o : l.Owned E h) (hc : id ∈ l.checkedTx) :
    ∀ k ∈ [id.key], k ∉ l.executingTx := by
  intro k hk hx
  rw [List.mem_singleton.mp hk] at hx
  exact nomatch o.place_unique (key_mem_checked hc) (key_mem_executing hx)

theorem Owned.fresh_bundle (o : l.Owned E h) (hb : b ∈ l.bundles) :
    ∀ k ∈ b.keys, k ∉ l.executingTx :=
  fun _ hk hx => nomatch o.place_unique (key_mem_bundled hb hk) (key_mem_executing hx)

namespace Owned

theorem live_move (o : l.Owned E h) (m : Move P E t l h l' h') :
    l'.owned + h' = l'.live.val := by
  have hl := o.live
  cases m
  case insert tx _ | insertBundled tx _ =>
    have hn : l.nextKey E ∉ l.live := fun hl => not_minted_nextKey (o.minted_of_live hl)
    simp only [insertTransaction, Finset.insert_val_of_notMem hn, ← hl]
    exact Multiset.add_cons ..
  case drop k =>
    simp only [dropTransaction, Finset.erase_val, ← hl, Multiset.add_cons, Multiset.erase_cons_head]
    rfl
  case ingest id _ =>
    simp [owned, keysIn, firstChecks, ← hl]
  case evictUnchecked id rest hu =>
    simp [owned, keysIn, firstChecks, dropTransaction, ← hl, hu]
  case sendChecks rs rest hu hk hc =>
    have hs : ((fun id : PriorityId => id.key) ∘ fun r : Request => r.id) = Request.key := rfl
    simp only [owned, keysIn, firstChecks, send, Scheduler.checkBatch, ← hl, hu, Multiset.map_add,
      Multiset.map_map, Multiset.filter_add, hs]
    abel
  case answerFirst r rep ks hr hk hv =>
    rw [owned_erase_firstCheck hr hk, Multiset.cons_add, ← Multiset.add_cons] at hl
    exact hl
  case accept id _ _ =>
    have hn : id ∉ l.checkedTx := fun hc =>
      o.not_mem_keysIn (Multiset.mem_cons_self ..) (key_mem_checked hc)
    rw [Multiset.add_cons, ← Multiset.cons_add, ← owned_insert_checked hn] at hl
    exact hl
  case answerRecheck r rep ks hr hk =>
    rw [owned_erase_request hr (by simp [hk])] at hl
    exact hl
  case swallow r hr hv =>
    have hk : r.kind ≠ .firstCheck := fun hk => hv <| o.live_of_keysIn (key_mem_firstCheck hr hk)
    rw [owned_erase_request hr hk] at hl
    exact hl
  case evictChecked id hc =>
    rw [owned_erase_checked hc] at hl
    simp only [leaveChecked, dropTransaction, Finset.erase_val, ← hl, Multiset.cons_add,
      Multiset.erase_cons_head]
    rfl
  case finishDrop r a locks hr hk hu =>
    rw [o.owned_finish a locks hr hk] at hl
    simp only [dropTransaction, Finset.erase_val]
    rw [show (l.finish r a locks).live = l.live from rfl, ← hl, Multiset.cons_add,
      Multiset.erase_cons_head]
    rfl
  case finishChecked r a locks hr hk hu hp =>
    have hn : r.id ∉ (l.finish r a locks).checkedTx := (o.not_queued_of_request hr hk).left
    rw [o.owned_finish a locks hr hk, ← owned_insert_checked hn] at hl
    exact hl
  case finishDeferred r a locks hr hk hu hp =>
    rw [o.owned_finish a locks hr hk, ← Multiset.singleton_add] at hl
    refine Eq.trans ?_ hl
    simp only [owned, keysIn, firstChecks, finish, answer, ← Multiset.coe_add, Multiset.map_add,
      Multiset.coe_singleton, Multiset.map_singleton]
    abel
  case undefer id rest hd =>
    have hn : id ∉ l.checkedTx := fun hc =>
      by cases o.place_unique (key_mem_checked hc) (key_mem_deferred (hd ▸ List.mem_cons_self))
    simp [owned, keysIn, firstChecks, enterChecked, ← hl, hn, hd, ← Multiset.cons_coe]
  case storeBundle b hb hv =>
    obtain ⟨k, hk⟩ := List.exists_mem_of_ne_nil _ hb
    have hn : b ∉ l.bundles := fun hc =>
      o.not_mem_keysIn (Multiset.mem_add.mpr <| .inl hk) (key_mem_bundled hc hk)
    rw [← add_assoc, add_comm l.owned, ← owned_insert_bundle hn] at hl
    exact hl
  case dropBundle b hb =>
    rw [owned_erase_bundle hb, add_assoc] at hl
    rw [live_dropBundle hl.symm, Ledger.dropBundle, dropAll_eq]
    rfl
  case startTips init change locks₁ locks₂ b₁ b₂ _ _ _ _ h₁ _ h₂ _ =>
    obtain ⟨hn, hx⟩ := o.fresh_tips
    rw [owned_send (by simp [h₂, Scheduler.tipRequest]),
      owned_send (by simp [h₁, Scheduler.tipRequest]),
      owned_start (u := .tipPair init change) hn hx]
    refine Eq.trans ?_ hl
    simp [SchedulingUnit.keys, ← Multiset.cons_coe]
  case startTx id locks b _ hc _ _ _ h₁ _ =>
    rw [owned_send (by simp [h₁]), owned_start (l := l.takeChecked id) (u := .transaction id.key)
      (List.nodup_singleton _) (o.fresh_checked hc)]
    rw [owned_erase_checked hc] at hl
    exact hl
  case startBundle b locks batch _ hb _ _ _ h₁ _ =>
    rw [owned_send (by simp [h₁]), owned_start (l := l.takeBundle b) (u := .bundle b.keys)
      (o.nodup_bundle hb) (o.fresh_bundle hb)]
    rw [owned_erase_bundle hb] at hl
    exact hl
  case resolve => exact hl
  case abortBundle b locks _ _ _ _ => exact hl
  case reprice locks _ => exact hl

theorem minted_insert (tx : Tx) (hm : l.Minted E k) : (l.insertTransaction E tx).Minted E k :=
  hm.imp fun _ ⟨hi, hk⟩ => ⟨Nat.lt_succ_of_lt hi, hk⟩

theorem minted_nextKey (tx : Tx) : (l.insertTransaction E tx).Minted E (l.nextKey E) :=
  ⟨l.inserted, Nat.lt_succ_self _, rfl⟩

theorem minted_mono (m : Move P E t l h l' h') (hm : l.Minted E k) : l'.Minted E k := by
  cases m
  case insert tx _ | insertBundled tx _ => exact minted_insert tx hm
  case dropBundle => simpa [Minted, dropBundle, dropAll_eq] using hm
  all_goals exact hm

theorem minted_drop (hk : k ∈ l.live) :
    ↑(l.dropTransaction k).dropped + (l.dropTransaction k).live.val = ↑l.dropped + l.live.val := by
  have hk := Multiset.cons_erase (Finset.mem_val.mpr hk)
  rw [← hk]
  simp [dropTransaction, ← Multiset.cons_coe]

theorem minted_dropAll (hl : l.live.val = ↑keys + rest) :
    ↑(l.dropAll keys).dropped + (l.dropAll keys).live.val = ↑l.dropped + l.live.val := by
  rw [live_dropAll hl, hl, dropAll_eq, ← Multiset.coe_add, Multiset.coe_reverse]
  abel

theorem minted_move (o : l.Owned E h) (m : Move P E t l h l' h') :
    ↑l'.dropped + l'.live.val = (Multiset.range l'.inserted).map E.keyAt := by
  have hm := o.minted
  cases m
  case insert | insertBundled =>
    have hn : l.nextKey E ∉ l.live := fun hl => not_minted_nextKey (o.minted_of_live hl)
    simp only [insertTransaction, Finset.insert_val_of_notMem hn, Multiset.add_cons, hm,
      Multiset.range_succ, Multiset.map_cons]
    rfl
  case drop k =>
    exact (minted_drop <| o.mem_live_iff.mpr <| .inr <| Multiset.mem_cons_self ..).trans hm
  case evictUnchecked id rest hu =>
    have hk := o.live_of_keysIn <| key_mem_unchecked <| hu ▸ Multiset.mem_cons_self id rest
    exact (minted_drop (l := { l with uncheckedTx := rest }) hk).trans hm
  case evictChecked id hc =>
    have hk := o.live_of_keysIn <| key_mem_checked hc
    exact (minted_drop (l := l.leaveChecked P id) hk).trans hm
  case finishDrop r a locks hr hk _ =>
    have hk := o.live_of_keysIn <| key_mem_executing <| o.executing_of_request hr hk
    exact (minted_drop (l := l.finish r a locks) hk).trans hm
  case dropBundle b hb =>
    have hl := o.live
    rw [owned_erase_bundle hb, add_assoc] at hl
    rw [show (l.dropBundle P b).inserted = l.inserted by rw [dropBundle, dropAll_eq], ← hm]
    exact minted_dropAll (l := { l with locks := _, bundles := _ }) hl.symm
  all_goals exact hm

theorem executions_erase_execute (hr : r ∈ l.inFlight) (hk : r.kind = .execute) :
    l.executions = r ::ₘ executions { l with inFlight := l.inFlight.erase r } := by
  obtain ⟨rest, hr⟩ := Multiset.exists_cons_of_mem hr
  simp [executions, hr, hk]

theorem executions_erase_check (hr : r ∈ l.inFlight) (hk : r.kind ≠ .execute) :
    l.executions = executions { l with inFlight := l.inFlight.erase r } := by
  obtain ⟨rest, hr⟩ := Multiset.exists_cons_of_mem hr
  simp [executions, hr, hk]

theorem executions_send_check (hb : ∀ r ∈ batch.transactions, r.kind ≠ .execute) :
    (l.send batch).executions = l.executions := by
  have hf : (batch.transactions : Multiset Request).filter (·.kind = .execute) = 0 :=
    Multiset.filter_eq_nil.mpr hb
  rw [executions, send, Multiset.filter_add, hf, zero_add, ← executions]

theorem executions_send_execute (hb : ∀ r ∈ batch.transactions, r.kind = .execute) :
    (l.send batch).executions = ↑batch.transactions + l.executions := by
  have hf : (batch.transactions : Multiset Request).filter (·.kind = .execute) =
    batch.transactions := Multiset.filter_eq_self.mpr hb
  rw [executions, send, Multiset.filter_add, hf, ← executions]

theorem executing_finish (a : WorkerAction) (locks : L) (o : l.Owned E h) (hr : r ∈ l.inFlight)
    (hk : r.kind = .execute) :
    (l.finish r a locks).executions.map Request.key = (l.finish r a locks).executingTx.val := by
  have hx := o.executing
  rw [executions_erase_execute hr hk, Multiset.map_cons] at hx
  rw [finish, Finset.erase_val, ← hx, Multiset.erase_cons_head]
  rfl

theorem executing_move (o : l.Owned E h) (m : Move P E t l h l' h') :
    l'.executions.map Request.key = l'.executingTx.val := by
  have hx := o.executing
  cases m
  case sendChecks rs rest _ hk _ =>
    rw [executions_send_check hk]
    exact hx
  case answerFirst r _ _ hr hk _ =>
    rw [executions_erase_check hr (by simp [hk])] at hx
    exact hx
  case answerRecheck r _ _ hr hk =>
    rw [executions_erase_check hr (by simp [hk])] at hx
    exact hx
  case swallow r hr hv =>
    have hk : r.kind ≠ .execute := fun hk =>
      hv <| o.live_of_keysIn <| key_mem_executing <| o.executing_of_request hr hk
    rw [executions_erase_check hr hk] at hx
    exact hx
  case finishDrop r a locks hr hk _ => exact o.executing_finish a locks hr hk
  case finishChecked r a locks hr hk _ _ => exact o.executing_finish a locks hr hk
  case finishDeferred r a locks hr hk _ _ => exact o.executing_finish a locks hr hk
  case dropBundle b hb =>
    rw [dropBundle, dropAll_eq]
    exact hx
  case startTips init change locks₁ locks₂ b₁ b₂ _ _ _ _ h₁ _ h₂ _ =>
    obtain ⟨hn, hx'⟩ := o.fresh_tips
    rw [executions_send_execute (by simp [h₂, Scheduler.tipRequest]),
      executions_send_execute (by simp [h₁, Scheduler.tipRequest])]
    refine Eq.trans ?_ (union_toFinset_val hn hx').symm
    rw [← hx, h₁, h₂]
    simp only [← Multiset.cons_coe, Multiset.coe_nil, Multiset.cons_add, zero_add,
      Multiset.map_cons]
    exact Multiset.cons_swap ..
  case startTx id locks b _ hc _ _ _ h₁ _ =>
    rw [executions_send_execute (by simp [h₁])]
    refine Eq.trans ?_ (union_toFinset_val (List.nodup_singleton _) (o.fresh_checked hc)).symm
    rw [← hx, h₁, Multiset.map_add]
    rfl
  case startBundle b locks batch _ hb _ _ _ h₁ _ =>
    rw [executions_send_execute (by simp [h₁])]
    refine Eq.trans ?_ (union_toFinset_val (o.nodup_bundle hb) (o.fresh_bundle hb)).symm
    have hk : (batch.transactions.map Request.key) = b.keys := by
      rw [h₁, List.map_map]
      exact keys_bundleIds
    rw [← hx, Multiset.map_add, Multiset.map_coe, hk]
    rfl
  all_goals exact hx

-- A batch only names keys that are live.
theorem live_of_sends {units : List SchedulingUnit} (o : l.Owned E h) (hs : Sends l h units batch)
    (hr : r ∈ batch.transactions) : r.key ∈ l.live := by
  cases hs
  case checks hs =>
    rcases hs r hr with ⟨_, hu⟩ | ⟨_, hc⟩
    · exact o.live_of_keysIn <| key_mem_unchecked hu
    · exact o.live_of_keysIn <| key_mem_checked hc
  case transaction hc ht =>
    obtain rfl := List.mem_singleton.mp (ht ▸ hr)
    exact o.live_of_keysIn <| key_mem_checked hc
  case bundle hb ht =>
    obtain ⟨id, hi, rfl⟩ := List.mem_map.mp (ht ▸ hr)
    exact o.live_of_keysIn <| key_mem_bundled hb <| key_mem_bundle hi
  case tip hk ht =>
    obtain rfl := List.mem_singleton.mp (ht ▸ hr)
    exact o.mem_live_iff.mpr <| .inr hk

theorem known_move (o : l.Owned E h) (m : Move P E t l h l' h') :
    ∀ r ∈ l'.inFlight, l'.Minted E r.key := by
  intro r hr
  refine minted_mono m ?_
  rcases mem_inFlight_move m hr with hr | ⟨batch, hs, hr⟩
  · exact o.known r hr
  · exact o.minted_of_live <| o.live_of_sends hs hr

theorem move (o : l.Owned E h) (m : Move P E t l h l' h') : l'.Owned E h' where
  live      := o.live_move m
  minted    := o.minted_move m
  executing := o.executing_move m
  known     := o.known_move m

end Owned

end Ledger
