import SchedArchive.Theorems.Intake
import SchedArchive.Theorems.Tariff

-- What `drain_tpu` gives up to make room, and what `on_bundle` makes of the packets of a bundle.

open Except Ledger

namespace Sample

-- There is room for one unchecked transaction.
def cramped {L : Type} (locks : L) : World L :=
  Scheduler.newWithJito { args with uncheckedCapacity := 1 } 5 (progress false 0 0) 0 locks

def packet (account : Pubkey) : Packet :=
  some <| tx [(account, true)] 999 1000

def release : Env :=
  { env with overflowChecks := false }

-- A scheduler that wants to be paid for a bundle.
abbrev strict : Scheduler AuctionBatchScheduler.Engine :=
  AuctionBatchScheduler.scheduler libm 1001

end Sample

namespace Scheduler

variable {L : Type} {S : Scheduler L} {E : Env} {locks : L} {w w' : World L}
variable {backlog : List Packet} {maxCount n : Nat}

section Eviction

-- How many entries `drain_tpu` evicts before anything comes in.
def shortfall (w : World L) (backlog : List Packet) (maxCount : Nat) : Nat :=
  w.uncheckedTx.card + min backlog.length maxCount - w.uncheckedCapacity

-- The entries at the low end leave `unchecked_tx`, and each of them is dropped.
structure Evicts (w : World L) (evicted : List PriorityId) (w' : World L) : Prop where
  parts   : w.uncheckedTx = ↑evicted + w'.uncheckedTx
  lowest  : ∀ id ∈ evicted, ∀ kept ∈ w'.uncheckedTx, id ≤ kept
  dropped : w'.dropped = (evicted.map PriorityId.key).reverse ++ w.dropped

theorem Evicts.cons {id : PriorityId} {rest : Multiset PriorityId} {evicted : List PriorityId}
    (hp : w.uncheckedTx.popMin = some (id, rest))
    (he : Evicts (World.dropTransaction { w with uncheckedTx := rest } id.key) evicted w') :
    Evicts w (id :: evicted) w' := by
  obtain ⟨hu, hl⟩ := Multiset.popMin_eq_some hp
  have hr : rest = ↑evicted + w'.uncheckedTx := he.parts
  constructor
  case parts =>
    rw [hu, hr, ← Multiset.cons_coe, Multiset.cons_add]
  case lowest =>
    intro id' hm kept hk
    rcases List.mem_cons.mp hm with rfl | hm
    · exact hl kept <| hr ▸ Multiset.mem_add.mpr (.inr hk)
    · exact he.lowest id' hm kept hk
  case dropped =>
    rw [he.dropped, List.map_cons, List.reverse_cons, List.append_assoc]
    rfl

theorem evicts_evictUnchecked (hn : n ≤ w.uncheckedTx.card) : (evictUnchecked n w).Ensures
    (fun w' => ∃ evicted, Evicts w evicted w') (fun _ => False) := by
  induction n generalizing w
  case zero => exact ⟨[], by simp, by simp, rfl⟩
  case succ n ih =>
    rw [evictUnchecked]
    split
    case h_1 hp =>
      rw [Multiset.popMin_eq_none.mp hp] at hn
      exact absurd hn <| Nat.not_succ_le_zero n
    case h_2 id rest hp =>
      rw [(Multiset.popMin_eq_some hp).left, Multiset.card_cons] at hn
      refine (ih (Nat.le_of_succ_le_succ hn)).imp fun w' he => ?_
      obtain ⟨evicted, he⟩ := he
      exact ⟨id :: evicted, he.cons hp⟩

-- One entry too many, and the heap is empty before the loop ends.
theorem evictUnchecked_of_card_lt (hn : w.uncheckedTx.card < n) :
    evictUnchecked n w = .error .evictUnchecked := by
  induction n generalizing w
  case zero => exact absurd hn <| Nat.not_lt_zero _
  case succ n ih =>
    rw [evictUnchecked]
    split
    case h_1 => rfl
    case h_2 id rest hp =>
      rw [(Multiset.popMin_eq_some hp).left, Multiset.card_cons] at hn
      exact ih <| Nat.lt_of_succ_lt_succ hn

theorem faults_onTpu (law : S.Lawful) {packet : Packet} :
    (S.onTpu E w packet).Ensures (fun _ => True) (· = .overflow) := by
  cases packet
  case none => trivial
  case some tx =>
    rw [onTpu, ensures_bind]
    refine (law.priority ..).imp fun x _ => ?_
    cases x
    case none => trivial
    case some x =>
      dsimp only
      split <;> trivial

-- What is to be expected of the eviction: it finds all that it takes, takes the lowest, drops each
-- of them, and leaves room enough.
structure EvictionSafe (S : Scheduler L) (E : Env) (w : World L) (backlog : List Packet)
    (maxCount : Nat) : Prop where
  evicts  : (evictUnchecked (shortfall w backlog maxCount) w).Ensures
              (fun w' => ∃ evicted, Evicts w evicted w') (fun _ => False)
  pops    : S.drainTpu E w backlog maxCount ≠ .error .evictUnchecked
  bounded : (S.drainTpu E w backlog maxCount).Ensures
              (fun w' => w'.uncheckedTx.card ≤ max w.uncheckedCapacity (min backlog.length maxCount))
              (fun _ => True)

-- The eviction is safe exactly if all that may come in has room in an empty `unchecked_tx`.
theorem eviction_safe_iff (hS : S.Known locks) :
    EvictionSafe S E w backlog maxCount ↔ min backlog.length maxCount ≤ w.uncheckedCapacity := by
  constructor
  case mp =>
    intro hs
    by_contra hc
    have hn : w.uncheckedTx.card < shortfall w backlog maxCount := by
      unfold shortfall
      omega
    have he := hs.evicts
    rw [evictUnchecked_of_card_lt hn] at he
    exact he
  case mpr =>
    intro hc
    have hn : shortfall w backlog maxCount ≤ w.uncheckedTx.card := by
      unfold shortfall
      omega
    constructor
    case evicts => exact evicts_evictUnchecked hn
    case pops =>
      refine Ensures.ne_error ?_
      rw [drainTpu, ensures_bind]
      refine (evicts_evictUnchecked hn).mono (fun w₁ _ => ?_) fun _ => False.elim
      refine Ensures.mono (ensures_foldlM (fun _ _ _ _ => faults_onTpu hS.lawful) trivial)
        (fun _ => id) fun f hf => ?_
      rw [hf]
      decide
    case bounded =>
      exact unchecked_drainTpu.imp fun w' hw => hw.trans <| le_max_left ..

-- One transaction is waiting to be checked and another one comes in, which takes its place.
theorem eviction_safe_iff_replaced :
    EvictionSafe BatchScheduler.scheduler Sample.env
      { Sample.cramped ∅ with uncheckedTx := {⟨7, 999, 0⟩}, inserted := 1 } [Sample.packet 10] 128 :=
  (eviction_safe_iff .batch).mpr (by decide)

-- With nothing to evict, two transactions are more than there is room for.
theorem eviction_pops_empty_heap :
    BatchScheduler.scheduler.drainTpu Sample.env (Sample.cramped ∅)
      [Sample.packet 10, Sample.packet 11] 128 = .error .evictUnchecked ∧
    Sample.auction.drainTpu Sample.env (Sample.cramped AuctionBatchScheduler.initialEngine)
      [Sample.packet 10, Sample.packet 11] 128 = .error .evictUnchecked :=
  ⟨Ensures.eq_error (by decide +kernel), Ensures.eq_error (by decide +kernel)⟩

end Eviction

section Bundle

variable {tx : Tx} {txs : List Tx} {bundle : List Packet} {g : Gathered} {t : Tariff L}

-- The keys that the bridge hands out for the next `n` transactions.
def newKeys (E : Env) (w : World L) (n : Nat) : List TransactionKey :=
  (List.range n).map fun i => E.keyAt (w.inserted + i)

-- A bundled transaction is in the bridge.
def arrive (E : Env) (w : World L) (tx : Tx) : World L :=
  { w.insertTransaction E tx with viaBundle := w.nextKey E :: w.viaBundle }

def arriveAll (E : Env) (w : World L) (txs : List Tx) : World L :=
  txs.foldl (arrive E) w

theorem nodup_newKeys : (newKeys E w n).Nodup := by
  refine List.Nodup.map_on (fun i _ j _ h => ?_) List.nodup_range
  have hi := E.keyAt_injective h
  omega

theorem newKeys_succ (tx : Tx) : newKeys E w (n + 1) = w.nextKey E :: newKeys E (arrive E w tx) n := by
  rw [newKeys, List.range_succ_eq_map, List.map_cons, List.map_map]
  refine congrArg _ <| List.map_congr_left fun i _ => congrArg E.keyAt ?_
  change w.inserted + (i + 1) = w.inserted + 1 + i
  omega

-- What does not depend on the transactions in the bridge stays as it is.
structure Undisturbed (w w' : World L) : Prop where
  uncheckedTx : w'.uncheckedTx = w.uncheckedTx
  checkedTx   : w'.checkedTx = w.checkedTx
  bundles     : w'.bundles = w.bundles
  executingTx : w'.executingTx = w.executingTx
  deferredTx  : w'.deferredTx = w.deferredTx
  locks       : w'.locks = w.locks

theorem undisturbed_arriveAll (txs : List Tx) : Undisturbed w (arriveAll E w txs) := by
  induction txs generalizing w
  case nil => constructor <;> rfl
  case cons tx txs ih => exact ⟨ih.1, ih.2, ih.3, ih.4, ih.5, ih.6⟩

theorem dropped_arriveAll : (arriveAll E w txs).dropped = w.dropped := by
  induction txs generalizing w
  case nil => rfl
  case cons tx txs ih => exact ih

theorem inserted_arriveAll : (arriveAll E w txs).inserted = w.inserted + txs.length := by
  induction txs generalizing w
  case nil => rfl
  case cons tx txs ih =>
    refine ih.trans ?_
    change w.inserted + 1 + txs.length = w.inserted + (txs.length + 1)
    omega

theorem bundleCapacity_arriveAll : (arriveAll E w txs).bundleCapacity = w.bundleCapacity := by
  induction txs generalizing w
  case nil => rfl
  case cons tx txs ih => exact ih

-- A transaction stays what it is when others come in.
theorem data_arriveAll_of_lt {i : Nat} (hi : i < w.inserted) :
    (arriveAll E w txs).data (E.keyAt i) = w.data (E.keyAt i) := by
  induction txs generalizing w
  case nil => rfl
  case cons tx txs ih =>
    refine (ih (w := arrive E w tx) (Nat.lt_succ_of_lt hi)).trans ?_
    refine Function.update_of_ne (fun he => ?_) ..
    exact hi.ne <| E.keyAt_injective he

theorem map_data_arriveAll (txs : List Tx) :
    (newKeys E w txs.length).map (arriveAll E w txs).data = txs := by
  induction txs generalizing w
  case nil => rfl
  case cons tx txs ih =>
    rw [List.length_cons, newKeys_succ tx, List.map_cons]
    refine congrArg₂ _ ?_ ih
    refine (data_arriveAll_of_lt (w := arrive E w tx) (Nat.lt_succ_self w.inserted)).trans ?_
    exact Function.update_self ..

-- What a bundled transaction is worth is decided by the locks, not by the rest of the state.
theorem Known.bundledTx_congr (hS : S.Known locks) (hl : w'.locks = w.locks) :
    S.bundledTx E w' tx = S.bundledTx E w tx := by
  cases hS
  case batch   => rfl
  case auction =>
    change AuctionBatchScheduler.bundledTx .. = AuctionBatchScheduler.bundledTx ..
    simp only [AuctionBatchScheduler.bundledTx, AuctionBatchScheduler.scoreWithAuction, hl]

theorem Known.bundledTx_arrive (hS : S.Known locks) {tx' : Tx} :
    S.bundledTx E (arrive E w tx) tx' = S.bundledTx E w tx' :=
  hS.bundledTx_congr rfl

def packetCost (packet : Packet) : Nat :=
  packet.elim 0 Tx.totalCost

-- If nothing can be made of the transaction, the keys handed out so far are dropped again.
theorem gather_none (hb : S.bundledTx E (arrive E w tx) tx = .ok none) :
    S.gather E w g (some tx :: bundle) =
      .ok ((arrive E w tx).dropAll (g.keys ++ [w.nextKey E]), none) := by
  change (S.bundledTx E (arrive E w tx) tx >>= _) = _
  rw [hb]
  rfl

-- What the packet loop of `on_bundle` can come to.
inductive Gathers (t : Tariff L) (E : Env) (w : World L) (g : Gathered) (bundle : List Packet) :
    World L × Option Gathered → Prop
  -- The keys and the costs of all packets are gathered.
  | all {cost value : Nat} :
    (∀ p ∈ bundle, ¬t.Refuses E w p) →
    (g.cost + (bundle.map packetCost).sum ≤ u64Max → cost = g.cost + (bundle.map packetCost).sum) →
    Gathers t E w g bundle (arriveAll E w bundle.reduceOption,
      some ⟨g.keys ++ newKeys E w bundle.length, cost, value⟩)
  -- At the first packet on which it gives up, the keys handed out so far are dropped again.
  | stops (arrived : List Tx) :
    (∃ p ∈ bundle, t.Refuses E w p) → Gathers t E w g bundle
      ((arriveAll E w arrived).dropAll (g.keys ++ newKeys E w arrived.length), none)

theorem Gathers.cons {g' : Gathered} {x : World L × Option Gathered} (hS : S.Charges locks t)
    (ht : ¬t.rejects E w tx) (hk : g'.keys = g.keys ++ [w.nextKey E])
    (hc : g.cost + tx.totalCost ≤ u64Max → g'.cost = g.cost + tx.totalCost)
    (h : Gathers t E (arrive E w tx) g' bundle x) : Gathers t E w g (some tx :: bundle) x := by
  have hl : (arrive E w tx).locks = w.locks := rfl
  have hr {p : Packet} : t.Refuses E (arrive E w tx) p ↔ t.Refuses E w p := hS.refuses_congr hl
  cases h
  case all cost value hp hv =>
    rw [hk, List.append_assoc, List.singleton_append, ← newKeys_succ tx]
    refine Gathers.all (List.forall_mem_cons.mpr ⟨ht, fun p hm => hr.not.mp <| hp p hm⟩) fun hle => ?_
    rw [List.map_cons, List.sum_cons, packetCost, Option.elim_some, ← Nat.add_assoc] at hle ⊢
    have hc := hc <| Nat.le_trans (Nat.le_add_right ..) hle
    exact hc ▸ hv (hc ▸ hle)
  case stops txs hp =>
    rw [hk, List.append_assoc, List.singleton_append, ← newKeys_succ tx]
    obtain ⟨p, hm, hp⟩ := hp
    exact Gathers.stops (tx :: txs) ⟨p, List.mem_cons_of_mem _ hm, hr.mp hp⟩

-- In a build with overflow checks, the loop panics exactly if the amounts are too much for it.
theorem Charges.cases_gather (hS : S.Charges locks t) : (S.gather E w g bundle).Ensures
    (fun x => ¬(E.overflowChecks = true ∧ t.BundleOverflows E w g.cost g.value bundle) ∧
      Gathers t E w g bundle x)
    (fun f => f = .overflow ∧ E.overflowChecks = true ∧
      t.BundleOverflows E w g.cost g.value bundle) := by
  induction bundle generalizing w g
  case nil =>
    refine ⟨fun h => Tariff.not_bundleOverflows_nil h.right, ?_⟩
    have h : Gathers t E w g [] (_, some ⟨_, g.cost, g.value⟩) := .all (by simp) (by simp)
    simpa [newKeys, arriveAll] using h
  case cons packet bundle ih =>
    cases packet
    case none =>
      refine ⟨fun h => Tariff.not_bundleOverflows_none h.right, ?_⟩
      have h : Gathers t E w g (none :: bundle) _ := .stops [] ⟨none, by simp, trivial⟩
      simpa [newKeys, arriveAll] using h
    case some tx =>
      have hl : (arrive E w tx).locks = w.locks := rfl
      have hr : t.rejects E (arrive E w tx) tx ↔ t.rejects E w tx := hS.rejects_congr hl
      change (S.bundledTx E (arrive E w tx) tx >>= _).Ensures _ _
      rw [ensures_bind, Tariff.bundleOverflows_cons]
      refine hS.cases_bundledTx.mono (fun x hx => ?_) fun f hf =>
        ⟨hf.left, hf.right.left, .inl hf.right.right⟩
      obtain ⟨ho, hn, hv⟩ := hx
      cases x
      case none =>
        have ht := hr.mp <| hn.mp rfl
        refine ⟨?_, Gathers.stops [tx] ⟨some tx, by simp, ht⟩⟩
        rintro ⟨hc, hb | hb⟩
        · exact ho ⟨hc, hb⟩
        · exact hb.left ht
      case some p =>
        have ht : ¬t.rejects E w tx := hr.not.mp <| hn.not.mp (by simp)
        obtain ⟨c, v⟩ := p
        obtain ⟨rfl, hv⟩ := hv _ rfl
        have hv : E.overflowChecks → v = t.value E w tx := fun c => (hv c).trans <| hS.value_congr rfl
        dsimp only
        simp only [ensures_bind, Machine.add_eq_total]
        refine Machine.cases_total.mono (fun cost hc => ?_) fun f hf => ?_
        case refine_2 =>
          exact ⟨hf.left, hf.right.left, .inr ⟨ht, .inl <| .inl hf.right.right⟩⟩
        refine Machine.cases_total.mono (fun value hw => ?_) fun f hf => ?_
        case refine_2 =>
          obtain ⟨hf, hk, hl⟩ := hf
          rw [hv hk] at hl
          exact ⟨hf, hk, .inr ⟨ht, .inl <| .inr hl⟩⟩
        have hb : E.overflowChecks = true →
            (t.BundleOverflows E (arrive E w tx) cost value bundle ↔ t.BundleOverflows E w
              (g.cost + tx.totalCost) (g.value + t.value E w tx) bundle) := by
          intro hk
          rw [hS.bundleOverflows_congr hl, hc.left, hw.left, ← hv hk,
            Nat.mod_eq_of_lt <| Nat.lt_of_le_pred (by decide) <| hc.right hk,
            Nat.mod_eq_of_lt <| Nat.lt_of_le_pred (by decide) <| hw.right hk]
        refine (ih (w := arrive E w tx) (g := ⟨g.keys ++ [w.nextKey E], cost, value⟩)).mono
          (fun x hx => ?_) fun f hf => ?_
        case refine_1 =>
          refine ⟨?_, hx.right.cons hS ht rfl fun hle => ?_⟩
          · rintro ⟨hk, hn | ⟨_, (hn | hn) | hn⟩⟩
            · exact ho ⟨hk, hn⟩
            · exact Nat.not_lt_of_le (hc.right hk) hn
            · exact Nat.not_lt_of_le (hw.right hk) (hv hk ▸ hn)
            · exact hx.left ⟨hk, (hb hk).mpr hn⟩
          · exact hc.left.trans <| Nat.mod_eq_of_lt <| Nat.lt_of_le_pred (by decide) hle
        case refine_2 =>
          obtain ⟨hf, hk, hn⟩ := hf
          exact ⟨hf, hk, .inr ⟨ht, .inr <| (hb hk).mp hn⟩⟩

-- The lowest bundle is given up if there is no room for another one.
def GivesUp (w : World L) (bundles : Finset BundleId) (dropped : List TransactionKey) : Prop :=
  if w.bundles.card = w.bundleCapacity then
    ∃ lowest, w.bundles.first = some lowest ∧ bundles = w.bundles.erase lowest ∧
      dropped = lowest.keys.reverse ++ w.dropped
  else
    bundles = w.bundles ∧ dropped = w.dropped

-- The packets are stored as the bundle `b`.
structure StoresAs (E : Env) (w : World L) (bundle : List Packet) (b : BundleId) (w' : World L) :
    Prop where
  keys : b.keys = newKeys E w bundle.length
  data : b.keys.map w'.data = bundle.reduceOption
  cost : b.cost = (bundle.map packetCost).sum
  room : ∃ bundles, GivesUp w bundles w'.dropped ∧ w'.bundles = insert b bundles

-- All that is left of the packets is that their keys were handed out, and dropped again.
structure Discards (E : Env) (w w' : World L) : Prop extends Undisturbed w w' where
  dropped : w'.dropped = (newKeys E w (w'.inserted - w.inserted)).reverse ++ w.dropped
  once    : (newKeys E w (w'.inserted - w.inserted)).Nodup

theorem discards_dropAll :
    Discards E w ((arriveAll E w txs).dropAll (newKeys E w txs.length)) := by
  have hu := undisturbed_arriveAll (E := E) (w := w) txs
  have hi : ((arriveAll E w txs).dropAll (newKeys E w txs.length)).inserted - w.inserted =
      txs.length := by
    rw [toLedger_dropAll_eq, inserted_arriveAll]
    exact Nat.add_sub_cancel_left ..
  refine { toUndisturbed := ?_, dropped := ?_, once := nodup_newKeys }
  case refine_1 =>
    constructor <;> rw [toLedger_dropAll_eq]
    exacts [hu.uncheckedTx, hu.checkedTx, hu.bundles, hu.executingTx, hu.deferredTx, hu.locks]
  case refine_2 =>
    rw [hi, toLedger_dropAll_eq, dropped_arriveAll]

theorem givesUp_evictBundle (hc : 1 ≤ w.bundleCapacity) :
    (S.evictBundle w).Ensures (fun w' => w'.data = w.data ∧ GivesUp w w'.bundles w'.dropped)
      (fun _ => False) := by
  unfold evictBundle GivesUp
  split
  case isFalse => exact ⟨rfl, rfl, rfl⟩
  case isTrue hf =>
    split
    case h_1 hn =>
      rw [Finset.first_eq_none_iff.mp hn, Finset.card_empty] at hf
      omega
    case h_2 lowest hl =>
      rw [ensures_ok, toLedger_dropBundle, dropBundle, dropAll_eq]
      exact ⟨rfl, lowest, hl, rfl, rfl⟩

theorem stores_storeBundle (hc : 1 ≤ w.bundleCapacity) (hk : g.keys ≠ []) :
    (S.storeBundle w g).Ensures (fun w' => w'.data = w.data ∧ ∃ b, b.keys = g.keys ∧
      b.cost = g.cost ∧ ∃ bundles, GivesUp w bundles w'.dropped ∧ w'.bundles = insert b bundles)
      (fun _ => False) := by
  rw [storeBundle, ensures_bind, ensures_require]
  refine ⟨fun _ => ?_, fun hn => hn hk⟩
  rw [ensures_bind]
  refine (givesUp_evictBundle hc).imp fun w₁ hw => ?_
  rw [ensures_pure, toLedger_queueKeys]
  exact ⟨hw.left, _, rfl, rfl, w₁.bundles, hw.right, rfl⟩

-- If every packet is priced, there is one transaction for each.
theorem length_reduceOption_of_priced (hu : ∀ p ∈ bundle, ¬t.Refuses E w p) :
    bundle.reduceOption.length = bundle.length := by
  refine List.reduceOption_length_eq_iff.mpr fun p hm => ?_
  cases p
  case none => exact absurd trivial <| hu none hm
  case some => rfl

theorem map_data_of_priced (hu : ∀ p ∈ bundle, ¬t.Refuses E w p) :
    (newKeys E w bundle.length).map (arriveAll E w bundle.reduceOption).data =
      bundle.reduceOption := by
  rw [← length_reduceOption_of_priced hu]
  exact map_data_arriveAll bundle.reduceOption

-- The filter looks at the transactions in the bridge, which are those of the packets.
theorem any_filtered_iff (hu : ∀ p ∈ bundle, ¬t.Refuses E w p) :
    ((newKeys E w bundle.length).any fun key =>
      ((arriveAll E w bundle.reduceOption).data key).shouldFilterStatic E.filterKeys) = true ↔
    ∃ p ∈ bundle, t.Spoils E w p := by
  change (newKeys E w bundle.length).any
    (Tx.shouldFilterStatic E.filterKeys ∘ (arriveAll E w bundle.reduceOption).data) = true ↔ _
  rw [← List.any_map, map_data_of_priced hu, List.any_eq_true]
  constructor
  case mp =>
    rintro ⟨tx, hm, hf⟩
    exact ⟨some tx, List.reduceOption_mem_iff.mp hm, .inr ⟨tx, rfl, hf⟩⟩
  case mpr =>
    rintro ⟨p, hm, hn | ⟨tx, rfl, hf⟩⟩
    · exact absurd hn <| hu p hm
    · exact ⟨tx, List.reduceOption_mem_iff.mpr hm, hf⟩

-- A bundle is taken in as a whole, or nothing is left of it: whichever packet it is that stands in
-- the way, and wherever it is in the bundle, every key that was handed out is dropped.
theorem onBundle_all_or_nothing (hS : S.Charges locks t) (hE : E.overflowChecks = false)
    (hc : 1 ≤ w.bundleCapacity) (hb : bundle ≠ []) (hs : (bundle.map packetCost).sum ≤ u64Max) :
    ∃ w', S.onBundle E w bundle = .ok w' ∧
      ((∀ p ∈ bundle, ¬t.Spoils E w p) → ∃ b, StoresAs E w bundle b w') ∧
      ((∃ p ∈ bundle, t.Spoils E w p) → Discards E w w') := by
  have hg : (S.gather E w ⟨[], 0, 0⟩ bundle).Ensures (Gathers t E w ⟨[], 0, 0⟩ bundle)
      (fun _ => False) :=
    hS.cases_gather.mono (fun _ h => h.right) fun f hf => by simp [hE] at hf
  obtain ⟨x, hx, hg⟩ := hg.exists_ok
  rw [onBundle, hx]
  cases hg
  case stops txs hu =>
    obtain ⟨p, hm, hp⟩ := hu
    exact ⟨_, rfl, fun hn => absurd (.inl hp) <| hn p hm, fun _ => discards_dropAll⟩
  case all cost value hu hcost =>
    change ∃ w', (if (newKeys E w bundle.length).any fun key =>
        ((arriveAll E w bundle.reduceOption).data key).shouldFilterStatic E.filterKeys then
        .ok ((arriveAll E w bundle.reduceOption).dropAll (newKeys E w bundle.length))
      else
        S.storeBundle (arriveAll E w bundle.reduceOption)
          ⟨newKeys E w bundle.length, cost, value⟩) = _ ∧ _
    by_cases hf : ∃ p ∈ bundle, t.Spoils E w p
    case pos =>
      rw [if_pos ((any_filtered_iff hu).mpr hf), ← length_reduceOption_of_priced hu]
      obtain ⟨p, hm, hp⟩ := hf
      exact ⟨_, rfl, fun hn => absurd hp <| hn p hm, fun _ => discards_dropAll⟩
    case neg =>
      rw [if_neg fun h => hf <| (any_filtered_iff hu).mp h]
      have hn : newKeys E w bundle.length ≠ [] := by simpa [newKeys] using hb
      obtain ⟨w', he, hd, b, hk, hcb, bundles, hr, hi⟩ := (stores_storeBundle (S := S)
        (w := arriveAll E w bundle.reduceOption) (g := ⟨newKeys E w bundle.length, cost, value⟩)
        (bundleCapacity_arriveAll.symm ▸ hc) hn).exists_ok
      refine ⟨w', he, fun _ => ⟨b, hk, ?_, ?_, bundles, ?_, hi⟩, fun hp => absurd hp hf⟩
      · rw [hk, hd]
        exact map_data_of_priced hu
      · rw [hcb, hcost (by simpa using hs), Nat.zero_add]
      · rw [GivesUp, (undisturbed_arriveAll _).bundles, bundleCapacity_arriveAll, dropped_arriveAll] at hr
        exact hr

-- A bundle of two packets is stored. When the second one names the tip program or scores too low, the
-- first is in the bridge already, and both are dropped.
theorem onBundle_all_or_nothing_two :
    (∃ w' b, Sample.strict.onBundle Sample.release (Sample.world AuctionBatchScheduler.initialEngine)
        [Sample.packet 10, Sample.packet 11] = .ok w' ∧
      StoresAs Sample.release (Sample.world AuctionBatchScheduler.initialEngine)
        [Sample.packet 10, Sample.packet 11] b w') ∧
    ∀ p ∈ [Sample.packet TipProgram.tipPaymentProgram, some <| Sample.tx [(11, true)] 999 0],
      ∃ w', Sample.strict.onBundle Sample.release
          (Sample.world AuctionBatchScheduler.initialEngine) [Sample.packet 10, p] = .ok w' ∧
        Discards Sample.release (Sample.world AuctionBatchScheduler.initialEngine) w' := by
  have hS : Sample.strict.Charges AuctionBatchScheduler.initialEngine _ := .auction Sample.libm 1001
  have hc : 1 ≤ (Sample.world AuctionBatchScheduler.initialEngine).bundleCapacity := by decide
  constructor
  case left =>
    obtain ⟨w', hw, hs, _⟩ := onBundle_all_or_nothing (E := Sample.release) hS rfl hc
      (List.cons_ne_nil (Sample.packet 10) [Sample.packet 11]) (by decide)
    obtain ⟨b, hb⟩ := hs <| by
      refine List.forall_mem_cons.mpr ⟨?_, List.forall_mem_singleton.mpr ?_⟩
      all_goals
        rintro ((hc | ⟨details, hd, hl⟩) | ⟨tx, hm, hf⟩)
        · cases hc
        · obtain rfl := Option.some_inj.mp hd
          revert hl
          decide +kernel
        · obtain rfl := Option.some_inj.mp hm
          revert hf
          decide
    exact ⟨w', b, hw, hb⟩
  case right =>
    intro p hp
    obtain ⟨hc', hs⟩ : packetCost p = 999 ∧ (AuctionBatchScheduler.tariff 1001).Spoils Sample.release
        (Sample.world AuctionBatchScheduler.initialEngine) p := by
      rcases List.mem_pair.mp hp with rfl | rfl
      · exact ⟨rfl, .inr ⟨_, rfl, by decide⟩⟩
      · exact ⟨rfl, .inl <| .inr ⟨_, rfl, by decide +kernel⟩⟩
    obtain ⟨w', hw, _, hd⟩ := onBundle_all_or_nothing (E := Sample.release) hS rfl hc
      (List.cons_ne_nil (Sample.packet 10) [p])
      (by rw [List.map_cons, List.map_singleton, hc']; decide)
    exact ⟨w', hw, hd ⟨p, by simp, hs⟩⟩

end Bundle

end Scheduler
