import SchedArchive.Theorems.Rewards
import SchedArchive.Theorems.Scoring

-- The scores of the auction engine as priorities: in a bundle, and in comparison with a packet.

open Except Ledger

namespace Scheduler

variable {L : Type} {S : Scheduler L} {E : Env} {w : World L} {n : Nat}

-- `on_packet` queues the packet as `id`.
def Queues (S : Scheduler L) (E : Env) (w : World L) (packet : Packet) (id : PriorityId) : Prop :=
  ∃ w', S.onPacket E w packet = .ok w' ∧ id ∈ w'.uncheckedTx ∧ id ∉ w.uncheckedTx

theorem exists_queues {packet : Packet} {p : Nat} (h : (S.onPacket E w packet).Ensures
    (fun w' => ∃ (id : PriorityId) (_ : id ∈ w'.uncheckedTx), id ∉ w.uncheckedTx ∧ id.priority = p)
    (fun _ => False)) :
    ∃ id, Queues S E w packet id ∧ id.priority = p := by
  obtain ⟨w', hw, id, hm, hn, hp⟩ := h.exists_ok
  exact ⟨id, ⟨w', hw, hm, hn⟩, hp⟩

theorem unchecked_le_evictUnchecked : (evictUnchecked n w).Ensures
    (fun w' => w'.uncheckedTx ≤ w.uncheckedTx) (fun _ => True) := by
  induction n generalizing w
  case zero => exact le_refl w.uncheckedTx
  case succ n ih =>
    rw [evictUnchecked]
    split
    case h_1 => trivial
    case h_2 id rest hp =>
      refine ih.imp fun w' hw => hw.trans ?_
      rw [(Multiset.popMin_eq_some hp).left]
      exact Multiset.le_cons_self ..

theorem Queues.priced {tx : Tx} {id : PriorityId} (h : Queues S E w (some tx) id) :
    S.calculatePriority E (w.insertTransaction E tx) tx = .ok (some (id.priority, id.cost)) := by
  obtain ⟨w', hw, hm, hn⟩ := h
  obtain ⟨x, hx, hw⟩ := bind_eq_ok.mp hw
  cases x
  case none =>
    obtain rfl := Except.ok.inj hw
    exact absurd hm hn
  case some x =>
    have hw : (if _ then _ else _) = Except.ok w' := hw
    split_ifs at hw
    case pos =>
      obtain rfl := Except.ok.inj hw
      exact absurd hm hn
    case neg =>
      obtain ⟨w₁, h₁, hw⟩ := bind_eq_ok.mp hw
      obtain rfl := Except.ok.inj hw
      have hle : w₁.uncheckedTx ≤ w.uncheckedTx := by
        rw [makeRoom] at h₁
        split at h₁
        · exact (unchecked_le_evictUnchecked (w := w.insertTransaction E tx)).of_ok h₁
        · exact (congrArg (·.uncheckedTx) (Except.ok.inj h₁)).ge
      rcases Multiset.mem_cons.mp hm with rfl | hm
      · exact hx
      · exact absurd (Multiset.mem_of_le hle hm) hn

end Scheduler

namespace AuctionBatchScheduler

open AuctionEngine Scheduler TipProgram

variable {E : Env} {w : World Engine} {libm : Libm ℚ} {minScore : Nat} {txs txs' : List Tx} {tx : Tx}
variable {cost score : Tx → Nat} {details : CostDetails} {p c tip : Nat}

section Scores

-- The transaction is let in, with the score `score tx`.
def Scored (minScore : Nat) (E : Env) (w : World Engine) (cost score : Tx → Nat) (tx : Tx) : Prop :=
  bundledTx minScore E w tx = .ok (some (cost tx, score tx))

theorem Scored.score_lt (h : Scored minScore E w cost score tx) : score tx < bundleMarker := by
  have hw := @ensures_bundledTx E minScore (fun _ => True) (fun _ => trivial) w tx
  exact (hw.of_ok h _ rfl).right

theorem Scored.values (h : Scored minScore E w cost score tx) :
    Values (scheduler libm minScore) E w cost score tx := by
  rw [Values, Machine.total_eq_ok h.score_lt.le]
  exact h

theorem bundlePriority_mono {v v' : Nat} (c c' : Nat) (h : v ≤ v') :
    bundlePriority v c ≤ bundlePriority v' c' :=
  min_le_min_right _ <| min_le_min_right _ <| Nat.mul_le_mul_right _ h

-- The second bundle is the first one with more transactions or higher scores. Its scores count for
-- what they are exactly if neither sum is cut off.
theorem scores_count_iff (hs : ∀ tx ∈ txs, Scored minScore E w cost score tx)
    (hs' : ∀ tx ∈ txs', Scored minScore E w cost score tx)
    (hr : List.SublistForall₂ (fun tx tx' => score tx ≤ score tx') txs txs') :
    Ranks (scheduler libm minScore) E w score txs txs' ↔
      SumsFit E cost score txs ∧ SumsFit E cost score txs' := by
  refine ranks_iff (.auction libm minScore) (fun tx hm => (hs tx hm).values)
    (fun tx hm => (hs' tx hm).values) ?_ fun {c c' _ _} _ _ hv =>
      bundlePriority_mono c c' hv
  refine List.SublistForall₂.sum_le_sum ?_ fun _ _ => Nat.zero_le _
  exact List.sublistForall₂_map_left_iff.mpr <| List.sublistForall₂_map_right_iff.mpr hr

-- A second transaction is appended to the bundle.
theorem scores_count_iff_appended :
    Ranks Sample.auction Sample.env (Sample.world initialEngine) (fun _ => 1000001000)
      [Sample.tx [(10, true)] 999 1000]
      [Sample.tx [(10, true)] 999 1000, Sample.tx [(10, true)] 999 1000] := by
  have hs : Scored 0 Sample.env (Sample.world initialEngine) (fun _ => 999) (fun _ => 1000001000)
      (Sample.tx [(10, true)] 999 1000) := by
    unfold Scored
    decide +kernel
  refine (scores_count_iff (by simpa using hs) (by simpa using hs) ?_).mpr (by decide)
  exact .cons le_rfl .nil

-- A transaction that pays nothing is appended to one that pays more than the scale can show.
theorem scores_wrap_around :
    (∃ b b', TakesIn Sample.auction Sample.release (Sample.world initialEngine)
        [some <| Sample.tx [(10, true)] 999 (2 * 10 ^ 13)] b ∧
      TakesIn Sample.auction Sample.release (Sample.world initialEngine)
        [some <| Sample.tx [(10, true)] 999 (2 * 10 ^ 13), some <| Sample.tx [(11, true)] 999 0] b' ∧
      b'.priority < b.priority) ∧
    Sample.auction.onBundle Sample.env (Sample.world initialEngine)
        [some <| Sample.tx [(10, true)] 999 (2 * 10 ^ 13), some <| Sample.tx [(11, true)] 999 0] =
      .error .overflow ∧
    ∀ score, ¬Ranks Sample.auction Sample.release (Sample.world initialEngine) score
      [Sample.tx [(10, true)] 999 (2 * 10 ^ 13)]
      [Sample.tx [(10, true)] 999 (2 * 10 ^ 13), Sample.tx [(11, true)] 999 0] := by
  obtain ⟨b, hb, hp⟩ : ∃ b, TakesIn Sample.auction Sample.release (Sample.world initialEngine)
      [some <| Sample.tx [(10, true)] 999 (2 * 10 ^ 13)] b ∧ b.priority = bundleMarker - 1 :=
    exists_takesIn (by decide +kernel)
  obtain ⟨b', hb', hp'⟩ : ∃ b, TakesIn Sample.auction Sample.release (Sample.world initialEngine)
      [some <| Sample.tx [(10, true)] 999 (2 * 10 ^ 13), some <| Sample.tx [(11, true)] 999 0] b ∧
        b.priority = 998000000 :=
    exists_takesIn (by decide +kernel)
  have hlt : b'.priority < b.priority := by
    rw [hp, hp']
    decide
  refine ⟨⟨b, b', hb, hb', hlt⟩, Ensures.eq_error (by decide +kernel), fun score h => ?_⟩
  exact absurd (h.ranks b b' hb hb') hlt.not_ge

end Scores

section Scale

theorem of_scoreWithAuction {txLocks : List Lock}
    (h : scoreWithAuction E w details txLocks tip = .ok (p, c)) :
    p < bundleMarker ∧ c = details.totalCost := by
  have hs : (scoreWithAuction E w details txLocks tip).Ensures _ _ :=
    ensures_scoreWithAuction (F := fun _ => True) fun _ => trivial
  exact hs.of_ok h

-- What `on_packet` makes the priority is the score that `on_bundle` adds up.
theorem calculatePriority_eq_ok
    (hp : calculatePriority E (w.insertTransaction E tx) tx = .ok (some (p, c))) :
    ∃ details tip, tx.costs = some details ∧ extractTip E.overflowChecks tx = .ok tip ∧
      scoreWithAuction E w details tx.locks tip = .ok (p, c) ∧ p < bundleMarker ∧
      ∀ minScore, bundledTx minScore E w tx = .ok (if p < minScore then none else some (c, p)) := by
  obtain ⟨_, _, hp⟩ := bind_eq_ok.mp hp
  cases hd : tx.costs
  case none =>
    rw [hd] at hp
    cases hp
  case some details =>
    rw [hd] at hp
    obtain ⟨tip, ht, hp⟩ := bind_eq_ok.mp hp
    obtain ⟨x, hx, hp⟩ := bind_eq_ok.mp hp
    obtain rfl := Option.some_inj.mp <| Except.ok.inj hp
    have hx : scoreWithAuction E w details tx.locks tip = .ok (p, c) := hx
    refine ⟨details, tip, rfl, ht, hx, (of_scoreWithAuction hx).left, fun minScore => ?_⟩
    rw [bundledTx, hd]
    change (extractTip E.overflowChecks tx >>= _) = _
    rw [ht]
    change (scoreWithAuction E w details tx.locks tip >>= _) = _
    rw [hx]
    rfl

-- Scaling a score that is scaled already leaves only the two ends of the scale as they are.
theorem bundlePriority_eq_iff (hp : p ≤ bundleMarker - 1) :
    bundlePriority p c = p ↔ p = 0 ∨ p = bundleMarker - 1 := by
  unfold bundlePriority Machine.saturatingMul
  unfold bundleMarker u64Max at *
  unfold priorityMultiplier
  omega

-- A bundle of the transaction alone is worth its score.
theorem priority_of_takesIn {s : Nat} {b : BundleId}
    (hs : bundledTx minScore E w tx = .ok (if s < minScore then none else some (c, s)))
    (hl : s ≤ u64Max) (hb : TakesIn (scheduler libm minScore) E w [some tx] b) :
    ∃ c, b.priority = bundlePriority s c := by
  obtain ⟨w₁, g, hg, _, hp⟩ := hb.gathered
  by_cases hm : s < minScore
  case pos =>
    rw [if_pos hm] at hs
    have hn : (scheduler libm minScore).bundledTx E (arrive E w tx) tx = .ok none :=
      (Known.bundledTx_arrive (.auction libm minScore)).trans hs
    rw [gather_none hn] at hg
    cases hg
  case neg =>
    rw [if_neg hm] at hs
    have hv : ∀ t ∈ [tx], Values (scheduler libm minScore) E w (fun _ => c) (fun _ => s) t := by
      refine List.forall_mem_singleton.mpr ?_
      rw [Values, Machine.total_eq_ok hl]
      exact hs
    have hv := (sums_of_gather (.auction libm minScore) hv hg).right
    rw [List.map_singleton, List.sum_singleton, Machine.total_eq_ok hl] at hv
    exact ⟨g.cost, hp.trans <| congrArg (bundlePriority · g.cost) (Except.ok.inj hv).symm⟩

-- A packet and the bundle of it alone have the same priority exactly if the score of the packet is at
-- one end of the scale. How the score comes about does not matter.
theorem same_scale_iff {id : PriorityId} {b : BundleId}
    (hq : Queues (scheduler libm minScore) E w (some tx) id)
    (hb : TakesIn (scheduler libm minScore) E w [some tx] b) :
    ∃ details tip score, tx.costs = some details ∧ extractTip E.overflowChecks tx = .ok tip ∧
      scoreWithAuction E w details tx.locks tip = .ok (score, details.totalCost) ∧
      (b.priority = id.priority ↔ score = 0 ∨ score = bundleMarker - 1) := by
  obtain ⟨details, tip, hd, ht, hx, hl, hs⟩ := calculatePriority_eq_ok hq.priced
  have hc : id.cost = details.totalCost := (of_scoreWithAuction hx).right
  obtain ⟨c, hb⟩ := priority_of_takesIn (hs minScore) hl.le hb
  refine ⟨details, tip, id.priority, hd, ht, hc ▸ hx, ?_⟩
  rw [hb, bundlePriority_eq_iff <| Nat.le_pred_of_lt hl]

-- A transaction that pays more than the scale can show.
theorem same_scale_iff_top : ∃ id b,
    Queues Sample.auction Sample.env (Sample.world initialEngine)
      (some <| Sample.tx [(10, true)] 999 (2 * 10 ^ 13)) id ∧
    TakesIn Sample.auction Sample.env (Sample.world initialEngine)
      [some <| Sample.tx [(10, true)] 999 (2 * 10 ^ 13)] b ∧
    b.priority = id.priority := by
  obtain ⟨id, hq, _⟩ : ∃ id, Queues Sample.auction Sample.env (Sample.world initialEngine)
      (some <| Sample.tx [(10, true)] 999 (2 * 10 ^ 13)) id ∧ id.priority = bundleMarker - 1 :=
    exists_queues (by decide +kernel)
  obtain ⟨b, hb, _⟩ : ∃ b, TakesIn Sample.auction Sample.env (Sample.world initialEngine)
      [some <| Sample.tx [(10, true)] 999 (2 * 10 ^ 13)] b ∧ b.priority = bundleMarker - 1 :=
    exists_takesIn (by decide +kernel)
  obtain ⟨details, tip, score, hd, ht, hs, hi⟩ := same_scale_iff hq hb
  have hd : (⟨0, 2 * 10 ^ 13, 200000, 999⟩ : CostDetails) = details := Option.some_inj.mp hd
  obtain rfl : 0 = tip := Except.ok.inj <| Eq.trans (by decide +kernel) ht
  refine ⟨id, b, hq, hb, hi.mpr <| .inr ?_⟩
  have ht : (scoreWithAuction Sample.env (Sample.world initialEngine) details [(10, true)] 0).Ensures
      (·.1 = bundleMarker - 1) (fun _ => False) := hd ▸ by decide +kernel
  exact ht.of_ok hs

-- The bundle is worth a million times what its only packet is worth.
theorem bundle_scaled_twice : ∃ id b,
    Queues Sample.auction Sample.env (Sample.world initialEngine) (Sample.packet 10) id ∧
    TakesIn Sample.auction Sample.env (Sample.world initialEngine) [Sample.packet 10] b ∧
    id.priority = 1000001000 ∧ b.priority = 1000001000000000 := by
  obtain ⟨id, hq, hp⟩ : ∃ id, Queues Sample.auction Sample.env (Sample.world initialEngine)
      (Sample.packet 10) id ∧ id.priority = 1000001000 :=
    exists_queues (by decide +kernel)
  obtain ⟨b, hb, hp'⟩ : ∃ b, TakesIn Sample.auction Sample.env (Sample.world initialEngine)
      [Sample.packet 10] b ∧ b.priority = 1000001000000000 :=
    exists_takesIn (by decide +kernel)
  exact ⟨id, b, hq, hb, hp, hp'⟩

end Scale

end AuctionBatchScheduler
