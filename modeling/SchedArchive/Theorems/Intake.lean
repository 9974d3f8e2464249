import SchedArchive.Theorems.Polls

-- How long `unchecked_tx` and `bundles` get as packets and bundles come in, whatever the capacities
-- are set to in between.

open Except Ledger

-- Two bundles come in and, once the capacity for bundles has been set, a third.
def Sample.reconfigured (bundleCapacity : Nat) : List Act :=
  [poll [bundle 10, bundle 11], .setRuntimeConfig { args with bundleCapacity := bundleCapacity },
    poll [bundle 12]]
where
  bundle (account : Pubkey) : JitoUpdate :=
    .bundle [some <| tx [(account, true)] 999 1000]
  poll (messages : List JitoUpdate) : Act :=
    .poll
      { message    := some <| progress false 1 0
        answers    := []
        backlog    := []
        channel    := ⟨messages, true⟩
        cancelled  := false
        checkReads := fun _ => 0 }

namespace Scheduler

variable {L : Type} {S : Scheduler L} {E : Env} {w w' : World L} {s s' : Session L}
variable {input : PollInput} {acts : List Act} {bundle : List Packet} {keys : List TransactionKey}

-- Room in `unchecked_tx`.

theorem unchecked_evictUnchecked {n : Nat} : (evictUnchecked n w).Ensures
    (fun w' => w'.uncheckedTx.card + n = w.uncheckedTx.card) (fun _ => True) := by
  induction n generalizing w
  case zero => rfl
  case succ n ih =>
    rw [evictUnchecked]
    split
    case h_1 => trivial
    case h_2 id rest hp =>
      have hu := (Multiset.popMin_eq_some hp).left
      refine ih.imp fun w' hw => ?_
      have hw : w'.uncheckedTx.card + n = rest.card := hw
      rw [hu, Multiset.card_cons]
      omega

theorem unchecked_onTpu {packet : Packet} : (S.onTpu E w packet).Ensures
    (fun w' => w'.uncheckedTx.card ≤ w.uncheckedTx.card + 1) (fun _ => True) := by
  cases packet
  case none => exact Nat.le_succ w.uncheckedTx.card
  case some tx =>
    rw [onTpu, ensures_bind]
    refine ensures_of_forall fun x => ?_
    cases x
    case none => exact Nat.le_succ w.uncheckedTx.card
    case some x =>
      dsimp only
      split
      case isTrue => exact Nat.le_succ w.uncheckedTx.card
      case isFalse => exact (Multiset.card_cons ..).le

theorem unchecked_foldlM_onTpu {packets : List Packet} : (packets.foldlM (S.onTpu E) w).Ensures
    (fun w' => w'.uncheckedTx.card ≤ w.uncheckedTx.card + packets.length) (fun _ => True) := by
  induction packets generalizing w
  case nil => exact le_refl w.uncheckedTx.card
  case cons p ps ih =>
    rw [List.foldlM_cons, ensures_bind]
    refine unchecked_onTpu.imp fun w₁ h₁ => ih.imp fun w₂ h₂ => ?_
    rw [List.length_cons]
    omega

-- Room is made for all that may come in, so that the capacity is never exceeded.
theorem unchecked_drainTpu {backlog : List Packet} {n : Nat} : (S.drainTpu E w backlog n).Ensures
    (fun w' => w'.uncheckedTx.card ≤ w.uncheckedCapacity) (fun _ => True) := by
  rw [drainTpu, ensures_bind]
  refine unchecked_evictUnchecked.imp fun w₁ h₁ => unchecked_foldlM_onTpu.imp fun w₂ h₂ => ?_
  have h₂ : w₂.uncheckedTx.card ≤ w₁.uncheckedTx.card + (backlog.take n).length := h₂
  rw [List.length_take] at h₂
  omega

theorem unchecked_foldl_dropBundle {P : LockPolicy L} {bs : List BundleId} :
    (bs.foldl (World.dropBundle P) w).uncheckedTx = w.uncheckedTx := by
  induction bs generalizing w
  case nil => rfl
  case cons b bs ih =>
    rw [List.foldl_cons, ih, toLedger_dropBundle, dropBundle, dropAll_eq]

theorem unchecked_beforeJito : (S.beforeJito E w input).Ensures
    (fun w' => w'.uncheckedTx.card ≤ w'.uncheckedCapacity) (fun _ => True) := by
  simp only [beforeJito, ensures_bind]
  refine ensures_of_forall fun w₁ => ensures_of_forall fun w₂ => ?_
  cases hd : S.drainTpu E (S.tick w₂) input.backlog
    (if (S.tick w₂).progress.leaderReady then 128 else 1024)
  case error => trivial
  case ok w₃ =>
    have hu : w₃.uncheckedTx.card ≤ (S.tick w₂).uncheckedCapacity := unchecked_drainTpu.of_ok hd
    have hc : (S.dropExpiredBundles w₃).uncheckedCapacity = (S.tick w₂).uncheckedCapacity :=
      congrArg (·.uncheckedCapacity) <| settings_intake.of_ok hd
    change (S.dropExpiredBundles w₃).uncheckedTx.card ≤ (S.dropExpiredBundles w₃).uncheckedCapacity
    rw [hc, dropExpiredBundles, unchecked_foldl_dropBundle]
    exact hu

-- The guard of `on_packet` is right as long as the capacity is not exceeded.
theorem unchecked_onPacket {packet : Packet} (hc : w.uncheckedTx.card ≤ w.uncheckedCapacity) :
    (S.onPacket E w packet).Ensures (fun w' => w'.uncheckedTx.card ≤ w.uncheckedCapacity)
      (fun _ => True) := by
  cases packet
  case none => exact hc
  case some tx =>
    rw [onPacket, ensures_bind]
    refine ensures_of_forall fun x => ?_
    cases x
    case none => exact hc
    case some x =>
      dsimp only
      split
      case isTrue => exact hc
      case isFalse =>
        rw [ensures_bind, makeRoom]
        split
        case isTrue hf =>
          refine unchecked_evictUnchecked.imp fun w₁ h₁ => ?_
          refine (Multiset.card_cons ..).le.trans ?_
          exact h₁.le.trans hc
        case isFalse hf =>
          have hf : w.uncheckedTx.card ≠ w.uncheckedCapacity := hf
          refine (Multiset.card_cons ..).le.trans ?_
          change w.uncheckedTx.card + 1 ≤ _
          omega

-- A bundle comes in: its transactions, and perhaps the bundle itself.

theorem fields_dropAll : (w.dropAll keys).uncheckedTx = w.uncheckedTx ∧
    (w.dropAll keys).bundles = w.bundles := by
  rw [toLedger_dropAll_eq]
  exact ⟨rfl, rfl⟩

theorem fields_gather {g : Gathered} : (S.gather E w g bundle).Ensures
    (fun x => x.1.uncheckedTx = w.uncheckedTx ∧ x.1.bundles = w.bundles) (fun _ => True) := by
  induction bundle generalizing w g
  case nil => exact ⟨rfl, rfl⟩
  case cons packet packets ih =>
    cases packet
    case none => exact fields_dropAll
    case some tx =>
      rw [gather, ensures_bind]
      refine ensures_of_forall fun x => ?_
      cases x
      case none => exact fields_dropAll
      case some x =>
        simp only [ensures_bind]
        refine ensures_of_forall fun _ => ensures_of_forall fun _ => ?_
        exact ih.imp fun x hx => hx

theorem fields_evictBundle : (S.evictBundle w).Ensures (fun w' => w'.uncheckedTx = w.uncheckedTx ∧
    w'.bundles ⊆ w.bundles ∧
    w'.bundles.card + (if w.bundles.card = w.bundleCapacity then 1 else 0) = w.bundles.card)
    (fun _ => True) := by
  rw [evictBundle]
  split
  case isFalse => exact ⟨rfl, subset_rfl, rfl⟩
  case isTrue =>
    split
    case h_1 => trivial
    case h_2 b hb =>
      rw [ensures_ok, toLedger_dropBundle, dropBundle, dropAll_eq]
      refine ⟨rfl, Finset.erase_subset .., ?_⟩
      exact Finset.card_erase_add_one <| Finset.first_mem hb

-- A bundle is stored if there is one afterwards that was not there before.
def Stores (w w' : World L) : Prop :=
  ∃ b ∈ w'.bundles, b ∉ w.bundles

instance : Decidable (Stores w w') :=
  inferInstanceAs <| Decidable (∃ b ∈ w'.bundles, b ∉ w.bundles)

theorem not_stores (hb : w'.bundles ⊆ w.bundles) : ¬Stores w w' :=
  fun ⟨_, hm, hn⟩ => hn <| hb hm

-- A full set of bundles gives one up for the new one, and so does not grow. One that is above the
-- capacity gives up nothing.
theorem fields_storeBundle {g : Gathered} : (S.storeBundle w g).Ensures
    (fun w' => w'.uncheckedTx = w.uncheckedTx ∧ (Stores w w' →
      w'.bundles.card + (if w.bundles.card = w.bundleCapacity then 1 else 0) = w.bundles.card + 1))
    (fun _ => True) := by
  rw [storeBundle, ensures_bind]
  refine ensures_of_forall fun _ => ?_
  rw [ensures_bind]
  refine fields_evictBundle.imp fun w₁ h₁ => ?_
  obtain ⟨hu, hb, hc⟩ := h₁
  rw [ensures_pure, toLedger_queueKeys]
  refine ⟨hu, fun hs => ?_⟩
  obtain ⟨b, hm, hn⟩ := hs
  -- Of the bundles afterwards only the last one can be new.
  have hl := (Finset.mem_insert.mp hm).resolve_right fun hm => hn <| hb hm
  rw [← hl, Finset.card_insert_of_notMem fun hm => hn <| hb hm]
  change w₁.bundles.card + 1 + _ = _
  omega

theorem fields_onBundle : (S.onBundle E w bundle).Ensures
    (fun w' => w'.uncheckedTx = w.uncheckedTx ∧ (Stores w w' →
      w'.bundles.card + (if w.bundles.card = w.bundleCapacity then 1 else 0) = w.bundles.card + 1))
    (fun _ => True) := by
  rw [onBundle, ensures_bind]
  cases hg : S.gather E w ⟨[], 0, 0⟩ bundle
  case error => trivial
  case ok x =>
    obtain ⟨w₁, g⟩ := x
    obtain ⟨hu, hb⟩ := fields_gather.of_ok hg
    have hc : w₁.bundleCapacity = w.bundleCapacity :=
      congrArg (·.bundleCapacity) (spares_gather.of_ok hg).settings
    cases g
    case none => exact ⟨hu, fun hs => (not_stores hb.subset hs).elim⟩
    case some g =>
      change Ensures (if _ then _ else _) _ _
      split
      case isTrue =>
        have hd : (w₁.dropAll g.keys).bundles = w.bundles := fields_dropAll.right.trans hb
        exact ⟨fields_dropAll.left.trans hu, fun hs => (not_stores hd.subset hs).elim⟩
      case isFalse =>
        refine fields_storeBundle.imp fun w₂ h₂ => ⟨h₂.left.trans hu, fun hs => ?_⟩
        have hs : Stores w₁ w₂ := by
          rw [Stores, hb]
          exact hs
        have h₂ := h₂.right hs
        rw [hb, hc] at h₂
        exact h₂

-- Every message that is handled finds `unchecked_tx` within its capacity: `drain_tpu` comes first in
-- each poll.

theorem unchecked_onJitoUpdate {m : JitoUpdate} (hc : w.uncheckedTx.card ≤ w.uncheckedCapacity) :
    (S.onJitoUpdate E w m).Ensures (fun w' => w'.uncheckedTx.card ≤ w'.uncheckedCapacity)
      (fun _ => True) := by
  have hs : (S.onJitoUpdate E w m).Ensures (fun w' => w'.uncheckedTx.card ≤ w.uncheckedCapacity)
      (fun _ => True) := by
    cases m
    case packet packet => exact unchecked_onPacket hc
    case bundle bundle =>
      refine fields_onBundle.imp fun w' h => ?_
      rw [h.left]
      exact hc
    all_goals exact hc
  cases hm : S.onJitoUpdate E w m
  case error => trivial
  case ok w' =>
    have hk : w'.uncheckedCapacity = w.uncheckedCapacity :=
      congrArg (·.uncheckedCapacity) (heeds_onJitoUpdate.of_ok hm).settings
    rw [ensures_ok, hk]
    exact hs.of_ok hm

theorem unchecked_jitoCalls {ms : List JitoUpdate} {c : World L × JitoUpdate}
    (hc : w.uncheckedTx.card ≤ w.uncheckedCapacity) (hm : c ∈ S.jitoCalls E w ms) :
    c.1.uncheckedTx.card ≤ c.1.uncheckedCapacity := by
  induction ms generalizing w
  case nil => cases hm
  case cons m ms ih =>
    rw [jitoCalls] at hm
    rcases List.mem_cons.mp hm with rfl | hm
    · exact hc
    · split at hm
      case h_1 w' hw => exact ih ((unchecked_onJitoUpdate hc).of_ok hw) hm
      case h_2 => cases hm

theorem unchecked_callsIn {a : Act} {c : World L × JitoUpdate} (hm : c ∈ S.callsIn E s a) :
    c.1.uncheckedTx.card ≤ c.1.uncheckedCapacity := by
  cases a
  case poll input =>
    rw [callsIn] at hm
    split at hm
    case h_1 w hw => exact unchecked_jitoCalls (unchecked_beforeJito.of_ok hw) hm
    case h_2 => cases hm
  all_goals cases hm

theorem unchecked_calls {c : World L × JitoUpdate} (hm : c ∈ S.calls E s acts) :
    c.1.uncheckedTx.card ≤ c.1.uncheckedCapacity := by
  induction acts generalizing s
  case nil => cases hm
  case cons a acts ih =>
    rw [calls] at hm
    rcases List.mem_append.mp hm with hm | hm
    · exact unchecked_callsIn hm
    · split at hm
      case h_1 => exact ih hm
      case h_2 => cases hm

theorem exists_bundle {S : Scheduler L} {P : World L → List Packet → Prop}
    [∀ w bundle, Decidable (P w bundle)]
    (hc : (S.calls E s acts).any (fun c => match c.2 with
      | .bundle bundle => decide (P c.1 bundle)
      | _              => false) = true) :
    ∃ w bundle, (w, .bundle bundle) ∈ S.calls E s acts ∧ P w bundle := by
  obtain ⟨⟨w, m⟩, hm, hp⟩ := List.any_eq_true.mp hc
  cases m
  case bundle bundle => exact ⟨w, bundle, hm, of_decide_eq_true hp⟩
  all_goals cases hp

end Scheduler
