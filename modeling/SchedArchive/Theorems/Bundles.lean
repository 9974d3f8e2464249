import SchedArchive.Custody.Bundles
import SchedArchive.Theorems.Intake
import SchedArchive.Theorems.Lifecycle
import SchedArchive.Theorems.Threads

-- When a bundle stops waiting, and why.

open Except Ledger

namespace Scheduler

variable {L : Type} {S : Scheduler L} {E : Env} {P : LockPolicy L} {locks : L}
variable {w w₁ w' : World L} {b : BundleId} {e : Event}

section Sweep

-- Too old for the sweep of `drop_expired_bundles`.
def Expired (w : World L) (b : BundleId) : Prop :=
  w.runtime.bundleExpiry < w.now - b.receivedAt

theorem bundles_foldl_dropBundle {bs : List BundleId} :
    (bs.foldl (World.dropBundle P) w).bundles = w.bundles \ bs.toFinset := by
  induction bs generalizing w
  case nil => simp
  case cons b bs ih =>
    have hb : (w.dropBundle P b).bundles = w.bundles.erase b := by
      rw [toLedger_dropBundle, Ledger.dropBundle, dropAll_eq]
    rw [List.foldl_cons, ih, hb, List.toFinset_cons, Finset.sdiff_insert, Finset.erase_sdiff_comm]

-- The sweep takes exactly the bundles that are too old.
theorem mem_dropExpiredBundles :
    b ∈ (S.dropExpiredBundles w).bundles ↔ b ∈ w.bundles ∧ ¬Expired w b := by
  rw [dropExpiredBundles, bundles_foldl_dropBundle, Finset.mem_sdiff, List.mem_toFinset,
    Finset.mem_ascending, Finset.mem_filter, not_and]
  exact ⟨fun h => ⟨h.left, h.right h.left⟩, fun h => ⟨h.left, fun _ => h.right⟩⟩

end Sweep

section Displacement

variable {m : JitoUpdate} {bundle : List Packet} {h : Multiset TransactionKey}

-- New bundles take the place of old ones when there are just as many as there may be. It is the
-- lowest that go, and there are as many as before.
structure Displaces (w w' : World L) : Prop where
  full : w.bundles.card = w.bundleCapacity → w'.bundles.card = w.bundleCapacity
  gone : ∀ b ∈ w.bundles, b ∉ w'.bundles → w'.bundles.card = w.bundleCapacity ∧
           ∀ b' ∈ w'.bundles, b' ∈ w.bundles → b < b'

theorem Displaces.of_eq (hb : w'.bundles = w.bundles) : Displaces w w' where
  full hc      := hb ▸ hc
  gone _ hm hn := absurd (hb ▸ hm) hn

theorem Displaces.trans (h₁ : Displaces w w₁) (h₂ : Displaces w₁ w')
    (hc : w₁.bundleCapacity = w.bundleCapacity)
    (hb : ∀ b ∈ w.bundles, b ∈ w'.bundles → b ∈ w₁.bundles) : Displaces w w' where
  full hf := (h₂.full <| (h₁.full hf).trans hc.symm).trans hc
  gone b hm hn := by
    by_cases hm₁ : b ∈ w₁.bundles
    case pos =>
      obtain ⟨hf, hl⟩ := h₂.gone b hm₁ hn
      exact ⟨hf.trans hc, fun b' hm' hw => hl b' hm' <| hb b' hw hm'⟩
    case neg =>
      obtain ⟨hf, hl⟩ := h₁.gone b hm hm₁
      exact ⟨(h₂.full <| hf.trans hc.symm).trans hc, fun b' hm' hw => hl b' (hb b' hw hm') hw⟩

-- A new bundle takes the place of the lowest.
theorem Displaces.of_first {b₀ : BundleId} (hf : w.bundles.first = some b₀)
    (hc : w.bundles.card = w.bundleCapacity) (hn : b ∉ w.bundles)
    (hb : w'.bundles = insert b (w.bundles.erase b₀)) : Displaces w w' := by
  obtain ⟨hm₀, hl₀⟩ := Finset.first_eq_some_iff.mp hf
  have hc' : w'.bundles.card = w.bundleCapacity := by
    rw [hb, Finset.card_insert_of_notMem fun hm => hn <| Finset.mem_of_mem_erase hm,
      Finset.card_erase_add_one hm₀, hc]
  refine ⟨fun _ => hc', fun b₁ hm₁ hn₁ => ⟨hc', fun b' hm' hw => ?_⟩⟩
  rw [hb] at hm' hn₁
  obtain rfl : b₁ = b₀ := by
    by_contra hne
    exact hn₁ <| Finset.mem_insert_of_mem <| Finset.mem_erase.mpr ⟨hne, hm₁⟩
  have hm' := (Finset.mem_insert.mp hm').resolve_left fun he => hn <| he ▸ hw
  exact (hl₀ b' hw).lt_of_ne (Finset.ne_of_mem_erase hm').symm

theorem displaces_storeBundle {g : Gathered} (c : w.Custody E (↑g.keys + h)) :
    (S.storeBundle w g).Ensures (Displaces w) (fun _ => True) := by
  simp only [storeBundle, ensures_bind, ensures_require, ensures_pure]
  refine ⟨fun hk => ?_, fun _ => trivial⟩
  -- Its keys are still in hand, so the bundle is not one of those that are there.
  have hn : ∀ b : BundleId, b.keys = g.keys → b ∉ w.bundles := by
    intro b hb hm
    obtain ⟨k, hk⟩ := List.exists_mem_of_ne_nil _ hk
    refine c.owned.not_mem_keysIn (Multiset.mem_add.mpr <| .inl hk) (key_mem_bundled hm ?_)
    exact hb ▸ hk
  unfold evictBundle
  split
  case isFalse hc =>
    rw [ensures_ok, toLedger_queueKeys]
    exact ⟨fun hf => absurd hf hc, fun b hm hb => absurd (Finset.mem_insert_of_mem hm) hb⟩
  case isTrue hc =>
    split
    case h_1 => trivial
    case h_2 b₀ hf =>
      rw [ensures_ok, toLedger_queueKeys, toLedger_dropBundle, Ledger.dropBundle, dropAll_eq]
      exact .of_first hf hc (hn _ rfl) rfl

theorem Known.displaces_onBundle (hS : S.Known locks) (c : w.Custody E 0) :
    (S.onBundle E w bundle).Ensures (Displaces w) (fun _ => True) := by
  have K : Kept S.toLockPolicy E (.all L) (¬·.IsCustody) (fun l h => l.Custody E h) :=
    hS.lockFaults.kept id (fun m c => c.move m) fun _ _ => trivial
  rw [onBundle, ensures_bind]
  cases hg : S.gather E w ⟨[], 0, 0⟩ bundle
  case error => trivial
  case ok x =>
    obtain ⟨w₁, g⟩ := x
    have hb := (fields_gather.of_ok hg).right
    have hc : w₁.bundleCapacity = w.bundleCapacity :=
      congrArg (·.bundleCapacity) (spares_gather.of_ok hg).settings
    have hk := (K.gather hS.lawful (g := ⟨[], 0, 0⟩) (h := 0) c (by simp) fun _ _ => trivial).of_ok hg
    cases g
    case none => exact .of_eq hb
    case some g =>
      change Ensures (if _ then _ else _) _ _
      split
      case isTrue  => exact .of_eq <| fields_dropAll.right.trans hb
      case isFalse =>
        refine (displaces_storeBundle hk.left).imp fun w₂ h₂ => ?_
        exact (Displaces.of_eq hb).trans h₂ hc fun b hm _ => hb ▸ hm

theorem Known.displaces_onJitoUpdate (hS : S.Known locks) (c : w.Custody E 0) :
    (S.onJitoUpdate E w m).Ensures (Displaces w) (fun _ => True) := by
  cases m
  case builderConfig | tipConfig | recentBlockhash => exact .of_eq rfl
  case packet =>
    have U : Untouched E fun l : Ledger L => l.bundles = w.bundles :=
      ⟨fun _ h => h, fun h => h, fun h => h⟩
    exact (U.onPacket rfl).imp fun _ => .of_eq
  case bundle => exact hS.displaces_onBundle c

theorem Known.displaces_foldlM (hS : S.Known locks) (c : w.Custody E 0) (s : w.Sealed)
    {ms : List JitoUpdate} :
    (ms.foldlM (S.onJitoUpdate E) w).Ensures (Displaces w) (fun _ => True) := by
  have hi : (ms.foldlM (S.onJitoUpdate E) w).Ensures (fun w₁ => (w₁.Custody E 0 ∧
      (∀ b ∈ w.bundles, Tracked E w₁.toLedger 0 b) ∧ w₁.bundleCapacity = w.bundleCapacity) ∧
      Displaces w w₁) (fun _ => True) := by
    refine ensures_foldlM (fun w₁ m _ h₁ => ?_) ⟨⟨c, fun b => s.tracked c, rfl⟩, .of_eq rfl⟩
    obtain ⟨⟨c₁, hy₁, hc₁⟩, hd₁⟩ := h₁
    cases hm : S.onJitoUpdate E w₁ m
    case error => trivial
    case ok w₂ =>
      have hy₂ : ∀ b ∈ w.bundles, Tracked E w₂.toLedger 0 b := fun b hb =>
        ((kept_tracked hS.lockFaults b).onJitoUpdate hS.lawful (hy₁ b hb) (fun _ _ => trivial)
          fun _ _ _ _ => trivial).of_ok hm
      have hb₂ : ∀ b ∈ w.bundles, b ∈ w₂.bundles → b ∈ w₁.bundles := by
        intro b hb
        contrapose
        exact fun hn => ((kept_departed hS.lockFaults b _).onJitoUpdate hS.lawful
          ⟨hy₁ b hb, hn, rfl⟩ (fun _ _ => trivial) fun _ _ _ _ => trivial).of_ok hm |>.right.left
      have c₂ : w₂.Custody E 0 := ((kept_grown hS.lockFaults w₁.toLedger).onJitoUpdate hS.lawful
        ⟨c₁, .refl⟩ (fun _ _ => trivial) fun _ _ _ _ => trivial).of_ok hm |>.left
      have hc₂ : w₂.bundleCapacity = w₁.bundleCapacity :=
        congrArg (·.bundleCapacity) (heeds_onJitoUpdate.of_ok hm).settings
      refine ⟨⟨c₂, hy₂, hc₂.trans hc₁⟩, ?_⟩
      exact hd₁.trans ((hS.displaces_onJitoUpdate c₁).of_ok hm) hc₁ hb₂
  exact hi.imp fun _ h => h.right

theorem Known.displaces_drainJito (hS : S.Known locks) (c : w.Custody E 0) (s : w.Sealed)
    {channel : JitoChannel} {cancelled : Bool} :
    (S.drainJito E w channel cancelled).Ensures (Displaces w) (fun _ => True) := by
  rw [drainJito_eq_bind, ensures_bind]
  refine (hS.displaces_foldlM c s).imp fun w₁ h₁ => ?_
  cases hc : channel.connected
  case true => exact h₁
  case false => cases cancelled <;> trivial

end Displacement

-- Why a bundle stops waiting: it was sent, it was too old, or it had to make room.
inductive Departs (w : World L) (b : BundleId) : Event → World L → Prop
  | sent {v} :
    v.batchesOf b ≠ [] → Departs w b .scheduleExecute v
  | expired {v} :
    Expired w b → Departs w b .dropExpiredBundles v
  | displaced {channel cancelled v} :
    v.bundles.card = w.bundleCapacity → (∀ b' ∈ v.bundles, b' ∈ w.bundles → b < b') →
    Departs w b (.drainJito channel cancelled) v

theorem Known.tracked (hS : S.Known locks) (hr : S.Reachable E locks w) (hb : b ∈ w.bundles) :
    Tracked E w.toLedger 0 b := by
  have ⟨c, s⟩ := (kept_sealed hS.lockFaults).reach hS.lawful ⟨custody_empty, sealed_empty⟩
    (fun _ _ _ _ => within_all) hr
  exact s.tracked c hb

theorem Known.tracked_runs (hS : S.Known locks) (y : Tracked E w.toLedger 0 b)
    (hw : S.Runs E (fun _ _ => True) w w') : Tracked E w'.toLedger 0 b := by
  induction hw
  case refl => exact y
  case step he _ hs hi =>
    exact ((kept_tracked hS.lockFaults b).step hS.lawful hi he within_all).of_ok hs

theorem Known.departed_runs (hS : S.Known locks) (y : Tracked E w.toLedger 0 b)
    (hn : b ∉ w.bundles) (hw : S.Runs E (fun _ _ => True) w w') :
    b ∉ w'.bundles ∧ w'.batchesOf b = w.batchesOf b := by
  suffices hi : Tracked E w'.toLedger 0 b ∧ b ∉ w'.bundles ∧ w'.batchesOf b = w.batchesOf b from
    hi.right
  induction hw
  case refl => exact ⟨y, hn, rfl⟩
  case step he _ hs hi =>
    exact ((kept_departed hS.lockFaults b _).step hS.lawful hi he within_all).of_ok hs

theorem Known.departs_iff (hS : S.Known locks) (hr : S.Reachable E locks w) (hb : b ∈ w.bundles)
    (he : e.Enabled w) (hs : S.step E w e = .ok w') : b ∉ w'.bundles ↔ Departs w b e w' := by
  have y := hS.tracked hr hb
  have y' := hS.tracked_runs y <| Runs.refl.step he trivial hs
  constructor
  case mp =>
    intro hn
    obtain ⟨k, hk⟩ := List.exists_mem_of_ne_nil _ y.nonempty
    have hb₀ : w.At E k (.held .bundled) := key_mem_bundled hb hk
    have hc : ∀ {s}, w'.At E k s → s ≠ .held .bundled → (.held .bundled, s) ∈ e.changes :=
      fun hs' hne => (hS.changes_step y.custody he hs k _ _ hb₀ hs').resolve_left hne.symm
    have ⟨s, hs', hne⟩ : ∃ s, w'.At E k s ∧ s ≠ .held .bundled := by
      rcases y'.departed hn k hk with hx | hd
      · exact ⟨.held .executing, key_mem_executing hx, by simp⟩
      · exact ⟨.dropped, hd, by simp⟩
    have hc' := hc hs' hne
    cases e
    case dropExpiredBundles =>
      cases hs
      rw [mem_dropExpiredBundles, not_and, not_not] at hn
      exact .expired <| hn hb
    case drainJito =>
      obtain ⟨hf, hl⟩ := ((hS.displaces_drainJito y.custody y.sealing).of_ok hs).gone b hb hn
      exact .displaced hf hl
    case scheduleExecute =>
      refine .sent fun hn' => ?_
      cases y'.outcome
      case waiting hb' _   => exact hn hb'
      case sent hs' _ _ _  => cases hs'.symm.trans hn'
      case lost hd _       => simpa [Event.changes] using hc (s := .dropped) (hd k hk) (by simp)
    all_goals simp [Event.changes] at hc'
  case mpr =>
    intro hd hb'
    cases hd
    case sent hn => exact hn <| y'.sealing.batchesOf_eq_nil y'.custody hb'
    case expired hx =>
      cases hs
      exact (mem_dropExpiredBundles.mp hb').right hx
    case displaced _ hl => exact lt_irrefl b <| hl b hb' hb

-- A bundle waits until it is sent as a whole, found too old by a sweep, or displaced as the lowest of
-- a full queue. It never comes back, and nothing more of it is ever sent.
theorem Known.bundle_departs (hS : S.Known locks) (hr : S.Reachable E locks w)
    (hb : b ∈ w.bundles) :
    (∀ w₁, S.Runs E (fun _ _ => True) w w₁ → Outcome w₁.toLedger b ∧ (b ∉ w₁.bundles →
      ∀ w', S.Runs E (fun _ _ => True) w₁ w' →
        b ∉ w'.bundles ∧ w'.batchesOf b = w₁.batchesOf b)) ∧
    ∀ e w', e.Enabled w → S.step E w e = .ok w' → (b ∉ w'.bundles ↔ Departs w b e w') := by
  refine ⟨fun w₁ hw => ?_, fun e w' => hS.departs_iff hr hb⟩
  have y := hS.tracked_runs (hS.tracked hr hb) hw
  exact ⟨y.outcome, fun hn w' => hS.departed_runs y hn⟩

-- A bundle comes in while the scheduler is not leader and is sent once it is.
theorem Known.bundle_departs_sent :
    ∃ w w' b, BatchScheduler.scheduler.Reachable Sample.env ∅ w ∧ b ∈ w.bundles ∧
      BatchScheduler.scheduler.Runs Sample.env (fun _ _ => True) w w' ∧ b ∉ w'.bundles ∧
      Outcome w'.toLedger b := by
  have ⟨w, hr, ⟨b, hb, _⟩, hf⟩ : ∃ w, BatchScheduler.scheduler.Reachable Sample.env ∅ w ∧
      (∃ b ∈ w.bundles, b.keys = [1]) ∧
      (BatchScheduler.scheduler.follow Sample.env (fun _ _ => True) w
        (Sample.poll true 1 [] [] [])).any (·.bundles = ∅) :=
    Sample.exists_reach (Sample.poll false 1 [] [Sample.tx [(10, true), (11, false)] 999 1000]
      [.tipConfig ⟨20, 21⟩, .bundle [some <| Sample.tx [(10, true), (12, true)] 999 2000]])
      (by decide +kernel)
  obtain ⟨w', hf, he⟩ := Option.any_eq_true .. |>.mp hf
  have hw := Runs.follow .refl hf
  have hn : b ∉ w'.bundles := by simp [of_decide_eq_true he]
  exact ⟨w, w', b, hr, hb, hw, hn, ((bundle_departs .batch hr hb).left w' hw).left⟩

end Scheduler
