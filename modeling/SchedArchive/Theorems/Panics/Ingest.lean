import SchedArchive.Custody.Places
import SchedArchive.Theorems.Panics.Table
import SchedArchive.Theorems.Ingest
import SchedArchive.Theorems.Threads

-- What can make a scheduler panic over what comes in.

open Except Ledger

namespace Scheduler

variable {L : Type} {S : Scheduler L} {E : Env} {locks : L} {w w' : World L} {f : Fault}
variable {t : Tariff L}

section Tpu

variable {backlog packets : List Packet} {packet : Packet} {maxCount n : Nat} {tx : Tx}

-- What a transaction is worth depends on little of the state.
structure SamePrices (w w' : World L) : Prop where
  locks       : w'.locks = w.locks
  inFlightCus : w'.inFlightCus = w.inFlightCus
  progress    : w'.progress = w.progress

theorem Charges.packetOverflows_congr (hS : S.Charges locks t) (h : SamePrices w w') :
    t.packetOverflows E w' tx ↔ t.packetOverflows E w tx := by
  obtain ⟨_, hc, hp⟩ := h
  cases hS
  case batch => rfl
  case auction =>
    simp only [AuctionBatchScheduler.tariff, AuctionBatchScheduler.CusUnderflow, hc, hp]

theorem samePrices_evictUnchecked :
    (evictUnchecked n w).Ensures (SamePrices w) (fun _ => True) := by
  induction n generalizing w
  case zero => exact ⟨rfl, rfl, rfl⟩
  case succ n ih =>
    rw [evictUnchecked]
    split
    case h_1 => trivial
    case h_2 => exact ih.imp fun _ h => ⟨h.locks, h.inFlightCus, h.progress⟩

theorem samePrices_onTpu : (S.onTpu E w packet).Ensures (SamePrices w) (fun _ => True) := by
  have U : Untouched E fun l : Ledger L => l.locks = w.locks ∧ l.inFlightCus = w.inFlightCus :=
    ⟨fun _ h => h, fun h => h, fun h => h⟩
  cases hw : S.onTpu E w packet
  case error => trivial
  case ok w' =>
    obtain ⟨hl, hc⟩ := (U.onTpu ⟨rfl, rfl⟩).of_ok hw
    exact ⟨hl, hc, congrArg (·.progress) (spares_onTpu.of_ok hw).settings⟩

-- The amounts of some transaction among the packets are too much.
def Overflows (t : Tariff L) (E : Env) (w : World L) (packets : List Packet) : Prop :=
  E.overflowChecks = true ∧ ∃ tx, some tx ∈ packets ∧ t.packetOverflows E w tx

theorem Charges.overflows_onTpu (hS : S.Charges locks t) : (S.onTpu E w packet).Ensures
    (fun _ => ¬Overflows t E w [packet]) (fun f => f = .overflow ∧ Overflows t E w [packet]) := by
  cases packet
  case none => simp [Overflows, onTpu]
  case some tx =>
    have hs : SamePrices w (w.insertTransaction E tx) := ⟨rfl, rfl, rfl⟩
    have ho : Overflows t E w [some tx] ↔ E.overflowChecks = true ∧
        t.packetOverflows E (w.insertTransaction E tx) tx := by
      simp [Overflows, hS.packetOverflows_congr hs]
    rw [onTpu, ensures_bind, ho]
    refine hS.cases_calculatePriority.imp fun x hx => ?_
    cases x
    case none   => exact hx.left
    case some x =>
      dsimp only
      split <;> exact hx.left

theorem Charges.overflows_foldlM (hS : S.Charges locks t) : (packets.foldlM (S.onTpu E) w).Ensures
    (fun _ => ¬Overflows t E w packets) (fun f => f = .overflow ∧ Overflows t E w packets) := by
  induction packets generalizing w
  case nil => simp [Overflows, pure, Except.pure]
  case cons packet packets ih =>
    rw [List.foldlM_cons, ensures_bind]
    cases hw : S.onTpu E w packet
    case error f =>
      obtain ⟨hf, hc, tx, hm, ho⟩ := hS.overflows_onTpu.of_error hw
      exact ⟨hf, hc, tx, List.mem_cons.mpr <| .inl <| List.mem_singleton.mp hm, ho⟩
    case ok w₁ =>
      have hn := hS.overflows_onTpu.of_ok hw
      have hs : SamePrices w w₁ := samePrices_onTpu.of_ok hw
      refine ih.mono (fun _ h => ?_) fun f h => ?_
      · rintro ⟨hc, tx, hm, ho⟩
        rcases List.mem_cons.mp hm with rfl | hm
        · exact hn ⟨hc, tx, by simp, ho⟩
        · exact h ⟨hc, tx, hm, (hS.packetOverflows_congr hs).mpr ho⟩
      · obtain ⟨hf, hc, tx, hm, ho⟩ := h
        exact ⟨hf, hc, tx, List.mem_cons_of_mem _ hm, (hS.packetOverflows_congr hs).mp ho⟩

theorem Charges.overflows_drainTpu (hS : S.Charges locks t)
    (hc : min backlog.length maxCount ≤ w.uncheckedCapacity) :
    (S.drainTpu E w backlog maxCount).Ensures (fun _ => ¬Overflows t E w (backlog.take maxCount))
      (fun f => f = .overflow ∧ Overflows t E w (backlog.take maxCount)) := by
  have hn : shortfall w backlog maxCount ≤ w.uncheckedTx.card := by
    unfold shortfall
    omega
  rw [drainTpu, ensures_bind]
  obtain ⟨w₁, hw, _⟩ := (evicts_evictUnchecked hn).exists_ok
  rw [show w.uncheckedTx.card + _ - w.uncheckedCapacity = shortfall w backlog maxCount from rfl, hw]
  have hs : SamePrices w w₁ := samePrices_evictUnchecked.of_ok hw
  have ho : ∀ f, Overflows t E (w₁.count f) (backlog.take maxCount) ↔
      Overflows t E w (backlog.take maxCount) := by
    intro f
    have hs : SamePrices w (w₁.count f) := ⟨hs.locks, hs.inFlightCus, hs.progress⟩
    simp only [Overflows, hS.packetOverflows_congr hs]
  exact hS.overflows_foldlM.mono (fun _ h => (ho _).not.mp h) fun f h => h.imp_right (ho _).mp

theorem Charges.drainTpu_eq_error_iff (hS : S.Charges locks t) :
    S.drainTpu E w backlog maxCount = .error f ↔ Panics S t E w (.drainTpu backlog maxCount) f := by
  by_cases hc : min backlog.length maxCount ≤ w.uncheckedCapacity
  case pos =>
    have h := hS.overflows_drainTpu (E := E) hc
    constructor
    case mp =>
      intro he
      obtain ⟨rfl, hk, tx, hm, ho⟩ := h.of_error he
      exact .tpuOverflow hc hm hk ho
    case mpr =>
      intro hp
      cases hp
      case evictUnchecked hl => exact absurd hc <| Nat.not_le_of_lt hl
      case tpuOverflow tx hk ho _ hm =>
        exact Ensures.eq_error <| h.mono (fun _ h => h ⟨hk, tx, hm, ho⟩) fun _ => And.left
  case neg =>
    have hn : w.uncheckedTx.card < shortfall w backlog maxCount := by
      unfold shortfall
      omega
    have he : S.drainTpu E w backlog maxCount = .error .evictUnchecked := by
      rw [drainTpu]
      exact bind_eq_error.mpr <| .inl <| evictUnchecked_of_card_lt hn
    rw [he, Except.error.injEq]
    constructor
    case mp =>
      rintro rfl
      exact .evictUnchecked <| Nat.lt_of_not_le hc
    case mpr =>
      intro hp
      cases hp
      case evictUnchecked => rfl
      case tpuOverflow _ _ _ hc' _ => exact absurd hc' hc

end Tpu

section Jito

variable {tx : Tx} {packet : Packet} {bundle packets : List Packet} {g : Gathered} {m : JitoUpdate}
variable {channel : JitoChannel} {cancelled : Bool} {ms : List JitoUpdate}

theorem makeRoom_eq_error_iff :
    makeRoom w = .error f ↔ (w.uncheckedTx = 0 ∧ w.uncheckedCapacity = 0) ∧ f = .evictUnchecked := by
  unfold makeRoom
  split
  case isFalse hn =>
    refine ⟨fun h => (by cases h), fun h => ?_⟩
    rw [h.left.left, h.left.right] at hn
    exact absurd rfl hn
  case isTrue hc =>
    rw [evictUnchecked]
    split
    case h_1 hp =>
      have hu := Multiset.popMin_eq_none.mp hp
      rw [hu, Multiset.card_zero] at hc
      simp [hu, hc.symm, eq_comm]
    case h_2 hp =>
      refine ⟨fun h => (by cases h), fun h => ?_⟩
      rw [h.left.left] at hp
      cases hp

theorem Charges.onPacket_eq_error_iff (hS : S.Charges locks t) :
    S.onPacket E w packet = .error f ↔ MessagePanics t E w (.packet packet) f := by
  cases packet
  case none => exact ⟨fun h => (by cases h), fun h => (by cases h)⟩
  case some tx =>
    have hs : SamePrices w (w.insertTransaction E tx) := ⟨rfl, rfl, rfl⟩
    have h : (S.calculatePriority E (w.insertTransaction E tx) tx).Ensures _ _ :=
      hS.cases_calculatePriority
    rw [hS.packetOverflows_congr hs] at h
    rw [onPacket]
    cases hp : S.calculatePriority E (w.insertTransaction E tx) tx
    case error f' =>
      obtain ⟨rfl, hk, ho⟩ := h.of_error hp
      constructor
      case mp =>
        intro h
        cases h
        exact .packetOverflow hk ho
      case mpr =>
        rintro (_ | hn)
        · rfl
        · exact absurd ⟨hk, ho⟩ hn
    case ok x =>
      obtain ⟨ho, hu⟩ := h.of_ok hp
      rcases x with _ | ⟨priority, cost⟩
      case none =>
        refine ⟨fun h => (by cases h), ?_⟩
        rintro (⟨hk, hn⟩ | ⟨_, hn⟩)
        · exact absurd ⟨hk, hn⟩ ho
        · exact absurd (hu.mp rfl) hn
      case some =>
        change (if _ then _ else _) = _ ↔ _
        split
        case isTrue ht =>
          refine ⟨fun h => (by cases h), ?_⟩
          rintro (⟨hk, hn⟩ | ⟨_, _, hn⟩)
          · exact absurd ⟨hk, hn⟩ ho
          · cases hn.symm.trans ht
        case isFalse ht =>
          have ht := eq_false_of_ne_true ht
          refine bind_eq_error.trans <| (or_iff_left ?_).trans <| makeRoom_eq_error_iff.trans ?_
          · rintro ⟨_, _, hn⟩
            cases hn
          · constructor
            case mp =>
              rintro ⟨⟨he, hc⟩, rfl⟩
              exact .noRoom ho (hu.not.mp <| by simp) ht he hc
            case mpr =>
              rintro (⟨hk, hn⟩ | ⟨_, _, _, he, hc⟩)
              · exact absurd ⟨hk, hn⟩ ho
              · exact ⟨⟨he, hc⟩, rfl⟩

theorem evictBundle_eq_error_iff :
    S.evictBundle w = .error f ↔ (w.bundles = ∅ ∧ w.bundleCapacity = 0) ∧ f = .evictBundle := by
  unfold evictBundle
  split
  case isFalse hn =>
    refine ⟨fun h => (by cases h), fun h => ?_⟩
    rw [h.left.left, h.left.right] at hn
    exact absurd rfl hn
  case isTrue hc =>
    split
    case h_1 hp =>
      have hb := Finset.first_eq_none_iff.mp hp
      rw [hb, Finset.card_empty] at hc
      simp [hb, hc.symm, eq_comm]
    case h_2 hp =>
      refine ⟨fun h => (by cases h), fun h => ?_⟩
      have hm := Finset.first_mem hp
      rw [h.left.left] at hm
      exact absurd hm <| Finset.notMem_empty _

theorem storeBundle_eq_error_iff : S.storeBundle w g = .error f ↔
    g.keys = [] ∧ f = .emptyBundle ∨
      g.keys ≠ [] ∧ (w.bundles = ∅ ∧ w.bundleCapacity = 0) ∧ f = .evictBundle := by
  by_cases hk : g.keys = []
  case pos => simp [storeBundle, hk, require, bind, Except.bind, eq_comm]
  case neg =>
    rw [storeBundle, require, if_pos hk]
    change (S.evictBundle w >>= _) = _ ↔ _
    rw [bind_eq_error, or_iff_left, evictBundle_eq_error_iff, or_iff_right fun h => hk h.left,
      and_iff_right hk]
    rintro ⟨_, _, hn⟩
    cases hn

theorem Charges.onBundle_eq_error_iff (hS : S.Charges locks t) :
    S.onBundle E w bundle = .error f ↔ MessagePanics t E w (.bundle bundle) f := by
  have h : (S.gather E w ⟨[], 0, 0⟩ bundle).Ensures _ _ := hS.cases_gather
  rw [onBundle]
  cases hg : S.gather E w ⟨[], 0, 0⟩ bundle
  case error f' =>
    obtain ⟨rfl, hk, ho⟩ := h.of_error hg
    constructor
    case mp =>
      intro h
      cases h
      exact .bundleOverflow hk ho
    case mpr =>
      intro hp
      cases hp
      case bundleOverflow  => rfl
      case emptyBundle     => exact absurd ho Tariff.not_bundleOverflows_nil
      case noBundles hn _ => exact absurd ⟨hk, ho⟩ hn
  case ok x =>
    obtain ⟨ho, hs⟩ := h.of_ok hg
    cases hs
    case stops txs hu =>
      refine ⟨fun h => (by cases h), fun hp => ?_⟩
      obtain ⟨p, hm, hu⟩ := hu
      cases hp
      case bundleOverflow hk hn => exact absurd ⟨hk, hn⟩ ho
      case emptyBundle          => cases hm
      case noBundles hn        => exact absurd (.inl hu) <| hn p hm
    case all cost value hu _ =>
      have hb := (undisturbed_arriveAll (E := E) (w := w) bundle.reduceOption).bundles
      have hc : (arriveAll E w bundle.reduceOption).bundleCapacity = w.bundleCapacity :=
        bundleCapacity_arriveAll
      have hl : newKeys E w bundle.length = [] ↔ bundle = [] := by simp [newKeys]
      change (if (newKeys E w bundle.length).any fun key =>
          ((arriveAll E w bundle.reduceOption).data key).shouldFilterStatic E.filterKeys then _
        else _) = _ ↔ _
      split
      case isTrue ht =>
        obtain ⟨p, hm, hp⟩ := (any_filtered_iff hu).mp ht
        refine ⟨fun h => (by cases h), fun hn => ?_⟩
        cases hn
        case bundleOverflow hk hn => exact absurd ⟨hk, hn⟩ ho
        case emptyBundle          => cases hm
        case noBundles hn        => exact absurd hp <| hn p hm
      case isFalse ht =>
        have ht : ∀ p ∈ bundle, ¬t.Spoils E w p := fun p hm hp =>
          ht <| (any_filtered_iff hu).mpr ⟨p, hm, hp⟩
        rw [storeBundle_eq_error_iff, hb, hc, List.nil_append, Ne, hl]
        constructor
        case mp =>
          rintro (⟨rfl, rfl⟩ | ⟨hn, ⟨he, hz⟩, rfl⟩)
          · exact .emptyBundle
          · exact .noBundles hn ho ht he hz
        case mpr =>
          intro hp
          cases hp
          case bundleOverflow hk hn => exact absurd ⟨hk, hn⟩ ho
          case emptyBundle => exact .inl ⟨rfl, rfl⟩
          case noBundles he hz hn _ _ => exact .inr ⟨hn, ⟨he, hz⟩, rfl⟩

theorem Charges.onJitoUpdate_eq_error_iff (hS : S.Charges locks t) :
    S.onJitoUpdate E w m = .error f ↔ MessagePanics t E w m f := by
  cases m
  case builderConfig | tipConfig | recentBlockhash =>
    exact ⟨fun h => (by cases h), fun h => (by cases h)⟩
  case packet => exact hS.onPacket_eq_error_iff
  case bundle => exact hS.onBundle_eq_error_iff

theorem Charges.drainJito_eq_error_iff (hS : S.Charges locks t) :
    S.drainJito E w channel cancelled = .error f ↔
      Panics S t E w (.drainJito channel cancelled) f := by
  rw [drainJito_eq_bind, bind_eq_error, foldlM_eq_error_iff]
  constructor
  case mp =>
    rintro (⟨before, m, after, w', hm, hb, he⟩ | ⟨w', hw, he⟩)
    · exact .message hm hb <| hS.onJitoUpdate_eq_error_iff.mp he
    · cases hc : channel.connected
      case true  => simp [hc, drainJitoLoop] at he
      case false =>
        cases cancelled
        case false =>
          obtain rfl : .jitoDisconnected = f := by simpa [hc, drainJitoLoop] using he
          exact .jitoDisconnected hc hw
        case true =>
          obtain rfl : .hang = f := by simpa [hc, drainJitoLoop] using he
          exact .drainsForever hc hw
  case mpr =>
    intro hp
    cases hp
    case message hb hm he => exact .inl ⟨_, _, _, _, hm, hb, hS.onJitoUpdate_eq_error_iff.mpr he⟩
    case jitoDisconnected hc hw => exact .inr ⟨_, hw, by rw [hc]; rfl⟩
    case drainsForever hc hw => exact .inr ⟨_, hw, by rw [hc]; rfl⟩

end Jito

end Scheduler
