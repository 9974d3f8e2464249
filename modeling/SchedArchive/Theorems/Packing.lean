import SchedArchive.Theorems.Batches

-- What the batches of the auction engine keep of the candidates: the compute units they are charged
-- for, and where each of them went.

open Except LockTable

namespace AuctionEngine

open TransactionBatch

variable {R : Type} [LinearOrder R] {checks : Bool} {scorer : BatchScorer R}
variable {surplus : TransactionCandidate → R} {maxCu : Nat} {tx : TransactionCandidate}
variable {b b' : TransactionBatch} {batches batches' : List TransactionBatch}
variable {candidates : List TransactionCandidate} {places : List (Option Nat)} {j : Nat}

section Budget

-- The exact sum of what the members may use.
def total (b : TransactionBatch) : Nat :=
  (b.transactions.map (·.cuLimit)).sum

theorem total_add (hs : b.add checks tx = .ok b') : total b' = total b + tx.cuLimit := by
  rw [total, transactions_add hs, List.map_append, List.sum_append]
  rfl

theorem cuUsed_add (hs : b.add checks tx = .ok b') :
    Machine.add checks b.cuUsed tx.cuLimit = .ok b'.cuUsed := by
  obtain ⟨used, hu, hs⟩ := bind_eq_ok.mp hs
  rw [hu, ← Except.ok.inj hs]

theorem cuUsed_le_of_canAdd (hc : b.canAdd checks tx.allLocks tx.cuLimit maxCu = .ok true)
    (hs : b.add checks tx = .ok b') : b'.cuUsed ≤ maxCu := by
  rw [canAdd, cuUsed_add hs] at hc
  change (if maxCu < b'.cuUsed then _ else _) = _ at hc
  split_ifs at hc with hu
  case pos => cases hc
  case neg => exact Nat.le_of_not_lt hu

-- What is true of a batch even after `cu_used` wrapped around.
structure Counted (maxCu : Nat) (b : TransactionBatch) : Prop where
  used_le  : b.cuUsed ≤ maxCu
  total_eq : total b % 2 ^ 64 = b.cuUsed

def InBudget (maxCu : Nat) (b : TransactionBatch) : Prop :=
  total b = b.cuUsed ∧ total b ≤ maxCu

instance : Decidable (InBudget maxCu b) :=
  inferInstanceAs <| Decidable (_ ∧ _)

theorem counted_new : Counted maxCu TransactionBatch.new where
  used_le  := Nat.zero_le _
  total_eq := rfl

theorem inBudget_new : InBudget maxCu TransactionBatch.new :=
  ⟨rfl, Nat.zero_le _⟩

theorem Counted.add (h : Counted maxCu b)
    (hc : b.canAdd checks tx.allLocks tx.cuLimit maxCu = .ok true)
    (hs : b.add checks tx = .ok b') : Counted maxCu b' where
  used_le  := cuUsed_le_of_canAdd hc hs
  total_eq := by
    rw [total_add hs, Machine.eq_mod_of_add_eq_ok (cuUsed_add hs), ← h.total_eq, Nat.mod_add_mod]

theorem Counted.inBudget_add (h : Counted maxCu b)
    (hc : b.canAdd checks tx.allLocks tx.cuLimit maxCu = .ok true)
    (hs : b.add checks tx = .ok b') :
    InBudget maxCu b' ↔ InBudget maxCu b ∧ b.cuUsed + tx.cuLimit ≤ u64Max := by
  have hu := Machine.eq_mod_of_add_eq_ok (cuUsed_add hs)
  have hm := cuUsed_le_of_canAdd hc hs
  have ht := h.total_eq
  have hl := h.used_le
  rw [InBudget, InBudget, total_add hs]
  unfold u64Max
  omega

end Budget

section Places

-- The candidates at the positions that went to batch `j`, in their order.
def members (places : List (Option Nat)) (candidates : List TransactionCandidate) (j : Nat) :
    List TransactionCandidate :=
  (places.zip candidates).filterMap fun (place, tx) => if place = some j then some tx else none

-- Every candidate goes to one batch at most, and the batches are what went to them. What goes nowhere
-- is too big for any batch or not worth its price.
structure Placed (scorer : BatchScorer R) (surplus : TransactionCandidate → R) (maxCu : Nat)
    (candidates : List TransactionCandidate) (batches : List TransactionBatch)
    (places : List (Option Nat)) : Prop where
  length_eq : places.length = candidates.length
  lt_length : ∀ j, some j ∈ places → j < batches.length
  members   : ∀ j b, batches[j]? = some b → b.transactions = members places candidates j
  left_out  : ∀ tx, (none, tx) ∈ places.zip candidates →
                maxCu < tx.cuLimit ∨ ¬scorer.acceptanceThreshold < surplus tx

theorem members_append {place : Option Nat} (hl : places.length = candidates.length) :
    members (places ++ [place]) (candidates ++ [tx]) j =
      members places candidates j ++ if place = some j then [tx] else [] := by
  rw [members, List.zip_append hl, List.filterMap_append, members]
  by_cases hp : place = some j <;> simp [hp]

theorem members_eq_nil (hj : some j ∉ places) : members places candidates j = [] := by
  refine List.filterMap_eq_nil_iff.mpr fun c hc => if_neg fun he => hj ?_
  exact he ▸ (List.of_mem_zip hc).left

theorem Placed.append {place : Option Nat}
    (h : Placed scorer surplus maxCu candidates batches places)
    (hl : batches.length ≤ batches'.length) (hp : ∀ j, place = some j → j < batches'.length)
    (hm : ∀ j b, batches'[j]? = some b →
      b.transactions = AuctionEngine.members places candidates j ++
        if place = some j then [tx] else [])
    (ho : place = none → maxCu < tx.cuLimit ∨ ¬scorer.acceptanceThreshold < surplus tx) :
    Placed scorer surplus maxCu (candidates ++ [tx]) batches' (places ++ [place]) where
  length_eq := by simp [h.length_eq]
  lt_length j hj := by
    rcases List.mem_append.mp hj with hj | hj
    · exact (h.lt_length j hj).trans_le hl
    · exact hp j (List.mem_singleton.mp hj).symm
  members j b hb := (hm j b hb).trans (members_append h.length_eq).symm
  left_out c hc := by
    rw [List.zip_append h.length_eq] at hc
    rcases List.mem_append.mp hc with hc | hc
    · exact h.left_out c hc
    · obtain ⟨hn, rfl⟩ := Prod.mk.inj <| List.mem_singleton.mp hc
      exact ho hn.symm

theorem Placed.pack (h : Placed scorer surplus maxCu candidates batches places)
    (hp : pack checks scorer surplus maxCu batches tx = .ok batches') :
    ∃ place, Placed scorer surplus maxCu (candidates ++ [tx]) batches' (places ++ [place]) := by
  rcases pack_cases hp with ⟨i, b, b', hb, _, hs, rfl⟩ | ⟨_, ⟨rfl, ho⟩ | ⟨_, _, b', hs, rfl⟩⟩
  case inl =>
    have hi := (List.getElem?_eq_some_iff.mp hb).choose
    refine ⟨some i, h.append (List.length_set ..).ge (fun j hj => ?_) (fun j c hc => ?_) nofun⟩
    · rw [List.length_set, ← Option.some_inj.mp hj]
      exact hi
    · by_cases he : i = j
      case pos =>
        subst he
        rw [List.getElem?_set_self hi] at hc
        rw [← Option.some_inj.mp hc, transactions_add hs, h.members i b hb, if_pos rfl]
      case neg =>
        rw [List.getElem?_set_ne he] at hc
        rw [h.members j c hc, if_neg (he <| Option.some_inj.mp ·), List.append_nil]
  case inr.inl =>
    refine ⟨none, h.append le_rfl nofun (fun j c hc => ?_) fun _ => ho⟩
    rw [h.members j c hc, if_neg nofun, List.append_nil]
  case inr.inr =>
    -- No candidate was sent to the batch that is opened here.
    have hn : some batches.length ∉ places := fun hj => absurd (h.lt_length _ hj) (lt_irrefl _)
    have hl : (batches ++ [b']).length = batches.length + 1 := List.length_append
    refine ⟨some batches.length, h.append (by omega) (fun j hj => ?_) (fun j c hc => ?_) nofun⟩
    · rw [hl, ← Option.some_inj.mp hj]
      exact Nat.lt_succ_self _
    · by_cases he : batches.length = j
      case pos =>
        subst he
        rw [List.getElem?_concat_length] at hc
        rw [← Option.some_inj.mp hc, transactions_add hs, members_eq_nil hn, if_pos rfl]
        rfl
      case neg =>
        have hj := (List.getElem?_eq_some_iff.mp hc).choose
        rw [List.getElem?_append_left (by omega)] at hc
        rw [h.members j c hc, if_neg (he <| Option.some_inj.mp ·), List.append_nil]

theorem Placed.foldlM_pack {txs : List TransactionCandidate}
    (h : Placed scorer surplus maxCu candidates batches places)
    (hp : txs.foldlM (AuctionEngine.pack checks scorer surplus maxCu) batches = .ok batches') :
    ∃ places, Placed scorer surplus maxCu (candidates ++ txs) batches' places := by
  induction txs generalizing candidates batches places
  case nil =>
    obtain rfl := Except.ok.inj hp
    exact ⟨places, (List.append_nil candidates).symm ▸ h⟩
  case cons tx txs ih =>
    obtain ⟨batches₁, h₁, hp⟩ := bind_eq_ok.mp hp
    obtain ⟨place, h⟩ := h.pack h₁
    exact List.append_cons candidates tx txs ▸ ih h hp

theorem placed_packAll (hp : packAll checks scorer surplus maxCu candidates = .ok batches) :
    ∃ places, Placed scorer surplus maxCu candidates batches places := by
  have h : Placed scorer surplus maxCu [] [] [] := ⟨rfl, nofun, nofun, nofun⟩
  exact h.foldlM_pack hp

end Places

-- In a build without overflow checks, the batches are always built.

theorem ensures_canAdd {locks : List Lock} {cu : Nat} :
    (b.canAdd false locks cu maxCu).Ensures (fun _ => True) (fun _ => False) := by
  rw [canAdd, ensures_bind]
  refine (Machine.ensures_add Bool.false_ne_true).imp fun used _ => ?_
  split_ifs <;> trivial

theorem ensures_add : (b.add false tx).Ensures (fun _ => True) (fun _ => False) := by
  rw [TransactionBatch.add, ensures_bind]
  exact (Machine.ensures_add Bool.false_ne_true).imp fun _ _ => trivial

theorem ensures_findBestBatch : (findBestBatch false surplus maxCu tx batches).Ensures
    (fun _ => True) (fun _ => False) := by
  rw [findBestBatch]
  generalize 0 = idx, none = best, (⊥ : WithBot R) = bestSurplus
  induction batches generalizing idx best bestSurplus
  case nil => trivial
  case cons b batches ih =>
    rw [findBestFrom, ensures_bind]
    refine ensures_canAdd.imp fun fits _ => ?_
    split_ifs <;> exact ih ..

theorem ensures_addAt {idx : Nat} :
    (addAt false batches idx tx).Ensures (fun _ => True) (fun _ => False) := by
  rw [addAt]
  split
  · trivial
  · rw [ensures_bind]
    exact ensures_add.imp fun _ _ => trivial

theorem ensures_pack : (pack false scorer surplus maxCu batches tx).Ensures (fun _ => True)
    (fun _ => False) := by
  rw [pack, ensures_bind]
  refine ensures_findBestBatch.imp fun found _ => ?_
  cases found
  case some idx => exact ensures_addAt
  case none =>
    rw [ensures_bind]
    refine ensures_canAdd.imp fun fits _ => ?_
    split_ifs
    · rw [ensures_bind]
      exact ensures_add.imp fun _ _ => trivial
    all_goals trivial

theorem exists_packAll : ∃ batches, packAll false scorer surplus maxCu candidates = .ok batches := by
  have hp : (packAll false scorer surplus maxCu candidates).Ensures (fun _ => True)
      (fun _ => False) := ensures_foldlM (fun _ _ _ _ => ensures_pack) trivial
  exact hp.exists_ok.imp fun _ h => h.left

-- The batches stay within the budget and keep the candidates, each in one place and in their order.
structure Conserves (scorer : BatchScorer R) (surplus : TransactionCandidate → R) (maxCu : Nat)
    (candidates : List TransactionCandidate) (batches : List TransactionBatch) : Prop where
  budget : ∀ b ∈ batches, InBudget maxCu b
  placed : ∃ places, Placed scorer surplus maxCu candidates batches places

-- The batches that a release build returns are as they should be exactly if `cu_used` did not wrap
-- around whenever a candidate joined one.
theorem batches_conserve_iff : ∃ batches,
    packAll false scorer surplus maxCu candidates = .ok batches ∧
      (Conserves scorer surplus maxCu candidates batches ↔
        ∀ c ∈ rounds false scorer surplus maxCu [] candidates,
          ∀ b ∈ firstFit false maxCu c.1 c.2, b.cuUsed + c.2.cuLimit ≤ u64Max) := by
  obtain ⟨batches, hp⟩ : ∃ batches, packAll false scorer surplus maxCu candidates = .ok batches :=
    exists_packAll
  refine ⟨batches, hp, .trans ⟨(·.budget), fun hb => ⟨hb, placed_packAll hp⟩⟩ ?_⟩
  refine packAll_iff (I := Counted maxCu) (fun {tx b'} hu _ hs => ?_)
    (fun hi hc hs => ⟨hi.add hc hs, hi.inBudget_add hc hs⟩) hp
  have hc : TransactionBatch.new.canAdd false tx.allLocks tx.cuLimit maxCu = .ok true := by
    rw [canAdd_new, decide_eq_true hu]
  refine ⟨counted_new.add hc hs, (counted_new.inBudget_add hc hs).mpr ⟨inBudget_new, ?_⟩⟩
  exact (Nat.zero_add _).trans_le tx.cuLimit_le

def Sample.sized (cuLimit : UInt64) (locks : List Lock) : TransactionCandidate where
  cuLimit     := cuLimit.toNat
  allLocks    := locks
  priorityFee := 5
  cuLimit_le  := Nat.le_sub_one_of_lt cuLimit.toNat_lt

-- The second candidate asks for almost all that a `u64` can hold.
def Sample.huge : List TransactionCandidate :=
  [Sample.sized 100 [(10, true)], Sample.sized (-50) [(11, true)]]

theorem budget_test_wraps_around : ∃ batches,
    buildBatches false .default (.new .default : AuctionEngine ℚ) Sample.huge 1000 = .ok batches ∧
      batches.map (fun b => (b.cuUsed, total b)) = [(50, 2 ^ 64 + 50)] ∧
      ¬Conserves .default (auctionSurplus (.new .default : ResourcePrices ℚ)) 1000 Sample.huge
        batches := by
  obtain ⟨batches, hp, ht, hb⟩ : ∃ batches,
      buildBatches false .default (.new .default : AuctionEngine ℚ) Sample.huge 1000 = .ok batches ∧
        batches.map (fun b => (b.cuUsed, total b)) = [(50, 2 ^ 64 + 50)] ∧
        ¬∀ b ∈ batches, InBudget 1000 b :=
    Ensures.exists_ok (by decide +kernel)
  exact ⟨batches, hp, ht, fun hc => hb hc.budget⟩

section Bundle

variable {bundleTxs rest : List TransactionCandidate} {first : TransactionCandidate}
variable {existing existing' : List TransactionBatch} {made : Option TransactionBatch} {i : Nat}

-- A batch as its functions make it: new, or with a candidate added.
inductive Made (checks : Bool) : TransactionBatch → Prop
  | new : Made checks .new
  | add {b b' : TransactionBatch} {tx : TransactionCandidate} :
    Made checks b → b.add checks tx = .ok b' → Made checks b'

theorem Made.sumsUp (h : Made checks b) : SumsUp b := by
  induction h
  case new          => exact sumsUp_new
  case add _ hs ih  => exact ih.add hs

structure Valid (maxCu : Nat) (b : TransactionBatch) : Prop where
  budget       : total b ≤ maxCu
  conflictFree : ConflictFree b

-- `tx` writes to no account that `m` names.
def SparesNamed (m tx : TransactionCandidate) : Prop :=
  ∀ a, (a, true) ∈ tx.allLocks → a ∉ m.allLocks.map Prod.fst

-- `tx` reads no account that `m` writes.
def SparesWritten (m tx : TransactionCandidate) : Prop :=
  ∀ a, (a, true) ∈ m.allLocks → (a, false) ∉ tx.allLocks

theorem not_conflict_iff {m tx : TransactionCandidate} :
    ¬Conflict m.allLocks tx.allLocks ↔ SparesNamed m tx ∧ SparesWritten m tx := by
  constructor
  case mp =>
    refine fun hn => ⟨fun a ha hm => ?_, fun a hm ha => hn ⟨a, true, false, hm, ha, .inl rfl⟩⟩
    obtain ⟨⟨_, v⟩, hv, rfl⟩ := List.mem_map.mp hm
    exact hn ⟨_, v, true, hv, ha, .inr rfl⟩
  case mpr =>
    rintro ⟨hn, hw⟩ ⟨a, v, v', hv, hv', h⟩
    cases v'
    case true => exact hn a hv' <| List.mem_map_of_mem hv
    case false =>
      obtain rfl : v = true := h.resolve_right Bool.false_ne_true
      exact hw a hv hv'

-- What the pre-scan does not see: the members of the batch, and reads.
structure Fits (maxCu : Nat) (b : TransactionBatch) (first : TransactionCandidate)
    (rest : List TransactionCandidate) : Prop where
  budget : total b + ((first :: rest).map (·.cuLimit)).sum ≤ maxCu
  writes : ∀ m ∈ b.transactions, ∀ tx ∈ rest, SparesNamed m tx
  reads  : ∀ m ∈ b.transactions, ∀ tx ∈ first :: rest, SparesWritten m tx
  within : (first :: rest).Pairwise SparesWritten

theorem foldlM_addAt (hb : existing[i]? = some b)
    (hp : bundleTxs.foldlM (addAt checks · i ·) existing = .ok existing') :
    ∃ b', bundleTxs.foldlM (TransactionBatch.add checks) b = .ok b' ∧
      existing' = existing.set i b' := by
  induction bundleTxs generalizing existing b
  case nil =>
    obtain rfl := Except.ok.inj hp
    obtain ⟨hi, rfl⟩ := List.getElem?_eq_some_iff.mp hb
    exact ⟨_, rfl, (List.set_getElem_self hi).symm⟩
  case cons tx txs ih =>
    obtain ⟨existing₁, h₁, hp⟩ := bind_eq_ok.mp hp
    have h₁ : addAt checks existing i tx = .ok existing₁ := h₁
    rw [addAt, hb] at h₁
    obtain ⟨b₁, ha, h₁⟩ := bind_eq_ok.mp h₁
    obtain rfl := Except.ok.inj h₁
    have hi := (List.getElem?_eq_some_iff.mp hb).choose
    obtain ⟨b', hb', hs⟩ := ih (List.getElem?_set_self hi) hp
    exact ⟨b', bind_eq_ok.mpr ⟨b₁, ha, hb'⟩, hs.trans <| List.set_set ..⟩

theorem transactions_foldlM_add (hs : bundleTxs.foldlM (TransactionBatch.add checks) b = .ok b') :
    b'.transactions = b.transactions ++ bundleTxs := by
  induction bundleTxs generalizing b
  case nil => rw [Except.ok.inj hs, List.append_nil]
  case cons tx txs ih =>
    obtain ⟨b₁, h₁, hs⟩ := bind_eq_ok.mp hs
    rw [ih hs, transactions_add h₁, List.append_assoc]
    rfl

-- What the pre-scan finds out: no transaction writes to an account that an earlier one names.
theorem preScan_eq_some (h : Made checks b)
    (hp : preScan checks maxCu b bundleTxs = .ok (some b')) :
    bundleTxs.foldlM (TransactionBatch.add checks) b = .ok b' ∧
      (∀ m ∈ b.transactions, ∀ tx ∈ bundleTxs, SparesNamed m tx) ∧
      bundleTxs.Pairwise SparesNamed := by
  induction bundleTxs generalizing b
  case nil =>
    obtain rfl := Option.some_inj.mp <| Except.ok.inj hp
    exact ⟨rfl, by simp, .nil⟩
  case cons tx txs ih =>
    obtain ⟨fits, hc, hp⟩ := bind_eq_ok.mp hp
    cases fits
    case false => cases hp
    case true =>
      obtain ⟨b₁, h₁, hp⟩ := bind_eq_ok.mp hp
      obtain ⟨hs, hm, hw⟩ := ih (h.add h₁) hp
      rw [transactions_add h₁, List.forall_mem_append, List.forall_mem_singleton] at hm
      refine ⟨bind_eq_ok.mpr ⟨b₁, h₁, hs⟩, fun m hb => ?_, hw.cons hm.right⟩
      refine List.forall_mem_cons.mpr ⟨fun a ha => ?_, hm.left m hb⟩
      exact h.sumsUp.not_written hc hb ha

-- The whole bundle in one batch.
theorem valid_iff_fits (hv : Valid maxCu b)
    (hs : (first :: rest).foldlM (TransactionBatch.add checks) b = .ok b')
    (hn : (first :: rest).Pairwise SparesNamed)
    (hf : ∀ m ∈ b.transactions, SparesNamed m first) : Valid maxCu b' ↔ Fits maxCu b first rest := by
  have ht := transactions_foldlM_add hs
  have hu : total b' = total b + ((first :: rest).map (·.cuLimit)).sum := by
    rw [total, ht, List.map_append, List.sum_append, total]
  constructor
  case mp =>
    rintro ⟨hb, hc⟩
    rw [ConflictFree, ht, List.pairwise_append] at hc
    obtain ⟨_, hc, hm⟩ := hc
    refine ⟨hu ▸ hb, fun m hb tx hx => ?_, fun m hb tx hx => ?_, hc.imp fun h => ?_⟩
    · exact (not_conflict_iff.mp <| hm m hb tx <| List.mem_cons_of_mem _ hx).left
    · exact (not_conflict_iff.mp <| hm m hb tx hx).right
    · exact (not_conflict_iff.mp h).right
  case mpr =>
    intro h
    refine ⟨hu ▸ h.budget, ?_⟩
    rw [ConflictFree, ht, List.pairwise_append]
    refine ⟨hv.conflictFree, ?_, fun m hb tx hx => not_conflict_iff.mpr ⟨?_, h.reads m hb tx hx⟩⟩
    · exact hn.and h.within |>.imp not_conflict_iff.mpr
    · rcases List.mem_cons.mp hx with rfl | hx
      · exact hf m hb
      · exact h.writes m hb tx hx

-- The bundle is let in: it fits a batch of its own, and there is a batch for its first transaction or
-- that one is worth its price.
def Admitted (checks : Bool) (scorer : BatchScorer R) (surplus : TransactionCandidate → R)
    (maxCu : Nat) (first : TransactionCandidate) (rest : List TransactionCandidate)
    (existing : List TransactionBatch) : Prop :=
  (∃ b, preScan checks maxCu .new (first :: rest) = .ok (some b)) ∧
    (firstFit checks maxCu existing first ≠ none ∨ scorer.acceptanceThreshold < surplus first)

-- What becomes of the bundle.
theorem packBundle_cases
    (hp : packBundle checks scorer surplus maxCu (first :: rest) existing = .ok (made, existing')) :
    (¬Admitted checks scorer surplus maxCu first rest existing ∧ made = none ∧
      existing' = existing) ∨
    (Admitted checks scorer surplus maxCu first rest existing ∧
      (first :: rest).Pairwise SparesNamed ∧ ∃ b', made = some b' ∧
        ((∃ i b, existing[i]? = some b ∧ firstFit checks maxCu existing first = some b ∧
          (first :: rest).foldlM (TransactionBatch.add checks) b = .ok b' ∧
          existing' = existing.set i b') ∨
        (firstFit checks maxCu existing first = none ∧
          (first :: rest).foldlM (TransactionBatch.add checks) .new = .ok b' ∧
          existing' = existing ++ [b']))) := by
  obtain ⟨scanned, hs, hp⟩ := bind_eq_ok.mp hp
  cases scanned
  case none =>
    obtain ⟨rfl, rfl⟩ := Prod.mk.inj <| Except.ok.inj hp
    refine .inl ⟨?_, rfl, rfl⟩
    rintro ⟨⟨b, hb⟩, _⟩
    cases hs.symm.trans hb
  case some c =>
    obtain ⟨hc, _, hn⟩ := preScan_eq_some .new hs
    obtain ⟨found, hf, hp⟩ := bind_eq_ok.mp hp
    rcases ensures_findBestFrom.of_ok hf with ⟨rfl, hn'⟩ | ⟨i, b, rfl, hb, hs'⟩
    · change (if _ then _ else _) = _ at hp
      split_ifs at hp with ht
      · obtain ⟨rfl, rfl⟩ := Prod.mk.inj <| Except.ok.inj hp
        exact .inr ⟨⟨⟨c, hs⟩, .inr ht⟩, hn, c, rfl, .inr ⟨hn', hc, rfl⟩⟩
      · obtain ⟨rfl, rfl⟩ := Prod.mk.inj <| Except.ok.inj hp
        exact .inl ⟨fun ha => ha.right.elim (· hn') ht, rfl, rfl⟩
    · rw [Nat.zero_add] at hp
      obtain ⟨existing₁, h₁, hp⟩ := bind_eq_ok.mp hp
      obtain ⟨b', hb', rfl⟩ := foldlM_addAt hb h₁
      obtain ⟨rfl, rfl⟩ := Prod.mk.inj <| Except.ok.inj hp
      have hi := (List.getElem?_eq_some_iff.mp hb).choose
      refine .inr ⟨⟨⟨c, hs⟩, .inl fun hn => ?_⟩, hn, b', List.getElem?_set_self hi,
        .inl ⟨i, b, hb, hs', hb', rfl⟩⟩
      cases hs'.symm.trans hn

-- What should hold afterwards: the bundle is in one batch and all batches are valid, or nothing has
-- changed.
structure KeepsValid (maxCu : Nat) (bundleTxs : List TransactionCandidate)
    (existing : List TransactionBatch) (made : Option TransactionBatch)
    (existing' : List TransactionBatch) : Prop where
  together : ∀ b ∈ made, b ∈ existing' ∧ ∃ txs, b.transactions = txs ++ bundleTxs
  valid    : made ≠ none → ∀ b ∈ existing', Valid maxCu b
  refused  : made = none → existing' = existing

theorem valid_new : Valid maxCu .new :=
  ⟨Nat.zero_le _, .nil⟩

theorem bundle_batch_valid_iff (he : ∀ b ∈ existing, Made checks b ∧ Valid maxCu b)
    (hp : packBundle checks scorer surplus maxCu (first :: rest) existing = .ok (made, existing')) :
    KeepsValid maxCu (first :: rest) existing made existing' ↔
      (Admitted checks scorer surplus maxCu first rest existing →
        Fits maxCu ((firstFit checks maxCu existing first).getD .new) first rest) := by
  have hv : ∀ b ∈ existing, Valid maxCu b := fun b hb => (he b hb).right
  -- The batch with the bundle in it decides about all of them.
  have hk {b'} (ha : Admitted checks scorer surplus maxCu first rest existing)
      (hm : b' ∈ existing') (ht : ∃ txs, b'.transactions = txs ++ first :: rest)
      (hr : (∀ b ∈ existing', Valid maxCu b) ↔
        Fits maxCu ((firstFit checks maxCu existing first).getD .new) first rest) :
      KeepsValid maxCu (first :: rest) existing (some b') existing' ↔ (Admitted checks scorer surplus
        maxCu first rest existing → Fits maxCu ((firstFit checks maxCu existing first).getD .new)
        first rest) :=
    ⟨fun h _ => hr.mp <| h.valid nofun,
      fun h => ⟨fun b hb => Option.some_inj.mp hb ▸ ⟨hm, ht⟩, fun _ => hr.mpr <| h ha, nofun⟩⟩
  rcases packBundle_cases hp with ⟨hn, rfl, rfl⟩ | ⟨ha, hn, b', rfl, hc⟩
  · exact iff_of_true ⟨nofun, (absurd rfl ·), fun _ => rfl⟩ (absurd · hn)
  rcases hc with ⟨i, b, hb, hf, hs, rfl⟩ | ⟨hf, hs, rfl⟩
  · have hb' := List.mem_of_getElem? hb
    have hm := List.mem_set (List.getElem?_eq_some_iff.mp hb).choose b'
    refine hk ha hm ⟨_, transactions_foldlM_add hs⟩ ?_
    rw [forall_mem_set hb fun _ => hv b hb', and_iff_right hv, hf]
    refine valid_iff_fits (hv b hb') hs hn fun m hm a ha => ?_
    exact (he b hb').left.sumsUp.not_written (canAdd_of_firstFit hf) hm ha
  · refine hk ha (by simp) ⟨_, transactions_foldlM_add hs⟩ ?_
    rw [List.forall_mem_append, and_iff_right hv, List.forall_mem_singleton, hf]
    exact valid_iff_fits valid_new hs hn nofun

-- A batch with one member, which writes to account 10.
def Sample.opened (cuLimit : UInt64) : TransactionBatch where
  cuUsed       := cuLimit.toNat
  locks        := .insert 10 true ∅
  transactions := [Sample.sized cuLimit [(10, true)]]

def Sample.bundle : List TransactionCandidate :=
  [Sample.sized 100 [(11, true)], Sample.sized 500 [(12, true)]]

theorem Sample.made_opened {cuLimit : UInt64} : Made checks (Sample.opened cuLimit) := by
  have hs : TransactionBatch.new.add checks (Sample.sized cuLimit [(10, true)]) =
      .ok (Sample.opened cuLimit) := by
    have hc : 0 + cuLimit.toNat ≤ u64Max :=
      (Nat.zero_add _).trans_le (Sample.sized cuLimit []).cuLimit_le
    change (Machine.add checks 0 cuLimit.toNat >>= _) = _
    rw [Machine.add_eq_ok hc, Nat.zero_add]
    rfl
  exact .add .new hs

def Sample.small : TransactionBatch := Sample.opened 100

def Sample.buildBundle (existing : TransactionBatch) :
    Except Fault (Option TransactionBatch × List TransactionBatch) :=
  buildBundleBatch true .default (.new .default : AuctionEngine ℚ) Sample.bundle [existing] 1000

theorem Sample.fits_small :
    Fits 1000 Sample.small (Sample.sized 100 [(11, true)]) [Sample.sized 500 [(12, true)]] where
  budget := by decide
  writes := by simp [Sample.small, Sample.opened, Sample.sized, SparesNamed]
  reads  := by simp [Sample.small, Sample.opened, Sample.sized, SparesWritten]
  within := by simp [Sample.sized, SparesWritten]

-- The batch has room for the whole bundle.
theorem bundle_batch_valid_iff_room : ∃ made existing',
    Sample.buildBundle Sample.small = .ok (made, existing') ∧ made.map total = some 700 ∧
      KeepsValid 1000 Sample.bundle [Sample.small] made existing' := by
  obtain ⟨⟨made, existing'⟩, hp, ht⟩ : ∃ r, Sample.buildBundle Sample.small = .ok r ∧
      r.1.map total = some 700 := Ensures.exists_ok (by decide +kernel)
  have hf : firstFit true 1000 [Sample.small] (Sample.sized 100 [(11, true)]) = some Sample.small :=
    List.find?_cons_of_pos <| by decide +kernel
  refine ⟨made, existing', hp, ht, (bundle_batch_valid_iff (fun b hb => ?_) hp).mpr fun _ => ?_⟩
  · obtain rfl := List.mem_singleton.mp hb
    exact ⟨Sample.made_opened, by decide, by decide⟩
  · rw [hf]
    exact Sample.fits_small

def Sample.large : TransactionBatch := Sample.opened 600

-- The batch has room for the first transaction of the bundle only, and takes both.
theorem bundle_overfills_batch : Made true Sample.large ∧ Valid 1000 Sample.large ∧
    ∃ made existing', Sample.buildBundle Sample.large = .ok (made, existing') ∧
      made.map total = some 1200 ∧
      ¬KeepsValid 1000 Sample.bundle [Sample.large] made existing' := by
  obtain ⟨⟨made, existing'⟩, hp, ht, b, hb, hu⟩ : ∃ r, Sample.buildBundle Sample.large = .ok r ∧
      r.1.map total = some 1200 ∧ ∃ b ∈ r.2, ¬total b ≤ 1000 := Ensures.exists_ok (by decide +kernel)
  refine ⟨Sample.made_opened, ⟨by decide, by decide⟩, made, existing', hp, ht, fun h => ?_⟩
  refine hu (h.valid (fun hn => ?_) b hb).budget
  rw [hn] at ht
  cases ht

end Bundle

end AuctionEngine
