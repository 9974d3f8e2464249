import Mathlib.Data.Rat.Floor
import SchedArchive.Lib.LockTable
import SchedArchive.Auction.Batches

-- What the batches of the auction engine have in common with the candidates they were packed from.

open Except LockTable

namespace AuctionEngine

open TransactionBatch

variable {R : Type} [LinearOrder R] {checks : Bool} {scorer : BatchScorer R}
variable {surplus : TransactionCandidate → R} {maxCu : Nat} {tx : TransactionCandidate}
variable {b b' : TransactionBatch} {batches batches' : List TransactionBatch} {i : Nat}

-- The first of the batches that can take the candidate.
def firstFit (checks : Bool) (maxCu : Nat) (batches : List TransactionBatch)
    (tx : TransactionCandidate) : Option TransactionBatch :=
  batches.find? fun b => b.canAdd checks tx.allLocks tx.cuLimit maxCu = .ok true

theorem canAdd_of_firstFit (hb : firstFit checks maxCu batches tx = some b) :
    b.canAdd checks tx.allLocks tx.cuLimit maxCu = .ok true := by
  simpa using List.find?_some hb

-- The surplus does not depend on the batch, so no other batch is better than the first one found.
theorem findBestFrom_found {idx best : Nat} :
    (findBestFrom checks surplus maxCu tx idx (some best) (surplus tx) batches).Ensures
      (· = some best) (fun _ => True) := by
  induction batches generalizing idx
  case nil => rfl
  case cons b batches ih =>
    rw [findBestFrom, ensures_bind]
    refine ensures_of_forall fun fits => ?_
    split_ifs with _ hs
    · exact absurd hs <| lt_irrefl _
    · exact ih
    · exact ih

theorem ensures_findBestFrom {idx : Nat} :
    (findBestFrom checks surplus maxCu tx idx none ⊥ batches).Ensures (fun found =>
      (found = none ∧ firstFit checks maxCu batches tx = none) ∨
      ∃ i b, found = some (idx + i) ∧ batches[i]? = some b ∧
        firstFit checks maxCu batches tx = some b) (fun _ => True) := by
  induction batches generalizing idx
  case nil => exact .inl ⟨rfl, rfl⟩
  case cons b batches ih =>
    rw [findBestFrom, ensures_bind]
    cases hc : b.canAdd checks tx.allLocks tx.cuLimit maxCu
    case error => trivial
    case ok fits =>
      cases fits
      case true =>
        rw [ensures_ok, if_pos rfl, if_pos (WithBot.bot_lt_coe _)]
        refine findBestFrom_found.imp fun found hf => .inr ⟨0, b, hf, rfl, ?_⟩
        exact List.find?_cons_of_pos <| by simpa using hc
      case false =>
        have hf : firstFit checks maxCu (b :: batches) tx = firstFit checks maxCu batches tx :=
          List.find?_cons_of_neg <| by simp [hc]
        rw [ensures_ok, if_neg Bool.false_ne_true, hf]
        refine ih.imp fun found h => h.imp_right fun h => ?_
        obtain ⟨i, b', he, hb, hf⟩ := h
        exact ⟨i + 1, b', by rw [he, Nat.add_assoc, Nat.add_comm 1 i], hb, hf⟩

-- A batch of its own can take every candidate within the budget.
theorem canAdd_new : TransactionBatch.new.canAdd checks tx.allLocks tx.cuLimit maxCu =
    .ok (decide (tx.cuLimit ≤ maxCu)) := by
  rw [canAdd, TransactionBatch.new, Machine.add_eq_ok (by simpa using tx.cuLimit_le), Nat.zero_add]
  change (if maxCu < tx.cuLimit then Except.ok false else .ok (tx.allLocks.all fun _ => true)) = _
  split_ifs with hu
  case pos => rw [decide_eq_false <| Nat.not_le_of_lt hu]
  case neg => rw [decide_eq_true <| Nat.le_of_not_lt hu, List.all_eq_true.mpr fun _ _ => rfl]

-- What one round does: the candidate joins the first batch that can take it, opens one, or is left
-- out.
theorem pack_cases (hp : pack checks scorer surplus maxCu batches tx = .ok batches') :
    (∃ i b b', batches[i]? = some b ∧ firstFit checks maxCu batches tx = some b ∧
      b.add checks tx = .ok b' ∧ batches' = batches.set i b') ∨
    (firstFit checks maxCu batches tx = none ∧
      ((batches' = batches ∧ (maxCu < tx.cuLimit ∨ ¬scorer.acceptanceThreshold < surplus tx)) ∨
      (tx.cuLimit ≤ maxCu ∧ scorer.acceptanceThreshold < surplus tx ∧
        ∃ b', TransactionBatch.new.add checks tx = .ok b' ∧ batches' = batches ++ [b']))) := by
  obtain ⟨found, hf, hp⟩ := bind_eq_ok.mp hp
  rcases ensures_findBestFrom.of_ok hf with ⟨rfl, hn⟩ | ⟨i, b, rfl, hb, hs⟩
  · refine .inr ⟨hn, ?_⟩
    obtain ⟨fits, hc, hp⟩ := bind_eq_ok.mp hp
    obtain rfl := Except.ok.inj <| canAdd_new.symm.trans hc
    split_ifs at hp with hu ht
    · obtain ⟨b', ha, hp⟩ := bind_eq_ok.mp hp
      exact .inr ⟨of_decide_eq_true hu, ht, b', ha, (Except.ok.inj hp).symm⟩
    · exact .inl ⟨(Except.ok.inj hp).symm, .inr ht⟩
    · exact .inl ⟨(Except.ok.inj hp).symm, .inl <| by simpa using hu⟩
  · have hp : addAt checks batches (0 + i) tx = .ok batches' := hp
    rw [Nat.zero_add, addAt, hb] at hp
    obtain ⟨b', ha, hp⟩ := bind_eq_ok.mp hp
    exact .inl ⟨i, b, b', hb, hs, ha, (Except.ok.inj hp).symm⟩

theorem forall_mem_set {α : Type} {P : α → Prop} {l : List α} {a a' : α} (hi : l[i]? = some a)
    (ha : P a' → P a) : (∀ x ∈ l.set i a', P x) ↔ (∀ x ∈ l, P x) ∧ P a' := by
  have hl := (List.getElem?_eq_some_iff.mp hi).choose
  constructor
  case mp =>
    intro hs
    have ha' := hs a' <| List.mem_set hl a'
    refine ⟨fun x hx => ?_, ha'⟩
    obtain ⟨j, hj, hx⟩ := List.getElem_of_mem hx
    by_cases he : i = j
    · subst he
      rw [List.getElem?_eq_getElem hl] at hi
      exact hx ▸ (Option.some_inj.mp hi).symm ▸ ha ha'
    · refine hs x <| List.mem_iff_getElem.mpr ⟨j, by simpa using hj, ?_⟩
      rw [List.getElem_set_of_ne he, hx]
  case mpr =>
    rintro ⟨hl, ha'⟩ x hx
    rcases List.mem_or_eq_of_mem_set hx with hx | rfl
    · exact hl x hx
    · exact ha'

-- The rule for the loop. `P` is what every batch should satisfy and `I` what every batch does. A
-- member that joins keeps `P` exactly if it satisfies `Q`: then `P` holds of all batches in the end
-- exactly if `Q` held whenever a candidate joined one.
section Rule

variable {I P : TransactionBatch → Prop} {Q : TransactionBatch → TransactionCandidate → Prop}
variable (hn : ∀ {tx b'}, tx.cuLimit ≤ maxCu → scorer.acceptanceThreshold < surplus tx →
  TransactionBatch.new.add checks tx = .ok b' → I b' ∧ P b')
variable (ha : ∀ {b tx b'}, I b → b.canAdd checks tx.allLocks tx.cuLimit maxCu = .ok true →
  b.add checks tx = .ok b' → I b' ∧ (P b' ↔ P b ∧ Q b tx))

include hn ha

theorem pack_iff (hi : ∀ b ∈ batches, I b)
    (hp : pack checks scorer surplus maxCu batches tx = .ok batches') :
    (∀ b ∈ batches', I b) ∧ ((∀ b ∈ batches', P b) ↔
      (∀ b ∈ batches, P b) ∧ ∀ b ∈ firstFit checks maxCu batches tx, Q b tx) := by
  rcases pack_cases hp with ⟨i, b, b', hb, hf, hs, rfl⟩ | ⟨hf, hp⟩
  · have hb' := hi b <| List.mem_of_getElem? hb
    obtain ⟨hi', hq⟩ := ha hb' (canAdd_of_firstFit hf) hs
    refine ⟨(forall_mem_set hb fun _ => hb').mpr ⟨hi, hi'⟩, ?_⟩
    rw [forall_mem_set hb fun hp => (hq.mp hp).left, hq, hf]
    simp only [Option.mem_some, forall_eq']
    constructor
    case mp  => exact fun h => ⟨h.left, h.right.right⟩
    case mpr => exact fun h => ⟨h.left, h.left b <| List.mem_of_getElem? hb, h.right⟩
  · rw [hf]
    rcases hp with ⟨rfl, _⟩ | ⟨hu, ht, b', hs, rfl⟩
    · exact ⟨hi, by simp⟩
    · obtain ⟨hi', hp'⟩ := hn hu ht hs
      simp only [List.forall_mem_append, List.forall_mem_singleton]
      exact ⟨⟨hi, hi'⟩, by simp [hp']⟩

theorem foldlM_pack_iff {candidates : List TransactionCandidate} (hi : ∀ b ∈ batches, I b)
    (hp : candidates.foldlM (pack checks scorer surplus maxCu) batches = .ok batches') :
    (∀ b ∈ batches', P b) ↔ (∀ b ∈ batches, P b) ∧
      ∀ c ∈ rounds checks scorer surplus maxCu batches candidates,
        ∀ b ∈ firstFit checks maxCu c.1 c.2, Q b c.2 := by
  induction candidates generalizing batches
  case nil =>
    obtain rfl := Except.ok.inj hp
    simp [rounds]
  case cons tx candidates ih =>
    obtain ⟨batches₁, h₁, hp⟩ := bind_eq_ok.mp hp
    obtain ⟨hi₁, hs⟩ := pack_iff hn ha hi h₁
    rw [ih hi₁ hp, hs, rounds, h₁, List.forall_mem_cons, and_assoc]

theorem packAll_iff {candidates : List TransactionCandidate}
    (hp : packAll checks scorer surplus maxCu candidates = .ok batches) :
    (∀ b ∈ batches, P b) ↔ ∀ c ∈ rounds checks scorer surplus maxCu [] candidates,
      ∀ b ∈ firstFit checks maxCu c.1 c.2, Q b c.2 := by
  rw [foldlM_pack_iff hn ha (by simp) hp]
  simp

end Rule

variable {candidates : List TransactionCandidate}

-- What `add` leaves in a batch.
theorem transactions_add (hs : b.add checks tx = .ok b') :
    b'.transactions = b.transactions ++ [tx] := by
  obtain ⟨_, _, hs⟩ := bind_eq_ok.mp hs
  rw [← Except.ok.inj hs]

theorem lookup_insertLocks {locks : Finmap fun _ : Pubkey => Bool} {txLocks : List Lock}
    {a : Pubkey} : (txLocks.foldl insertLock locks).lookup a = none ↔
      locks.lookup a = none ∧ a ∉ txLocks.map Prod.fst := by
  induction txLocks generalizing locks
  case nil => simp
  case cons l txLocks ih =>
    obtain ⟨addr, writable⟩ := l
    rw [List.foldl_cons, ih, insertLock, Finmap.lookup_insert_eq_ite, List.map_cons,
      List.mem_cons, not_or, ← and_assoc]
    refine and_congr_left fun _ => ?_
    split
    case isTrue he  => simp [he]
    case isFalse hn => simp [hn]

-- The map of a batch has an entry for every account of its members. The modes in it do not matter:
-- they are overwritten, but a candidate that writes is refused either way.
def SumsUp (b : TransactionBatch) : Prop :=
  ∀ a, b.locks.lookup a = none ↔ ∀ m ∈ b.transactions, a ∉ m.allLocks.map Prod.fst

theorem sumsUp_new : SumsUp TransactionBatch.new := by
  intro a
  simp [TransactionBatch.new]

theorem SumsUp.add (h : SumsUp b) (hs : b.add checks tx = .ok b') : SumsUp b' := by
  intro a
  rw [transactions_add hs, List.forall_mem_append, List.forall_mem_singleton, ← h a]
  obtain ⟨_, _, hs⟩ := bind_eq_ok.mp hs
  rw [← Except.ok.inj hs]
  exact lookup_insertLocks

-- No candidate is let in that writes to an account of a member.
theorem SumsUp.not_written (h : SumsUp b) {a : Pubkey} {m : TransactionCandidate}
    (hc : b.canAdd checks tx.allLocks tx.cuLimit maxCu = .ok true) (hm : m ∈ b.transactions)
    (ha : (a, true) ∈ tx.allLocks) : a ∉ m.allLocks.map Prod.fst := by
  obtain ⟨used, _, hc⟩ := bind_eq_ok.mp hc
  rw [if_neg fun hu => by rw [if_pos hu] at hc; cases hc] at hc
  have hl := List.all_eq_true.mp (Except.ok.inj hc) (a, true) ha
  rw [lockFits] at hl
  split at hl
  case h_1 hn => exact (h a).mp hn m hm
  case h_2 e _ => cases e <;> cases hl

def ConflictFree (b : TransactionBatch) : Prop :=
  b.transactions.Pairwise fun m m' => ¬Conflict m.allLocks m'.allLocks

instance : DecidablePred ConflictFree :=
  fun b => inferInstanceAs <| Decidable (b.transactions.Pairwise _)

-- The candidate reads an account that a member of the batch writes.
def ReadsWritten (b : TransactionBatch) (tx : TransactionCandidate) : Prop :=
  ∃ m ∈ b.transactions, ∃ a, (a, true) ∈ m.allLocks ∧ (a, false) ∈ tx.allLocks

theorem SumsUp.conflictFree_add (h : SumsUp b)
    (hc : b.canAdd checks tx.allLocks tx.cuLimit maxCu = .ok true)
    (hs : b.add checks tx = .ok b') : ConflictFree b' ↔ ConflictFree b ∧ ¬ReadsWritten b tx := by
  rw [ConflictFree, transactions_add hs, List.pairwise_append]
  simp only [List.pairwise_singleton, List.mem_singleton, forall_eq, true_and]
  refine and_congr_right fun _ => ⟨?_, ?_⟩
  · rintro hn ⟨m, hm, a, hw, hr⟩
    exact hn m hm ⟨a, true, false, hw, hr, .inl rfl⟩
  · rintro hn m hm ⟨a, v, v', hv, hv', hw⟩
    cases v'
    case true => exact h.not_written hc hm hv' <| List.mem_map_of_mem hv
    case false =>
      obtain rfl : v = true := hw.resolve_right Bool.false_ne_true
      exact hn ⟨m, hm, a, hv, hv'⟩

-- The batches are free of conflicts exactly if the first batch that could take a candidate never had
-- a member that writes an account the candidate reads.
theorem batches_conflict_free_iff
    (hp : packAll checks scorer surplus maxCu candidates = .ok batches) :
    (∀ b ∈ batches, ConflictFree b) ↔ ∀ c ∈ rounds checks scorer surplus maxCu [] candidates,
      ∀ b ∈ firstFit checks maxCu c.1 c.2, ¬ReadsWritten b c.2 := by
  refine packAll_iff (I := SumsUp) (fun _ _ hs => ⟨sumsUp_new.add hs, ?_⟩)
    (fun hi hc hs => ⟨hi.add hs, hi.conflictFree_add hc hs⟩) hp
  rw [ConflictFree, transactions_add hs]
  exact List.pairwise_singleton ..

-- The prices of a new engine are zero, so the surplus of a candidate is its fee.
def Sample.candidate (locks : List Lock) (fee : Nat) : TransactionCandidate where
  cuLimit     := 100
  allLocks    := locks
  priorityFee := fee

def Sample.build (candidates : List TransactionCandidate) : Except Fault (List TransactionBatch) :=
  buildBatches true .default (.new .default : AuctionEngine ℚ) candidates 1000

-- Two candidates that write to different accounts.
theorem batches_conflict_free_iff_writers : ∃ batches,
    Sample.build [Sample.candidate [(10, true)] 5, Sample.candidate [(11, true)] 5] = .ok batches ∧
      batches.map (·.transactions.length) = [2] ∧ ∀ b ∈ batches, ConflictFree b := by
  obtain ⟨batches, hp, hl⟩ : ∃ batches,
      Sample.build [Sample.candidate [(10, true)] 5, Sample.candidate [(11, true)] 5] = .ok batches ∧
        batches.map (·.transactions.length) = [2] :=
    Ensures.exists_ok (by decide +kernel)
  have hw : ∀ c ∈ rounds true .default (auctionSurplus (.new .default : ResourcePrices ℚ)) 1000 []
      [Sample.candidate [(10, true)] 5, Sample.candidate [(11, true)] 5],
      c.2.allLocks.all (·.2) = true := by decide +kernel
  refine ⟨batches, hp, hl, (batches_conflict_free_iff hp).mpr fun c hc b _ => ?_⟩
  rintro ⟨_, _, a, _, hr⟩
  exact absurd (List.all_eq_true.mp (hw c hc) _ hr) Bool.false_ne_true

-- A candidate that writes to an account, and then one that reads it.
theorem reader_joins_writer : ∃ batches,
    Sample.build [Sample.candidate [(10, true)] 5, Sample.candidate [(10, false)] 5] = .ok batches ∧
      ∃ b ∈ batches, ¬ConflictFree b :=
  Ensures.exists_ok (by decide +kernel)

-- Every member was worth its price exactly if no other candidate ever found a batch that could take
-- it: what joins a batch is not compared with the threshold.
theorem surplus_above_threshold_iff
    (hp : packAll checks scorer surplus maxCu candidates = .ok batches) :
    (∀ b ∈ batches, ∀ m ∈ b.transactions, scorer.acceptanceThreshold < surplus m) ↔
      ∀ c ∈ rounds checks scorer surplus maxCu [] candidates,
        ¬scorer.acceptanceThreshold < surplus c.2 →
          ∀ b ∈ c.1, b.canAdd checks c.2.allLocks c.2.cuLimit maxCu ≠ .ok true := by
  refine (packAll_iff (I := fun _ => True) (Q := fun _ tx => scorer.acceptanceThreshold < surplus tx)
    (fun _ ht hs => ⟨trivial, ?_⟩) (fun _ _ hs => ⟨trivial, ?_⟩) hp).trans ?_
  case refine_1 =>
    rw [transactions_add hs]
    exact List.forall_mem_singleton.mpr ht
  case refine_2 => rw [transactions_add hs, List.forall_mem_append, List.forall_mem_singleton]
  refine forall₂_congr fun c _ => ?_
  constructor
  case mp =>
    intro hq hn b hb ha
    obtain ⟨b', hf⟩ : ∃ b', firstFit checks maxCu c.1 c.2 = some b' :=
      Option.isSome_iff_exists.mp <| List.find?_isSome.mpr ⟨b, hb, by simpa using ha⟩
    exact hn <| hq b' hf
  case mpr =>
    intro hn b hf
    by_contra ht
    exact hn ht b (List.mem_of_find?_eq_some hf) <| canAdd_of_firstFit hf

-- A candidate that pays nothing is kept out by a lock.
theorem surplus_above_threshold_iff_locked_out : ∃ batches,
    Sample.build [Sample.candidate [(10, true)] 5, Sample.candidate [(10, true)] 0] = .ok batches ∧
      batches.map (·.transactions.length) = [1] ∧
      ∀ b ∈ batches, ∀ m ∈ b.transactions,
        0 < auctionSurplus (.new .default : ResourcePrices ℚ) m := by
  obtain ⟨batches, hp, hl⟩ : ∃ batches,
      Sample.build [Sample.candidate [(10, true)] 5, Sample.candidate [(10, true)] 0] = .ok batches ∧
        batches.map (·.transactions.length) = [1] :=
    Ensures.exists_ok (by decide +kernel)
  exact ⟨batches, hp, hl, (surplus_above_threshold_iff hp).mpr (by decide +kernel)⟩

-- With nothing to keep it out, it joins the batch of the other one.
theorem joins_without_surplus : ∃ batches,
    Sample.build [Sample.candidate [(10, true)] 5, Sample.candidate [(11, true)] 0] = .ok batches ∧
      ∃ b ∈ batches, ∃ m ∈ b.transactions,
        ¬0 < auctionSurplus (.new .default : ResourcePrices ℚ) m :=
  Ensures.exists_ok (by decide +kernel)

end AuctionEngine
