import Mathlib.Data.List.Basic

-- A bounded channel between two threads, first in, first out, with all that was ever received from
-- it. The channel cannot hold more than its capacity.

structure Channel (α : Type) (capacity : Nat) where
  received : List α
  buffer   : List α
  bounded  : buffer.length ≤ capacity

namespace Channel

variable {α : Type} {n : Nat} {c c' : Channel α n} {a : α}

def empty (α : Type) (n : Nat) : Channel α n where
  received := []
  buffer   := []
  bounded  := Nat.zero_le n

-- What was ever sent over the channel.
def sent (c : Channel α n) : List α :=
  c.received ++ c.buffer

theorem length_push {as : List α} (h : as.length < n) : (as ++ [a]).length ≤ n := by
  rw [List.length_append, List.length_singleton]
  exact h

theorem length_pop {as : List α} (h : (a :: as).length ≤ n) : as.length ≤ n :=
  Nat.le_of_succ_le h

-- `none` when the channel is full.
def trySend (c : Channel α n) (a : α) : Option (Channel α n) :=
  if h : c.buffer.length < n then
    some ⟨c.received, c.buffer ++ [a], length_push h⟩
  else
    none

-- `none` when the channel is empty.
def tryRecv : Channel α n → Option (α × Channel α n)
  | ⟨_, [], _⟩             => none
  | ⟨received, a :: as, h⟩ => some (a, ⟨received ++ [a], as, length_pop h⟩)

@[simp]
theorem sent_empty : (empty α n).sent = [] :=
  rfl

theorem trySend_eq_some (h : c.trySend a = some c') :
    c'.received = c.received ∧ c'.buffer = c.buffer ++ [a] := by
  unfold trySend at h
  split at h
  case isTrue  =>
    cases h
    exact ⟨rfl, rfl⟩
  case isFalse => exact nomatch h

theorem tryRecv_eq_none_iff : c.tryRecv = none ↔ c.buffer = [] := by
  obtain ⟨received, _ | ⟨a, as⟩, h⟩ := c <;> simp [tryRecv]

theorem tryRecv_eq_some (h : c.tryRecv = some (a, c')) :
    c'.received = c.received ++ [a] ∧ c.buffer = a :: c'.buffer := by
  obtain ⟨received, _ | ⟨b, as⟩, hb⟩ := c
  case nil => exact nomatch h
  case cons =>
    cases h
    exact ⟨rfl, rfl⟩

theorem sent_trySend (h : c.trySend a = some c') : c'.sent = c.sent ++ [a] := by
  obtain ⟨hr, hb⟩ := trySend_eq_some h
  rw [sent, hr, hb, ← List.append_assoc, sent]

-- Receiving takes nothing away from what was sent.
theorem sent_tryRecv (h : c.tryRecv = some (a, c')) : c'.sent = c.sent := by
  obtain ⟨hr, hb⟩ := tryRecv_eq_some h
  rw [sent, sent, hr, hb, List.append_assoc]
  rfl

end Channel
