import Mathlib.Algebra.Order.Ring.Nat
import Mathlib.Data.Fintype.Card
import Mathlib.Data.List.DropRight
import Mathlib.Data.Multiset.Replicate
import Mathlib.Data.Fin.Basic

-- A ring buffer that keeps the last `n` of the values that are pushed.

structure RingBuffer (α : Type) (n : Nat) where
  slots : Fin n → α
  head  : Nat
  count : Nat

namespace RingBuffer

variable {α : Type} {n : Nat} {d a : α} {as : List α} {r : RingBuffer α n} {f : Fin n → α} {i : Fin n}

def empty (d : α) : RingBuffer α n where
  slots := fun _ => d
  head  := 0
  count := 0

-- All that is in the slots, in no particular order.
def contents (r : RingBuffer α n) : Multiset α :=
  Finset.univ.val.map r.slots

theorem map_univ_eq_cons :
    Finset.univ.val.map f = f i ::ₘ (Finset.univ.erase i).val.map f := by
  rw [← Multiset.map_cons, Finset.erase_val, Multiset.cons_erase (Finset.mem_univ_val i)]

-- A new value takes the place of an old one.
theorem cons_map_update :
    f i ::ₘ Finset.univ.val.map (Function.update f i a) = a ::ₘ Finset.univ.val.map f := by
  have ho : (Finset.univ.erase i).val.map (Function.update f i a) =
      (Finset.univ.erase i).val.map f :=
    Multiset.map_congr rfl fun j hj =>
      Function.update_of_ne (Finset.ne_of_mem_erase <| Finset.mem_val.mp hj) ..
  rw [map_univ_eq_cons (f := f) (i := i), map_univ_eq_cons (f := Function.update f i a) (i := i), ho,
    Function.update_self, Multiset.cons_swap]

variable [NeZero n]

def push (r : RingBuffer α n) (a : α) : RingBuffer α n where
  slots := Function.update r.slots (Fin.ofNat n r.head) a
  head  := r.head + 1
  count := if r.count < n then r.count + 1 else r.count

-- What the slots hold after the values `as` have been pushed.
structure Holds (r : RingBuffer α n) (d : α) (as : List α) : Prop where
  head  : r.head = as.length
  count : r.count = min as.length n
  slot  : ∀ k (hk : k < as.length), as.length ≤ k + n → r.slots (Fin.ofNat n k) = as[k]
  fresh : ∀ i : Fin n, as.length ≤ i → r.slots i = d

theorem holds_empty : (empty d : RingBuffer α n).Holds d [] where
  head  := rfl
  count := (Nat.zero_min n).symm
  slot  := fun _ hk => absurd hk <| Nat.not_lt_zero _
  fresh := fun _ _ => rfl

theorem ofNat_ne {j k : Nat} (hj : j < k) (hk : k < j + n) : Fin.ofNat n j ≠ Fin.ofNat n k := by
  intro he
  have hm : k % n = j % n := (congrArg Fin.val he).symm
  have hd := Nat.dvd_of_mod_eq_zero <| Nat.sub_mod_eq_zero_of_mod_eq hm
  exact absurd (Nat.le_of_dvd (by omega) hd) (by omega)

theorem Holds.push (h : r.Holds d as) : (r.push a).Holds d (as ++ [a]) where
  head  := by simp [RingBuffer.push, h.head]
  count := by
    have := h.count
    simp only [RingBuffer.push, List.length_append, List.length_singleton]
    split <;> omega
  slot  := fun k hk hn => by
    rw [List.length_append, List.length_singleton] at hk hn
    simp only [RingBuffer.push, h.head]
    rcases Nat.lt_succ_iff_lt_or_eq.mp hk with hk | rfl
    case inl =>
      rw [Function.update_of_ne <| ofNat_ne hk (by omega), List.getElem_append_left hk]
      exact h.slot k hk (by omega)
    case inr => simp
  fresh := fun i hi => by
    rw [List.length_append, List.length_singleton] at hi
    have hl : i ≠ Fin.ofNat n as.length := fun he => by
      have := congrArg Fin.val he
      rw [Fin.val_ofNat, Nat.mod_eq_of_lt (by omega)] at this
      omega
    simp only [RingBuffer.push, h.head]
    rw [Function.update_of_ne hl]
    exact h.fresh i (by omega)

-- The slot that the next value will take.

theorem Holds.next_fresh (h : r.Holds d as) (hn : as.length < n) :
    r.slots (Fin.ofNat n r.head) = d := by
  refine h.fresh _ ?_
  rw [h.head, Fin.val_ofNat, Nat.mod_eq_of_lt hn]

theorem Holds.next_full (h : r.Holds d as) (hn : n ≤ as.length) :
    as.drop (as.length - n) =
      r.slots (Fin.ofNat n r.head) :: as.drop (as.length - n + 1) := by
  have hp := Nat.pos_of_ne_zero <| NeZero.ne n
  have hk : as.length - n < as.length := by omega
  have he : Fin.ofNat n r.head = Fin.ofNat n (as.length - n) := by
    apply Fin.ext
    rw [Fin.val_ofNat, Fin.val_ofNat, h.head, Nat.mod_eq_sub_mod hn]
  rw [he, h.slot _ hk (by omega)]
  exact List.drop_eq_getElem_cons hk

def pushAll (d : α) (as : List α) : RingBuffer α n :=
  as.foldl push (empty d)

theorem pushAll_concat : pushAll d (as ++ [a]) = (pushAll d as : RingBuffer α n).push a := by
  rw [pushAll, List.foldl_append]
  rfl

theorem holds_pushAll : (pushAll d as : RingBuffer α n).Holds d as := by
  induction as using List.reverseRecOn
  case nil => exact holds_empty
  case append_singleton as a ih =>
    rw [pushAll_concat]
    exact ih.push

-- The last `n` values are there and, as long as there are fewer, what was there at the start.
theorem contents_pushAll : (pushAll d as : RingBuffer α n).contents =
    as.rtake n + Multiset.replicate (n - as.length) d := by
  induction as using List.reverseRecOn
  case nil =>
    have hn : (Finset.univ : Finset (Fin n)).val.card = n := Fintype.card_fin n
    simp [pushAll, empty, contents, List.rtake, hn]
  case append_singleton as a ih =>
    have h : (pushAll d as : RingBuffer α n).Holds d as := holds_pushAll
    have hc := cons_map_update (f := (pushAll d as : RingBuffer α n).slots) (a := a)
      (i := Fin.ofNat n (pushAll d as : RingBuffer α n).head)
    change _ ::ₘ ((pushAll d as).push a).contents = a ::ₘ (pushAll d as).contents at hc
    rw [← pushAll_concat, ih] at hc
    have hp : ((as.drop (as.length + 1 - n) ++ [a] : List α) : Multiset α) =
        a ::ₘ (as.drop (as.length + 1 - n) : Multiset α) :=
      Multiset.coe_eq_coe.mpr <| List.perm_append_singleton ..
    rw [List.rtake, List.length_append, List.length_singleton,
      List.drop_append_of_le_length (by have := NeZero.ne n; omega), hp]
    rcases Nat.lt_or_ge as.length n with hn | hn
    case inl =>
      rw [h.next_fresh hn, List.rtake, show n - as.length = n - (as.length + 1) + 1 by omega,
        show as.length - n = as.length + 1 - n by omega, Multiset.replicate_succ, Multiset.add_cons,
        Multiset.cons_swap] at hc
      rw [(Multiset.cons_inj_right d).mp hc, Multiset.cons_add]
    case inr =>
      rw [List.rtake, h.next_full hn, ← Multiset.cons_coe, Multiset.cons_add, Multiset.cons_swap,
        show as.length - n + 1 = as.length + 1 - n by omega,
        show n - as.length = n - (as.length + 1) by omega] at hc
      rw [(Multiset.cons_inj_right _).mp hc, Multiset.cons_add]

end RingBuffer
