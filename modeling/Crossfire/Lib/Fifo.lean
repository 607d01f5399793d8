import Mathlib.Data.List.Nodup
import Mathlib.Data.List.Range

/-!
# What a queue has handed out

The history of a queue is the list of the values pushed into it and the list of what it handed out:
for each value the position it was taken from and what was found there. A queue delivers when every
position is handed out at most once and with the value pushed there (`Delivers`). A queue with one
consumer hands out the positions in order (`handed`). What was not handed out is `left`, and at the
end the slots of these messages are emptied (`Empties`).
-/

set_option autoImplicit false

namespace Crossfire.Lib.Fifo

variable {V : Type} {pushed : List V} {returned : List (Nat × Option V)} {k n : Nat}

/-- Every position is handed out at most once, and with what was pushed there. -/
structure Delivers (pushed : List V) (returned : List (Nat × Option V)) : Prop where
  once : (returned.map Prod.fst).Nodup
  value : ∀ p ∈ returned, p.1 < pushed.length ∧ p.2 = pushed[p.1]?

theorem delivers_nil : Delivers pushed [] := ⟨List.nodup_nil, nofun⟩

theorem Delivers.push (h : Delivers pushed returned) (v : V) :
    Delivers (pushed ++ [v]) returned := by
  refine ⟨h.once, fun p hp => ?_⟩
  obtain ⟨hlt, hval⟩ := h.value p hp
  refine ⟨by rw [List.length_append]; omega, ?_⟩
  rw [hval, List.getElem?_append_left hlt]

/-- One more message is returned. -/
theorem Delivers.hand (h : Delivers pushed returned) (hk : k < pushed.length)
    (hnew : k ∉ returned.map Prod.fst) : Delivers pushed (returned ++ [(k, pushed[k]?)]) := by
  refine ⟨?_, fun p hp => ?_⟩
  · rw [List.map_append, List.nodup_append]
    refine ⟨h.once, List.nodup_singleton _, ?_⟩
    rintro a ha b hb rfl
    obtain rfl := List.mem_singleton.mp hb
    exact hnew ha
  · rcases List.mem_append.mp hp with hp | hp
    · exact h.value p hp
    · obtain rfl := List.mem_singleton.mp hp
      exact ⟨hk, rfl⟩

/-! ## One consumer -/

/-- The only ticket is redeemed. -/
theorem erase_eq_nil {α : Type*} [DecidableEq α] {l : List α} {a : α} (hle : l.length ≤ 1)
    (ha : a ∈ l) : l.erase a = [] := by
  have hlen := List.length_erase_of_mem ha
  exact List.length_eq_zero_iff.mp (by omega)

theorem only_of_eq_nil {α : Type*} {P : α → Prop} {l : List α} (h : l = []) :
    l.length ≤ 1 ∧ ∀ a ∈ l, P a := by
  rw [h]
  exact ⟨Nat.zero_le _, nofun⟩

/-- The first `n` positions, in order. -/
def handed (pushed : List V) (n : Nat) : List (Nat × Option V) :=
  (List.range n).map fun k => (k, pushed[k]?)

theorem handed_succ (n : Nat) : handed pushed (n + 1) = handed pushed n ++ [(n, pushed[n]?)] := by
  simp [handed, List.range_succ]

theorem handed_push (hn : n ≤ pushed.length) (v : V) :
    handed (pushed ++ [v]) n = handed pushed n := by
  refine List.map_congr_left fun k hk => ?_
  rw [List.getElem?_append_left ((List.mem_range.mp hk).trans_le hn)]

/-- The values handed out in order are the first values pushed. -/
theorem handed_values (hn : n ≤ pushed.length) :
    (handed pushed n).map Prod.snd = (pushed.take n).map some := by
  induction n with
  | zero => rfl
  | succ n ih =>
    have hlt : n < pushed.length := hn
    rw [handed_succ, List.map_append, ih (by omega), List.take_add_one, List.map_append,
      List.getElem?_eq_getElem hlt]
    rfl

/-- The first `n` pushed are handed over in order. -/
theorem delivers_handed (hn : n ≤ pushed.length) : Delivers pushed (handed pushed n) := by
  refine ⟨?_, fun p hp => ?_⟩
  · have hfst : (handed pushed n).map Prod.fst = List.range n := by
      rw [handed, List.map_map]
      exact List.map_id _
    rw [hfst]
    exact List.nodup_range
  · obtain ⟨k, hk, rfl⟩ := List.mem_map.mp hp
    exact ⟨(List.mem_range.mp hk).trans_le hn, rfl⟩

/-! ## What is left -/

theorem mem_handed : k ∈ (handed pushed n).map Prod.fst ↔ k < n := by
  simp [handed]

/-- The positions that were not handed out, in order. -/
def left (pushed : List V) (returned : List (Nat × Option V)) : List Nat :=
  (List.range pushed.length).filter fun k => k ∉ returned.map Prod.fst

/-- What is left, if the first `n` are returned. -/
theorem left_eq (hreturned : ∀ k, k ∈ returned.map Prod.fst ↔ k < n) (hn : n ≤ pushed.length) :
    left pushed returned = List.range' n (pushed.length - n) := by
  have hsplit : List.range pushed.length = List.range n ++ List.range' n (pushed.length - n) := by
    have happend : List.range' 0 n ++ List.range' (0 + n) (pushed.length - n) =
        List.range' 0 (n + (pushed.length - n)) := List.range'_append_1
    rw [Nat.zero_add, Nat.add_sub_cancel' hn] at happend
    rw [List.range_eq_range', List.range_eq_range', happend]
  have hlow : (List.range n).filter (fun k => k ∉ returned.map Prod.fst) = [] := by
    refine List.filter_eq_nil_iff.mpr fun k hk => ?_
    rw [decide_eq_true_iff, not_not, hreturned]
    exact List.mem_range.mp hk
  have hhigh : (List.range' n (pushed.length - n)).filter (fun k => k ∉ returned.map Prod.fst) =
      List.range' n (pushed.length - n) := by
    refine List.filter_eq_self.mpr fun k hk => ?_
    rw [decide_eq_true_iff, hreturned]
    exact Nat.not_lt.mpr (List.mem_range'_1.mp hk).1
  rw [left, hsplit, List.filter_append, hlow, hhigh, List.nil_append]

/-- Of `size` slots exactly those of the messages that are left are emptied, each once. -/
structure Empties (size : Nat) (pushed : List V) (returned : List (Nat × Option V))
    (value : Nat → Option V) (slots : List Nat) : Prop where
  once : slots.Nodup
  bound : ∀ p ∈ slots, p < size
  messages : slots.map value = (left pushed returned).map fun k => pushed[k]?

/-- A window of messages in different slots. -/
theorem empties_window {size : Nat} {value : Nat → Option V} {slot : Nat → Nat}
    (hreturned : ∀ k, k ∈ returned.map Prod.fst ↔ k < n) (hn : n ≤ pushed.length)
    (hslot : ∀ k, slot k < size)
    (hne : ∀ j k, n ≤ j → j < k → k < pushed.length → slot j ≠ slot k)
    (hvalue : ∀ k, n ≤ k → k < pushed.length → value (slot k) = pushed[k]?) :
    Empties size pushed returned value ((List.range' n (pushed.length - n)).map slot) := by
  have hmem {k : Nat} (hk : k ∈ List.range' n (pushed.length - n)) : n ≤ k ∧ k < pushed.length := by
    have := List.mem_range'_1.mp hk
    omega
  refine ⟨?_, ?_, ?_⟩
  · refine List.Nodup.map_on (fun j hj k hk heq => ?_) (List.nodup_range')
    rcases Nat.lt_trichotomy j k with hlt | heq' | hgt
    · exact absurd heq (hne j k (hmem hj).1 hlt (hmem hk).2)
    · exact heq'
    · exact absurd heq.symm (hne k j (hmem hk).1 hgt (hmem hj).2)
  · intro p hp
    obtain ⟨k, _, rfl⟩ := List.mem_map.mp hp
    exact hslot k
  · rw [left_eq hreturned hn, List.map_map]
    exact List.map_congr_left fun k hk => hvalue k (hmem hk).1 (hmem hk).2

end Crossfire.Lib.Fifo
