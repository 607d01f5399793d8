import Crossfire.Multiplex.Steps

/-!
# The unchecked indices of `Multiplex`

Three sources feed `get_unchecked`: `last_idx`, the step of a scan around the end of the list, and
the hint of a sender, behind which a scan starts. A step around the end lands in the list whatever
it starts from, as long as the list is not empty, and a scan of an empty list has no rounds. What
is left is `_try_select_cached`, which asks the channel at `last_idx` first: without any channel
that is index 0 of an empty list (`recv_without_channel`). With a channel for every blocking receive
all indices are in bounds (`index_in_bounds`).
-/

set_option autoImplicit false

namespace Crossfire.Multiplex

open Lib.Cycle Lib.Interleaving

section Bounds

variable {ι V : Type}

/-- A blocking receive starts with a channel in the list. -/
def addedOk (s : St ι V) : Act ι V → Prop
  | .call .recv | .call (.recvTimeout false) => 0 < s.len
  | _ => True

instance (s : St ι V) : (a : Act ι V) → Decidable (addedOk s a)
  | .call .recv | .call (.recvTimeout false) => inferInstanceAs (Decidable (0 < s.len))
  | .call (.recvTimeout true) | .call .tryRecv | .add _ _ _ | .go _ | .clone _ _ | .upgrade _ _
  | .send _ _ | .dropTx _ | .goSender _ _ => instDecidableTrue

/-- The place of the consumer is in the list, and a scan goes around it once at most. -/
structure Placed (s : St ι V) : Prop where
  last : 0 < s.len → s.lastIdx < s.len
  count : s.len = 0 → s.count = 0
  rounds : s.pc.rounds ≤ s.len

/-- No index is out of bounds. -/
structure Bounded (s : St ι V) : Prop extends Placed s where
  cached : s.pc = .cached → 0 < s.len
  inBounds : s.outOfBounds = false

variable {s t : St ι V}

theorem placed_new : Placed (St.new : St ι V) where
  last h := absurd h (Nat.lt_irrefl 0)
  count _ := rfl
  rounds := Nat.le_refl 0

theorem Placed.still (h : Placed s) (hstill : Still s t) (hrounds : t.pc.rounds ≤ s.len) :
    Placed t where
  last hlen := by
    rw [hstill.len] at hlen ⊢
    rw [hstill.lastIdx]
    exact h.last hlen
  count hlen := by
    rw [hstill.len] at hlen
    rw [hstill.count]
    exact h.count hlen
  rounds := by rwa [hstill.len]

/-- A scan with a round to go is one of a list that is not empty. -/
theorem Placed.next_lt (h : Placed s) {k : Scan} {start idx left : Nat}
    (hpc : s.pc = .scan k start idx (left + 1)) : left < s.len ∧ next s.len idx < s.len := by
  have hle := h.rounds
  rw [hpc] at hle
  exact ⟨hle, Lib.Cycle.next_lt idx (Nat.zero_lt_of_lt hle)⟩

/-- A channel with a budget is one of the list. -/
theorem Placed.last_lt (h : Placed s) (hbudget : 0 < s.count) : s.lastIdx < s.len := by
  refine h.last (Nat.pos_of_ne_zero fun hlen => ?_)
  rw [h.count hlen] at hbudget
  exact Nat.lt_irrefl 0 hbudget

/-- A step of the receiver. -/
theorem placed_of_goes (h : Placed s) (hgoes : Goes s t) : Placed t := by
  cases hgoes with
  | cachedHit v rest hpc hbudget =>
    have hlt := h.last_lt hbudget
    exact ⟨fun _ => hlt, fun hlen => absurd hlen (Nat.ne_zero_of_lt hlt), Nat.zero_le _⟩
  | cachedMiss n hpc hn =>
    refine ⟨h.last, h.count, ?_⟩
    show n ≤ s.len
    omega
  | tryOpened k => exact ⟨h.last, h.count, Nat.le_refl _⟩
  | hit k start idx left v rest hpc =>
    have hlt := (h.next_lt hpc).2
    exact ⟨fun _ => hlt, fun hlen => absurd hlen (Nat.ne_zero_of_lt hlt), Nat.zero_le _⟩
  | miss k start idx left hpc => exact ⟨h.last, h.count, (h.next_lt hpc).1.le⟩
  | late _ hstill hpc hlate hrounds => exact h.still hstill hrounds
  | returns _ hstill hidle =>
    refine h.still hstill ?_
    rw [hidle]
    exact Nat.zero_le _

theorem rounds_startPc (c : Call) : (startPc c : Pc V).rounds = 0 := by
  cases c with
  | recv | tryRecv => rfl
  | recvTimeout overflow => cases overflow <;> rfl

/-- Every action keeps the place in range. -/
theorem placed_of_turns [DecidableEq ι] {a : Act ι V} (h : Placed s) (hturns : Turns s a t) :
    Placed t := by
  cases hturns with
  | call c => exact ⟨h.last, h.count, (rounds_startPc c).trans_le (Nat.zero_le _)⟩
  | add j cap weight hidle =>
    refine ⟨fun _ => Nat.lt_succ_self s.len, fun hlen => absurd hlen (Nat.succ_ne_zero s.len), ?_⟩
    exact h.rounds.trans (Nat.le_succ s.len)
  | go choice _ hgoes => exact placed_of_goes h hgoes
  | aside a _ _ hstill hpc =>
    refine h.still hstill ?_
    rw [hpc]
    exact h.rounds

/-- The index is in the list. -/
theorem index_safe {i : Nat} (h : s.outOfBounds = false) (hi : i < s.len) :
    (s.index i).outOfBounds = false := by
  simp only [St.index, h, Bool.false_or, decide_eq_false_iff_not]
  omega

/-- The receiver indexes inside the list. -/
theorem inBounds_of_goes (h : Bounded s) (hgoes : Goes s t) : t.outOfBounds = false := by
  cases hgoes with
  | cachedHit _ _ hpc | cachedMiss _ hpc => exact index_safe h.inBounds (h.last (h.cached hpc))
  | hit _ _ _ _ _ _ hpc | miss _ _ _ _ hpc => exact index_safe h.inBounds (h.next_lt hpc).2
  | tryOpened k => exact h.inBounds
  | late _ hstill | returns _ hstill => exact hstill.outOfBounds.trans h.inBounds

/-- Only a new call asks the channel at `last_idx`. -/
theorem ne_cached_of_goes (hgoes : Goes s t) : t.pc ≠ .cached := by
  intro hcached
  cases hgoes with
  | late _ _ _ hlate =>
    rw [hcached] at hlate
    cases hlate
  | returns _ _ hidle =>
    rw [hidle] at hcached
    cases hcached
  | cachedHit | cachedMiss | tryOpened | hit | miss => cases hcached

theorem len_of_cached {c : Call} (hok : addedOk s (.call c)) (hpc : (startPc c : Pc V) = .cached) :
    0 < s.len := by
  cases c with
  | recv => exact hok
  | recvTimeout overflow =>
    cases overflow with
    | false => exact hok
    | true => cases hpc
  | tryRecv => cases hpc

/-- **Every action keeps the indices in range.** -/
theorem bounded_of_turns [DecidableEq ι] {a : Act ι V} (h : Bounded s) (hok : addedOk s a)
    (hturns : Turns s a t) : Bounded t := by
  refine ⟨placed_of_turns h.toPlaced hturns, ?_, ?_⟩
  · cases hturns with
    | call c => exact len_of_cached hok
    | add j cap weight hidle => exact fun _ => Nat.succ_pos s.len
    | go choice _ hgoes => exact fun hpc => absurd hpc (ne_cached_of_goes hgoes)
    | aside a _ _ hstill hpc =>
      rw [hpc, hstill.len]
      exact h.cached
  · cases hturns with
    | call | add => exact h.inBounds
    | go choice _ hgoes => exact inBounds_of_goes h hgoes
    | aside a _ _ hstill hpc => exact hstill.outOfBounds.trans h.inBounds

/-- In every run in which a blocking receive starts with at least one channel in the list, every
index that was passed to `get_unchecked` was smaller than the number of channels. The channels may
be added at any time between the calls, with any weight, and the hint is that of any sender. -/
theorem index_in_bounds [DecidableEq ι] (h : Reach (system : System (St ι V) (Act ι V)) addedOk s) :
    s.outOfBounds = false := by
  have hbounded : Bounded s := by
    refine Reach.invariant (P := Bounded) ?_ ?_ h
    · rintro s rfl
      exact ⟨placed_new, fun hpc => (nomatch hpc), rfl⟩
    · exact fun s a t hs hok hstep => bounded_of_turns hs hok (turns_of_step hstep)
  exact hbounded.inBounds

/-- The consumer has come back from `park` with the hint of the second channel, of three, and asks
the third and the first. -/
theorem index_in_bounds_hint :
    ∃ s : St (Fin 3) Nat, Reach system addedOk s ∧ s.hint = 1 ∧
      s.pc = .scan .spin 1 0 1 ∧ s.outOfBounds = false := by
  have hnew : Reach system addedOk (St.new : St (Fin 3) Nat) := .init rfl
  obtain ⟨s, hs, hhint, hpc⟩ := hnew.exists_of_run
    ([.call .tryRecv, .go true, .go true, .go true, .add 0 none 1, .add 1 (some 1) 0, .add 2 none 5,
      .call .recv] ++ List.replicate 18 (.go true) ++ [.send 1 7, .goSender 1 true,
      .goSender 1 true, .goSender 1 true, .goSender 1 true, .goSender 1 true, .goSender 1 false,
      .goSender 1 true] ++ List.replicate 5 (.go true))
    (fun s => s.hint = 1 ∧ s.pc = .scan .spin 1 0 1) (by decide +kernel)
  exact ⟨s, hs, hhint, hpc, index_in_bounds hs⟩

/-- `recv` of a new `Multiplex`, before any channel was added: `_try_select_cached` passes 0 to
`get_unchecked` of an empty list. -/
theorem recv_without_channel :
    ∃ s : St (Fin 1) Nat, Reachable system s ∧ s.len = 0 ∧ s.outOfBounds = true := by
  have hnew : Reachable system (St.new : St (Fin 1) Nat) := .init rfl
  obtain ⟨s, hs, hlen, hout⟩ := hnew.exists_of_run [.call .recv, .go true]
    (fun s => s.len = 0 ∧ s.outOfBounds = true) (by decide +kernel)
  exact ⟨s, hs, hlen, hout⟩

end Bounds

end Crossfire.Multiplex
