import Mathlib.Data.List.Basic
import Mathlib.Data.List.Chain
import Mathlib.Order.Basic

/-!
# Going around a list of indices

A scan of `len` entries that starts behind some index and goes around the end sees every entry
within `len` rounds (`mem_ahead`), and the one it starts behind in the last of them
(`not_mem_ahead`).

A choice that starts behind the last one and takes an index no later than `j` comes to `j` within
`len` choices (`mem_of_isChain`).
-/

set_option autoImplicit false

namespace Crossfire.Lib.Cycle

/-- The index after `idx`, around the end. -/
def next (len idx : Nat) : Nat := if len ≤ idx + 1 then 0 else idx + 1

/-- The indices of the next `left` rounds. -/
def ahead (len idx : Nat) : Nat → List Nat
  | 0 => []
  | left + 1 => next len idx :: ahead len (next len idx) left

variable {len idx : Nat}

theorem next_lt (idx : Nat) (h : 0 < len) : next len idx < len := by
  unfold next
  split_ifs <;> omega

theorem next_eq_mod (h : idx < len) : next len idx = (idx + 1) % len := by
  unfold next
  split_ifs with hle
  · have hlast : idx + 1 = len := by omega
    rw [hlast, Nat.mod_self]
  · rw [Nat.mod_eq_of_lt (by omega)]

/-- Behind an index of the list, round `j` sees index `idx + 1 + j` modulo the length. -/
theorem mod_mem_ahead (h : idx < len) {j left : Nat} (hj : j < left) :
    (idx + 1 + j) % len ∈ ahead len idx left := by
  induction left generalizing idx j with
  | zero => exact absurd hj (Nat.not_lt_zero j)
  | succ left ih =>
    cases j with
    | zero =>
      rw [Nat.add_zero, ← next_eq_mod h]
      exact List.mem_cons_self
    | succ j =>
      have hnext := ih (next_lt idx (Nat.zero_lt_of_lt h)) (Nat.lt_of_succ_lt_succ hj)
      rw [next_eq_mod h, Nat.add_assoc, Nat.mod_add_mod] at hnext
      refine List.mem_cons_of_mem _ ?_
      rw [next_eq_mod h]
      convert hnext using 2
      omega

/-- Behind an index of the list, all the others come before it. -/
theorem mem_ahead_of_ne {i : Nat} (h : idx < len) (hi : i < len) (hne : i ≠ idx) :
    i ∈ ahead len idx (len - 1) := by
  by_cases hlt : idx < i
  · have hmem : (idx + 1 + (i - (idx + 1))) % len ∈ ahead len idx (len - 1) :=
      mod_mem_ahead h (by omega)
    rwa [show idx + 1 + (i - (idx + 1)) = i by omega, Nat.mod_eq_of_lt hi] at hmem
  · have hmem : (idx + 1 + (i + len - (idx + 1))) % len ∈ ahead len idx (len - 1) :=
      mod_mem_ahead h (by omega)
    rwa [show idx + 1 + (i + len - (idx + 1)) = i + len by omega, Nat.add_mod_right,
      Nat.mod_eq_of_lt hi] at hmem

/-- What is seen within some rounds is some steps behind. -/
theorem exists_of_mem_ahead (h : idx < len) {i left : Nat} (hi : i ∈ ahead len idx left) :
    ∃ j, j < left ∧ i = (idx + 1 + j) % len := by
  induction left generalizing idx with
  | zero => cases hi
  | succ left ih =>
    rcases List.mem_cons.mp hi with rfl | hmem
    · exact ⟨0, Nat.succ_pos left, next_eq_mod h⟩
    · obtain ⟨j, hj, rfl⟩ := ih (next_lt idx (Nat.zero_lt_of_lt h)) hmem
      refine ⟨j + 1, Nat.succ_lt_succ hj, ?_⟩
      rw [next_eq_mod h, Nat.add_assoc, Nat.mod_add_mod]
      congr 1
      omega

/-- The index behind which a scan starts is not seen before the last round. -/
theorem not_mem_ahead (h : idx < len) {left : Nat} (hleft : left < len) :
    idx ∉ ahead len idx left := by
  intro hmem
  obtain ⟨j, hj, heq⟩ := exists_of_mem_ahead h hmem
  by_cases hwrap : idx + 1 + j < len
  · rw [Nat.mod_eq_of_lt hwrap] at heq
    omega
  · rw [Nat.mod_eq_sub_mod (by omega), Nat.mod_eq_of_lt (by omega)] at heq
    omega

/-- A full round sees every index. -/
theorem mem_ahead {i : Nat} (hi : i < len) : i ∈ ahead len idx len := by
  by_cases h : idx < len
  · by_cases hlt : idx < i
    · have hmem : (idx + 1 + (i - (idx + 1))) % len ∈ ahead len idx len :=
        mod_mem_ahead h (by omega)
      rwa [show idx + 1 + (i - (idx + 1)) = i by omega, Nat.mod_eq_of_lt hi] at hmem
    · have hmem : (idx + 1 + (i + len - (idx + 1))) % len ∈ ahead len idx len :=
        mod_mem_ahead h (by omega)
      rwa [show idx + 1 + (i + len - (idx + 1)) = i + len by omega, Nat.add_mod_right,
        Nat.mod_eq_of_lt hi] at hmem
  · obtain ⟨n, rfl⟩ : ∃ n, len = n + 1 := ⟨len - 1, by omega⟩
    have hnext : next (n + 1) idx = 0 := if_pos (by omega)
    cases i with
    | zero => exact List.mem_cons.mpr (.inl hnext.symm)
    | succ i =>
      have hmem : (0 + 1 + i) % (n + 1) ∈ ahead (n + 1) 0 n :=
        mod_mem_ahead (by omega) (by omega)
      rw [Nat.mod_eq_of_lt (by omega), show 0 + 1 + i = i + 1 by omega] at hmem
      refine List.mem_cons_of_mem _ ?_
      rwa [hnext]

/-! ## How far it is to an index -/

/-- An index at the end of the list stands for the first one. -/
def wrap (len idx : Nat) : Nat := if len ≤ idx then 0 else idx

/-- The number of indices from `start` to `j`, around the end. -/
def rank (len start j : Nat) : Nat := if start ≤ j then j - start else j + len - start

section Rank

variable {start i j : Nat}

theorem wrap_lt (idx : Nat) (h : 0 < len) : wrap len idx < len := by
  unfold wrap
  split_ifs <;> omega

theorem rank_self (start : Nat) : rank len start start = 0 := by
  simp [rank]

theorem rank_lt (hstart : start < len) (hj : j < len) : rank len start j < len := by
  unfold rank
  split_ifs <;> omega

theorem rank_inj (hstart : start < len) (hi : i < len) (hj : j < len)
    (h : rank len start i = rank len start j) : i = j := by
  unfold rank at h
  split_ifs at h <;> omega

/-- The next index is one further, unless the scan is back at its start. -/
theorem rank_succ (hstart : start < len) (hi : i < len) (hlt : rank len start i + 1 < len) :
    rank len start (wrap len (i + 1)) = rank len start i + 1 := by
  unfold rank wrap at *
  split_ifs at * <;> omega

/-- The way to `j` goes by `i`. -/
theorem rank_of_lt (hstart : start < len) (hi : i < len) (hj : j < len)
    (h : rank len start i < rank len start j) :
    rank len (wrap len (i + 1)) j + rank len start i + 1 = rank len start j := by
  unfold rank wrap at *
  split_ifs at * <;> omega

/-- Behind another index it is less than a full round to `j`. -/
theorem rank_of_ne (hi : i < len) (hj : j < len) (hne : i ≠ j) :
    rank len (wrap len (i + 1)) j + 1 < len := by
  unfold rank wrap
  split_ifs <;> omega

/-- Each index of the list is no further than `j`, from the one after the index before it; the
latest comes first. While `j` is left out it comes nearer with every choice. -/
theorem rank_of_isChain {l : List Nat} (hj : j < len) (hl : ∀ i ∈ l, i < len) (hnot : j ∉ l)
    (hchain : l.IsChain fun newer older =>
      rank len (wrap len (older + 1)) newer ≤ rank len (wrap len (older + 1)) j) :
    ∀ i ∈ l.head?, rank len (wrap len (i + 1)) j + l.length < len := by
  induction l with
  | nil => intro i hi; cases hi
  | cons i l ih =>
    intro i' hi'
    cases hi'
    have hi := hl i List.mem_cons_self
    have hne : i ≠ j := fun heq => hnot (heq ▸ List.mem_cons_self)
    obtain ⟨hhead, htail⟩ := List.isChain_cons.mp hchain
    cases l with
    | nil => exact rank_of_ne hi hj hne
    | cons k l =>
      have hrest := ih (fun i' hi' => hl i' (List.mem_cons_of_mem _ hi'))
        (fun hmem => hnot (List.mem_cons_of_mem _ hmem)) htail k rfl
      have hk : k < len := hl k (List.mem_cons_of_mem _ List.mem_cons_self)
      have hstart := wrap_lt (k + 1) (Nat.zero_lt_of_lt hk)
      have hle := hhead k rfl
      have hlt := lt_of_le_of_ne hle fun heq => hne (rank_inj hstart hi hj heq)
      have hstep := rank_of_lt hstart hi hj hlt
      simp only [List.length_cons] at hrest ⊢
      omega

/-- One of `len` such choices is `j`. -/
theorem mem_of_isChain {l : List Nat} (hj : j < len) (hl : ∀ i ∈ l, i < len)
    (hchain : l.IsChain fun newer older =>
      rank len (wrap len (older + 1)) newer ≤ rank len (wrap len (older + 1)) j)
    (hlen : l.length = len) : j ∈ l := by
  by_contra hnot
  cases l with
  | nil => exact absurd hj (hlen ▸ Nat.not_lt_zero j)
  | cons i l =>
    have hlt := rank_of_isChain hj hl hnot hchain i rfl
    omega

end Rank

end Crossfire.Lib.Cycle
