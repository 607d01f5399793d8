import Mathlib.Logic.Function.Basic

/-!
# Numbers held by parties

A counter hands out the numbers `0, 1, …`, and a party holds a number until it is finished with it.
`Held` says that the numbers held are below the counter and distinct, and `Done` that a number was
handed out and nobody holds it any more. Taking the next number finishes none (`done_take`); giving
a number back finishes just that one (`Held.done_drop`).
-/

set_option autoImplicit false

namespace Crossfire.Lib.Tickets

open Function

variable {ι : Type}

/-- Every ticket is issued and held once. -/
structure Held (count : Nat) (holds : ι → Option Nat) : Prop where
  lt : ∀ i k, holds i = some k → k < count
  unique : ∀ i j k, holds i = some k → holds j = some k → i = j

/-- Ticket `k` was issued and given back. -/
def Done (count : Nat) (holds : ι → Option Nat) (k : Nat) : Prop :=
  k < count ∧ ∀ i, holds i ≠ some k

variable {count k : Nat} {holds holds' : ι → Option Nat} {i : ι}

theorem held_none : Held count fun _ : ι => none := ⟨nofun, nofun⟩

theorem Held.sub (h : Held count holds) (hsub : ∀ j n, holds' j = some n → holds j = some n) :
    Held count holds' :=
  ⟨fun j n hj => h.lt j n (hsub j n hj), fun j j' n hj hj' => h.unique j j' n (hsub j n hj)
    (hsub j' n hj')⟩

theorem not_done_of_holds (hi : holds i = some k) : ¬ Done count holds k := fun h => h.2 i hi

variable [DecidableEq ι]

/-- A party takes the next number. -/
theorem Held.take (h : Held count holds) :
    Held (count + 1) (update holds i (some count)) := by
  have hcases {j : ι} {n : Nat} (hj : update holds i (some count) j = some n) :
      j = i ∧ n = count ∨ holds j = some n ∧ n < count := by
    by_cases hji : j = i
    · rw [hji, update_self] at hj
      exact .inl ⟨hji, (Option.some.inj hj).symm⟩
    · rw [update_of_ne hji] at hj
      exact .inr ⟨hj, h.lt j n hj⟩
  refine ⟨fun j n hj => ?_, fun j j' n hj hj' => ?_⟩
  · rcases hcases hj with ⟨-, rfl⟩ | ⟨-, hlt⟩ <;> omega
  · rcases hcases hj with ⟨rfl, rfl⟩ | ⟨hj, hlt⟩ <;> rcases hcases hj' with ⟨rfl, heq⟩ | ⟨hj', hlt'⟩
    · rfl
    · exact absurd hlt' (Nat.lt_irrefl _)
    · omega
    · exact h.unique j j' n hj hj'

/-- A new ticket is not done. -/
theorem done_take (hi : holds i = none) :
    Done (count + 1) (update holds i (some count)) k ↔ Done count holds k := by
  constructor
  · rintro ⟨hlt, hnone⟩
    have hne : k ≠ count := by
      rintro rfl
      exact hnone i (update_self ..)
    refine ⟨by omega, fun j hj => ?_⟩
    have hji : j ≠ i := by
      rintro rfl
      rw [hi] at hj
      cases hj
    exact hnone j (by rwa [update_of_ne hji])
  · rintro ⟨hlt, hnone⟩
    refine ⟨by omega, fun j hj => ?_⟩
    by_cases hji : j = i
    · rw [hji, update_self] at hj
      have := Option.some.inj hj
      omega
    · rw [update_of_ne hji] at hj
      exact hnone j hj

/-- A party gives its number back. -/
theorem Held.drop (h : Held count holds) : Held count (update holds i none) := by
  refine h.sub fun j n hj => ?_
  by_cases hji : j = i
  · rw [hji, update_self] at hj
    cases hj
  · rwa [update_of_ne hji] at hj

/-- A dropped ticket is done. -/
theorem Held.done_drop (h : Held count holds) (hi : holds i = some k) {n : Nat} :
    Done count (update holds i none) n ↔ Done count holds n ∨ n = k := by
  constructor
  · rintro ⟨hlt, hnone⟩
    by_cases hn : n = k
    · exact .inr hn
    · refine .inl ⟨hlt, fun j hj => ?_⟩
      have hji : j ≠ i := by
        rintro rfl
        exact hn (Option.some.inj (hj.symm.trans hi))
      exact hnone j (by rwa [update_of_ne hji])
  · rintro (⟨hlt, hnone⟩ | rfl)
    · refine ⟨hlt, fun j hj => ?_⟩
      by_cases hji : j = i
      · rw [hji, update_self] at hj
        cases hj
      · rw [update_of_ne hji] at hj
        exact hnone j hj
    · refine ⟨h.lt i n hi, fun j hj => ?_⟩
      by_cases hji : j = i
      · rw [hji, update_self] at hj
        cases hj
      · rw [update_of_ne hji] at hj
        exact hji (h.unique j i n hj hi)

end Crossfire.Lib.Tickets
