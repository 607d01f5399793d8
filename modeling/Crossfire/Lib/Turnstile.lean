import Mathlib.Data.Fintype.Card
import Mathlib.Data.Finset.Card
import Mathlib.Order.Interval.Finset.Nat

/-!
# Gates that serve tickets in order

At each gate tickets are drawn in order (`next` is the next one to draw) and served in order
(`served` is the one whose turn it is). Every ticket that is drawn and not served is held by exactly
one party. A party sees only the ticket whose turn it is modulo some `M`. When fewer than `M`
parties hold tickets that is enough: equal remainders mean that it is its turn (`InTurn.turn`).
-/

set_option autoImplicit false

namespace Crossfire.Lib.Turnstile

open Function

variable {ι κ : Type}

/-- The tickets drawn and not yet served are held, each by one party. -/
structure InTurn (holds : ι → Option (κ × Nat)) (served next : κ → Nat) : Prop where
  unique : ∀ i j p, holds i = some p → holds j = some p → i = j
  held : ∀ i g q, holds i = some (g, q) → served g ≤ q ∧ q < next g
  covered : ∀ g q, served g ≤ q → q < next g → ∃ i, holds i = some (g, q)
  le : ∀ g, served g ≤ next g

variable {holds : ι → Option (κ × Nat)} {served next : κ → Nat} {i : ι} {g : κ} {q M : Nat}

/-- The remainders agree only for the party whose turn it is. -/
theorem InTurn.turn [Fintype ι] (h : InTurn holds served next)
    (hfew : (Finset.univ.filter fun j => (holds j).isSome).card < M) (hi : holds i = some (g, q))
    (hmod : served g % M = q % M) : served g = q := by
  obtain ⟨hle, hlt⟩ := h.held i g q hi
  by_contra hne
  -- the `M` tickets from the one served on are all held
  have hfar : served g + M ≤ q := by
    have hdvd : M ∣ q - served g := Nat.dvd_of_mod_eq_zero (Nat.sub_mod_eq_zero_of_mod_eq hmod.symm)
    have := Nat.le_of_dvd (by omega) hdvd
    omega
  have hheld (r : Nat) : ∃ j, r ∈ Finset.Ico (served g) (served g + M) → holds j = some (g, r) := by
    by_cases hr : r ∈ Finset.Ico (served g) (served g + M)
    · obtain ⟨hlo, hhi⟩ := Finset.mem_Ico.mp hr
      obtain ⟨j, hj⟩ := h.covered g r hlo (by omega)
      exact ⟨j, fun _ => hj⟩
    · exact ⟨i, fun hr' => absurd hr' hr⟩
  choose f hf using hheld
  have hcard : (Finset.Ico (served g) (served g + M)).card ≤
      (Finset.univ.filter fun j => (holds j).isSome).card := by
    refine Finset.card_le_card_of_injOn f ?_ ?_
    · intro r hr
      rw [Finset.mem_coe, Finset.mem_filter, hf r hr]
      exact ⟨Finset.mem_univ _, rfl⟩
    · intro r hr r' hr' heq
      have hsame := (hf r hr).symm.trans ((congrArg holds heq).trans (hf r' hr'))
      simpa using hsame
  rw [Nat.card_Ico] at hcard
  omega

variable [DecidableEq ι] [DecidableEq κ]

/-- A party draws the next ticket. -/
theorem InTurn.draw (h : InTurn holds served next) (hi : holds i = none) :
    InTurn (update holds i (some (g, next g))) served
      (update next g (next g + 1)) := by
  have hself : update holds i (some (g, next g)) i = some (g, next g) :=
    update_self ..
  have hother {j : ι} (hj : j ≠ i) : update holds i (some (g, next g)) j = holds j :=
    update_of_ne hj ..
  have hfresh (j : ι) : holds j ≠ some (g, next g) := fun hj =>
    absurd (h.held j g _ hj).2 (Nat.lt_irrefl _)
  have hnext (g' : κ) : next g' ≤ update next g (next g + 1) g' := by
    by_cases hg : g' = g
    · subst hg
      rw [update_self]
      exact Nat.le_succ _
    · rw [update_of_ne hg]
  refine ⟨?_, ?_, ?_, fun g' => (h.le g').trans (hnext g')⟩
  · intro a b p ha hb
    by_cases hai : a = i <;> by_cases hbi : b = i
    · rw [hai, hbi]
    · rw [hai, hself] at ha
      rw [hother hbi] at hb
      exact absurd (ha ▸ hb) (hfresh b)
    · rw [hbi, hself] at hb
      rw [hother hai] at ha
      exact absurd (hb ▸ ha) (hfresh a)
    · rw [hother hai] at ha
      rw [hother hbi] at hb
      exact h.unique a b p ha hb
  · intro j g' q' hj
    by_cases hji : j = i
    · rw [hji, hself, Option.some.injEq, Prod.mk.injEq] at hj
      obtain ⟨rfl, rfl⟩ := hj
      rw [update_self]
      exact ⟨h.le _, Nat.lt_succ_self _⟩
    · rw [hother hji] at hj
      obtain ⟨hle, hlt⟩ := h.held j g' q' hj
      exact ⟨hle, hlt.trans_le (hnext g')⟩
  · intro g' q' hle hlt
    -- the new ticket is held by `i`, every other one as before
    by_cases hnew : g' = g ∧ q' = next g
    · obtain ⟨rfl, rfl⟩ := hnew
      exact ⟨i, hself⟩
    · have hold : q' < next g' := by
        by_cases hg : g' = g
        · subst hg
          rw [update_self] at hlt
          have hne : q' ≠ next g' := fun hq => hnew ⟨rfl, hq⟩
          omega
        · rwa [update_of_ne hg] at hlt
      obtain ⟨j, hj⟩ := h.covered g' q' hle hold
      have hji : j ≠ i := by
        rintro rfl
        rw [hi] at hj
        cases hj
      exact ⟨j, by rw [hother hji, hj]⟩

/-- The party whose turn it is leaves and the next ticket is served. -/
theorem InTurn.leave (h : InTurn holds served next) (hi : holds i = some (g, served g)) :
    InTurn (update holds i none) (update served g (served g + 1)) next := by
  have hself : update holds i none i = none := update_self ..
  have hother {j : ι} (hj : j ≠ i) : update holds i none j = holds j :=
    update_of_ne hj ..
  have hwas {j : ι} {p : κ × Nat} (hj : update holds i none j = some p) :
      j ≠ i ∧ holds j = some p := by
    by_cases hji : j = i
    · rw [hji, hself] at hj
      cases hj
    · exact ⟨hji, by rwa [hother hji] at hj⟩
  refine ⟨?_, ?_, ?_, ?_⟩
  · intro a b p ha hb
    exact h.unique a b p (hwas ha).2 (hwas hb).2
  · intro j g' q' hj
    obtain ⟨hji, hj⟩ := hwas hj
    obtain ⟨hle, hlt⟩ := h.held j g' q' hj
    refine ⟨?_, hlt⟩
    by_cases hg : g' = g
    · subst hg
      -- the ticket served was unique
      have hne : q' ≠ served g' := by
        rintro rfl
        exact hji (h.unique j i _ hj hi)
      rw [update_self]
      omega
    · rwa [update_of_ne hg]
  · intro g' q' hle hlt
    have hpast : served g' ≤ q' ∧ (g', q') ≠ (g, served g) := by
      by_cases hg : g' = g
      · subst hg
        rw [update_self] at hle
        refine ⟨by omega, fun heq => ?_⟩
        have := congrArg Prod.snd heq
        simp only at this
        omega
      · rw [update_of_ne hg] at hle
        exact ⟨hle, fun heq => hg (congrArg Prod.fst heq)⟩
    obtain ⟨j, hj⟩ := h.covered g' q' hpast.1 hlt
    have hji : j ≠ i := by
      rintro rfl
      rw [hi, Option.some.injEq] at hj
      exact hpast.2 hj.symm
    exact ⟨j, by rw [hother hji, hj]⟩
  · intro g'
    by_cases hg : g' = g
    · subst hg
      rw [update_self]
      exact (h.held i g' _ hi).2
    · rw [update_of_ne hg]
      exact h.le g'

end Crossfire.Lib.Turnstile
