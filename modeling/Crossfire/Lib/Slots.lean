import Mathlib.Logic.Function.Basic
import Mathlib.Data.List.Basic

/-!
# Stamped slots

A ring of `cap` slots into which numbered messages are written, message `k` into the slot `k % cap`.
A writer first claims a number, then writes the value, then publishes it by the stamp `stampOf k`;
between the claim and the stamp it may stall. `Stamped` says that among the last `cap` messages
those not claimed by a writer are in their slots under their stamps, and that the stamp of a message
that is still being written is not there yet. So a reader that finds the stamp finds the value.
-/

set_option autoImplicit false

namespace Crossfire.Lib.Slots

open Function

variable {ι V : Type}

/-- Two numbers less than `cap` apart are in different slots. -/
theorem mod_ne {cap j k : Nat} (hlt : j < k) (hk : k < j + cap) : j % cap ≠ k % cap := by
  intro heq
  have hdvd : cap ∣ k - j := Nat.dvd_of_mod_eq_zero (Nat.sub_mod_eq_zero_of_mod_eq heq.symm)
  have hzero := Nat.eq_zero_of_dvd_of_lt hdvd (by omega)
  omega

/-- Two of the last `cap` numbers in one slot are equal. -/
theorem eq_of_mod {cap n j k : Nat} (hj : j < n) (hj' : n ≤ j + cap) (hk : k < n)
    (hk' : n ≤ k + cap) (h : j % cap = k % cap) : j = k := by
  rcases Nat.lt_trichotomy j k with hlt | heq | hgt
  · exact absurd h (mod_ne hlt (by omega))
  · exact heq
  · exact absurd h.symm (mod_ne hgt (by omega))

/-- What is in the slots; `writes` gives the message each writer has claimed. -/
structure Stamped (cap : Nat) (stampOf : Nat → Nat) (writes : ι → Option Nat) (pushed : List V)
    (value : Nat → Option V) (stamp : Nat → Nat) : Prop where
  unique : ∀ i j k, writes i = some k → writes j = some k → i = j
  recent : ∀ i k, writes i = some k → k < pushed.length ∧ pushed.length ≤ k + cap
  published : ∀ k, k < pushed.length → pushed.length ≤ k + cap → (∀ i, writes i ≠ some k) →
    stamp (k % cap) = stampOf k ∧ value (k % cap) = pushed[k]?
  pending : ∀ i k, writes i = some k → stamp (k % cap) ≠ stampOf k
  unused : ∀ i, pushed.length ≤ i → i < cap → stamp i = i

variable {cap : Nat} {stampOf : Nat → Nat} {writes : ι → Option Nat} {pushed : List V}
  {value : Nat → Option V} {stamp : Nat → Nat} {i : ι} {k : Nat} {v : V}

/-- The empty ring. -/
theorem stamped_nil : Stamped cap stampOf (fun _ : ι => none) ([] : List V) value fun i => i := by
  refine ⟨nofun, nofun, ?_, nofun, fun _ _ _ => rfl⟩
  intro k hk
  exact absurd hk (Nat.not_lt_zero k)

/-- The value: nobody else is at the slot. -/
theorem Stamped.write (h : Stamped cap stampOf writes pushed value stamp) (hi : writes i = some k) :
    Stamped cap stampOf writes pushed (update value (k % cap) (some v)) stamp := by
  obtain ⟨hlt, hlast⟩ := h.recent i k hi
  refine ⟨h.unique, h.recent, ?_, h.pending, h.unused⟩
  intro k' hlt' hlast' hfree
  obtain ⟨hstamp, hval⟩ := h.published k' hlt' hlast' hfree
  have hne : k' % cap ≠ k % cap := by
    intro heq
    obtain rfl := eq_of_mod hlt' hlast' hlt hlast heq
    exact hfree i hi
  refine ⟨hstamp, ?_⟩
  rw [update_of_ne hne, hval]

variable [DecidableEq ι]

/-- A claim: the last message of the slot is published, and its stamp is another one. -/
theorem Stamped.claim (h : Stamped cap stampOf writes pushed value stamp) (hcap : 0 < cap)
    (hi : writes i = none) (hfree : ∀ j k, writes j = some k → pushed.length < k + cap)
    (hnext : ∀ k, stampOf k ≠ stampOf (k + cap)) (hfirst : ∀ k, k < cap → k ≠ stampOf k) :
    Stamped cap stampOf (update writes i (some pushed.length)) (pushed ++ [v]) value
      stamp := by
  have hlen : (pushed ++ [v]).length = pushed.length + 1 := by simp
  have hself : update writes i (some pushed.length) i = some pushed.length :=
    update_self ..
  have hother {j : ι} (hj : j ≠ i) :
      update writes i (some pushed.length) j = writes j := update_of_ne hj ..
  have hfresh (j : ι) : writes j ≠ some pushed.length := fun hj =>
    absurd (h.recent j _ hj).1 (Nat.lt_irrefl _)
  refine ⟨?_, ?_, ?_, ?_, ?_⟩
  · intro a b k ha hb
    by_cases hai : a = i <;> by_cases hbi : b = i
    · rw [hai, hbi]
    · rw [hai, hself] at ha
      rw [hother hbi] at hb
      exact absurd (ha ▸ hb) (hfresh b)
    · rw [hbi, hself] at hb
      rw [hother hai] at ha
      exact absurd (hb ▸ ha) (hfresh a)
    · rw [hother hai] at ha
      rw [hother hbi] at hb
      exact h.unique a b k ha hb
  · intro j k hj
    rw [hlen]
    by_cases hji : j = i
    · rw [hji, hself, Option.some.injEq] at hj
      omega
    · rw [hother hji] at hj
      have h1 := (h.recent j k hj).1
      have h2 := hfree j k hj
      omega
  · intro k hk hlast hnone
    have hne : k ≠ pushed.length := by
      rintro rfl
      exact hnone i hself
    have hnone' : ∀ j, writes j ≠ some k := by
      intro j
      by_cases hji : j = i
      · rw [hji, hi]
        nofun
      · rw [← hother hji]
        exact hnone j
    obtain ⟨hstamp, hval⟩ := h.published k (by omega) (by omega) hnone'
    exact ⟨hstamp, by rw [hval, List.getElem?_append_left (by omega)]⟩
  · intro j k hj
    by_cases hji : j = i
    · rw [hji, hself] at hj
      obtain rfl := Option.some.inj hj
      -- the slot holds the message of the lap before, or nothing yet
      by_cases hlap : pushed.length < cap
      · rw [Nat.mod_eq_of_lt hlap, h.unused _ (Nat.le_refl _) hlap]
        exact hfirst _ hlap
      · obtain ⟨k, hk⟩ : ∃ k, pushed.length = k + cap := ⟨pushed.length - cap, by omega⟩
        have hnone : ∀ j, writes j ≠ some k := by
          intro j hj
          have := hfree j k hj
          omega
        have hstamp := (h.published k (by omega) (by omega) hnone).1
        rw [hk, Nat.add_mod_right, hstamp]
        exact hnext k
    · rw [hother hji] at hj
      exact h.pending j k hj
  · intro j hj hlt
    exact h.unused j (by omega) hlt

/-- The stamp: the message is published. -/
theorem Stamped.publish (h : Stamped cap stampOf writes pushed value stamp) (hi : writes i = some k)
    (hvalue : value (k % cap) = pushed[k]?) :
    Stamped cap stampOf (update writes i none) pushed value
      (update stamp (k % cap) (stampOf k)) := by
  obtain ⟨hlt, hlast⟩ := h.recent i k hi
  have hself : update writes i none i = none := update_self ..
  have hother {j : ι} (hj : j ≠ i) : update writes i none j = writes j :=
    update_of_ne hj ..
  have hwas {j : ι} {k' : Nat} (hj : update writes i none j = some k') :
      j ≠ i ∧ writes j = some k' := by
    by_cases hji : j = i
    · rw [hji, hself] at hj
      cases hj
    · exact ⟨hji, by rwa [hother hji] at hj⟩
  refine ⟨?_, ?_, ?_, ?_, ?_⟩
  · intro a b k' ha hb
    exact h.unique a b k' (hwas ha).2 (hwas hb).2
  · intro j k' hj
    exact h.recent j k' (hwas hj).2
  · intro k' hlt' hlast' hfree
    by_cases hkk : k' = k
    · subst hkk
      exact ⟨update_self .., hvalue⟩
    · have hfree' : ∀ j, writes j ≠ some k' := by
        intro j hj
        by_cases hji : j = i
        · rw [hji, hi] at hj
          exact hkk (Option.some.inj hj).symm
        · exact hfree j (by rw [hother hji, hj])
      obtain ⟨hstamp, hval⟩ := h.published k' hlt' hlast' hfree'
      refine ⟨?_, hval⟩
      -- two recent messages never share a slot
      rw [update_of_ne fun heq => hkk (eq_of_mod hlt' hlast' hlt hlast heq), hstamp]
  · intro j k' hj
    obtain ⟨hji, hj⟩ := hwas hj
    obtain ⟨hlt', hlast'⟩ := h.recent j k' hj
    have hkk : k' ≠ k := by
      rintro rfl
      exact hji (h.unique j i k' hj hi)
    rw [update_of_ne fun heq => hkk (eq_of_mod hlt' hlast' hlt hlast heq)]
    exact h.pending j k' hj
  · intro j hj hlt'
    have hne : j ≠ k % cap := by
      have hle := Nat.mod_le k cap
      omega
    rw [update_of_ne hne]
    exact h.unused j hj hlt'

end Crossfire.Lib.Slots
