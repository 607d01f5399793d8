import Crossfire.Lib.Slots

/-!
# Slots that are claimed by writers and by readers

A ring of `cap` slots whose stamps tell writers and readers apart: the stamp `free k` admits the
writer of message `k`, the stamp `full k` its reader, and the reader leaves `free (k + cap)` behind.
Writers and readers claim messages in order, but may stall between the claim and the access, and
readers may finish in any order. `Phased` says in which of its phases every slot is. The two lemmas
that a queue needs are `Phased.free_of_stamp` and `Phased.published_of_stamp`: a stamp that admits
the next writer or the next reader means that the slot is free or holds its message.
-/

set_option autoImplicit false

namespace Crossfire.Lib.Cells

open Lib.Slots Function

variable {ι V : Type}

/-- The stamps of a slot in successive phases differ. -/
structure Stamps (cap : Nat) (free full : Nat → Nat) : Prop where
  pos : 0 < cap
  lap : ∀ k, free k ≠ free (k + cap)
  fullLap : ∀ k, full k ≠ full (k + cap)
  write : ∀ k, free k ≠ full k
  read : ∀ k, full k ≠ free (k + cap)

/-- The phases of the slots; `writes` and `reads` give the message each party has claimed. -/
structure Phased (cap : Nat) (free full : Nat → Nat) (writes reads : ι → Option Nat)
    (pushed : List V) (claimed : Nat) (value : Nat → Option V) (stamp : Nat → Nat) : Prop where
  le : claimed ≤ pushed.length
  room : pushed.length ≤ claimed + cap
  writeUnique : ∀ i j k, writes i = some k → writes j = some k → i = j
  readUnique : ∀ i j k, reads i = some k → reads j = some k → i = j
  writeLt : ∀ i k, writes i = some k → claimed ≤ k ∧ k < pushed.length
  readLt : ∀ i k, reads i = some k → k < claimed ∧ pushed.length ≤ k + cap
  writing : ∀ i k, writes i = some k → stamp (k % cap) = free k
  holding : ∀ k, claimed ≤ k → k < pushed.length → (∀ i, writes i ≠ some k) →
    stamp (k % cap) = full k ∧ value (k % cap) = pushed[k]?
  reading : ∀ i k, reads i = some k → stamp (k % cap) = full k ∧ value (k % cap) = pushed[k]?
  freed : ∀ k, k < claimed → pushed.length ≤ k + cap → (∀ i, reads i ≠ some k) →
    stamp (k % cap) = free (k + cap)
  unused : ∀ k, pushed.length ≤ k → k < cap → stamp k = free k

/-- The slot of the next message is free. -/
def Free (cap : Nat) (reads : ι → Option Nat) (pushed claimed : Nat) : Prop :=
  pushed < cap ∨ ∃ k, pushed = k + cap ∧ k < claimed ∧ ∀ i, reads i ≠ some k

variable {cap : Nat} {free full : Nat → Nat} {writes reads : ι → Option Nat} {pushed : List V}
  {claimed : Nat} {value : Nat → Option V} {stamp : Nat → Nat} {i : ι} {k : Nat} {v : V}

/-- The empty ring. -/
theorem phased_nil (hfree : ∀ k, k < cap → k = free k) :
    Phased cap free full (fun _ : ι => none) (fun _ => none) ([] : List V) 0 value fun i => i := by
  refine ⟨Nat.le_refl _, Nat.zero_le _, nofun, nofun, nofun, nofun, nofun, ?_, nofun, ?_, ?_⟩
  · intro k _ hk
    exact absurd hk (Nat.not_lt_zero k)
  · intro k hk
    exact absurd hk (Nat.not_lt_zero k)
  · intro k _ hk
    exact hfree k hk

section Phases

variable (h : Phased cap free full writes reads pushed claimed value stamp)

include h

/-- The stamp of a free slot. -/
theorem Phased.stamp_of_free (hfree : Free cap reads pushed.length claimed) :
    stamp (pushed.length % cap) = free pushed.length := by
  rcases hfree with hlt | ⟨k, hk, hclaimed, hnone⟩
  · rw [Nat.mod_eq_of_lt hlt]
    exact h.unused _ (Nat.le_refl _) hlt
  · rw [hk, Nat.add_mod_right]
    exact h.freed k hclaimed (by omega) hnone

/-- **The stamp of the next writer means that the slot is free.** -/
theorem Phased.free_of_stamp (hs : Stamps cap free full)
    (hstamp : stamp (pushed.length % cap) = free pushed.length) :
    Free cap reads pushed.length claimed := by
  rcases Nat.lt_or_ge pushed.length cap with hlt | hge
  · exact .inl hlt
  obtain ⟨k, hk⟩ : ∃ k, pushed.length = k + cap := ⟨pushed.length - cap, by omega⟩
  rw [hk, Nat.add_mod_right] at hstamp
  have hpos := hs.pos
  -- the last message of the slot is written and unclaimed, or claimed and unread, or gone
  rcases Nat.lt_or_ge k claimed with hclaimed | hunclaimed
  · refine .inr ⟨k, hk, hclaimed, fun i hi => ?_⟩
    rw [(h.reading i k hi).1] at hstamp
    exact hs.read k hstamp
  · exfalso
    by_cases hwrites : ∃ i, writes i = some k
    · obtain ⟨i, hi⟩ := hwrites
      rw [h.writing i k hi] at hstamp
      exact hs.lap k hstamp
    · have hnone : ∀ i, writes i ≠ some k := fun i hi => hwrites ⟨i, hi⟩
      rw [(h.holding k hunclaimed (by omega) hnone).1] at hstamp
      exact hs.read k hstamp

/-- **The stamp of the next reader means that its message is there.** -/
theorem Phased.published_of_stamp (hs : Stamps cap free full)
    (hstamp : stamp (claimed % cap) = full claimed) :
    claimed < pushed.length ∧ ∀ i, writes i ≠ some claimed := by
  have hle := h.le
  have hpos := hs.pos
  rcases Nat.lt_or_ge claimed pushed.length with hlt | hge
  · refine ⟨hlt, fun i hi => ?_⟩
    rw [h.writing i claimed hi] at hstamp
    exact hs.write claimed hstamp
  · exfalso
    obtain rfl : claimed = pushed.length := by omega
    rcases Nat.lt_or_ge pushed.length cap with hlt | hge
    · rw [Nat.mod_eq_of_lt hlt, h.unused _ (Nat.le_refl _) hlt] at hstamp
      exact hs.write _ hstamp
    · obtain ⟨k, hk⟩ : ∃ k, pushed.length = k + cap := ⟨pushed.length - cap, by omega⟩
      rw [hk, Nat.add_mod_right] at hstamp
      by_cases hreads : ∃ i, reads i = some k
      · obtain ⟨i, hi⟩ := hreads
        rw [(h.reading i k hi).1] at hstamp
        exact hs.fullLap k hstamp
      · have hnone : ∀ i, reads i ≠ some k := fun i hi => hreads ⟨i, hi⟩
        rw [h.freed k (by omega) (by omega) hnone] at hstamp
        exact hs.write _ hstamp

/-- Nobody reads where a writer is. -/
theorem Phased.write_ne_read {j : ι} {k' : Nat} (hi : writes i = some k) (hj : reads j = some k') :
    k % cap ≠ k' % cap := by
  obtain ⟨h1, h2⟩ := h.writeLt i k hi
  obtain ⟨h3, h4⟩ := h.readLt j k' hj
  have hle := h.le
  have hroom := h.room
  exact (mod_ne (by omega) (by omega)).symm

/-- Two writers are at different slots. -/
theorem Phased.write_ne_write {j : ι} {k' : Nat} (hi : writes i = some k) (hj : writes j = some k')
    (hne : k ≠ k') : k % cap ≠ k' % cap := by
  obtain ⟨h1, h2⟩ := h.writeLt i k hi
  obtain ⟨h3, h4⟩ := h.writeLt j k' hj
  have hroom := h.room
  exact fun heq => hne (eq_of_mod h2 (by omega) h4 (by omega) heq)

/-- The value: nobody else is at the slot. -/
theorem Phased.write (hi : writes i = some k) :
    Phased cap free full writes reads pushed claimed (update value (k % cap) (some v))
      stamp := by
  obtain ⟨hge, hlt⟩ := h.writeLt i k hi
  have hroom := h.room
  refine { h with holding := fun k' hge' hlt' hnone => ?_, reading := fun j k' hj => ?_ }
  · have hne : k' % cap ≠ k % cap := by
      intro heq
      obtain rfl := eq_of_mod hlt' (by omega) hlt (by omega) heq
      exact hnone i hi
    rw [update_of_ne hne]
    exact h.holding k' hge' hlt' hnone
  · rw [update_of_ne (h.write_ne_read hi hj).symm]
    exact h.reading j k' hj

variable [DecidableEq ι]

/-- A writer claims the next message. -/
theorem Phased.claim (hs : Stamps cap free full) (hi : writes i = none)
    (hfree : Free cap reads pushed.length claimed) :
    Phased cap free full (update writes i (some pushed.length)) reads (pushed ++ [v]) claimed
      value stamp := by
  have hle := h.le
  have hroom := h.room
  have hpos := hs.pos
  have hlen : (pushed ++ [v]).length = pushed.length + 1 := by simp
  have hself : update writes i (some pushed.length) i = some pushed.length :=
    update_self ..
  have hother {j : ι} (hj : j ≠ i) :
      update writes i (some pushed.length) j = writes j := update_of_ne hj ..
  have hwas {j : ι} {k : Nat} (hj : update writes i (some pushed.length) j = some k) :
      j = i ∧ k = pushed.length ∨ j ≠ i ∧ writes j = some k := by
    by_cases hji : j = i
    · rw [hji, hself] at hj
      exact .inl ⟨hji, (Option.some.inj hj).symm⟩
    · exact .inr ⟨hji, by rwa [hother hji] at hj⟩
  have hget {k : Nat} (hk : k < pushed.length) : (pushed ++ [v])[k]? = pushed[k]? :=
    List.getElem?_append_left hk
  -- no one still reads the message of the lap before
  have hunread (j : ι) (k : Nat) (hj : reads j = some k) : pushed.length < k + cap := by
    have hlt := (h.readLt j k hj).2
    rcases hfree with hsmall | ⟨k', hk', _, hnone⟩
    · omega
    · have hne : k ≠ k' := fun heq => hnone j (heq ▸ hj)
      omega
  refine ⟨by omega, ?_, ?_, h.readUnique, ?_, ?_, ?_, ?_, ?_, ?_, ?_⟩
  · rcases hfree with hsmall | ⟨k', hk', hlt, _⟩ <;> omega
  · intro a b k ha hb
    rcases hwas ha with ⟨hai, hk⟩ | ⟨hai, ha⟩ <;> rcases hwas hb with ⟨hbi, hk'⟩ | ⟨hbi, hb⟩
    · rw [hai, hbi]
    · have := (h.writeLt b k hb).2
      omega
    · have := (h.writeLt a k ha).2
      omega
    · exact h.writeUnique a b k ha hb
  · intro j k hj
    rcases hwas hj with ⟨_, rfl⟩ | ⟨_, hj⟩
    · omega
    · have := h.writeLt j k hj
      omega
  · intro j k hj
    have h1 := (h.readLt j k hj).1
    have h2 := hunread j k hj
    omega
  · intro j k hj
    rcases hwas hj with ⟨_, rfl⟩ | ⟨_, hj⟩
    · exact h.stamp_of_free hfree
    · exact h.writing j k hj
  · intro k hge hlt hnone
    have hne : k ≠ pushed.length := by
      rintro rfl
      exact hnone i hself
    have hnone' : ∀ j, writes j ≠ some k := by
      intro j
      by_cases hji : j = i
      · rw [hji, hi]
        nofun
      · rw [← hother hji]
        exact hnone j
    rw [hget (by omega)]
    exact h.holding k hge (by omega) hnone'
  · intro j k hj
    have := (h.readLt j k hj).1
    rw [hget (by omega)]
    exact h.reading j k hj
  · intro k hlt hlast hnone
    exact h.freed k hlt (by omega) hnone
  · intro k hge hlt
    exact h.unused k (by omega) hlt

/-- A writer publishes its message. -/
theorem Phased.publish (hi : writes i = some k) (hvalue : value (k % cap) = pushed[k]?) :
    Phased cap free full (update writes i none) reads pushed claimed value
      (update stamp (k % cap) (full k)) := by
  obtain ⟨hge, hlt⟩ := h.writeLt i k hi
  have hle := h.le
  have hroom := h.room
  have hself : update writes i none i = none := update_self ..
  have hother {j : ι} (hj : j ≠ i) : update writes i none j = writes j :=
    update_of_ne hj ..
  have hwas {j : ι} {k' : Nat} (hj : update writes i none j = some k') :
      j ≠ i ∧ writes j = some k' := by
    by_cases hji : j = i
    · rw [hji, hself] at hj
      cases hj
    · exact ⟨hji, by rwa [hother hji] at hj⟩
  refine ⟨h.le, h.room, ?_, h.readUnique, ?_, h.readLt, ?_, ?_, ?_, ?_, ?_⟩
  · intro a b k' ha hb
    exact h.writeUnique a b k' (hwas ha).2 (hwas hb).2
  · intro j k' hj
    exact h.writeLt j k' (hwas hj).2
  · intro j k' hj
    obtain ⟨hji, hj⟩ := hwas hj
    have hne : k' ≠ k := by
      rintro rfl
      exact hji (h.writeUnique j i k' hj hi)
    rw [update_of_ne (h.write_ne_write hj hi hne)]
    exact h.writing j k' hj
  · intro k' hge' hlt' hnone
    by_cases hkk : k' = k
    · subst hkk
      exact ⟨update_self .., hvalue⟩
    · have hnone' : ∀ j, writes j ≠ some k' := by
        intro j hj
        by_cases hji : j = i
        · rw [hji, hi] at hj
          exact hkk (Option.some.inj hj).symm
        · exact hnone j (by rw [hother hji, hj])
      rw [update_of_ne fun heq => hkk (eq_of_mod hlt' (by omega) hlt (by omega) heq)]
      exact h.holding k' hge' hlt' hnone'
  · intro j k' hj
    rw [update_of_ne (h.write_ne_read hi hj).symm]
    exact h.reading j k' hj
  · intro k' hlt' hlast hnone
    rw [update_of_ne (mod_ne (by omega) (by omega))]
    exact h.freed k' hlt' hlast hnone
  · intro k' hge' hlt'
    have hne : k' ≠ k % cap := by
      have := Nat.mod_le k cap
      omega
    rw [update_of_ne hne]
    exact h.unused k' hge' hlt'

/-- A reader claims the next message, which is there. -/
theorem Phased.take (hi : reads i = none) (hlt : claimed < pushed.length)
    (hnone : ∀ j, writes j ≠ some claimed) :
    Phased cap free full writes (update reads i (some claimed)) pushed (claimed + 1) value
      stamp := by
  have hroom := h.room
  have hself : update reads i (some claimed) i = some claimed := update_self ..
  have hother {j : ι} (hj : j ≠ i) : update reads i (some claimed) j = reads j :=
    update_of_ne hj ..
  have hwas {j : ι} {k : Nat} (hj : update reads i (some claimed) j = some k) :
      j = i ∧ k = claimed ∨ j ≠ i ∧ reads j = some k := by
    by_cases hji : j = i
    · rw [hji, hself] at hj
      exact .inl ⟨hji, (Option.some.inj hj).symm⟩
    · exact .inr ⟨hji, by rwa [hother hji] at hj⟩
  refine ⟨hlt, by omega, h.writeUnique, ?_, ?_, ?_, h.writing, ?_, ?_, ?_, h.unused⟩
  · intro a b k ha hb
    rcases hwas ha with ⟨hai, hk⟩ | ⟨hai, ha⟩ <;> rcases hwas hb with ⟨hbi, hk'⟩ | ⟨hbi, hb⟩
    · rw [hai, hbi]
    · have := (h.readLt b k hb).1
      omega
    · have := (h.readLt a k ha).1
      omega
    · exact h.readUnique a b k ha hb
  · intro j k hj
    have := h.writeLt j k hj
    -- the message that is taken has been written
    have hne : k ≠ claimed := fun heq => hnone j (heq ▸ hj)
    omega
  · intro j k hj
    rcases hwas hj with ⟨_, rfl⟩ | ⟨_, hj⟩
    · omega
    · have := h.readLt j k hj
      omega
  · intro k hge hlt' hnone'
    exact h.holding k (by omega) hlt' hnone'
  · intro j k hj
    rcases hwas hj with ⟨_, rfl⟩ | ⟨_, hj⟩
    -- the slot still holds the message
    · exact h.holding k (Nat.le_refl _) hlt hnone
    · exact h.reading j k hj
  · intro k hk hlast hnone'
    have hne : k ≠ claimed := by
      rintro rfl
      exact hnone' i hself
    refine h.freed k (by omega) hlast fun j hj => ?_
    by_cases hji : j = i
    · rw [hji, hi] at hj
      cases hj
    · exact hnone' j (by rw [hother hji, hj])

/-- A reader leaves its slot to the next writer. -/
theorem Phased.release (hi : reads i = some k) :
    Phased cap free full writes (update reads i none) pushed claimed value
      (update stamp (k % cap) (free (k + cap))) := by
  obtain ⟨hlt, hlast⟩ := h.readLt i k hi
  have hle := h.le
  have hroom := h.room
  have hself : update reads i none i = none := update_self ..
  have hother {j : ι} (hj : j ≠ i) : update reads i none j = reads j :=
    update_of_ne hj ..
  have hwas {j : ι} {k' : Nat} (hj : update reads i none j = some k') :
      j ≠ i ∧ reads j = some k' := by
    by_cases hji : j = i
    · rw [hji, hself] at hj
      cases hj
    · exact ⟨hji, by rwa [hother hji] at hj⟩
  refine ⟨h.le, h.room, h.writeUnique, ?_, h.writeLt, ?_, ?_, ?_, ?_, ?_, ?_⟩
  · intro a b k' ha hb
    exact h.readUnique a b k' (hwas ha).2 (hwas hb).2
  · intro j k' hj
    exact h.readLt j k' (hwas hj).2
  · intro j k' hj
    rw [update_of_ne (h.write_ne_read hj hi)]
    exact h.writing j k' hj
  · intro k' hge' hlt' hnone
    rw [update_of_ne (mod_ne (by omega) (by omega)).symm]
    exact h.holding k' hge' hlt' hnone
  · intro j k' hj
    obtain ⟨hji, hj⟩ := hwas hj
    obtain ⟨hlt', hlast'⟩ := h.readLt j k' hj
    have hne : k' ≠ k := by
      rintro rfl
      exact hji (h.readUnique j i k' hj hi)
    rw [update_of_ne fun heq =>
      hne (eq_of_mod (by omega) hlast' (by omega) hlast heq)]
    exact h.reading j k' hj
  · intro k' hlt' hlast' hnone
    by_cases hkk : k' = k
    · rw [hkk, update_self]
    · rw [update_of_ne fun heq =>
        hkk (eq_of_mod (by omega) hlast' (by omega) hlast heq)]
      refine h.freed k' hlt' hlast' fun j hj => ?_
      by_cases hji : j = i
      · rw [hji, hi] at hj
        exact hkk (Option.some.inj hj).symm
      · exact hnone j (by rw [hother hji, hj])
  · intro k' hge' hlt'
    have hne : k' ≠ k % cap := by
      have := Nat.mod_le k cap
      omega
    rw [update_of_ne hne]
    exact h.unused k' hge' hlt'

end Phases

end Crossfire.Lib.Cells
