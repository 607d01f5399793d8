import Mathlib.Logic.Function.Basic

/-!
# A cleanup that is handed over to the readers

A record of slots is freed once every slot has been read. Slots `0 … m - 1` have two marks: `read`,
set by the reader of the slot when it has finished, and `destroy`. The reader of one more slot, the
last one, starts the cleanup: it goes through the slots in order and frees the record at the end.
At a slot that is not `read` it sets `destroy` and leaves; the reader of that slot, when it sets
`read`, sees the mark and goes on from the next slot.

`cursor i` is the slot that party `i` is about to look at. `Cleanup` is the invariant of the marks,
with one lemma for each operation. A freed record has been read completely (`Cleanup.of_freed`) and
nobody goes through it (`Cleanup.not_freed`), so it is freed once.
-/

set_option autoImplicit false

namespace Crossfire.Lib.Handover

open Function

variable {ι : Type}

/-- How far the clean-up of a block is; `cursor j` is the slot that agent `j` looks at. -/
inductive Cleanup (m : Nat) (last : Prop) (cursor : ι → Option Nat) (read destroy : Nat → Bool)
    (freed : Bool) : Prop
  /-- The reader of the last slot has not finished. -/
  | waiting (hlast : ¬ last) (hcursor : ∀ j, cursor j = none) (hdestroy : ∀ o, destroy o = false)
      (hfreed : freed = false)
  /-- Party `i` is at slot `c`. -/
  | busy (i : ι) (c : Nat) (hlast : last) (hi : cursor i = some c)
      (hcursor : ∀ j, j ≠ i → cursor j = none) (hc : c ≤ m) (hread : ∀ o, o < c → read o = true)
      (hdestroy : ∀ o, c ≤ o → destroy o = false) (hfreed : freed = false)
  /-- The cleanup is left to the reader of slot `c`. -/
  | left (c : Nat) (hlast : last) (hcursor : ∀ j, cursor j = none) (hc : c < m)
      (hread : ∀ o, o < c → read o = true) (hnot : read c = false) (hmark : destroy c = true)
      (hdestroy : ∀ o, c < o → destroy o = false) (hfreed : freed = false)
  | done (hlast : last) (hcursor : ∀ j, cursor j = none) (hread : ∀ o, o < m → read o = true)
      (hfreed : freed = true)

variable {m c : Nat} {last last' : Prop} {cursor : ι → Option Nat} {read destroy : Nat → Bool}
  {freed : Bool} {i : ι}

theorem Cleanup.of_freed (h : Cleanup m last cursor read destroy true) :
    last ∧ ∀ o, o < m → read o = true := by
  cases h with
  | waiting _ _ _ hfreed | busy _ _ _ _ _ _ _ _ hfreed | left _ _ _ _ _ _ _ _ hfreed => cases hfreed
  | done hlast _ hread => exact ⟨hlast, hread⟩

/-- Whoever is at a slot is so alone, and the record is not freed. -/
theorem Cleanup.of_cursor (h : Cleanup m last cursor read destroy freed) (hi : cursor i = some c) :
    last ∧ (∀ j, j ≠ i → cursor j = none) ∧ c ≤ m ∧ (∀ o, o < c → read o = true) ∧
      (∀ o, c ≤ o → destroy o = false) ∧ freed = false := by
  cases h with
  | waiting _ hcursor | left _ _ hcursor | done _ hcursor => rw [hcursor] at hi; cases hi
  | busy i' c' hlast hi' hcursor hc hread hdestroy hfreed =>
    obtain rfl : i = i' := by
      by_contra hne
      rw [hcursor i hne] at hi
      cases hi
    obtain rfl : c' = c := Option.some.inj (hi'.symm.trans hi)
    exact ⟨hlast, hcursor, hc, hread, hdestroy, hfreed⟩

theorem Cleanup.not_freed (h : Cleanup m last cursor read destroy freed) (hi : cursor i = some c) :
    freed = false := (h.of_cursor hi).2.2.2.2.2

theorem Cleanup.congr (h : Cleanup m last cursor read destroy freed) (hlast : last ↔ last') :
    Cleanup m last' cursor read destroy freed := by
  rwa [propext hlast] at h

/-- The mark of a slot that is not read stands there when the cleanup was left to its reader. -/
theorem Cleanup.left_of_mark (h : Cleanup m last cursor read destroy freed)
    (hmark : destroy c = true) (hnot : read c = false) (hc : c < m) :
    last ∧ (∀ j, cursor j = none) ∧ (∀ o, o < c → read o = true) ∧
      (∀ o, c < o → destroy o = false) ∧ freed = false := by
  cases h with
  | waiting _ _ hdestroy => rw [hdestroy] at hmark; cases hmark
  | done _ _ hread => rw [hread c hc] at hnot; cases hnot
  | busy i c' _ _ _ _ hread hdestroy =>
    rcases Nat.lt_or_ge c c' with hlt | hge
    · rw [hread c hlt] at hnot; cases hnot
    · rw [hdestroy c hge] at hmark; cases hmark
  | left c' hlast hcursor _ hread hnot' hmark' hdestroy hfreed =>
    rcases Nat.lt_trichotomy c c' with hlt | rfl | hgt
    · rw [hread c hlt] at hnot; cases hnot
    · exact ⟨hlast, hcursor, hread, hdestroy, hfreed⟩
    · rw [hdestroy c hgt] at hmark; cases hmark

/-- The reader of a slot finishes, and sees no mark. -/
theorem Cleanup.mark (h : Cleanup m last cursor read destroy freed) (hmark : destroy c = false) :
    Cleanup m last cursor (update read c true) destroy freed := by
  have hup {o : Nat} (ho : read o = true) : update read c true o = true := by
    by_cases hoc : o = c
    · rw [hoc, update_self]
    · rwa [update_of_ne hoc]
  cases h with
  | waiting hlast hcursor hdestroy hfreed => exact .waiting hlast hcursor hdestroy hfreed
  | busy i c' hlast hi hcursor hc hread hdestroy hfreed =>
    exact .busy i c' hlast hi hcursor hc (fun o ho => hup (hread o ho)) hdestroy hfreed
  | left c' hlast hcursor hc hread hnot hmark' hdestroy hfreed =>
    have hne : c' ≠ c := by
      rintro rfl
      rw [hmark] at hmark'
      cases hmark'
    exact .left c' hlast hcursor hc (fun o ho => hup (hread o ho))
      (by rwa [update_of_ne hne]) hmark' hdestroy hfreed
  | done hlast hcursor hread hfreed =>
    exact .done hlast hcursor (fun o ho => hup (hread o ho)) hfreed

variable [DecidableEq ι]

/-- The reader of the last slot starts. -/
theorem Cleanup.begin (h : Cleanup m last cursor read destroy freed) (hlast : ¬ last)
    (hlast' : last') : Cleanup m last' (update cursor i (some 0)) read destroy freed := by
  cases h with
  | waiting _ hcursor hdestroy hfreed =>
    refine .busy i 0 hlast' (update_self ..) (fun j hj => ?_) (Nat.zero_le _)
      (fun o ho => absurd ho (Nat.not_lt_zero o)) (fun o _ => hdestroy o) hfreed
    rw [update_of_ne hj]
    exact hcursor j
  | busy _ _ hl | left _ hl | done hl => exact absurd hl hlast

/-- Party `i` goes on from a slot that is read; it may have marked it. -/
theorem Cleanup.next (h : Cleanup m last cursor read destroy freed) (hi : cursor i = some c)
    (hc : c < m) (hread : read c = true) {destroy' : Nat → Bool}
    (hsame : ∀ o, o ≠ c → destroy' o = destroy o) :
    Cleanup m last (update cursor i (some (c + 1))) read destroy' freed := by
  obtain ⟨hlast, hcursor, -, hreads, hdestroy, hfreed⟩ := h.of_cursor hi
  refine .busy i (c + 1) hlast (update_self ..) (fun j hj => ?_) hc (fun o ho => ?_)
    (fun o ho => ?_) hfreed
  · rw [update_of_ne hj]
    exact hcursor j hj
  · rcases Nat.lt_succ_iff_lt_or_eq.mp ho with ho | rfl
    · exact hreads o ho
    · exact hread
  · rw [hsame o (by omega)]
    exact hdestroy o (by omega)

/-- Party `i` leaves the cleanup to the reader of a slot that is not read. -/
theorem Cleanup.leave (h : Cleanup m last cursor read destroy freed) (hi : cursor i = some c)
    (hc : c < m) (hnot : read c = false) :
    Cleanup m last (update cursor i none) read (update destroy c true) freed := by
  obtain ⟨hlast, hcursor, -, hreads, hdestroy, hfreed⟩ := h.of_cursor hi
  refine .left c hlast (fun j => ?_) hc hreads hnot (update_self ..) (fun o ho => ?_)
    hfreed
  · by_cases hj : j = i
    · rw [hj, update_self]
    · rw [update_of_ne hj]
      exact hcursor j hj
  · rw [update_of_ne (by omega)]
    exact hdestroy o (by omega)

/-- The reader of a marked slot finishes and goes on with the cleanup. -/
theorem Cleanup.resume (h : Cleanup m last cursor read destroy freed) (hmark : destroy c = true)
    (hnot : read c = false) (hc : c < m) :
    Cleanup m last (update cursor i (some (c + 1))) (update read c true) destroy
      freed := by
  obtain ⟨hlast, hcursor, hread, hdestroy, hfreed⟩ := h.left_of_mark hmark hnot hc
  refine .busy i (c + 1) hlast (update_self ..) (fun j hj => ?_) hc (fun o ho => ?_)
    (fun o ho => hdestroy o ho) hfreed
  · rw [update_of_ne hj]
    exact hcursor j
  · rcases Nat.lt_succ_iff_lt_or_eq.mp ho with ho | rfl
    · rw [update_of_ne (Nat.ne_of_lt ho)]
      exact hread o ho
    · exact update_self ..

/-- Party `i` frees the record. -/
theorem Cleanup.free (h : Cleanup m last cursor read destroy freed) (hi : cursor i = some m) :
    Cleanup m last (update cursor i none) read destroy true := by
  obtain ⟨hlast, hcursor, -, hreads, -, -⟩ := h.of_cursor hi
  refine .done hlast (fun j => ?_) hreads rfl
  by_cases hj : j = i
  · rw [hj, update_self]
  · rw [update_of_ne hj]
    exact hcursor j hj

end Crossfire.Lib.Handover
