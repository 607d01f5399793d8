import Crossfire.ArrayQueue.Token
import Mathlib.Data.Nat.PSub

/-!
# Positions and lengths of the array queues

The arithmetic of `array_queue.rs`, `array_queue_mpsc.rs` and `array_queue_spsc.rs` on the words
`head` and `tail`: the step to the next position, the full test and the number of messages between
the two. A sum or a difference that the code does not wrap is `none` when it leaves the word. Since
`enc n` is the word of position number `n`, `lap_arithmetic` says what each of them computes.
-/

set_option autoImplicit false

namespace Crossfire.ArrayQueue

open Lib.Lap

section Words

variable (r : Ring)

/-- `new_tail` and `new_head`; the sum `pos + 1` must not overflow. -/
def checkedNext (pos : Nat) : Option Nat :=
  if r.index pos + 1 < r.cap then if pos + 1 < 2 ^ r.word then some (pos + 1) else none
  else some (r.addLap (r.lap pos))

/-- `len` of `ArrayQueueMpsc` and `ArrayQueueSpsc`. -/
def lenOf (head tail : Nat) : Option Nat :=
  let hix := r.index head
  let tix := r.index tail
  if hix < tix then tix.psub hix
  else if tix < hix then (hix.psub tix).bind r.cap.psub
  else if tail = head then some 0
  else some r.cap

/-- `len` of `ArrayQueue`, and the number of messages that `drop` of the three queues finds. -/
def dropLen (head tail : Nat) : Option Nat :=
  let hix := r.index head
  let tix := r.index tail
  if hix < tix then tix.psub hix
  else if tix < hix then (r.cap.psub hix).map (· + tix)
  else if tail = head then some 0
  else some r.cap

variable {r} {h t : Nat}

theorem checkedNext_enc (n : Nat) : checkedNext r (r.enc n) = some (r.enc (n + 1)) := by
  have hnext : r.next (r.enc n) = r.enc (n + 1) := Ring.next_enc n
  unfold checkedNext
  unfold Ring.next at hnext
  split_ifs at hnext ⊢ with hindex hword
  · rw [hnext]
  · exact absurd (Ring.enc_add_one_lt n) hword
  · rw [hnext]

theorem enc_eq_head (hle : h ≤ t) (hcap : t ≤ h + r.cap) : r.enc t = r.enc h ↔ t = h := by
  have hperiod := r.cap_lt_period
  exact Ring.enc_eq_iff (by omega) (by omega)

theorem enc_eq_addLap (hle : h ≤ t) (hcap : t ≤ h + r.cap) :
    r.enc t = r.addLap (r.enc h) ↔ t = h + r.cap := by
  have hperiod := r.cap_lt_period
  rw [Ring.addLap_enc]
  exact Ring.enc_eq_iff (by omega) (by omega)

/-- The index of a position at most one lap ahead. -/
theorem index_ahead (hle : h ≤ t) (hcap : t ≤ h + r.cap) :
    t % r.cap = if h % r.cap + (t - h) < r.cap then h % r.cap + (t - h)
      else h % r.cap + (t - h) - r.cap := by
  have hlt : h % r.cap < r.cap := Ring.mod_cap_lt
  have hsum : t % r.cap = (h % r.cap + (t - h)) % r.cap := by
    rw [Nat.mod_add_mod, Nat.add_sub_cancel' hle]
  rw [hsum]
  split_ifs with hwrap
  · exact Nat.mod_eq_of_lt hwrap
  · rw [Nat.mod_eq_sub_mod (by omega), Nat.mod_eq_of_lt (by omega)]

/-- `len` counts the messages. -/
theorem lenOf_enc (hle : h ≤ t) (hcap : t ≤ h + r.cap) :
    lenOf r (r.enc h) (r.enc t) = some (t - h) := by
  have hlt : h % r.cap < r.cap := Ring.mod_cap_lt
  have hahead := index_ahead hle hcap
  simp only [lenOf, Ring.index_enc, enc_eq_head hle hcap]
  split_ifs with hbelow habove hempty
  · rw [Nat.psub_eq_some]
    split_ifs at hahead <;> omega
  · rw [Nat.psub_eq_sub habove.le, Option.bind_some, Nat.psub_eq_some]
    split_ifs at hahead <;> omega
  · rw [hempty, Nat.sub_self]
  · split_ifs at hahead <;> congr 1 <;> omega

/-- `drop` counts the messages. -/
theorem dropLen_enc (hle : h ≤ t) (hcap : t ≤ h + r.cap) :
    dropLen r (r.enc h) (r.enc t) = some (t - h) := by
  have hlt : h % r.cap < r.cap := Ring.mod_cap_lt
  have hahead := index_ahead hle hcap
  simp only [dropLen, Ring.index_enc, enc_eq_head hle hcap]
  split_ifs with hbelow habove hempty
  · rw [Nat.psub_eq_some]
    split_ifs at hahead <;> omega
  · rw [Nat.psub_eq_sub hlt.le, Option.map_some]
    split_ifs at hahead <;> congr 1 <;> omega
  · rw [hempty, Nat.sub_self]
  · split_ifs at hahead <;> congr 1 <;> omega

end Words

/-- For every ring, that is for every capacity that leaves a bit of the word for the lap: one lap
fits the word, the step function goes from position number `n` to `n + 1` without an overflow, the
masked index is `n` modulo the capacity, and for positions at most one lap apart the tests for empty
and full and both length formulas say what they mean. -/
theorem lap_arithmetic (r : Ring) :
    nextPowerOfTwo (r.cap + 1) < 2 ^ r.word ∧
      (∀ n, checkedNext r (r.enc n) = some (r.enc (n + 1))) ∧
      (∀ n, r.index (r.enc n) = n % r.cap ∧ n % r.cap < r.cap) ∧
      ∀ h t, h ≤ t → t ≤ h + r.cap →
        (r.enc t = r.enc h ↔ t = h) ∧
        (r.enc t = r.addLap (r.enc h) ↔ t = h + r.cap) ∧
        lenOf r (r.enc h) (r.enc t) = some (t - h) ∧
        dropLen r (r.enc h) (r.enc t) = some (t - h) :=
  ⟨r.oneLap_lt_word, checkedNext_enc, fun n => ⟨Ring.index_enc n, Ring.mod_cap_lt⟩,
    fun _ _ hle hcap =>
      ⟨enc_eq_head hle hcap, enc_eq_addLap hle hcap, lenOf_enc hle hcap, dropLen_enc hle hcap⟩⟩

/-- The largest capacity with `u32` positions; only two laps fit the word. A full queue whose tail
has just come around. -/
theorem lap_arithmetic_largest :
    (2 ^ 31 - 1 ≤ 2 * (2 ^ 31 - 1) ∧ 2 * (2 ^ 31 - 1) ≤ 2 ^ 31 - 1 + (2 ^ 31 - 1)) ∧
      lenOf (ring (2 ^ 31 - 1) (by decide) (by decide))
        ((ring (2 ^ 31 - 1) (by decide) (by decide)).enc (2 ^ 31 - 1))
        ((ring (2 ^ 31 - 1) (by decide) (by decide)).enc (2 * (2 ^ 31 - 1))) =
          some (2 * (2 ^ 31 - 1) - (2 ^ 31 - 1)) := by
  have hall := (lap_arithmetic (ring (2 ^ 31 - 1) (by decide) (by decide))).2.2.2
  have hle : 2 ^ 31 - 1 ≤ 2 * (2 ^ 31 - 1) := by decide
  have hcap : 2 * (2 ^ 31 - 1) ≤ 2 ^ 31 - 1 + (2 ^ 31 - 1) := by decide
  exact ⟨⟨hle, hcap⟩, (hall _ _ hle hcap).2.2.1⟩

end Crossfire.ArrayQueue
