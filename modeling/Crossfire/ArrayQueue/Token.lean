import Crossfire.Lib.Packed
import Crossfire.Lib.Lap

/-!
# Tokens and answers of the array queues

To read a message a consumer computes its slot and the word to store afterwards, and `select`
carries the two around in a token. In `array_queue_spsc.rs` and `array_queue_mpsc.rs` the word is
`recv`, which holds the consumer's position and a copy of the producers' position in two `u32`
halves. A push call has three answers, and `Answer.Sound` says what they mean.
-/

set_option autoImplicit false

namespace Crossfire.ArrayQueue

open Lib.Packed Lib.Lap

/-- The ring of a queue of capacity `cap`, with `u32` positions. -/
def ring (cap : Nat) (hpos : 0 < cap) (hlt : cap < 2 ^ 31) : Ring := ⟨32, cap, hpos, hlt⟩

theorem two_lt : 2 < 2 ^ 31 := by decide

/-- Two slots. -/
def ringTwo : Ring := ring 2 Nat.zero_lt_two two_lt

/-- The ways to start a read: `pop`, `pop_cached` and `start_read`. -/
inductive Mode
  | pop
  | popCached
  | select
  deriving DecidableEq

/-- A slot and the word to store after it is read, with the number of its message. -/
structure Token where
  index : Nat
  stamp : Nat
  k : Nat
  deriving DecidableEq

/-- What a push call returned, with what happened during the call. -/
structure Answer where
  /-- `push_with_ptr` returns the Boolean itself. -/
  result : Option Bool
  /-- The number of messages it pushed. -/
  claims : Nat
  /-- The largest number of messages in the queue at any instant of it. -/
  peak : Nat
  deriving DecidableEq

/-- A call says whether it pushed, and with a lap of `slack` its `false` means full. -/
structure Answer.Sound (cap slack : Nat) (a : Answer) : Prop where
  pushed : a.result = some true → a.claims = 1
  refused : a.result ≠ some true → a.claims = 0
  full : cap ≤ slack → a.result = some false → a.peak = cap

section

variable (r : Ring)

/-- `_read`: the slot, and the word to store. -/
def readToken (head tailCached k : Nat) : Token :=
  ⟨r.index head, pack r.word tailCached (r.next head), k⟩

/-- A token is for the first unpopped message. -/
structure Token.Fresh (tc claimed pushed : Nat) (t : Token) : Prop where
  k : t.k = claimed
  index : t.index = claimed % r.cap
  stamp : ∃ n, t.stamp = pack r.word (r.enc n) (r.enc (claimed + 1)) ∧
    tc ≤ n ∧ claimed < n ∧ n ≤ pushed

variable {r} {tc claimed n : Nat} {t : Token}

theorem Token.Fresh.push (h : t.Fresh r tc claimed n) : t.Fresh r tc claimed (n + 1) := by
  obtain ⟨m, hm, h1, h2, h3⟩ := h.stamp
  exact ⟨h.k, h.index, m, hm, h1, h2, by omega⟩

/-- The token of a message that was found; `n` is the number of a position behind it. -/
theorem fresh_readToken {pushed : Nat} (hle : tc ≤ n) (hlt : claimed < n) (hn : n ≤ pushed) :
    (readToken r (r.enc claimed) (r.enc n) claimed).Fresh r tc claimed pushed :=
  ⟨rfl, Ring.index_enc _, n, by rw [readToken, Ring.next_enc], hle, hlt, hn⟩

end

end Crossfire.ArrayQueue
