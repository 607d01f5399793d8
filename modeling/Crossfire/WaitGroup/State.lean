import Crossfire.Lib.FlagWord

/-!
# The state word of a wait group

`State` of `waitgroup.rs`: a `usize` with the waker flag in its two top bits and the reference count
below. The functions work on the raw word, as the code does; `b` is `usize::BITS - 2`. The lemmas
evaluate them on `pack b flag n`, which is the form the word keeps in every run.
-/

set_option autoImplicit false

namespace Crossfire.WaitGroup

open Lib.FlagWord

section Word

variable (b : Nat)

/-- `WAKER_FLAG_SET`: the slot has a waker. -/
def wakerFlagSet : Nat := 2 ^ (b + 1)

/-- `WAKER_FLAG_LOCK`: the slot is in use. -/
def wakerFlagLock : Nat := 2 ^ b

/-- `WAKER_FLAG_MASK`: both flags. -/
def wakerFlagMask : Nat := wakerFlagSet b ||| wakerFlagLock b

/-- `!WAKER_FLAG_MASK`. -/
def countMask : Nat := (2 ^ (b + 2) - 1) ^^^ wakerFlagMask b

/-- The count in the word. -/
def count (state : Nat) : Nat := state &&& countMask b

/-- The flags in the word. -/
def wakerFlag (state : Nat) : Nat := state &&& wakerFlagMask b

/-- The lock flag is set. -/
def isLocked (state : Nat) : Bool := decide (0 < state &&& wakerFlagLock b)

/-- The slot has a waker. -/
def hasWaker (state : Nat) : Bool := decide (0 < state &&& wakerFlagSet b)

/-- The word with the lock alone. -/
def tryLock (state : Nat) : Nat := count b state ||| wakerFlagLock b

/-- When no one holds the lock and the caller is the last one, it can free directly. -/
def isLast (state delta : Nat) : Bool :=
  decide (wakerFlag b state ≠ wakerFlagLock b ∧ count b state = delta)

/-- The new word, and whether it takes the lock; `none` is the underflow panic. -/
def tryDone (state delta threshold : Nat) : Option (Bool × Nat) :=
  if delta ≤ count b state then
    let newCount := count b state - delta
    if newCount ≤ threshold ∧ wakerFlag b state = wakerFlagSet b then
      some (true, wakerFlagLock b ||| newCount)
    else some (false, wakerFlag b state ||| newCount)
  else none

/-- `fetch_add(n)`, wrapping. -/
def fetchAdd (state n : Nat) : Nat := (state + n) % 2 ^ (b + 2)

end Word

variable {b n : Nat} {f : Flag}

theorem countMask_eq (b : Nat) : countMask b = 2 ^ b - 1 := compl_mask b

theorem flagBits_inj {f g : Flag} (h : f.bits b = g.bits b) : f = g :=
  (pack_inj (n := 0) (m := 0) (Nat.two_pow_pos b) (Nat.two_pow_pos b)
    (show f.bits b + 0 = g.bits b + 0 by rw [h])).1

@[simp] theorem count_pack (hn : n < 2 ^ b) : count b (pack b f n) = n := by
  rw [count, countMask_eq, pack_and_low hn]

theorem wakerFlag_pack (hn : n < 2 ^ b) : wakerFlag b (pack b f n) = f.bits b := pack_and_mask hn

theorem isLocked_pack (hn : n < 2 ^ b) : isLocked b (pack b f n) = decide (f = .lock) := by
  rw [isLocked, wakerFlagLock, pack_and_lock hn]
  by_cases hf : f = .lock <;> simp [hf, Nat.two_pow_pos]

theorem hasWaker_pack (hn : n < 2 ^ b) : hasWaker b (pack b f n) = decide (f = .set) := by
  rw [hasWaker, wakerFlagSet, pack_and_set hn]
  by_cases hf : f = .set <;> simp [hf, Nat.two_pow_pos]

theorem tryLock_pack (hn : n < 2 ^ b) : tryLock b (pack b f n) = pack b .lock n := by
  rw [tryLock, count_pack hn, Nat.or_comm]
  exact bits_or (f := .lock) hn

/-- The last guard is the one that finds its own count. -/
theorem isLast_pack (hn : n < 2 ^ b) (delta : Nat) :
    isLast b (pack b f n) delta = decide (f ≠ .lock ∧ n = delta) := by
  have hflag : f.bits b ≠ wakerFlagLock b ↔ f ≠ .lock :=
    not_congr ⟨fun h => flagBits_inj (g := .lock) h, fun h => by rw [h]; rfl⟩
  rw [isLast, wakerFlag_pack hn, count_pack hn, decide_eq_decide, hflag]

/-- `try_done`, by count and flag. -/
theorem tryDone_pack (hn : n < 2 ^ b) {delta : Nat} (hdelta : delta ≤ n) (threshold : Nat) :
    tryDone b (pack b f n) delta threshold =
      some (if n - delta ≤ threshold ∧ f = .set then (true, pack b .lock (n - delta))
        else (false, pack b f (n - delta))) := by
  have hlt : n - delta < 2 ^ b := by omega
  have hflag : f.bits b = wakerFlagSet b ↔ f = .set :=
    ⟨fun h => flagBits_inj (g := .set) h, fun h => by rw [h]; rfl⟩
  rw [tryDone, count_pack hn, wakerFlag_pack hn, if_pos hdelta]
  by_cases hlock : n - delta ≤ threshold ∧ f = .set
  · rw [if_pos ⟨hlock.1, hflag.mpr hlock.2⟩, if_pos hlock, wakerFlagLock]
    exact congrArg (fun w => some (true, w)) (bits_or (f := .lock) hlt)
  · rw [if_neg (fun h => hlock ⟨h.1, hflag.mp h.2⟩), if_neg hlock, bits_or hlt]

theorem fetchAdd_pack {m : Nat} (hn : n + m < 2 ^ b) :
    fetchAdd b (pack b f n) m = pack b f (n + m) :=
  pack_add hn

theorem count_lt (b state : Nat) : count b state < 2 ^ b := by
  rw [count, countMask_eq, Nat.and_two_pow_sub_one_eq_mod]
  exact Nat.mod_lt _ (Nat.two_pow_pos b)

theorem wakerFlagMask_mod (b : Nat) : wakerFlagMask b % 2 ^ b = 0 := by
  have hset : wakerFlagSet b % 2 ^ b = 0 := by
    rw [wakerFlagSet, Nat.pow_succ]
    exact Nat.mul_mod_right _ _
  have hlock : wakerFlagLock b % 2 ^ b = 0 := Nat.mod_self _
  rw [wakerFlagMask, Nat.or_mod_two_pow, hset, hlock, Nat.or_self]

/-- Whatever the word is, a decrement takes `delta` off its count bits. -/
theorem count_tryDone {state delta threshold new : Nat} {locks : Bool}
    (h : tryDone b state delta threshold = some (locks, new)) :
    delta ≤ count b state ∧ count b new = count b state - delta := by
  have hor : ∀ flag, flag % 2 ^ b = 0 → ∀ m, m < 2 ^ b → count b (flag ||| m) = m := by
    intro flag hflag m hm
    rw [count, countMask_eq, Nat.and_two_pow_sub_one_eq_mod, Nat.or_mod_two_pow, hflag,
      Nat.zero_or, Nat.mod_eq_of_lt hm]
  have hlt := count_lt b state
  simp only [tryDone] at h
  split_ifs at h with hdelta hlock
  · cases h
    exact ⟨hdelta, hor _ (Nat.mod_self _) _ (by omega)⟩
  · cases h
    refine ⟨hdelta, hor _ ?_ _ (by omega)⟩
    rw [wakerFlag, Nat.and_mod_two_pow, wakerFlagMask_mod, Nat.and_zero]

/-- `fetch_xor(WAKER_FLAG_MASK)` releases the lock and sets the waker flag. -/
theorem xor_mask_pack (hn : n < 2 ^ b) : pack b .lock n ^^^ wakerFlagMask b = pack b .set n :=
  pack_lock_xor_mask hn

/-- `fetch_or(WAKER_FLAG_SET)` on a word without a flag. -/
theorem or_set_pack (hn : n < 2 ^ b) : pack b .clear n ||| wakerFlagSet b = pack b .set n :=
  pack_clear_or_set hn

/-- `fetch_and(!WAKER_FLAG_MASK)`. -/
theorem and_countMask_pack (hn : n < 2 ^ b) : pack b f n &&& countMask b = pack b .clear n := by
  rw [countMask_eq, pack_and_low hn, pack, Flag.bits, Nat.zero_add]

end Crossfire.WaitGroup
