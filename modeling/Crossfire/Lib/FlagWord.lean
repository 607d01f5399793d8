import Mathlib.Data.Nat.Bitwise

/-!
# A counter packed under two exclusive flag bits

A word of `b + 2` bits holds a counter in its low `b` bits and, in the two bits above, one of three
flags: none, `set` (the top bit) or `lock` (the bit below it). `pack b flag n` is that word. The
lemmas say what the masks, `or`, `xor` and the arithmetic on whole words do to the two components,
so that a program that works on the raw word can be reasoned about through flag and counter.
-/

set_option autoImplicit false

namespace Crossfire.Lib.FlagWord

/-- What the two top bits say. -/
inductive Flag
  | clear
  | set
  | lock
  deriving DecidableEq, Repr

/-- The flag as a word. -/
def Flag.bits (b : Nat) : Flag → Nat
  | .clear => 0
  | .set => 2 ^ (b + 1)
  | .lock => 2 ^ b

/-- The word with the given flag and counter. -/
def pack (b : Nat) (flag : Flag) (n : Nat) : Nat := flag.bits b + n

/-- Both flag bits. -/
def mask (b : Nat) : Nat := 2 ^ (b + 1) ||| 2 ^ b

variable {b n m : Nat} {f g : Flag}

theorem two_pow_add_eq_or {i n : Nat} (h : n < 2 ^ i) : 2 ^ i + n = 2 ^ i ||| n := by
  have hor := Nat.two_pow_add_eq_or_of_lt h 1
  rwa [Nat.mul_one] at hor

/-- Below a power of two, adding the power sets one bit. -/
theorem two_pow_add_eq_xor {i n : Nat} (h : n < 2 ^ i) : 2 ^ i + n = 2 ^ i ^^^ n := by
  rw [two_pow_add_eq_or h]
  apply Nat.eq_of_testBit_eq
  intro j
  rw [Nat.testBit_or, Nat.testBit_xor, Nat.testBit_two_pow]
  by_cases hj : i = j
  · subst hj
    simp [Nat.testBit_lt_two_pow h]
  · simp [hj]

theorem lt_two_pow_succ (hn : n < 2 ^ b) : n < 2 ^ (b + 1) := by
  rw [Nat.pow_succ]
  omega

theorem mask_eq_xor (b : Nat) : mask b = 2 ^ (b + 1) ^^^ 2 ^ b := by
  have hlt : 2 ^ b < 2 ^ (b + 1) := Nat.pow_lt_pow_right (by omega) (by omega)
  rw [mask, ← two_pow_add_eq_or hlt, two_pow_add_eq_xor hlt]

/-- The complement of the flag bits is the counter's mask. -/
theorem compl_mask (b : Nat) : (2 ^ (b + 2) - 1) ^^^ mask b = 2 ^ b - 1 := by
  apply Nat.eq_of_testBit_eq
  intro j
  rw [mask_eq_xor]
  simp only [Nat.testBit_xor, Nat.testBit_two_pow_sub_one, Nat.testBit_two_pow]
  by_cases h1 : j < b
  · simp [h1, show j < b + 2 by omega, show b + 1 ≠ j by omega, show b ≠ j by omega]
  by_cases h2 : b = j
  · subst h2
    simp
  by_cases h3 : b + 1 = j
  · subst h3
    simp
  · simp [h1, h2, h3, show ¬ j < b + 2 by omega]

/-! ## Reading a packed word -/

/-- The lock bit. -/
theorem testBit_pack_lock (hn : n < 2 ^ b) : (pack b f n).testBit b = decide (f = .lock) := by
  have hbit : n.testBit b = false := Nat.testBit_lt_two_pow hn
  cases f with
  | clear => simpa [pack, Flag.bits] using hbit
  | set =>
    rw [pack, Flag.bits, Nat.testBit_two_pow_add_gt (by omega), hbit]
    rfl
  | lock =>
    rw [pack, Flag.bits, Nat.testBit_two_pow_add_eq, hbit]
    rfl

/-- The set bit. -/
theorem testBit_pack_set (hn : n < 2 ^ b) : (pack b f n).testBit (b + 1) = decide (f = .set) := by
  have hlt := lt_two_pow_succ hn
  cases f with
  | clear => simpa [pack, Flag.bits] using Nat.testBit_lt_two_pow hlt
  | set =>
    rw [pack, Flag.bits, Nat.testBit_two_pow_add_eq, Nat.testBit_lt_two_pow hlt]
    rfl
  | lock =>
    refine Nat.testBit_lt_two_pow ?_
    rw [pack, Flag.bits, Nat.pow_succ]
    omega

/-- The counter. -/
theorem pack_and_low (hn : n < 2 ^ b) : pack b f n &&& (2 ^ b - 1) = n := by
  rw [Nat.and_two_pow_sub_one_eq_mod]
  cases f with
  | clear => simpa [pack, Flag.bits] using Nat.mod_eq_of_lt hn
  | set =>
    rw [pack, Flag.bits, Nat.pow_succ, Nat.mul_add_mod, Nat.mod_eq_of_lt hn]
  | lock => rw [pack, Flag.bits, Nat.add_mod_left, Nat.mod_eq_of_lt hn]

theorem pack_and_lock (hn : n < 2 ^ b) :
    pack b f n &&& 2 ^ b = if f = .lock then 2 ^ b else 0 := by
  rw [Nat.and_two_pow, testBit_pack_lock hn]
  by_cases hf : f = .lock <;> simp [hf]

theorem pack_and_set (hn : n < 2 ^ b) :
    pack b f n &&& 2 ^ (b + 1) = if f = .set then 2 ^ (b + 1) else 0 := by
  rw [Nat.and_two_pow, testBit_pack_set hn]
  by_cases hf : f = .set <;> simp [hf]

theorem pack_and_mask (hn : n < 2 ^ b) : pack b f n &&& mask b = f.bits b := by
  rw [mask, Nat.and_or_distrib_left, pack_and_lock hn, pack_and_set hn]
  cases f <;> simp [Flag.bits]

/-- The word determines flag and counter. -/
theorem pack_inj (hn : n < 2 ^ b) (hm : m < 2 ^ b) (h : pack b f n = pack b g m) :
    f = g ∧ n = m := by
  have hcount : n = m := by rw [← pack_and_low (f := f) hn, h, pack_and_low hm]
  refine ⟨?_, hcount⟩
  have hlock := testBit_pack_lock (f := f) hn
  have hset := testBit_pack_set (f := f) hn
  rw [h, testBit_pack_lock hm] at hlock
  rw [h, testBit_pack_set hm] at hset
  cases f <;> cases g <;> simp_all

/-! ## Writing a packed word -/

theorem bits_or (hn : n < 2 ^ b) : f.bits b ||| n = pack b f n := by
  cases f with
  | clear => simp [Flag.bits, pack]
  | set => exact (two_pow_add_eq_or (lt_two_pow_succ hn)).symm
  | lock => exact (two_pow_add_eq_or hn).symm

theorem pack_clear_or_set (hn : n < 2 ^ b) : pack b .clear n ||| 2 ^ (b + 1) = pack b .set n := by
  rw [Nat.or_comm, pack, Flag.bits, Nat.zero_add]
  exact bits_or (f := .set) hn

/-- One `xor` swaps the two flags. -/
theorem pack_lock_xor_mask (hn : n < 2 ^ b) : pack b .lock n ^^^ mask b = pack b .set n := by
  have hlock : pack b .lock n = 2 ^ b ^^^ n := two_pow_add_eq_xor hn
  have hset : pack b .set n = 2 ^ (b + 1) ^^^ n := two_pow_add_eq_xor (lt_two_pow_succ hn)
  rw [hlock, hset, mask_eq_xor, Nat.xor_comm (2 ^ b) n, Nat.xor_comm (2 ^ (b + 1)) (2 ^ b),
    Nat.xor_assoc, ← Nat.xor_assoc (2 ^ b), Nat.xor_self, Nat.zero_xor, Nat.xor_comm]

theorem pack_lt (hn : n < 2 ^ b) : pack b f n < 2 ^ (b + 2) := by
  have hb : 2 ^ (b + 2) = 4 * 2 ^ b := by rw [Nat.pow_add]; omega
  have hs : 2 ^ (b + 1) = 2 * 2 ^ b := by rw [Nat.pow_add]; omega
  cases f <;> simp only [pack, Flag.bits] <;> omega

/-- Adding to the counter does not touch the flag while the counter does not overflow. -/
theorem pack_add (hn : n + m < 2 ^ b) : (pack b f n + m) % 2 ^ (b + 2) = pack b f (n + m) := by
  have hlt := pack_lt (f := f) hn
  rw [show pack b f n + m = pack b f (n + m) from Nat.add_assoc _ _ _, Nat.mod_eq_of_lt hlt]

theorem pack_sub (hm : m ≤ n) : pack b f n - m = pack b f (n - m) := by
  unfold pack
  omega

end Crossfire.Lib.FlagWord
