import Mathlib.Data.Nat.Bitwise

/-!
# Two positions in one word

A word of `2 * w` bits holds one number in its high and one in its low half. `high` and `low` are
the shift and the truncating cast of the programs that use it; the lemmas say that they undo `pack`.
The halves are positions that wrap: `wrapSucc` is the next one.
-/

set_option autoImplicit false

namespace Crossfire.Lib.Packed

/-- `(hi << w) | lo`. -/
def pack (w hi lo : Nat) : Nat := (hi <<< w) ||| lo

/-- `(word >> w) as uN`. -/
def high (w word : Nat) : Nat := (word >>> w) % 2 ^ w

/-- `word as uN`. -/
def low (w word : Nat) : Nat := word % 2 ^ w

/-- `n.wrapping_add(1)` of a number of `w` bits. -/
def wrapSucc (w n : Nat) : Nat := (n + 1) % 2 ^ w

variable {w hi lo hi' lo' : Nat}

theorem mod_lt (n : Nat) : n % 2 ^ w < 2 ^ w := Nat.mod_lt _ (Nat.two_pow_pos _)

/-- The wrapped positions count on as the positions do. -/
theorem wrapSucc_mod (w n : Nat) : wrapSucc w (n % 2 ^ w) = (n + 1) % 2 ^ w := Nat.mod_add_mod ..

/-- A wrapped position keeps its parity. -/
theorem mod_and_one (hw : w ≠ 0) (n : Nat) : n % 2 ^ w &&& 1 = n % 2 := by
  rw [Nat.and_one_is_mod, Nat.mod_mod_of_dvd _ (dvd_pow_self 2 hw)]

theorem pack_eq (hlo : lo < 2 ^ w) : pack w hi lo = hi * 2 ^ w + lo := by
  rw [pack, ← Nat.shiftLeft_add_eq_or_of_lt hlo, Nat.shiftLeft_eq]

theorem low_lt (w word : Nat) : low w word < 2 ^ w := mod_lt _

theorem high_lt (w word : Nat) : high w word < 2 ^ w := mod_lt _

/-- Two halves fit a word of twice the size. -/
theorem pack_lt (hhi : hi < 2 ^ w) (hlo : lo < 2 ^ w) : pack w hi lo < 2 ^ (2 * w) := by
  rw [pack_eq hlo, Nat.two_mul, Nat.pow_add]
  calc hi * 2 ^ w + lo < (hi + 1) * 2 ^ w := by rw [Nat.succ_mul]; exact Nat.add_lt_add_left hlo _
    _ ≤ 2 ^ w * 2 ^ w := Nat.mul_le_mul_right _ hhi

theorem low_pack (hlo : lo < 2 ^ w) : low w (pack w hi lo) = lo := by
  rw [low, pack_eq hlo, Nat.mul_add_mod_self_right, Nat.mod_eq_of_lt hlo]

theorem high_pack (hhi : hi < 2 ^ w) (hlo : lo < 2 ^ w) : high w (pack w hi lo) = hi := by
  have hpos : 0 < 2 ^ w := Nat.two_pow_pos w
  rw [high, pack_eq hlo, Nat.shiftRight_eq_div_pow, Nat.mul_comm hi,
    Nat.mul_add_div hpos, Nat.div_eq_of_lt hlo, Nat.add_zero, Nat.mod_eq_of_lt hhi]

/-- A word determines both halves. -/
theorem pack_inj (hhi : hi < 2 ^ w) (hlo : lo < 2 ^ w) (hhi' : hi' < 2 ^ w) (hlo' : lo' < 2 ^ w)
    (h : pack w hi lo = pack w hi' lo') : hi = hi' ∧ lo = lo' := by
  have hlow : low w (pack w hi lo) = lo := low_pack hlo
  refine ⟨?_, ?_⟩
  · rw [← high_pack hhi hlo, h, high_pack hhi' hlo']
  · rw [← hlow, h, low_pack hlo']

end Crossfire.Lib.Packed
