import Mathlib.Data.Nat.Bitwise

/-!
# Positions made of a lap and an index

A ring of `cap` slots numbers its positions by words of `word` bits: the low `bits` bits are an
index below `cap`, the bits above count the laps, and everything wraps around at `2 ^ word`. The
position number `k` of the ring is the word `enc k`. The operations on words that the ring uses are
`index`, `next` and the addition of one lap; `index_enc`, `next_enc` and `addLap_enc` say what they
do to the numbers, and `enc_inj` that a word determines its number within one `period`.
-/

set_option autoImplicit false

namespace Crossfire.Lib.Lap

/-- `usize::next_power_of_two`. -/
def nextPowerOfTwo (n : Nat) : Nat := if n ≤ 1 then 1 else 2 ^ (Nat.log2 (n - 1) + 1)

/-- A ring of `cap` slots with positions of `word` bits. At least one bit counts laps. -/
structure Ring where
  word : Nat
  cap : Nat
  cap_pos : 0 < cap
  cap_lt : cap < 2 ^ (word - 1)

namespace Ring

variable (r : Ring)

/-- The number of bits of an index. -/
def bits : Nat := Nat.log2 r.cap + 1

/-- A stamp with the value of `{ lap: 1, index: 0 }`. -/
def oneLap : Nat := nextPowerOfTwo (r.cap + 1)

/-- The index of a position: `pos & (one_lap - 1)`. -/
def index (pos : Nat) : Nat := pos &&& (r.oneLap - 1)

/-- The lap of a position: `pos & !(one_lap - 1)`. -/
def lap (pos : Nat) : Nat := pos &&& (2 ^ r.word - 1 - (r.oneLap - 1))

/-- `wrapping_add` of one lap. -/
def addLap (pos : Nat) : Nat := (pos + r.oneLap) % 2 ^ r.word

/-- The next position: same lap and next index, or next lap and index zero. -/
def next (pos : Nat) : Nat := if r.index pos + 1 < r.cap then pos + 1 else r.addLap (r.lap pos)

/-- The word of position number `k`. -/
def enc (k : Nat) : Nat := (k / r.cap * r.oneLap + k % r.cap) % 2 ^ r.word

/-- The number of positions after which the words repeat. -/
def period : Nat := r.cap * 2 ^ (r.word - r.bits)

theorem oneLap_eq : r.oneLap = 2 ^ r.bits := by
  have hcap := r.cap_pos
  rw [oneLap, nextPowerOfTwo, if_neg (by omega), Nat.add_sub_cancel, bits]

theorem cap_lt_oneLap : r.cap < r.oneLap := by
  rw [oneLap_eq, bits]
  exact Nat.lt_log2_self

theorem bits_lt_word : r.bits < r.word := by
  have hlog : Nat.log2 r.cap < r.word - 1 :=
    (Nat.log2_lt (Nat.pos_iff_ne_zero.mp r.cap_pos)).mpr r.cap_lt
  unfold bits
  omega

theorem oneLap_pos : 0 < r.oneLap := Nat.lt_of_le_of_lt (Nat.zero_le _) r.cap_lt_oneLap

/-- The word is a whole number of laps. -/
theorem word_eq : 2 ^ r.word = r.oneLap * 2 ^ (r.word - r.bits) := by
  have hbits := r.bits_lt_word
  rw [oneLap_eq, ← Nat.pow_add]
  congr 1
  omega

theorem laps_pos : 0 < 2 ^ (r.word - r.bits) := Nat.two_pow_pos _

/-- At least two laps fit the word. -/
theorem two_le_laps : 2 ≤ 2 ^ (r.word - r.bits) := by
  have hbits := r.bits_lt_word
  calc 2 = 2 ^ 1 := rfl
    _ ≤ 2 ^ (r.word - r.bits) := Nat.pow_le_pow_right (by omega) (by omega)

theorem two_mul_cap_le_period : 2 * r.cap ≤ r.period := by
  have h := Nat.mul_le_mul_left r.cap r.two_le_laps
  unfold period
  omega

theorem cap_lt_period : r.cap < r.period := by
  have h := r.two_mul_cap_le_period
  have hcap := r.cap_pos
  omega

theorem two_mul_oneLap_le : 2 * r.oneLap ≤ 2 ^ r.word := by
  have h := Nat.mul_le_mul_left r.oneLap r.two_le_laps
  rw [word_eq]
  omega

theorem oneLap_lt_word : r.oneLap < 2 ^ r.word := by
  have h := r.two_mul_oneLap_le
  have hpos := r.oneLap_pos
  omega

/-! ## Lap and index of a number -/

variable {r} {j k : Nat}

theorem mod_cap_lt : k % r.cap < r.cap := Nat.mod_lt _ r.cap_pos

theorem mod_cap_lt_oneLap : k % r.cap < r.oneLap := mod_cap_lt.trans r.cap_lt_oneLap

/-- The word of a number, with its lap wrapped around. -/
theorem enc_eq (k : Nat) :
    r.enc k = k / r.cap % 2 ^ (r.word - r.bits) * r.oneLap + k % r.cap := by
  have hindex : k % r.cap < r.oneLap := mod_cap_lt_oneLap
  have hlaps := r.laps_pos
  rw [enc, word_eq, Nat.mul_comm (k / r.cap), Nat.mod_mul, Nat.mul_add_mod,
    Nat.mod_eq_of_lt hindex, Nat.mul_add_div r.oneLap_pos, Nat.div_eq_of_lt hindex, Nat.add_zero,
    Nat.add_comm, Nat.mul_comm]

theorem enc_lt (k : Nat) : r.enc k < 2 ^ r.word := Nat.mod_lt _ (Nat.two_pow_pos _)

theorem enc_mod_oneLap (k : Nat) : r.enc k % r.oneLap = k % r.cap := by
  rw [enc_eq, Nat.mul_add_mod_self_right, Nat.mod_eq_of_lt mod_cap_lt_oneLap]

theorem index_eq_mod (pos : Nat) : r.index pos = pos % r.oneLap := by
  rw [index, oneLap_eq, Nat.and_two_pow_sub_one_eq_mod]

/-- **The index of a position is its number modulo the capacity.** -/
theorem index_enc (k : Nat) : r.index (r.enc k) = k % r.cap := by
  rw [index_eq_mod, enc_mod_oneLap]

/-- Masking the index out of a word leaves its lap. -/
theorem lap_eq {pos : Nat} (hpos : pos < 2 ^ r.word) : r.lap pos = pos - pos % r.oneLap := by
  have hbits := r.bits_lt_word
  have hmask : ∀ i, (2 ^ r.word - 1 - (r.oneLap - 1)).testBit i =
      (decide (r.bits ≤ i) && decide (i < r.word)) := by
    intro i
    have hsplit : 2 ^ r.word - 1 - (r.oneLap - 1) = (2 ^ (r.word - r.bits) - 1) <<< r.bits := by
      rw [Nat.shiftLeft_eq, Nat.sub_mul, Nat.one_mul, Nat.mul_comm, ← oneLap_eq, ← word_eq]
      have := r.oneLap_pos
      omega
    rw [hsplit, Nat.testBit_shiftLeft, Nat.testBit_two_pow_sub_one]
    by_cases hi : r.bits ≤ i
    · have : i - r.bits < r.word - r.bits ↔ i < r.word := by omega
      simp [hi, this]
    · simp [hi]
  have hlow : pos - pos % r.oneLap = (pos >>> r.bits) <<< r.bits := by
    rw [Nat.shiftLeft_eq, Nat.shiftRight_eq_div_pow, ← oneLap_eq]
    have := Nat.div_add_mod pos r.oneLap
    rw [Nat.mul_comm]
    omega
  rw [lap, hlow]
  apply Nat.eq_of_testBit_eq
  intro i
  rw [Nat.testBit_and, hmask, Nat.testBit_shiftLeft, Nat.testBit_shiftRight]
  by_cases hi : r.bits ≤ i
  · by_cases hw : i < r.word
    · simp [hi, hw]
    · have hbig : pos.testBit i = false :=
        Nat.testBit_lt_two_pow (hpos.trans_le (Nat.pow_le_pow_right (by omega) (by omega)))
      simp [hi, hbig]
  · simp [hi]

theorem lap_enc (k : Nat) :
    r.lap (r.enc k) = k / r.cap % 2 ^ (r.word - r.bits) * r.oneLap := by
  rw [lap_eq (enc_lt k), enc_mod_oneLap, enc_eq, Nat.add_sub_cancel]

/-- **One lap forward is `cap` numbers forward.** -/
theorem addLap_enc (k : Nat) : r.addLap (r.enc k) = r.enc (k + r.cap) := by
  rw [addLap, enc, enc, Nat.mod_add_mod, Nat.add_div_right k r.cap_pos, Nat.add_mod_right,
    Nat.succ_mul]
  congr 1
  omega

/-- A position followed by another one of the same lap does not overflow. -/
theorem enc_add_one_lt (k : Nat) : r.enc k + 1 < 2 ^ r.word := by
  have hlap : k / r.cap % 2 ^ (r.word - r.bits) < 2 ^ (r.word - r.bits) :=
    Nat.mod_lt _ r.laps_pos
  have hindex : k % r.cap + 1 < r.oneLap := by
    have h1 : k % r.cap < r.cap := mod_cap_lt
    have h2 := r.cap_lt_oneLap
    omega
  have hmul := Nat.mul_le_mul_right r.oneLap (Nat.succ_le_of_lt hlap)
  rw [Nat.succ_mul, Nat.mul_comm (2 ^ _), ← word_eq] at hmul
  rw [enc_eq]
  omega

/-- Lap and index of the next number in the same lap. -/
theorem succ_of_lt (hindex : k % r.cap + 1 < r.cap) :
    (k + 1) / r.cap = k / r.cap ∧ (k + 1) % r.cap = k % r.cap + 1 := by
  have hk : k + 1 = r.cap * (k / r.cap) + (k % r.cap + 1) := by
    have := Nat.div_add_mod k r.cap
    omega
  rw [hk, Nat.mul_add_div r.cap_pos, Nat.div_eq_of_lt hindex, Nat.mul_add_mod,
    Nat.mod_eq_of_lt hindex]
  exact ⟨rfl, rfl⟩

/-- Lap and index of the number after the last one of a lap. -/
theorem succ_of_eq (hindex : k % r.cap + 1 = r.cap) :
    (k + 1) / r.cap = k / r.cap + 1 ∧ (k + 1) % r.cap = 0 := by
  have hk : k + 1 = r.cap * (k / r.cap + 1) := by
    have := Nat.div_add_mod k r.cap
    rw [Nat.mul_add]
    omega
  rw [hk, Nat.mul_div_cancel_left _ r.cap_pos, Nat.mul_mod_right]
  exact ⟨rfl, rfl⟩

/-- **The next position is that of the next number.** -/
theorem next_enc (k : Nat) : r.next (r.enc k) = r.enc (k + 1) := by
  rw [next, index_enc]
  split_ifs with hindex
  · obtain ⟨hdiv, hmod⟩ := succ_of_lt hindex
    rw [enc_eq, enc_eq, hdiv, hmod]
    rfl
  · have hlt : k % r.cap < r.cap := mod_cap_lt
    obtain ⟨hdiv, hmod⟩ := succ_of_eq (show k % r.cap + 1 = r.cap by omega)
    have hlap : r.lap (r.enc k) + r.oneLap =
        (k / r.cap % 2 ^ (r.word - r.bits) + 1) * r.oneLap := by
      rw [lap_enc, Nat.succ_mul]
    have hzero : (k / r.cap + 1) * r.oneLap + 0 = (k / r.cap + 1) * r.oneLap := Nat.add_zero _
    rw [addLap, hlap, enc, hdiv, hmod, hzero, word_eq, Nat.mul_comm r.oneLap,
      Nat.mul_mod_mul_right, Nat.mul_mod_mul_right, Nat.mod_add_mod]

/-- The next position of any word is a word. -/
theorem next_lt {pos : Nat} (hpos : pos < 2 ^ r.word) : r.next pos < 2 ^ r.word := by
  unfold next
  split_ifs with hindex
  · have hlt := r.cap_lt_oneLap
    rw [index_eq_mod] at hindex
    -- a word at the end of the last lap would have the last index of the lap
    refine lt_of_le_of_ne hpos fun heq => ?_
    have hzero : (pos + 1) % r.oneLap = 0 := by
      rw [heq, word_eq]
      exact Nat.mul_mod_right ..
    rw [Nat.add_mod, Nat.mod_eq_of_lt (show 1 < r.oneLap by omega), Nat.mod_eq_of_lt (by omega)]
      at hzero
    omega
  · exact Nat.mod_lt _ (Nat.two_pow_pos _)

/-! ## Words and numbers -/

theorem mod_eq_of_enc_eq (h : r.enc j = r.enc k) : j % r.cap = k % r.cap := by
  rw [← enc_mod_oneLap, h, enc_mod_oneLap]

/-- **Within one period a word determines its number.** -/
theorem enc_inj (h : r.enc j = r.enc k) (hjk : j ≤ k) (hk : k < j + r.period) : j = k := by
  have hmod := mod_eq_of_enc_eq h
  have hlaps : j / r.cap % 2 ^ (r.word - r.bits) = k / r.cap % 2 ^ (r.word - r.bits) := by
    rw [enc_eq, enc_eq, hmod] at h
    exact Nat.eq_of_mul_eq_mul_right r.oneLap_pos (Nat.add_right_cancel h)
  have hj := Nat.div_add_mod j r.cap
  have hk' := Nat.div_add_mod k r.cap
  have hle : j / r.cap ≤ k / r.cap := Nat.div_le_div_right hjk
  -- the laps differ by less than a whole turn
  have hlt : k / r.cap - j / r.cap < 2 ^ (r.word - r.bits) := by
    refine Nat.lt_of_mul_lt_mul_left (a := r.cap) ?_
    rw [Nat.mul_sub]
    unfold period at hk
    omega
  have hdvd : 2 ^ (r.word - r.bits) ∣ k / r.cap - j / r.cap :=
    Nat.dvd_of_mod_eq_zero (Nat.sub_mod_eq_zero_of_mod_eq hlaps.symm)
  have hzero : k / r.cap - j / r.cap = 0 := Nat.eq_zero_of_dvd_of_lt hdvd hlt
  have heq : j / r.cap = k / r.cap := by omega
  rw [← hj, ← hk', heq, hmod]

/-- The words repeat after one period. -/
theorem enc_add_period (k : Nat) : r.enc (k + r.period) = r.enc k := by
  rw [enc_eq, enc_eq, period, Nat.add_mul_div_left _ _ r.cap_pos, Nat.add_mod_right,
    Nat.add_mul_mod_self_left]

/-- Within one period, equal words are equal numbers, in either order. -/
theorem enc_eq_iff (hjk : j < k + r.period) (hkj : k < j + r.period) :
    r.enc j = r.enc k ↔ j = k := by
  refine ⟨fun h => ?_, fun h => by rw [h]⟩
  rcases Nat.le_total j k with hle | hle
  · exact enc_inj h hle hkj
  · exact (enc_inj h.symm hle hjk).symm

/-- The stamp of a written slot is not the position of a free one. -/
theorem enc_add_one_ne (h : j % r.cap = k % r.cap) : r.enc j + 1 ≠ r.enc k := by
  intro heq
  have hlt : k % r.cap + 1 < r.oneLap := by
    have h1 : k % r.cap < r.cap := mod_cap_lt
    have h2 := r.cap_lt_oneLap
    omega
  have hmod : (r.enc j + 1) % r.oneLap = k % r.cap + 1 := by
    rw [enc_eq, Nat.add_assoc, Nat.mul_add_mod_self_right, h, Nat.mod_eq_of_lt hlt]
  rw [heq, enc_mod_oneLap] at hmod
  omega

end Ring

end Crossfire.Lib.Lap
