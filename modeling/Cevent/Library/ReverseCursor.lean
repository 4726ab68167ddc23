import Mathlib.Algebra.Group.Nat.Defs
import Mathlib.Data.Nat.Bitwise

/-! Counters whose highest bits are counted first, which stay good when the number of their bits changes. -/

namespace ReverseCursor

variable {w k : Nat}

/-- The word of the bits below a position. -/
def lowMask (w k : Nat) : BitVec w := BitVec.ofNat w (2 ^ k - 1)

/-- Where a word comes when words are counted by their reversed bits. -/
def place (v : BitVec w) : Nat := v.reverse.toNat

/-- The word that comes next when only the bits below a position are counted. -/
def next (k : Nat) (v : BitVec w) : BitVec w := ((v ||| ~~~lowMask w k).reverse + 1).reverse

theorem getLsbD_lowMask (w k i : Nat) : (lowMask w k).getLsbD i = (decide (i < w) && decide (i < k)) := by
  rw [lowMask, BitVec.getLsbD_ofNat, Nat.testBit_two_pow_sub_one]

/-- The bits below a position are the rest of a division. -/
theorem toNat_and_lowMask (v : BitVec w) (fits : k ≤ w) : (v &&& lowMask w k).toNat = v.toNat % 2 ^ k := by
  have below : 2 ^ k - 1 < 2 ^ w := by
    have := Nat.pow_le_pow_right (show 0 < 2 by decide) fits
    have := Nat.two_pow_pos k
    omega
  rw [BitVec.toNat_and, lowMask, BitVec.toNat_ofNat, Nat.mod_eq_of_lt below,
    Nat.and_two_pow_sub_one_eq_mod]

theorem place_lt (v : BitVec w) : place v < 2 ^ w := v.reverse.isLt

/-- The word that is counted as zero is zero. -/
theorem place_eq_zero_iff (v : BitVec w) : place v = 0 ↔ v = 0 := by
  show place v = 0 ↔ v = 0#w
  rw [place, ← BitVec.reverse_eq_zero_iff, ← BitVec.toNat_inj]
  rfl

/-- The bits of a place are those of the word from the other end. -/
theorem testBit_place (v : BitVec w) {i : Nat} (inside : i < w) :
    (place v).testBit i = v.toNat.testBit (w - 1 - i) := by
  rw [place, BitVec.testBit_toNat, BitVec.getLsbD_reverse, BitVec.getMsbD_eq_getLsbD,
    BitVec.testBit_toNat]
  simp [inside]

/-- Words agree in the bits below a position when their places do so in as many of the highest bits. -/
theorem place_div_eq_iff (fits : k ≤ w) (v u : BitVec w) :
    place v / 2 ^ (w - k) = place u / 2 ^ (w - k) ↔ v.toNat % 2 ^ k = u.toNat % 2 ^ k := by
  constructor
  · intro same
    apply Nat.eq_of_testBit_eq
    intro i
    rw [Nat.testBit_mod_two_pow, Nat.testBit_mod_two_pow]
    rcases Nat.lt_or_ge i k with low | high
    · -- A bit below the position is one of the highest bits of the place.
      have bit := congrArg (fun n => n.testBit (k - 1 - i)) same
      simp only [Nat.testBit_div_two_pow] at bit
      rw [testBit_place v (by omega), testBit_place u (by omega)] at bit
      have back : w - 1 - (k - 1 - i + (w - k)) = i := by omega
      rw [back] at bit
      rw [bit]
    · simp [Nat.not_lt.mpr high]
  · intro same
    apply Nat.eq_of_testBit_eq
    intro i
    rw [Nat.testBit_div_two_pow, Nat.testBit_div_two_pow]
    rcases Nat.lt_or_ge i k with low | high
    · rw [testBit_place v (by omega), testBit_place u (by omega)]
      have bit := congrArg (fun n => n.testBit (w - 1 - (i + (w - k)))) same
      simp only [Nat.testBit_mod_two_pow] at bit
      simpa [show w - 1 - (i + (w - k)) < k by omega] using bit
    · -- Behind the highest bit there are no bits.
      have beyond : 2 ^ w ≤ 2 ^ (i + (w - k)) := Nat.pow_le_pow_right (by decide) (by omega)
      rw [Nat.testBit_lt_two_pow (Nat.lt_of_lt_of_le (place_lt v) beyond),
        Nat.testBit_lt_two_pow (Nat.lt_of_lt_of_le (place_lt u) beyond)]

/-- Setting all bits below a position. -/
theorem or_two_pow_sub_one (x j : Nat) : x ||| 2 ^ j - 1 = 2 ^ j * (x / 2 ^ j) + (2 ^ j - 1) := by
  have positive := Nat.two_pow_pos j
  apply Nat.eq_of_testBit_eq
  intro i
  rw [Nat.testBit_or, Nat.testBit_two_pow_sub_one, Nat.testBit_two_pow_mul_add _ (by omega),
    Nat.testBit_two_pow_sub_one, Nat.testBit_div_two_pow]
  rcases Nat.lt_or_ge i j with low | high
  · simp [low]
  · rw [Nat.sub_add_cancel high]
    simp [Nat.not_lt.mpr high]

/-- Counting up the bits from a position on leaves those below it as they are. -/
theorem toNat_succ_above (fits : k ≤ w) (v : BitVec w) :
    ((((v ||| lowMask w k) + 1) &&& ~~~lowMask w k) ||| (v &&& lowMask w k)).toNat
      = (v.toNat + 2 ^ k) % 2 ^ w := by
  have positive := Nat.two_pow_pos k
  have mask : (lowMask w k : BitVec w).toNat = 2 ^ k - 1 := by
    have := Nat.pow_le_pow_right (show 0 < 2 by decide) fits
    rw [lowMask, BitVec.toNat_ofNat, Nat.mod_eq_of_lt (by omega)]
  -- With all lower bits set, adding one carries into the bit at the position.
  have carried : ((v ||| lowMask w k) + 1).toNat = (2 ^ k * (v.toNat / 2 ^ k + 1)) % 2 ^ w := by
    rcases Nat.eq_zero_or_pos w with rfl | some_
    · rw [Nat.pow_zero, Nat.mod_one]
      exact Nat.lt_one_iff.mp (BitVec.isLt _)
    · have one : (1 : BitVec w).toNat = 1 := BitVec.toNat_one some_
      rw [BitVec.toNat_add, BitVec.toNat_or, mask, or_two_pow_sub_one, one, Nat.mul_succ]
      congr 1
      omega
  have sum : v.toNat + 2 ^ k = 2 ^ k * (v.toNat / 2 ^ k + 1) + v.toNat % 2 ^ k := by
    have := Nat.div_add_mod v.toNat (2 ^ k)
    rw [Nat.mul_succ]
    omega
  rw [sum]
  apply Nat.eq_of_testBit_eq
  intro i
  rw [BitVec.testBit_toNat, BitVec.getLsbD_or, BitVec.getLsbD_and, BitVec.getLsbD_and,
    BitVec.getLsbD_not, getLsbD_lowMask, Nat.testBit_mod_two_pow,
    Nat.testBit_two_pow_mul_add _ (Nat.mod_lt _ positive), ← BitVec.testBit_toNat, carried,
    Nat.testBit_mod_two_pow, Nat.testBit_two_pow_mul, Nat.testBit_mod_two_pow,
    BitVec.testBit_toNat]
  rcases Nat.lt_or_ge i w with inside | outside
  · rcases Nat.lt_or_ge i k with low | high
    · simp [inside, low]
    · simp [inside, high, Nat.not_lt.mpr high]
  · simp [Nat.not_lt.mpr outside, BitVec.getLsbD_of_ge v i outside]

/-- The bits between two positions are zero when the higher one leaves the same rest. -/
theorem and_between_eq_zero_iff {j : Nat} (fits : k ≤ w) (fits' : j ≤ w) (v : BitVec w) :
    v &&& (lowMask w k ^^^ lowMask w j) = 0 ↔ v.toNat % 2 ^ j = v.toNat % 2 ^ k := by
  show v &&& (lowMask w k ^^^ lowMask w j) = 0#w ↔ _
  rw [← toNat_and_lowMask v fits, ← toNat_and_lowMask v fits', BitVec.toNat_inj]
  have spread : v &&& (lowMask w k ^^^ lowMask w j) = (v &&& lowMask w k) ^^^ (v &&& lowMask w j) := by
    apply BitVec.eq_of_getLsbD_eq
    intro i inside
    simp only [BitVec.getLsbD_and, BitVec.getLsbD_xor]
    cases v.getLsbD i <;> simp
  rw [spread, BitVec.xor_eq_zero_iff]
  exact eq_comm

/-- The next word comes at the next multiple of what the other bits count for. -/
theorem place_next (fits : k ≤ w) (v : BitVec w) :
    place (next k v) = 2 ^ (w - k) * (place v / 2 ^ (w - k) + 1) % 2 ^ w := by
  have positive := Nat.two_pow_pos (w - k)
  -- The bits that are not counted are the lowest ones of the place, and all of them are set.
  have filled : (v ||| ~~~lowMask w k).reverse.toNat = place v ||| 2 ^ (w - k) - 1 := by
    apply Nat.eq_of_testBit_eq
    intro i
    rw [Nat.testBit_or, Nat.testBit_two_pow_sub_one]
    rcases Nat.lt_or_ge i w with inside | outside
    · rw [show (v ||| ~~~lowMask w k).reverse.toNat = place (v ||| ~~~lowMask w k) from rfl,
        testBit_place _ inside, testBit_place _ inside, BitVec.testBit_toNat, BitVec.getLsbD_or,
        BitVec.getLsbD_not, getLsbD_lowMask, BitVec.testBit_toNat]
      congr 1
      rw [Bool.eq_iff_iff]
      simp
      omega
    · rw [Nat.testBit_lt_two_pow (Nat.lt_of_lt_of_le (BitVec.isLt _)
        (Nat.pow_le_pow_right (by decide) outside)),
        Nat.testBit_lt_two_pow (Nat.lt_of_lt_of_le (place_lt v)
        (Nat.pow_le_pow_right (by decide) outside))]
      simp
      omega
  rw [place, next, BitVec.reverse_reverse_eq, BitVec.toNat_add, filled, or_two_pow_sub_one]
  rcases Nat.eq_zero_or_pos w with rfl | some_
  · simp [Nat.mod_one]
  · have one : (1 : BitVec w).toNat = 1 := BitVec.toNat_one some_
    rw [one, Nat.mul_succ]
    congr 1
    omega

/-- Which word comes next is decided by the bits that are counted. -/
theorem next_congr (fits : k ≤ w) {v u : BitVec w} (same : v.toNat % 2 ^ k = u.toNat % 2 ^ k) :
    next k v = next k u := by
  have places : place (next k v) = place (next k u) := by
    rw [place_next fits, place_next fits, (place_div_eq_iff fits v u).mpr same]
  rw [place, place, BitVec.toNat_inj] at places
  rw [← BitVec.reverse_reverse_eq (x := next k v), places, BitVec.reverse_reverse_eq]

/-- The next word has no bits but those that are counted. -/
theorem toNat_next_lt (fits : k ≤ w) (v : BitVec w) : (next k v).toNat < 2 ^ k := by
  apply Nat.lt_pow_two_of_testBit
  intro i high
  rcases Nat.lt_or_ge i w with inside | outside
  · -- Its place is a multiple of what the other bits count for.
    have bit := testBit_place (next k v) (show w - 1 - i < w by omega)
    rw [show w - 1 - (w - 1 - i) = i by omega, place_next fits] at bit
    rw [← bit, Nat.testBit_mod_two_pow, Nat.testBit_two_pow_mul]
    simp [show ¬ w - k ≤ w - 1 - i by omega]
  · exact Nat.testBit_lt_two_pow (Nat.lt_of_lt_of_le (BitVec.isLt _)
      (Nat.pow_le_pow_right (by decide) outside))

/-- What lies before the next multiple of a stride lies before a position, or in its stride. -/
theorem lt_or_div_eq {stride p x : Nat} (before : x < stride * (p / stride + 1)) :
    x < p ∨ x / stride = p / stride := by
  rcases Nat.eq_zero_or_pos stride with rfl | positive
  · simp at before
  have upTo : x / stride < p / stride + 1 := by
    rw [Nat.div_lt_iff_lt_mul positive, Nat.mul_comm]
    exact before
  rcases Nat.lt_or_ge (x / stride) (p / stride) with less | least
  · exact .inl (Nat.lt_of_div_lt_div less)
  · exact .inr (by omega)

/-- A step of the counter passes no word but those that agree with it in the bits that are counted. -/
theorem passed_iff (fits : k ≤ w) {v u : BitVec w}
    (passed : next k v = 0 ∨ place u < place (next k v)) :
    place u < place v ∨ u.toNat % 2 ^ k = v.toNat % 2 ^ k := by
  rw [← place_div_eq_iff fits]
  apply lt_or_div_eq
  rw [← place_eq_zero_iff, place_next fits] at passed
  have whole : 2 ^ w = 2 ^ (w - k) * 2 ^ k := by rw [← Nat.pow_add, Nat.sub_add_cancel fits]
  have inside : place v / 2 ^ (w - k) < 2 ^ k := by
    rw [Nat.div_lt_iff_lt_mul (Nat.two_pow_pos _), Nat.mul_comm, ← whole]
    exact place_lt v
  have most : 2 ^ (w - k) * (place v / 2 ^ (w - k) + 1) ≤ 2 ^ w := by
    rw [whole]
    exact Nat.mul_le_mul_left _ inside
  rcases Nat.lt_or_ge (2 ^ (w - k) * (place v / 2 ^ (w - k) + 1)) (2 ^ w) with within | last
  · -- The counter did not go round, so the next word is behind this one.
    rw [Nat.mod_eq_of_lt within] at passed
    rcases passed with zero | before
    · have positive : 0 < 2 ^ (w - k) * (place v / 2 ^ (w - k) + 1) :=
        Nat.mul_pos (Nat.two_pow_pos _) (Nat.succ_pos _)
      omega
    · exact before
  · exact Nat.lt_of_lt_of_le (place_lt u) last

end ReverseCursor
