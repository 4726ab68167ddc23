import Mathlib.Algebra.Group.Int.Defs
import Mathlib.Algebra.Group.Nat.Defs
import Mathlib.Data.BitVec
import Mathlib.Data.List.Perm.Subperm
import Mathlib.Tactic.IntervalCases
import Mathlib.Tactic.Ring

/-! The ids of chat messages: a hash of the time at which each is made, cut to four bits. -/

namespace Cevent

/-- `GOLDEN_RATIO_PRIME`, for an `unsigned long` of 64 bits. -/
def goldenRatioPrime : Int := 0x9e37fffffffc0001

/-- The shifts, additions and subtractions of `hash_long`. -/
def hashLongSum (val : BitVec 64) : BitVec 64 :=
  let hash := val
  let n := hash
  let n := n <<< 18
  let hash := hash - n
  let n := n <<< 33
  let hash := hash - n
  let n := n <<< 3
  let hash := hash + n
  let n := n <<< 3
  let hash := hash - n
  let n := n <<< 4
  let hash := hash + n
  let n := n <<< 2
  hash + n

/-- `hash_long`, where `bits` is at least one and at most 64. -/
def hashLong (val : BitVec 64) (bits : Nat) : BitVec 64 :=
  -- High bits are more random, so use them.
  hashLongSum val >>> (64 - bits)

/-- `class ChatMessage`, less what its constructor leaves alone. -/
structure ChatMessage where
  packetId : BitVec 64
  deriving DecidableEq, Repr

/-- `ChatMessage::ChatMessage`, at a time that `time(NULL)` returns. -/
def newChatMessage (time : Int) : ChatMessage where
  -- A `time_t` is signed, and is converted to an `unsigned long`.
  packetId := hashLong (BitVec.ofInt 64 time) 4

/-- The messages that a run makes, one at each of these times. -/
def newChatMessages (times : List Int) : List ChatMessage := times.map newChatMessage

/-- Any two of the messages have different ids. -/
def DistinctIds (messages : List ChatMessage) : Prop :=
  messages.Pairwise fun first second => first.packetId ≠ second.packetId

instance (messages : List ChatMessage) : Decidable (DistinctIds messages) :=
  inferInstanceAs (Decidable (messages.Pairwise fun first second =>
    first.packetId ≠ second.packetId))

/-- Which sixteenth of `2 ^ 64` the multiple of a time by the prime falls in, round by round. -/
def sixteenth (time : Int) : Int := time * goldenRatioPrime % 2 ^ 64 / 2 ^ 60

/-- The shifts and additions come to a multiplication by the prime that they were made from. -/
theorem hashLongSum_eq_mul (val : BitVec 64) :
    hashLongSum val = val * BitVec.ofInt 64 goldenRatioPrime := by
  -- 2^63 + 2^61 - 2^57 + 2^54 - 2^51 - 2^18 + 1
  have sparse : BitVec.ofInt 64 goldenRatioPrime =
      BitVec.twoPow 64 63 + BitVec.twoPow 64 61 - BitVec.twoPow 64 57 + BitVec.twoPow 64 54
        - BitVec.twoPow 64 51 - BitVec.twoPow 64 18 + 1 := by rfl
  unfold hashLongSum
  -- Each shift goes on from the one before, so the value is shifted by their sum.
  simp only [← BitVec.shiftLeft_add]
  simp only [BitVec.shiftLeft_eq_mul_twoPow]
  rw [sparse]
  ring

/-- An id says in which sixteenth the multiple of the time is. -/
theorem packetId_toNat (time : Int) :
    ((newChatMessage time).packetId.toNat : Int) = sixteenth time := by
  have product : ((hashLongSum (BitVec.ofInt 64 time)).toNat : Int) =
      time * goldenRatioPrime % 2 ^ 64 := by
    rw [hashLongSum_eq_mul, ← BitVec.ofInt_mul, BitVec.toNat_ofInt]
    exact Int.toNat_of_nonneg (Int.emod_nonneg _ (by decide))
  rw [newChatMessage, hashLong, BitVec.toNat_ushiftRight, Nat.shiftRight_eq_div_pow,
    Int.natCast_ediv, product]
  rfl

/-- So two messages have the same id just when their times fall in the same sixteenth. -/
theorem packetId_eq_iff (early late : Int) :
    (newChatMessage early).packetId = (newChatMessage late).packetId ↔
      sixteenth early = sixteenth late := by
  rw [← packetId_toNat, ← packetId_toNat, Int.natCast_inj, BitVec.toNat_inj]

/-- There are sixteen of them. -/
theorem packetId_lt (time : Int) : (newChatMessage time).packetId.toNat < 16 := by
  have below : time * goldenRatioPrime % 2 ^ 64 < 2 ^ 64 := Int.emod_lt_of_pos _ (by decide)
  have id := packetId_toNat time
  unfold sixteenth at id
  omega

/-- How far the product of a time and the prime moves on around `2 ^ 64` with a delay. -/
def hashShift (delay : Int) : Int := delay * goldenRatioPrime % 2 ^ 64

/-- A delay that moves it by a sixteenth of `2 ^ 64` at least, in either direction. -/
def KeepsApart (delay : Int) : Prop :=
  2 ^ 60 ≤ hashShift delay ∧ hashShift delay ≤ 2 ^ 64 - 2 ^ 60

instance (delay : Int) : Decidable (KeepsApart delay) :=
  inferInstanceAs (Decidable (_ ∧ _))

/-- The product at a later time is the one at the earlier time, moved on by the delay. -/
theorem product_add (start delay : Int) :
    (start + delay) * goldenRatioPrime % 2 ^ 64 =
      (start * goldenRatioPrime % 2 ^ 64 + hashShift delay) % 2 ^ 64 := by
  rw [hashShift, Int.add_mul, Int.add_emod]

/-- Behind such a delay the product is in another sixteenth, wherever it was before. -/
theorem sixteenth_ne_of_keepsApart {delay : Int} (apart : KeepsApart delay) (start : Int) :
    sixteenth start ≠ sixteenth (start + delay) := by
  have least : 0 ≤ start * goldenRatioPrime % 2 ^ 64 := Int.emod_nonneg _ (by decide)
  have below : start * goldenRatioPrime % 2 ^ 64 < 2 ^ 64 := Int.emod_lt_of_pos _ (by decide)
  obtain ⟨far, near⟩ := apart
  unfold sixteenth
  rw [product_add]
  generalize start * goldenRatioPrime % 2 ^ 64 = product at least below
  generalize hashShift delay = shift at far near
  -- The product may go around once, and then it comes to lie at least a sixteenth lower.
  omega

/-- Behind any other delay there are two times at which it is in the first sixteenth. -/
theorem sixteenth_eq_of_not_keepsApart {delay : Int} (close : ¬ KeepsApart delay) :
    sixteenth 0 = sixteenth delay ∨ sixteenth (-delay) = sixteenth 0 := by
  have least : 0 ≤ hashShift delay := Int.emod_nonneg _ (by decide)
  have below : hashShift delay < 2 ^ 64 := Int.emod_lt_of_pos _ (by decide)
  have zero : sixteenth 0 = 0 := by decide
  rw [zero]
  rcases not_and_or.mp close with short | long
  · -- The product has hardly moved on from zero.
    refine .inl ?_
    show 0 = hashShift delay / 2 ^ 60
    omega
  · -- It has hardly moved back, so it comes to zero from just above.
    refine .inr ?_
    have back := product_add (-delay) delay
    rw [Int.add_left_neg, Int.zero_mul] at back
    have least' : 0 ≤ -delay * goldenRatioPrime % 2 ^ 64 := Int.emod_nonneg _ (by decide)
    have below' : -delay * goldenRatioPrime % 2 ^ 64 < 2 ^ 64 := Int.emod_lt_of_pos _ (by decide)
    unfold sixteenth
    generalize -delay * goldenRatioPrime % 2 ^ 64 = product at back least' below'
    omega

/--
Messages have different ids, whenever the first is made, just when every delay keeps them apart.

The delays are the seconds from some start to each of the messages.
-/
theorem distinctIds_iff (delays : List Int) :
    (∀ start, DistinctIds (newChatMessages (delays.map (start + ·)))) ↔
      delays.Pairwise fun early late => KeepsApart (late - early) := by
  have ids : ∀ start, DistinctIds (newChatMessages (delays.map (start + ·))) ↔
      delays.Pairwise fun early late => sixteenth (start + early) ≠ sixteenth (start + late) := by
    intro start
    rw [DistinctIds, newChatMessages, List.map_map, List.pairwise_map]
    exact List.Pairwise.iff fun early late => not_congr (packetId_eq_iff _ _)
  simp only [ids]
  constructor
  · intro distinct
    rw [List.pairwise_iff_forall_sublist]
    intro early late both
    -- The clock may stand at zero when either of the two messages is made.
    have first := List.pairwise_iff_forall_sublist.mp (distinct (-early)) both
    have second := List.pairwise_iff_forall_sublist.mp (distinct (-late)) both
    rw [Int.add_left_neg, show -early + late = late - early by omega] at first
    rw [Int.add_left_neg, show -late + early = -(late - early) by omega] at second
    by_contra close
    rcases sixteenth_eq_of_not_keepsApart close with same | same
    · exact first same
    · exact second same
  · intro apart start
    refine apart.imp ?_
    intro early late keeps
    have later := sixteenth_ne_of_keepsApart keeps (start + early)
    rwa [Int.add_assoc, show early + (late - early) = late by omega] at later

/-- Seven seconds are not enough to come back to an id. -/
theorem keepsApart_of_close {delay : Int} (some_ : delay ≠ 0) (least : -7 ≤ delay)
    (most : delay ≤ 7) : KeepsApart delay := by
  -- One second moves the product on by about 0.618 of the way around, and eight by 0.944.
  interval_cases delay
  all_goals first | exact absurd rfl some_ | decide

/-- Messages that are made in different seconds of eight have different ids. -/
theorem distinctIds_of_close {times : List Int} (distinct : times.Nodup)
    (close : ∀ early ∈ times, ∀ late ∈ times, late ≤ early + 7) :
    DistinctIds (newChatMessages times) := by
  rw [DistinctIds, newChatMessages, List.pairwise_map]
  refine distinct.imp_of_mem ?_
  intro early late first second different
  have keeps : KeepsApart (late - early) := by
    have after := close early first late second
    have before := close late second early first
    exact keepsApart_of_close (by omega) (by omega) (by omega)
  have apart := sixteenth_ne_of_keepsApart keeps early
  rw [show early + (late - early) = late by omega] at apart
  exact mt (packetId_eq_iff early late).mp apart

/-- Two messages that are made in the same second have the same id. -/
theorem not_distinctIds_of_same_second {times : List Int} (same : ¬ times.Nodup) :
    ¬ DistinctIds (newChatMessages times) := by
  intro distinct
  refine same ((List.pairwise_map.mp distinct).imp ?_)
  intro early late apart equal
  exact apart (by rw [equal])

/-- Seventeen messages have two of the same id among them, whenever they are made. -/
theorem not_distinctIds_of_many {times : List Int} (many : 16 < times.length) :
    ¬ DistinctIds (newChatMessages times) := by
  intro distinct
  have ids : (times.map fun time => (newChatMessage time).packetId.toNat).Nodup := by
    refine List.pairwise_map.mpr ((List.pairwise_map.mp distinct).imp ?_)
    exact fun apart equal => apart (BitVec.toNat_inj.mp equal)
  -- All ids are among the first sixteen numbers.
  have among : (times.map fun time => (newChatMessage time).packetId.toNat) ⊆ List.range 16 := by
    intro id member
    obtain ⟨time, -, rfl⟩ := List.mem_map.mp member
    exact List.mem_range.mpr (packetId_lt time)
  have few := (ids.subperm among).length_le
  rw [List.length_map, List.length_range] at few
  omega

/-- Ids are not different whatever is made when: two messages in one second share theirs. -/
theorem not_distinctIds_two_messages :
    ¬ ∀ times, DistinctIds (newChatMessages times) := by
  intro distinct
  exact absurd (distinct [1421280000, 1421280000]) (by decide)

/-- Nor are they in different seconds. -/
example : ¬ DistinctIds (newChatMessages [0, 13]) := by decide

/-- Eight seconds do not keep them apart. -/
example : ¬ KeepsApart 8 := by decide

end Cevent
