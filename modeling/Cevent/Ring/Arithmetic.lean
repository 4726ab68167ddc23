import Cevent.MachineInt
import Cevent.Ring.Fifo

/-! The four operations of the ring in `int` arithmetic, and the rings on which none of it overflows. -/

namespace Cevent

open Interleaving

/-- `ce_rb_can_read`, where each value that it computes has to be an `int`. -/
def ceRbCanReadInt (rb : CeRb) : Option Int :=
  if rb.tail = rb.head then
    some (if rb.wrap then rb.capacity else 0)
  else if rb.tail > rb.head then
    intRange.keep (rb.tail - rb.head)
  else do
    -- C adds before it subtracts.
    let sum ← intRange.keep (rb.capacity + rb.tail)
    intRange.keep (sum - rb.head)

/-- `ce_rb_can_write`. -/
def ceRbCanWriteInt (rb : CeRb) : Option Int := do
  let canRead ← ceRbCanReadInt rb
  intRange.keep (rb.capacity - canRead)

/-- One copy from the head of the ring into `retval`, and the step of the head over it. -/
def CeRb.copyOutInt (rb : CeRb) (offset chunk : Int) : Option CeRb := do
  let sum ← intRange.keep (rb.head + chunk)
  let head ← intRange.rem sum rb.capacity
  some { rb.copyOut offset chunk with head := head }

/-- The block of `ce_rb_read` that joins bytes from both ends of the buffer in `retval`. -/
def CeRb.readWrappedInt (rb : CeRb) (count : Int) : Option CeRb := do
  let left ← intRange.keep (rb.capacity - rb.head)
  let tailChunk := min count left
  let headChunk ← intRange.keep (count - tailChunk)
  let needed ← intRange.keep (tailChunk + headChunk)
  let first ← { rb with retval := rb.retval.reserve needed }.copyOutInt 0 tailChunk
  if tailChunk < count then first.copyOutInt tailChunk headChunk else some first

/-- `ce_rb_read`. -/
def ceRbReadInt (rb : CeRb) (data : RbData) (count : Int) : Option RbRead :=
  if count < 0 then some { rb := rb, data := data, count := 0 }
  else do
    let canRead ← ceRbCanReadInt rb
    let count := min count canRead
    if count = 0 then some { rb := rb, data := .null, count := 0 }
    else
      let left ← intRange.keep (rb.capacity - rb.head)
      if left > count then
        let sum ← intRange.keep (rb.head + count)
        let head ← intRange.rem sum rb.capacity
        some { rb := { rb with head := head }, data := .buffer rb.head, count := count }
      else
        let joined ← rb.readWrappedInt count
        some { rb := { joined with wrap := false }, data := .retval, count := count }

/-- One copy of the caller's bytes to the tail of the ring, and the step of the tail over it. -/
def CeRb.copyInInt (rb : CeRb) (bytes : Bytes) (offset chunk : Int) : Option CeRb := do
  let sum ← intRange.keep (rb.tail + chunk)
  let tail ← intRange.rem sum rb.capacity
  some { rb.copyIn bytes offset chunk with tail := tail }

/-- The block of `ce_rb_write` that copies up to the end of the buffer and on from its start. -/
def CeRb.writeWrappedInt (rb : CeRb) (bytes : Bytes) (count : Int) : Option CeRb := do
  let left ← intRange.keep (rb.capacity - rb.tail)
  let tailChunk := min count left
  let first ← rb.copyInInt bytes 0 tailChunk
  if tailChunk < count then
    let headChunk ← intRange.keep (count - tailChunk)
    first.copyInInt bytes tailChunk headChunk
  else some first

/-- `ce_rb_write`. -/
def ceRbWriteInt (rb : CeRb) (data : Option Bytes) (count : Int) : Option RbWrite :=
  match data with
  | none => some { rb := rb, count := 0 }
  | some bytes =>
    if count ≤ 0 then some { rb := rb, count := 0 }
    else do
      let canWrite ← ceRbCanWriteInt rb
      let count := min count canWrite
      if count = 0 then some { rb := rb, count := 0 }
      else
        let copied ← rb.writeWrappedInt bytes count
        some { rb := copied.markFull, count := count }

/-- No value that a call on the ring computes leaves the range of an `int`, and no divisor is zero. -/
structure ArithmeticFits (rb : CeRb) : Prop where
  canRead : ceRbCanReadInt rb ≠ none
  canWrite : ceRbCanWriteInt rb ≠ none
  read : ∀ data count, ceRbReadInt rb data count ≠ none
  write : ∀ data count, ceRbWriteInt rb data count ≠ none

/-- The bytes that wait go round the end of the buffer, and `capacity + tail` is no `int`. -/
def CeRb.SumOverflows (rb : CeRb) : Prop := rb.tail < rb.head ∧ intMax < rb.capacity + rb.tail

/-- A value between zero and the largest `int` is its own result. -/
theorem keep_int {value : Int} (nonneg : 0 ≤ value) (small : value ≤ intMax) :
    intRange.keep value = some value :=
  Ranged.Range.keep_of_holds ⟨Int.le_trans (by decide) nonneg, small⟩

/-- A position below two rounds, and below the largest `int`, has its remainder as the result. -/
theorem rem_int {value size : Int} (nonneg : 0 ≤ value) (small : value ≤ intMax)
    (positive : 0 < size) : intRange.rem value size = some (value % size) :=
  Ranged.Range.rem_of_nonneg (by decide) nonneg small positive

instance (rb : CeRb) : Decidable rb.SumOverflows :=
  inferInstanceAs (Decidable (rb.tail < rb.head ∧ intMax < rb.capacity + rb.tail))

section Exact

variable {rb : CeRb}

/-- `ce_rb_can_read` has a result but where its sum overflows. -/
theorem ceRbCanReadInt_eq (wf : rb.WellFormed) (int : rb.capacity ≤ intMax)
    (fits : ¬ rb.SumOverflows) : ceRbCanReadInt rb = some (ceRbCanRead rb) := by
  have := wf.head_nonneg; have := wf.head_lt; have := wf.tail_nonneg; have := wf.tail_lt
  unfold CeRb.SumOverflows at fits
  unfold ceRbCanReadInt ceRbCanRead
  by_cases meet : rb.tail = rb.head
  · simp only [meet, if_true]
  by_cases ahead : rb.tail > rb.head
  · simp only [meet, ahead, if_true, if_false]
    exact keep_int (by omega) (by omega)
  · -- The sum is an `int`, so the difference is computed, and is one too.
    simp only [meet, ahead, if_false]
    rw [keep_int (by omega) (by omega)]
    exact keep_int (by omega) (by omega)

/-- There it has none. -/
theorem ceRbCanReadInt_eq_none (overflows : rb.SumOverflows) : ceRbCanReadInt rb = none := by
  obtain ⟨round, large⟩ := overflows
  have out : intRange.keep (rb.capacity + rb.tail) = none :=
    Ranged.Range.keep_eq_none_iff.mpr fun holds => absurd holds.2 (Int.not_le.mpr large)
  rw [ceRbCanReadInt, if_neg (Int.ne_of_lt round), if_neg (Int.not_lt.mpr (Int.le_of_lt round)), out]
  rfl

/-- `ce_rb_can_write` has its result then. -/
theorem ceRbCanWriteInt_eq (wf : rb.WellFormed) (int : rb.capacity ≤ intMax)
    (fits : ¬ rb.SumOverflows) : ceRbCanWriteInt rb = some (ceRbCanWrite rb) := by
  have nonneg := wf.canRead_nonneg
  have bound := wf.canRead_le
  rw [ceRbCanWriteInt, ceRbCanReadInt_eq wf int fits]
  exact keep_int (by omega) (by omega)

/-- A copy out of the ring that ends within two rounds moves the head without an overflow. -/
theorem copyOutInt_eq (rb : CeRb) (offset : Int) {chunk : Int} (nonneg : 0 ≤ rb.head + chunk)
    (small : rb.head + chunk ≤ intMax) (positive : 0 < rb.capacity) :
    rb.copyOutInt offset chunk = some (rb.copyOut offset chunk) := by
  rw [CeRb.copyOutInt, keep_int nonneg small]
  show (intRange.rem (rb.head + chunk) rb.capacity).bind _ = _
  rw [rem_int nonneg small positive]
  rfl

/-- So does a copy into the ring with the tail. -/
theorem copyInInt_eq (rb : CeRb) (bytes : Bytes) (offset : Int) {chunk : Int}
    (nonneg : 0 ≤ rb.tail + chunk) (small : rb.tail + chunk ≤ intMax) (positive : 0 < rb.capacity) :
    rb.copyInInt bytes offset chunk = some (rb.copyIn bytes offset chunk) := by
  rw [CeRb.copyInInt, keep_int nonneg small]
  show (intRange.rem (rb.tail + chunk) rb.capacity).bind _ = _
  rw [rem_int nonneg small positive]
  rfl

/-- A wrapping read computes nothing that is no `int`. -/
theorem readWrappedInt_eq (wf : rb.WellFormed) (int : rb.capacity ≤ intMax) {n : Int}
    (positive : 0 < n) (room : n ≤ ceRbCanRead rb) :
    rb.readWrappedInt n = some (rb.readWrapped n) := by
  have := wf.capacity_pos; have := wf.head_nonneg; have := wf.head_lt
  have bound := wf.canRead_le
  have left : intRange.keep (rb.capacity - rb.head) = some (rb.capacity - rb.head) :=
    keep_int (by omega) (by omega)
  obtain ⟨chunk, chunkEq⟩ : ∃ chunk, chunk = min n (rb.capacity - rb.head) := ⟨_, rfl⟩
  have rest : intRange.keep (n - chunk) = some (n - chunk) := keep_int (by omega) (by omega)
  have whole : intRange.keep (chunk + (n - chunk)) = some (chunk + (n - chunk)) :=
    keep_int (by omega) (by omega)
  obtain ⟨reserved, reservedEq⟩ : ∃ reserved : CeRb,
    reserved = { rb with retval := rb.retval.reserve (chunk + (n - chunk)) } := ⟨_, rfl⟩
  have first : reserved.copyOutInt 0 chunk = some (reserved.copyOut 0 chunk) := by
    subst reservedEq
    exact copyOutInt_eq _ 0 (by show 0 ≤ rb.head + chunk; omega)
      (by show rb.head + chunk ≤ intMax; omega) wf.capacity_pos
  simp only [CeRb.readWrappedInt, CeRb.readWrapped, left, Option.bind_eq_bind, Option.bind_some,
    ← chunkEq, rest, whole, ← reservedEq, first]
  by_cases split : chunk < n
  · -- The first copy has come to the end of the buffer, so the head is back at its start.
    have home : (reserved.copyOut 0 chunk).head = 0 := by
      have full : rb.head + chunk = rb.capacity := by omega
      subst reservedEq
      exact copyOut_home _ 0 full
    have size : (reserved.copyOut 0 chunk).capacity = rb.capacity := by rw [reservedEq]; rfl
    rw [if_pos split, if_pos split]
    exact copyOutInt_eq _ chunk (by rw [home]; omega) (by rw [home]; omega) (by omega)
  · rw [if_neg split, if_neg split]

/-- A write with room for its bytes computes nothing that is no `int`. -/
theorem writeWrappedInt_eq (wf : rb.WellFormed) (int : rb.capacity ≤ intMax) (bytes : Bytes)
    {n : Int} (positive : 0 < n) (room : n ≤ ceRbCanWrite rb) :
    rb.writeWrappedInt bytes n = some (rb.writeWrapped bytes n) := by
  have := wf.capacity_pos; have := wf.tail_nonneg; have := wf.tail_lt
  have nonneg := wf.canRead_nonneg
  have free : n ≤ rb.capacity - ceRbCanRead rb := room
  have left : intRange.keep (rb.capacity - rb.tail) = some (rb.capacity - rb.tail) :=
    keep_int (by omega) (by omega)
  obtain ⟨chunk, chunkEq⟩ : ∃ chunk, chunk = min n (rb.capacity - rb.tail) := ⟨_, rfl⟩
  have first : rb.copyInInt bytes 0 chunk = some (rb.copyIn bytes 0 chunk) :=
    copyInInt_eq rb bytes 0 (by omega) (by omega) wf.capacity_pos
  simp only [CeRb.writeWrappedInt, CeRb.writeWrapped, left, Option.bind_eq_bind, Option.bind_some,
    ← chunkEq, first]
  by_cases split : chunk < n
  · -- The first copy has come to the end of the buffer, so the tail is back at its start.
    have rest : intRange.keep (n - chunk) = some (n - chunk) := keep_int (by omega) (by omega)
    have home : (rb.copyIn bytes 0 chunk).tail = 0 := copyIn_home rb bytes 0 (by omega)
    rw [if_pos split, if_pos split, rest]
    exact copyInInt_eq _ bytes chunk (by rw [home]; omega) (by rw [home]; omega) wf.capacity_pos
  · rw [if_neg split, if_neg split]

/-- Where the sum is an `int`, a read computes what the ring of integers computes. -/
theorem ceRbReadInt_eq (wf : rb.WellFormed) (int : rb.capacity ≤ intMax)
    (fits : ¬ rb.SumOverflows) (data : RbData) (count : Int) :
    ceRbReadInt rb data count = some (ceRbRead rb data count) := by
  have := wf.capacity_pos; have := wf.head_nonneg; have := wf.head_lt
  have nonneg := wf.canRead_nonneg
  have left : intRange.keep (rb.capacity - rb.head) = some (rb.capacity - rb.head) :=
    keep_int (by omega) (by omega)
  unfold ceRbReadInt ceRbRead
  by_cases refused : count < 0
  · rw [if_pos refused, if_pos refused]
  rw [if_neg refused, if_neg refused, ceRbCanReadInt_eq wf int fits]
  -- From here on the two differ in the checks of their sums only.
  obtain ⟨n, least⟩ : ∃ n, n = min count (ceRbCanRead rb) := ⟨_, rfl⟩
  simp only [Option.bind_eq_bind, Option.bind_some, ← least, left]
  by_cases nothing : n = 0
  · rw [if_pos nothing, if_pos nothing]
  rw [if_neg nothing, if_neg nothing]
  by_cases straight : rb.capacity - rb.head > n
  · rw [if_pos straight, if_pos straight, keep_int (by omega) (by omega), Option.bind_some,
      rem_int (by omega) (by omega) wf.capacity_pos, Option.bind_some]
  · rw [if_neg straight, if_neg straight, readWrappedInt_eq wf int (by omega) (by omega),
      Option.bind_some]

/-- So does a write. -/
theorem ceRbWriteInt_eq (wf : rb.WellFormed) (int : rb.capacity ≤ intMax)
    (fits : ¬ rb.SumOverflows) (data : Option Bytes) (count : Int) :
    ceRbWriteInt rb data count = some (ceRbWrite rb data count) := by
  have bound := wf.canRead_le
  cases data with
  | none => rfl
  | some bytes =>
    unfold ceRbWriteInt ceRbWrite
    dsimp only
    by_cases refused : count ≤ 0
    · rw [if_pos refused, if_pos refused]
    rw [if_neg refused, if_neg refused, ceRbCanWriteInt_eq wf int fits]
    obtain ⟨n, least⟩ : ∃ n, n = min count (ceRbCanWrite rb) := ⟨_, rfl⟩
    simp only [Option.bind_eq_bind, Option.bind_some, ← least]
    by_cases full : n = 0
    · rw [if_pos full, if_pos full]
    have free : 0 ≤ ceRbCanWrite rb := Int.sub_nonneg_of_le bound
    rw [if_neg full, if_neg full, writeWrappedInt_eq wf int bytes (by omega) (by omega),
      Option.bind_some]

/-- All of a ring's arithmetic fits just when the one sum does. -/
theorem arithmeticFits_iff (wf : rb.WellFormed) (int : rb.capacity ≤ intMax) :
    ArithmeticFits rb ↔ ¬ rb.SumOverflows := by
  constructor
  · intro fits overflows
    exact fits.canRead (ceRbCanReadInt_eq_none overflows)
  · intro fits
    refine ⟨?_, ?_, ?_, ?_⟩
    · rw [ceRbCanReadInt_eq wf int fits]
      simp
    · rw [ceRbCanWriteInt_eq wf int fits]
      simp
    · intro data count
      rw [ceRbReadInt_eq wf int fits]
      simp
    · intro data count
      rw [ceRbWriteInt_eq wf int fits]
      simp

/-- On a machine whose sums wrap round, the difference is right all the same. -/
theorem ceRbCanRead_wrapped (wf : rb.WellFormed) (int : rb.capacity ≤ intMax)
    (round : rb.tail < rb.head) :
    wrapInt (wrapInt (rb.capacity + rb.tail) - rb.head) = ceRbCanRead rb := by
  have := wf.head_lt; have := wf.tail_nonneg
  have value : ceRbCanRead rb = rb.capacity + rb.tail - rb.head := by
    rw [ceRbCanRead, if_neg (Int.ne_of_lt round), if_neg (Int.not_lt.mpr (Int.le_of_lt round))]
  -- Taking a whole turn off the sum takes one off the difference, which is an `int` again.
  have turns : wrapInt (wrapInt (rb.capacity + rb.tail) - rb.head) =
      wrapInt (rb.capacity + rb.tail - rb.head) := Int.bmod_sub_bmod ..
  rw [turns, value]
  exact wrapInt_of_le (by omega) (by omega)

/-- A write with room for its bytes moves the tail over them, and round the end at most once. -/
theorem ceRbWrite_moves (wf : rb.WellFormed) {bytes : Bytes} {n : Int} (positive : 0 < n)
    (room : n ≤ ceRbCanWrite rb) (source : n ≤ bytes.length) :
    let next := (ceRbWrite rb (some bytes) n).rb
    next.head = rb.head ∧ next.capacity = rb.capacity ∧ next.tail =
      if rb.tail + n < rb.capacity then rb.tail + n else rb.tail + n - rb.capacity := by
  have appended := writeWrapped_appended wf positive room source
  obtain ⟨-, head, tail, capacity, -⟩ := markFull_fields (rb.writeWrapped bytes n)
  have written : (ceRbWrite rb (some bytes) n).rb = (rb.writeWrapped bytes n).markFull := by
    simp only [ceRbWrite, if_neg (Int.not_le.mpr positive), Int.min_eq_left room,
      if_neg (Int.ne_of_gt positive)]
  rw [written]
  exact ⟨head.trans appended.head, capacity.trans appended.capacity, tail.trans appended.tail⟩

/-- A read that stops short of the end moves the head over its bytes. -/
theorem ceRbRead_moves (wf : rb.WellFormed) {n : Int} (positive : 0 < n)
    (held : n ≤ ceRbCanRead rb) (straight : rb.head + n < rb.capacity) :
    let next := (ceRbRead rb .null n).rb
    next.head = rb.head + n ∧ next.capacity = rb.capacity ∧ next.tail = rb.tail := by
  have := wf.head_nonneg
  rcases ceRbRead_cases rb .null (Int.le_of_lt positive) (Int.min_eq_left held).symm with
    ⟨nothing, -⟩ | ⟨-, -, taken⟩ | ⟨-, wraps, -⟩
  · omega
  · rw [taken]
    exact ⟨Int.emod_eq_of_lt (by omega) straight, rfl, rfl⟩
  · omega

end Exact

/-- As many zero bytes as a count says, as they are passed to `ce_rb_write`. -/
def zeroSource (count : Int) : RbSource where
  bytes := List.replicate count.toNat 0
  count := count
  backed := by
    rw [List.length_replicate]
    exact Int.self_le_toNat count

/-- So many bytes are written and read again. -/
def fillAndDrain (count : Int) : List RbCall := [.write (some (zeroSource count)), .read count]

/-- All but one byte of a ring is written, read, and written once more. -/
def fillTwice (capacity : Int) : List RbCall :=
  fillAndDrain (capacity - 1) ++ [.write (some (zeroSource (capacity - 1)))]

/-- A new ring that was filled short of its end and drained is empty behind the bytes. -/
theorem fillAndDrain_reaches {capacity n : Int} (positive : 0 < n) (short : n < capacity) :
    ∃ rb replies, ringMachine.exec (ceRbNew capacity) (fillAndDrain n) = some (rb, replies) ∧
      rb.WellFormed ∧ rb.content = [] ∧ rb.capacity = capacity ∧ rb.head = n ∧ rb.tail = n := by
  have wf := ceRbNew_wellFormed (by omega : 0 < capacity)
  have backed := (zeroSource n).backed
  obtain ⟨filled, filledEq⟩ : ∃ filled, filled =
    (ceRbWrite (ceRbNew capacity) (some (zeroSource n).bytes) n).rb := ⟨_, rfl⟩
  -- The write starts at the beginning of the buffer, and stays short of its end.
  obtain ⟨head, size, tail⟩ := ceRbWrite_moves wf positive
    (by rw [wf.canWrite_eq, ceRbNew_content]; show n ≤ capacity - 0; omega) backed
  have wf' := (ceRbWrite_spec wf positive backed).wellFormed
  rw [← filledEq] at head size tail wf'
  replace head : filled.head = 0 := head
  replace size : filled.capacity = capacity := size
  replace tail : filled.tail = n := by
    rw [tail]
    show (if 0 + n < capacity then 0 + n else 0 + n - capacity) = n
    rw [if_pos (by omega), Int.zero_add]
  have waits : ceRbCanRead filled = n := by
    rw [ceRbCanRead, if_neg (by omega), if_pos (by omega), tail, head, Int.sub_zero]
  -- The read hands out all that waits.
  obtain ⟨head', size', tail'⟩ := ceRbRead_moves wf' positive (by omega) (by omega)
  have spec := ceRbRead_spec wf' .null (by omega : 0 ≤ n)
  refine ⟨(ceRbRead filled .null n).rb, _, by subst filledEq; rfl, spec.wellFormed, ?_, by omega,
    by omega, by omega⟩
  rw [spec.content, waits, Int.min_self]
  exact List.drop_eq_nil_of_le (by have := wf'.canRead_eq; omega)

/-- One that was filled twice has its tail right before its head, at the end of the buffer. -/
theorem fillTwice_reaches {capacity : Int} (two : 2 ≤ capacity) : ∃ last replies,
    ringMachine.exec (ceRbNew capacity) (fillTwice capacity) = some (last, replies) ∧
      last.capacity = capacity ∧ last.head = capacity - 1 ∧ last.tail = capacity - 2 := by
  obtain ⟨n, count⟩ : ∃ n, n = capacity - 1 := ⟨_, rfl⟩
  obtain ⟨rb, replies, ran, wf, empty, size, head, tail⟩ :=
    fillAndDrain_reaches (by omega : 0 < n) (by omega : n < capacity)
  have free : ceRbCanWrite rb = capacity := by
    rw [wf.canWrite_eq, empty, size]
    exact Int.sub_zero _
  -- The second write goes round the end, and leaves one byte free.
  obtain ⟨head', size', tail'⟩ :=
    ceRbWrite_moves wf (by omega : 0 < n) (by omega) (zeroSource n).backed
  refine ⟨(ceRbWrite rb (some (zeroSource n).bytes) n).rb, _,
    ringMachine.exec_snoc.mpr ⟨rb, replies, _, count ▸ ran, by rw [← count]; rfl, rfl⟩, by omega,
    by omega, ?_⟩
  rw [tail', if_neg (by omega)]
  omega

/-- On a ring of up to `2 ^ 30` bytes no state overflows, and on every larger one some state does. -/
theorem ring_arithmetic_fits_iff (capacity : Int) (positive : 1 ≤ capacity)
    (int : capacity ≤ intMax) :
    (∀ calls last replies, ringMachine.exec (ceRbNew capacity) calls = some (last, replies) →
      ArithmeticFits last) ↔ capacity ≤ 2 ^ 30 := by
  constructor
  · intro fits
    by_contra large
    obtain ⟨last, replies, ran, size, head, tail⟩ :=
      fillTwice_reaches (by omega : 2 ≤ capacity)
    -- Head and tail lie at the end of the buffer, so the sum is nearly twice the capacity.
    refine (fits _ last replies ran).canRead (ceRbCanReadInt_eq_none ⟨by omega, ?_⟩)
    rw [size, tail, intMax]
    omega
  · intro small calls last replies ran
    obtain ⟨q, stands⟩ := StandsFor.reached positive ran
    have size := stands.ring
    have tail := stands.wellFormed.tail_lt
    refine (arithmeticFits_iff stands.wellFormed (by omega)).mpr ?_
    -- A tail behind the head is below the capacity, so the sum stays below twice `2 ^ 30`.
    rintro ⟨round, large⟩
    have := stands.wellFormed.head_lt
    rw [intMax] at large
    omega

/-- A ring of four bytes that is filled twice has its tail behind its head, and does not overflow. -/
theorem ring_arithmetic_fits_four : ∃ last replies,
    ringMachine.exec (ceRbNew 4) (fillTwice 4) = some (last, replies) ∧ last.tail < last.head ∧
      ArithmeticFits last :=
  ⟨_, _, rfl, by decide,
    (ring_arithmetic_fits_iff 4 (by decide) (by decide)).mpr (by decide) (fillTwice 4) _ _ rfl⟩

/-- Of the largest ring that the server accepts, one that is filled twice does. -/
theorem ring_arithmetic_overflows : ¬ ∀ calls last replies,
    ringMachine.exec (ceRbNew intMax) calls = some (last, replies) → ArithmeticFits last := by
  intro fits
  obtain ⟨last, replies, ran, size, head, tail⟩ := fillTwice_reaches (by decide : 2 ≤ intMax)
  refine (fits _ last replies ran).canRead (ceRbCanReadInt_eq_none ⟨?_, ?_⟩)
  · rw [head, tail]
    decide
  · rw [size, tail]
    decide

end Cevent
