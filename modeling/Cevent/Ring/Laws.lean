import Cevent.Ring.Buffer

/-! The positions a ring can be in, and what its reads and writes do to the bytes it holds. -/

namespace Cevent

/-- An index below two rounds is its own remainder, or lies one round beyond it. -/
theorem emod_cases {a n : Int} (nonneg : 0 ≤ a) (below : a < 2 * n) :
    (a < n ∧ a % n = a) ∨ (n ≤ a ∧ a % n = a - n) := by
  -- Taking one round away lands below `n` in the second case.
  rcases Int.lt_or_le a n with inside | beyond
  · exact .inl ⟨inside, Int.emod_eq_of_lt nonneg inside⟩
  · refine .inr ⟨beyond, ?_⟩
    rw [← Int.sub_emod_right a n, Int.emod_eq_of_lt (by omega) (by omega)]

/-- A stretch that lies inside the memory has the length asked for. -/
theorem length_bytesAt {memory : Bytes} {offset count : Int} (start : 0 ≤ offset)
    (inside : offset + count ≤ memory.length) :
    (bytesAt memory offset count).length = count.toNat := by
  simp only [bytesAt, List.length_take, List.length_drop]
  omega

/--
The states a ring moves through.

A set wrap flag means that the tail has not passed the head since the ring was last full.
A read that stops short of the end leaves the flag set, and this is why that does no harm.
-/
structure CeRb.WellFormed (rb : CeRb) : Prop where
  capacity_pos : 0 < rb.capacity
  buffer_length : rb.buffer.length = rb.capacity.toNat
  head_nonneg : 0 ≤ rb.head
  head_lt : rb.head < rb.capacity
  tail_nonneg : 0 ≤ rb.tail
  tail_lt : rb.tail < rb.capacity
  wrap_tail_le : rb.wrap = true → rb.tail ≤ rb.head
  retval_size : rb.retval.size = (rb.retval.buffer.getD []).length

/-- The bytes that wait in the ring, oldest first. -/
def CeRb.content (rb : CeRb) : Bytes :=
  Cyclic.window rb.buffer rb.head.toNat (ceRbCanRead rb).toNat

/-- A new ring is in one of these states. -/
theorem ceRbNew_wellFormed {capacity : Int} (positive : 0 < capacity) :
    (ceRbNew capacity).WellFormed := by
  -- Both positions are zero, and the flag that would bind them is not set.
  constructor <;> simp [ceRbNew, positive]

/-- A new ring holds nothing. -/
@[simp] theorem ceRbNew_content (capacity : Int) : (ceRbNew capacity).content = [] := by
  -- Head and tail meet, and the flag that would make the ring full is down.
  simp [CeRb.content, ceRbNew, ceRbCanRead]

variable {rb : CeRb}

/-- No ring has fewer than no bytes to read. -/
theorem CeRb.WellFormed.canRead_nonneg (wf : rb.WellFormed) : 0 ≤ ceRbCanRead rb := by
  -- Only a tail behind the head needs the bounds on both.
  have := wf.capacity_pos; have := wf.head_lt; have := wf.tail_nonneg
  unfold ceRbCanRead
  split_ifs <;> omega

/-- No ring has more bytes to read than its capacity. -/
theorem CeRb.WellFormed.canRead_le (wf : rb.WellFormed) : ceRbCanRead rb ≤ rb.capacity := by
  -- A tail before the head lies less than one round behind it.
  have := wf.capacity_pos; have := wf.head_nonneg; have := wf.tail_lt
  unfold ceRbCanRead
  split_ifs <;> omega

/-- The count of readable bytes is the length of what waits in the ring. -/
theorem CeRb.WellFormed.canRead_eq (wf : rb.WellFormed) :
    ceRbCanRead rb = rb.content.length := by
  -- A window that is no longer than the buffer has the length asked for.
  have nonneg := wf.canRead_nonneg
  have bound := wf.canRead_le
  rw [CeRb.content, Cyclic.length_window (by rw [wf.buffer_length]; omega)]
  omega

/-- The free count is the capacity less the length of what waits in the ring. -/
theorem CeRb.WellFormed.canWrite_eq (wf : rb.WellFormed) :
    ceRbCanWrite rb = rb.capacity - rb.content.length := by
  rw [ceRbCanWrite, wf.canRead_eq]

/-- What waits in the ring never exceeds its capacity. -/
theorem CeRb.WellFormed.content_length_le (wf : rb.WellFormed) :
    (rb.content.length : Int) ≤ rb.capacity := by
  -- The window is as long as the readable count, which the capacity bounds.
  have bound := wf.canRead_le
  rwa [wf.canRead_eq] at bound

/-- The tail is the position right after the waiting bytes. -/
theorem CeRb.WellFormed.tail_eq (wf : rb.WellFormed) :
    rb.tail.toNat = (rb.head.toNat + (ceRbCanRead rb).toNat) % rb.buffer.length := by
  have := wf.capacity_pos; have := wf.head_nonneg; have := wf.head_lt
  have := wf.tail_nonneg; have := wf.tail_lt; have length := wf.buffer_length
  have nonneg := wf.canRead_nonneg
  have bound := wf.canRead_le
  -- The end of the window lies in this round of the buffer or in the next one.
  have ends := Cyclic.mod_cases (a := rb.head.toNat + (ceRbCanRead rb).toNat)
    (n := rb.buffer.length) (by omega)
  revert ends nonneg bound
  unfold ceRbCanRead
  split_ifs <;> omega

/-- One copy to the tail appends its bytes to any window that ends at the tail. -/
theorem copyIn_window (rb : CeRb) (bytes : Bytes) (offset chunk : Int) {len : Nat}
    (length : rb.buffer.length = rb.capacity.toNat) (head : rb.head.toNat < rb.buffer.length)
    (ends : rb.tail.toNat = (rb.head.toNat + len) % rb.buffer.length)
    (start : 0 ≤ offset) (positive : 0 ≤ chunk) (source : offset + chunk ≤ bytes.length)
    (room : len + chunk.toNat ≤ rb.buffer.length) (straight : rb.tail + chunk ≤ rb.capacity) :
    Cyclic.window (rb.copyIn bytes offset chunk).buffer rb.head.toNat (len + chunk.toNat) =
      Cyclic.window rb.buffer rb.head.toNat len ++ bytesAt bytes offset chunk := by
  -- The bytes copied are as many as the tail moves, so the window grows by just these.
  have width := length_bytesAt start source
  rw [← width]
  exact Cyclic.window_overwrite_append head (by omega) ends (by omega)

/-- One copy to the tail keeps the size of the buffer. -/
theorem copyIn_length {bytes : Bytes} {offset chunk : Int}
    (length : rb.buffer.length = rb.capacity.toNat) (tail : 0 ≤ rb.tail)
    (start : 0 ≤ offset) (positive : 0 ≤ chunk) (source : offset + chunk ≤ bytes.length)
    (straight : rb.tail + chunk ≤ rb.capacity) :
    (rb.copyIn bytes offset chunk).buffer.length = rb.buffer.length := by
  have width := length_bytesAt start source
  exact Cyclic.length_overwrite (by omega)

/-- A copy up to the end of the buffer brings the tail back to its start. -/
theorem copyIn_home (rb : CeRb) (bytes : Bytes) (offset : Int) {chunk : Int}
    (full : rb.tail + chunk = rb.capacity) : (rb.copyIn bytes offset chunk).tail = 0 := by
  show (rb.tail + chunk) % rb.capacity = 0
  rw [full, Int.emod_self]

/-- So does a copy out of the buffer with the head. -/
theorem copyOut_home (rb : CeRb) (offset : Int) {chunk : Int}
    (full : rb.head + chunk = rb.capacity) : (rb.copyOut offset chunk).head = 0 := by
  show (rb.head + chunk) % rb.capacity = 0
  rw [full, Int.emod_self]

/-- Two stretches of memory that meet make up the stretch that covers both. -/
theorem bytesAt_append (memory : Bytes) {offset first second : Int} (start : 0 ≤ offset)
    (left : 0 ≤ first) (right : 0 ≤ second) :
    bytesAt memory offset first ++ bytesAt memory (offset + first) second =
      bytesAt memory offset (first + second) := by
  -- Both stretches count from the same offset, so the lengths add up.
  have moved : (offset + first).toNat = offset.toNat + first.toNat := by omega
  have total : (first + second).toNat = first.toNat + second.toNat := by omega
  rw [bytesAt, bytesAt, bytesAt, moved, total, List.take_add, List.drop_drop]

/-- The front of some bytes, taken in two parts. -/
theorem bytesAt_front (bytes : Bytes) {chunk n : Int} (start : 0 ≤ chunk) (inside : chunk ≤ n) :
    bytesAt bytes 0 chunk ++ bytesAt bytes chunk (n - chunk) = bytes.take n.toNat := by
  have parts := bytesAt_append bytes (Int.le_refl 0) start (by omega : 0 ≤ n - chunk)
  rwa [Int.zero_add, show chunk + (n - chunk) = n by omega] at parts

/-- What the copies of a write leave of a ring, before the wrap flag is looked at. -/
structure CeRb.Appended (rb copied : CeRb) (bytes : Bytes) (n : Int) : Prop where
  head : copied.head = rb.head
  tail : copied.tail = if rb.tail + n < rb.capacity then rb.tail + n else rb.tail + n - rb.capacity
  wrap : copied.wrap = rb.wrap
  capacity : copied.capacity = rb.capacity
  retval : copied.retval = rb.retval
  length : copied.buffer.length = rb.buffer.length
  window : Cyclic.window copied.buffer rb.head.toNat ((ceRbCanRead rb).toNat + n.toNat) =
    rb.content ++ bytes.take n.toNat

/-- A window that reaches the end of the buffer is continued from its start. -/
theorem CeRb.WellFormed.window_comes_round (wf : rb.WellFormed) {chunk : Int}
    (full : rb.tail + chunk = rb.capacity) (room : chunk ≤ ceRbCanWrite rb) :
    0 = (rb.head.toNat + ((ceRbCanRead rb).toNat + chunk.toNat)) % rb.buffer.length := by
  have := wf.capacity_pos; have := wf.head_nonneg; have := wf.head_lt
  have := wf.tail_nonneg; have := wf.tail_lt; have length := wf.buffer_length
  have nonneg := wf.canRead_nonneg
  have ends := wf.tail_eq
  simp only [ceRbCanWrite] at room
  -- Neither the tail nor the end of the longer window is more than one round ahead of the head.
  have lands := Cyclic.mod_cases (a := rb.head.toNat + ((ceRbCanRead rb).toNat + chunk.toNat))
    (n := rb.buffer.length) (by omega)
  have before := Cyclic.mod_cases (a := rb.head.toNat + (ceRbCanRead rb).toNat)
    (n := rb.buffer.length) (by omega)
  omega

/-- A copy that stops at the end of the buffer at the latest appends its bytes. -/
theorem copyIn_appended (wf : rb.WellFormed) {bytes : Bytes} {chunk : Int} (positive : 0 < chunk)
    (room : chunk ≤ ceRbCanWrite rb) (source : chunk ≤ bytes.length)
    (straight : rb.tail + chunk ≤ rb.capacity) :
    rb.Appended (rb.copyIn bytes 0 chunk) bytes chunk := by
  have := wf.capacity_pos; have := wf.head_nonneg; have := wf.head_lt
  have tailNonneg := wf.tail_nonneg; have := wf.tail_lt; have length := wf.buffer_length
  have nonneg := wf.canRead_nonneg
  simp only [ceRbCanWrite] at room
  constructor
  · rfl
  · -- A tail that comes to the end is back at the start.
    show (rb.tail + chunk) % rb.capacity = _
    have step := emod_cases (a := rb.tail + chunk) (n := rb.capacity) (by omega) (by omega)
    split_ifs <;> omega
  · rfl
  · rfl
  · rfl
  · exact copyIn_length length tailNonneg (by omega) (by omega) (by omega) straight
  · exact copyIn_window rb bytes 0 chunk length (by omega) wf.tail_eq (by omega) (by omega)
      (by omega) (by omega) straight

/-- A copy up to the end of the buffer leaves the tail at its start. -/
theorem CeRb.Appended.tail_home {first : CeRb} {bytes : Bytes} {chunk : Int}
    (appended : rb.Appended first bytes chunk) (full : rb.tail + chunk = rb.capacity) :
    first.tail = 0 := by
  rw [appended.tail, if_neg (by omega)]
  omega

/-- After a copy up to the end of the buffer, the next one appends the bytes that follow. -/
theorem CeRb.Appended.copyIn (wf : rb.WellFormed) {first : CeRb} {bytes : Bytes} {chunk n : Int}
    (appended : rb.Appended first bytes chunk) (positive : 0 < chunk) (more : chunk < n)
    (full : rb.tail + chunk = rb.capacity) (room : n ≤ ceRbCanWrite rb)
    (source : n ≤ bytes.length) :
    rb.Appended (first.copyIn bytes chunk (n - chunk)) bytes n := by
  have := wf.capacity_pos; have := wf.head_nonneg; have := wf.head_lt
  have := wf.tail_nonneg; have := wf.tail_lt; have length := wf.buffer_length
  have nonneg := wf.canRead_nonneg
  have meets := wf.window_comes_round full (by omega)
  simp only [ceRbCanWrite] at room
  have sameLength := appended.length
  have sameCapacity := appended.capacity
  have atStart := appended.tail_home full
  have second := copyIn_window first bytes chunk (n - chunk) (by rw [sameLength, sameCapacity, length])
    (by rw [sameLength, appended.head]; omega) (by rw [atStart, appended.head, sameLength]; exact meets)
    (by omega) (by omega) (by omega) (by omega) (by omega)
  have lengths : (ceRbCanRead rb).toNat + n.toNat =
      (ceRbCanRead rb).toNat + chunk.toNat + (n - chunk).toNat := by omega
  constructor
  · exact appended.head
  · -- The second copy leaves the tail as far behind the start as it copies.
    show (first.tail + (n - chunk)) % first.capacity = _
    have step := emod_cases (a := first.tail + (n - chunk)) (n := rb.capacity)
      (by omega) (by omega)
    rw [sameCapacity]
    split_ifs <;> omega
  · exact appended.wrap
  · exact sameCapacity
  · exact appended.retval
  · rw [copyIn_length (by rw [sameLength, sameCapacity, length]) (by omega) (by omega) (by omega)
      (by omega) (by omega), sameLength]
  · have whole : bytes.take chunk.toNat = bytesAt bytes 0 chunk := rfl
    rw [appended.head] at second
    -- Together the two copies take the bytes of the caller in order.
    rw [lengths, second, appended.window, whole, List.append_assoc,
      bytesAt_front bytes (by omega) (by omega)]

/-- A write makes one copy, or one up to the end of the buffer and one from its start on. -/
theorem writeWrapped_cases (wf : rb.WellFormed) (bytes : Bytes) (n : Int) :
    (rb.tail + n ≤ rb.capacity ∧ rb.writeWrapped bytes n = rb.copyIn bytes 0 n) ∨
      ∃ chunk, 0 < chunk ∧ chunk < n ∧ rb.tail + chunk = rb.capacity ∧
        rb.writeWrapped bytes n = (rb.copyIn bytes 0 chunk).copyIn bytes chunk (n - chunk) := by
  have := wf.tail_lt
  rcases Int.lt_or_le (rb.capacity - rb.tail) n with wraps | straight
  · refine .inr ⟨rb.capacity - rb.tail, by omega, wraps, by omega, ?_⟩
    simp only [CeRb.writeWrapped, Int.min_eq_right (Int.le_of_lt wraps), if_pos wraps]
  · refine .inl ⟨by omega, ?_⟩
    simp only [CeRb.writeWrapped, Int.min_eq_left straight, Int.lt_irrefl, if_false]

/-- The copies of a write move the tail over the bytes and append them to the window. -/
theorem writeWrapped_appended (wf : rb.WellFormed) {bytes : Bytes} {n : Int} (positive : 0 < n)
    (room : n ≤ ceRbCanWrite rb) (source : n ≤ bytes.length) :
    rb.Appended (rb.writeWrapped bytes n) bytes n := by
  rcases writeWrapped_cases wf bytes n with ⟨straight, once⟩ | ⟨chunk, some_, more, full, twice⟩
  · -- One copy takes all the bytes, and may end right at the end of the buffer.
    rw [once]
    exact copyIn_appended wf positive room source straight
  · -- The bytes wrap, and the second copy starts at the beginning of the buffer.
    have first : rb.Appended (rb.copyIn bytes 0 chunk) bytes chunk :=
      copyIn_appended wf some_ (by omega) (by omega) (by omega)
    rw [twice]
    exact first.copyIn wf some_ more full room source

/-- A `NULL` argument or a count that is not positive writes nothing. -/
theorem ceRbWrite_refused {data : Option Bytes} {count : Int}
    (refused : data = none ∨ count ≤ 0) : ceRbWrite rb data count = { rb := rb, count := 0 } := by
  -- The source looks at both arguments before it looks at the ring.
  cases data with
  | none => rfl
  | some bytes =>
    have stop : count ≤ 0 := by simpa using refused
    simp [ceRbWrite, stop]

/-- A full ring takes in nothing. -/
theorem ceRbWrite_full {data : Option Bytes} {count : Int} (full : ceRbCanWrite rb = 0) :
    ceRbWrite rb data count = { rb := rb, count := 0 } := by
  cases data with
  | none => rfl
  | some bytes =>
    by_cases stop : count ≤ 0
    · simp [ceRbWrite, stop]
    · -- What is left of the count is nothing, and the second check of the source returns.
      have least : min count (ceRbCanWrite rb) = 0 := by omega
      simp [ceRbWrite, stop, least]

/-- The wrap flag is raised exactly when the tail has met the head. -/
theorem markFull_wrap (copied : CeRb) :
    copied.markFull.wrap = (decide (copied.head = copied.tail) || copied.wrap) := by
  -- Otherwise the flag keeps its value, which a straight read may have left raised.
  unfold CeRb.markFull
  split_ifs with meet <;> simp [meet]

/-- Raising the wrap flag changes no other field. -/
theorem markFull_fields (copied : CeRb) : copied.markFull.buffer = copied.buffer ∧
    copied.markFull.head = copied.head ∧ copied.markFull.tail = copied.tail ∧
    copied.markFull.capacity = copied.capacity ∧ copied.markFull.retval = copied.retval := by
  -- Only the branch that raises the flag changes the record at all.
  unfold CeRb.markFull
  split_ifs <;> simp

/-- Appended bytes make a state of the ring, and they are what it holds more than before. -/
theorem CeRb.Appended.markFull {copied : CeRb} {bytes : Bytes} {n : Int} (wf : rb.WellFormed)
    (appended : rb.Appended copied bytes n) (positive : 0 < n) (room : n ≤ ceRbCanWrite rb) :
    copied.markFull.WellFormed ∧ copied.markFull.content = rb.content ++ bytes.take n.toNat := by
  have := wf.capacity_pos; have := wf.head_nonneg; have := wf.head_lt
  have := wf.tail_nonneg; have := wf.tail_lt; have flagged := wf.wrap_tail_le
  have free : n ≤ rb.capacity - ceRbCanRead rb := room
  have nonneg := wf.canRead_nonneg
  have tailEq := appended.tail
  obtain ⟨bufferEq, headEq, tailSame, capacityEq, retvalEq⟩ := markFull_fields copied
  have wrapEq := markFull_wrap copied
  rw [appended.head, appended.wrap] at wrapEq
  rw [appended.head] at headEq
  rw [appended.capacity] at capacityEq
  -- The readable count grows by exactly the bytes copied, whichever way the tail went.
  have canRead : ceRbCanRead copied.markFull = ceRbCanRead rb + n := by
    revert free
    simp only [ceRbCanRead, headEq, tailSame, capacityEq, wrapEq, Bool.or_eq_true,
      decide_eq_true_eq]
    -- A tail that meets the head raises the flag, so the full ring is not taken for an empty one.
    split_ifs at tailEq ⊢ <;> omega
  have flag : copied.markFull.wrap = true → copied.tail ≤ rb.head := by
    -- An older flag still stands, and then the free bytes end at the head.
    rw [wrapEq, Bool.or_eq_true, decide_eq_true_eq]
    rintro (meet | old)
    · omega
    · have behind := flagged old
      simp only [ceRbCanRead, old, if_true] at free
      split_ifs at free tailEq <;> omega
  constructor
  · constructor
    · rw [capacityEq]; exact wf.capacity_pos
    · rw [bufferEq, appended.length, capacityEq, wf.buffer_length]
    · rw [headEq]; exact wf.head_nonneg
    · rw [headEq, capacityEq]; exact wf.head_lt
    · rw [tailSame, tailEq]; split_ifs <;> omega
    · rw [tailSame, tailEq, capacityEq]; split_ifs <;> omega
    · rw [tailSame, headEq]; exact flag
    · rw [retvalEq, appended.retval]; exact wf.retval_size
  · rw [CeRb.content, bufferEq, headEq, canRead, ← appended.window]
    congr 1
    omega

/-- What a write that asks for something does to a ring, and the count it returns. -/
structure CeRb.TakesIn (rb : CeRb) (bytes : Bytes) (count : Int) (write : RbWrite) : Prop where
  returned : write.count = min count (ceRbCanWrite rb)
  wellFormed : write.rb.WellFormed
  content : write.rb.content = rb.content ++ bytes.take (min count (ceRbCanWrite rb)).toNat
  capacity : write.rb.capacity = rb.capacity

/-- A write appends as many of the caller's bytes as there is room for, and says how many. -/
theorem ceRbWrite_spec (wf : rb.WellFormed) {bytes : Bytes} {count : Int} (positive : 0 < count)
    (source : count ≤ bytes.length) :
    rb.TakesIn bytes count (ceRbWrite rb (some bytes) count) := by
  have bound := wf.canRead_le
  -- A full ring is the one case in which the source returns before it copies.
  by_cases full : ceRbCanWrite rb = 0
  · rw [ceRbWrite_full full]
    have none_ : min count (ceRbCanWrite rb) = 0 := by omega
    exact ⟨none_.symm, wf, by simp [none_], rfl⟩
  · obtain ⟨n, nEq⟩ : ∃ n, n = min count (ceRbCanWrite rb) := ⟨_, rfl⟩
    have room : 0 < n ∧ n ≤ ceRbCanWrite rb ∧ n ≤ count := by
      simp only [ceRbCanWrite] at nEq full ⊢
      omega
    -- What the copies append stays in place when the flag is raised behind them.
    have appended := writeWrapped_appended wf room.1 room.2.1 (by omega : n ≤ bytes.length)
    obtain ⟨wellFormed, content⟩ := appended.markFull wf room.1 room.2.1
    have capacity := (markFull_fields (rb.writeWrapped bytes n)).2.2.2.1
    simp only [ceRbWrite, if_neg (by omega : ¬ count ≤ 0), ← nEq, if_neg (by omega : ¬ n = 0)]
    exact ⟨nEq, wellFormed, by rw [← nEq]; exact content, capacity.trans appended.capacity⟩

/-- A reserved block is as long as it says, and long enough. -/
theorem RbRetval.reserve_block {retval : RbRetval} (needed : Int) (positive : 0 < needed)
    (size : retval.size = (retval.buffer.getD []).length) :
    ∃ block, (retval.reserve needed).buffer = some block ∧
      (retval.reserve needed).size = block.length ∧ needed ≤ block.length := by
  unfold RbRetval.reserve
  split_ifs with small
  · have length : ((List.replicate needed.toNat (0 : UInt8)).length : Int) = needed := by
      rw [List.length_replicate, Int.toNat_of_nonneg (by omega)]
    exact ⟨_, rfl, length.symm, Int.le_of_eq length.symm⟩
  · -- A block that is not too small is there, since the missing one has size zero.
    cases there : retval.buffer with
    | none => simp [there] at size; omega
    | some block => exact ⟨block, rfl, by simpa [there] using size, by simp [there] at size; omega⟩

/-- Bytes copied into a block keep its length. -/
theorem length_memcpy {memory bytes : Bytes} {offset : Int}
    (fits : offset.toNat + bytes.length ≤ memory.length) :
    (memcpy memory offset bytes).length = memory.length :=
  Cyclic.length_overwrite fits

/-- Up to the end of the bytes copied into it, a block holds what it held before and then these. -/
theorem bytesAt_memcpy {memory bytes : Bytes} {offset count : Int} (start : 0 ≤ offset)
    (fits : offset.toNat + bytes.length ≤ memory.length) (ends : count = offset + bytes.length) :
    bytesAt (memcpy memory offset bytes) 0 count = bytesAt memory 0 offset ++ bytes := by
  -- The stretch ends right behind the bytes that were copied in.
  have upTo : count.toNat = offset.toNat + bytes.length := by omega
  have front := Cyclic.take_overwrite memory offset.toNat bytes (by omega)
  simp only [bytesAt, Int.toNat_zero, List.drop_zero, memcpy, upTo, front]

/-- What a wrapping read leaves of a ring, before the wrap flag is cleared. -/
structure CeRb.Joined (rb joined : CeRb) (n : Int) : Prop where
  buffer : joined.buffer = rb.buffer
  head : joined.head = rb.head + n - rb.capacity
  tail : joined.tail = rb.tail
  capacity : joined.capacity = rb.capacity
  size : joined.retval.size = (joined.retval.buffer.getD []).length
  data : bytesAt (joined.retval.buffer.getD []) 0 n = rb.content.take n.toNat

/-- The first bytes that wait are those at the head, as far as they lie before the end. -/
theorem CeRb.WellFormed.take_content (wf : rb.WellFormed) {n : Int} (room : n ≤ ceRbCanRead rb)
    (straight : n ≤ rb.capacity - rb.head) :
    rb.content.take n.toNat = bytesAt rb.buffer rb.head n := by
  have := wf.head_nonneg; have := wf.head_lt; have length := wf.buffer_length
  -- A window that does not pass the end is a plain stretch of the buffer.
  rw [CeRb.content, Cyclic.take_window, Nat.min_eq_left (by omega),
    Cyclic.window_eq_take_drop _ _ _ (by omega), bytesAt]

/-- The first bytes that wait go on at the start of the buffer when they reach its end. -/
theorem CeRb.WellFormed.take_content_round (wf : rb.WellFormed) {chunk n : Int}
    (room : n ≤ ceRbCanRead rb) (reaches : rb.head + chunk = rb.capacity) (inside : chunk ≤ n) :
    rb.content.take n.toNat = bytesAt rb.buffer rb.head chunk ++ bytesAt rb.buffer 0 (n - chunk) := by
  have := wf.head_nonneg; have := wf.head_lt; have length := wf.buffer_length
  have bound := wf.canRead_le
  have parts := Cyclic.window_split rb.buffer rb.head.toNat n.toNat chunk.toNat
    (by omega) (by omega)
  -- The window after these bytes starts one round on, which is at the beginning.
  have turned := Cyclic.mod_cases (a := rb.head.toNat + chunk.toNat)
    (n := rb.buffer.length) (by omega)
  have atStart : (rb.head.toNat + chunk.toNat) % rb.buffer.length = 0 := by omega
  rw [CeRb.content, Cyclic.take_window, Nat.min_eq_left (by omega), parts, atStart,
    Cyclic.window_eq_take_drop _ _ _ (by omega), Cyclic.window_eq_take_drop _ 0 _ (by omega),
    bytesAt, bytesAt, show n.toNat - chunk.toNat = (n - chunk).toNat by omega]
  rfl

/-- The copies of a wrapping read join the first bytes that wait in `retval`. -/
theorem readWrapped_joined (wf : rb.WellFormed) {n : Int} (room : n ≤ ceRbCanRead rb)
    (wraps : rb.capacity - rb.head ≤ n) : rb.Joined (rb.readWrapped n) n := by
  have := wf.capacity_pos; have := wf.head_nonneg; have := wf.head_lt
  have length := wf.buffer_length
  have bound := wf.canRead_le
  obtain ⟨chunk, chunkEq⟩ : ∃ chunk, chunk = rb.capacity - rb.head := ⟨_, rfl⟩
  have least : min n (rb.capacity - rb.head) = chunk := by omega
  have reaches : rb.head + chunk = rb.capacity := by omega
  have positive : 0 < chunk := by omega
  obtain ⟨block, blockEq, sizeEq, long⟩ :=
    RbRetval.reserve_block (chunk + (n - chunk)) (by omega) wf.retval_size
  -- The first copy empties the ring to its end, so the head comes back to the beginning.
  have home : (rb.head + chunk) % rb.capacity = 0 := copyOut_home rb 0 reaches
  have firstWidth : (bytesAt rb.buffer rb.head chunk).length = chunk.toNat :=
    length_bytesAt (by omega) (by omega)
  have firstLength : (memcpy block 0 (bytesAt rb.buffer rb.head chunk)).length = block.length :=
    length_memcpy (by omega)
  have firstData : bytesAt (memcpy block 0 (bytesAt rb.buffer rb.head chunk)) 0 chunk =
      bytesAt rb.buffer rb.head chunk :=
    bytesAt_memcpy (Int.le_refl 0) (by omega) (by omega)
  simp only [CeRb.readWrapped, least, CeRb.copyOut, blockEq, sizeEq, Option.map_some, home]
  by_cases split : chunk < n
  · -- The block holds the end of the buffer and then its beginning, as the content does.
    have secondWidth : (bytesAt rb.buffer 0 (n - chunk)).length = (n - chunk).toNat :=
      length_bytesAt (by omega) (by omega)
    have onward := emod_cases (a := 0 + (n - chunk)) (n := rb.capacity) (by omega) (by omega)
    simp only [if_pos split]
    constructor
    · rfl
    · show (0 + (n - chunk)) % rb.capacity = rb.head + n - rb.capacity
      omega
    · rfl
    · rfl
    · simp only [Option.getD_some]
      rw [length_memcpy (by omega), firstLength]
    · have second := bytesAt_memcpy (Int.le_of_lt positive) (by omega : chunk.toNat +
        (bytesAt rb.buffer 0 (n - chunk)).length ≤
          (memcpy block 0 (bytesAt rb.buffer rb.head chunk)).length) (by omega : n = _)
      rw [Option.getD_some, wf.take_content_round room reaches (by omega), second, firstData]
  · -- The read ends with the buffer, and one copy has brought all its bytes.
    have all : n = chunk := by omega
    simp only [if_neg split]
    constructor
    · rfl
    · show 0 = rb.head + n - rb.capacity
      omega
    · rfl
    · rfl
    · rw [Option.getD_some, firstLength]
    · rw [Option.getD_some, all, firstData, wf.take_content (by omega) (by omega)]

/-- A negative count reads nothing and leaves `*data` as it was. -/
theorem ceRbRead_refused {data : RbData} {count : Int} (refused : count < 0) :
    ceRbRead rb data count = { rb := rb, data := data, count := 0 } := by
  simp [ceRbRead, refused]

/-- The bytes left after a read are those after the ones it took. -/
theorem CeRb.WellFormed.drop_content (wf : rb.WellFormed) {after : CeRb} {n : Int}
    (positive : 0 < n) (room : n ≤ ceRbCanRead rb) (buffer : after.buffer = rb.buffer)
    (head : after.head = if rb.head + n < rb.capacity then rb.head + n
      else rb.head + n - rb.capacity)
    (canRead : ceRbCanRead after = ceRbCanRead rb - n) :
    after.content = rb.content.drop n.toNat := by
  have := wf.head_nonneg; have := wf.head_lt; have length := wf.buffer_length
  have bound := wf.canRead_le
  -- The head moves over the bytes, and round the end at most once.
  have turned := Cyclic.mod_cases (a := rb.head.toNat + n.toNat) (n := rb.buffer.length) (by omega)
  have start : after.head.toNat = (rb.head.toNat + n.toNat) % rb.buffer.length := by
    rw [head]
    split_ifs <;> omega
  -- The bytes left are the window that starts there and is as much shorter.
  rw [CeRb.content, CeRb.content, Cyclic.drop_window (by omega) (by omega), buffer, start, canRead]
  congr 1
  omega

/-- What a read that asks for so many bytes hands over, and what it leaves of a ring. -/
structure CeRb.HandsOver (rb : CeRb) (count : Int) (read : RbRead) : Prop where
  returned : read.count = min count (ceRbCanRead rb)
  wellFormed : read.rb.WellFormed
  data : read.rb.load read.data read.count = rb.content.take (min count (ceRbCanRead rb)).toNat
  content : read.rb.content = rb.content.drop (min count (ceRbCanRead rb)).toNat
  capacity : read.rb.capacity = rb.capacity

/-- A read that is not refused finds nothing, stops short of the end, or reaches it. -/
theorem ceRbRead_cases (rb : CeRb) (data : RbData) {count n : Int} (asked : 0 ≤ count)
    (least : n = min count (ceRbCanRead rb)) :
    (n = 0 ∧ ceRbRead rb data count = { rb := rb, data := .null, count := 0 }) ∨
      (n ≠ 0 ∧ rb.head + n < rb.capacity ∧ ceRbRead rb data count =
        { rb := { rb with head := (rb.head + n) % rb.capacity }, data := .buffer rb.head, count := n }) ∨
      (n ≠ 0 ∧ rb.capacity ≤ rb.head + n ∧ ceRbRead rb data count =
        { rb := { rb.readWrapped n with wrap := false }, data := .retval, count := n }) := by
  -- The three branches of the source, in its order.
  simp only [ceRbRead, if_neg (by omega : ¬ count < 0), ← least]
  by_cases nothing : n = 0
  · exact .inl ⟨nothing, if_pos nothing⟩
  rw [if_neg nothing]
  by_cases straight : rb.capacity - rb.head > n
  · exact .inr (.inl ⟨nothing, by omega, if_pos straight⟩)
  · exact .inr (.inr ⟨nothing, by omega, if_neg straight⟩)

/-- A read that stops short of the end points to the bytes at the head, and moves the head over them. -/
theorem CeRb.WellFormed.straight_read (wf : rb.WellFormed) {count n : Int} (some_ : 0 < n)
    (least : n = min count (ceRbCanRead rb)) (straight : rb.head + n < rb.capacity) :
    rb.HandsOver count
      { rb := { rb with head := (rb.head + n) % rb.capacity }, data := .buffer rb.head, count := n } := by
  have := wf.head_nonneg; have := wf.tail_nonneg; have := wf.tail_lt
  have flagged := wf.wrap_tail_le
  have room : n ≤ ceRbCanRead rb := by omega
  have step : (rb.head + n) % rb.capacity = rb.head + n := Int.emod_eq_of_lt (by omega) straight
  -- The head stays in front of the end, and a set flag stays true to its meaning.
  have left : ceRbCanRead { rb with head := rb.head + n } = ceRbCanRead rb - n := by
    revert room
    simp only [ceRbCanRead]
    cases flag : rb.wrap <;> simp only [flag] at * <;> split_ifs <;> grind
  rw [step]
  constructor
  · exact least
  · exact { wf with
      head_nonneg := by show 0 ≤ rb.head + n; omega
      head_lt := straight
      wrap_tail_le := fun up => by show rb.tail ≤ rb.head + n; have := flagged up; omega }
  · rw [← least]
    exact (wf.take_content room (by omega)).symm
  · rw [← least]
    exact wf.drop_content some_ room rfl (if_pos straight).symm left
  · rfl

/-- A read that reaches the end joins its bytes in `retval`, and takes the flag back. -/
theorem CeRb.WellFormed.round_read (wf : rb.WellFormed) {count n : Int} (some_ : 0 < n)
    (least : n = min count (ceRbCanRead rb)) (wraps : rb.capacity ≤ rb.head + n) :
    rb.HandsOver count
      { rb := { rb.readWrapped n with wrap := false }, data := .retval, count := n } := by
  have := wf.head_lt; have := wf.tail_nonneg; have := wf.tail_lt
  have bound := wf.canRead_le
  have flagged := wf.wrap_tail_le
  have room : n ≤ ceRbCanRead rb := by omega
  have joined := readWrapped_joined wf room (by omega)
  have headEq := joined.head
  -- The head comes round the end, and clearing the flag tells an empty ring from a full one.
  have left : ceRbCanRead { rb.readWrapped n with wrap := false } = ceRbCanRead rb - n := by
    revert room
    simp only [ceRbCanRead, joined.tail, joined.capacity, headEq]
    cases flag : rb.wrap <;> simp only [flag] at * <;> split_ifs <;> grind
  have reached : rb.content.take n.toNat =
      bytesAt ((rb.readWrapped n).retval.buffer.getD []) 0 n := joined.data.symm
  constructor
  · exact least
  · constructor
    · show 0 < (rb.readWrapped n).capacity
      rw [joined.capacity]
      exact wf.capacity_pos
    · show (rb.readWrapped n).buffer.length = (rb.readWrapped n).capacity.toNat
      rw [joined.buffer, joined.capacity, wf.buffer_length]
    · show 0 ≤ (rb.readWrapped n).head
      omega
    · show (rb.readWrapped n).head < (rb.readWrapped n).capacity
      rw [joined.capacity]
      omega
    · show 0 ≤ (rb.readWrapped n).tail
      rw [joined.tail]
      exact wf.tail_nonneg
    · show (rb.readWrapped n).tail < (rb.readWrapped n).capacity
      rw [joined.tail, joined.capacity]
      exact wf.tail_lt
    · -- With the flag down, the tail may be anywhere.
      simp
    · exact joined.size
  · rw [← least, reached]
    rfl
  · rw [← least]
    refine wf.drop_content some_ room joined.buffer ?_ left
    show (rb.readWrapped n).head = _
    rw [if_neg (by omega)]
    exact headEq
  · exact joined.capacity

/-- A read hands over the first bytes that wait, as many as were asked for, and removes them. -/
theorem ceRbRead_spec (wf : rb.WellFormed) (data : RbData) {count : Int} (asked : 0 ≤ count) :
    rb.HandsOver count (ceRbRead rb data count) := by
  have nonneg := wf.canRead_nonneg
  obtain ⟨n, least⟩ : ∃ n, n = min count (ceRbCanRead rb) := ⟨_, rfl⟩
  -- Each way through the source hands over the same bytes.
  rcases ceRbRead_cases rb data asked least with
    ⟨nothing, taken⟩ | ⟨some_, straight, taken⟩ | ⟨some_, wraps, taken⟩
  · have none_ : min count (ceRbCanRead rb) = 0 := least.symm.trans nothing
    rw [taken]
    exact ⟨none_.symm, wf, by simp [none_, CeRb.load], by simp [none_], rfl⟩
  · rw [taken]
    exact wf.straight_read (by omega) least straight
  · rw [taken]
    exact wf.round_read (by omega) least wraps

end Cevent
