import Cevent.Ring.Fifo

/-! The memory that the operations of a ring copy from and to, and why it is never out of bounds. -/

namespace Cevent

open Interleaving

/-- The blocks that the operations of a ring copy between. -/
inductive RbBlock where
  /-- `rb->buffer`. -/
  | buffer
  /-- The `data` of the caller. -/
  | data
  /-- `rb->retval.buffer`. -/
  | retval
  deriving DecidableEq, Repr

/-- The bytes `[offset, offset + length)` of a block, at the time they are touched. -/
structure RbStretch where
  block : RbBlock
  /-- The bytes that the block was allocated with. -/
  allocated : Nat
  /-- The bytes that the operation takes the block to have. -/
  size : Int
  offset : Int
  length : Int
  deriving DecidableEq, Repr

/-- The stretch lies in the size of its block, and the block really has that size. -/
structure RbStretch.Inside (stretch : RbStretch) : Prop where
  start : 0 ≤ stretch.offset
  length : 0 ≤ stretch.length
  ends : stretch.offset + stretch.length ≤ stretch.size
  backed : stretch.size ≤ stretch.allocated
  exact_ : stretch.block ≠ .data → stretch.size = stretch.allocated

/-- What an operation does with memory. -/
inductive RbAccess where
  /-- A `memcpy` of the bytes of one stretch to another. -/
  | memcpy (target source : RbStretch)
  /-- The address of a stretch is stored in `*data`. -/
  | handOut (view : RbStretch)
  deriving DecidableEq, Repr

/-- All the memory that the access is about lies in its block, and a copy moves as much as it reads. -/
def RbAccess.Inside : RbAccess → Prop
  | .memcpy target source => target.Inside ∧ source.Inside ∧ target.length = source.length
  | .handOut view => view.Inside

/-- A stretch of `rb->buffer`. -/
def CeRb.inBuffer (rb : CeRb) (offset length : Int) : RbStretch where
  block := .buffer
  allocated := rb.buffer.length
  size := rb.capacity
  offset := offset
  length := length

/-- A stretch of `rb->retval.buffer`. -/
def CeRb.inRetval (rb : CeRb) (offset length : Int) : RbStretch where
  block := .retval
  allocated := (rb.retval.buffer.getD []).length
  size := rb.retval.size
  offset := offset
  length := length

/-- A stretch of the caller's bytes, of which there are as many as the count that was passed. -/
def inData (bytes : Bytes) (size offset length : Int) : RbStretch where
  block := .data
  allocated := bytes.length
  size := size
  offset := offset
  length := length

/-- `CeRb.copyOut`, with its copy. -/
def CeRb.copyOutTraced (rb : CeRb) (offset chunk : Int) : CeRb × List RbAccess :=
  (rb.copyOut offset chunk, [.memcpy (rb.inRetval offset chunk) (rb.inBuffer rb.head chunk)])

/-- `CeRb.readWrapped`, with the address that is stored before the copies, and these. -/
def CeRb.readWrappedTraced (rb : CeRb) (count : Int) : CeRb × List RbAccess :=
  let tailChunk := min count (rb.capacity - rb.head)
  let headChunk := count - tailChunk
  let reserved := { rb with retval := rb.retval.reserve (tailChunk + headChunk) }
  let view := RbAccess.handOut (reserved.inRetval 0 count)
  let first := reserved.copyOutTraced 0 tailChunk
  if tailChunk < count then
    let second := first.1.copyOutTraced tailChunk headChunk
    (second.1, view :: (first.2 ++ second.2))
  else (first.1, view :: first.2)

/-- `ce_rb_read`, with what it does with memory. -/
def ceRbReadTraced (rb : CeRb) (data : RbData) (count : Int) : RbRead × List RbAccess :=
  if count < 0 then ({ rb := rb, data := data, count := 0 }, [])
  else
    let count := min count (ceRbCanRead rb)
    if count = 0 then ({ rb := rb, data := .null, count := 0 }, [])
    else if rb.capacity - rb.head > count then
      -- The fast path copies nothing, and the caller gets to see the buffer itself.
      ({ rb := { rb with head := (rb.head + count) % rb.capacity }
         data := .buffer rb.head
         count := count }, [.handOut (rb.inBuffer rb.head count)])
    else
      let joined := rb.readWrappedTraced count
      ({ rb := { joined.1 with wrap := false }, data := .retval, count := count }, joined.2)

/-- `CeRb.copyIn`, with its copy out of the `size` bytes of the caller. -/
def CeRb.copyInTraced (rb : CeRb) (bytes : Bytes) (size offset chunk : Int) :
    CeRb × List RbAccess :=
  (rb.copyIn bytes offset chunk,
    [.memcpy (rb.inBuffer rb.tail chunk) (inData bytes size offset chunk)])

/-- `CeRb.writeWrapped`, with its copies. -/
def CeRb.writeWrappedTraced (rb : CeRb) (bytes : Bytes) (size count : Int) :
    CeRb × List RbAccess :=
  let tailChunk := min count (rb.capacity - rb.tail)
  let first := rb.copyInTraced bytes size 0 tailChunk
  if tailChunk < count then
    let second := first.1.copyInTraced bytes size tailChunk (count - tailChunk)
    (second.1, first.2 ++ second.2)
  else first

/-- `ce_rb_write`, with what it does with memory. -/
def ceRbWriteTraced (rb : CeRb) (data : Option Bytes) (count : Int) : RbWrite × List RbAccess :=
  match data with
  | none => ({ rb := rb, count := 0 }, [])
  | some bytes =>
    if count ≤ 0 then ({ rb := rb, count := 0 }, [])
    else
      -- The caller's block keeps the size it came with, however little of it is taken.
      let size := count
      let count := min count (ceRbCanWrite rb)
      if count = 0 then ({ rb := rb, count := 0 }, [])
      else
        let copied := rb.writeWrappedTraced bytes size count
        ({ rb := copied.1.markFull, count := count }, copied.2)

/-- The ring of the source, one call at a time, with what each call does with memory. -/
def copyMachine : Machine CeRb RbCall RbAccess where
  step rb
    | .write none =>
      let written := ceRbWriteTraced rb none 0
      some (written.1.rb, written.2)
    | .write (some source) =>
      let written := ceRbWriteTraced rb (some source.bytes) source.count
      some (written.1.rb, written.2)
    | .read count =>
      let taken := ceRbReadTraced rb .null count
      some (taken.1.rb, taken.2)

/-- A wrapping read leaves what it leaves without the record of its copies. -/
@[simp] theorem readWrappedTraced_fst (rb : CeRb) (count : Int) :
    (rb.readWrappedTraced count).1 = rb.readWrapped count := by
  simp only [CeRb.readWrappedTraced, CeRb.readWrapped, CeRb.copyOutTraced]
  split <;> rfl

/-- So does a read. -/
@[simp] theorem ceRbReadTraced_fst (rb : CeRb) (data : RbData) (count : Int) :
    (ceRbReadTraced rb data count).1 = ceRbRead rb data count := by
  simp only [ceRbReadTraced, ceRbRead]
  split_ifs <;> simp

/-- So do the copies of a write. -/
@[simp] theorem writeWrappedTraced_fst (rb : CeRb) (bytes : Bytes) (size count : Int) :
    (rb.writeWrappedTraced bytes size count).1 = rb.writeWrapped bytes count := by
  simp only [CeRb.writeWrappedTraced, CeRb.writeWrapped, CeRb.copyInTraced]
  split <;> rfl

/-- So does a write. -/
@[simp] theorem ceRbWriteTraced_fst (rb : CeRb) (data : Option Bytes) (count : Int) :
    (ceRbWriteTraced rb data count).1 = ceRbWrite rb data count := by
  cases data with
  | none => rfl
  | some bytes =>
    simp only [ceRbWriteTraced, ceRbWrite]
    split_ifs <;> simp

section Bounds

variable {rb : CeRb}

/-- A stretch of a buffer that is as long as the capacity lies inside up to the capacity. -/
theorem inBuffer_inside (capacity : 0 < rb.capacity) (buffer : rb.buffer.length = rb.capacity.toNat)
    {offset length : Int} (start : 0 ≤ offset) (nonneg : 0 ≤ length)
    (ends : offset + length ≤ rb.capacity) : (rb.inBuffer offset length).Inside where
  start := start
  length := nonneg
  ends := ends
  backed := by simp only [CeRb.inBuffer]; omega
  exact_ _ := by simp only [CeRb.inBuffer]; omega

/-- A stretch of a `retval` that is as long as it says lies inside up to its size. -/
theorem inRetval_inside (size : rb.retval.size = (rb.retval.buffer.getD []).length)
    {offset length : Int} (start : 0 ≤ offset) (nonneg : 0 ≤ length)
    (ends : offset + length ≤ rb.retval.size) : (rb.inRetval offset length).Inside where
  start := start
  length := nonneg
  ends := ends
  backed := Int.le_of_eq size
  exact_ _ := size

/-- A stretch of the caller's bytes lies inside up to the count that was passed. -/
theorem inData_inside {bytes : Bytes} {size offset length : Int} (source : size ≤ bytes.length)
    (start : 0 ≤ offset) (nonneg : 0 ≤ length) (ends : offset + length ≤ size) :
    (inData bytes size offset length).Inside where
  start := start
  length := nonneg
  ends := ends
  backed := source
  exact_ other := absurd rfl other

/-- A copy into `retval` leaves the block as long as it was. -/
theorem copyOut_retval {offset chunk : Int} (start : 0 ≤ offset) (nonneg : 0 ≤ chunk)
    (size : rb.retval.size = (rb.retval.buffer.getD []).length)
    (ends : offset + chunk ≤ rb.retval.size) :
    (rb.copyOut offset chunk).retval.size =
      ((rb.copyOut offset chunk).retval.buffer.getD []).length := by
  cases there : rb.retval.buffer with
  | none =>
    simp only [there, Option.getD_none] at size
    simpa only [CeRb.copyOut, there, Option.map_none, Option.getD_none] using size
  | some block =>
    simp only [there, Option.getD_some] at size
    have width : (bytesAt rb.buffer rb.head chunk).length ≤ chunk.toNat := List.length_take_le ..
    simp only [CeRb.copyOut, there, Option.map_some, Option.getD_some]
    rw [length_memcpy (by omega)]
    exact size

/-- A wrapping read stays inside the buffer and inside a block that it has made large enough. -/
theorem readWrappedTraced_inside (wf : rb.WellFormed) {n : Int} (positive : 0 < n)
    (held : n ≤ ceRbCanRead rb) : ∀ access ∈ (rb.readWrappedTraced n).2, access.Inside := by
  have := wf.capacity_pos; have := wf.head_nonneg; have := wf.head_lt
  have bound := wf.canRead_le
  obtain ⟨chunk, chunkEq⟩ : ∃ chunk, chunk = min n (rb.capacity - rb.head) := ⟨_, rfl⟩
  obtain ⟨reserved, reservedEq⟩ : ∃ reserved : CeRb,
    reserved = { rb with retval := rb.retval.reserve (chunk + (n - chunk)) } := ⟨_, rfl⟩
  have size : reserved.retval.size = (reserved.retval.buffer.getD []).length ∧
      n ≤ reserved.retval.size := by
    obtain ⟨block, blockEq, sizeEq, long⟩ :=
      RbRetval.reserve_block (chunk + (n - chunk)) (by omega) wf.retval_size
    subst reservedEq
    simp only [blockEq, sizeEq, Option.getD_some, true_and]
    omega
  have buffer : (reserved.inBuffer rb.head chunk).Inside := by
    have ends : rb.head + chunk ≤ rb.capacity := by omega
    subst reservedEq
    exact inBuffer_inside wf.capacity_pos wf.buffer_length wf.head_nonneg (by omega) ends
  have view : (RbAccess.handOut (reserved.inRetval 0 n)).Inside :=
    inRetval_inside size.1 (Int.le_refl 0) (by omega) (by omega)
  -- The first copy goes up to the end of the buffer at the most.
  have first : (RbAccess.memcpy (reserved.inRetval 0 chunk) (reserved.inBuffer rb.head chunk)).Inside :=
    ⟨inRetval_inside size.1 (Int.le_refl 0) (by omega) (by omega), buffer, rfl⟩
  simp only [CeRb.readWrappedTraced, CeRb.copyOutTraced, ← chunkEq, ← reservedEq]
  by_cases split : chunk < n
  · -- The second copy starts at the beginning, and goes right behind the first one in the block.
    have home : (reserved.copyOut 0 chunk).head = 0 := by
      have full : rb.head + chunk = rb.capacity := by omega
      subst reservedEq
      exact copyOut_home _ 0 full
    have kept := copyOut_retval (Int.le_refl 0) (by omega) size.1 (by omega : 0 + chunk ≤ _)
    have second : (RbAccess.memcpy ((reserved.copyOut 0 chunk).inRetval chunk (n - chunk))
        ((reserved.copyOut 0 chunk).inBuffer (reserved.copyOut 0 chunk).head (n - chunk))).Inside := by
      refine ⟨inRetval_inside kept (by omega) (by omega) ?_, ?_, rfl⟩
      · show chunk + (n - chunk) ≤ reserved.retval.size
        omega
      · rw [home]
        subst reservedEq
        exact inBuffer_inside wf.capacity_pos wf.buffer_length (Int.le_refl 0) (by omega)
          (by show 0 + (n - chunk) ≤ rb.capacity; omega)
    rw [if_pos split]
    exact List.forall_mem_cons.mpr
      ⟨view, List.forall_mem_cons.mpr ⟨first, List.forall_mem_singleton.mpr second⟩⟩
  · rw [if_neg split]
    exact List.forall_mem_cons.mpr ⟨view, List.forall_mem_singleton.mpr first⟩

/-- A read stays in bounds, and so does the stretch whose address it stores. -/
theorem ceRbReadTraced_inside (wf : rb.WellFormed) (data : RbData) (count : Int) :
    ∀ access ∈ (ceRbReadTraced rb data count).2, access.Inside := by
  have nonneg := wf.canRead_nonneg
  unfold ceRbReadTraced
  by_cases refused : count < 0
  · simp [refused]
  obtain ⟨n, least⟩ : ∃ n, n = min count (ceRbCanRead rb) := ⟨_, rfl⟩
  simp only [if_neg refused, ← least]
  by_cases nothing : n = 0
  · simp [nothing]
  by_cases straight : rb.capacity - rb.head > n
  · -- The bytes end before the end of the buffer, wherever the tail is.
    have view : (RbAccess.handOut (rb.inBuffer rb.head n)).Inside :=
      inBuffer_inside wf.capacity_pos wf.buffer_length wf.head_nonneg (by omega) (by omega)
    rw [if_neg nothing, if_pos straight]
    exact List.forall_mem_singleton.mpr view
  · rw [if_neg nothing, if_neg straight]
    exact readWrappedTraced_inside wf (by omega) (by omega)

/-- The copies of a write stay inside the buffer and inside the bytes that the caller passed. -/
theorem writeWrappedTraced_inside (wf : rb.WellFormed) {bytes : Bytes} {size n : Int}
    (positive : 0 < n) (room : n ≤ ceRbCanWrite rb) (within : n ≤ size)
    (source : size ≤ bytes.length) :
    ∀ access ∈ (rb.writeWrappedTraced bytes size n).2, access.Inside := by
  have := wf.capacity_pos; have := wf.tail_nonneg; have := wf.tail_lt
  have nonneg := wf.canRead_nonneg
  have free : n ≤ rb.capacity - ceRbCanRead rb := room
  obtain ⟨chunk, chunkEq⟩ : ∃ chunk, chunk = min n (rb.capacity - rb.tail) := ⟨_, rfl⟩
  have first : (RbAccess.memcpy (rb.inBuffer rb.tail chunk) (inData bytes size 0 chunk)).Inside :=
    ⟨inBuffer_inside wf.capacity_pos wf.buffer_length wf.tail_nonneg (by omega) (by omega),
      inData_inside source (Int.le_refl 0) (by omega) (by omega), rfl⟩
  simp only [CeRb.writeWrappedTraced, CeRb.copyInTraced, ← chunkEq]
  by_cases split : chunk < n
  · -- The second copy starts at the beginning of a buffer that is as long as it was.
    have home : (rb.copyIn bytes 0 chunk).tail = 0 := copyIn_home rb bytes 0 (by omega)
    have kept : (rb.copyIn bytes 0 chunk).buffer.length = rb.buffer.length :=
      copyIn_length wf.buffer_length wf.tail_nonneg (Int.le_refl 0) (by omega) (by omega) (by omega)
    have second : (RbAccess.memcpy
        ((rb.copyIn bytes 0 chunk).inBuffer (rb.copyIn bytes 0 chunk).tail (n - chunk))
        (inData bytes size chunk (n - chunk))).Inside := by
      refine ⟨?_, inData_inside source (by omega) (by omega) (by omega), rfl⟩
      rw [home]
      have size : 0 < (rb.copyIn bytes 0 chunk).capacity := wf.capacity_pos
      have ends : 0 + (n - chunk) ≤ rb.capacity := by omega
      exact inBuffer_inside size (kept.trans wf.buffer_length) (Int.le_refl 0) (by omega) ends
    rw [if_pos split]
    exact List.forall_mem_cons.mpr ⟨first, List.forall_mem_singleton.mpr second⟩
  · rw [if_neg split]
    exact List.forall_mem_singleton.mpr first

/-- A write stays in bounds. -/
theorem ceRbWriteTraced_inside (wf : rb.WellFormed) (source : RbSource) :
    ∀ access ∈ (ceRbWriteTraced rb (some source.bytes) source.count).2, access.Inside := by
  have bound := wf.canRead_le
  unfold ceRbWriteTraced
  dsimp only
  by_cases refused : source.count ≤ 0
  · simp [refused]
  obtain ⟨n, least⟩ : ∃ n, n = min source.count (ceRbCanWrite rb) := ⟨_, rfl⟩
  simp only [if_neg refused, ← least]
  by_cases full : n = 0
  · simp [full]
  have free : 0 ≤ ceRbCanWrite rb := Int.sub_nonneg_of_le bound
  rw [if_neg full]
  exact writeWrappedTraced_inside wf (by omega) (by omega) (by omega) source.backed

/-- One call leads both machines to the same ring, and stays in bounds. -/
theorem copyMachine_step (wf : rb.WellFormed) (call : RbCall) : ∃ next replies accesses,
    ringMachine.step rb call = some (next, replies) ∧
      copyMachine.step rb call = some (next, accesses) ∧ (∀ access ∈ accesses, access.Inside) ∧
      next.WellFormed ∧ next.capacity = rb.capacity := by
  cases call with
  | write data =>
    cases data with
    | none => exact ⟨rb, _, [], rfl, rfl, by simp, wf, rfl⟩
    | some source =>
      refine ⟨_, _, _, rfl, by rw [← ceRbWriteTraced_fst]; rfl, ceRbWriteTraced_inside wf source, ?_⟩
      -- A refused write leaves the ring as it was.
      rcases Int.lt_or_le 0 source.count with positive | refused
      · have spec := ceRbWrite_spec wf positive source.backed
        exact ⟨spec.wellFormed, spec.capacity⟩
      · rw [ceRbWrite_refused (.inr refused)]
        exact ⟨wf, rfl⟩
  | read count =>
    refine ⟨_, _, _, rfl, by rw [← ceRbReadTraced_fst]; rfl, ceRbReadTraced_inside wf .null count, ?_⟩
    rcases Int.lt_or_le count 0 with refused | asked
    · rw [ceRbRead_refused refused]
      exact ⟨wf, rfl⟩
    · have spec := ceRbRead_spec wf .null asked
      exact ⟨spec.wellFormed, spec.capacity⟩

/-- So does any sequence of calls. -/
theorem copyMachine_exec (wf : rb.WellFormed) (calls : List RbCall) : ∃ last replies accesses,
    ringMachine.exec rb calls = some (last, replies) ∧
      copyMachine.exec rb calls = some (last, accesses) ∧ (∀ access ∈ accesses, access.Inside) ∧
      last.WellFormed ∧ last.capacity = rb.capacity := by
  induction calls generalizing rb with
  | nil => exact ⟨rb, [], [], rfl, rfl, by simp, wf, rfl⟩
  | cons call rest ih =>
    obtain ⟨next, replies, accesses, ring, copies, inside, wf', size⟩ := copyMachine_step wf call
    obtain ⟨last, replies', accesses', ring', copies', inside', wf'', size'⟩ := ih wf'
    refine ⟨last, replies ++ replies', accesses ++ accesses', ?_, ?_, ?_, wf'', size'.trans size⟩
    · simp [ringMachine.exec_cons ring, ring']
    · simp [copyMachine.exec_cons copies, copies']
    · intro access member
      rcases List.mem_append.mp member with early | late
      · exact inside access early
      · exact inside' access late

end Bounds

/-- From a new ring, every copy and every address handed out is in bounds, whatever is called. -/
theorem ring_copies_inside (capacity : Int) (positive : 0 < capacity) (calls : List RbCall) :
    ∃ last replies accesses, ringMachine.exec (ceRbNew capacity) calls = some (last, replies) ∧
      copyMachine.exec (ceRbNew capacity) calls = some (last, accesses) ∧
      (∀ access ∈ accesses, access.Inside) ∧
      last.retval.size = (last.retval.buffer.getD []).length ∧
      last.capacity = capacity ∧ last.buffer.length = capacity := by
  obtain ⟨last, replies, accesses, ring, copies, inside, wf, size⟩ :=
    copyMachine_exec (ceRbNew_wellFormed positive) calls
  replace size : last.capacity = capacity := size
  refine ⟨last, replies, accesses, ring, copies, inside, wf.retval_size, size, ?_⟩
  have length := wf.buffer_length
  omega

/-- A ring of four bytes that is written and read round its end. -/
theorem ring_copies_inside_four : ∃ last replies accesses,
    ringMachine.exec (ceRbNew 4) [.write (some ⟨[1, 2, 3], 3, by decide⟩), .read 2,
      .write (some ⟨[4, 5, 6, 7], 4, by decide⟩), .read 4] = some (last, replies) ∧
    copyMachine.exec (ceRbNew 4) [.write (some ⟨[1, 2, 3], 3, by decide⟩), .read 2,
      .write (some ⟨[4, 5, 6, 7], 4, by decide⟩), .read 4] = some (last, accesses) ∧
    (∀ access ∈ accesses, access.Inside) ∧
    last.retval.size = (last.retval.buffer.getD []).length ∧
    last.capacity = 4 ∧ last.buffer.length = (4 : Int) :=
  ring_copies_inside 4 (by decide) _

end Cevent
