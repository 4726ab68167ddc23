import Cevent.Library.Cyclic

/-! The byte ring of `ce_ringbuffer.c`: its record, and the four operations on it. -/

namespace Cevent

/-- A stretch of memory, byte by byte. -/
abbrev Bytes := List UInt8

/-- The bytes `[offset, offset + count)` of a stretch of memory. -/
def bytesAt (memory : Bytes) (offset count : Int) : Bytes :=
  (memory.drop offset.toNat).take count.toNat

/-- `memcpy` of some bytes to an offset of a stretch of memory. -/
def memcpy (memory : Bytes) (offset : Int) (bytes : Bytes) : Bytes :=
  Cyclic.overwrite memory offset.toNat bytes

/-- The addresses `ce_rb_read` stores in `*data`. -/
inductive RbData where
  /-- `NULL`. -/
  | null
  /-- `rb->buffer + offset`. -/
  | buffer (offset : Int)
  /-- `rb->retval.buffer`. -/
  | retval
  deriving DecidableEq, Repr

/-- `struct ce_rb_retval`: the block that bytes from both ends of the ring are joined in. -/
structure RbRetval where
  /-- The block, or nothing while the pointer is `NULL`. -/
  buffer : Option Bytes
  size : Int
  deriving DecidableEq, Repr

/-- `struct ce_rb`. -/
structure CeRb where
  buffer : Bytes
  head : Int
  tail : Int
  wrap : Bool
  capacity : Int
  retval : RbRetval
  deriving DecidableEq, Repr

/-- `ce_rb_new`. -/
def ceRbNew (capacity : Int) : CeRb where
  buffer := List.replicate capacity.toNat 0
  head := 0
  tail := 0
  wrap := false
  capacity := capacity
  retval := { buffer := none, size := 0 }

/-- `ce_rb_can_read`. -/
def ceRbCanRead (rb : CeRb) : Int :=
  if rb.tail = rb.head then
    -- Only the flag tells a full ring from an empty one.
    if rb.wrap then rb.capacity else 0
  else if rb.tail > rb.head then
    rb.tail - rb.head
  else
    rb.capacity + rb.tail - rb.head

/-- `ce_rb_can_write`. -/
def ceRbCanWrite (rb : CeRb) : Int := rb.capacity - ceRbCanRead rb

/-- What a call of `ce_rb_read` leaves behind: the ring, `*data`, and the returned count. -/
structure RbRead where
  rb : CeRb
  data : RbData
  count : Int
  deriving DecidableEq, Repr

/-- The block of `retval`, replaced by a fresh one when it is too small. -/
def RbRetval.reserve (retval : RbRetval) (needed : Int) : RbRetval :=
  -- The content of a fresh block is copied over before it is ever read.
  if retval.size < needed then { buffer := some (List.replicate needed.toNat 0), size := needed }
  -- A block that is large enough is kept, with what it holds beyond this read.
  else retval

/-- One copy from the head of the ring into `retval`, and the step of the head over it. -/
def CeRb.copyOut (rb : CeRb) (offset chunk : Int) : CeRb :=
  { rb with
    retval := { rb.retval with
      buffer := rb.retval.buffer.map fun block =>
        memcpy block offset (bytesAt rb.buffer rb.head chunk) }
    head := (rb.head + chunk) % rb.capacity }

/-- The block of `ce_rb_read` that joins bytes from both ends of the buffer in `retval`. -/
def CeRb.readWrapped (rb : CeRb) (count : Int) : CeRb :=
  let tailChunk := min count (rb.capacity - rb.head)
  let headChunk := count - tailChunk
  let reserved := { rb with retval := rb.retval.reserve (tailChunk + headChunk) }
  -- The second copy starts at the beginning of the buffer, where the first one has left the head.
  let first := reserved.copyOut 0 tailChunk
  if tailChunk < count then first.copyOut tailChunk headChunk else first

/-- `ce_rb_read`, with the value that `*data` has before the call. -/
def ceRbRead (rb : CeRb) (data : RbData) (count : Int) : RbRead :=
  -- A refused call leaves `*data` alone.
  if count < 0 then { rb := rb, data := data, count := 0 }
  else
    let count := min count (ceRbCanRead rb)
    -- An empty ring is no error: the caller gets `NULL` and a count of zero.
    if count = 0 then { rb := rb, data := .null, count := 0 }
    else if rb.capacity - rb.head > count then
      -- The bytes lie before the end of the buffer, and `wrap` is left as it is.
      { rb := { rb with head := (rb.head + count) % rb.capacity }
        data := .buffer rb.head
        count := count }
    else
      -- A read that reaches the end takes the flag back, whether it goes on at the start or not.
      { rb := { rb.readWrapped count with wrap := false }, data := .retval, count := count }

/-- What a call of `ce_rb_write` leaves behind: the ring and the returned count. -/
structure RbWrite where
  rb : CeRb
  count : Int
  deriving DecidableEq, Repr

/-- One copy of the caller's bytes to the tail of the ring, and the step of the tail over it. -/
def CeRb.copyIn (rb : CeRb) (bytes : Bytes) (offset chunk : Int) : CeRb :=
  { rb with
    buffer := memcpy rb.buffer rb.tail (bytesAt bytes offset chunk)
    tail := (rb.tail + chunk) % rb.capacity }

/-- The block of `ce_rb_write` that copies up to the end of the buffer and on from its start. -/
def CeRb.writeWrapped (rb : CeRb) (bytes : Bytes) (count : Int) : CeRb :=
  let tailChunk := min count (rb.capacity - rb.tail)
  -- The tail is back at the start of the buffer when there is a second copy.
  let first := rb.copyIn bytes 0 tailChunk
  if tailChunk < count then first.copyIn bytes tailChunk (count - tailChunk) else first

/-- The end of `ce_rb_write`: a tail that has come round to the head means a full ring. -/
def CeRb.markFull (rb : CeRb) : CeRb :=
  if rb.head = rb.tail then { rb with wrap := true } else rb

/-- `ce_rb_write`, where no bytes stand for a `NULL` argument. -/
def ceRbWrite (rb : CeRb) (data : Option Bytes) (count : Int) : RbWrite :=
  match data with
  | none => { rb := rb, count := 0 }
  | some bytes =>
    -- The failing assertion that stands here in the source goes away without `DEBUG`.
    if count ≤ 0 then { rb := rb, count := 0 }
    else
      -- What does not fit is not written, and the caller has to compare the counts.
      let count := min count (ceRbCanWrite rb)
      if count = 0 then { rb := rb, count := 0 }
      else { rb := (rb.writeWrapped bytes count).markFull, count := count }

/-- The bytes a caller finds at an address that `ce_rb_read` stored, with the ring as it is now. -/
def CeRb.load (rb : CeRb) (data : RbData) (count : Int) : Bytes :=
  -- What is found there depends on the ring at the time, so a later write may change it.
  match data with
  | .null => []
  | .buffer offset => bytesAt rb.buffer offset count
  | .retval => bytesAt (rb.retval.buffer.getD []) 0 count

end Cevent
