import Cevent.Ring.Buffer

/-! The size field of a packet, and the stream that a list of packets is sent as. -/

namespace Cevent

/-- The order in which the machine stores the bytes of an integer. -/
inductive ByteOrder where
  | little
  | big
  deriving DecidableEq, Repr

/-- `sizeof(packet_len_t)`. -/
abbrev packetLenSize : Nat := 2

/-- The bytes of a `packet_len_t` in memory. -/
def packetLenBytes (order : ByteOrder) (size : UInt16) : Bytes :=
  let low := UInt8.ofNat size.toNat
  let high := UInt8.ofNat (size.toNat / 256)
  match order with
  | .little => [low, high]
  | .big => [high, low]

/-- The `packet_len_t` that two bytes of memory are read as. -/
def packetLenAt (order : ByteOrder) (first second : UInt8) : UInt16 :=
  match order with
  | .little => UInt16.ofNat (first.toNat + 256 * second.toNat)
  | .big => UInt16.ofNat (256 * first.toNat + second.toNat)

/-- The `packet_len_t` at the start of some memory. -/
def packetLenOf (order : ByteOrder) : Bytes → UInt16
  | first :: second :: _ => packetLenAt order first second
  -- Never read: the loop looks at a size field only when both of its bytes are there.
  | _ => 0

/-- A packet as it travels: its size field and then its body. -/
def encodeFrame (order : ByteOrder) (body : Bytes) : Bytes :=
  packetLenBytes order (UInt16.ofNat body.length) ++ body

/-- Packets as they travel one after the other. -/
def encodeFrames (order : ByteOrder) (bodies : List Bytes) : Bytes :=
  bodies.flatMap (encodeFrame order)

/-- A size field is two bytes wide. -/
@[simp] theorem length_packetLenBytes (order : ByteOrder) (size : UInt16) :
    (packetLenBytes order size).length = packetLenSize := by
  cases order <;> rfl

/-- A size field that was stored is read back as the size. -/
theorem packetLenOf_packetLenBytes (order : ByteOrder) (size : UInt16) (rest : Bytes) :
    packetLenOf order (packetLenBytes order size ++ rest) = size := by
  -- Two base-256 digits make up any size below 65536, in either order.
  have bound := size.toNat_lt
  apply UInt16.toNat_inj.mp
  cases order <;>
    simp only [packetLenBytes, packetLenOf, packetLenAt, List.cons_append, List.nil_append,
      UInt8.toNat_ofNat', UInt16.toNat_ofNat'] <;> omega

/-- Two zero bytes are read as size zero. -/
@[simp] theorem packetLenAt_zero (order : ByteOrder) : packetLenAt order 0 0 = 0 := by
  cases order <;> rfl

/-- A packet takes two bytes more than its body. -/
@[simp] theorem length_encodeFrame (order : ByteOrder) (body : Bytes) :
    (encodeFrame order body).length = packetLenSize + body.length := by
  simp [encodeFrame]

@[simp] theorem encodeFrames_nil (order : ByteOrder) : encodeFrames order [] = [] := rfl

@[simp] theorem encodeFrames_cons (order : ByteOrder) (body : Bytes) (bodies : List Bytes) :
    encodeFrames order (body :: bodies) = encodeFrame order body ++ encodeFrames order bodies := rfl

/-- A heartbeat travels as two zero bytes. -/
@[simp] theorem encodeFrame_nil (order : ByteOrder) : encodeFrame order [] = [0, 0] := by
  cases order <;> rfl

end Cevent
