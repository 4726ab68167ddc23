import Cevent.Ring.Laws

/-! Rings that are only ever in a state their operations keep. -/

namespace Cevent

/-- Memory passed to a write, with a count of bytes that it really holds. -/
structure RbSource where
  bytes : Bytes
  count : Int
  backed : count ≤ bytes.length

/-- Bytes hold as many bytes as they are. -/
theorem length_backs (bytes : Bytes) : (bytes.length : Int) ≤ bytes.length := Int.le_refl _

/-- A ring in one of the states that its operations keep. -/
structure Ring where
  rb : CeRb
  wellFormed : rb.WellFormed

namespace Ring

/-- `ce_rb_new`. -/
def new (capacity : Int) (positive : 0 < capacity) : Ring where
  rb := ceRbNew capacity
  wellFormed := ceRbNew_wellFormed positive

/-- The bytes that wait in the ring, oldest first. -/
def content (ring : Ring) : Bytes := ring.rb.content

/-- How many bytes the ring holds at most. -/
def capacity (ring : Ring) : Nat := ring.rb.capacity.toNat

/-- How many more bytes the ring takes in. -/
def room (ring : Ring) : Nat := ring.capacity - ring.content.length

/-- `ce_rb_write`, with the count it returns. -/
def write (ring : Ring) (source : RbSource) : Ring × Int :=
  ⟨{ rb := (ceRbWrite ring.rb (some source.bytes) source.count).rb
     wellFormed := by
      -- A refused write leaves the ring as it was.
      rcases Int.lt_or_le 0 source.count with positive | stop
      · exact (ceRbWrite_spec ring.wellFormed positive source.backed).wellFormed
      · rw [ceRbWrite_refused (.inr stop)]
        exact ring.wellFormed },
   (ceRbWrite ring.rb (some source.bytes) source.count).count⟩

/-- `ce_rb_read`, with the bytes found at the address it stores. -/
def read (ring : Ring) (count : Nat) : Ring × Bytes :=
  ⟨{ rb := (ceRbRead ring.rb .null count).rb
     wellFormed := (ceRbRead_spec ring.wellFormed .null (Int.natCast_nonneg count)).wellFormed },
   (ceRbRead ring.rb .null count).rb.load (ceRbRead ring.rb .null count).data
     (ceRbRead ring.rb .null count).count⟩

@[simp] theorem content_new (capacity : Int) (positive : 0 < capacity) :
    (new capacity positive).content = [] :=
  ceRbNew_content capacity

/-- The readable count is the length of the content. -/
theorem canRead_eq (ring : Ring) : ceRbCanRead ring.rb = ring.content.length :=
  ring.wellFormed.canRead_eq

/-- The free count is the room that is left. -/
theorem canWrite_eq (ring : Ring) : ceRbCanWrite ring.rb = ring.room := by
  -- The content is never longer than the capacity, so no difference is cut off at zero.
  have bound := ring.wellFormed.content_length_le
  rw [ring.wellFormed.canWrite_eq, room, content, capacity]
  omega

/-- A write appends as many of the caller's bytes as there is room for. -/
theorem content_write (ring : Ring) (source : RbSource) :
    (ring.write source).1.content =
      ring.content ++ source.bytes.take (min source.count.toNat ring.room) := by
  rcases Int.lt_or_le 0 source.count with positive | stop
  · -- The call is accepted, and appends what its specification says.
    have spec := (ceRbWrite_spec ring.wellFormed positive source.backed).content
    rw [ring.canWrite_eq] at spec
    rw [content, content, write, spec]
    congr 2
    omega
  · -- The call is refused, and the count of zero takes no bytes.
    have none_ : source.count.toNat = 0 := by omega
    simp [content, write, ceRbWrite_refused (.inr stop), none_]

/-- A write returns how many bytes it appended. -/
theorem count_write (ring : Ring) (source : RbSource) :
    (ring.write source).2 = min source.count.toNat ring.room := by
  rcases Int.lt_or_le 0 source.count with positive | stop
  · have spec := (ceRbWrite_spec ring.wellFormed positive source.backed).returned
    rw [ring.canWrite_eq] at spec
    rw [write, spec]
    omega
  · have none_ : source.count.toNat = 0 := by omega
    simp [write, ceRbWrite_refused (.inr stop), none_]

/-- A read hands over the first bytes that wait. -/
@[simp] theorem bytes_read (ring : Ring) (count : Nat) :
    (ring.read count).2 = ring.content.take count := by
  have spec := (ceRbRead_spec ring.wellFormed .null (Int.natCast_nonneg count)).data
  rw [ring.canRead_eq] at spec
  -- Taking no more than there is comes to taking as many as were asked for.
  rw [show (min (count : Int) ring.content.length).toNat = min count ring.content.length by omega,
    ← List.take_take] at spec
  show _ = (ring.rb.content).take count
  rw [← List.take_length (l := ring.rb.content)]
  exact spec

/-- A read leaves the bytes after the first ones. -/
@[simp] theorem content_read (ring : Ring) (count : Nat) :
    (ring.read count).1.content = ring.content.drop count := by
  have spec := (ceRbRead_spec ring.wellFormed .null (Int.natCast_nonneg count)).content
  rw [ring.canRead_eq] at spec
  rw [content, read, spec]
  rcases Nat.le_total count ring.content.length with few | many
  · -- As many bytes wait as were asked for.
    rw [show (min (count : Int) ring.content.length).toNat = count by omega]
    rfl
  · -- Fewer bytes wait, and all of them are taken.
    rw [show (min (count : Int) ring.content.length).toNat = ring.content.length by omega,
      List.drop_eq_nil_of_le many]
    exact List.drop_length

/-- A read keeps the capacity. -/
@[simp] theorem capacity_read (ring : Ring) (count : Nat) :
    (ring.read count).1.capacity = ring.capacity := by
  simp [capacity, read, (ceRbRead_spec ring.wellFormed .null (Int.natCast_nonneg count)).capacity]

/-- A write keeps the capacity. -/
@[simp] theorem capacity_write (ring : Ring) (source : RbSource) :
    (ring.write source).1.capacity = ring.capacity := by
  rcases Int.lt_or_le 0 source.count with positive | stop
  · simp [capacity, write, (ceRbWrite_spec ring.wellFormed positive source.backed).capacity]
  · simp [capacity, write, ceRbWrite_refused (.inr stop)]

/-- A write uses up as much of the room as it asks for. -/
theorem room_write (ring : Ring) (source : RbSource) :
    (ring.write source).1.room = ring.room - source.count.toNat := by
  have backed := source.backed
  -- The content grows by what is taken in, and the capacity stays.
  have used : (ring.write source).1.content.length =
      ring.content.length + min source.count.toNat ring.room := by
    rw [content_write, List.length_append, List.length_take]
    omega
  rw [room, capacity_write, used]
  rw [room]
  omega

end Ring

end Cevent
