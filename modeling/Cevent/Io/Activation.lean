import Cevent.Io.Stream

/-! One activation of the enqueue loop: that it ends, and what it hands to its callbacks. -/

namespace Cevent

open BoundedLoop

/-- The calls that an activation makes out of the library, with the address that it passes. -/
inductive EnqueueCall where
  /-- `conf.on_received(fd, data, size)`, with the bytes found at the address. -/
  | onReceived (fd : Int) (address : RbData) (data : Bytes) (size : UInt16)
  /-- `conf.on_exception(fd, exception)`. -/
  | onException (fd : Int) (exception : CeException)
  deriving DecidableEq, Repr

/-- The call as it looks when the address is left out. -/
def EnqueueCall.forget : EnqueueCall → IoCall
  | .onReceived fd _ data size => .onReceived fd data size
  | .onException fd exception => .onException fd exception

/-- The call delivers at an address that is not `NULL` at least one byte, and no more than the limit. -/
def EnqueueCall.DeliversWithin (limit : UInt16) : EnqueueCall → Prop
  | .onReceived _ address data size =>
    address ≠ .null ∧ data.length = size.toNat ∧ 1 ≤ size.toNat ∧ size ≤ limit
  | .onException _ _ => False

/-- `enqueuePass`, with the address that `ce_rb_read` stores in `read_data`. -/
def activationPass (order : ByteOrder) (perMaxPacketBodySize : UInt16) (ioFd : CeIoFd) :
    Pass CeIoFd EnqueueCall LoopExit :=
  if ceRbCanRead ioFd.enqueueBuffer.rb ≤ packetLenSize then
    { state := ioFd, events := [], exit := some .leave }
  else
    let (afterSize, sizeField) := ioFd.enqueueBuffer.read packetLenSize
    let enqueueBodySize := packetLenOf order sizeField
    let ioFd := { ioFd with enqueueBuffer := afterSize }
    if enqueueBodySize = 0 then
      { state := ioFd, events := [], exit := none }
    else if enqueueBodySize > perMaxPacketBodySize then
      { state := ioFd
        events := [.onException ioFd.fd .packetIllegal]
        exit := some .fail }
    else if (enqueueBodySize.toNat : Int) < ceRbCanRead ioFd.enqueueBuffer.rb then
      { state := { ioFd with enqueueCacheBodySize := enqueueBodySize }
        events := []
        exit := some .leave }
    else
      -- Were the read to leave `read_data` alone, the callback would be given `NULL`.
      let address := (ceRbRead ioFd.enqueueBuffer.rb .null enqueueBodySize.toNat).data
      let (afterBody, readData) := ioFd.enqueueBuffer.read enqueueBodySize.toNat
      { state := { ioFd with enqueueBuffer := afterBody, enqueueCacheBodySize := 0 }
        events := [.onReceived ioFd.fd address readData (UInt16.ofNat readData.length)]
        exit := none }

/-- The enqueue loop of one connection, with the addresses that it passes on. -/
def activation (order : ByteOrder) (perMaxPacketBodySize : UInt16) (ioFd : CeIoFd) :
    Pass CeIoFd EnqueueCall LoopExit :=
  run (activationPass order perMaxPacketBodySize) (·.enqueueBuffer.content.length) ioFd

section Passes

variable (order : ByteOrder) (limit : UInt16) (ioFd : CeIoFd)

/-- Without the addresses a pass is the one of the enqueue processor. -/
theorem activationPass_forget : enqueuePass order limit ioFd =
    { state := (activationPass order limit ioFd).state
      events := (activationPass order limit ioFd).events.map (·.forget)
      exit := (activationPass order limit ioFd).exit } := by
  -- Both take the same branch, and only the last one makes a call with an address.
  simp only [enqueuePass, activationPass]
  split_ifs <;> rfl

/-- A pass that stays in the loop has consumed bytes. -/
theorem activationPass_shrinks (stays : (activationPass order limit ioFd).exit = none) :
    (activationPass order limit ioFd).state.enqueueBuffer.content.length <
      ioFd.enqueueBuffer.content.length := by
  have shrinks := enqueuePass_shrinks order limit ioFd
  rw [activationPass_forget] at shrinks
  exact shrinks stays

/-- Without the addresses an activation is the loop of the enqueue processor. -/
theorem activation_forget : enqueueLoop order limit ioFd =
    { state := (activation order limit ioFd).state
      events := (activation order limit ioFd).events.map (·.forget)
      exit := (activation order limit ioFd).exit } := by
  -- By induction on the passes, as each pass does the same in both loops.
  refine run_induction (activationPass order limit) (·.enqueueBuffer.content.length)
    (activationPass_shrinks order limit) (motive := fun ioFd done => enqueueLoop order limit ioFd =
      { state := done.state, events := done.events.map (·.forget), exit := done.exit })
    ?_ ?_ ioFd
  · intro ioFd how leaves
    have same := activationPass_forget order limit ioFd
    have leaves' : (enqueuePass order limit ioFd).exit = some how := by rw [same, leaves]
    rw [enqueueLoop, run_exit leaves', same]
  · intro ioFd rest stays ih
    have same := activationPass_forget order limit ioFd
    rw [enqueueLoop, run_again (enqueuePass_shrinks order limit) (by rw [same, stays])]
    rw [same, ← enqueueLoop, ih]
    simp

end Passes

/-- A read of at least one byte of those that wait stores an address that is not `NULL`. -/
theorem Ring.address_read (ring : Ring) {count : Nat} (some_ : 0 < count)
    (waits : ring.content ≠ []) : (ceRbRead ring.rb .null count).data ≠ .null := by
  have waiting := List.length_pos_iff.mpr waits
  rcases ceRbRead_cases ring.rb .null (Int.natCast_nonneg count) rfl with
    ⟨nothing, -⟩ | ⟨-, -, taken⟩ | ⟨-, -, taken⟩
  · rw [ring.canRead_eq] at nothing
    omega
  · rw [taken]
    exact RbData.noConfusion
  · rw [taken]
    exact RbData.noConfusion

/-- A pass leaves the loop with one `on_exception` at most, or stays in it and only delivers. -/
theorem activationPass_cases (order : ByteOrder) (limit : UInt16) (ioFd : CeIoFd) :
    (∃ how, (activationPass order limit ioFd).exit = some how ∧
      ((activationPass order limit ioFd).events = [] ∨
        (activationPass order limit ioFd).events = [.onException ioFd.fd .packetIllegal])) ∨
    ((activationPass order limit ioFd).exit = none ∧
      ∀ call ∈ (activationPass order limit ioFd).events, call.DeliversWithin limit) := by
  unfold activationPass
  by_cases short : ceRbCanRead ioFd.enqueueBuffer.rb ≤ packetLenSize
  · rw [if_pos short]
    exact .inl ⟨_, rfl, .inl rfl⟩
  rw [if_neg short]
  -- At least one byte is left behind the size field.
  have left : (ioFd.enqueueBuffer.read packetLenSize).1.content ≠ [] := by
    rw [ioFd.enqueueBuffer.canRead_eq] at short
    rw [Ring.content_read, Ne, List.drop_eq_nil_iff]
    omega
  obtain ⟨size, sizeEq⟩ : ∃ size,
    size = packetLenOf order (ioFd.enqueueBuffer.read packetLenSize).2 := ⟨_, rfl⟩
  simp only [← sizeEq]
  by_cases zero : size = 0
  · rw [if_pos zero]
    exact .inr ⟨rfl, by simp⟩
  rw [if_neg zero]
  by_cases illegal : size > limit
  · rw [if_pos illegal]
    exact .inl ⟨_, rfl, .inr rfl⟩
  rw [if_neg illegal]
  by_cases long : (size.toNat : Int) < ceRbCanRead (ioFd.enqueueBuffer.read packetLenSize).1.rb
  · rw [if_pos long]
    exact .inl ⟨_, rfl, .inl rfl⟩
  rw [if_neg long]
  refine .inr ⟨rfl, List.forall_mem_singleton.mpr ?_⟩
  -- The read hands over what waits, which is no more than the size field announces.
  have positive : 0 < size.toNat := by
    refine Nat.pos_of_ne_zero fun none_ => zero ?_
    exact UInt16.toNat_inj.mp none_
  have bytes : ((ioFd.enqueueBuffer.read packetLenSize).1.read size.toNat).2.length =
      min size.toNat (ioFd.enqueueBuffer.read packetLenSize).1.content.length := by
    rw [Ring.bytes_read, List.length_take]
  have waiting := List.length_pos_iff.mpr left
  have word : size.toNat < 65536 := size.toNat_lt
  have count : (UInt16.ofNat
      ((ioFd.enqueueBuffer.read packetLenSize).1.read size.toNat).2.length).toNat =
      ((ioFd.enqueueBuffer.read packetLenSize).1.read size.toNat).2.length :=
    UInt16.toNat_ofNat_of_lt (by show _ < 65536; omega)
  have legal : size.toNat ≤ limit.toNat := UInt16.le_iff_toNat_le.mp (UInt16.not_lt.mp illegal)
  refine ⟨Ring.address_read _ positive left, count.symm, ?_, UInt16.le_iff_toNat_le.mpr ?_⟩
  · omega
  · omega

/-- An activation leaves its loop. -/
theorem activation_exit (order : ByteOrder) (limit : UInt16) (ioFd : CeIoFd) :
    ∃ how, (activation order limit ioFd).exit = some how := by
  refine run_induction (activationPass order limit) (·.enqueueBuffer.content.length)
    (activationPass_shrinks order limit) (motive := fun _ done => ∃ how, done.exit = some how)
    ?_ ?_ ioFd
  · exact fun _ how leaves => ⟨how, leaves⟩
  · exact fun _ _ _ later => later

/-- The calls of an activation are deliveries within the limit, and then one `on_exception` or none. -/
theorem activation_events (order : ByteOrder) (limit : UInt16) (ioFd : CeIoFd) :
    ∃ deliveries last, (activation order limit ioFd).events = deliveries ++ last ∧
      (∀ call ∈ deliveries, call.DeliversWithin limit) ∧
      (last = [] ∨ ∃ fd exception, last = [.onException fd exception]) := by
  refine run_induction (activationPass order limit) (·.enqueueBuffer.content.length)
    (activationPass_shrinks order limit) (motive := fun _ done => ∃ deliveries last,
      done.events = deliveries ++ last ∧ (∀ call ∈ deliveries, call.DeliversWithin limit) ∧
        (last = [] ∨ ∃ fd exception, last = [.onException fd exception])) ?_ ?_ ioFd
  · intro ioFd how leaves
    rcases activationPass_cases order limit ioFd with ⟨_, -, quiet | failed⟩ | ⟨stays, -⟩
    · exact ⟨[], [], quiet, by simp, .inl rfl⟩
    · exact ⟨[], _, failed, by simp, .inr ⟨_, _, rfl⟩⟩
    · simp [stays] at leaves
  · rintro ioFd rest stays ⟨deliveries, last, split, within, final⟩
    rcases activationPass_cases order limit ioFd with ⟨_, leaves, -⟩ | ⟨-, delivers⟩
    · simp [stays] at leaves
    · -- What this pass delivers comes before all that the later ones do.
      refine ⟨(activationPass order limit ioFd).events ++ deliveries, last, ?_, ?_, final⟩
      · rw [split, List.append_assoc]
      · intro call member
        rcases List.mem_append.mp member with now | later
        · exact delivers call now
        · exact within call later

/--
Whatever bytes wait, an activation ends, and its calls are deliveries within the limit.

After these comes one `on_exception` or none, and no call at all follows that one.
-/
theorem activation_ends_and_delivers (order : ByteOrder) (limit : UInt16) (ioFd : CeIoFd) :
    (∃ how, (activation order limit ioFd).exit = some how) ∧
    (∀ fuel, ioFd.enqueueBuffer.content.length < fuel →
      loop (activationPass order limit) fuel ioFd = activation order limit ioFd) ∧
    ∃ deliveries last, (activation order limit ioFd).events = deliveries ++ last ∧
      (∀ call ∈ deliveries, call.DeliversWithin limit) ∧
      (last = [] ∨ ∃ fd exception, last = [.onException fd exception]) := by
  refine ⟨activation_exit order limit ioFd, ?_, activation_events order limit ioFd⟩
  intro fuel enough
  -- Each pass that stays takes bytes, so fuel beyond those that wait changes nothing.
  exact loop_eq_run (activationPass_shrinks order limit) enough

end Cevent
