import Cevent.Io.Connection

/-! What the push loop makes of the bytes that wait in a push buffer. -/

namespace Cevent

open BoundedLoop

variable {send : Int → Bytes → Int} {ioFd : CeIoFd}

/-- A pass that finds no byte ends the loop without a call. -/
theorem pushPass_empty (send : Int → Bytes → Int) (empty : ioFd.pushBuffer.content = []) :
    (pushPass send ioFd).events = [] ∧ (pushPass send ioFd).exit = some .leave := by
  simp [pushPass, empty]

/-- A pass that finds bytes hands some of them to `send` first. -/
theorem pushPass_waiting (send : Int → Bytes → Int) (waiting : ioFd.pushBuffer.content ≠ []) :
    ∃ given, (pushPass send ioFd).events = [.send ioFd.fd given] ∨
      (pushPass send ioFd).events = [.send ioFd.fd given, .onException ioFd.fd .packetSendError] ∧
        (pushPass send ioFd).exit = some .fail := by
  -- Whatever waits, a pass reads at least one byte of it.
  have positive : 0 < (ioFd.pushBuffer.read ceSendPerSize).2.length := by
    have bytes := List.length_pos_iff.mpr waiting
    rw [Ring.bytes_read, List.length_take, ceSendPerSize]
    omega
  let readData := (ioFd.pushBuffer.read ceSendPerSize).2
  refine ⟨readData.take (UInt16.ofNat readData.length).toNat, ?_⟩
  rw [pushPass]
  simp only [gt_iff_lt, if_pos positive]
  -- `send` is called first, and its result decides about the rest.
  split
  · exact .inr ⟨rfl, rfl⟩
  · exact .inl rfl

/-- A pass that stays in the loop has consumed bytes. -/
theorem pushPass_shrinks (send : Int → Bytes → Int) (ioFd : CeIoFd)
    (stays : (pushPass send ioFd).exit = none) :
    (pushPass send ioFd).state.pushBuffer.content.length < ioFd.pushBuffer.content.length := by
  rw [pushPass] at stays ⊢
  simp only at stays ⊢
  split_ifs at stays ⊢ with positive failed
  -- A pass that stays has read something, and what it read is out of the buffer.
  rw [Ring.bytes_read, List.length_take, ceSendPerSize] at positive
  rw [Ring.content_read, List.length_drop, ceSendPerSize]
  omega

/-- The push loop calls nothing out just when its buffer is empty. -/
theorem pushLoop_events_eq_nil_iff (send : Int → Bytes → Int) (ioFd : CeIoFd) :
    (pushLoop send ioFd).events = [] ↔ ioFd.pushBuffer.content = [] := by
  constructor
  · intro silent
    by_contra waiting
    -- Whether the loop goes on or not, its first pass calls `send`.
    obtain ⟨given, sent⟩ := pushPass_waiting send waiting
    cases exit : (pushPass send ioFd).exit with
    | some how =>
      rw [pushLoop, run_exit exit] at silent
      rcases sent with only | ⟨both, -⟩
      · simp [only] at silent
      · simp [both] at silent
    | none =>
      rw [pushLoop, run_again (pushPass_shrinks send) exit] at silent
      rcases sent with only | ⟨both, fails⟩
      · simp [only] at silent
      · simp [exit] at fails
  · intro empty
    obtain ⟨silent, leaves⟩ := pushPass_empty send empty
    rw [pushLoop, run_exit leaves, silent]

/-- An exception is the last call that the push loop makes. -/
theorem pushLoop_exception_last (send : Int → Bytes → Int) (ioFd : CeIoFd) :
    ExceptionLast (pushLoop send ioFd).events := by
  refine run_induction (pushPass send) (·.pushBuffer.content.length) (pushPass_shrinks send)
    (motive := fun _ done => ExceptionLast done.events) ?_ ?_ ioFd
  · -- The last pass calls nothing, or `send`, or `send` and then `on_exception`.
    intro ioFd how _
    by_cases empty : ioFd.pushBuffer.content = []
    · rw [(pushPass_empty send empty).1]
      exact .nil
    · obtain ⟨given, only | ⟨both, -⟩⟩ := pushPass_waiting send empty
      · rw [only]
        exact .single _
      · rw [both]
        exact .cons rfl (.single _)
  · -- A pass that stays calls `send` alone.
    intro ioFd rest stays later
    by_cases empty : ioFd.pushBuffer.content = []
    · exact absurd ((pushPass_empty send empty).2.symm.trans stays) (by simp)
    · obtain ⟨given, only | ⟨-, fails⟩⟩ := pushPass_waiting send empty
      · rw [only]
        exact .cons rfl later
      · exact absurd (fails.symm.trans stays) (by simp)

/-- The push loop touches nothing but the push buffer, and delivers nothing. -/
theorem pushLoop_keeps (send : Int → Bytes → Int) (ioFd : CeIoFd) :
    let done := pushLoop send ioFd
    done.state.fd = ioFd.fd ∧ done.state.enqueueBuffer = ioFd.enqueueBuffer ∧
      ∀ call ∈ done.events, ∀ fd data size, call ≠ .onReceived fd data size := by
  -- One pass does so, in each of its branches.
  have pass : ∀ ioFd, (pushPass send ioFd).state.fd = ioFd.fd ∧
      (pushPass send ioFd).state.enqueueBuffer = ioFd.enqueueBuffer ∧
      ∀ call ∈ (pushPass send ioFd).events, ∀ fd data size, call ≠ .onReceived fd data size := by
    intro ioFd
    rw [pushPass]
    dsimp only
    split_ifs <;> simp
  -- So do all passes together.
  refine run_induction (pushPass send) (·.pushBuffer.content.length) (pushPass_shrinks send)
    (motive := fun ioFd done => done.state.fd = ioFd.fd ∧
      done.state.enqueueBuffer = ioFd.enqueueBuffer ∧
      ∀ call ∈ done.events, ∀ fd data size, call ≠ .onReceived fd data size) ?_ ?_ ioFd
  · intro ioFd how _
    exact pass ioFd
  · intro ioFd rest _ later
    obtain ⟨fd, buffer, plain⟩ := pass ioFd
    refine ⟨later.1.trans fd, later.2.1.trans buffer, ?_⟩
    intro call inside
    rcases List.mem_append.mp inside with now | after
    · exact plain call now
    · exact later.2.2 call after

/-- The bytes that some calls hand to `send` for an fd. -/
def bytesSent (fd : Int) (calls : List IoCall) : Bytes :=
  calls.flatMap fun
    | .send fd' data => if fd' = fd then data else []
    | _ => []

/-- One run of the push loop sends just what waits, empties the buffer, and reports no error. -/
structure DrainsWhole (send : Int → Bytes → Int) (ioFd : CeIoFd) : Prop where
  sent : bytesSent ioFd.fd (pushLoop send ioFd).events = ioFd.pushBuffer.content
  empty : (pushLoop send ioFd).state.pushBuffer.content = []
  fine : ∀ fd, .onException fd .packetSendError ∉ (pushLoop send ioFd).events

/-- A pass that finds no byte leaves the buffer empty. -/
theorem pushPass_empty_content (send : Int → Bytes → Int) (empty : ioFd.pushBuffer.content = []) :
    (pushPass send ioFd).state.pushBuffer.content = [] := by
  simp [pushPass, empty]

/-- A pass over bytes whose number fits the parameter of `send` sends them all and stays. -/
theorem pushPass_short (takes : ∀ fd data, data.length < 65536 → send fd data = data.length)
    (waiting : ioFd.pushBuffer.content ≠ []) (short : ioFd.pushBuffer.content.length < 65536) :
    (pushPass send ioFd).events = [.send ioFd.fd ioFd.pushBuffer.content] ∧
      (pushPass send ioFd).exit = none ∧ (pushPass send ioFd).state.fd = ioFd.fd ∧
      (pushPass send ioFd).state.pushBuffer.content = [] := by
  have positive := List.length_pos_iff.mpr waiting
  -- One read takes all the bytes, and their number comes through the parameter unchanged.
  have whole : (ioFd.pushBuffer.read ceSendPerSize).2 = ioFd.pushBuffer.content := by
    rw [Ring.bytes_read, List.take_of_length_le]
    rw [ceSendPerSize]
    omega
  have insize : (UInt16.ofNat ioFd.pushBuffer.content.length).toNat =
      ioFd.pushBuffer.content.length := by
    rw [UInt16.toNat_ofNat']
    exact Nat.mod_eq_of_lt short
  have left : (ioFd.pushBuffer.read ceSendPerSize).1.content = [] := by
    rw [Ring.content_read, List.drop_of_length_le]
    rw [ceSendPerSize]
    omega
  simp only [pushPass, whole, gt_iff_lt, if_pos positive, insize, List.take_length,
    takes _ _ short, ne_eq, not_true_eq_false, if_false]
  exact ⟨trivial, trivial, trivial, left⟩

/-- A pass over more bytes sends too few of them, and reports the difference as an error. -/
theorem pushPass_long (takes : ∀ fd data, data.length < 65536 → send fd data = data.length)
    (long : 65536 ≤ ioFd.pushBuffer.content.length) :
    .onException ioFd.fd .packetSendError ∈ (pushPass send ioFd).events ∧
      (pushPass send ioFd).exit = some .fail := by
  have readData : (ioFd.pushBuffer.read ceSendPerSize).2 =
      ioFd.pushBuffer.content.take ceSendPerSize := Ring.bytes_read ..
  obtain ⟨count, countEq⟩ : ∃ count, count = (ioFd.pushBuffer.content.take ceSendPerSize).length :=
    ⟨_, rfl⟩
  -- The count read lies between 65536 and twice that, so the parameter loses its upper part.
  have bounds : 65536 ≤ count ∧ count < 2 * 65536 := by
    rw [countEq, List.length_take, ceSendPerSize]
    omega
  have insize : (UInt16.ofNat count).toNat = count - 65536 := by
    rw [UInt16.toNat_ofNat']
    omega
  -- `send` is given the lower part of the bytes and takes them all.
  have width : ((ioFd.pushBuffer.content.take ceSendPerSize).take (count - 65536)).length =
      count - 65536 := by
    rw [List.length_take, ← countEq]
    omega
  -- That is less than was read, which the loop takes for a failure.
  have fewer : send ioFd.fd ((ioFd.pushBuffer.content.take ceSendPerSize).take (count - 65536)) ≠
      (count : Int) := by
    rw [takes _ _ (by rw [width]; omega), width]
    omega
  simp only [pushPass, readData, ← countEq, gt_iff_lt, if_pos (by omega : 0 < count), insize,
    if_pos fewer]
  exact ⟨by simp, trivial⟩

/--
The push loop sends a whole buffer just when the number of bytes in it fits a `packet_len_t`.

The ring may be of any size and its bytes may lie anywhere in it.
-/
theorem drainsWhole_iff (send : Int → Bytes → Int)
    (takes : ∀ fd data, data.length < 65536 → send fd data = data.length) (ioFd : CeIoFd) :
    DrainsWhole send ioFd ↔ ioFd.pushBuffer.content.length < 65536 := by
  constructor
  · intro drains
    -- The first pass would report an error, and the loop would be left with it.
    by_contra long
    obtain ⟨reported, fails⟩ := pushPass_long takes (Nat.le_of_not_lt long)
    apply drains.fine ioFd.fd
    rwa [pushLoop, run_exit fails]
  · intro short
    by_cases empty : ioFd.pushBuffer.content = []
    · -- There is nothing to send, and nothing is sent.
      obtain ⟨silent, leaves⟩ := pushPass_empty send empty
      constructor
      · rw [pushLoop, run_exit leaves, silent, empty]
        rfl
      · rw [pushLoop, run_exit leaves]
        exact pushPass_empty_content send empty
      · simp [pushLoop, run_exit leaves, silent]
    · -- The first pass sends everything, and the second one finds the buffer empty.
      obtain ⟨sends, stays, sameFd, left⟩ := pushPass_short takes empty short
      obtain ⟨silent, leaves⟩ := pushPass_empty send left
      have last := pushPass_empty_content send left
      have twice : pushLoop send ioFd =
          { pushPass send (pushPass send ioFd).state with
            events := [.send ioFd.fd ioFd.pushBuffer.content] } := by
        rw [pushLoop, run_again (pushPass_shrinks send) stays, run_exit leaves, sends, silent]
        rfl
      constructor
      · simp [twice, bytesSent]
      · rw [twice, last]
      · simp [twice]

/-- Two packets that wait together are sent at once. -/
theorem drainsWhole_iff_two_packets :
    let pushBuffer := ((Ring.new 16 (by decide)).write
      { bytes := [1, 0, 5, 2, 0, 6, 7], count := 7, backed := by decide }).1
    let ioFd : CeIoFd := { newIoFd 7 16 (by decide) with pushBuffer := pushBuffer }
    DrainsWhole (fun _ data => data.length) ioFd :=
  (drainsWhole_iff _ (fun _ _ _ => rfl) _).mpr (by decide)

/-- A connection whose push buffer is of some size, and full of zero bytes. -/
def fullFd (size : Nat) (positive : 0 < size) : CeIoFd :=
  let bytes : RbSource :=
    { bytes := List.replicate size 0, count := size, backed := by simp }
  { newIoFd 7 size (Int.natCast_pos.mpr positive) with
    pushBuffer := ((Ring.new size (Int.natCast_pos.mpr positive)).write bytes).1 }

/-- It has that many bytes to send. -/
theorem length_fullFd (size : Nat) (positive : 0 < size) :
    (fullFd size positive).pushBuffer.content.length = size := by
  -- A new ring of that size has room for all the bytes.
  have room : (Ring.new size (Int.natCast_pos.mpr positive)).room = size := by
    rw [Ring.room, Ring.content_new, List.length_nil, Nat.sub_zero]
    rfl
  rw [fullFd, Ring.content_write, Ring.content_new, List.nil_append, room, List.length_take,
    List.length_replicate]
  simp

/-- With 65536 bytes waiting, `send` is handed none of them, and the connection is given up. -/
theorem not_drainsWhole_overfull :
    ¬ DrainsWhole (fun _ data => data.length) (fullFd 65536 (by decide)) := by
  have long := Nat.le_of_eq (length_fullFd 65536 (by decide)).symm
  obtain ⟨reported, fails⟩ := pushPass_long (fun _ _ _ => rfl) long
  intro drains
  -- The loop is over after its first pass, and the error is among what that pass calls.
  apply drains.fine (fullFd 65536 (by decide)).fd
  rwa [pushLoop, run_exit fails]

end Cevent
