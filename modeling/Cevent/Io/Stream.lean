import Cevent.Io.Connection

/-! What the enqueue loop makes of a stream of bytes, with the ring that carries them out of sight. -/

namespace Cevent

open BoundedLoop

/-- What one run of the enqueue loop does with the bytes that wait. -/
structure Parsed where
  calls : List IoCall
  rest : Bytes
  exit : LoopExit
  deriving DecidableEq, Repr

/-- The calls the enqueue loop makes on a stream, and the bytes it leaves. -/
def parseStream (order : ByteOrder) (limit : UInt16) (fd : Int) : Bytes → Parsed
  | first :: second :: third :: rest =>
    let size := packetLenAt order first second
    -- A heartbeat is skipped, and the next size field is read.
    if size = 0 then parseStream order limit fd (third :: rest)
    else if size > limit then
      { calls := [.onException fd .packetIllegal], rest := third :: rest, exit := .fail }
    else if size.toNat < (third :: rest).length then
      -- More bytes than the packet needs, and only its size field is gone.
      { calls := [], rest := third :: rest, exit := .leave }
    else
      -- All that is left is handed over, also when the packet is longer.
      { calls := [.onReceived fd (third :: rest) (UInt16.ofNat (third :: rest).length)]
        rest := []
        exit := .leave }
  -- The loop wants one byte behind a size field, so a heartbeat at the end stays.
  | short => { calls := [], rest := short, exit := .leave }

/-- At most two bytes are left alone. -/
theorem parseStream_short {order : ByteOrder} {limit : UInt16} {fd : Int} {bytes : Bytes}
    (short : bytes.length ≤ packetLenSize) :
    parseStream order limit fd bytes = { calls := [], rest := bytes, exit := .leave } := by
  -- The stream's own recursion wants three bytes.
  match bytes with
  | [] | [_] | [_, _] => rfl
  | _ :: _ :: _ :: _ => simp [packetLenSize] at short

/--
The bytes that wait make the enqueue loop call nothing.

Behind heartbeats come at most two bytes, or a legal size that is smaller than what follows it.
-/
def Stalled (order : ByteOrder) (limit : UInt16) : Bytes → Prop
  | first :: second :: third :: rest =>
    let size := packetLenAt order first second
    if size = 0 then Stalled order limit (third :: rest)
    -- The size field is then taken out, and no call is made.
    else size ≤ limit ∧ size.toNat < (third :: rest).length
  | _ => True

/-- A stream that is stalled is parsed without a call, and no other one is. -/
theorem parseStream_calls_eq_nil_iff (order : ByteOrder) (limit : UInt16) (fd : Int)
    (bytes : Bytes) : (parseStream order limit fd bytes).calls = [] ↔ Stalled order limit bytes := by
  -- The two recursions step over the same heartbeats.
  fun_induction parseStream order limit fd bytes with
  | case1 first second third rest size zero ih =>
    rw [Stalled, if_pos zero]
    exact ih
  | case2 first second third rest size nonzero illegal =>
    rw [Stalled, if_neg nonzero]
    refine iff_of_false (by simp) ?_
    -- An illegal size is above the limit, and a stalled one is not.
    intro stalled
    exact UInt16.not_le.mpr illegal stalled.1
  | case3 first second third rest size nonzero legal long =>
    rw [Stalled, if_neg nonzero]
    exact iff_of_true rfl ⟨UInt16.not_lt.mp legal, long⟩
  | case4 first second third rest size nonzero legal short =>
    rw [Stalled, if_neg nonzero]
    refine iff_of_false (by simp) ?_
    intro stalled
    -- A size that is not smaller than what follows is delivered.
    exact short stalled.2
  | case5 short longer =>
    rw [Stalled]
    · simp
    · exact longer

/--
However often the enqueue loop runs over the bytes that wait, it delivers none of them.

Wherever it may take two of them for a size field, no packet that it would deliver follows.
-/
def Undeliverable (order : ByteOrder) (limit : UInt16) : Bytes → Prop
  | first :: second :: third :: rest =>
    let size := packetLenAt order first second
    (size ≠ 0 → size ≤ limit → size.toNat < (third :: rest).length) ∧
      Undeliverable order limit (third :: rest)
  | _ => True

/-- One run over such bytes delivers nothing, and leaves such bytes. -/
theorem Undeliverable.parse {order : ByteOrder} {limit : UInt16} {bytes : Bytes}
    (undeliverable : Undeliverable order limit bytes) (fd : Int) :
    (∀ call ∈ (parseStream order limit fd bytes).calls,
        ∀ fd' data size, call ≠ .onReceived fd' data size) ∧
      Undeliverable order limit (parseStream order limit fd bytes).rest := by
  fun_induction parseStream order limit fd bytes with
  | case1 first second third rest size zero ih => exact ih undeliverable.2
  | case2 first second third rest size nonzero illegal => exact ⟨by simp, undeliverable.2⟩
  | case3 first second third rest size nonzero legal long => exact ⟨by simp, undeliverable.2⟩
  | case4 first second third rest size nonzero legal short =>
    -- A packet that would be delivered here is what the condition excludes.
    exact absurd (undeliverable.1 nonzero (UInt16.not_lt.mp legal)) short
  | case5 short longer => exact ⟨by simp, undeliverable⟩

/-- One run of the enqueue loop makes one call at most. -/
theorem parseStream_exception_last (order : ByteOrder) (limit : UInt16) (fd : Int)
    (bytes : Bytes) : ExceptionLast (parseStream order limit fd bytes).calls := by
  fun_induction parseStream order limit fd bytes with
  -- A heartbeat makes no call.
  | case1 first second third rest size zero ih => exact ih
  | case2 | case4 => exact .single _
  | case3 | case5 => exact .nil

/--
One run of the enqueue loop delivers a piece of its stream and leaves what comes after it.

When it delivers nothing it still leaves an end of its stream.
-/
theorem parseStream_consumes (order : ByteOrder) (limit : UInt16) (fd : Int) (bytes : Bytes) :
    let parsed := parseStream order limit fd bytes
    (∃ data size skipped, parsed.calls = [.onReceived fd data size] ∧
        bytes = skipped ++ data ++ parsed.rest) ∨
      ((∀ call ∈ parsed.calls, ∀ fd' data size, call ≠ .onReceived fd' data size) ∧
        parsed.rest <:+ bytes) := by
  fun_induction parseStream order limit fd bytes with
  | case1 first second third rest size zero ih =>
    -- Behind a heartbeat, what is skipped grows by its two bytes.
    rcases ih with ⟨data, size', skipped, calls, split⟩ | ⟨plain, rest'⟩
    · refine .inl ⟨data, size', first :: second :: skipped, calls, ?_⟩
      rw [List.cons_append, List.cons_append, List.cons_append, List.cons_append, ← split]
    · exact .inr ⟨plain, rest'.trans ((List.suffix_cons _ _).trans (List.suffix_cons _ _))⟩
  | case2 first second third rest size nonzero illegal =>
    refine .inr ⟨by simp, (List.suffix_cons _ _).trans (List.suffix_cons _ _)⟩
  | case3 first second third rest size nonzero legal long =>
    refine .inr ⟨by simp, (List.suffix_cons _ _).trans (List.suffix_cons _ _)⟩
  | case4 first second third rest size nonzero legal short =>
    -- Only the size field is skipped before the data.
    exact .inl ⟨_, _, [first, second], rfl, by simp⟩
  | case5 short longer => exact .inr ⟨by simp, List.suffix_refl _⟩

/-- A pass that finds at most two bytes ends the loop and changes nothing. -/
theorem enqueuePass_short {order : ByteOrder} {limit : UInt16} {ioFd : CeIoFd}
    (short : ioFd.enqueueBuffer.content.length ≤ packetLenSize) :
    enqueuePass order limit ioFd = { state := ioFd, events := [], exit := some .leave } := by
  -- The loop condition counts the same bytes.
  have few : ceRbCanRead ioFd.enqueueBuffer.rb ≤ packetLenSize := by
    rw [ioFd.enqueueBuffer.canRead_eq]
    exact_mod_cast short
  rw [enqueuePass, if_pos few]

/-- What a pass does when a size field and at least one more byte wait. -/
theorem enqueuePass_long {order : ByteOrder} {limit : UInt16} {ioFd : CeIoFd}
    {first second : UInt8} {rest : Bytes} (more : rest ≠ [])
    (waiting : ioFd.enqueueBuffer.content = first :: second :: rest) :
    enqueuePass order limit ioFd =
      let afterSize := (ioFd.enqueueBuffer.read packetLenSize).1
      let size := packetLenAt order first second
      if size = 0 then
        { state := { ioFd with enqueueBuffer := afterSize }, events := [], exit := none }
      else if size > limit then
        { state := { ioFd with enqueueBuffer := afterSize }
          events := [.onException ioFd.fd .packetIllegal]
          exit := some .fail }
      else if size.toNat < rest.length then
        { state := { ioFd with enqueueBuffer := afterSize, enqueueCacheBodySize := size }
          events := []
          exit := some .leave }
      else
        { state := { ioFd with
            enqueueBuffer := (afterSize.read size.toNat).1, enqueueCacheBodySize := 0 }
          events := [.onReceived ioFd.fd rest (UInt16.ofNat rest.length)]
          exit := none } := by
  have positive := List.length_pos_iff.mpr more
  -- The size field and one byte more are there, so the pass goes on.
  have many : ¬ ceRbCanRead ioFd.enqueueBuffer.rb ≤ packetLenSize := by
    rw [ioFd.enqueueBuffer.canRead_eq, waiting]
    simp only [List.length_cons, packetLenSize]
    omega
  have left : ceRbCanRead (ioFd.enqueueBuffer.read packetLenSize).1.rb = rest.length := by
    rw [Ring.canRead_eq, Ring.content_read, waiting]
    rfl
  -- A body that is at least as long as what waits is read as all that waits.
  have body : ∀ size : Nat, rest.length ≤ size →
      ((ioFd.enqueueBuffer.read packetLenSize).1.read size).2 = rest := by
    intro size long
    rw [Ring.bytes_read, Ring.content_read, waiting]
    exact List.take_of_length_le long
  have field : (ioFd.enqueueBuffer.read packetLenSize).2 = [first, second] := by
    rw [Ring.bytes_read, waiting]
    rfl
  rw [enqueuePass, if_neg many]
  simp only [field, packetLenOf, left, Int.ofNat_lt]
  split_ifs with zero illegal long
  · rfl
  · rfl
  · rfl
  · rw [body (packetLenAt order first second).toNat (by omega)]

/-- A pass that stays in the loop has consumed bytes. -/
theorem enqueuePass_shrinks (order : ByteOrder) (limit : UInt16) (ioFd : CeIoFd)
    (stays : (enqueuePass order limit ioFd).exit = none) :
    (enqueuePass order limit ioFd).state.enqueueBuffer.content.length <
      ioFd.enqueueBuffer.content.length := by
  match waiting : ioFd.enqueueBuffer.content with
  | [] | [_] | [_, _] =>
    -- Such a pass leaves the loop.
    have short : ioFd.enqueueBuffer.content.length ≤ packetLenSize := by simp [waiting, packetLenSize]
    simp [enqueuePass_short short] at stays
  | first :: second :: third :: rest =>
    rw [enqueuePass_long (by simp) waiting] at stays ⊢
    simp only at stays ⊢
    -- The two branches that stay have taken the size field at least.
    split_ifs at stays ⊢ with zero illegal long <;>
      simp [waiting, packetLenSize] at stays ⊢
    omega

/-- The enqueue loop makes the calls of its stream and leaves the bytes its stream leaves. -/
theorem enqueueLoop_parse (order : ByteOrder) (limit : UInt16) (ioFd : CeIoFd) :
    let done := enqueueLoop order limit ioFd
    let parsed := parseStream order limit ioFd.fd ioFd.enqueueBuffer.content
    done.events = parsed.calls ∧ done.state.enqueueBuffer.content = parsed.rest ∧
      done.exit = some parsed.exit ∧ done.state.fd = ioFd.fd ∧
      done.state.pushBuffer = ioFd.pushBuffer ∧
      done.state.enqueueBuffer.capacity = ioFd.enqueueBuffer.capacity := by
  -- The passes of the loop are the unfoldings of the stream's own recursion.
  refine run_induction (enqueuePass order limit) (·.enqueueBuffer.content.length)
    (enqueuePass_shrinks order limit) (motive := fun ioFd done =>
    let parsed := parseStream order limit ioFd.fd ioFd.enqueueBuffer.content
    done.events = parsed.calls ∧ done.state.enqueueBuffer.content = parsed.rest ∧
      done.exit = some parsed.exit ∧ done.state.fd = ioFd.fd ∧
      done.state.pushBuffer = ioFd.pushBuffer ∧
      done.state.enqueueBuffer.capacity = ioFd.enqueueBuffer.capacity)
    ?_ ?_ ioFd
  · -- The last pass leaves the loop, or finds too little to go on.
    intro ioFd how leaves
    match waiting : ioFd.enqueueBuffer.content with
    | [] | [_] | [_, _] =>
      have short : ioFd.enqueueBuffer.content.length ≤ packetLenSize := by simp [waiting, packetLenSize]
      rw [← waiting, enqueuePass_short short, parseStream_short short]
      simp
    | first :: second :: third :: rest =>
      rw [enqueuePass_long (by simp) waiting] at leaves ⊢
      simp only [parseStream] at leaves ⊢
      split_ifs at leaves ⊢ <;> simp_all [packetLenSize]
  · -- A pass that stays was a heartbeat or a delivery, and the rest of the run is known.
    intro ioFd rest stays
    match waiting : ioFd.enqueueBuffer.content with
    | [] | [_] | [_, _] =>
      have short : ioFd.enqueueBuffer.content.length ≤ packetLenSize := by simp [waiting, packetLenSize]
      simp [enqueuePass_short short] at stays
    | first :: second :: third :: tail =>
      rw [enqueuePass_long (by simp) waiting] at stays ⊢
      simp only [parseStream] at stays ⊢
      split_ifs at stays ⊢ with zero illegal long
      · simp_all [packetLenSize]
      · -- A delivered body is all that waited, so the next pass finds an empty ring.
        have gone : (third :: tail).drop (packetLenAt order first second).toNat = [] :=
          List.drop_eq_nil_of_le (by omega)
        have empty : parseStream order limit ioFd.fd [] =
            { calls := [], rest := [], exit := .leave } := rfl
        simp only [Ring.content_read, waiting, packetLenSize, List.drop_succ_cons, List.drop_zero,
          gone, empty, Ring.capacity_read]
        rintro ⟨calls, content, exit, fd, push, capacity⟩
        exact ⟨by simp [calls], content, exit, fd, push, capacity⟩

end Cevent
