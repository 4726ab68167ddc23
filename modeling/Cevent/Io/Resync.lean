import Cevent.Io.Stream

/-! A parser that has lost a size field never falls back into step with the packets. -/

namespace Cevent

/-- Bytes that a parser hands over in pieces, each behind two bytes that are not both zero. -/
inductive Carved : Bytes → List Bytes → Prop where
  /-- Nothing more is handed over. -/
  | done (stream : Bytes) : Carved stream []
  /-- Two bytes are dropped. -/
  | skip (first second : UInt8) {stream : Bytes} {pieces : List Bytes}
      (later : Carved stream pieces) : Carved (first :: second :: stream) pieces
  /-- Two bytes are read as a size, and some bytes after them are handed over. -/
  | take (first second : UInt8) (piece : Bytes) {stream : Bytes} {pieces : List Bytes}
      (nonzero : ¬ (first = 0 ∧ second = 0)) (later : Carved stream pieces) :
      Carved (first :: second :: (piece ++ stream)) (piece :: pieces)

/-- The data that the `on_received` calls among some calls are given. -/
def receivedData : List IoCall → List Bytes :=
  List.filterMap fun
    | .onReceived _ data _ => some data
    | _ => none

/-- A size that is not zero is stored in two bytes that are not both zero. -/
theorem nonzero_of_packetLenAt {order : ByteOrder} {first second : UInt8}
    (nonzero : packetLenAt order first second ≠ 0) : ¬ (first = 0 ∧ second = 0) := by
  -- Two zero bytes are read as zero in either order.
  intro ⟨low, high⟩
  apply nonzero
  rw [low, high, packetLenAt_zero]

/-- What one run of the loop hands over is carved from the bytes in front of what it leaves. -/
theorem Carved.parseStream {order : ByteOrder} {limit : UInt16} {fd : Int} {bytes later : Bytes}
    {pieces : List Bytes}
    (rest : Carved ((Cevent.parseStream order limit fd bytes).rest ++ later) pieces) :
    Carved (bytes ++ later)
      (receivedData (Cevent.parseStream order limit fd bytes).calls ++ pieces) := by
  -- The cases are the branches of the parser, and only the last one hands over bytes.
  fun_induction Cevent.parseStream order limit fd bytes with
  | case1 first second third tail size zero ih => exact .skip first second (ih rest)
  | case2 first second third tail size zero illegal => exact .skip first second rest
  | case3 first second third tail size zero illegal long => exact .skip first second rest
  | case4 first second third tail size zero illegal short =>
    exact .take first second (third :: tail) (nonzero_of_packetLenAt zero) rest
  | case5 short => exact rest

/-- The first piece lies behind an even number of dropped bytes and a size. -/
theorem Carved.first_piece {stream piece : Bytes} {pieces : List Bytes}
    (carved : Carved stream (piece :: pieces)) :
    ∃ (k : Nat) (first second : UInt8) (later : Bytes), ¬ (first = 0 ∧ second = 0) ∧
      stream.drop (2 * k) = first :: second :: (piece ++ later) ∧ Carved later pieces := by
  -- The induction is on how the pieces were carved, so the list of them is made a variable.
  generalize whole : piece :: pieces = all at carved
  induction carved with
  | done stream => cases whole
  | skip first second _ ih =>
    obtain ⟨k, first', second', later, nonzero, place, rest⟩ := ih whole
    refine ⟨k + 1, first', second', later, nonzero, ?_, rest⟩
    -- The two bytes dropped here come before those dropped later.
    rw [Nat.mul_add, Nat.add_comm, ← List.drop_drop]
    exact place
  | take first second piece' nonzero rest _ =>
    cases whole
    exact ⟨0, first, second, _, nonzero, rfl, rest⟩

/--
A body followed by zeros that is met again at most that many places later is preceded by zeros there.

Each byte of it equals the one so many places later, up to the zeros.
-/
theorem zeros_before_shifted_body {body tail later : Bytes} {zeros d : Nat} {first second : UInt8}
    (near : d + 2 ≤ zeros)
    (again : (body ++ List.replicate zeros 0 ++ tail).drop d = first :: second :: (body ++ later)) :
    first = 0 ∧ second = 0 := by
  -- The two streams agree place by place.
  have read : ∀ i, (body ++ List.replicate zeros 0 ++ tail)[d + i]? =
      (first :: second :: (body ++ later))[i]? := by
    intro i
    rw [← again, List.getElem?_drop]
  -- So every byte up to the end of the zeros is zero, each because of one further on.
  have zero : ∀ n i, body.length + zeros - i = n → i < body.length + zeros →
      (body ++ List.replicate zeros 0 ++ tail)[i]? = some 0 := by
    intro n
    -- The induction runs from the zeros back to the first byte of the body.
    induction n using Nat.strongRecOn with
    | ind n ih =>
      intro i distance inside
      rcases Nat.lt_or_ge i body.length with early | late
      · have shifted := ih (body.length + zeros - (d + (i + 2))) (by omega) (d + (i + 2)) rfl
          (by omega)
        rw [read, List.getElem?_cons_succ, List.getElem?_cons_succ,
          List.getElem?_append_left early] at shifted
        rw [List.append_assoc, List.getElem?_append_left early, shifted]
      · rw [List.getElem?_append_left (by simp; omega), List.getElem?_append_right late,
          List.getElem?_replicate_of_lt (by omega)]
  -- In particular the two bytes in front of the second occurrence are.
  have one := zero _ d rfl (by omega)
  have two := zero _ (d + 1) rfl (by omega)
  have readFirst := read 0
  have readSecond := read 1
  simp only [Nat.add_zero, one, two, List.getElem?_cons_zero, List.getElem?_cons_succ,
    Option.some.injEq] at readFirst readSecond
  exact ⟨readFirst.symm, readSecond.symm⟩

/-- The bodies of some packets that are not heartbeats. -/
def payloads (bodies : List Bytes) : List Bytes := bodies.filter (· ≠ [])

@[simp] theorem payloads_heartbeat (bodies : List Bytes) :
    payloads ([] :: bodies) = payloads bodies := rfl

theorem payloads_cons {body : Bytes} (bodies : List Bytes) (nonempty : body ≠ []) :
    payloads (body :: bodies) = body :: payloads bodies := by
  simp [payloads, nonempty]

/-- A size field is two bytes. -/
theorem packetLenBytes_eq (order : ByteOrder) (size : UInt16) :
    ∃ first second, packetLenBytes order size = [first, second] := by
  cases order <;> exact ⟨_, _, rfl⟩

/--
Once the size field in front of a body is lost, its packets are never handed over again.

However many bytes are dropped first, the pieces are never that body and the bodies after it.
-/
theorem not_carved_payloads (order : ByteOrder) (bodies : List Bytes) (body : Bytes)
    (heartbeats k : Nat) :
    ¬ Carved ((body ++ List.replicate (2 * heartbeats) 0 ++ encodeFrames order bodies).drop (2 * k))
      (body :: payloads bodies) := by
  -- The heartbeats met so far are collected, and each longer packet takes over as the lost body.
  induction bodies generalizing body heartbeats k with
  | nil =>
    intro carved
    obtain ⟨j, first, second, later, nonzero, place, -⟩ := carved.first_piece
    rw [List.drop_drop] at place
    -- Nothing but heartbeats follows, and the piece must end before them.
    have fits := congrArg List.length place
    simp only [encodeFrames_nil, List.append_nil, List.length_drop, List.length_append,
      List.length_replicate, List.length_cons] at fits
    exact nonzero (zeros_before_shifted_body (by omega) place)
  | cons next bodies ih =>
    intro carved
    by_cases heartbeat : next = []
    · -- One more heartbeat joins the zeros.
      apply ih body (heartbeats + 1) k
      rw [heartbeat] at carved
      simpa [Nat.mul_add, List.replicate_add] using carved
    · rw [payloads_cons bodies heartbeat] at carved
      obtain ⟨j, first, second, later, nonzero, place, rest⟩ := carved.first_piece
      rw [List.drop_drop] at place
      by_cases near : 2 * k + 2 * j + 2 ≤ 2 * heartbeats
      · -- The piece would begin among the heartbeats.
        exact nonzero (zeros_before_shifted_body near place)
      · -- The piece reaches beyond the heartbeats, so the size field of the next packet is lost too.
        obtain ⟨low, high, field⟩ := packetLenBytes_eq order (UInt16.ofNat next.length)
        have left : later = (next ++ encodeFrames order bodies).drop
            (2 * (k + j - heartbeats)) := by
          have after : later = (first :: second :: (body ++ later)).drop (body.length + 2) := by
            rw [List.drop_succ_cons, List.drop_succ_cons, List.drop_left]
          have beyond : 2 * k + 2 * j + (body.length + 2) =
              (body ++ List.replicate (2 * heartbeats) (0 : UInt8)).length +
                (2 * (k + j - heartbeats) + 2) := by
            rw [List.length_append, List.length_replicate]
            omega
          rw [after, ← place, List.drop_drop, beyond, ← List.drop_drop, List.drop_left,
            encodeFrames_cons, encodeFrame, field]
          rfl
        apply ih next 0 (k + j - heartbeats)
        rw [left] at rest
        simpa using rest

end Cevent
