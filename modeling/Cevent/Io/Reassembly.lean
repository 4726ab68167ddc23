import Cevent.Io.Resync

/-! Which ways of cutting a stream of packets the enqueue loop puts together again. -/

namespace Cevent

/-- A stretch of a stream, and whether the loop runs once it is written. -/
structure Cut where
  chunk : Bytes
  runs : Bool
  deriving DecidableEq, Repr

/-- The chunk as it is passed to `ce_rb_write`. -/
def Cut.source (cut : Cut) : RbSource where
  bytes := cut.chunk
  count := cut.chunk.length
  backed := length_backs cut.chunk

/-- One chunk written to the enqueue buffer, and the loop after it where it runs. -/
def receiveCut (order : ByteOrder) (perMaxPacketBodySize : UInt16) (ioFd : CeIoFd) (cut : Cut) :
    CeIoFd × List IoCall :=
  -- What does not fit is lost here, which the condition on the chunks excludes.
  let written := { ioFd with enqueueBuffer := (ioFd.enqueueBuffer.write cut.source).1 }
  if cut.runs then
    let done := enqueueLoop order perMaxPacketBodySize written
    (done.state, done.events)
  else (written, [])

/-- Chunks written one after the other, with the calls the loop makes between them. -/
def receive (order : ByteOrder) (perMaxPacketBodySize : UInt16) :
    CeIoFd → List Cut → CeIoFd × List IoCall
  | ioFd, [] => (ioFd, [])
  | ioFd, cut :: cuts =>
    let (next, calls) := receiveCut order perMaxPacketBodySize ioFd cut
    let (last, later) := receive order perMaxPacketBodySize next cuts
    (last, calls ++ later)

/-- Each chunk fits the free space of the enqueue buffer when it is written. -/
def Fits (order : ByteOrder) (perMaxPacketBodySize : UInt16) : CeIoFd → List Cut → Prop
  | _, [] => True
  | ioFd, cut :: cuts =>
    cut.chunk.length ≤ ioFd.enqueueBuffer.room ∧
      Fits order perMaxPacketBodySize (receiveCut order perMaxPacketBodySize ioFd cut).1 cuts

instance decidableFits (order : ByteOrder) (perMaxPacketBodySize : UInt16) :
    (ioFd : CeIoFd) → (cuts : List Cut) → Decidable (Fits order perMaxPacketBodySize ioFd cuts)
  | _, [] => inferInstanceAs (Decidable True)
  | ioFd, cut :: cuts =>
    have := decidableFits order perMaxPacketBodySize
      (receiveCut order perMaxPacketBodySize ioFd cut).1 cuts
    inferInstanceAs (Decidable (_ ∧ _))

/-- The bytes that some chunks bring. -/
def streamOf (cuts : List Cut) : Bytes := cuts.flatMap (·.chunk)

/-- The loop runs after the last chunk, when there is one. -/
-- Without chunks there is nothing to run for.
def RunsLast (cuts : List Cut) : Prop := ∀ cut ∈ cuts.getLast?, cut.runs = true

/-- How many bytes of the stream are written at each run of the loop. -/
def runOffsets (written : Nat) : List Cut → List Nat
  | [] => []
  | cut :: cuts =>
    let offset := written + cut.chunk.length
    if cut.runs then offset :: runOffsets offset cuts else runOffsets offset cuts

/--
Of the packets from an offset of the stream on, none with a body is met half or with more behind it.

The loop runs when the last byte of its body is the last one written, and never inside its body.
-/
def RunsAtEnds (offsets : List Nat) : Nat → List Bytes → Prop
  | _, [] => True
  | start, body :: bodies =>
    let bodyStart := start + packetLenSize
    let bodyEnd := bodyStart + body.length
    -- Heartbeats are skipped wherever the loop meets them.
    (body ≠ [] → bodyEnd ∈ offsets ∧ ∀ offset ∈ offsets, ¬ (bodyStart < offset ∧ offset < bodyEnd)) ∧
      RunsAtEnds offsets bodyEnd bodies

/-- The `(data, size)` that the `on_received` calls among some calls are given. -/
def received : List IoCall → List (Bytes × UInt16) :=
  List.filterMap fun
    | .onReceived _ data size => some (data, size)
    | _ => none

/-- Some data, with their length in a `packet_len_t`. -/
def withLength (data : Bytes) : Bytes × UInt16 := (data, UInt16.ofNat data.length)

/-- The `(data, size)` that each packet with a body is to be delivered as. -/
def deliveries (bodies : List Bytes) : List (Bytes × UInt16) := (payloads bodies).map withLength

/-- The calls the loop makes on a stream that arrives in chunks behind some bytes that wait. -/
def feed (order : ByteOrder) (limit : UInt16) (fd : Int) : Bytes → List Cut → List IoCall
  | _, [] => []
  | bytes, cut :: cuts =>
    -- The bytes left by one run wait in front of the next chunk.
    if cut.runs then
      let parsed := parseStream order limit fd (bytes ++ cut.chunk)
      parsed.calls ++ feed order limit fd parsed.rest cuts
    else feed order limit fd (bytes ++ cut.chunk) cuts

/-- The ring is out of sight while every chunk fits it. -/
theorem receive_calls {order : ByteOrder} {limit : UInt16} {ioFd : CeIoFd} {cuts : List Cut}
    (fits : Fits order limit ioFd cuts) :
    (receive order limit ioFd cuts).2 =
      feed order limit ioFd.fd ioFd.enqueueBuffer.content cuts := by
  induction cuts generalizing ioFd with
  | nil => rfl
  | cons cut cuts ih =>
    obtain ⟨fit, later⟩ := fits
    -- The chunk fits, so the ring holds it whole behind what waited.
    have content : (ioFd.enqueueBuffer.write cut.source).1.content =
        ioFd.enqueueBuffer.content ++ cut.chunk := by
      rw [Ring.content_write]
      simp [Cut.source, Nat.min_eq_left fit]
    simp only [receive, feed, ih later]
    by_cases runs : cut.runs
    · have parsed := enqueueLoop_parse order limit
        { ioFd with enqueueBuffer := (ioFd.enqueueBuffer.write cut.source).1 }
      simp only [content] at parsed
      obtain ⟨calls, rest, -, fd, -, -⟩ := parsed
      simp only [receiveCut, runs, if_true, calls, rest, fd]
    · simp only [receiveCut, runs, if_false, content, List.nil_append, Bool.false_eq_true]

@[simp] theorem receivedData_append (calls later : List IoCall) :
    receivedData (calls ++ later) = receivedData calls ++ receivedData later :=
  List.filterMap_append ..

@[simp] theorem received_append (calls later : List IoCall) :
    received (calls ++ later) = received calls ++ received later :=
  List.filterMap_append ..

/-- Whatever one run of the loop hands over comes with its length. -/
theorem received_parseStream (order : ByteOrder) (limit : UInt16) (fd : Int) (bytes : Bytes) :
    received (parseStream order limit fd bytes).calls =
      (receivedData (parseStream order limit fd bytes).calls).map withLength := by
  fun_induction parseStream order limit fd bytes with
  -- A heartbeat hands over nothing.
  | case1 first second third tail size zero ih => exact ih
  | case2 | case3 | case4 | case5 => rfl

/-- Whatever the loop hands over comes with its length. -/
theorem received_feed (order : ByteOrder) (limit : UInt16) (fd : Int) (bytes : Bytes)
    (cuts : List Cut) :
    received (feed order limit fd bytes cuts) =
      (receivedData (feed order limit fd bytes cuts)).map withLength := by
  -- Each run of the loop adds data with their lengths, and so do the runs after it.
  induction cuts generalizing bytes with
  | nil => rfl
  | cons cut cuts ih =>
    rw [feed]
    split
    · rw [received_append, receivedData_append, List.map_append, received_parseStream, ih]
    · exact ih _

/-- The deliveries are right once their data are. -/
theorem received_feed_iff (order : ByteOrder) (limit : UInt16) (fd : Int) (bytes : Bytes)
    (cuts : List Cut) (bodies : List Bytes) :
    received (feed order limit fd bytes cuts) = deliveries bodies ↔
      receivedData (feed order limit fd bytes cuts) = payloads bodies := by
  -- Data with their lengths are equal just when the data are.
  have injective : Function.Injective withLength := fun _ _ same => congrArg Prod.fst same
  rw [received_feed, deliveries, injective.list_map.eq_iff]

/-- What the loop hands over is carved from the stream. -/
theorem Carved.feed (order : ByteOrder) (limit : UInt16) (fd : Int) (bytes : Bytes)
    (cuts : List Cut) :
    Carved (bytes ++ streamOf cuts) (receivedData (Cevent.feed order limit fd bytes cuts)) := by
  induction cuts generalizing bytes with
  | nil => exact .done _
  | cons cut cuts ih =>
    rw [streamOf, List.flatMap_cons, ← List.append_assoc, Cevent.feed]
    split
    · -- A run carves its part from the front and leaves the rest to the later ones.
      rw [receivedData_append]
      exact (ih _).parseStream
    · exact ih _

/-- The loop never runs before the bytes that are written already. -/
theorem le_of_mem_runOffsets {written offset : Nat} {cuts : List Cut}
    (runs : offset ∈ runOffsets written cuts) : written ≤ offset := by
  -- The offsets grow with every chunk.
  induction cuts generalizing written with
  | nil => cases runs
  | cons cut cuts ih =>
    rw [runOffsets] at runs
    split at runs
    · cases List.mem_cons.mp runs with
      | inl first => omega
      | inr later => exact Nat.le_trans (Nat.le_add_right ..) (ih later)
    · exact Nat.le_trans (Nat.le_add_right ..) (ih runs)

/-- A run of the loop that finds at most a size field does not matter to the packets from there on. -/
theorem runsAtEnds_cons {offset start : Nat} {offsets : List Nat} (bodies : List Bytes)
    (early : offset ≤ start + packetLenSize) :
    RunsAtEnds (offset :: offsets) start bodies ↔ RunsAtEnds offsets start bodies := by
  induction bodies generalizing start with
  | nil => rfl
  | cons body bodies ih =>
    rw [RunsAtEnds, RunsAtEnds, ih (by omega)]
    apply and_congr_left'
    apply imp_congr_right
    intro nonempty
    have positive := List.length_pos_iff.mpr nonempty
    -- No body ends that early, as each has at least one byte behind its size field.
    have ends : start + packetLenSize + body.length ≠ offset := by omega
    have inside : ¬ (start + packetLenSize < offset ∧
        offset < start + packetLenSize + body.length) := by omega
    rw [List.mem_cons, or_iff_right ends, List.forall_mem_cons, and_iff_right inside]

/-- The size field of a packet is read as the length of its body. -/
theorem packetLenAt_of_frame {order : ByteOrder} {first second : UInt8} {body tail rest : Bytes}
    (frame : first :: second :: tail = encodeFrame order body ++ rest) :
    packetLenAt order first second = UInt16.ofNat body.length ∧ tail = body ++ rest := by
  -- The stream starts with the size field of the packet.
  have size : packetLenOf order (first :: second :: tail) = UInt16.ofNat body.length := by
    rw [frame, encodeFrame, List.append_assoc, packetLenOf_packetLenBytes]
  obtain ⟨low, high, field⟩ := packetLenBytes_eq order (UInt16.ofNat body.length)
  rw [encodeFrame, field] at frame
  exact ⟨size, (List.cons.inj (List.cons.inj frame).2).2⟩

/-- What the loop delivers from some point on, and when, for the packets that are not over there. -/
def DeliversFrom (order : ByteOrder) (limit : UInt16) (fd : Int) (cuts : List Cut) : Prop :=
  ∀ (bytes : Bytes) (start : Nat) (bodies : List Bytes),
    bytes ++ streamOf cuts = encodeFrames order bodies →
    (∀ body ∈ bodies, body.length ≤ limit.toNat) →
    (cuts = [] → bytes.length ≤ packetLenSize) →
    (receivedData (feed order limit fd bytes cuts) = payloads bodies ↔
      RunsAtEnds (runOffsets (start + bytes.length) cuts) start bodies)

/-- A run of the loop that finds at most a size field makes no difference. -/
theorem deliversFrom_short {order : ByteOrder} {limit : UInt16} {fd : Int} {cuts : List Cut}
    (later : DeliversFrom order limit fd cuts) {bodies : List Bytes} {bytes : Bytes} {start : Nat}
    (whole : bytes ++ streamOf cuts = encodeFrames order bodies)
    (sized : ∀ body ∈ bodies, body.length ≤ limit.toNat) (short : bytes.length ≤ packetLenSize) :
    receivedData (parseStream order limit fd bytes).calls ++
        receivedData (feed order limit fd (parseStream order limit fd bytes).rest cuts) =
        payloads bodies ↔
      RunsAtEnds ((start + bytes.length) :: runOffsets (start + bytes.length) cuts) start bodies := by
  -- The run leaves the bytes alone, and no body ends at its offset.
  rw [parseStream_short short, runsAtEnds_cons bodies (by omega)]
  exact later bytes start bodies whole sized (fun _ => short)

/--
A run of the loop that has read the size field of a packet with a body delivers it if it ends there.

With fewer bytes a piece of the body is delivered, and with more the size field is lost for good.
-/
theorem deliversFrom_packet {order : ByteOrder} {limit : UInt16} {fd : Int} {cuts : List Cut}
    (later : DeliversFrom order limit fd cuts) {body tail : Bytes} {bodies : List Bytes}
    {start offset : Nat} (nonempty : body ≠ []) (more : tail ≠ [])
    (whole : tail ++ streamOf cuts = body ++ encodeFrames order bodies)
    (sized : ∀ other ∈ bodies, other.length ≤ limit.toNat)
    (place : offset = start + packetLenSize + tail.length) :
    (if body.length < tail.length then receivedData (feed order limit fd tail cuts)
      else tail :: receivedData (feed order limit fd [] cuts)) = payloads (body :: bodies) ↔
      RunsAtEnds (offset :: runOffsets offset cuts) start (body :: bodies) := by
  have positive := List.length_pos_iff.mpr more
  rw [payloads_cons bodies nonempty, RunsAtEnds]
  rcases Nat.lt_trichotomy tail.length body.length with piece | exact_ | beyond
  · rw [if_neg (by omega)]
    -- The first delivery is too short, and the loop runs inside the body.
    apply iff_of_false
    · intro same
      have wrong := congrArg List.length (List.cons.inj same).1
      omega
    · intro ends
      exact (ends.1 nonempty).2 offset List.mem_cons_self ⟨by omega, by omega⟩
  · -- The body is delivered whole, and the stream goes on in step with its packets.
    obtain ⟨rfl, rest⟩ := List.append_inj whole exact_
    rw [if_neg (by omega), List.cons.injEq, and_iff_right rfl,
      later [] offset bodies rest sized (by simp)]
    have ends : start + packetLenSize + tail.length = offset := place.symm
    -- The loop runs at the end of the body, and later runs come behind it.
    have inside : tail ≠ [] → offset ∈ offset :: runOffsets offset cuts ∧
        ∀ other ∈ offset :: runOffsets offset cuts,
          ¬ (start + packetLenSize < other ∧ other < offset) := by
      intro _
      refine ⟨List.mem_cons_self, ?_⟩
      intro other runs
      rcases List.mem_cons.mp runs with first | after
      · omega
      · have reached := le_of_mem_runOffsets after
        omega
    rw [ends, and_iff_right inside, runsAtEnds_cons bodies (by omega)]
    rfl
  · rw [if_pos beyond]
    -- The rest of the stream starts with the body, and its size field is gone.
    apply iff_of_false
    · intro same
      -- Then the packets would have to be carved from what follows their own size field.
      have carved := Carved.feed order limit fd tail cuts
      rw [whole, same] at carved
      exact not_carved_payloads order bodies body 0 0 (by simpa using carved)
    · intro ends
      rcases List.mem_cons.mp (ends.1 nonempty).1 with first | after
      · omega
      · have reached := le_of_mem_runOffsets after
        omega

/-- One run of the loop, and whatever comes after it, on a stream that is in step with its packets. -/
theorem deliversFrom_run {order : ByteOrder} {limit : UInt16} {fd : Int} {cuts : List Cut}
    (later : DeliversFrom order limit fd cuts) (bodies : List Bytes) (bytes : Bytes) (start : Nat)
    (whole : bytes ++ streamOf cuts = encodeFrames order bodies)
    (sized : ∀ body ∈ bodies, body.length ≤ limit.toNat) :
    receivedData (parseStream order limit fd bytes).calls ++
        receivedData (feed order limit fd (parseStream order limit fd bytes).rest cuts) =
        payloads bodies ↔
      RunsAtEnds ((start + bytes.length) :: runOffsets (start + bytes.length) cuts) start bodies := by
  -- The loop takes the packets in turn: it skips heartbeats and stops at the first other one.
  induction bodies generalizing bytes start with
  | nil =>
    have none_ : bytes = [] := (List.append_eq_nil_iff.mp whole).1
    exact deliversFrom_short later whole sized (by simp [none_])
  | cons body bodies ih =>
    match bytes with
    | [] | [_] | [_, _] => exact deliversFrom_short later whole sized (by simp [packetLenSize])
    | first :: second :: third :: rest =>
      rw [encodeFrames_cons] at whole
      obtain ⟨size, tail⟩ := packetLenAt_of_frame whole
      have bound := limit.toNat_lt
      have fits : body.length ≤ limit.toNat := sized body List.mem_cons_self
      -- The body is within the limit, so its size is read as it is.
      have field : (packetLenAt order first second).toNat = body.length := by
        rw [size, UInt16.toNat_ofNat']
        omega
      have legal : ¬ packetLenAt order first second > limit := by
        rw [gt_iff_lt, UInt16.lt_iff_toNat_lt, field]
        omega
      have others := fun other inside => sized other (List.mem_cons_of_mem body inside)
      have place : start + (first :: second :: third :: rest).length =
          start + packetLenSize + (third :: rest).length := by
        simp only [List.length_cons, packetLenSize]
        omega
      by_cases heartbeat : body = []
      · -- A heartbeat is skipped, and the run goes on behind it.
        have zero : packetLenAt order first second = 0 := by
          rw [size, heartbeat]
          rfl
        subst heartbeat
        rw [parseStream, if_pos zero, payloads_heartbeat, RunsAtEnds, place,
          and_iff_right (fun absent => absurd rfl absent)]
        exact ih (third :: rest) (start + packetLenSize) tail others
      · -- The first packet with a body decides how this run ends.
        have positive := List.length_pos_iff.mpr heartbeat
        have nonzero : packetLenAt order first second ≠ 0 := by
          intro zero
          rw [zero] at field
          exact heartbeat (List.length_eq_zero_iff.mp field.symm)
        rw [← deliversFrom_packet later heartbeat (by simp) tail others place, parseStream]
        simp only [if_neg nonzero, if_neg legal, field]
        split
        · rfl
        · rfl

/-- Packets of two bytes at most are heartbeats. -/
theorem heartbeats_of_short {order : ByteOrder} {bodies : List Bytes}
    (short : (encodeFrames order bodies).length ≤ packetLenSize) : ∀ body ∈ bodies, body = [] := by
  induction bodies with
  | nil => intro body inside; cases inside
  | cons body bodies ih =>
    rw [encodeFrames_cons, List.length_append, length_encodeFrame] at short
    -- The first packet takes up both bytes.
    have empty : body = [] := List.length_eq_zero_iff.mp (by omega)
    exact List.forall_mem_cons.mpr ⟨empty, ih (by omega)⟩

/-- Heartbeats may be met anywhere. -/
theorem runsAtEnds_heartbeats (offsets : List Nat) (start : Nat) {bodies : List Bytes}
    (heartbeats : ∀ body ∈ bodies, body = []) : RunsAtEnds offsets start bodies := by
  -- The condition speaks of packets with a body only.
  induction bodies generalizing start with
  | nil => trivial
  | cons body bodies ih =>
    obtain ⟨empty, others⟩ := List.forall_mem_cons.mp heartbeats
    exact ⟨fun nonempty => absurd empty nonempty, ih _ others⟩

/-- From any point on, the loop delivers the packets to come just when it runs at their ends. -/
theorem deliversFrom (order : ByteOrder) (limit : UInt16) (fd : Int) (cuts : List Cut)
    (last : RunsLast cuts) : DeliversFrom order limit fd cuts := by
  -- Either the loop runs after the next chunk, or the chunk only joins the bytes that wait.
  induction cuts with
  | nil =>
    intro bytes start bodies whole sized short
    rw [streamOf, List.flatMap_nil, List.append_nil] at whole
    -- The stream is over, and at most two bytes of it were left.
    have heartbeats := heartbeats_of_short (whole ▸ short rfl)
    have none_ : payloads bodies = [] := by simpa [payloads] using heartbeats
    rw [none_]
    exact iff_of_true rfl (runsAtEnds_heartbeats _ _ heartbeats)
  | cons cut cuts ih =>
    intro bytes start bodies whole sized _
    rw [streamOf, List.flatMap_cons, ← List.append_assoc] at whole
    -- The last chunk of the rest is the last one of all.
    have lastLater : RunsLast cuts := by
      cases cuts with
      | nil => simp [RunsLast]
      | cons next others => simpa [RunsLast] using last
    rw [feed, runOffsets, Nat.add_assoc, ← List.length_append]
    by_cases runs : cut.runs
    · rw [if_pos runs, if_pos runs, receivedData_append]
      exact deliversFrom_run (ih lastLater) bodies (bytes ++ cut.chunk) start whole sized
    · rw [if_neg runs, if_neg runs]
      -- A chunk without a run behind it is not the last one.
      have more : cuts ≠ [] := by
        intro none_
        rw [none_] at last
        exact runs (last cut rfl)
      exact ih lastLater (bytes ++ cut.chunk) start bodies whole sized (fun none_ => absurd none_ more)

/--
The loop delivers the packets of a stream as they were sent just when it runs at the end of each.

It must run when the last byte of a body is the last one written, and never inside a body.
-/
theorem reassembles_iff_runsAtEnds (order : ByteOrder) (perMaxPacketBodySize : UInt16)
    (fd perCacheRingbufferSize : Int) (positive : 0 < perCacheRingbufferSize)
    (bodies : List Bytes) (cuts : List Cut)
    (stream : streamOf cuts = encodeFrames order bodies)
    (sized : ∀ body ∈ bodies, body.length ≤ perMaxPacketBodySize.toNat)
    (last : RunsLast cuts)
    (fits : Fits order perMaxPacketBodySize (newIoFd fd perCacheRingbufferSize positive) cuts) :
    received (receive order perMaxPacketBodySize
        (newIoFd fd perCacheRingbufferSize positive) cuts).2 = deliveries bodies ↔
      RunsAtEnds (runOffsets 0 cuts) 0 bodies := by
  -- A new connection starts in step, with nothing waiting.
  rw [receive_calls fits, received_feed_iff]
  exact deliversFrom order perMaxPacketBodySize _ cuts last _ 0 bodies (by simpa [newIoFd] using stream)
    sized (by simp [newIoFd])

/-- A heartbeat and a packet of two bytes that arrive in three chunks, with a run after the last two. -/
theorem reassembles_three_chunks :
    received (receive .little 4 (newIoFd 7 8 (by decide))
        [⟨[0], false⟩, ⟨[0, 2], true⟩, ⟨[0, 5, 6], true⟩]).2 = deliveries [[], [5, 6]] ↔
      RunsAtEnds (runOffsets 0 [⟨[0], false⟩, ⟨[0, 2], true⟩, ⟨[0, 5, 6], true⟩]) 0 [[], [5, 6]] :=
  reassembles_iff_runsAtEnds .little 4 7 8 (by decide) [[], [5, 6]] _ (by decide) (by decide)
    (by simp [RunsLast]) (by decide)

/-- A packet of two bytes is delivered as one byte when the loop runs before the other one arrives. -/
theorem not_reassembles_split_body :
    streamOf [⟨[2, 0, 5], true⟩, ⟨[6], true⟩] = encodeFrames .little [[5, 6]] ∧
    RunsLast [⟨[2, 0, 5], true⟩, ⟨[6], true⟩] ∧
    Fits .little 4 (newIoFd 7 8 (by decide)) [⟨[2, 0, 5], true⟩, ⟨[6], true⟩] ∧
    received (receive .little 4 (newIoFd 7 8 (by decide))
      [⟨[2, 0, 5], true⟩, ⟨[6], true⟩]).2 ≠ deliveries [[5, 6]] := by
  refine ⟨by decide, by simp [RunsLast], by decide, by decide⟩

end Cevent
