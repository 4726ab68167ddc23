import Cevent.Io.Push
import Cevent.Io.Streams
import Cevent.Library.Serial

/-! Threads that push to one connection, with one write to its ring at a time. -/

namespace Cevent

open Interleaving

/-- Where a thread stands in `ce_io_push`. -/
inductive PusherPc where
  /-- In no call. -/
  | outside
  /-- Between the two writes: the size field is in the ring of the record, and the data are not. -/
  | sized (record : RecordId) (arg : PacketArg)

/-- The packet whose size field a thread has written, and its data not. -/
def PusherPc.begun : PusherPc → Option PacketArg
  | .outside => none
  | .sized _ arg => some arg

/-- `ce_io_push` up to its first write, with the record it goes on with, if it does. -/
def ceIoPushSize (io : CeIo) (fd : Int) (arg : PacketArg) : CeIo × Option RecordId :=
  if arg.data = none ∨ fd ≤ 0 ∨ arg.size = 0 then (io, none)
  else if io.stop then (io, none)
  else
    match io.findIoFd fd with
    | none => (io, none)
    | some (record, ioFd) =>
      -- The size field is written in the byte order of the host.
      let (sized, writeSize) := ioFd.enqueueBuffer.write (sizeSource io.host arg.size)
      let io := io.setRecord record { ioFd with enqueueBuffer := sized }
      if writeSize ≠ packetLenSize then (io, none) else (io, some record)

/-- `ce_io_push` from its second write on. -/
def ceIoPushData (io : CeIo) (record : RecordId) (arg : PacketArg) : CeIo × Bool :=
  match given : arg.data with
  | none => (io, false)
  | some bytes =>
    match io.records record with
    | none => (io, false)
    | some ioFd =>
      let (filled, writeSize) := ioFd.enqueueBuffer.write (arg.source bytes given)
      let io := io.setRecord record { ioFd with enqueueBuffer := filled }
      -- The size field stays in the ring when the data do not fit.
      if writeSize ≠ arg.size.toNat then (io, false) else io.register .enqueueProcessor

/-- The second part writes the data of the packet to the ring of its record, and wakes a worker. -/
theorem ceIoPushData_eq {io : CeIo} {record : RecordId} {arg : PacketArg} {bytes : Bytes}
    {ioFd : CeIoFd} (given : arg.data = some bytes) (held : io.records record = some ioFd) :
    ceIoPushData io record arg =
      let (filled, writeSize) := ioFd.enqueueBuffer.write (arg.source bytes given)
      let io := io.setRecord record { ioFd with enqueueBuffer := filled }
      if writeSize ≠ arg.size.toNat then (io, false) else io.register .enqueueProcessor := by
  unfold ceIoPushData
  split
  · rename_i absent
    exact absurd (given.symm.trans absent) (by simp)
  · rename_i bytes' given'
    obtain rfl : bytes = bytes' := Option.some.inj (given.symm.trans given')
    simp only [held]

/-- The two parts of `ce_io_push` make up the whole. -/
theorem ceIoPush_eq_parts (io : CeIo) (pushType : CePushType) (fd : Int) (arg : PacketArg) :
    ceIoPush io pushType fd arg =
      match ceIoPushSize io fd arg with
      | (next, none) => (next, false)
      | (next, some record) => ceIoPushData next record arg := by
  unfold ceIoPush ceIoPushSize
  split
  · rename_i absent
    rw [if_pos (.inl absent)]
  · rename_i bytes given
    have there : arg.data ≠ none := by simp [given]
    simp only [there, false_or]
    split_ifs with illegal stopped
    · rfl
    · rfl
    · cases found : io.findIoFd fd with
      | none => rfl
      | some place =>
        obtain ⟨record, ioFd⟩ := place
        simp only
        -- A short first write ends the call in both.
        by_cases short : (ioFd.enqueueBuffer.write (sizeSource io.host arg.size)).2 ≠ packetLenSize
        · rw [if_pos short, if_pos short]
        · rw [if_neg short, if_neg short]
          -- The second part finds the record as the first one has left it.
          have held := CeIo.records_setRecord_self io record { ioFd with
            enqueueBuffer := (ioFd.enqueueBuffer.write (sizeSource io.host arg.size)).1 }
          exact (ceIoPushData_eq given held).symm

/-- An io and the threads that push to it. -/
structure PushSystem (n : Nat) where
  io : CeIo
  pcs : Fin n → PusherPc

/-- One part of a call by one thread. -/
inductive PushAction (n : Nat) where
  | begin (thread : Fin n) (arg : PacketArg)
  | finish (thread : Fin n)

/-- Any number of threads that push to one fd; the events are the writes that a call goes on from. -/
def pushersMachine (n : Nat) (fd : Int) :
    Machine (PushSystem n) (PushAction n) (Half (Fin n) PacketArg) where
  step sys
    | .begin thread arg =>
      match sys.pcs thread with
      | .sized _ _ => none
      | .outside =>
        match ceIoPushSize sys.io fd arg with
        | (io, none) => some ({ sys with io := io }, [])
        | (io, some record) =>
          some ({ io := io, pcs := Function.update sys.pcs thread (.sized record arg) },
            [.first thread arg])
    | .finish thread =>
      match sys.pcs thread with
      | .outside => none
      | .sized record arg =>
        some ({ io := (ceIoPushData sys.io record arg).1
                pcs := Function.update sys.pcs thread .outside }, [.second thread arg])

/-- What can be read from the enqueue buffer of a connection. -/
def CeIo.readable (io : CeIo) (fd : Int) : Option Bytes :=
  (io.findIoFd fd).map fun found => found.2.enqueueBuffer.content

/-- The ring has room for each write. -/
def SpaceSuffices {n : Nat} (fd : Int) (sys : PushSystem n) : PushAction n → Prop
  | .begin _ _ => ∀ found ∈ sys.io.findIoFd fd, packetLenSize ≤ found.2.enqueueBuffer.room
  | .finish thread =>
    match sys.pcs thread with
    | .outside => True
    | .sized record arg =>
      -- The second write goes to the record that the first one found.
      ∀ ioFd ∈ sys.io.records record, arg.size.toNat ≤ ioFd.enqueueBuffer.room

/-- A call that will write begins while no other thread is between its two writes. -/
def PushesAlone {n : Nat} (fd : Int) (sys : PushSystem n) : PushAction n → Prop
  | .begin _ arg => sys.io.LooksUp (.push .pushFd fd arg) → (sys.io.findIoFd fd).isSome →
      -- Its own thread is in no call either, so this may be said of all.
      ∀ other, (sys.pcs other).begun = none
  | .finish _ => True

/--
The bytes appended to the ring of the connection are the frames of the calls, one after the other.

A byte belongs to the call that wrote it: each call's size field comes right before its own data, and
the calls of a thread come in order.
-/
def FramesWhole {n : Nat} (fd : Int) (start last : PushSystem n)
    (trace : List (Half (Fin n) PacketArg)) : Prop :=
  ∃ calls : List (Fin n × PacketArg), trace = wholeOperations calls ∧
    last.io.readable fd = (start.io.readable fd).map
      (· ++ encodeFrames start.io.host (calls.map fun call => call.2.body)) ∧
    ∀ thread, (calls.filter fun call => call.1 = thread).map (·.2) = itemsOf thread trace

/-- The bytes that one of the two writes of a call puts into the ring. -/
def halfBytes {n : Nat} (host : ByteOrder) : Half (Fin n) PacketArg → Bytes
  | .first _ arg => packetLenBytes host arg.size
  | .second _ arg => arg.body

/-- A packet whose data are there has as many bytes as it says. -/
theorem PacketArg.length_body {arg : PacketArg} (given : arg.data ≠ none) :
    arg.body.length = arg.size.toNat := by
  obtain ⟨bytes, given⟩ := Option.ne_none_iff_exists'.mp given
  rw [body, given, Option.getD_some, List.length_take_of_le (arg.backed bytes given)]

/-- Such packets, written in two parts each, are their frames. -/
theorem flatMap_halfBytes {n : Nat} (host : ByteOrder) {calls : List (Fin n × PacketArg)}
    (given : ∀ call ∈ calls, call.2.data ≠ none) :
    (wholeOperations calls).flatMap (halfBytes host) =
      encodeFrames host (calls.map fun call => call.2.body) := by
  -- One call puts its two writes, and so its frame, in front of the others.
  induction calls with
  | nil => rfl
  | cons call calls ih =>
    obtain ⟨here, later⟩ := List.forall_mem_cons.mp given
    have frame : encodeFrame host call.2.body =
        packetLenBytes host call.2.size ++ call.2.body := by
      rw [encodeFrame, PacketArg.length_body here, UInt16.ofNat_toNat]
    have split : (wholeOperations (call :: calls)).flatMap (halfBytes host) =
        packetLenBytes host call.2.size ++ call.2.body ++
          (wholeOperations calls).flatMap (halfBytes host) := by
      simp [wholeOperations, halfBytes]
    rw [split, ih later, List.map_cons, encodeFrames_cons, frame]

/-- Writing to the record that an fd leads to keeps the fd leading there. -/
theorem CeIo.findIoFd_update {io next : CeIo} {fd : Int} {record : RecordId} {ioFd after : CeIoFd}
    (found : io.findIoFd fd = some (record, ioFd)) (same : next.ioDict = io.ioDict)
    (records : next.records = Function.update io.records record (some after)) :
    next.findIoFd fd = some (record, after) := by
  obtain ⟨entry, inDict, held, -⟩ := findIoFd_eq_some_iff.mp found
  refine findIoFd_eq_some_iff.mpr ⟨entry, same ▸ inDict, held, ?_⟩
  rw [records, Function.update_self]

/-- The first part of a push writes its size field when it comes to a connection with room for it. -/
theorem ceIoPushSize_cases (io : CeIo) (fd : Int) (arg : PacketArg) :
    (¬ (io.LooksUp (.push .pushFd fd arg) ∧ (io.findIoFd fd).isSome) ∧
        ceIoPushSize io fd arg = (io, none)) ∨
      (io.LooksUp (.push .pushFd fd arg) ∧ ∃ record ioFd sized,
        io.findIoFd fd = some (record, ioFd) ∧
        (packetLenSize ≤ ioFd.enqueueBuffer.room →
          ceIoPushSize io fd arg =
            (io.setRecord record { ioFd with enqueueBuffer := sized }, some record) ∧
          sized.content = ioFd.enqueueBuffer.content ++ packetLenBytes io.host arg.size)) := by
  unfold ceIoPushSize
  split_ifs with illegal stopped
  · refine .inl ⟨?_, rfl⟩
    intro both
    exact illegal.elim both.1.1 both.1.2.1
  · refine .inl ⟨?_, rfl⟩
    intro both
    rw [both.1.2.2] at stopped
    cases stopped
  · -- None of the early returns was taken.
    have looks : io.LooksUp (.push .pushFd fd arg) :=
      ⟨fun absent => illegal (.inl absent), fun bad => illegal (.inr bad),
        Bool.not_eq_true _ ▸ stopped⟩
    cases found : io.findIoFd fd with
    | none =>
      refine .inl ⟨?_, rfl⟩
      intro both
      exact absurd both.2 (by simp)
    | some place =>
      obtain ⟨record, ioFd⟩ := place
      obtain ⟨count, content⟩ := sizeField_write ioFd.enqueueBuffer io.host arg.size
      refine .inr ⟨looks, record, ioFd,
        (ioFd.enqueueBuffer.write (sizeSource io.host arg.size)).1, rfl, ?_⟩
      intro room
      -- With room for it, the whole size field is written.
      have whole : (ioFd.enqueueBuffer.write (sizeSource io.host arg.size)).2 = packetLenSize := by
        rw [count]
        omega
      constructor
      · simp only [whole, ne_eq, not_true_eq_false, if_false]
      · rw [content, List.take_of_length_le]
        rw [length_packetLenBytes]
        exact room

/-- The second part of a push writes its data when there is room for them. -/
theorem ceIoPushData_fills {io : CeIo} {record : RecordId} {arg : PacketArg} {ioFd : CeIoFd}
    (given : arg.data ≠ none) (held : io.records record = some ioFd)
    (room : arg.size.toNat ≤ ioFd.enqueueBuffer.room) :
    (ceIoPushData io record arg).1.ioDict = io.ioDict ∧
      (ceIoPushData io record arg).1.host = io.host ∧
      ∃ filled : Ring, (ceIoPushData io record arg).1.records =
          Function.update io.records record (some { ioFd with enqueueBuffer := filled }) ∧
        filled.content = ioFd.enqueueBuffer.content ++ arg.body := by
  obtain ⟨bytes, given⟩ := Option.ne_none_iff_exists'.mp given
  have content : (ioFd.enqueueBuffer.write (arg.source bytes given)).1.content =
      ioFd.enqueueBuffer.content ++ arg.body := by
    rw [Ring.content_write, PacketArg.body, given, Option.getD_some]
    simp only [PacketArg.source, Int.toNat_natCast, Nat.min_eq_left room]
  rw [ceIoPushData_eq given held]
  simp only
  -- Whether a worker can be woken or not, the data are in the ring.
  split_ifs
  · exact ⟨rfl, rfl, _, rfl, content⟩
  · exact ⟨rfl, rfl, _, rfl, content⟩

/-- What links the threads, the ring of the connection, and the writes that were made. -/
structure PushersInv {n : Nat} (fd : Int) (start sys : PushSystem n)
    (trace : List (Half (Fin n) PacketArg)) : Prop where
  host : sys.io.host = start.io.host
  readable : sys.io.readable fd =
    (start.io.readable fd).map (· ++ trace.flatMap (halfBytes start.io.host))
  begun : ∀ thread, unfinishedBy thread trace = (sys.pcs thread).begun
  /-- A thread between its writes holds the record that the fd leads to. -/
  holds : ∀ thread record arg, sys.pcs thread = .sized record arg →
    arg.data ≠ none ∧ ∃ ioFd, sys.io.findIoFd fd = some (record, ioFd)
  given : ∀ thread arg, Half.first thread arg ∈ trace → arg.data ≠ none

/-- The two shapes of a step: a call begins, or does nothing, or a call is finished. -/
theorem pushersMachine_step {n : Nat} {fd : Int} {sys next : PushSystem n}
    {action : PushAction n} {events : List (Half (Fin n) PacketArg)}
    (within : SpaceSuffices fd sys action)
    (taken : (pushersMachine n fd).step sys action = some (next, events)) :
    (∃ thread arg, action = .begin thread arg ∧ sys.pcs thread = .outside ∧
      ¬ (sys.io.LooksUp (.push .pushFd fd arg) ∧ (sys.io.findIoFd fd).isSome) ∧
      next = sys ∧ events = []) ∨
    (∃ thread arg record ioFd sized, action = .begin thread arg ∧ sys.pcs thread = .outside ∧
      sys.io.LooksUp (.push .pushFd fd arg) ∧ sys.io.findIoFd fd = some (record, ioFd) ∧
      sized.content = ioFd.enqueueBuffer.content ++ packetLenBytes sys.io.host arg.size ∧
      next = { io := sys.io.setRecord record { ioFd with enqueueBuffer := sized }
               pcs := Function.update sys.pcs thread (.sized record arg) } ∧
      events = [.first thread arg]) ∨
    ∃ thread record arg, action = .finish thread ∧ sys.pcs thread = .sized record arg ∧
      next = { io := (ceIoPushData sys.io record arg).1
               pcs := Function.update sys.pcs thread .outside } ∧
      events = [.second thread arg] := by
  cases action with
  | begin thread arg =>
    cases at_ : sys.pcs thread with
    -- A thread begins no call within a call.
    | sized record arg' =>
      simp only [pushersMachine, at_] at taken
      cases taken
    | outside =>
      simp only [pushersMachine, at_] at taken
      rcases ceIoPushSize_cases sys.io fd arg with ⟨refused, same⟩ |
        ⟨looks, record, ioFd, sized, found, made⟩
      · rw [same] at taken
        obtain ⟨rfl, rfl⟩ := Prod.mk.inj (Option.some.inj taken)
        exact .inl ⟨thread, arg, rfl, at_, refused, rfl, rfl⟩
      · obtain ⟨made, content⟩ := made (within (record, ioFd) found)
        rw [made] at taken
        obtain ⟨rfl, rfl⟩ := Prod.mk.inj (Option.some.inj taken)
        exact .inr (.inl ⟨thread, arg, record, ioFd, sized, rfl, at_, looks, found, content, rfl, rfl⟩)
  | finish thread =>
    cases at_ : sys.pcs thread with
    | outside =>
      simp only [pushersMachine, at_] at taken
      cases taken
    | sized record arg =>
      simp only [pushersMachine, at_] at taken
      obtain ⟨rfl, rfl⟩ := Prod.mk.inj (Option.some.inj taken)
      exact .inr (.inr ⟨thread, record, arg, rfl, at_, rfl, rfl⟩)

/-- One more write to the ring keeps them linked. -/
theorem PushersInv.snoc {n : Nat} {fd : Int} {start sys next : PushSystem n}
    {trace : List (Half (Fin n) PacketArg)} {half : Half (Fin n) PacketArg} {record : RecordId}
    {ioFd : CeIoFd} {filled : Ring} {thread : Fin n} {place : PusherPc}
    (inv : PushersInv fd start sys trace) (found : sys.io.findIoFd fd = some (record, ioFd))
    (host : next.io.host = sys.io.host) (ioDict : next.io.ioDict = sys.io.ioDict)
    (records : next.io.records =
      Function.update sys.io.records record (some { ioFd with enqueueBuffer := filled }))
    (content : filled.content = ioFd.enqueueBuffer.content ++ halfBytes sys.io.host half)
    (pcs : next.pcs = Function.update sys.pcs thread place)
    (begun : ∀ other before, half.under other before = if thread = other then place.begun else before)
    (holds : ∀ other arg, place = .sized other arg → arg.data ≠ none ∧ other = record)
    (given : ∀ other arg, half = .first other arg → arg.data ≠ none) :
    PushersInv fd start next (trace ++ [half]) where
  host := host.trans inv.host
  readable := by
    have now := CeIo.findIoFd_update found ioDict records
    have before := inv.readable
    rw [CeIo.readable, found, Option.map_some] at before
    rw [CeIo.readable, now, Option.map_some, content, inv.host]
    -- The bytes of the write join those that the writes before have made.
    cases began : start.io.readable fd with
    | none => simp [began] at before
    | some bytes =>
      simp only [began, Option.map_some, Option.some.injEq] at before
      simp [before]
  begun other := by
    rw [unfinishedBy_snoc, inv.begun, begun, pcs]
    by_cases own : thread = other
    · subst own
      simp
    · simp [own, Ne.symm own]
  holds other record' arg at_ := by
    have now := CeIo.findIoFd_update found ioDict records
    rw [pcs] at at_
    by_cases own : other = thread
    · subst own
      rw [Function.update_self] at at_
      obtain ⟨given, rfl⟩ := holds record' arg at_
      exact ⟨given, _, now⟩
    · -- Another thread between its writes holds the same record, which the fd still leads to.
      rw [Function.update_of_ne own] at at_
      obtain ⟨given, ioFd', found'⟩ := inv.holds other record' arg at_
      obtain ⟨rfl, -⟩ := Prod.mk.inj (Option.some.inj (found.symm.trans found'))
      exact ⟨given, _, now⟩
  given other arg made := by
    rcases List.mem_append.mp made with early | last
    · exact inv.given other arg early
    · exact given other arg (List.mem_singleton.mp last).symm

/-- Every step keeps them linked. -/
theorem PushersInv.step {n : Nat} {fd : Int} {start sys next : PushSystem n}
    {trace events : List (Half (Fin n) PacketArg)} {action : PushAction n}
    (inv : PushersInv fd start sys trace) (within : SpaceSuffices fd sys action)
    (taken : (pushersMachine n fd).step sys action = some (next, events)) :
    PushersInv fd start next (trace ++ events) := by
  rcases pushersMachine_step within taken with
    ⟨thread, arg, rfl, at_, refused, rfl, rfl⟩ |
    ⟨thread, arg, record, ioFd, sized, rfl, at_, looks, found, content, rfl, rfl⟩ |
    ⟨thread, record, arg, rfl, at_, rfl, rfl⟩
  · rw [List.append_nil]
    exact inv
  · refine inv.snoc found rfl rfl rfl content rfl (fun _ _ => rfl) ?_ ?_
    · intro other arg' is
      cases is
      exact ⟨looks.1, rfl⟩
    · intro other arg' is
      cases is
      exact looks.1
  · obtain ⟨given, ioFd, found⟩ := inv.holds thread record arg at_
    have held := (CeIo.findIoFd_eq_some_iff.mp found).choose_spec.2.2
    -- That the data fit is known of the record that the thread holds.
    have room : arg.size.toNat ≤ ioFd.enqueueBuffer.room := by
      simp only [SpaceSuffices, at_] at within
      exact within ioFd held
    obtain ⟨ioDict, host, filled, records, content⟩ := ceIoPushData_fills given held room
    refine inv.snoc found host ioDict records content rfl (fun _ _ => rfl) ?_ ?_
    · intro other arg' is
      cases is
    · intro other arg' is
      cases is

/-- A step keeps the writes serial just when no other call is between its writes. -/
theorem serial_step_iff {n : Nat} {fd : Int} {start sys next : PushSystem n}
    {trace events : List (Half (Fin n) PacketArg)} {action : PushAction n}
    (inv : PushersInv fd start sys trace) (within : SpaceSuffices fd sys action)
    (taken : (pushersMachine n fd).step sys action = some (next, events)) :
    (∃ unfinished, Serial (trace ++ events) unfinished) ↔
      (∃ unfinished, Serial trace unfinished) ∧ PushesAlone fd sys action := by
  rcases pushersMachine_step within taken with
    ⟨thread, arg, rfl, at_, refused, rfl, rfl⟩ |
    ⟨thread, arg, record, ioFd, sized, rfl, at_, looks, found, content, rfl, rfl⟩ |
    ⟨thread, record, arg, rfl, at_, rfl, rfl⟩
  · have alone : PushesAlone fd next (.begin thread arg) :=
      fun looks isSome => absurd ⟨looks, isSome⟩ refused
    rw [List.append_nil]
    exact ⟨fun serial => ⟨serial, alone⟩, And.left⟩
  · rw [serial_snoc_first]
    constructor
    · intro serial
      refine ⟨⟨_, serial⟩, ?_⟩
      intro _ _ other
      rw [← inv.begun]
      exact serial.finished_iff.mp rfl other
    · intro both
      obtain ⟨⟨unfinished, serial⟩, alone⟩ := both
      -- The call that begins is alone, so no other first write is open.
      have idle : ∀ other, unfinishedBy other trace = none := by
        intro other
        rw [inv.begun]
        exact alone looks (by simp [found]) other
      obtain rfl := serial.finished_iff.mpr idle
      exact serial
  · -- A second write is always in its turn when the first one was.
    have begun : unfinishedBy thread trace = some arg := by rw [inv.begun, at_]; rfl
    rw [serial_snoc_second]
    constructor
    · intro serial
      exact ⟨⟨_, serial⟩, trivial⟩
    · intro both
      obtain ⟨⟨unfinished, serial⟩, -⟩ := both
      obtain rfl := serial.eq_of_unfinishedBy begun
      exact serial

/-- With all calls finished, the frames are whole just when the writes are serial. -/
theorem PushersInv.framesWhole_iff_serial {n : Nat} {fd : Int} {start last : PushSystem n}
    {trace : List (Half (Fin n) PacketArg)} (inv : PushersInv fd start last trace)
    (ended : ∀ thread, last.pcs thread = .outside) :
    FramesWhole fd start last trace ↔ ∃ unfinished, Serial trace unfinished := by
  constructor
  · intro whole
    obtain ⟨calls, rfl, -⟩ := whole
    exact ⟨_, serial_wholeOperations calls⟩
  · intro serial
    obtain ⟨unfinished, serial⟩ := serial
    -- The calls are finished, so no first write is left open.
    have idle : ∀ thread, unfinishedBy thread trace = none := by
      intro thread
      rw [inv.begun, ended]
      rfl
    obtain rfl := serial.finished_iff.mpr idle
    obtain ⟨calls, is⟩ := serial.eq_wholeOperations
    rw [Option.toList_none, List.map_nil, List.append_nil] at is
    subst is
    refine ⟨calls, rfl, ?_, fun thread => (itemsOf_wholeOperations thread calls).symm⟩
    rw [inv.readable, flatMap_halfBytes]
    intro call made
    refine inv.given call.1 call.2 (List.mem_flatMap.mpr ⟨call, made, ?_⟩)
    exact List.mem_cons_self

/--
Over every run of pushes to an fd in which space suffices, once all calls are finished, the frames are
whole just when no call began to write while another one was between its writes.
-/
theorem framesWhole_iff (n : Nat) (fd : Int) {start last : PushSystem n}
    {actions : List (PushAction n)} {trace : List (Half (Fin n) PacketArg)}
    (fresh : ∀ thread, start.pcs thread = .outside)
    (ran : (pushersMachine n fd).exec start actions = some (last, trace))
    (fits : (pushersMachine n fd).Meets (SpaceSuffices fd) start actions)
    (ended : ∀ thread, last.pcs thread = .outside) :
    FramesWhole fd start last trace ↔
      (pushersMachine n fd).Meets (PushesAlone fd) start actions := by
  have began : PushersInv fd start start [] :=
    { host := rfl
      readable := by simp
      begun := fun thread => by rw [fresh]; rfl
      holds := fun thread record arg at_ => by rw [fresh] at at_; cases at_
      given := fun thread arg made => by cases made }
  have keep : ∀ sys before action next events, PushersInv fd start sys before →
      SpaceSuffices fd sys action →
      (pushersMachine n fd).step sys action = some (next, events) →
      PushersInv fd start next (before ++ events) :=
    fun _ _ _ _ _ inv within taken => inv.step within taken
  have inv := (pushersMachine n fd).exec_invariant_of_meets (PushersInv fd start) began keep ran fits
  -- At the end of all calls, whole frames are the halves of the calls in turn.
  rw [inv.framesWhole_iff_serial ended]
  refine (pushersMachine n fd).exec_iff_meets_within (PushersInv fd start)
    (fun _ trace => ∃ unfinished, Serial trace unfinished) began ⟨none, .nil⟩ keep ?_ ran fits
  intro sys before action next events reached within taken
  exact serial_step_iff reached within taken

instance {n : Nat} (fd : Int) (sys : PushSystem n) :
    (action : PushAction n) → Decidable (SpaceSuffices fd sys action)
  | .begin _ _ => inferInstanceAs (Decidable (∀ _ ∈ _, _))
  | .finish thread =>
    match at_ : sys.pcs thread with
    | .outside => isTrue (by simp only [SpaceSuffices, at_])
    | .sized record arg =>
      decidable_of_iff (∀ ioFd ∈ sys.io.records record, arg.size.toNat ≤ ioFd.enqueueBuffer.room)
        (by simp only [SpaceSuffices, at_])

instance (io : CeIo) (call : StreamCall) : Decidable (io.LooksUp call) :=
  inferInstanceAs (Decidable (_ ∧ _))

instance (place : PusherPc) : Decidable (place = .outside) :=
  match place with
  | .outside => isTrue rfl
  | .sized _ _ => isFalse (fun same => by cases same)

instance {n : Nat} (fd : Int) (sys : PushSystem n) :
    (action : PushAction n) → Decidable (PushesAlone fd sys action)
  | .begin _ _ => inferInstanceAs (Decidable (_ → _))
  | .finish _ => isTrue trivial

/-- Two bytes of data. -/
def twoBytesArg : PacketArg where
  data := some [8, 9]
  size := 2
  backed := by simp

/-- Two threads with a new connection. -/
def twoPushers : PushSystem 2 where
  io := newConnection
  pcs := fun _ => .outside

/-- A call of one thread, and then a call of another. -/
def callsInTurn {n : Nat} (first second : Fin n) : List (PushAction n) :=
  [.begin first oneByteArg, .finish first, .begin second twoBytesArg, .finish second]

/-- They put two whole frames into the ring. -/
theorem framesWhole_iff_in_turn : ∃ last trace,
    (pushersMachine 2 7).exec twoPushers (callsInTurn 0 1) = some (last, trace) ∧
      FramesWhole 7 twoPushers last trace := by
  refine ⟨_, _, rfl, ?_⟩
  -- The second call begins when the first one is finished.
  exact (framesWhole_iff 2 7 (fun _ => rfl)
    (show (pushersMachine 2 7).exec twoPushers (callsInTurn 0 1) = _ from rfl)
    (by decide) (by decide)).mpr (by decide)

/-- A call of one thread, and a call of another that begins between the two writes of the first. -/
def callsOverlapping {n : Nat} (first second : Fin n) : List (PushAction n) :=
  [.begin first oneByteArg, .begin second twoBytesArg, .finish first, .finish second]

/-- They put both size fields in front of both packets, and in no order are these whole frames. -/
theorem not_framesWhole_overlapping : ∃ last trace,
    (pushersMachine 2 7).exec twoPushers (callsOverlapping 0 1) = some (last, trace) ∧
      (pushersMachine 2 7).Meets (SpaceSuffices 7) twoPushers (callsOverlapping 0 1) ∧
      (∀ thread, last.pcs thread = .outside) ∧
      last.io.readable 7 = some [1, 0, 2, 0, 5, 8, 9] ∧
      last.io.readable 7 ≠ some (encodeFrames .little [[5], [8, 9]]) ∧
      last.io.readable 7 ≠ some (encodeFrames .little [[8, 9], [5]]) ∧
      ¬ FramesWhole 7 twoPushers last trace := by
  refine ⟨_, _, rfl, by decide, by decide, by decide, by decide, by decide, ?_⟩
  intro whole
  obtain ⟨calls, halves, -⟩ := whole
  cases calls with
  | nil => cases halves
  | cons call rest =>
    -- Whole operations go on with a second write, where the other call began.
    have next : some (Half.first 1 twoBytesArg) = some (.second call.1 call.2) :=
      congrArg (fun writes => writes[1]?) halves
    cases next

end Cevent
