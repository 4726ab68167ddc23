import Cevent.Io.Capacity

/-! The checks that a configuration passes at startup, and what a connection takes in under it. -/

namespace Cevent

open Interleaving

/-- `ce_conf_t` as a caller fills it in, less its user data. -/
structure CeConfArg where
  /-- Whether `on_accept` is not `NULL`, and so for the other callbacks. -/
  onAccept : Bool
  onReceived : Bool
  onException : Bool
  onClose : Bool
  perMaxPacketBodySize : UInt16
  perCacheRingbufferSize : Int
  workers : Int
  ip : Fin 17 → UInt8
  port : Int
  timeout : Int
  keepalive : Int
  heartbeat : Int

namespace CeConfArg

/-- The condition under which both functions refuse a configuration. -/
def refused (conf : CeConfArg) : Bool :=
  !conf.onAccept || !conf.onReceived || !conf.onException || !conf.onClose ||
    conf.perCacheRingbufferSize ≤ 0 ||
    conf.perMaxPacketBodySize ≤ 0 ||
    -- The two bytes of a size field are not counted in here.
    (conf.perMaxPacketBodySize.toNat : Int) > conf.perCacheRingbufferSize ||
    conf.workers < 1 ||
    conf.ip 0 == 0 ||
    conf.port ≤ 0 ||
    conf.timeout < 0 ||
    conf.keepalive < 0 ||
    conf.heartbeat < 1

/-- What a configuration that is not refused tells the io. -/
def accepted (conf : CeConfArg) (passed : conf.refused = false) : CeConf where
  perMaxPacketBodySize := conf.perMaxPacketBodySize
  perCacheRingbufferSize := conf.perCacheRingbufferSize
  bodyPositive := by
    simp only [refused, Bool.or_eq_false_iff, decide_eq_false_iff_not,
      UInt16.le_iff_toNat_le, UInt16.toNat_zero] at passed
    omega
  ringPositive := by
    simp only [refused, Bool.or_eq_false_iff, decide_eq_false_iff_not] at passed
    omega
  bodyFits := by
    simp only [refused, Bool.or_eq_false_iff, decide_eq_false_iff_not] at passed
    omega

end CeConfArg

/-- The checks that both functions begin with, and the configuration that they go on with. -/
def startupChecks (conf : Option CeConfArg) (out : Bool) : Option CeConf :=
  match conf with
  | none => none
  | some conf =>
    if !out then none
    else if passed : conf.refused = false then some (conf.accepted passed) else none

/-- `ce_server_startup` up to the end of its checks, and whether its `err` is not `NULL`. -/
def ceServerStartup (conf : Option CeConfArg) (err : Bool) : Option CeConf :=
  startupChecks conf err

/-- `ce_client_connect` up to the end of its checks, and whether its `result` is not `NULL`. -/
def ceClientConnect (conf : Option CeConfArg) (result : Bool) : Option CeConf :=
  startupChecks conf result

/-- A configuration passes the checks of one of the two functions. -/
def CeConfArg.Passes (arg : CeConfArg) (conf : CeConf) : Prop :=
  ceServerStartup (some arg) true = some conf ∨ ceClientConnect (some arg) true = some conf

/-- What passes is what the io is told. -/
theorem CeConfArg.Passes.accepted {arg : CeConfArg} {conf : CeConf} (passes : arg.Passes conf) :
    ∃ passed, conf = arg.accepted passed := by
  have checks : startupChecks (some arg) true = some conf := passes.elim id id
  simp only [startupChecks, Bool.not_true, Bool.false_eq_true, ↓reduceIte] at checks
  -- Both functions make the same checks.
  split at checks
  · rename_i passed
    exact ⟨passed, (Option.some.inj checks).symm⟩
  · cases checks

/-- A configuration with one worker and buffers of a size, as large as its packets or larger. -/
def smallConfArg (perMaxPacketBodySize : UInt16) (perCacheRingbufferSize : Int) : CeConfArg where
  onAccept := true
  onReceived := true
  onException := true
  onClose := true
  perMaxPacketBodySize := perMaxPacketBodySize
  perCacheRingbufferSize := perCacheRingbufferSize
  workers := 1
  ip := fun _ => 48
  port := 80
  timeout := 0
  keepalive := 0
  heartbeat := 1

/-- A packet of some bytes, as a caller passes it. -/
def wholeArg (bytes : Bytes) (fits : bytes.length < 2 ^ 16) : PacketArg where
  data := some bytes
  size := UInt16.ofNat bytes.length
  backed := by
    intro _ same
    cases same
    rw [UInt16.toNat_ofNat_of_lt' fits]

/--
A push to a connection that was just added succeeds just when its frame is no larger than the ring.

The configuration is any that passes, and the io may be in any state that calls and workers lead to
when the connection is added.
-/
theorem push_added_iff (n : Nat) (drains : Processor → FdEvent) (host : ByteOrder)
    {type : DictType Int} (refl : ∀ key, type.sameKey key key = true) {conf : CeConfArg}
    {accepted : CeConf} (passes : conf.Passes accepted) {actions : List (IoAction n)}
    {last : IoSystem n} {trace : List IoEvent}
    (ran : (ioMachine n drains).exec (IoSystem.atRest n (ceIoNew host type accepted)) actions =
      some (last, trace))
    {fd : Int} (added : (ceIoAdd last.io fd).2 = true) {arg : PacketArg} {bytes : Bytes}
    (given : arg.data = some bytes) (nonempty : 1 ≤ arg.size.toNat) :
    (ceIoPush (ceIoAdd last.io fd).1 .pushFd fd arg).2 = true ↔
      0 < fd ∧ (arg.size.toNat : Int) + packetLenSize ≤ conf.perCacheRingbufferSize := by
  obtain ⟨passed, rfl⟩ := passes.accepted
  rw [ceIoPush_added_iff (CeIo.RunsWith.reached ran) refl added .pushFd given nonempty]
  -- The ring is as large as the configuration that passed says.
  simp only [CeConfArg.accepted]
  omega

/-- A push of four bytes to a connection with a ring of six. -/
theorem push_added_iff_four_of_six :
    (ceIoPush (ceIoAdd (ceIoNew .little dictTypeHeapStrings
      ((smallConfArg 4 6).accepted rfl)) 7).1 .pushFd 7 (wholeArg [1, 2, 3, 4] (by decide))).2 =
        true := by
  have passes : (smallConfArg 4 6).Passes ((smallConfArg 4 6).accepted rfl) := .inl rfl
  have ran : (ioMachine 1 sourceDrains).exec (IoSystem.atRest 1 (ceIoNew .little
      dictTypeHeapStrings ((smallConfArg 4 6).accepted rfl))) [] = some (_, []) := rfl
  -- Two bytes of size field and four of body are six.
  exact (push_added_iff 1 sourceDrains .little dictTypeHeapStrings_refl passes ran rfl rfl
    (by decide)).mpr (by decide)

/-- With a ring of four, the same configuration passes, and the push fails for want of two bytes. -/
theorem not_push_added_four_of_four :
    (smallConfArg 4 4).Passes ((smallConfArg 4 4).accepted rfl) ∧
      (ceIoAdd (ceIoNew .little dictTypeHeapStrings ((smallConfArg 4 4).accepted rfl)) 7).2 = true ∧
      (wholeArg [1, 2, 3, 4] (by decide)).size ≤ (smallConfArg 4 4).perMaxPacketBodySize ∧
      (ceIoPush (ceIoAdd (ceIoNew .little dictTypeHeapStrings
        ((smallConfArg 4 4).accepted rfl)) 7).1 .pushFd 7 (wholeArg [1, 2, 3, 4] (by decide))).2 =
          false :=
  ⟨.inl rfl, rfl, by decide, rfl⟩

/--
A chunk that comes in on an idle connection is taken whole just when both rings are large enough.

The chunk is any that one `recv` can return, and the io may be in any state that calls and workers
lead to.
-/
theorem enqueue_idle_iff (n : Nat) (drains : Processor → FdEvent) (host : ByteOrder)
    (type : DictType Int) {conf : CeConfArg} {accepted : CeConf} (passes : conf.Passes accepted)
    {actions : List (IoAction n)} {last : IoSystem n} {trace : List IoEvent}
    (ran : (ioMachine n drains).exec (IoSystem.atRest n (ceIoNew host type accepted)) actions =
      some (last, trace))
    {fd : Int} {record : RecordId} {ioFd : CeIoFd}
    (found : last.io.findIoFd fd = some (record, ioFd))
    (empty : ioFd.enqueueBuffer.content = []) (noEvents : last.io.enqueueFdEvent.ring.content = [])
    {arg : PacketArg} {bytes : Bytes} (given : arg.data = some bytes)
    (nonempty : 1 ≤ arg.size.toNat) :
    EnqueuesWhole last.io record fd arg bytes ↔
      0 < fd ∧ (arg.size.toNat : Int) ≤ conf.perCacheRingbufferSize ∧
        (uintptrSize : Int) ≤ conf.perCacheRingbufferSize := by
  obtain ⟨passed, rfl⟩ := passes.accepted
  exact enqueuesWhole_iff (CeIo.RunsWith.reached ran) found empty noEvents given nonempty

/-- A connection is added, and nothing else is done. -/
def addOne (n : Nat) : List (IoAction n) := [.call (.add 7)]

/-- The io that this leads to, with such a configuration. -/
def oneAdded (conf : CeConf) : CeIo := (ceIoAdd (ceIoNew .little dictTypeHeapStrings conf) 7).1

/-- Twelve bytes that come in on a ring of sixteen are taken whole. -/
theorem enqueue_idle_iff_twelve_of_sixteen :
    EnqueuesWhole (oneAdded ((smallConfArg 4 16).accepted rfl)) 0 7
      (wholeArg (List.replicate 12 1) (by decide)) (List.replicate 12 1) := by
  have passes : (smallConfArg 4 16).Passes ((smallConfArg 4 16).accepted rfl) := .inl rfl
  have ran : (ioMachine 1 sourceDrains).exec (IoSystem.atRest 1 (ceIoNew .little
      dictTypeHeapStrings ((smallConfArg 4 16).accepted rfl))) (addOne 1) = some (_, _) := rfl
  have found : (oneAdded ((smallConfArg 4 16).accepted rfl)).findIoFd 7 = some (0, _) := rfl
  exact (enqueue_idle_iff 1 sourceDrains .little dictTypeHeapStrings passes ran found rfl rfl rfl
    (by decide)).mpr (by decide)

/-- Three packets of four bytes, each behind its size field. -/
def threeFrames : Bytes := (List.replicate 3 [4, 0, 1, 2, 3, 4]).flatten

/-- They are legal packets, and not taken by the ring of sixteen of a connection that is idle. -/
theorem not_enqueue_idle_eighteen_of_sixteen :
    (smallConfArg 4 16).Passes ((smallConfArg 4 16).accepted rfl) ∧
      (∃ ioFd, (oneAdded ((smallConfArg 4 16).accepted rfl)).findIoFd 7 = some (0, ioFd) ∧
        ioFd.enqueueBuffer.content = [] ∧ ioFd.pushBuffer.content = []) ∧
      (oneAdded ((smallConfArg 4 16).accepted rfl)).enqueueFdEvent.ring.content = [] ∧
      (oneAdded ((smallConfArg 4 16).accepted rfl)).pushFdEvent.ring.content = [] ∧
      ¬ EnqueuesWhole (oneAdded ((smallConfArg 4 16).accepted rfl)) 0 7
        (wholeArg threeFrames (by decide)) threeFrames := by
  refine ⟨.inl rfl, ⟨_, rfl, rfl, rfl⟩, rfl, rfl, ?_⟩
  intro whole
  exact absurd whole.result (by decide)

end Cevent
