import Cevent.Io.Lifetime

/-! The server: the handlers of its event loop, over an io and the workers of its pool. -/

namespace Cevent

open Interleaving

/-- How the steps of `_aeAcceptTcpHandler` before `ce_io_add` go. -/
inductive AcceptOutcome where
  /-- `anetTcpAccept` fails. -/
  | acceptFails
  /-- `anetKeepAlive` fails on the accepted socket. -/
  | keepAliveFails
  /-- `aeCreateFileEvent` fails on the accepted socket. -/
  | fileEventFails
  /-- The read handler is installed. -/
  | installed
  deriving DecidableEq, Repr

/-- What can be seen of a step of the server. -/
inductive ServerEvent where
  /-- `on_accept(fd)`, with the record that was made for the connection. -/
  | onAccept (fd : Int) (record : RecordId)
  /-- `recv(fd)` returned these bytes. -/
  | received (fd : Int) (bytes : Bytes)
  /-- A processor called out of the library, at work on a record. -/
  | callback (record : RecordId) (call : IoCall)
  /-- `on_close(fd)`. -/
  | onClose (fd : Int)
  deriving DecidableEq, Repr

/-- The server, with the sockets that are open and the fds that have a read handler. -/
structure ServerSystem (n : Nat) where
  system : IoSystem n
  sockets : Int → Bool
  handlers : Int → Bool

/-- A handler that the event loop runs, or a step of one worker. -/
inductive ServerAction (n : Nat) where
  /-- `_aeAcceptTcpHandler`, with the fd that the kernel hands out. -/
  | accept (fd : Int) (outcome : AcceptOutcome)
  /-- `_aeReadFromClient`, with what `recv` finds: some bytes, or nothing for a result `<= 0`. -/
  | read (fd : Int) (chunk : Option Bytes)
  | work (worker : Fin n) (send : Int → Bytes → Int)

/-- Each processor drains the ring that its events are queued in. -/
def deliveredDrains : Processor → FdEvent
  -- The names of the rings suggest this pairing; in the source both processors drain one ring.
  | .enqueue => .enqueue
  | .push => .push

/-- A chunk as `_aeReadFromClient` passes it to `ce_io_enqueue`. -/
def chunkArg (bytes : Bytes) : PacketArg where
  data := some bytes
  size := UInt16.ofNat bytes.length
  backed := by
    intro other same
    cases same
    rw [UInt16.toNat_ofNat']
    exact Nat.mod_le _ _

namespace ServerSystem

variable {n : Nat}

/-- The server with another io. -/
def withIo (server : ServerSystem n) (io : CeIo) : ServerSystem n :=
  { server with system := { server.system with io := io } }

/-- A server that was just started. -/
def started (n : Nat) (host : ByteOrder) (type : DictType Int) (conf : CeConf) :
    ServerSystem n where
  system := IoSystem.atRest n (ceIoNew host type conf)
  sockets := fun _ => false
  handlers := fun _ => false

/-- `_aeClientClose`. -/
def aeClientClose (server : ServerSystem n) (fd : Int) : ServerSystem n × List ServerEvent :=
  let server := { server with handlers := Function.update server.handlers fd false }
  -- Whether `ce_io_del` has found the fd is not looked at.
  let server := server.withIo (ceIoDel server.system.io fd).1
  let server := { server with sockets := Function.update server.sockets fd false }
  (server, [.onClose fd])

/-- `_aeReadFromClient`. -/
def aeReadFromClient (server : ServerSystem n) (fd : Int) :
    Option Bytes → ServerSystem n × List ServerEvent
  | none => server.aeClientClose fd
  | some bytes =>
    let (io, r) := ceIoEnqueue server.system.io fd (chunkArg bytes)
    let server := server.withIo io
    -- A chunk that was not taken closes the connection.
    if r then (server, [.received fd bytes])
    else
      let (server, events) := server.aeClientClose fd
      (server, .received fd bytes :: events)

/-- `_aeAcceptTcpHandler`. -/
def aeAcceptTcpHandler (server : ServerSystem n) (fd : Int) :
    AcceptOutcome → ServerSystem n × List ServerEvent
  | .acceptFails => (server, [])
  -- The accepted socket is closed again, so nothing stays of it.
  | .keepAliveFails | .fileEventFails => (server, [])
  | .installed =>
    let server := { server with handlers := Function.update server.handlers fd true }
    -- The record that `ce_io_add` would allocate.
    let record := server.system.io.allocated
    let (io, added) := ceIoAdd server.system.io fd
    let server := server.withIo io
    -- The handler stays installed when the socket is closed here.
    if added then
      ({ server with sockets := Function.update server.sockets fd true }, [.onAccept fd record])
    else (server, [])

end ServerSystem

/-- What is seen of a step of the io, among the handlers of the server. -/
def IoEvent.serverEvent : IoEvent → Option ServerEvent
  | .callback record call => some (.callback record call)
  | .returned _ _ => none

/-- A server with any number of workers. -/
def serverMachine (n : Nat) : Machine (ServerSystem n) (ServerAction n) ServerEvent where
  step server
    | .accept fd outcome =>
      -- The kernel hands out a number from 0 on that is not in use, and the event loop takes those below its size.
      if 0 ≤ fd ∧ server.sockets fd = false ∧ (outcome = .installed → fd < aeSetSize) then
        some (server.aeAcceptTcpHandler fd outcome)
      else none
    | .read fd chunk =>
      -- The loop runs the handler of an fd whose socket is open; `recv` never returns an empty chunk.
      if server.sockets fd = true ∧ server.handlers fd = true ∧
          ∀ bytes ∈ chunk, 0 < bytes.length ∧ bytes.length < 65536 then
        some (server.aeReadFromClient fd chunk)
      else none
    | .work worker send =>
      (server.system.work deliveredDrains worker send).map fun (system, events) =>
        ({ server with system := system }, events.filterMap (·.serverEvent))

end Cevent
