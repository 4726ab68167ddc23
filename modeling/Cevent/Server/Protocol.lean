import Cevent.Io.Sending
import Cevent.Io.Stream
import Cevent.Server.Connections

/-! The runs of the server whose callbacks follow the protocol. -/

namespace Cevent

open Interleaving

/-- The record that a worker has popped and whose loop it has not run yet. -/
def WorkerPc.pursues : WorkerPc → Option RecordId
  | .popped _ record | .locked _ record => some record
  | _ => none

/-- The records that wait in an event ring, and those that a processor is on its way to. -/
def IoSystem.inUse {n : Nat} (system : IoSystem n) : List RecordId :=
  system.io.enqueueFdEvent.queued ++ system.io.pushFdEvent.queued ++
    (List.finRange n).filterMap fun worker => (system.pcs worker).pursues

/-- A record is in use when a pointer to it is pending, or a processor is on its way to it. -/
theorem IoSystem.mem_inUse {n : Nat} {system : IoSystem n} {record : RecordId} :
    record ∈ system.inUse ↔
      system.io.Pending record ∨ ∃ worker, (system.pcs worker).pursues = some record := by
  simp [inUse, CeIo.Pending, or_assoc]

/-- However often the enqueue loop runs over a record, it delivers nothing of it. -/
def CeIo.Quiet (io : CeIo) (ioFd : CeIoFd) : Prop :=
  Undeliverable io.host io.conf.perMaxPacketBodySize ioFd.enqueueBuffer.content

/-- The handler of the fd leaves the connection open, or closes it with a quiet record. -/
def ServerSystem.StaysQuiet {n : Nat} (server : ServerSystem n) (fd : Int) (ioFd : CeIoFd) :
    Option Bytes → Prop
  | none => server.system.io.Quiet ioFd
  | some bytes => server.system.io.Accepts fd (chunkArg bytes).size

/--
A step leaves nothing behind that could be delivered to the wrong connection.

A handler's lookup of its fd finds no other fd's entry. As long as a record of the fd is in use, its
chunks are taken, and `recv` ends only when the record is quiet. A delete job that starts finds its
record out of use.
-/
def LeavesNothingBehind {n : Nat} (server : ServerSystem n) : ServerAction n → Prop
  | .accept _ _ => True
  | .read fd chunk =>
    (∀ entry ∈ dictFind server.system.io.ioDict fd, entry.key = fd) ∧
      -- Whether the chunk is taken depends on the room that the handler finds.
      ∀ record ∈ server.system.inUse, ∀ ioFd ∈ server.system.io.records record,
        ioFd.fd = fd → server.StaysQuiet fd ioFd chunk
  | .work worker send => DeletesUnused server.system (.work worker send)

/-- What a loop over a record may make of it: the buffer keeps an end of what waits, and stays quiet. -/
def CeIo.Leaves (io : CeIo) (old ioFd : CeIoFd) : Prop :=
  -- A suffix, since the loop only ever discards from the front.
  ioFd.fd = old.fd ∧ ioFd.enqueueBuffer.content <:+ old.enqueueBuffer.content ∧
    (io.Quiet old → io.Quiet ioFd)

/-- A record may be left as it is. -/
theorem CeIo.Leaves.refl (io : CeIo) (ioFd : CeIoFd) : io.Leaves ioFd ioFd :=
  ⟨rfl, List.suffix_refl _, id⟩

/-- The loop of either processor does that and no more to its record. -/
theorem CeIo.Leaves.processorLoop (io : CeIo) (send : Int → Bytes → Int) (ioFd : CeIoFd)
    (processor : Processor) : io.Leaves ioFd (processorLoop io send ioFd processor).state := by
  cases processor with
  | enqueue =>
    obtain ⟨-, rest, -, fd, -⟩ := enqueueLoop_parse io.host io.conf.perMaxPacketBodySize ioFd
    refine ⟨fd, ?_, ?_⟩
    · -- What the loop discards, it has delivered or skipped.
      rw [Cevent.processorLoop, rest]
      rcases parseStream_consumes io.host io.conf.perMaxPacketBodySize ioFd.fd
        ioFd.enqueueBuffer.content with ⟨data, size, skipped, -, split⟩ | ⟨-, suffix⟩
      · exact ⟨skipped ++ data, split.symm⟩
      · exact suffix
    · intro quiet
      rw [Quiet, Cevent.processorLoop, rest]
      exact (Undeliverable.parse quiet ioFd.fd).2
  | push =>
    obtain ⟨fd, buffer, -⟩ := pushLoop_keeps send ioFd
    refine ⟨fd, ?_, ?_⟩
    · rw [Cevent.processorLoop, buffer]
    · intro quiet
      rw [Quiet, Cevent.processorLoop, buffer]
      exact quiet

/-- How the state of the server stands to the connections of the protocol. -/
structure ServerInv {n : Nat} (server : ServerSystem n) (conns : Connections) : Prop where
  lifetime : LifetimeInv server.system.io server.system.pcs
  running : server.system.io.stop = false
  alive : server.system.io.workers.abort = false
  /-- A key is found as itself. -/
  refl : ∀ key, server.system.io.ioDict.type.sameKey key key = true
  sockets : ∀ fd, server.sockets fd = true ↔ (conns fd).isSome = true
  bounds : ∀ fd record unread, conns fd = some (record, unread) →
    0 ≤ fd ∧ record < server.system.io.allocated
  distinct : ∀ fd fd' record unread unread', conns fd = some (record, unread) →
    conns fd' = some (record, unread') → fd = fd'
  /-- The entry of fd 0 outlives its connection, since `ce_io_del` does not take that fd. -/
  entries : ∀ entry ∈ server.system.io.ioDict.entries,
    (∃ unread, conns entry.key = some (entry.val, unread)) ∨ (entry.key = 0 ∧ conns 0 = none)
  /-- What waits in the buffer of a connection is the end of what is unread on it. -/
  content : ∀ fd record unread ioFd, conns fd = some (record, unread) →
    server.system.io.records record = some ioFd →
      ioFd.fd = fd ∧ ioFd.enqueueBuffer.content <:+ unread
  /-- Nothing is ever enqueued on fd 0. -/
  zero : ∀ record ioFd, server.system.io.records record = some ioFd → ioFd.fd = 0 →
    ioFd.enqueueBuffer.content = []
  /-- A record in use belongs to an open connection, or is quiet. -/
  inUse : ∀ record ∈ server.system.inUse, (∃ fd unread, conns fd = some (record, unread)) ∨
    ∀ ioFd ∈ server.system.io.records record, server.system.io.Quiet ioFd

namespace ServerInv

variable {n : Nat} {server : ServerSystem n} {conns : Connections}

/-- A server that was just started has no connection. -/
theorem started (n : Nat) (host : ByteOrder) {type : DictType Int}
    (refl : ∀ key, type.sameKey key key = true) (conf : CeConf) :
    ServerInv (ServerSystem.started n host type conf) (fun _ => none) where
  lifetime := .new n host type conf
  running := rfl
  alive := rfl
  refl := refl
  sockets := by simp [ServerSystem.started]
  bounds := by simp
  distinct := by simp
  entries := by simp [ServerSystem.started, IoSystem.atRest, ceIoNew, dictCreate]
  content := by simp
  zero := by simp [ServerSystem.started, IoSystem.atRest, ceIoNew]
  inUse := by
    intro record used
    rcases IoSystem.mem_inUse.mp used with (enqueued | pushed) | ⟨worker, pursues⟩
    · cases enqueued
    · cases pushed
    · cases pursues

variable (inv : ServerInv server conns)

include inv

/-- Letting go of records and entries, and of bytes at the front of what waits, keeps the connections. -/
theorem still {next : IoSystem n} (lifetime : LifetimeInv next.io next.pcs)
    (keeps : server.system.io.Keeps next.io)
    (records : ∀ record ioFd, next.io.records record = some ioFd →
      ∃ old, server.system.io.records record = some old ∧ server.system.io.Leaves old ioFd)
    (inUse : ∀ record ∈ next.inUse, record ∈ server.system.inUse) :
    ServerInv { server with system := next } conns where
  lifetime := lifetime
  running := keeps.stop.trans inv.running
  alive := keeps.abort.trans inv.alive
  refl := keeps.type ▸ inv.refl
  sockets := inv.sockets
  bounds := by
    intro fd record unread current
    have bounds := inv.bounds fd record unread current
    exact ⟨bounds.1, keeps.allocated ▸ bounds.2⟩
  distinct := inv.distinct
  entries := fun entry inside => inv.entries entry (keeps.entries.subset inside)
  -- A record holds a suffix of what it held, so no byte comes to it from elsewhere.
  content := by
    intro fd record unread ioFd current held
    obtain ⟨old, before, same, suffix, -⟩ := records record ioFd held
    obtain ⟨own, unreadSuffix⟩ := inv.content fd record unread old current before
    exact ⟨same.trans own, suffix.trans unreadSuffix⟩
  zero := by
    intro record ioFd held none_
    obtain ⟨old, before, same, suffix, -⟩ := records record ioFd held
    rw [inv.zero record old before (same.symm.trans none_)] at suffix
    exact List.suffix_nil.mp suffix
  inUse := by
    intro record used
    refine (inv.inUse record (inUse record used)).imp_right ?_
    intro quiet ioFd held
    obtain ⟨old, before, -, -, silent⟩ := records record ioFd held
    have same : next.io.Quiet ioFd = server.system.io.Quiet ioFd := by
      rw [CeIo.Quiet, CeIo.Quiet, keeps.host, keeps.conf]
    exact same ▸ silent (quiet old before)

/-- What is unread on one connection changes in step with the record of that connection. -/
theorem reread {fd : Int} {record : RecordId} {unread rest : Bytes} {next : CeIo}
    (current : conns fd = some (record, unread))
    (lifetime : LifetimeInv next server.system.pcs) (keeps : server.system.io.Keeps next)
    (here : ∀ ioFd ∈ next.records record, ioFd.fd = fd ∧ ioFd.enqueueBuffer.content <:+ rest)
    (others : ∀ other, other ≠ record → next.records other = server.system.io.records other)
    (zero : ∀ record ioFd, next.records record = some ioFd → ioFd.fd = 0 →
      ioFd.enqueueBuffer.content = [])
    (used : ∀ other ∈ { server.system with io := next }.inUse,
      (∃ fd unread, conns fd = some (other, unread)) ∨
        ∀ ioFd ∈ next.records other, next.Quiet ioFd) :
    ServerInv (server.withIo next) (Function.update conns fd (some (record, rest))) where
  lifetime := lifetime
  running := keeps.stop.trans inv.running
  alive := keeps.abort.trans inv.alive
  refl := keeps.type ▸ inv.refl
  -- The fd that is read from is open before and after, so no table changes.
  sockets := by
    intro fd'
    rw [ServerSystem.withIo, inv.sockets fd']
    by_cases same : fd' = fd
    · simp [same, current]
    · rw [Function.update_of_ne same]
  bounds := by
    intro fd' record' unread' now
    obtain ⟨old, was⟩ := Connections.of_reread current now
    have bounds := inv.bounds fd' record' old was
    exact ⟨bounds.1, keeps.allocated.symm ▸ bounds.2⟩
  distinct := by
    intro first second record' unread' unread'' one two
    obtain ⟨old, was⟩ := Connections.of_reread current one
    obtain ⟨old', was'⟩ := Connections.of_reread current two
    exact inv.distinct first second record' old old' was was'
  entries := by
    intro entry inside
    rcases inv.entries entry (keeps.entries.subset inside) with ⟨old, was⟩ | ⟨key, closed⟩
    · exact .inl (Connections.reread current rest was)
    · -- The fd that is read from is open, so it is not that one.
      have apart : (0 : Int) ≠ fd := by
        rintro rfl
        rw [closed] at current
        cases current
      exact .inr ⟨key, by rw [Function.update_of_ne apart, closed]⟩
  zero := zero
  content := by
    intro fd' record' unread' ioFd now held
    by_cases same : fd' = fd
    · subst same
      rw [Function.update_self] at now
      cases now
      exact here ioFd held
    · -- The record of another connection is another record, and untouched.
      rw [Function.update_of_ne same] at now
      have apart : record' ≠ record := by
        rintro rfl
        exact same (inv.distinct fd' fd record' unread' unread now current)
      have held : next.records record' = some ioFd := held
      rw [others record' apart] at held
      exact inv.content fd' record' unread' ioFd now held
  inUse := by
    intro record' inside
    refine (used record' inside).imp_left ?_
    intro open_
    obtain ⟨fd', old, was⟩ := open_
    exact ⟨fd', Connections.reread current rest was⟩

/-- Bytes in front of what waits may be taken as consumed. -/
theorem consumed {fd : Int} {record : RecordId} {unread rest : Bytes}
    (current : conns fd = some (record, unread))
    (left : ∀ ioFd ∈ server.system.io.records record, ioFd.enqueueBuffer.content <:+ rest) :
    ServerInv server (Function.update conns fd (some (record, rest))) := by
  refine inv.reread current inv.lifetime (.refl _) ?_ (fun _ _ => rfl) inv.zero inv.inUse
  intro ioFd held
  exact ⟨(inv.content fd record unread ioFd current held).1, left ioFd held⟩

/-- An entry that is found under the key of its own fd is the one of that fd's open connection. -/
theorem found_current {fd : Int} {record : RecordId} {ioFd : CeIoFd}
    {connection : RecordId × Bytes} (opened : conns fd = some connection)
    (own : ∀ entry ∈ dictFind server.system.io.ioDict fd, entry.key = fd)
    (found : server.system.io.findIoFd fd = some (record, ioFd)) :
    server.system.io.records record = some ioFd ∧ ∃ unread, conns fd = some (record, unread) := by
  obtain ⟨entry, inDict, rfl, held⟩ := CeIo.findIoFd_eq_some_iff.mp found
  have key := own entry inDict
  rcases inv.entries entry (dictFind_some inDict).1 with ⟨unread, current⟩ | ⟨zero, closed⟩
  · rw [key] at current
    exact ⟨held, unread, current⟩
  · rw [← key, zero, closed] at opened
    cases opened

/-- A chunk is written to records of other fds than 0. -/
theorem zero_writes {fd : Int} {next : CeIo} {connection : RecordId × Bytes}
    (opened : conns fd = some connection) (writes : server.system.io.Writes fd next)
    (own : ∀ entry ∈ dictFind server.system.io.ioDict fd, entry.key = fd) (positive : 0 < fd)
    (record : RecordId) (ioFd : CeIoFd) (held : next.records record = some ioFd)
    (none_ : ioFd.fd = 0) : ioFd.enqueueBuffer.content = [] := by
  rcases writes.records record with untouched | ⟨old, buffer, found, filled⟩
  · rw [untouched] at held
    exact inv.zero record ioFd held none_
  · obtain ⟨before, unread, current⟩ := inv.found_current opened own found
    have same := (inv.content fd record unread old current before).1
    rw [filled] at held
    cases held
    have none_ : old.fd = 0 := none_
    omega

/-- After a chunk was written for a connection, what is in use belongs to an open one or is quiet. -/
theorem inUse_writes {fd : Int} {next : CeIo} {connection : RecordId × Bytes}
    (opened : conns fd = some connection) (writes : server.system.io.Writes fd next)
    (own : ∀ entry ∈ dictFind server.system.io.ioDict fd, entry.key = fd) {record : RecordId}
    (used : record ∈ { server.system with io := next }.inUse) :
    (∃ fd unread, conns fd = some (record, unread)) ∨
      ∀ ioFd ∈ next.records record, next.Quiet ioFd := by
  obtain ⟨more, queued, found⟩ := writes.events
  -- What was in use before is untouched, or it is the record that was found.
  have early : record ∈ server.system.inUse → (∃ fd unread, conns fd = some (record, unread)) ∨
      ∀ ioFd ∈ next.records record, next.Quiet ioFd := by
    intro before
    rcases writes.records record with untouched | ⟨ioFd, buffer, found, -⟩
    · rw [untouched, show next.Quiet = server.system.io.Quiet by
        funext ioFd; rw [CeIo.Quiet, CeIo.Quiet, writes.host, writes.conf]]
      exact inv.inUse record before
    · -- It belongs to the connection that the chunk is for.
      exact .inl ⟨fd, (inv.found_current opened own found).2⟩
  rcases IoSystem.mem_inUse.mp used with (enqueued | pushed) | pursued
  · rw [queued, List.mem_append] at enqueued
    rcases enqueued with old | now
    · exact early (IoSystem.mem_inUse.mpr (.inl (.inl old)))
    · obtain ⟨ioFd, found⟩ := found record now
      exact .inl ⟨fd, (inv.found_current opened own found).2⟩
  · rw [writes.pushFdEvent] at pushed
    exact early (IoSystem.mem_inUse.mpr (.inl (.inr pushed)))
  · exact early (IoSystem.mem_inUse.mpr (.inr pursued))

/-- A chunk that is taken whole is received on the connection of its fd. -/
theorem received {fd : Int} {bytes : Bytes} {next : CeIo} {record : RecordId} {ioFd : CeIoFd}
    {enqueueBuffer : Ring} {connection : RecordId × Bytes} (opened : conns fd = some connection)
    (positive : 0 < fd) (writes : server.system.io.Writes fd next)
    (own : ∀ entry ∈ dictFind server.system.io.ioDict fd, entry.key = fd)
    (found : server.system.io.findIoFd fd = some (record, ioFd))
    (held : next.records record = some { ioFd with enqueueBuffer := enqueueBuffer })
    (content : enqueueBuffer.content = ioFd.enqueueBuffer.content ++ bytes) :
    ∃ unread, conns fd = some (record, unread) ∧
      ServerInv (server.withIo next)
        (Function.update conns fd (some (record, unread ++ bytes))) := by
  obtain ⟨before, unread, current⟩ := inv.found_current opened own found
  refine ⟨unread, current, inv.reread current (inv.lifetime.writes writes) writes.keeps ?_ ?_
    (inv.zero_writes opened writes own positive) (fun _ => inv.inUse_writes opened writes own)⟩
  · -- The same bytes join what is unread and what waits.
    intro filled now
    rw [held] at now
    cases now
    obtain ⟨ownFd, consumed, split⟩ := inv.content fd record unread ioFd current before
    refine ⟨ownFd, consumed, ?_⟩
    rw [content, ← split, List.append_assoc]
  · -- A chunk is written to no other record.
    intro other apart
    rcases writes.records other with untouched | ⟨otherFd, buffer, foundOther, -⟩
    · exact untouched
    · rw [found] at foundOther
      cases foundOther
      exact absurd rfl apart

/-- Once an fd is deleted from the registry, no entry has it as its key. -/
theorem key_ne_of_deleted {fd : Int} {next : CeIo}
    (same : next.ioDict = server.system.io.ioDict)
    (running : next.stop = false) (positive : 0 < fd)
    (own : ∀ entry ∈ dictFind server.system.io.ioDict fd, entry.key = fd) :
    ∀ entry ∈ (ceIoDel next fd).1.ioDict.entries, entry.key ≠ fd := by
  intro entry inside key
  rcases ceIoDel_cases next fd with ⟨negative | stopped | absent, -⟩ |
    ⟨-, -, gone, before, after, found, split, deleted⟩
  · omega
  · simp [running] at stopped
  · -- The fd itself would have been found under its own key.
    have kept := (ceIoDel_deletes next fd).entries.subset inside
    have found : (dictFind next.ioDict fd).isSome := by
      rw [dictFind_isSome_iff]
      exact ⟨entry, kept, by rw [Dict.matchesKey, key, same]; exact inv.refl fd⟩
    simp [absent] at found
  · -- Another entry of the fd would be another entry of its one connection.
    rw [deleted] at inside
    rw [same] at found split
    have whole := inv.lifetime.distinct
    rw [CeIo.registered, split, List.map_append, List.map_cons, List.nodup_middle,
      List.nodup_cons, ← List.map_append] at whole
    have left : entry ∈ server.system.io.ioDict.entries := by
      rw [split]
      exact ((List.append_sublist_append_left before).mpr (List.sublist_cons_self gone after)).subset
        inside
    have other : fd ≠ 0 := by omega
    obtain ⟨unread, current⟩ := (inv.entries entry left).resolve_right fun zero =>
      other (key.symm.trans zero.1)
    obtain ⟨unread', current'⟩ := (inv.entries gone (dictFind_some found).1).resolve_right fun zero =>
      other ((own gone found).symm.trans zero.1)
    rw [own gone found, ← key, current] at current'
    have twin : entry.val = gone.val := (Prod.mk.inj (Option.some.inj current')).1
    exact whole.1 (twin ▸ List.mem_map_of_mem inside)

omit inv in
/-- A record that is in use after its fd was deleted was in use before. -/
theorem inUse_of_deleted {fd : Int} {next : CeIo} {record : RecordId}
    (used : record ∈ { server.system with io := (ceIoDel next fd).1 }.inUse) :
    record ∈ { server.system with io := next }.inUse := by
  have deletes := ceIoDel_deletes next fd
  rw [IoSystem.mem_inUse] at used ⊢
  rwa [CeIo.Pending, deletes.enqueueFdEvent, deletes.pushFdEvent] at used

/-- Closing an fd, after a chunk for it was not taken, when its records in use are quiet. -/
theorem closed {fd : Int} {next : CeIo} {connection : RecordId × Bytes}
    (opened : conns fd = some connection) (writes : server.system.io.Writes fd next)
    (own : ∀ entry ∈ dictFind server.system.io.ioDict fd, entry.key = fd)
    (zero : ∀ record ioFd, next.records record = some ioFd → ioFd.fd = 0 →
      ioFd.enqueueBuffer.content = [])
    (quiet : ∀ record ∈ { server.system with io := next }.inUse, ∀ ioFd ∈ next.records record,
      ioFd.fd = fd → next.Quiet ioFd) :
    ServerInv ((server.withIo next).aeClientClose fd).1 (Function.update conns fd none) where
  lifetime := (inv.lifetime.writes writes).del fd
  running := (ceIoDel_deletes next fd).stop.trans (writes.stop.trans inv.running)
  alive := (ceIoDel_deletes next fd).abort.trans (writes.abort.trans inv.alive)
  refl := ((ceIoDel_deletes next fd).type.trans writes.keeps.type).symm ▸ inv.refl
  sockets := by
    intro other
    by_cases same : other = fd
    · simp [same, ServerSystem.aeClientClose, ServerSystem.withIo]
    · simp [same, ServerSystem.aeClientClose, ServerSystem.withIo, inv.sockets other]
  bounds := by
    intro other record unread now
    have bounds := inv.bounds other record unread (Connections.of_closed now).2
    exact ⟨bounds.1, ((ceIoDel_deletes next fd).allocated.trans writes.allocated).symm ▸ bounds.2⟩
  distinct := by
    intro first second record unread unread' one two
    exact inv.distinct first second record unread unread' (Connections.of_closed one).2
      (Connections.of_closed two).2
  entries := by
    intro entry inside
    -- What is left in the registry was there before, under other fds unless the fd is 0.
    have running : next.stop = false := writes.stop.trans inv.running
    have before : entry ∈ server.system.io.ioDict.entries :=
      writes.ioDict ▸ (ceIoDel_deletes next fd).entries.subset inside
    by_cases same : entry.key = fd
    · have none_ : fd = 0 := by
        have least := (inv.bounds fd _ _ opened).1
        by_contra other
        exact inv.key_ne_of_deleted writes.ioDict running (by omega) own entry inside same
      exact .inr ⟨same.trans none_, by rw [← none_, Function.update_self]⟩
    · rcases inv.entries entry before with ⟨unread, current⟩ | ⟨key, closed⟩
      · exact .inl ⟨unread, by rw [Function.update_of_ne same, current]⟩
      · exact .inr ⟨key, by rw [Function.update_of_ne (key ▸ same), closed]⟩
  zero := by
    intro record ioFd held
    have held : (ceIoDel next fd).1.records record = some ioFd := held
    rw [(ceIoDel_deletes next fd).records] at held
    exact zero record ioFd held
  content := by
    intro other record unread ioFd now held
    have held : (ceIoDel next fd).1.records record = some ioFd := held
    rw [(ceIoDel_deletes next fd).records] at held
    obtain ⟨apart, before⟩ := Connections.of_closed now
    rcases writes.records record with untouched | ⟨old, buffer, found, -⟩
    · rw [untouched] at held
      exact inv.content other record unread ioFd before held
    · -- A record that was written to is the one of the closed connection.
      obtain ⟨-, unread', current⟩ := inv.found_current opened own found
      exact absurd (inv.distinct other fd record unread unread' before current) apart
  inUse := by
    intro record used
    have before := inUse_of_deleted used
    have still : (∀ ioFd ∈ next.records record, next.Quiet ioFd) →
        ∀ ioFd ∈ (ceIoDel next fd).1.records record, (ceIoDel next fd).1.Quiet ioFd := by
      intro silent ioFd held
      rw [(ceIoDel_deletes next fd).records] at held
      rw [CeIo.Quiet, (ceIoDel_deletes next fd).host, (ceIoDel_deletes next fd).conf]
      exact silent ioFd held
    rcases inv.inUse_writes opened writes own before with ⟨other, unread, current⟩ | silent
    · by_cases same : other = fd
      · -- A record of the closed connection is quiet from here on.
        refine .inr (still ?_)
        intro ioFd held
        refine quiet record before ioFd held ?_
        rcases writes.records record with untouched | ⟨old, buffer, found, filled⟩
        · rw [untouched] at held
          exact (inv.content other record unread ioFd current held).1.trans same
        · have own' := inv.content other record unread old current (inv.found_current opened own found).1
          rw [filled] at held
          cases held
          exact own'.1.trans same
      · exact .inl ⟨other, unread, by rw [Function.update_of_ne same, current]⟩
    · exact .inr (still silent)

/-- An fd whose socket is not open has no connection. -/
theorem closed_of_free {fd : Int} (free : server.sockets fd = false) : conns fd = none := by
  have opened := inv.sockets fd
  rw [free] at opened
  simpa using opened

/-- A connection is accepted on an fd that has none, with a record that was never used. -/
theorem accepted {fd : Int} (least : 0 ≤ fd) (closed : conns fd = none)
    (absent : dictFind server.system.io.ioDict fd = none) :
    ServerInv { server with
      system := { server.system with io := server.system.io.withAdded fd }
      handlers := Function.update server.handlers fd true
      sockets := Function.update server.sockets fd true }
      (Function.update conns fd (some (server.system.io.allocated, []))) where
  lifetime := inv.lifetime.added fd
  running := inv.running
  alive := inv.alive
  refl := inv.refl
  sockets := by
    intro other
    by_cases same : other = fd
    · simp [same]
    · simp [same, inv.sockets other]
  bounds := by
    intro other record unread now
    rcases Connections.of_accepted now with ⟨rfl, rfl, -⟩ | ⟨-, before⟩
    · exact ⟨least, Nat.lt_succ_self _⟩
    · have bounds := inv.bounds other record unread before
      exact ⟨bounds.1, Nat.lt_succ_of_lt bounds.2⟩
  distinct := by
    intro first second record unread unread' one two
    -- A record that was allocated before is not the new one.
    have older : ∀ other unread, conns other = some (record, unread) →
        record ≠ server.system.io.allocated :=
      fun other unread before => Nat.ne_of_lt (inv.bounds other record unread before).2
    rcases Connections.of_accepted one with ⟨rfl, fresh, -⟩ | ⟨-, before⟩
    · rcases Connections.of_accepted two with ⟨rfl, -, -⟩ | ⟨-, before'⟩
      · rfl
      · exact absurd fresh (older second unread' before')
    · rcases Connections.of_accepted two with ⟨rfl, fresh, -⟩ | ⟨-, before'⟩
      · exact absurd fresh (older first unread before)
      · exact inv.distinct first second record unread unread' before before'
  entries := by
    intro entry inside
    rcases List.mem_append.mp inside with old | new
    · rcases inv.entries entry old with ⟨unread, current⟩ | ⟨key, none_⟩
      · exact .inl ⟨unread, Connections.stays _ closed current⟩
      · -- An fd that is in the registry is not added again.
        have apart : (0 : Int) ≠ fd := by
          rintro rfl
          have some_ : (dictFind server.system.io.ioDict 0).isSome := by
            rw [dictFind_isSome_iff]
            exact ⟨entry, old, by rw [Dict.matchesKey, key]; exact inv.refl 0⟩
          rw [absent] at some_
          cases some_
        exact .inr ⟨key, by rw [Function.update_of_ne apart, none_]⟩
    · rw [List.mem_singleton.mp new]
      exact .inl ⟨[], Function.update_self ..⟩
  zero := by
    intro record ioFd held none_
    have held : ioFd ∈ (server.system.io.withAdded fd).records record := held
    by_cases new : record = server.system.io.allocated
    · rw [new, CeIo.records_withAdded_self] at held
      cases held
      simp [newIoFd]
    · rw [CeIo.records_withAdded_of_ne _ _ new] at held
      exact inv.zero record ioFd held none_
  content := by
    intro other record unread ioFd now held
    have held : ioFd ∈ (server.system.io.withAdded fd).records record := held
    rcases Connections.of_accepted now with ⟨rfl, rfl, rfl⟩ | ⟨-, before⟩
    · -- Nothing waits on the new connection.
      rw [CeIo.records_withAdded_self] at held
      cases held
      exact ⟨rfl, by simp [newIoFd]⟩
    · have apart : record ≠ server.system.io.allocated :=
        Nat.ne_of_lt (inv.bounds other record unread before).2
      rw [CeIo.records_withAdded_of_ne _ _ apart] at held
      exact inv.content other record unread ioFd before held
  -- What was in use before belongs to another fd, which is open as before.
  inUse := by
    intro record used
    by_cases new : record = server.system.io.allocated
    · exact .inl ⟨fd, [], by rw [new, Function.update_self]⟩
    · rcases inv.inUse record used with ⟨other, unread, current⟩ | quiet
      · exact .inl ⟨other, unread, Connections.stays _ closed current⟩
      · refine .inr ?_
        intro ioFd held
        have held : ioFd ∈ (server.system.io.withAdded fd).records record := held
        rw [CeIo.records_withAdded_of_ne _ _ new] at held
        exact quiet ioFd held

/-- The loop over the enqueue buffer delivers what was received on the record's own connection. -/
theorem enqueueLoop {record : RecordId} {ioFd : CeIoFd} {next : IoSystem n}
    (used : record ∈ server.system.inUse) (held : server.system.io.records record = some ioFd)
    (loops : ServerInv { server with system := next } conns)
    (after : next.io.records record = some (Cevent.enqueueLoop server.system.io.host
      server.system.io.conf.perMaxPacketBodySize ioFd).state) :
    ∃ conns', conns.Follows ((Cevent.enqueueLoop server.system.io.host
        server.system.io.conf.perMaxPacketBodySize ioFd).events.map (.callback record)) conns' ∧
      ServerInv { server with system := next } conns' := by
  obtain ⟨calls, rest, -⟩ := enqueueLoop_parse server.system.io.host
    server.system.io.conf.perMaxPacketBodySize ioFd
  rw [calls]
  rcases inv.inUse record used with ⟨fd, unread, current⟩ | quiet
  · obtain ⟨own, suffix⟩ := inv.content fd record unread ioFd current held
    rcases parseStream_consumes server.system.io.host server.system.io.conf.perMaxPacketBodySize
      ioFd.fd ioFd.enqueueBuffer.content with ⟨data, size, skipped, delivered, split⟩ | ⟨plain, -⟩
    · -- What is delivered stands in front of what is left, in the part of `unread` that waits.
      obtain ⟨consumed, whole⟩ := suffix
      rw [split, ← rest] at whole
      have known : conns fd = some (record, (consumed ++ skipped) ++ data ++
          (Cevent.enqueueLoop server.system.io.host server.system.io.conf.perMaxPacketBodySize
            ioFd).state.enqueueBuffer.content) := by
        rw [current, ← whole]
        simp
      rw [delivered, own]
      refine ⟨_, .single (.onReceived fd data size known), loops.consumed current ?_⟩
      intro left holds
      rw [after] at holds
      rw [← Option.some.inj holds]
    · -- Nothing is delivered, so the connection stands where it stood.
      exact ⟨conns, .plain conns record plain, loops⟩
  · -- The loop finds nothing to deliver in a quiet record, whichever connection it was of.
    have plain := (Undeliverable.parse (quiet ioFd held) ioFd.fd).1
    exact ⟨conns, .plain conns record plain, loops⟩

omit inv in
/-- A worker that moves on to a record in use, or to none, puts no other record in use. -/
theorem inUse_goto {system : IoSystem n} {io : CeIo} {failed : List RecordId} {worker : Fin n}
    {pc : WorkerPc} (pending : ∀ record, io.Pending record → system.io.Pending record)
    (pursues : ∀ record, pc.pursues = some record → record ∈ system.inUse) :
    ∀ record ∈ (IoSystem.goto { io := io, pcs := system.pcs, failed := failed } worker pc).inUse,
      record ∈ system.inUse := by
  intro record used
  rcases IoSystem.mem_inUse.mp used with waits | ⟨other, pursuing⟩
  · exact IoSystem.mem_inUse.mpr (.inl (pending record waits))
  · rw [IoSystem.goto_pcs] at pursuing
    split at pursuing
    · exact pursues record pursuing
    · exact IoSystem.mem_inUse.mpr (.inr ⟨other, pursuing⟩)

/-- The loop of a processor calls out as the protocol allows. -/
theorem loop {worker : Fin n} {send : Int → Bytes → Int} {processor : Processor}
    {record : RecordId} {ioFd : CeIoFd} {failed : List RecordId}
    (place : server.system.pcs worker = .locked processor record)
    (held : server.system.io.records record = some ioFd) :
    let done := processorLoop server.system.io send ioFd processor
    let next := IoSystem.goto { io := server.system.io.afterLoop record done, pcs := server.system.pcs, failed := failed } worker
      (.looped processor record)
    LifetimeInv next.io next.pcs →
    ∃ conns', conns.Follows (done.events.map (.callback record)) conns' ∧
      ServerInv { server with system := next } conns' := by
  intro done next lifetime
  have used : record ∈ server.system.inUse :=
    IoSystem.mem_inUse.mpr (.inr ⟨worker, by rw [place]; rfl⟩)
  have deletes := server.system.io.afterLoop_deletes record done
  have after : next.io.records record = some done.state :=
    (congrFun deletes.records record).trans (CeIo.records_setRecord_self ..)
  have loops : ServerInv { server with system := next } conns := by
    refine inv.still lifetime ⟨deletes.host, deletes.conf, deletes.allocated, deletes.stop,
      deletes.abort, deletes.type, deletes.entries⟩ ?_ (inUse_goto ?_ ?_)
    · -- Only the record of the loop has changed.
      intro other otherFd now
      by_cases same : other = record
      · rw [same, after] at now
        rw [same, ← Option.some.inj now]
        exact ⟨ioFd, held, .processorLoop ..⟩
      · have now : (server.system.io.afterLoop record done).records other = some otherFd := now
        rw [deletes.records, CeIo.records_setRecord_of_ne _ _ same] at now
        exact ⟨otherFd, now, .refl ..⟩
    · intro other waits
      rw [CeIo.Pending, deletes.enqueueFdEvent, deletes.pushFdEvent] at waits
      exact waits
    · intro other pursues
      cases pursues
  cases processor with
  | enqueue => exact inv.enqueueLoop used held loops after
  | push => exact ⟨conns, .plain conns record (pushLoop_keeps send ioFd).2.2, loops⟩

/-- A step of a worker calls out as the protocol allows, and keeps the server in line with it. -/
theorem work {next : IoSystem n} {worker : Fin n} {send : Int → Bytes → Int}
    {events : List IoEvent} (unused : DeletesUnused server.system (.work worker send))
    (taken : server.system.work deliveredDrains worker send = some (next, events)) :
    ∃ conns', conns.Follows (events.filterMap (·.serverEvent)) conns' ∧
      ServerInv { server with system := next } conns' := by
  have step : (ioMachine n deliveredDrains).step server.system (.work worker send) =
      some (next, events) := taken
  have lifetime : LifetimeInv next.io next.pcs := inv.lifetime.step unused step
  have kept : ∀ record ioFd, server.system.io.records record = some ioFd →
      ∃ old, server.system.io.records record = some old ∧ server.system.io.Leaves old ioFd :=
    fun _ ioFd held => ⟨ioFd, held, .refl ..⟩
  have nowhere : ∀ {pc : WorkerPc}, pc.pursues = none →
      ∀ record, pc.pursues = some record → record ∈ server.system.inUse := by
    intro pc away record pursues
    rw [away] at pursues
    cases pursues
  -- Most steps only move the worker, and then not to a record that was not in use.
  have moved : ∀ pc : WorkerPc, LifetimeInv server.system.io (server.system.goto worker pc).pcs →
      (∀ record, pc.pursues = some record → record ∈ server.system.inUse) →
      ∃ conns', conns.Follows [] conns' ∧
        ServerInv { server with system := server.system.goto worker pc } conns' := by
    intro pc lifetime pursues
    refine ⟨conns, .nil conns, inv.still lifetime ?_ ?_ (inUse_goto (fun _ waits => waits) pursues)⟩
    · exact .refl _
    · exact kept
  cases IoSystem.work_move taken with
  | leave processor place drained => exact moved _ lifetime (nowhere rfl)
  | unlock processor record place => exact moved _ lifetime (nowhere rfl)
  | freeEnqueueBuffer record place free | freePushBuffer record place free =>
    refine ⟨conns, .nil conns, inv.still lifetime ?_ kept (inUse_goto (fun _ waits => waits)
      (nowhere rfl))⟩
    exact ⟨rfl, rfl, rfl, rfl, rfl, rfl, List.Sublist.refl _⟩
  | lock processor record place free =>
    refine moved _ lifetime ?_
    intro other pursues
    cases pursues
    exact IoSystem.mem_inUse.mpr (.inr ⟨worker, by rw [place]; rfl⟩)
  -- A job that starts pursues no record yet.
  | take item others place first =>
    refine ⟨conns, .nil conns, inv.still lifetime ?_ kept (inUse_goto (fun _ waits => waits)
      (nowhere (by cases item <;> rfl)))⟩
    exact ⟨rfl, rfl, rfl, rfl, rfl, rfl, List.Sublist.refl _⟩
  | pop processor record ring place first =>
    obtain ⟨waits, left⟩ := LifetimeInv.popped first
    refine ⟨conns, .nil conns, inv.still lifetime ?_ ?_ (inUse_goto left ?_)⟩
    · cases processor <;> exact ⟨rfl, rfl, rfl, rfl, rfl, rfl, List.Sublist.refl _⟩
    · cases processor <;> exact kept
    · intro other pursues
      cases pursues
      exact IoSystem.mem_inUse.mpr (.inl waits)
  -- What is freed drops out of the records, and the others stay.
  | freeRecord record place =>
    refine ⟨conns, .nil conns, inv.still lifetime ?_ ?_ (inUse_goto (fun _ waits => waits)
      (nowhere rfl))⟩
    · exact ⟨rfl, rfl, rfl, rfl, rfl, rfl, List.Sublist.refl _⟩
    · intro other ioFd held
      have held : Function.update server.system.io.records record none other = some ioFd := held
      by_cases same : other = record
      · simp [same] at held
      · rw [Function.update_of_ne same] at held
        exact kept other ioFd held
  | loop processor record ioFd place held =>
    have same : ∀ calls : List IoCall,
        (calls.map (IoEvent.callback record)).filterMap (·.serverEvent) =
          calls.map (.callback record) := by
      intro calls
      rw [List.filterMap_map, ← List.filterMap_eq_map]
      rfl
    rw [same]
    exact inv.loop place held lifetime

/-- The accept handler calls `on_accept` for an fd without a connection, if it calls anything. -/
theorem accept {fd : Int} (least : 0 ≤ fd) (free : server.sockets fd = false)
    (outcome : AcceptOutcome) :
    ∃ conns', conns.Follows (server.aeAcceptTcpHandler fd outcome).2 conns' ∧
      ServerInv (server.aeAcceptTcpHandler fd outcome).1 conns' := by
  cases outcome with
  -- The handler gives up before it has told anyone.
  | acceptFails | keepAliveFails | fileEventFails => exact ⟨conns, .nil conns, inv⟩
  | installed =>
    rcases ceIoAdd_cases server.system.io fd with ⟨-, refused⟩ | ⟨-, absent, added⟩
    · simp only [ServerSystem.aeAcceptTcpHandler, ServerSystem.withIo, refused]
      -- Only the handler is left behind, and no connection depends on it.
      exact ⟨conns, .nil conns, { inv with }⟩
    · have closed := inv.closed_of_free free
      simp only [ServerSystem.aeAcceptTcpHandler, ServerSystem.withIo, added]
      exact ⟨_, .single (.onAccept fd _ closed), inv.accepted least closed absent⟩

/-- On fd 0 nothing is enqueued: the handler receives what there is and closes the connection. -/
theorem read_zero {bytes : Bytes} {record : RecordId} {unread : Bytes}
    (current : conns 0 = some (record, unread))
    (own : ∀ entry ∈ dictFind server.system.io.ioDict 0, entry.key = 0) :
    ∃ conns', conns.Follows (server.aeReadFromClient 0 (some bytes)).2 conns' ∧
      ServerInv (server.aeReadFromClient 0 (some bytes)).1 conns' := by
  have refused : ceIoEnqueue server.system.io 0 (chunkArg bytes) = (server.system.io, false) := by
    simp [ceIoEnqueue, chunkArg]
  simp only [ServerSystem.aeReadFromClient, refused]
  have received : conns.Allows (.received 0 bytes) _ := .received 0 bytes current
  refine ⟨_, .cons received (.single (.onClose 0 (Function.update_self ..))), ?_⟩
  rw [Function.update_idem]
  refine inv.closed current (.refl _ 0) own inv.zero ?_
  intro record _ ioFd held same
  -- With no bytes in the record there is nothing to deliver.
  rw [CeIo.Quiet, inv.zero record ioFd held same]
  trivial

/-- On another fd it enqueues what it receives, and closes the connection when its records are quiet. -/
theorem read_positive {fd : Int} (positive : 0 < fd) {bytes : Bytes} {record : RecordId}
    {unread : Bytes} (current : conns fd = some (record, unread))
    (some_ : 0 < bytes.length) (short : bytes.length < 65536)
    (own : ∀ entry ∈ dictFind server.system.io.ioDict fd, entry.key = fd)
    (quiet : ∀ record ∈ server.system.inUse, ∀ ioFd ∈ server.system.io.records record,
      ioFd.fd = fd → server.StaysQuiet fd ioFd (some bytes)) :
    ∃ conns', conns.Follows (server.aeReadFromClient fd (some bytes)).2 conns' ∧
      ServerInv (server.aeReadFromClient fd (some bytes)).1 conns' := by
  have size : (chunkArg bytes).size.toNat = bytes.length := by
    rw [chunkArg, UInt16.toNat_ofNat']
    exact Nat.mod_eq_of_lt short
  have sized : ¬ (fd ≤ 0 ∨ (chunkArg bytes).size = 0) := by
    rw [← UInt16.toNat_inj, size]
    simp only [UInt16.toNat_zero]
    omega
  have writes := ceIoEnqueue_writes server.system.io fd (chunkArg bytes)
  rcases ceIoEnqueue_cases (rfl : (chunkArg bytes).data = some bytes) sized inv.running inv.alive
    with ⟨refused, full, queued⟩ | ⟨taken, record', ioFd, buffer, found, held, content⟩
  · simp only [ServerSystem.aeReadFromClient, refused]
    have received : conns.Allows (.received fd bytes) _ := .received fd bytes current
    refine ⟨_, .cons received (.single (.onClose fd (Function.update_self ..))), ?_⟩
    rw [Function.update_idem]
    refine inv.closed current writes own (inv.zero_writes current writes own positive) ?_
    intro record used ioFd held same
    -- No record of the fd was in use, since the connection would have taken the chunk.
    have before : record ∈ server.system.inUse := by
      rw [IoSystem.mem_inUse] at used ⊢
      rwa [CeIo.Pending, queued, writes.pushFdEvent] at used
    refine absurd ?_ full
    rcases writes.records record with untouched | ⟨old, buffer, found, filled⟩
    · exact quiet record before ioFd (untouched ▸ held) same
    · rw [filled] at held
      cases held
      exact quiet record before old (inv.found_current current own found).1 same
  · rw [size, List.take_length] at content
    obtain ⟨unread', current', after⟩ := inv.received current positive writes own found held content
    simp only [ServerSystem.aeReadFromClient, taken]
    exact ⟨_, .single (.received fd bytes current'), after⟩

/-- The read handler receives on an open connection, and closes it when its records are quiet. -/
theorem read {fd : Int} {chunk : Option Bytes} (opened : server.sockets fd = true)
    (legal : ∀ bytes ∈ chunk, 0 < bytes.length ∧ bytes.length < 65536)
    (nothing : LeavesNothingBehind server (.read fd chunk)) :
    ∃ conns', conns.Follows (server.aeReadFromClient fd chunk).2 conns' ∧
      ServerInv (server.aeReadFromClient fd chunk).1 conns' := by
  obtain ⟨own, quiet⟩ := nothing
  obtain ⟨⟨record, unread⟩, current⟩ := Option.isSome_iff_exists.mp ((inv.sockets fd).mp opened)
  have least := (inv.bounds fd record unread current).1
  cases chunk with
  | none =>
    exact ⟨_, .single (.onClose fd current), inv.closed current (.refl _ fd) own inv.zero quiet⟩
  | some bytes =>
    obtain ⟨some_, short⟩ := legal bytes rfl
    rcases Int.lt_or_eq_of_le least with positive | rfl
    · exact inv.read_positive positive current some_ short own quiet
    · exact inv.read_zero current own

/-- Every step that leaves nothing behind follows the protocol. -/
theorem step {action : ServerAction n} {next : ServerSystem n} {events : List ServerEvent}
    (nothing : LeavesNothingBehind server action)
    (taken : (serverMachine n).step server action = some (next, events)) :
    ∃ conns', conns.Follows events conns' ∧ ServerInv next conns' := by
  -- The handlers run one at a time, and the workers between any two of their steps.
  cases action with
  | accept fd outcome =>
    simp only [serverMachine] at taken
    split at taken
    · rename_i free
      have accepted := inv.accept free.1 free.2.1 outcome
      rwa [Option.some.inj taken] at accepted
    · cases taken
  | read fd chunk =>
    simp only [serverMachine] at taken
    split at taken
    · rename_i ready
      have handled := inv.read ready.1 ready.2.2 nothing
      rwa [Option.some.inj taken] at handled
    · cases taken
  | work worker send =>
    obtain ⟨⟨system, made⟩, worked, same⟩ := Option.map_eq_some_iff.mp taken
    cases same
    exact inv.work nothing worked

end ServerInv

/--
The callbacks follow the protocol in every run that leaves nothing behind.

The server may have any number of workers, and its connections any fd numbers.
-/
theorem followsProtocol_of_leavesNothingBehind (n : Nat) (host : ByteOrder) (conf : CeConf)
    (actions : List (ServerAction n)) (last : ServerSystem n) (trace : List ServerEvent)
    (ran : (serverMachine n).exec (ServerSystem.started n host dictTypeHeapStrings conf) actions =
      some (last, trace))
    (nothing : (serverMachine n).Meets LeavesNothingBehind
      (ServerSystem.started n host dictTypeHeapStrings conf) actions) : FollowsProtocol trace := by
  have reached := (serverMachine n).exec_invariant_of_meets
    (fun server trace => ∃ conns, Connections.Follows (fun _ => none) trace conns ∧
      ServerInv server conns) ⟨_, .nil _, .started n host dictTypeHeapStrings_refl conf⟩ ?_ ran
    nothing
  · obtain ⟨conns, follows, -⟩ := reached
    exact ⟨conns, follows⟩
  · intro server before action next events inv nothing taken
    obtain ⟨conns, early, inv⟩ := inv
    obtain ⟨conns', late, kept⟩ := inv.step nothing taken
    exact ⟨conns', early.append late, kept⟩

instance decidableUndeliverable (order : ByteOrder) (limit : UInt16) :
    (bytes : Bytes) → Decidable (Undeliverable order limit bytes)
  | [] | [_] | [_, _] => isTrue trivial
  -- The definition goes on at the third byte, and so does the decision.
  | _ :: _ :: third :: rest =>
    have := decidableUndeliverable order limit (third :: rest)
    inferInstanceAs (Decidable ((_ → _ → _) ∧ _))

instance (io : CeIo) (fd : Int) (size : UInt16) : Decidable (io.Accepts fd size) :=
  match found : io.findIoFd fd with
  | none => isFalse (by simp [CeIo.Accepts, found])
  | some (_, ioFd) => decidable_of_iff
      (size.toNat ≤ ioFd.enqueueBuffer.room ∧ uintptrSize ≤ io.enqueueFdEvent.ring.room)
      (by simp [CeIo.Accepts, found])

instance {n : Nat} (server : ServerSystem n) (fd : Int) (ioFd : CeIoFd) :
    (chunk : Option Bytes) → Decidable (server.StaysQuiet fd ioFd chunk)
  | none => inferInstanceAs (Decidable (Undeliverable ..))
  | some _ => inferInstanceAs (Decidable (CeIo.Accepts ..))

instance {n : Nat} (server : ServerSystem n) :
    (action : ServerAction n) → Decidable (LeavesNothingBehind server action)
  | .accept _ _ => isTrue trivial
  | .read _ _ => inferInstanceAs (Decidable (_ ∧ ∀ _ ∈ _, _))
  | .work worker send => inferInstanceAs (Decidable (DeletesUnused server.system (.work worker send)))

/-- A connection whose packet comes in two chunks, is delivered, and is closed after that. -/
theorem followsProtocol_closed_after_delivery : ∃ last trace,
    (serverMachine 1).exec (ServerSystem.started 1 .little dictTypeHeapStrings smallConf)
      ([.accept 7 .installed, .read 7 (some [1, 0]), .read 7 (some [5])] ++
        List.replicate 5 (.work 0 sendAll) ++ [.read 7 none]) = some (last, trace) ∧
    FollowsProtocol trace := by
  obtain ⟨⟨last, trace⟩, ran⟩ := Option.isSome_iff_exists.mp (by rfl : ((serverMachine 1).exec
    (ServerSystem.started 1 .little dictTypeHeapStrings smallConf)
    ([.accept 7 .installed, .read 7 (some [1, 0]), .read 7 (some [5])] ++
      List.replicate 5 (.work 0 sendAll) ++ [.read 7 none])).isSome)
  exact ⟨last, trace, ran, followsProtocol_of_leavesNothingBehind 1 .little smallConf _ _ _ ran
    (by decide)⟩

/-- A packet is delivered after its connection was closed, since its event was still queued. -/
theorem not_followsProtocol_closed_before_delivery : ∃ last trace,
    (serverMachine 1).exec (ServerSystem.started 1 .little dictTypeHeapStrings smallConf)
      ([.accept 7 .installed, .read 7 (some [1, 0, 5]), .read 7 none] ++
        List.replicate 4 (.work 0 sendAll)) = some (last, trace) ∧
    trace = [.onAccept 7 0, .received 7 [1, 0, 5], .onClose 7,
      .callback 0 (.onReceived 7 [5] 1)] ∧
    ¬ FollowsProtocol trace := by
  refine ⟨_, _, rfl, rfl, ?_⟩
  -- The callback names an fd whose connection has ended.
  exact not_followsProtocol_delivered_closed [.onAccept 7 0, .received 7 [1, 0, 5]] 7 0 [5] 1

end Cevent
