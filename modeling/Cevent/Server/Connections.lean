import Cevent.Server.Handlers

/-! The protocol of the callbacks for a connection. -/

namespace Cevent

/-- For each fd with an open connection, its record and the bytes received on it and not consumed yet. -/
abbrev Connections := Int → Option (RecordId × Bytes)

/-- What the protocol makes of an event, when it allows it. -/
inductive Connections.Allows (conns : Connections) : ServerEvent → Connections → Prop where
  /-- A connection is accepted on an fd that has none. -/
  | onAccept (fd : Int) (record : RecordId) (closed : conns fd = none) :
      Allows conns (.onAccept fd record) (Function.update conns fd (some (record, [])))
  /-- Bytes are received on an open connection. -/
  | received (fd : Int) (bytes : Bytes) {record : RecordId} {unread : Bytes}
      (current : conns fd = some (record, unread)) :
      Allows conns (.received fd bytes)
        (Function.update conns fd (some (record, unread ++ bytes)))
  /-- Bytes are delivered that were received on this very connection and not consumed yet. -/
  | onReceived (fd : Int) (data : Bytes) (size : UInt16) {record : RecordId}
      {skipped rest : Bytes} (current : conns fd = some (record, skipped ++ data ++ rest)) :
      Allows conns (.callback record (.onReceived fd data size))
        (Function.update conns fd (some (record, rest)))
  /-- The other callbacks of a processor are no part of the cycle. -/
  | other (record : RecordId) (call : IoCall)
      (plain : ∀ fd data size, call ≠ .onReceived fd data size) :
      Allows conns (.callback record call) conns
  /-- An open connection is closed. -/
  | onClose (fd : Int) {current : RecordId × Bytes} (opened : conns fd = some current) :
      Allows conns (.onClose fd) (Function.update conns fd none)

/-- What the protocol makes of events that it allows one after the other. -/
inductive Connections.Follows : Connections → List ServerEvent → Connections → Prop where
  | nil (conns : Connections) : Follows conns [] conns
  | cons {conns mid last : Connections} {event : ServerEvent} {trace : List ServerEvent}
      (allowed : conns.Allows event mid) (later : Follows mid trace last) :
      Follows conns (event :: trace) last

/-- One event that is allowed. -/
theorem Connections.Follows.single {conns next : Connections} {event : ServerEvent}
    (allowed : conns.Allows event next) : conns.Follows [event] next :=
  .cons allowed (.nil next)

/-- Events that are allowed may be followed by others. -/
theorem Connections.Follows.append {conns mid last : Connections} {trace events : List ServerEvent}
    (early : conns.Follows trace mid) (late : mid.Follows events last) :
    conns.Follows (trace ++ events) last := by
  -- The induction is on the first part, event by event.
  induction early with
  | nil => exact late
  | cons allowed _ ih => exact .cons allowed (ih late)

/-- Callbacks that deliver nothing leave the connections as they are. -/
theorem Connections.Follows.plain (conns : Connections) (record : RecordId) {calls : List IoCall}
    (plain : ∀ call ∈ calls, ∀ fd data size, call ≠ .onReceived fd data size) :
    conns.Follows (calls.map (.callback record)) conns := by
  induction calls with
  | nil => exact .nil conns
  | cons call calls ih =>
    -- Each callback is allowed and changes nothing.
    obtain ⟨now, later⟩ := List.forall_mem_cons.mp plain
    exact .cons (.other record call now) (ih later)

/-- The callbacks follow the protocol, from a server without connections on. -/
def FollowsProtocol (trace : List ServerEvent) : Prop :=
  ∃ conns, Connections.Follows (fun _ => none) trace conns

/-- Events that are allowed are allowed up to any point, and from there on. -/
theorem Connections.Follows.split {conns last : Connections} {trace events : List ServerEvent}
    (whole : conns.Follows (trace ++ events) last) :
    ∃ mid, conns.Follows trace mid ∧ mid.Follows events last := by
  induction trace generalizing conns with
  | nil => exact ⟨conns, .nil conns, whole⟩
  | cons event trace ih =>
    cases whole with
    | cons allowed later =>
      -- The first event belongs to the first part.
      obtain ⟨mid, early, late⟩ := ih later
      exact ⟨mid, .cons allowed early, late⟩

/-- Nothing may be delivered for an fd right after its connection was closed. -/
theorem not_followsProtocol_delivered_closed (before : List ServerEvent) (fd : Int)
    (record : RecordId) (data : Bytes) (size : UInt16) :
    ¬ FollowsProtocol (before ++ [.onClose fd, .callback record (.onReceived fd data size)]) := by
  intro follows
  obtain ⟨last, follows⟩ := follows
  -- The two events are allowed after some connections that were there before.
  obtain ⟨mid, -, late⟩ := follows.split
  cases late with
  | cons closed later =>
    cases later with
    | cons delivered done =>
      cases closed
      -- The fd has no connection left that the bytes could be of.
      cases delivered with
      | onReceived _ _ _ current => simp at current
      | other _ _ plain => exact plain fd data size rfl

/-- Only what is unread on one connection is replaced, so fds and records were there before. -/
theorem Connections.of_reread {conns : Connections} {fd fd' : Int} {record record' : RecordId}
    {unread other unread' : Bytes} (current : conns fd = some (record, unread))
    (now : Function.update conns fd (some (record, other)) fd' = some (record', unread')) :
    ∃ old, conns fd' = some (record', old) := by
  -- Either it is the connection that was read from, or it is untouched.
  by_cases same : fd' = fd
  · subst same
    rw [Function.update_self] at now
    cases now
    exact ⟨unread, current⟩
  · rw [Function.update_of_ne same] at now
    exact ⟨unread', now⟩

/-- A connection that is open after another was closed was open before. -/
theorem Connections.of_closed {conns : Connections} {fd fd' : Int} {connection : RecordId × Bytes}
    (now : Function.update conns fd none fd' = some connection) :
    fd' ≠ fd ∧ conns fd' = some connection := by
  have apart : fd' ≠ fd := by
    rintro rfl
    simp at now
  rw [Function.update_of_ne apart] at now
  exact ⟨apart, now⟩

/-- A connection that is open after one was accepted is that one, or was open before. -/
theorem Connections.of_accepted {conns : Connections} {fd fd' : Int} {record record' : RecordId}
    {unread : Bytes}
    (now : Function.update conns fd (some (record, [])) fd' = some (record', unread)) :
    (fd' = fd ∧ record' = record ∧ unread = []) ∨
      (fd' ≠ fd ∧ conns fd' = some (record', unread)) := by
  by_cases same : fd' = fd
  · subst same
    rw [Function.update_self] at now
    cases now
    exact .inl ⟨rfl, rfl, rfl⟩
  · rw [Function.update_of_ne same] at now
    exact .inr ⟨same, now⟩

/-- Accepting a connection on an fd that had none leaves the open connections as they are. -/
theorem Connections.stays {conns : Connections} {fd fd' : Int} {connection : RecordId × Bytes}
    (accepted : RecordId × Bytes) (closed : conns fd = none)
    (current : conns fd' = some connection) :
    Function.update conns fd (some accepted) fd' = some connection := by
  have apart : fd' ≠ fd := by
    rintro rfl
    rw [closed] at current
    cases current
  rw [Function.update_of_ne apart, current]

/-- Replacing what is unread on one connection keeps all fds and records. -/
theorem Connections.reread {conns : Connections} {fd fd' : Int} {record record' : RecordId}
    {unread old : Bytes} (current : conns fd = some (record, unread)) (other : Bytes)
    (was : conns fd' = some (record', old)) :
    ∃ unread', Function.update conns fd (some (record, other)) fd' = some (record', unread') := by
  by_cases same : fd' = fd
  · rw [same, current] at was
    cases was
    exact ⟨other, by rw [same, Function.update_self]⟩
  · exact ⟨old, by rw [Function.update_of_ne same, was]⟩

end Cevent
