import Cevent.Library.Machine

/-! The flag `stop` of a client, between `ce_client_connect`, the receive thread and a disconnect. -/

namespace Cevent

open Interleaving

/-- What one pass of the receive loop comes to. -/
inductive RecvResult where
  /-- `recv` returned a chunk, and `ce_io_enqueue` took it or did not. -/
  | chunk (enqueued : Bool)
  /-- `recv` returned zero or an error. -/
  | ended
  deriving DecidableEq, Repr

/-- Where `ce_client_connect` stands, from its store of `stop` on. -/
inductive ConnectPc where
  | storing
  | creating
  /-- At the condition of the loop that waits. -/
  | waiting
  | returned
  deriving DecidableEq, Repr

/-- Where `_ce_client_routine` stands. -/
inductive ReceivePc where
  /-- `pthread_create` was not called yet. -/
  | absent
  /-- The thread exists, and has not begun to run. -/
  | created
  /-- It runs, and is about to store `false`. -/
  | begun
  /-- At the condition of its loop. -/
  | looping
  | receiving
  /-- About to call `on_close`. -/
  | closing
  | ended
  deriving DecidableEq, Repr

/-- Where `ce_client_disconnect` stands. -/
inductive DisconnectPc where
  | notCalled
  /-- The request is stored, and the socket is to be closed. -/
  | stored
  | joining
  /-- The thread is joined, and the client is to be freed. -/
  | joined
  | returned
  deriving DecidableEq, Repr

/-- A client with its flag, under the two calls and the thread. -/
structure ClientSystem where
  stop : Bool
  connect : ConnectPc
  receive : ReceivePc
  disconnect : DisconnectPc
  deriving DecidableEq, Repr

/-- A step of one party. -/
inductive ClientAction where
  | connect
  /-- The next step of the receive thread, and what `recv` comes to if it is called. -/
  | receive (result : RecvResult)
  | disconnect
  deriving DecidableEq, Repr

/-- What a client shows. -/
inductive ClientEvent where
  | connected
  | onClose
  | disconnected
  deriving DecidableEq, Repr

/-- The thread has begun to run. -/
def ReceivePc.hasBegun : ReceivePc → Bool
  | .absent | .created => false
  | .begun | .looping | .receiving | .closing | .ended => true

/-- The thread has stored `false`. -/
def ReceivePc.hasStored : ReceivePc → Bool
  | .absent | .created | .begun => false
  | .looping | .receiving | .closing | .ended => true

/-- A thread that has stored has begun. -/
theorem ReceivePc.hasBegun_of_hasStored {place : ReceivePc} (stored : place.hasStored = true) :
    place.hasBegun = true := by
  cases place with
  | absent | created | begun => cases stored
  | looping | receiving | closing | ended => rfl

namespace ClientSystem

/-- A client that was just allocated, with any value in its flag. -/
def allocated (garbage : Bool) : ClientSystem where
  stop := garbage
  connect := .storing
  receive := .absent
  disconnect := .notCalled

/-- The next step of `ce_client_connect`, whose loop waits while `stop` has a value. -/
def ceClientConnect (waitsWhile : Bool) (s : ClientSystem) :
    Option (ClientSystem × List ClientEvent) :=
  match s.connect with
  | .storing => some ({ s with stop := true, connect := .creating }, [])
  | .creating => some ({ s with receive := .created, connect := .waiting }, [])
  | .waiting =>
    if s.stop = waitsWhile then some (s, [])
    else some ({ s with connect := .returned }, [.connected])
  | .returned => none

/-- The next step of `_ce_client_routine`. -/
def ceClientRoutine (result : RecvResult) (s : ClientSystem) :
    Option (ClientSystem × List ClientEvent) :=
  match s.receive with
  | .absent | .ended => none
  | .created => some ({ s with receive := .begun }, [])
  | .begun => some ({ s with stop := false, receive := .looping }, [])
  | .looping => some ({ s with receive := if s.stop then .closing else .receiving }, [])
  | .receiving =>
    match result with
    | .chunk true => some ({ s with receive := .looping }, [])
    -- A chunk that is not taken ends the loop as an error does.
    | .chunk false | .ended => some ({ s with receive := .closing }, [])
  | .closing => some ({ s with receive := .ended }, [.onClose])

/-- The next step of `ce_client_disconnect`, which is called on a client that is connected. -/
def ceClientDisconnect (s : ClientSystem) : Option (ClientSystem × List ClientEvent) :=
  match s.disconnect with
  | .notCalled =>
    if s.connect = .returned then some ({ s with stop := true, disconnect := .stored }, [])
    else none
  -- What closing the socket does to `recv` is left to what `recv` comes to.
  | .stored => some ({ s with disconnect := .joining }, [])
  | .joining =>
    if s.receive = .ended then some ({ s with disconnect := .joined }, []) else none
  | .joined => some ({ s with disconnect := .returned }, [.disconnected])
  | .returned => none

/-- What a step of `ce_client_connect` does. -/
theorem ceClientConnect_cases {waitsWhile : Bool} {s next : ClientSystem}
    {events : List ClientEvent} (taken : s.ceClientConnect waitsWhile = some (next, events)) :
    (s.connect = .storing ∧ next = { s with stop := true, connect := .creating }) ∨
    (s.connect = .creating ∧ next = { s with receive := .created, connect := .waiting }) ∨
    (s.connect = .waiting ∧ s.stop = waitsWhile ∧ next = s) ∨
    (s.connect = .waiting ∧ s.stop ≠ waitsWhile ∧ next = { s with connect := .returned }) := by
  unfold ceClientConnect at taken
  -- One case for each place of the call, two of them at its loop.
  cases place : s.connect with
  | storing =>
    simp only [place, Option.some.injEq, Prod.mk.injEq] at taken
    exact .inl ⟨rfl, taken.1.symm⟩
  | creating =>
    simp only [place, Option.some.injEq, Prod.mk.injEq] at taken
    exact .inr (.inl ⟨rfl, taken.1.symm⟩)
  | waiting =>
    simp only [place] at taken
    split at taken
    · cases taken
      exact .inr (.inr (.inl ⟨rfl, ‹_›, rfl⟩))
    · cases taken
      exact .inr (.inr (.inr ⟨rfl, ‹_›, rfl⟩))
  | returned => simp [place] at taken

/-- A step of `_ce_client_routine` moves the thread, and changes `stop` where it stores `false`. -/
theorem ceClientRoutine_cases {result : RecvResult} {s next : ClientSystem}
    {events : List ClientEvent} (taken : s.ceClientRoutine result = some (next, events)) :
    s.receive ≠ .absent ∧ ∃ place : ReceivePc, place.hasBegun = true ∧
      (place.hasStored = true ↔ s.receive = .begun ∨ s.receive.hasStored = true) ∧
      next = { s with
        stop := if s.receive = .begun then false else s.stop
        receive := place } := by
  unfold ceClientRoutine at taken
  cases place : s.receive with
  | absent => simp [place] at taken
  | ended => simp [place] at taken
  | receiving =>
    simp only [place] at taken
    split at taken
    all_goals
      simp only [Option.some.injEq, Prod.mk.injEq] at taken
      refine ⟨by simp, _, ?_, ?_, taken.1.symm⟩
      · rfl
      · simp [ReceivePc.hasStored]
  -- Whatever the flag is, the thread has stored `false` when it looks at it.
  | looping =>
    simp only [place, Option.some.injEq, Prod.mk.injEq] at taken
    refine ⟨by simp, _, ?_, ?_, taken.1.symm⟩
    · cases s.stop <;> rfl
    · cases s.stop <;> simp [ReceivePc.hasStored]
  | created | begun | closing =>
    simp only [place, Option.some.injEq, Prod.mk.injEq] at taken
    refine ⟨by simp, _, ?_, ?_, taken.1.symm⟩
    · rfl
    · simp [ReceivePc.hasStored]

/-- A step of `ce_client_disconnect` changes `stop` with its first one, which needs a connected client. -/
theorem ceClientDisconnect_cases {s next : ClientSystem} {events : List ClientEvent}
    (taken : s.ceClientDisconnect = some (next, events)) :
    (s.disconnect = .notCalled ∧ s.connect = .returned ∧
      next = { s with stop := true, disconnect := .stored }) ∨
    (s.disconnect ≠ .notCalled ∧ ∃ place : DisconnectPc, place ≠ .notCalled ∧
      next = { s with disconnect := place }) := by
  unfold ceClientDisconnect at taken
  cases place : s.disconnect with
  | notCalled =>
    simp only [place, Option.ite_none_right_eq_some, Option.some.injEq, Prod.mk.injEq] at taken
    exact .inl ⟨rfl, taken.1, taken.2.1.symm⟩
  -- The join ends with the thread, and leaves the flag alone.
  | joining =>
    simp only [place, Option.ite_none_right_eq_some, Option.some.injEq, Prod.mk.injEq] at taken
    exact .inr ⟨by simp, _, by simp, taken.2.1.symm⟩
  | stored | joined =>
    simp only [place, Option.some.injEq, Prod.mk.injEq] at taken
    exact .inr ⟨by simp, _, by simp, taken.1.symm⟩
  | returned => simp [place] at taken

end ClientSystem

/-- The three parties take their steps in any order, with a loop that waits while `stop` has a value. -/
def handshakeMachine (waitsWhile : Bool) : Machine ClientSystem ClientAction ClientEvent where
  step s action :=
    match action with
    | .connect => s.ceClientConnect waitsWhile
    | .receive result => s.ceClientRoutine result
    | .disconnect => s.ceClientDisconnect

/-- The client: `ce_client_connect` waits while `stop` is false. -/
def clientMachine : Machine ClientSystem ClientAction ClientEvent := handshakeMachine false

/--
The flag tells `ce_client_connect` that the thread runs, and the thread that it is to stop.

A wait is not for a value that no step can store any more, and a request to stop is not lost.
-/
structure HandshakeSound (waitsWhile : Bool) (s : ClientSystem) : Prop where
  started : s.connect = .returned → s.receive.hasBegun = true
  ends : s.connect = .waiting → ∃ actions last trace,
    (handshakeMachine waitsWhile).exec s actions = some (last, trace) ∧ last.stop = !waitsWhile
  kept : s.disconnect ≠ .notCalled → s.stop = true

/--
The thread runs when `ce_client_connect` tests the flag.

It stores `false` behind the test that ended the wait, and in front of a request to stop.
-/
def HandshakeOrder (s : ClientSystem) : ClientAction → Prop
  | .connect => s.connect = .waiting → s.receive.hasBegun = true
  | .receive _ => s.receive = .begun → s.connect = .returned ∧ s.disconnect = .notCalled
  | .disconnect => True

/-- Whether a step keeps that order is read off the state. -/
instance (s : ClientSystem) (action : ClientAction) : Decidable (HandshakeOrder s action) :=
  match action with
  | .connect => inferInstanceAs (Decidable (s.connect = .waiting → _))
  | .receive _ => inferInstanceAs (Decidable (s.receive = .begun → _))
  | .disconnect => inferInstanceAs (Decidable True)

/-- The order that the calls themselves keep, whatever the loop waits for. -/
structure HandshakeInv (s : ClientSystem) : Prop where
  absent : s.connect = .storing ∨ s.connect = .creating → s.receive = .absent
  creating : s.connect = .creating → s.stop = true
  requested : s.disconnect ≠ .notCalled → s.connect = .returned

namespace HandshakeInv

variable {waitsWhile : Bool} {s : ClientSystem}

/-- A client that was just allocated keeps it. -/
theorem allocated (garbage : Bool) : HandshakeInv (ClientSystem.allocated garbage) where
  absent _ := rfl
  creating place := by cases place
  requested called := absurd rfl called

/-- A step of `ce_client_connect` keeps it. -/
theorem connect (inv : HandshakeInv s) {next : ClientSystem} {events : List ClientEvent}
    (taken : s.ceClientConnect waitsWhile = some (next, events)) : HandshakeInv next := by
  have early (place : s.connect ≠ .returned) : s.disconnect = .notCalled := by
    by_contra called
    exact place (inv.requested called)
  -- No disconnect is under way until the call has returned.
  rcases ClientSystem.ceClientConnect_cases taken with
    ⟨place, rfl⟩ | ⟨place, rfl⟩ | ⟨-, -, rfl⟩ | ⟨place, -, rfl⟩
  · exact ⟨fun _ => inv.absent (.inl place), fun _ => rfl,
      fun called => absurd (early (by simp [place])) called⟩
  · exact ⟨by simp, by simp, fun called => absurd (early (by simp [place])) called⟩
  · exact inv
  · exact ⟨by simp, by simp, fun _ => rfl⟩

/-- A step of `_ce_client_routine` keeps it, as the thread exists behind the first two stores only. -/
theorem receive (inv : HandshakeInv s) {result : RecvResult} {next : ClientSystem}
    {events : List ClientEvent} (taken : s.ceClientRoutine result = some (next, events)) :
    HandshakeInv next := by
  obtain ⟨present, place, -, -, rfl⟩ := ClientSystem.ceClientRoutine_cases taken
  have late : ¬(s.connect = .storing ∨ s.connect = .creating) :=
    fun early => present (inv.absent early)
  exact ⟨fun early => absurd early late, fun early => absurd (.inr early) late, inv.requested⟩

/-- A step of `ce_client_disconnect` keeps it. -/
theorem disconnect (inv : HandshakeInv s) {next : ClientSystem} {events : List ClientEvent}
    (taken : s.ceClientDisconnect = some (next, events)) : HandshakeInv next := by
  rcases ClientSystem.ceClientDisconnect_cases taken with
    ⟨-, connected, rfl⟩ | ⟨called, place, -, rfl⟩
  · exact ⟨inv.absent, fun _ => rfl, fun _ => connected⟩
  · exact ⟨inv.absent, inv.creating, fun _ => inv.requested called⟩

/-- Every step keeps it. -/
theorem step (inv : HandshakeInv s) {action : ClientAction} {next : ClientSystem}
    {events : List ClientEvent}
    (taken : (handshakeMachine waitsWhile).step s action = some (next, events)) :
    HandshakeInv next := by
  cases action with
  | connect => exact inv.connect taken
  | receive result => exact inv.receive taken
  | disconnect => exact inv.disconnect taken

end HandshakeInv

/-- A client that waits while `stop` is false waits for ever, as only a disconnect stores `true` now. -/
theorem waits_for_ever {s last : ClientSystem} (inv : HandshakeInv s)
    (waiting : s.connect = .waiting) (off : s.stop = false) {actions : List ClientAction}
    {trace : List ClientEvent} (ran : clientMachine.exec s actions = some (last, trace)) :
    last.stop = false := by
  have stays : HandshakeInv last ∧ last.connect = .waiting ∧ last.stop = false := by
    refine clientMachine.exec_invariant
      (fun s _ => HandshakeInv s ∧ s.connect = .waiting ∧ s.stop = false) ⟨inv, waiting, off⟩ ?_ ran
    rintro t before action u events ⟨reached, place, value⟩ taken
    refine ⟨reached.step taken, ?_⟩
    cases action with
    | connect =>
      rcases ClientSystem.ceClientConnect_cases taken with
        ⟨other, -⟩ | ⟨other, -⟩ | ⟨-, -, rfl⟩ | ⟨-, other, -⟩
      · simp [place] at other
      · simp [place] at other
      · exact ⟨place, value⟩
      · exact absurd value other
    | receive result =>
      -- The thread stores `false` only.
      obtain ⟨-, thread, -, -, rfl⟩ := ClientSystem.ceClientRoutine_cases taken
      exact ⟨place, by simp [value]⟩
    | disconnect =>
      -- The disconnect needs a client that is connected.
      have connected : t.connect = .returned := by
        rcases ClientSystem.ceClientDisconnect_cases taken with ⟨-, connected, -⟩ | ⟨called, -⟩
        · exact connected
        · exact reached.requested called
      simp [place] at connected
  exact stays.2.2

/-- So its wait is for a value that can still be stored just while `stop` is true. -/
theorem ends_iff {s : ClientSystem} (inv : HandshakeInv s) (waiting : s.connect = .waiting) :
    (∃ actions last trace, clientMachine.exec s actions = some (last, trace) ∧ last.stop = true) ↔
      s.stop = true := by
  constructor
  · rintro ⟨actions, last, trace, ran, on⟩
    by_contra off
    have never := waits_for_ever inv waiting (Bool.not_eq_true _ ▸ off) ran
    simp [never] at on
  · intro on
    -- Where the flag is `true` already, nothing has to be waited for.
    exact ⟨[], s, [], rfl, on⟩

/-- The client is sound just in the states whose flag is `true` for a wait and for a request. -/
theorem handshakeSound_iff {s : ClientSystem} (inv : HandshakeInv s) :
    HandshakeSound false s ↔
      (s.connect = .returned → s.receive.hasBegun = true) ∧
      (s.connect = .waiting → s.stop = true) ∧ (s.disconnect ≠ .notCalled → s.stop = true) := by
  constructor
  · intro sound
    exact ⟨sound.started, fun place => (ends_iff inv place).mp (sound.ends place), sound.kept⟩
  · rintro ⟨started, waiting, kept⟩
    exact ⟨started, fun place => (ends_iff inv place).mpr (waiting place), kept⟩

/-- A step of `ce_client_connect` keeps a client sound just when its test finds the thread running. -/
theorem handshakeSound_connect {s next : ClientSystem} {events : List ClientEvent}
    (inv : HandshakeInv s) (sound : HandshakeSound false s)
    (taken : s.ceClientConnect false = some (next, events)) :
    HandshakeSound false next ↔ HandshakeOrder s .connect := by
  rw [handshakeSound_iff (inv.connect taken), HandshakeOrder]
  obtain ⟨-, waits, kept⟩ := (handshakeSound_iff inv).mp sound
  rcases ClientSystem.ceClientConnect_cases taken with
    ⟨place, rfl⟩ | ⟨place, rfl⟩ | ⟨place, off, rfl⟩ | ⟨place, -, rfl⟩
  · simp [place]
  · simp [place, inv.creating place]
  · -- A sound client has stored `true`, so it does not wait for another turn.
    simp [waits place] at off
  · simp only [place, forall_const, reduceCtorEq, false_implies, true_and]
    exact and_iff_left kept

/-- A step of the thread keeps it sound just when it does not store `false` too early or too late. -/
theorem handshakeSound_receive {s next : ClientSystem} {result : RecvResult}
    {events : List ClientEvent} (inv : HandshakeInv s) (sound : HandshakeSound false s)
    (taken : s.ceClientRoutine result = some (next, events)) :
    HandshakeSound false next ↔ HandshakeOrder s (.receive result) := by
  rw [handshakeSound_iff (inv.receive taken), HandshakeOrder]
  obtain ⟨-, waits, kept⟩ := (handshakeSound_iff inv).mp sound
  obtain ⟨present, thread, begun, -, rfl⟩ := ClientSystem.ceClientRoutine_cases taken
  by_cases stores : s.receive = .begun
  · have late : s.connect = .waiting ∨ s.connect = .returned := by
      cases place : s.connect with
      | storing => exact absurd (inv.absent (.inl place)) present
      | creating => exact absurd (inv.absent (.inr place)) present
      | waiting => exact .inl rfl
      | returned => exact .inr rfl
    -- What is stored is `false`, so there must be no wait and no request.
    simp only [stores, if_true, begun, implies_true, true_and, forall_const]
    rcases late with place | place <;> simp [place]
  · -- Any other step leaves the flag as it is.
    simp only [stores, if_false, begun, implies_true, true_and, false_implies, iff_true]
    exact ⟨waits, kept⟩

/-- A step of `ce_client_disconnect` keeps it sound. -/
theorem handshakeSound_disconnect {s next : ClientSystem} {events : List ClientEvent}
    (inv : HandshakeInv s) (sound : HandshakeSound false s)
    (taken : s.ceClientDisconnect = some (next, events)) : HandshakeSound false next := by
  rw [handshakeSound_iff (inv.disconnect taken)]
  obtain ⟨started, waits, kept⟩ := (handshakeSound_iff inv).mp sound
  rcases ClientSystem.ceClientDisconnect_cases taken with
    ⟨-, -, rfl⟩ | ⟨called, place, -, rfl⟩
  · exact ⟨started, fun _ => rfl, fun _ => rfl⟩
  · exact ⟨started, waits, fun _ => kept called⟩

/-- A client whose connect call has done nothing yet is sound. -/
theorem handshakeSound_allocated (waitsWhile garbage : Bool) :
    HandshakeSound waitsWhile (ClientSystem.allocated garbage) where
  started place := by cases place
  ends place := by cases place
  kept called := absurd rfl called

/--
Along a run of a client its flag is sound in every state just when the steps come in one order.

The order is that of the thread's first steps with the test that ends the wait and with the request.
-/
theorem handshake_sound_iff (garbage : Bool) (actions : List ClientAction) {last : ClientSystem}
    {trace : List ClientEvent}
    (ran : clientMachine.exec (.allocated garbage) actions = some (last, trace)) :
    clientMachine.Along (HandshakeSound false) (.allocated garbage) actions ↔
      clientMachine.Meets HandshakeOrder (.allocated garbage) actions := by
  refine clientMachine.exec_along_iff_meets HandshakeInv (HandshakeSound false)
    (HandshakeInv.allocated garbage) (handshakeSound_allocated false garbage) ?_ ?_ ran
  · intro s action next events inv taken
    exact inv.step taken
  · intro s action next events inv sound taken
    cases action with
    | connect => exact handshakeSound_connect inv sound taken
    | receive result => exact handshakeSound_receive inv sound taken
    | disconnect => exact iff_of_true (handshakeSound_disconnect inv sound taken) trivial

/-- A run in that order: the call returns between the thread's first step and its store. -/
def connectsInTime : List ClientAction :=
  [.connect, .connect, .receive .ended, .connect, .receive .ended, .receive .ended,
    .receive (.chunk true), .disconnect, .receive .ended, .disconnect, .receive .ended, .disconnect,
    .disconnect]

/-- The flag is sound all along it. -/
theorem handshake_sound_iff_in_time :
    clientMachine.Along (HandshakeSound false) (.allocated true) connectsInTime :=
  (handshake_sound_iff true connectsInTime (show _ = some (_, _) from rfl)).mpr (by decide)

/-- A thread that stores `false` at once, before the call has come to its loop. -/
def storesFirst : List ClientAction := [.connect, .connect, .receive .ended, .receive .ended]

/-- A thread that stores `false` behind the request to stop. -/
def storesLast : List ClientAction :=
  [.connect, .connect, .receive .ended, .connect, .disconnect, .receive .ended]

/-- The first leaves the call waiting for ever, and the second loses the request. -/
theorem not_handshake_sound_stores_first :
    ¬clientMachine.Along (HandshakeSound false) (.allocated true) storesFirst ∧
      ¬clientMachine.Along (HandshakeSound false) (.allocated true) storesLast := by
  constructor
  · intro along
    have sound := along.last (show clientMachine.exec _ storesFirst = some (_, _) from rfl)
    have inv : HandshakeInv ⟨false, .waiting, .looping, .notCalled⟩ :=
      ⟨by simp, by simp, fun called => absurd rfl called⟩
    -- The call is at its loop with a flag of `false`.
    cases (ends_iff inv rfl).mp (sound.ends rfl)
  · intro along
    have sound := along.last (show clientMachine.exec _ storesLast = some (_, _) from rfl)
    -- The disconnect has stored `true`, and finds `false`.
    cases sound.kept (by decide)

/-- What a loop that waits while `stop` is true makes sure of, as that of `ce_server_startup` does. -/
structure StoredBeforeReturn (s : ClientSystem) : Prop where
  present : s.connect = .waiting → s.receive ≠ .absent
  waiting : s.connect = .waiting → (s.stop = false ↔ s.receive.hasStored = true)
  returned : s.connect = .returned → s.receive.hasStored = true
  kept : s.disconnect ≠ .notCalled → s.stop = true

namespace StoredBeforeReturn

variable {s next : ClientSystem} {events : List ClientEvent}

/-- A step of `ce_client_connect` with such a loop keeps it. -/
theorem connect (stored : StoredBeforeReturn s) (inv : HandshakeInv s)
    (taken : s.ceClientConnect true = some (next, events)) : StoredBeforeReturn next := by
  rcases ClientSystem.ceClientConnect_cases taken with
    ⟨-, rfl⟩ | ⟨place, rfl⟩ | ⟨-, -, rfl⟩ | ⟨place, off, rfl⟩
  · exact ⟨by simp, by simp, by simp, fun _ => rfl⟩
  · exact ⟨by simp, by simp [inv.creating place, ReceivePc.hasStored], by simp,
      fun _ => inv.creating place⟩
  · exact stored
  · -- The loop is left on the thread's store.
    exact ⟨by simp, by simp, fun _ => (stored.waiting place).mp (by simpa using off), stored.kept⟩

/-- A step of the thread keeps it, as the thread stores before the call returns. -/
theorem receive (stored : StoredBeforeReturn s) (inv : HandshakeInv s) {result : RecvResult}
    (taken : s.ceClientRoutine result = some (next, events)) : StoredBeforeReturn next := by
  obtain ⟨-, thread, begun, after, rfl⟩ := ClientSystem.ceClientRoutine_cases taken
  refine ⟨?_, ?_, ?_, ?_⟩
  · intro _ absent
    have running : thread = .absent := absent
    simp [running, ReceivePc.hasBegun] at begun
  · intro place
    have before := stored.waiting place
    by_cases stores : s.receive = .begun
    · simp [stores, after]
    · simpa [stores, after] using before
  · intro place
    exact after.mpr (.inr (stored.returned place))
  · intro called
    -- The request finds the thread behind its store.
    have before := stored.returned (inv.requested called)
    have past : s.receive ≠ .begun := by
      intro place
      simp [place, ReceivePc.hasStored] at before
    simp [past, stored.kept called]

/-- A step of `ce_client_disconnect` keeps it. -/
theorem disconnect (stored : StoredBeforeReturn s)
    (taken : s.ceClientDisconnect = some (next, events)) : StoredBeforeReturn next := by
  rcases ClientSystem.ceClientDisconnect_cases taken with
    ⟨-, connected, rfl⟩ | ⟨called, place, -, rfl⟩
  · exact ⟨stored.present, by simp [connected], stored.returned, fun _ => rfl⟩
  · exact ⟨stored.present, stored.waiting, stored.returned, fun _ => stored.kept called⟩

/-- The thread can come to its store from wherever it stands, so the wait can end. -/
theorem ends (stored : StoredBeforeReturn s) (place : s.connect = .waiting) :
    ∃ actions last trace,
      (handshakeMachine true).exec s actions = some (last, trace) ∧ last.stop = false := by
  have present := stored.present place
  have waits := stored.waiting place
  cases thread : s.receive with
  | absent => exact absurd thread present
  | created =>
    refine ⟨[.receive .ended, .receive .ended], { s with stop := false, receive := .looping }, [],
      ?_, rfl⟩
    simp [Machine.exec, handshakeMachine, ClientSystem.ceClientRoutine, thread]
  | begun =>
    refine ⟨[.receive .ended], { s with stop := false, receive := .looping }, [], ?_, rfl⟩
    simp [Machine.exec, handshakeMachine, ClientSystem.ceClientRoutine, thread]
  | looping | receiving | closing | ended =>
    exact ⟨[], s, [], rfl, waits.mpr (by simp [thread, ReceivePc.hasStored])⟩

end StoredBeforeReturn

/-- With a loop that waits while `stop` is true every run keeps the flag sound. -/
theorem handshakeSound_of_waits_while_true (garbage : Bool) {actions : List ClientAction}
    {last : ClientSystem} {trace : List ClientEvent}
    (ran : (handshakeMachine true).exec (.allocated garbage) actions = some (last, trace)) :
    HandshakeSound true last := by
  have reached : HandshakeInv last ∧ StoredBeforeReturn last := by
    refine (handshakeMachine true).exec_invariant
      (fun s _ => HandshakeInv s ∧ StoredBeforeReturn s) ⟨.allocated garbage, ?_⟩ ?_ ran
    · exact ⟨by simp [ClientSystem.allocated], by simp [ClientSystem.allocated],
        by simp [ClientSystem.allocated], fun called => absurd rfl called⟩
    · -- Each party moves on its own, and only the thread stores `false`.
      rintro t before action u events ⟨inv, stored⟩ taken
      refine ⟨inv.step taken, ?_⟩
      cases action with
      | connect => exact stored.connect inv taken
      | receive result => exact stored.receive inv taken
      | disconnect => exact stored.disconnect taken
  obtain ⟨-, stored⟩ := reached
  exact ⟨fun place => ReceivePc.hasBegun_of_hasStored (stored.returned place), stored.ends,
    stored.kept⟩

end Cevent
