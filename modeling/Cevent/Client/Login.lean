import Cevent.Library.Machine
import Cevent.Pool.Creation
import Cevent.Server.Conf

/-! Login attempts: what `ce_client_connect` reports of each, and which sockets it leaves open. -/

namespace Cevent

open Interleaving

/-- `ce_connect_result`. -/
inductive CeConnectResult where
  | ok
  | socketError
  | serverNoResponse
  | initError
  deriving DecidableEq, Repr

/-- `ConnectStatus`. -/
inductive ConnectStatus where
  | connecting
  | connected
  | loginSuccess
  | disconnected
  | confilect
  deriving DecidableEq, Repr

/-- The calls of `ClientImpl::login` on its listeners. -/
inductive ListenerCall where
  | onConnectChanged (status : ConnectStatus)
  | onNoResponse
  | onInitError
  deriving DecidableEq, Repr

/-- Which of the steps inside `ce_client_connect` succeed, if it comes to them. -/
structure ConnectSteps where
  socket : Bool
  connect : Bool
  ioAdd : Bool
  deriving DecidableEq, Repr

/-- The sockets of a process, each named by how many were opened before it. -/
structure SocketTable where
  opened : Nat
  stillOpen : List Nat
  deriving DecidableEq, Repr

/-- What a call of `ce_client_connect` leaves behind. -/
structure ConnectDone where
  sockets : SocketTable
  /-- The socket of the handle that is returned, or nothing for `NULL`. -/
  handle : Option Nat
  /-- What is written to `*result`, if anything is. -/
  result : Option CeConnectResult
  deriving DecidableEq, Repr

namespace SocketTable

/-- `socket`, when it succeeds. -/
def socket (sockets : SocketTable) : SocketTable × Nat :=
  ({ opened := sockets.opened + 1, stillOpen := sockets.stillOpen ++ [sockets.opened] },
    sockets.opened)

/-- `ce_sock_close`. -/
def ceSockClose (sockets : SocketTable) (fd : Nat) : SocketTable :=
  { sockets with stillOpen := sockets.stillOpen.filter (· ≠ fd) }

/--
`ce_client_connect`, when it returns, over a `ce_tp_create` that returns for some numbers of threads.

Its last wait, for the receive thread, is taken to end.
-/
def ceClientConnect (creates : Int → Bool) (sockets : SocketTable) (conf : CeConfArg)
    (steps : ConnectSteps) : Option ConnectDone :=
  match Cevent.ceClientConnect (some conf) true with
  -- A configuration that is refused leaves `*result` as it was.
  | none => some { sockets := sockets, handle := none, result := none }
  | some _ =>
    if !steps.socket then some { sockets := sockets, handle := none, result := some .socketError }
    else
      let (sockets, fd) := sockets.socket
      if !steps.connect then
        -- The client is freed here, and its socket is not closed.
        some { sockets := sockets, handle := none, result := some .serverNoResponse }
      -- `ce_io_new` creates its pool before `ce_io_add` is called.
      else if !creates conf.workers then none
      else if !steps.ioAdd then
        some { sockets := sockets.ceSockClose fd, handle := none, result := some .initError }
      -- The way that succeeds has no `*result = ce_connect_ok`.
      else some { sockets := sockets, handle := some fd, result := none }

end SocketTable

/-- The configuration that `ClientImpl::login` fills in. -/
def loginConf (ip : Fin 33 → UInt8) (port : Int) : CeConfArg where
  onAccept := true
  onReceived := true
  onException := true
  onClose := true
  perMaxPacketBodySize := 4096
  perCacheRingbufferSize := 1024 * 1024
  workers := 2
  -- What is copied beyond `conf.ip` lands in fields that are filled in afterwards.
  ip := fun place => ip (place.castLE (by decide))
  port := port
  timeout := 5
  keepalive := 10
  heartbeat := 60

/-- The `switch` of `ClientImpl::login`, which has no case for other values. -/
def reportResult : Option CeConnectResult → List ListenerCall
  | some .ok => [.onConnectChanged .connected]
  | some .serverNoResponse => [.onConnectChanged .disconnected, .onNoResponse]
  | some .initError | some .socketError => [.onInitError]
  | none => []

/-- A call of `ce_client_connect` in a login, and what the login told its listeners. -/
structure Attempt where
  handle : Option Nat
  result : Option CeConnectResult
  told : List ListenerCall
  deriving DecidableEq, Repr

/-- A `ClientImpl`, less what a login does not look at, with the sockets and attempts so far. -/
structure LoginSystem where
  ip : Fin 33 → UInt8
  session : Fin 33 → UInt8
  port : Int
  sockets : SocketTable
  attempts : List Attempt

/-- A call on a `ClientImpl`. -/
inductive LoginAction where
  | setServer (ip : Fin 33 → UInt8) (port : Int)
  | setSession (session : Fin 33 → UInt8)
  /--
  A login, with what its steps come to.

  Its variable `result` is not initialised, and may hold a value that is no enumerator.
  -/
  | login (garbage : Option CeConnectResult) (steps : ConnectSteps)

namespace LoginSystem

/-- `ClientImpl::ClientImpl`, which does not initialise its session. -/
def new (session : Fin 33 → UInt8) : LoginSystem where
  ip := fun _ => 0
  session := session
  port := 0
  sockets := { opened := 0, stillOpen := [] }
  attempts := []

/-- `ClientImpl::isAuthed`. -/
def isAuthed (_sys : LoginSystem) : Bool := false

/-- An ip and a session are stored. -/
def stored (sys : LoginSystem) : Bool := !(sys.ip 0 == 0 || sys.session 0 == 0)

/-- The call of `ce_client_connect` that a login makes. -/
def connectDone (creates : Int → Bool) (sys : LoginSystem) (steps : ConnectSteps) :
    Option ConnectDone :=
  sys.sockets.ceClientConnect creates (loginConf sys.ip sys.port) steps

/-- A client after an attempt that has come to its end. -/
def attempted (sys : LoginSystem) (garbage : Option CeConnectResult) (done : ConnectDone) :
    LoginSystem :=
  -- What is not written over is what the variable held.
  let result := done.result <|> garbage
  let attempt : Attempt :=
    { handle := done.handle
      result := done.result
      told := .onConnectChanged .connecting :: reportResult result }
  { sys with sockets := done.sockets, attempts := sys.attempts ++ [attempt] }

/-- `ClientImpl::login`, with the value it returns, when it does. -/
def login (creates : Int → Bool) (sys : LoginSystem) (garbage : Option CeConnectResult)
    (steps : ConnectSteps) : Option (LoginSystem × Bool) :=
  if sys.isAuthed then some (sys, true)
  else if !sys.stored then some (sys, false)
  else (sys.connectDone creates steps).map fun done => (sys.attempted garbage done, true)

end LoginSystem

/-- `ce_tp_create` returns when it has no thread to create, or one. -/
def ceTpCreateReturns (nthreads : Int) : Bool := nthreads ≤ 1

/-- For a pool that it does not return for, no run of its steps with those of its threads comes to its end. -/
theorem not_returned_of_ceTpCreateReturns {n : Nat} (never : ceTpCreateReturns n = false)
    {actions : List (CreationAction n)} {last : TpCreation n} {trace : List Empty}
    (ran : (creationMachine n).exec (TpCreation.init n) actions = some (last, trace)) :
    last.creator ≠ .returned := by
  have many : 2 ≤ n := by
    simp only [ceTpCreateReturns, decide_eq_false_iff_not] at never
    omega
  rcases create_never_returns many ran with place | place
  · simp [place]
  · simp [place]

/--
A client of the chat library, one call at a time, with what each login returns.

The library is taken over a `ce_tp_create` that returns for some numbers of threads; a login that waits
for another pool is never over.
-/
def loginMachine (creates : Int → Bool) : Machine LoginSystem LoginAction Bool where
  step sys
    | .setServer ip port => some ({ sys with ip := ip, port := port }, [])
    | .setSession session => some ({ sys with session := session }, [])
    | .login garbage steps =>
      (sys.login creates garbage steps).map fun (next, returned) => (next, [returned])

/-- The attempt has a result, which is `ce_connect_ok` just for a handle, and tells the truth of it. -/
structure Attempt.Truthful (attempt : Attempt) : Prop where
  written : attempt.result ≠ none
  ok : attempt.result = some .ok ↔ attempt.handle.isSome
  connected : .onConnectChanged .connected ∈ attempt.told ↔ attempt.handle.isSome

/-- All attempts were truthful, and the sockets still open are those of the handles returned. -/
structure LoginSystem.Sound (sys : LoginSystem) : Prop where
  truthful : ∀ attempt ∈ sys.attempts, attempt.Truthful
  sockets : ∀ fd, fd ∈ sys.sockets.stillOpen ↔ ∃ attempt ∈ sys.attempts, attempt.handle = some fd

/-- A login that comes to connect has a port, and fails at its socket or at `ce_io_add`. -/
def FailsCleanly (sys : LoginSystem) : LoginAction → Prop
  | .login _ steps => sys.stored = true → 0 < sys.port ∧
      (steps.socket = false ∨ (steps.connect = true ∧ steps.ioAdd = false))
  | _ => True

instance : ∀ sys action, Decidable (FailsCleanly sys action)
  | sys, .login _ steps => inferInstanceAs (Decidable (sys.stored = true → 0 < sys.port ∧
      (steps.socket = false ∨ (steps.connect = true ∧ steps.ioAdd = false))))
  | _, .setServer _ _ | _, .setSession _ => .isTrue trivial

/-- With an ip, the configuration of a login is refused for want of a port only. -/
theorem loginConf_refused {ip : Fin 33 → UInt8} (there : ip 0 ≠ 0) (port : Int) :
    (loginConf ip port).refused = decide (port ≤ 0) := by
  have first : ((loginConf ip port).ip 0 == 0) = false := beq_eq_false_iff_ne.mpr there
  have last : decide ((loginConf ip port).port ≤ 0) = decide (port ≤ 0) := rfl
  rw [CeConfArg.refused, first, last]
  -- All but the ip and the port are constants that pass.
  simp [loginConf]

namespace SocketTable

/-- No socket is open that was not opened yet. -/
def Fresh (sockets : SocketTable) : Prop := ∀ fd ∈ sockets.stillOpen, fd < sockets.opened

variable {sockets : SocketTable}

/-- A socket that is opened now is one more that is open, and none of those before. -/
theorem Fresh.socket (fresh : sockets.Fresh) : sockets.socket.1.Fresh ∧
    sockets.opened ∉ sockets.stillOpen ∧
    ∀ fd, fd ∈ sockets.socket.1.stillOpen ↔ fd ∈ sockets.stillOpen ∨ fd = sockets.opened := by
  have members : ∀ fd, fd ∈ sockets.socket.1.stillOpen ↔
      fd ∈ sockets.stillOpen ∨ fd = sockets.opened := by
    intro fd
    simp [SocketTable.socket]
  refine ⟨?_, fun there => Nat.lt_irrefl _ (fresh _ there), members⟩
  intro fd there
  show fd < sockets.opened + 1
  rcases (members fd).mp there with before | rfl
  · exact Nat.lt_succ_of_lt (fresh fd before)
  · exact Nat.lt_succ_self _

/-- Closing a socket leaves the others open. -/
theorem mem_ceSockClose {closed fd : Nat} :
    fd ∈ (sockets.ceSockClose closed).stillOpen ↔ fd ∈ sockets.stillOpen ∧ fd ≠ closed := by
  simp [ceSockClose]

/-- The ways through `ce_client_connect` with the configuration of a login, in the source's order. -/
theorem ceClientConnect_cases {creates : Int → Bool} (sockets : SocketTable)
    {ip : Fin 33 → UInt8} (there : ip 0 ≠ 0) (port : Int) (steps : ConnectSteps) {done : ConnectDone}
    (called : sockets.ceClientConnect creates (loginConf ip port) steps = some done) :
    (port ≤ 0 ∧ done = { sockets := sockets, handle := none, result := none }) ∨
    (0 < port ∧ steps.socket = false ∧
      done = { sockets := sockets, handle := none, result := some .socketError }) ∨
    (0 < port ∧ steps.socket = true ∧ steps.connect = false ∧
      done = { sockets := sockets.socket.1, handle := none, result := some .serverNoResponse }) ∨
    (0 < port ∧ steps.socket = true ∧ steps.connect = true ∧ steps.ioAdd = false ∧
      done = { sockets := sockets.socket.1.ceSockClose sockets.opened, handle := none,
               result := some .initError }) ∨
    (0 < port ∧ steps.socket = true ∧ steps.connect = true ∧ steps.ioAdd = true ∧
      done = { sockets := sockets.socket.1, handle := some sockets.opened, result := none }) := by
  have refused := loginConf_refused there port
  rcases Int.lt_or_le 0 port with positive | missing
  · have passed : (loginConf ip port).refused = false := by
      rw [refused, decide_eq_false_iff_not]
      omega
    have checked : Cevent.ceClientConnect (some (loginConf ip port)) true =
        some ((loginConf ip port).accepted passed) := by
      simp [Cevent.ceClientConnect, startupChecks, passed]
    simp only [ceClientConnect, checked] at called
    obtain ⟨socket, connect, ioAdd⟩ := steps
    -- A pool that is never created leaves no way through.
    cases creates (loginConf ip port).workers <;> cases socket <;> cases connect <;> cases ioAdd <;>
      simp_all [SocketTable.socket]
  · have stopped : Cevent.ceClientConnect (some (loginConf ip port)) true = none := by
      simp [Cevent.ceClientConnect, startupChecks, refused, missing]
    rw [ceClientConnect, stopped] at called
    exact .inl ⟨missing, (Option.some.inj called).symm⟩

end SocketTable

namespace LoginSystem

variable {sys : LoginSystem}

/-- One more attempt keeps a client sound just when it is truthful and keeps its own socket alone. -/
theorem Sound.attempt_iff (sound : sys.Sound) (sockets : SocketTable) (attempt : Attempt) :
    Sound { sys with sockets := sockets, attempts := sys.attempts ++ [attempt] } ↔
      attempt.Truthful ∧ ∀ fd, fd ∈ sockets.stillOpen ↔
        fd ∈ sys.sockets.stillOpen ∨ attempt.handle = some fd := by
  -- The handles are those from before, and the one of this attempt.
  have handles : ∀ fd, (∃ other ∈ sys.attempts ++ [attempt], other.handle = some fd) ↔
      fd ∈ sys.sockets.stillOpen ∨ attempt.handle = some fd := by
    intro fd
    rw [sound.sockets fd]
    simp only [List.mem_append, List.mem_singleton, or_and_right, exists_or, exists_eq_left]
  constructor
  · intro after
    refine ⟨after.truthful attempt (List.mem_append_right _ (List.mem_singleton_self _)), ?_⟩
    intro fd
    exact (after.sockets fd).trans (handles fd)
  · rintro ⟨truthful, kept⟩
    refine ⟨?_, fun fd => (kept fd).trans (handles fd).symm⟩
    intro other member
    rcases List.mem_append.mp member with before | now
    · exact sound.truthful other before
    · rw [List.mem_singleton.mp now]
      exact truthful

/-- A stored ip is not empty. -/
theorem ip_of_stored (there : sys.stored = true) : sys.ip 0 ≠ 0 := by
  simp only [stored, Bool.not_eq_true', Bool.or_eq_false_iff] at there
  exact beq_eq_false_iff_ne.mp there.1

/-- A login that returns does nothing without a stored ip and session, and else makes one attempt. -/
theorem login_cases {creates : Int → Bool} {garbage : Option CeConnectResult} {steps : ConnectSteps}
    {next : LoginSystem} {returned : Bool}
    (made : sys.login creates garbage steps = some (next, returned)) :
    (sys.stored = false ∧ next = sys) ∨ (sys.stored = true ∧
      ∃ done, sys.connectDone creates steps = some done ∧ next = sys.attempted garbage done) := by
  unfold login isAuthed at made
  cases there : sys.stored with
  | false =>
    simp only [there] at made
    cases made
    exact .inl ⟨rfl, rfl⟩
  | true =>
    simp only [there] at made
    obtain ⟨done, called, same⟩ := Option.map_eq_some_iff.mp made
    cases same
    exact .inr ⟨rfl, done, called, rfl⟩

/-- An attempt that writes no result is not truthful. -/
theorem not_truthful_of_unwritten {attempt : Attempt} (unwritten : attempt.result = none) :
    ¬ attempt.Truthful := by
  intro truthful
  exact truthful.written unwritten

/-- A login that returns keeps a client sound just when it fails cleanly, if it comes to connect. -/
theorem Sound.login_iff (sound : sys.Sound) (fresh : sys.sockets.Fresh) {creates : Int → Bool}
    {garbage : Option CeConnectResult} {steps : ConnectSteps} {next : LoginSystem} {returned : Bool}
    (made : sys.login creates garbage steps = some (next, returned)) :
    next.Sound ↔ FailsCleanly sys (.login garbage steps) := by
  obtain ⟨-, unopened, opens⟩ := fresh.socket
  rcases login_cases made with ⟨there, rfl⟩ | ⟨there, done, called, rfl⟩
  · exact iff_of_true sound fun stored => absurd (there.symm.trans stored) (by decide)
  · have condition : FailsCleanly sys (.login garbage steps) ↔ 0 < sys.port ∧
        (steps.socket = false ∨ (steps.connect = true ∧ steps.ioAdd = false)) :=
      forall_prop_of_true there
    rw [condition, attempted, sound.attempt_iff]
    rcases SocketTable.ceClientConnect_cases sys.sockets (ip_of_stored there) sys.port steps called with
      ⟨missing, rfl⟩ | ⟨port, socket, rfl⟩ | ⟨port, socket, connect, rfl⟩ |
        ⟨port, socket, connect, ioAdd, rfl⟩ | ⟨port, socket, connect, ioAdd, rfl⟩
    · -- The configuration is refused, and nothing was written.
      refine iff_of_false (fun both => not_truthful_of_unwritten rfl both.1) ?_
      rintro ⟨port, -⟩
      omega
    · refine iff_of_true ⟨⟨by simp, by simp, by simp [reportResult]⟩, by simp⟩ ⟨port, .inl socket⟩
    · -- The socket of a connection that failed is open, and belongs to no handle.
      refine iff_of_false ?_ ?_
      · rintro ⟨-, kept⟩
        have leaked := (kept sys.sockets.opened).mp ((opens _).mpr (.inr rfl))
        exact unopened (leaked.resolve_right (by simp))
      · rintro ⟨-, failed | ⟨connected, -⟩⟩
        · simp [socket] at failed
        · simp [connect] at connected
    · refine iff_of_true ⟨⟨by simp, by simp, by simp [reportResult]⟩, ?_⟩
        ⟨port, .inr ⟨connect, ioAdd⟩⟩
      intro fd
      rw [SocketTable.mem_ceSockClose, opens]
      -- The one socket that was opened is the one that is closed.
      constructor
      · rintro ⟨before | same, other⟩
        · exact .inl before
        · exact absurd same other
      · intro before
        have before := before.resolve_right (by simp)
        exact ⟨.inl before, fun same => unopened (same ▸ before)⟩
    · -- A handle is returned, and no result was written for it.
      refine iff_of_false (fun both => not_truthful_of_unwritten rfl both.1) ?_
      rintro ⟨-, failed | ⟨-, failed⟩⟩
      · simp [socket] at failed
      · simp [ioAdd] at failed

/-- A login opens sockets under new names only. -/
theorem login_fresh (fresh : sys.sockets.Fresh) {creates : Int → Bool}
    {garbage : Option CeConnectResult} {steps : ConnectSteps} {next : LoginSystem} {returned : Bool}
    (made : sys.login creates garbage steps = some (next, returned)) : next.sockets.Fresh := by
  obtain ⟨fresh', -⟩ := fresh.socket
  rcases login_cases made with ⟨-, rfl⟩ | ⟨there, done, called, rfl⟩
  · exact fresh
  · rw [attempted]
    rcases SocketTable.ceClientConnect_cases sys.sockets (ip_of_stored there) sys.port steps called with
      ⟨-, rfl⟩ | ⟨-, -, rfl⟩ | ⟨-, -, -, rfl⟩ | ⟨-, -, -, -, rfl⟩ | ⟨-, -, -, -, rfl⟩
    · exact fresh
    · exact fresh
    · exact fresh'
    · exact fun fd there => fresh' fd (SocketTable.mem_ceSockClose.mp there).1
    · exact fresh'

end LoginSystem

/--
Along a run of a client all attempts are truthful and leak nothing just when each fails cleanly.

A login without a stored ip or session makes no attempt. It is so whichever pools `ce_tp_create` returns
for: when none of two threads is ever created, no attempt comes as far as `ce_io_add`.
-/
theorem logins_sound_iff (creates : Int → Bool) (session : Fin 33 → UInt8)
    (actions : List LoginAction) (last : LoginSystem) (returned : List Bool)
    (ran : (loginMachine creates).exec (.new session) actions = some (last, returned)) :
    (loginMachine creates).Along LoginSystem.Sound (.new session) actions ↔
      (loginMachine creates).Meets FailsCleanly (.new session) actions := by
  refine (loginMachine creates).exec_along_iff_meets (·.sockets.Fresh) LoginSystem.Sound ?_ ?_ ?_ ?_ ran
  · exact fun _ there => absurd there List.not_mem_nil
  · exact ⟨fun _ there => absurd there List.not_mem_nil, fun fd => by simp [LoginSystem.new]⟩
  · -- A socket that is opened is one that was not open, whatever comes of the login.
    intro sys action next events fresh taken
    cases action with
    | setServer | setSession =>
      obtain ⟨rfl, -⟩ := Prod.mk.inj (Option.some.inj taken)
      exact fresh
    | login garbage steps =>
      obtain ⟨_, made, same⟩ := Option.map_eq_some_iff.mp taken
      cases same
      exact LoginSystem.login_fresh fresh made
  · -- Only a login adds an attempt, and it keeps soundness just when it fails cleanly.
    intro sys action next events fresh sound taken
    cases action with
    | setServer | setSession =>
      obtain ⟨rfl, -⟩ := Prod.mk.inj (Option.some.inj taken)
      exact iff_of_true ⟨sound.truthful, sound.sockets⟩ trivial
    | login garbage steps =>
      obtain ⟨_, made, same⟩ := Option.map_eq_some_iff.mp taken
      cases same
      exact sound.login_iff fresh made

/-- An ip and a session are stored, and then logins are made. -/
def loginsWith (port : Int) (logins : List ConnectSteps) : List LoginAction :=
  .setServer (fun _ => 49) port :: .setSession (fun _ => 49) ::
    logins.map (.login (some .initError))

/-- With every pool created, two attempts fail: one for want of a socket and one in `ce_io_add`. -/
theorem logins_sound_failing :
    (loginMachine fun _ => true).Along LoginSystem.Sound (.new fun _ => 0)
      (loginsWith 80 [⟨false, true, true⟩, ⟨true, true, false⟩]) :=
  (logins_sound_iff _ _ _ _ _ (show _ = some (_, _) from rfl)).mpr (by decide)

/-- An attempt without an answer leaks its socket, and one without a port writes no result. -/
theorem not_logins_sound_no_answer : ∃ last,
    (loginMachine ceTpCreateReturns).exec (.new fun _ => 0)
      (loginsWith 80 [⟨true, false, true⟩] ++ loginsWith 0 [⟨true, true, true⟩]) =
      some (last, [true, true]) ∧
    last.attempts = [⟨none, some .serverNoResponse, [.onConnectChanged .connecting,
        .onConnectChanged .disconnected, .onNoResponse]⟩,
      ⟨none, none, [.onConnectChanged .connecting, .onInitError]⟩] ∧
    last.sockets.stillOpen = [0] ∧
    ¬ (loginMachine ceTpCreateReturns).Along LoginSystem.Sound (.new fun _ => 0)
      (loginsWith 80 [⟨true, false, true⟩] ++ loginsWith 0 [⟨true, true, true⟩]) := by
  refine ⟨_, rfl, rfl, rfl, ?_⟩
  intro along
  -- The socket of the first attempt is open, and no handle was returned.
  obtain ⟨attempt, made, handle⟩ := ((along.last rfl).sockets 0).mp (by decide)
  rcases List.mem_pair.mp made with rfl | rfl <;> cases handle

/-- If the pool of a login were created, an attempt that obtains a handle would be reported as an error. -/
theorem not_logins_sound_success : ∃ last,
    (loginMachine fun _ => true).exec (.new fun _ => 0) (loginsWith 80 [⟨true, true, true⟩]) =
      some (last, [true]) ∧
    last.attempts = [⟨some 0, none, [.onConnectChanged .connecting, .onInitError]⟩] ∧
    ¬ (loginMachine fun _ => true).Along LoginSystem.Sound (.new fun _ => 0)
      (loginsWith 80 [⟨true, true, true⟩]) := by
  refine ⟨_, rfl, rfl, ?_⟩
  intro along
  -- The attempt has a handle, and no result was written.
  have truthful := (along.last rfl).truthful _ (List.mem_cons_self ..)
  exact truthful.written rfl

end Cevent
