import Cevent.Io.Workers

/-! When no record is freed while an event or a processor still refers to it. -/

namespace Cevent

open Interleaving

namespace CeIo

/-- The records that the registry holds. -/
def registered (io : CeIo) : List RecordId := io.ioDict.entries.map (·.val)

/-- A pointer to the record waits in one of the event rings. -/
def Pending (io : CeIo) (record : RecordId) : Prop :=
  record ∈ io.enqueueFdEvent.queued ∨ record ∈ io.pushFdEvent.queued

/-- The record was allocated, and a delete job has freed it. -/
def Freed (io : CeIo) (record : RecordId) : Prop :=
  record < io.allocated ∧ io.records record = none

/-- A record that is found is registered. -/
theorem mem_registered {io : CeIo} {fd : Int} {record : RecordId} {ioFd : CeIoFd}
    (found : io.findIoFd fd = some (record, ioFd)) : record ∈ io.registered := by
  -- The lookup has gone through an entry of the registry.
  obtain ⟨entry, inDict, rfl, -⟩ := findIoFd_eq_some_iff.mp found
  exact List.mem_map_of_mem (dictFind_some inDict).1

end CeIo

/-- A processor has popped the record and is not finished with it. -/
def Visited {n : Nat} (pcs : Fin n → WorkerPc) (record : RecordId) : Prop :=
  ∃ worker, (pcs worker).visits = some record

/-- No record that is pending or visited is freed. -/
def IoSystem.NoDangling {n : Nat} (sys : IoSystem n) : Prop :=
  -- Either of the two would follow the pointer later on.
  ∀ record, sys.io.Pending record ∨ Visited sys.pcs record → ¬ sys.io.Freed record

/--
A delete job that starts finds its record out of use.

No pointer to the record is pending, and no processor has popped it without having locked it.
-/
def DeletesUnused {n : Nat} (sys : IoSystem n) : IoAction n → Prop
  | .call _ => True
  | .work worker _ => ∀ record ∈ (sys.pcs worker).startsDeleting,
      ¬ sys.io.Pending record ∧ ∀ other, (sys.pcs other).awaits ≠ some record

instance (io : CeIo) (record : RecordId) : Decidable (io.Pending record) :=
  inferInstanceAs (Decidable (_ ∨ _))

instance {n : Nat} (sys : IoSystem n) : (action : IoAction n) → Decidable (DeletesUnused sys action)
  | .call _ => isTrue trivial
  | .work _ _ => inferInstanceAs (Decidable (∀ _ ∈ _, _))

/-- What keeps every record alive that something still refers to. -/
structure LifetimeInv {n : Nat} (io : CeIo) (pcs : Fin n → WorkerPc) : Prop where
  allocated : ∀ record ∈ io.registered, record < io.allocated
  distinct : io.registered.Nodup
  /-- A record that is to be deleted is registered no more. -/
  jobs : ∀ record, .deleteProcessor record ∈ io.workers.workerQueue →
    record < io.allocated ∧ record ∉ io.registered
  stages : ∀ worker stage record, pcs worker = .deleting stage record →
    record < io.allocated ∧ record ∉ io.registered
  /-- Past its first step, a delete job shares its record with push processors in their lock at most. -/
  unused : ∀ worker stage record, pcs worker = .deleting stage record → stage ≠ .enqueueBuffer →
    ¬ io.Pending record ∧ ∀ other, (pcs other).visits = some record →
      stage = .pushBuffer ∧ (pcs other).holds .push record = true
  freed : ∀ record, io.Freed record →
    record ∉ io.registered ∧ ¬ io.Pending record ∧ ¬ Visited pcs record

namespace LifetimeInv

variable {n : Nat} {io : CeIo} {pcs : Fin n → WorkerPc}

/-- A new io with idle workers refers to nothing. -/
theorem new (n : Nat) (host : ByteOrder) (type : DictType Int) (conf : CeConf) :
    LifetimeInv (ceIoNew host type conf) (IoSystem.atRest n (ceIoNew host type conf)).pcs where
  allocated := by simp [CeIo.registered, ceIoNew, dictCreate]
  distinct := .nil
  jobs := by simp [ceIoNew]
  stages := by simp [IoSystem.atRest]
  unused := by simp [IoSystem.atRest]
  freed := by simp [CeIo.Freed, ceIoNew]

/-- Nothing refers to a freed record. -/
theorem noDangling {sys : IoSystem n} (inv : LifetimeInv sys.io sys.pcs) : sys.NoDangling := by
  intro record referred freed
  obtain ⟨-, unqueued, unvisited⟩ := inv.freed record freed
  exact referred.elim unqueued unvisited

variable (inv : LifetimeInv io pcs)

include inv

/-- A write queues a registered record, and those are neither deleted nor freed. -/
theorem writes {fd : Int} {next : CeIo} (writes : io.Writes fd next) : LifetimeInv next pcs := by
  have same : next.registered = io.registered := by
    rw [CeIo.registered, writes.ioDict]
    rfl
  obtain ⟨more, queued, found⟩ := writes.events
  obtain ⟨items, queue, processors⟩ := writes.jobs
  -- Whatever is pending now was pending before, or is registered.
  have pending : ∀ record, next.Pending record → io.Pending record ∨ record ∈ io.registered := by
    intro record
    rw [CeIo.Pending, queued, writes.pushFdEvent, List.mem_append]
    rintro ((early | now) | push)
    · exact .inl (.inl early)
    · obtain ⟨ioFd, found⟩ := found record now
      exact .inr (CeIo.mem_registered found)
    · exact .inl (.inr push)
  -- The jobs that a write adds are about no record, and no record loses its content.
  refine ⟨?_, same ▸ inv.distinct, ?_, ?_, ?_, ?_⟩
  · rw [same, writes.allocated]
    exact inv.allocated
  · intro record inside
    rw [same, writes.allocated]
    rw [queue, List.mem_append] at inside
    exact inv.jobs record (inside.resolve_right fun now => by cases processors _ now)
  · rw [same, writes.allocated]
    exact inv.stages
  · intro worker stage record place late
    obtain ⟨idle, visits⟩ := inv.unused worker stage record place late
    exact ⟨fun now => (pending record now).elim idle (inv.stages worker stage record place).2, visits⟩
  · intro record freed
    -- A record that is freed after the write was so before it.
    have old : io.Freed record := by
      rw [CeIo.Freed, writes.allocated] at freed
      rcases writes.records record with kept | ⟨ioFd, buffer, -, filled⟩
      · exact ⟨freed.1, kept ▸ freed.2⟩
      · exact absurd (filled.symm.trans freed.2) (by simp)
    obtain ⟨gone, idle, unvisited⟩ := inv.freed record old
    exact ⟨same ▸ gone, fun now => (pending record now).elim idle gone, unvisited⟩

/-- An added record is new, so nothing refers to it. -/
theorem added (fd : Int) : LifetimeInv (io.withAdded fd) pcs := by
  have same : (io.withAdded fd).registered = io.registered ++ [io.allocated] := by
    simp [CeIo.registered, CeIo.withAdded, CeIo.setRecord]
  have grown : ∀ {record}, record < io.allocated → record < (io.withAdded fd).allocated :=
    fun below => Nat.lt_succ_of_lt below
  -- A record that is gone stays so, as the new one has a higher number.
  have old : ∀ {record}, record < io.allocated → record ∉ io.registered →
      record ∉ (io.withAdded fd).registered := by
    intro record below gone
    rw [same, List.mem_append, List.mem_singleton]
    rintro (inside | new)
    · exact gone inside
    · exact Nat.ne_of_lt below new
  refine ⟨?_, ?_, ?_, ?_, inv.unused, ?_⟩
  · intro record inside
    rw [same, List.mem_append, List.mem_singleton] at inside
    rcases inside with early | rfl
    · exact grown (inv.allocated record early)
    · exact Nat.lt_succ_self _
  · rw [same]
    -- All registered records are older than the new one.
    apply inv.distinct.append (List.nodup_singleton _)
    intro record early new
    exact Nat.ne_of_lt (inv.allocated record early) (List.mem_singleton.mp new)
  · intro record inside
    obtain ⟨below, gone⟩ := inv.jobs record inside
    exact ⟨grown below, old below gone⟩
  · intro worker stage record place
    obtain ⟨below, gone⟩ := inv.stages worker stage record place
    exact ⟨grown below, old below gone⟩
  · intro record freed
    -- The new record has content, so a freed record is an old one.
    have apart : record ≠ io.allocated := by
      rintro rfl
      exact absurd freed.2 (by simp)
    have below : record < io.allocated := Nat.lt_of_le_of_ne (Nat.lt_succ_iff.mp freed.1) apart
    have content : io.records record = none := by
      have none_ := freed.2
      simpa [apart] using none_
    obtain ⟨gone, idle, unvisited⟩ := inv.freed record ⟨below, content⟩
    exact ⟨old below gone, idle, unvisited⟩

/-- A deleted entry's record is registered no more when its delete job is handed to the pool. -/
theorem deleted {entry : DictEntry Int RecordId} {before after : List (DictEntry Int RecordId)}
    (split : io.ioDict.entries = before ++ entry :: after) :
    LifetimeInv (io.withDeleted entry (before ++ after)) pcs := by
  -- The records are those before and those after the one of the entry.
  have left : (io.withDeleted entry (before ++ after)).registered =
      before.map (·.val) ++ after.map (·.val) := by
    simp [CeIo.registered, CeIo.withDeleted]
  have whole : io.registered = before.map (·.val) ++ entry.val :: after.map (·.val) := by
    simp [CeIo.registered, split]
  have nodup := inv.distinct
  rw [whole, List.nodup_middle, List.nodup_cons] at nodup
  -- What is registered afterwards was registered before.
  have kept : ∀ {record}, record ∉ io.registered →
      record ∉ (io.withDeleted entry (before ++ after)).registered := by
    intro record gone inside
    apply gone
    rw [left] at inside
    rw [whole]
    rcases List.mem_append.mp inside with early | late
    · exact List.mem_append_left _ early
    · exact List.mem_append_right _ (List.mem_cons_of_mem _ late)
  refine ⟨?_, left ▸ nodup.2, ?_, ?_, inv.unused, ?_⟩
  · intro record inside
    rw [left] at inside
    apply inv.allocated record
    rw [whole]
    rcases List.mem_append.mp inside with early | late
    · exact List.mem_append_left _ early
    · exact List.mem_append_right _ (List.mem_cons_of_mem _ late)
  · intro record inside
    -- The delete jobs are the old ones and the one for this record, if the pool takes it.
    have known : .deleteProcessor record ∈ io.workers.workerQueue ∨ record = entry.val := by
      simp only [CeIo.withDeleted, ceTpWorkerRegister] at inside
      split at inside
      · exact .inl inside
      · simpa using inside
    rcases known with early | rfl
    · obtain ⟨below, gone⟩ := inv.jobs record early
      exact ⟨below, kept gone⟩
    · -- The records are distinct, so this one does not stand among the others.
      refine ⟨inv.allocated entry.val ?_, left ▸ nodup.1⟩
      rw [whole]
      exact List.mem_append_right _ List.mem_cons_self
  · intro worker stage record place
    obtain ⟨below, gone⟩ := inv.stages worker stage record place
    exact ⟨below, kept gone⟩
  · intro record freed
    obtain ⟨gone, idle, unvisited⟩ := inv.freed record freed
    exact ⟨kept gone, idle, unvisited⟩

/-- `ce_io_del` keeps every record that is referred to. -/
theorem del (fd : Int) : LifetimeInv (ceIoDel io fd).1 pcs := by
  rcases ceIoDel_cases io fd with ⟨-, refused⟩ | ⟨-, -, entry, before, after, -, split, gone⟩
  · rw [refused]
    exact inv
  · rw [gone]
    exact inv.deleted split

/-- So does every call. -/
theorem call (api : IoApi) : LifetimeInv (ioCall io api).1 pcs := by
  cases api with
  | add fd =>
    rcases ceIoAdd_cases io fd with ⟨-, refused⟩ | ⟨-, -, added⟩
    · simpa only [ioCall, refused] using inv
    · simpa only [ioCall, added] using inv.added fd
  | enqueue fd arg => exact inv.writes (ceIoEnqueue_writes io fd arg)
  | push pushType fd arg => exact inv.writes (ceIoPush_writes io pushType fd arg)
  | del fd => exact inv.del fd

/-- New content for a record that is not freed changes nothing about who refers to it. -/
theorem setRecord {record : RecordId} {ioFd : CeIoFd} (held : io.records record = some ioFd)
    (next : CeIoFd) : LifetimeInv (io.setRecord record next) pcs := by
  refine ⟨inv.allocated, inv.distinct, inv.jobs, inv.stages, inv.unused, ?_⟩
  intro other freed
  -- The record was not freed and is not now.
  have apart : other ≠ record := by
    rintro rfl
    exact absurd freed.2 (by simp)
  rw [CeIo.Freed, CeIo.records_setRecord_of_ne _ _ apart] at freed
  exact inv.freed other freed

/-- The loop of a processor keeps every record that is referred to. -/
theorem afterLoop {record : RecordId} {ioFd : CeIoFd} (held : io.records record = some ioFd)
    (done : BoundedLoop.Pass CeIoFd IoCall LoopExit) : LifetimeInv (io.afterLoop record done) pcs := by
  -- The record gets its new content first, and its fd may be deleted then.
  unfold CeIo.afterLoop
  split
  · exact (inv.setRecord held done.state).del _
  · exact inv.setRecord held done.state

/-- Fewer pointers and fewer jobs refer to no more records. -/
theorem fewer {next : CeIo} (same : next.registered = io.registered)
    (allocated : next.allocated = io.allocated) (records : next.records = io.records)
    (pending : ∀ record, next.Pending record → io.Pending record)
    (jobs : ∀ item ∈ next.workers.workerQueue, item ∈ io.workers.workerQueue) :
    LifetimeInv next pcs where
  allocated := by rw [same, allocated]; exact inv.allocated
  distinct := same ▸ inv.distinct
  jobs := by
    intro record inside
    rw [same, allocated]
    exact inv.jobs record (jobs _ inside)
  stages := by rw [same, allocated]; exact inv.stages
  -- What was not pending before is not pending now.
  unused := by
    intro worker stage record place late
    obtain ⟨idle, visits⟩ := inv.unused worker stage record place late
    exact ⟨fun now => idle (pending record now), visits⟩
  freed := by
    intro record freed
    rw [CeIo.Freed, allocated, records] at freed
    obtain ⟨gone, idle, unvisited⟩ := inv.freed record freed
    exact ⟨same ▸ gone, fun now => idle (pending record now), unvisited⟩

/--
A worker may move on to a place where it visits a pending record, or the one it already visits.

In a delete job it may move on once its record is out of use as that stage requires.
-/
theorem goto (worker : Fin n) (pc : WorkerPc)
    (visits : ∀ record, pc.visits = some record → io.Pending record ∨
      (pcs worker).visits = some record ∧
        ((pcs worker).holds .push record = true → pc.holds .push record = true))
    (deletes : ∀ stage record, pc = .deleting stage record →
      record < io.allocated ∧ record ∉ io.registered ∧ (stage ≠ .enqueueBuffer →
        ¬ io.Pending record ∧ ∀ other, other ≠ worker → (pcs other).visits = some record →
          stage = .pushBuffer ∧ (pcs other).holds .push record = true)) :
    LifetimeInv io (Function.update pcs worker pc) where
  allocated := inv.allocated
  distinct := inv.distinct
  jobs := inv.jobs
  stages := by
    -- A worker in a delete job was there before, or has just come there.
    intro other stage record place
    rw [Function.update_apply] at place
    split at place
    · obtain ⟨below, gone, -⟩ := deletes stage record place
      exact ⟨below, gone⟩
    · exact inv.stages other stage record place
  unused := by
    intro other stage record place late
    rw [Function.update_apply] at place
    split at place
    · -- The worker that moves comes to the stage itself.
      obtain ⟨-, -, unused⟩ := deletes stage record place
      obtain ⟨idle, others⟩ := unused late
      refine ⟨idle, ?_⟩
      intro visitor visiting
      rw [Function.update_apply] at visiting ⊢
      split at visiting
      · rw [place] at visiting
        cases visiting
      · rename_i apart
        rw [if_neg apart]
        exact others visitor apart visiting
    · -- Another worker is at the stage, and this one may visit its record.
      obtain ⟨idle, others⟩ := inv.unused other stage record place late
      refine ⟨idle, ?_⟩
      intro visitor visiting
      rw [Function.update_apply] at visiting ⊢
      split at visiting
      · rename_i same
        rw [if_pos same]
        -- A pending record is not at that stage, and a visitor keeps the push lock.
        rcases visits record visiting with pending | ⟨before, holds⟩
        · exact absurd pending idle
        · obtain ⟨early, held⟩ := others worker before
          exact ⟨early, holds held⟩
      · rename_i apart
        rw [if_neg apart]
        exact others visitor visiting
  freed := by
    intro record freed
    obtain ⟨gone, idle, unvisited⟩ := inv.freed record freed
    refine ⟨gone, idle, ?_⟩
    -- A freed record is neither pending nor visited, so nobody comes to visit it.
    rintro ⟨visitor, visiting⟩
    rw [Function.update_apply] at visiting
    split at visiting
    · rcases visits record visiting with pending | ⟨before, -⟩
      · exact idle pending
      · exact unvisited ⟨worker, before⟩
    · exact unvisited ⟨visitor, visiting⟩

/-- A worker may always move on to a place where it visits no record and deletes none. -/
theorem rests (worker : Fin n) {pc : WorkerPc} (free : pc.visits = none)
    (plain : ∀ stage record, pc ≠ .deleting stage record) :
    LifetimeInv io (Function.update pcs worker pc) := by
  refine inv.goto worker pc ?_ ?_
  · intro record visiting
    rw [free] at visiting
    cases visiting
  · intro stage record place
    exact absurd place (plain stage record)

/-- A worker may go on with the record that it visits, if it does not give up the push lock. -/
theorem staysWith (worker : Fin n) {pc : WorkerPc} {record : RecordId}
    (before : (pcs worker).visits = some record) (now : pc.visits = some record)
    (keeps : (pcs worker).holds .push record = true → pc.holds .push record = true) :
    LifetimeInv io (Function.update pcs worker pc) := by
  refine inv.goto worker pc ?_ ?_
  · intro other visiting
    obtain rfl : record = other := Option.some.inj (now.symm.trans visiting)
    exact .inr ⟨before, keeps⟩
  · -- A worker in a delete job visits nothing.
    intro stage other place
    rw [place] at now
    cases now

/-- A delete job may go on when its record is out of use as the next stage requires. -/
theorem deletes (worker : Fin n) {stage next : DeleteStage} {record : RecordId}
    (place : pcs worker = .deleting stage record) (idle : ¬ io.Pending record)
    (visits : ∀ other, (pcs other).visits = some record →
      next = .pushBuffer ∧ (pcs other).holds .push record = true) :
    LifetimeInv io (Function.update pcs worker (.deleting next record)) := by
  obtain ⟨below, gone⟩ := inv.stages worker stage record place
  refine inv.goto worker _ (by intro other visiting; cases visiting) ?_
  intro stage' other starts
  cases starts
  exact ⟨below, gone, fun _ => ⟨idle, fun visitor _ visiting => visits visitor visiting⟩⟩

/-- A ring buffer of a record may be freed. -/
theorem freeRing (ring : RbOwner) : LifetimeInv (io.freeRing ring) pcs :=
  inv.fewer rfl rfl rfl (fun _ pending => pending) (fun _ inside => inside)

/-- A record that nothing refers to may be freed. -/
theorem free {record : RecordId} (gone : record ∉ io.registered) (idle : ¬ io.Pending record)
    (unvisited : ¬ Visited pcs record) :
    LifetimeInv { io with records := Function.update io.records record none } pcs where
  allocated := inv.allocated
  distinct := inv.distinct
  jobs := inv.jobs
  stages := inv.stages
  unused := inv.unused
  freed := by
    intro other freed
    -- The record that is freed is the one that nothing refers to.
    by_cases same : other = record
    · rw [same]
      exact ⟨gone, idle, unvisited⟩
    · have content := freed.2
      simp only [Function.update_of_ne same] at content
      exact inv.freed other ⟨freed.1, content⟩

omit inv in
/-- A popped record was pending, and whatever is still pending was so before. -/
theorem popped {events : FdEvent} {record : RecordId} {ring : EventRing}
    (first : (io.events events).pop = some (record, ring)) :
    io.Pending record ∧
      ∀ other, (io.setEvents ring events).Pending other → io.Pending other := by
  -- The record was the first of the ring.
  have queue : (io.events events).queued = record :: ring.queued := by
    unfold EventRing.pop at first
    split at first
    · cases first
    · rename_i waiting
      cases first
      exact waiting
  cases events with
  | enqueue =>
    have queue : io.enqueueFdEvent.queued = record :: ring.queued := queue
    refine ⟨.inl (by simp [queue]), ?_⟩
    rintro other (enqueued | pushed)
    · exact .inl (queue ▸ List.mem_cons_of_mem _ enqueued)
    · exact .inr pushed
  | push =>
    have queue : io.pushFdEvent.queued = record :: ring.queued := queue
    refine ⟨.inr (by simp [queue]), ?_⟩
    rintro other (enqueued | pushed)
    · exact .inl enqueued
    · exact .inr (queue ▸ List.mem_cons_of_mem _ pushed)

/-- A worker that takes a job visits nothing yet, and a delete job is about a record that is gone. -/
theorem takes (worker : Fin n) {item : WorkItem} {others : List WorkItem}
    (first : io.workers.workerQueue = item :: others) :
    LifetimeInv { io with workers := { io.workers with workerQueue := others } }
      (Function.update pcs worker item.start) := by
  have started : LifetimeInv io (Function.update pcs worker item.start) := by
    -- A job that deletes refers to a record that no entry leads to.
    cases item with
    | enqueueProcessor | pushProcessor =>
      exact inv.rests worker rfl (by intro stage record; exact WorkerPc.noConfusion)
    | deleteProcessor record =>
      obtain ⟨below, gone⟩ := inv.jobs record (by simp [first])
      refine inv.goto worker _ (by intro other visiting; cases visiting) ?_
      intro stage other starts
      cases starts
      exact ⟨below, gone, fun late => absurd rfl late⟩
  refine started.fewer rfl rfl rfl (fun _ pending => pending) ?_
  intro other inside
  rw [first]
  exact List.mem_cons_of_mem _ inside

/-- A worker that pops a record visits what was pending. -/
theorem pops (worker : Fin n) (processor : Processor) {events : FdEvent} {record : RecordId}
    {ring : EventRing} (first : (io.events events).pop = some (record, ring)) :
    LifetimeInv (io.setEvents ring events)
      (Function.update pcs worker (.popped processor record)) := by
  obtain ⟨pending, left⟩ := popped first
  have visiting : LifetimeInv io (Function.update pcs worker (.popped processor record)) := by
    refine inv.goto worker _ ?_ (by intro stage other starts; cases starts)
    intro other visits
    cases visits
    exact .inl pending
  -- The ring that was popped from holds one pointer less, and all else is as it was.
  cases events with
  | enqueue => exact visiting.fewer rfl rfl rfl left (fun _ inside => inside)
  | push => exact visiting.fewer rfl rfl rfl left (fun _ inside => inside)

/-- Behind both locks of a record, its delete job is the only one that knows it. -/
theorem frees (worker : Fin n) {record : RecordId} (place : pcs worker = .deleting .record record) :
    LifetimeInv { io with records := Function.update io.records record none }
      (Function.update pcs worker .idle) := by
  obtain ⟨idle, visits⟩ := inv.unused worker _ record place (by decide)
  obtain ⟨-, gone⟩ := inv.stages worker _ record place
  have left : LifetimeInv io (Function.update pcs worker .idle) :=
    inv.rests worker rfl (by intro stage other; exact WorkerPc.noConfusion)
  refine left.free gone idle ?_
  rintro ⟨visitor, visiting⟩
  rw [Function.update_apply] at visiting
  split at visiting
  · cases visiting
  · -- A visitor would be one of the push buffer's stage, which is over.
    cases (visits visitor visiting).1

omit inv in
/-- Every step keeps the records that are referred to, when delete jobs start on unused ones. -/
theorem step {drains : Processor → FdEvent} {sys next : IoSystem n} {action : IoAction n}
    {events : List IoEvent} (inv : LifetimeInv sys.io sys.pcs) (unused : DeletesUnused sys action)
    (taken : (ioMachine n drains).step sys action = some (next, events)) :
    LifetimeInv next.io next.pcs := by
  cases action with
  | call api =>
    obtain ⟨rfl, -⟩ := ioMachine_call taken
    exact inv.call api
  | work worker send =>
    cases IoSystem.work_move taken with
    | take item others place first => exact inv.takes worker first
    | pop processor record ring place first => exact inv.pops worker processor first
    | leave | unlock =>
      exact inv.rests worker rfl (by intro stage record; exact WorkerPc.noConfusion)
    | lock processor record place free =>
      refine inv.staysWith worker (by rw [place]; rfl) rfl ?_
      intro held
      rw [place] at held
      cases held
    | loop processor record ioFd place held =>
      refine (inv.afterLoop held _).staysWith worker (by rw [place]; rfl) rfl ?_
      intro locked
      rw [place] at locked
      exact locked
    | freeEnqueueBuffer record place free =>
      -- The enqueue lock is free, so whoever has locked the record holds its push lock.
      obtain ⟨idle, locked⟩ := unused record (by rw [place]; rfl)
      refine (inv.deletes worker place idle ?_).freeRing (.enqueueBuffer record)
      intro visitor visiting
      exact ⟨rfl, WorkerPc.holds_push_of_visits visiting (locked visitor) (free visitor)⟩
    | freePushBuffer record place free =>
      -- Only a holder of the push lock could be left, and that lock is free.
      obtain ⟨idle, visits⟩ := inv.unused worker _ record place (by decide)
      refine (inv.deletes worker place idle ?_).freeRing (.pushBuffer record)
      intro visitor visiting
      have held := (visits visitor visiting).2
      rw [free visitor] at held
      cases held
    | freeRecord record place => exact inv.frees worker place

end LifetimeInv

/--
No record is freed while something refers to it, in runs whose delete jobs start on unused records.

This holds whichever event ring each of the two processors drains.
-/
theorem noDangling_of_deletesUnused (n : Nat) (drains : Processor → FdEvent) (host : ByteOrder)
    (type : DictType Int) (conf : CeConf) (actions : List (IoAction n)) (last : IoSystem n)
    (trace : List IoEvent)
    (ran : (ioMachine n drains).exec (IoSystem.atRest n (ceIoNew host type conf)) actions =
      some (last, trace))
    (unused : (ioMachine n drains).Meets DeletesUnused (IoSystem.atRest n (ceIoNew host type conf))
      actions) : last.NoDangling := by
  -- The invariant holds all along the run, and it says that nothing dangles.
  have inv := (ioMachine n drains).exec_invariant_of_meets
    (fun sys _ => LifetimeInv sys.io sys.pcs) (LifetimeInv.new n host type conf)
    (fun _ _ _ _ _ inv unused taken => inv.step unused taken) ran unused
  exact inv.noDangling

/--
A connection that nothing was enqueued for is deleted and freed while the event of another one waits.

The first worker is before its loop all the time that the second one runs the delete job.
-/
def unusedFreed {n : Nat} (first second : Fin n) : List (IoAction n) :=
  [.call (.add 7), .call (.add 8), .call (.enqueue 8 oneByteArg), .call (.del 7), .work first sendAll,
    .work second sendAll, .work second sendAll, .work second sendAll, .work second sendAll]

/-- The event that waits is about the record that was not freed. -/
theorem noDangling_unused_connection : ∃ last trace,
    (ioMachine 2 sourceDrains).exec (IoSystem.atRest 2 (ceIoNew .little dictTypeInt smallConf))
      (unusedFreed 0 1) = some (last, trace) ∧
    last.io.Freed 0 ∧ last.io.Pending 1 ∧ last.NoDangling := by
  refine ⟨_, _, rfl, ⟨by decide, rfl⟩, .inl (by decide), ?_⟩
  exact noDangling_of_deletesUnused 2 sourceDrains .little dictTypeInt smallConf (unusedFreed 0 1) _ _
    rfl (by decide)

/-- A worker frees a connection whose event another worker has not popped yet. -/
theorem not_noDangling_delete_overtakes : ∃ last trace,
    (ioMachine 2 sourceDrains).exec (IoSystem.atRest 2 (ceIoNew .little dictTypeInt smallConf))
      [.call (.add 7), .call (.enqueue 7 oneByteArg), .call (.del 7), .work 0 sendAll,
        .work 1 sendAll, .work 1 sendAll, .work 1 sendAll, .work 1 sendAll] = some (last, trace) ∧
    ¬ last.NoDangling := by
  refine ⟨_, _, rfl, ?_⟩
  -- The event is still in its ring, and the record is gone.
  intro noDangling
  exact noDangling 0 (.inl (.inl (by decide))) ⟨by decide, rfl⟩

end Cevent
