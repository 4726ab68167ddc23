import Cevent.Library.BoundedQueue
import Cevent.Library.Machine
import Cevent.Ring.State

/-! Any sequence of reads and writes of a ring answers like a bounded queue of bytes. -/

namespace Cevent

open Interleaving

/-- A call of one of the two operations, with any argument. -/
inductive RbCall where
  /-- `ce_rb_write(rb, data, count)`, where no source stands for `NULL`. -/
  | write (data : Option RbSource)
  /-- `ce_rb_read(rb, &data, count)`. -/
  | read (count : Int)

/-- What the caller learns from a call. -/
inductive RbReply where
  /-- The count a write returns. -/
  | wrote (count : Int)
  /-- The count a read returns, and that many bytes found at the address it stores. -/
  | read (count : Int) (bytes : Bytes)
  deriving DecidableEq, Repr

/-- The ring of the source, one call at a time. -/
def ringMachine : Machine CeRb RbCall RbReply where
  step rb
    | .write none => some ((ceRbWrite rb none 0).rb, [.wrote (ceRbWrite rb none 0).count])
    | .write (some source) =>
      let written := ceRbWrite rb (some source.bytes) source.count
      some (written.rb, [.wrote written.count])
    | .read count =>
      -- The caller reads at the address before any other call.
      let taken := ceRbRead rb .null count
      some (taken.rb, [.read taken.count (taken.rb.load taken.data taken.count)])

/-- A queue of at most so many bytes, with the answers a caller expects of it. -/
def fifoMachine : Machine (BoundedQueue UInt8) RbCall RbReply where
  step q
    | .write none => some (q, [.wrote 0])
    | .write (some source) =>
      -- The queue refuses what the ring refuses.
      if source.count ≤ 0 then some (q, [.wrote 0])
      else
        let count := source.count.toNat
        some (q.push (source.bytes.take count), [.wrote ↑(min count (q.capacity - q.items.length))])
    | .read count =>
      if count < 0 then some (q, [.read 0 []])
      else
        let count := min count.toNat q.items.length
        some (q.pop count, [.read ↑count (q.items.take count)])

/-- A ring stands for a queue of the same capacity when it holds the queue's bytes. -/
structure StandsFor (capacity : Int) (rb : CeRb) (q : BoundedQueue UInt8) : Prop where
  wellFormed : rb.WellFormed
  content : rb.content = q.items
  ring : rb.capacity = capacity
  queue : (q.capacity : Int) = capacity

/-- The readable count of the ring is the length of the queue. -/
theorem StandsFor.canRead {capacity : Int} {rb : CeRb} {q : BoundedQueue UInt8}
    (stands : StandsFor capacity rb q) : ceRbCanRead rb = q.items.length := by
  rw [stands.wellFormed.canRead_eq, stands.content]

/-- The free count of the ring is the capacity less the length of the queue. -/
theorem StandsFor.canWrite {capacity : Int} {rb : CeRb} {q : BoundedQueue UInt8}
    (stands : StandsFor capacity rb q) : ceRbCanWrite rb = capacity - q.items.length := by
  rw [stands.wellFormed.canWrite_eq, stands.content, stands.ring]

/-- A ring that stands for a queue answers every call as the queue does, and goes on to do so. -/
theorem StandsFor.call {capacity : Int} {rb : CeRb} {q : BoundedQueue UInt8}
    (stands : StandsFor capacity rb q) (call : RbCall) :
    ∃ rb' q' replies, ringMachine.step rb call = some (rb', replies) ∧
      fifoMachine.step q call = some (q', replies) ∧ StandsFor capacity rb' q' := by
  have wf := stands.wellFormed
  have canRead := stands.canRead
  have canWrite := stands.canWrite
  have bound := q.bounded
  have sized := stands.queue
  -- The two operations are compared call by call, refused calls first.
  cases call with
  | write data =>
    cases data with
    | none => exact ⟨rb, q, [.wrote 0], rfl, rfl, stands⟩
    | some source =>
      rcases Int.lt_or_le 0 source.count with positive | stop
      · obtain ⟨count, wellFormed, content, kept⟩ := ceRbWrite_spec wf positive source.backed
        -- Both take in the same bytes, so the counts and the contents agree.
        have same : (min source.count (ceRbCanWrite rb)).toNat =
            min source.count.toNat (q.capacity - q.items.length) := by omega
        refine ⟨_, q.push (source.bytes.take source.count.toNat), _, rfl, ?_,
          ⟨wellFormed, ?_, kept.trans stands.ring, sized⟩⟩
        · simp only [fifoMachine, if_neg (by omega : ¬ source.count ≤ 0), Option.some.injEq,
            Prod.mk.injEq, List.cons.injEq, RbReply.wrote.injEq, and_true, true_and]
          rw [count]
          omega
        · rw [content, same, stands.content, BoundedQueue.push_items, List.take_take,
            BoundedQueue.room, Nat.min_comm]
      · refine ⟨rb, q, [.wrote 0], ?_, ?_, stands⟩
        · simp [ringMachine, ceRbWrite_refused (.inr stop)]
        · simp [fifoMachine, stop]
  | read count =>
    rcases Int.lt_or_le count 0 with refused | asked
    · refine ⟨rb, q, [.read 0 []], ?_, ?_, stands⟩
      · simp [ringMachine, ceRbRead_refused refused, CeRb.load]
      · simp [fifoMachine, refused]
    · obtain ⟨returned, wellFormed, data, content, kept⟩ :=
        ceRbRead_spec wf .null asked
      -- Both hand over the same bytes, so the counts and what is left agree.
      have same : (min count (ceRbCanRead rb)).toNat = min count.toNat q.items.length := by omega
      refine ⟨_, q.pop (min count.toNat q.items.length), _, rfl, ?_,
        ⟨wellFormed, ?_, kept.trans stands.ring, sized⟩⟩
      · simp only [fifoMachine, if_neg (by omega : ¬ count < 0), Option.some.injEq,
          Prod.mk.injEq, List.cons.injEq, RbReply.read.injEq, and_true, true_and]
        exact ⟨by rw [returned]; omega, by rw [data, same, stands.content]⟩
      · rw [content, same, stands.content, BoundedQueue.pop_items]

/-- A new ring stands for an empty queue. -/
theorem StandsFor.new {capacity : Int} (positive : 0 < capacity) :
    StandsFor capacity (ceRbNew capacity) (BoundedQueue.empty capacity.toNat) where
  wellFormed := ceRbNew_wellFormed positive
  content := ceRbNew_content capacity
  ring := rfl
  queue := Int.toNat_of_nonneg (Int.le_of_lt positive)

/-- A ring that calls on a new one lead to stands for some queue. -/
theorem StandsFor.reached {capacity : Int} (positive : 0 < capacity) {calls : List RbCall}
    {last : CeRb} {replies : List RbReply}
    (ran : ringMachine.exec (ceRbNew capacity) calls = some (last, replies)) :
    ∃ q, StandsFor capacity last q := by
  refine ringMachine.exec_invariant (fun rb _ => ∃ q, StandsFor capacity rb q)
    ⟨_, .new positive⟩ ?_ ran
  rintro rb before call next replies ⟨q, stands⟩ taken
  -- The machine takes each call in one way, so it leads to the ring that stands for the next queue.
  obtain ⟨next', q', _, step, -, stands'⟩ := stands.call call
  rw [taken] at step
  cases step
  exact ⟨q', stands'⟩

/-- Every sequence of calls on a new ring is answered as by an empty queue of its capacity. -/
theorem ring_refines_fifo (capacity : Int) (positive : 0 < capacity) (calls : List RbCall) :
    ∃ rb q replies, ringMachine.exec (ceRbNew capacity) calls = some (rb, replies) ∧
      fifoMachine.exec (BoundedQueue.empty capacity.toNat) calls = some (q, replies) ∧
      ceRbCanRead rb = q.items.length ∧ ceRbCanWrite rb = capacity - q.items.length := by
  -- A new ring stands for an empty queue, and each call keeps it so.
  have start : StandsFor capacity (ceRbNew capacity) (.empty capacity.toNat) := .new positive
  obtain ⟨rb, q, replies, ranRing, ranFifo, stands⟩ :=
    Machine.exec_simulation (fun _ _ call related => related.call call) start calls
  exact ⟨rb, q, replies, ranRing, ranFifo, stands.canRead, stands.canWrite⟩

/-- A ring of four bytes, filled, read short of its end, and written round it. -/
theorem ring_refines_fifo_four : ∃ rb q replies,
    ringMachine.exec (ceRbNew 4) [.write (some ⟨[1, 2, 3, 4, 5], 5, by decide⟩), .read 3,
      .write (some ⟨[6, 7], 2, by decide⟩), .read 3] = some (rb, replies) ∧
    fifoMachine.exec (BoundedQueue.empty 4) [.write (some ⟨[1, 2, 3, 4, 5], 5, by decide⟩), .read 3,
      .write (some ⟨[6, 7], 2, by decide⟩), .read 3] = some (q, replies) ∧
    ceRbCanRead rb = q.items.length ∧ ceRbCanWrite rb = 4 - q.items.length :=
  ring_refines_fifo 4 (by decide) _

end Cevent
