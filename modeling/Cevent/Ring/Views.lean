import Cevent.Ring.State

/-! How long the bytes that a read hands over stay where they are. -/

namespace Cevent

/-- The whole buffer, seen from the head on and once round. -/
def CeRb.turn (rb : CeRb) : Bytes := Cyclic.window rb.buffer rb.head.toNat rb.buffer.length

/-- The ring after calls of `ce_rb_write`, where no source stands for `NULL`. -/
def CeRb.afterWrites (rb : CeRb) : List (Option RbSource) → CeRb
  | [] => rb
  | none :: sources => (ceRbWrite rb none 0).rb.afterWrites sources
  | some source :: sources => (ceRbWrite rb (some source.bytes) source.count).rb.afterWrites sources

/-- The bytes that calls of `ce_rb_write` ask a ring to take in. -/
def offeredBytes (sources : List (Option RbSource)) : Bytes :=
  sources.flatMap fun
    | none => []
    | some source => source.bytes.take source.count.toNat

/-- After a read and some writes, the caller finds the bytes where the read has put them. -/
def ViewStays (rb : CeRb) (count : Int) (sources : List (Option RbSource)) : Prop :=
  let taken := ceRbRead rb .null count
  (taken.rb.afterWrites sources).load taken.data taken.count = taken.rb.load taken.data taken.count

/-- How many bytes a read of a ring returns. -/
def Ring.readable (ring : Ring) (count : Int) : Nat := min count.toNat ring.content.length

/-- A read reaches the end of the buffer, so its bytes are joined in `retval`. -/
def Ring.CopiesOut (ring : Ring) (count : Int) : Prop :=
  ring.rb.capacity - ring.rb.head ≤ ring.readable count

/--
The writes after a read do not change what it has handed over.

Either the read has copied its bytes out, or what the writes are asked to take in beyond the room
there was before the read is what the ring holds there anyway.
-/
def Ring.LeavesView (ring : Ring) (count : Int) (sources : List (Option RbSource)) : Prop :=
  ring.CopiesOut count ∨
    ((offeredBytes sources).drop ring.room).take (ring.readable count) <+: ring.content

variable {rb : CeRb}

/-- Once round is as long as the buffer. -/
theorem CeRb.length_turn (rb : CeRb) : rb.turn.length = rb.buffer.length :=
  Cyclic.length_window (Nat.le_refl _)

/-- One copy to the tail overwrites the turn right behind the bytes that wait. -/
theorem copyIn_turn (rb : CeRb) (bytes : Bytes) (offset chunk : Int) {len : Nat}
    (length : rb.buffer.length = rb.capacity.toNat) (head : rb.head.toNat < rb.buffer.length)
    (ends : rb.tail.toNat = (rb.head.toNat + len) % rb.buffer.length)
    (start : 0 ≤ offset) (positive : 0 ≤ chunk) (source : offset + chunk ≤ bytes.length)
    (room : len + chunk.toNat ≤ rb.buffer.length) (tail : 0 ≤ rb.tail)
    (straight : rb.tail + chunk ≤ rb.capacity) :
    (rb.copyIn bytes offset chunk).turn =
      Cyclic.overwrite rb.turn len (bytesAt bytes offset chunk) := by
  have width := length_bytesAt start source
  have same := copyIn_length length tail start positive source straight
  -- The buffer keeps its size, so both sides go round it as far.
  rw [CeRb.turn, same, CeRb.turn, CeRb.copyIn, memcpy, ends]
  exact Cyclic.window_overwrite head (by omega) (by omega)

/-- The copies of a write overwrite the turn behind the bytes that wait. -/
theorem writeWrapped_turn (wf : rb.WellFormed) {bytes : Bytes} {n : Int} (positive : 0 < n)
    (room : n ≤ ceRbCanWrite rb) (source : n ≤ bytes.length) :
    (rb.writeWrapped bytes n).turn =
      Cyclic.overwrite rb.turn (ceRbCanRead rb).toNat (bytes.take n.toNat) := by
  have := wf.capacity_pos; have := wf.head_nonneg; have := wf.head_lt
  have tailNonneg := wf.tail_nonneg; have length := wf.buffer_length
  have nonneg := wf.canRead_nonneg
  have free : n ≤ rb.capacity - ceRbCanRead rb := room
  rcases writeWrapped_cases wf bytes n with ⟨straight, once⟩ | ⟨chunk, some_, more, full, twice⟩
  · -- One copy takes all the bytes.
    rw [once]
    exact copyIn_turn rb bytes 0 n length (by omega) wf.tail_eq (by omega) (by omega) (by omega)
      (by omega) tailNonneg straight
  · -- The first copy ends at the end of the buffer, and the second one goes on from its start.
    have firstTurn : (rb.copyIn bytes 0 chunk).turn =
        Cyclic.overwrite rb.turn (ceRbCanRead rb).toNat (bytesAt bytes 0 chunk) :=
      copyIn_turn rb bytes 0 chunk length (by omega) wf.tail_eq (by omega) (by omega) (by omega)
        (by omega) tailNonneg (by omega)
    have appended : rb.Appended (rb.copyIn bytes 0 chunk) bytes chunk :=
      copyIn_appended wf some_ (by omega) (by omega) (by omega)
    have home := appended.tail_home full
    have meets := wf.window_comes_round full (by omega)
    have sameLength := appended.length
    have sameCapacity := appended.capacity
    have second := copyIn_turn (rb.copyIn bytes 0 chunk) bytes chunk (n - chunk)
      (by rw [sameLength, sameCapacity, length]) (by rw [sameLength, appended.head]; omega)
      (by rw [home, appended.head, sameLength]; exact meets)
      (by omega) (by omega) (by omega) (by omega) (by omega) (by omega)
    have width : (bytesAt bytes 0 chunk).length = chunk.toNat :=
      length_bytesAt (by omega) (by omega)
    rw [twice, second, firstTurn, ← width,
      Cyclic.overwrite_append _ _ (by rw [CeRb.length_turn]; omega),
      bytesAt_front bytes (by omega) (by omega)]

/-- What writes that have taken in some bytes leave of a ring. -/
structure CeRb.Written (rb next : CeRb) (bytes : Bytes) : Prop where
  wellFormed : next.WellFormed
  head : next.head = rb.head
  capacity : next.capacity = rb.capacity
  retval : next.retval = rb.retval
  content : next.content = rb.content ++ bytes
  turn : next.turn = Cyclic.overwrite rb.turn rb.content.length bytes

/-- Without a write, a ring is left as it is. -/
theorem CeRb.Written.refl (wf : rb.WellFormed) : rb.Written rb [] where
  wellFormed := wf
  head := rfl
  capacity := rfl
  retval := rfl
  content := (List.append_nil _).symm
  turn := by simp [Cyclic.overwrite]

/-- Writes that follow each other take in the bytes of both. -/
theorem CeRb.Written.trans {mid next : CeRb} {early late : Bytes} (wf : rb.WellFormed)
    (first : rb.Written mid early) (second : mid.Written next late) :
    rb.Written next (early ++ late) where
  wellFormed := second.wellFormed
  head := second.head.trans first.head
  capacity := second.capacity.trans first.capacity
  retval := second.retval.trans first.retval
  content := by rw [second.content, first.content, List.append_assoc]
  turn := by
    -- The bytes of the second part are laid right behind those of the first.
    have bound := wf.content_length_le
    have length := wf.buffer_length
    have inside : rb.content.length ≤ rb.turn.length := by rw [rb.length_turn]; omega
    rw [second.turn, first.turn, first.content, List.length_append,
      Cyclic.overwrite_append _ _ inside]

/-- One write leaves the ring so, whatever its arguments are. -/
theorem ceRbWrite_written (wf : rb.WellFormed) (source : RbSource) :
    rb.Written (ceRbWrite rb (some source.bytes) source.count).rb
      (source.bytes.take (min source.count.toNat (ceRbCanWrite rb).toNat)) := by
  have backed := source.backed
  have bound := wf.canRead_le
  obtain ⟨n, nEq⟩ : ∃ n, n = min source.count (ceRbCanWrite rb) := ⟨_, rfl⟩
  rcases Int.lt_or_le 0 n with some_ | none_
  · have room : n ≤ ceRbCanWrite rb := by omega
    have same : (min source.count.toNat (ceRbCanWrite rb).toNat) = n.toNat := by omega
    have appended := writeWrapped_appended wf some_ room (by omega : n ≤ source.bytes.length)
    obtain ⟨wellFormed, content⟩ := appended.markFull wf some_ room
    obtain ⟨bufferEq, headEq, -, capacityEq, retvalEq⟩ :=
      markFull_fields (rb.writeWrapped source.bytes n)
    have written : (ceRbWrite rb (some source.bytes) source.count).rb =
        (rb.writeWrapped source.bytes n).markFull := by
      simp only [ceRbWrite, if_neg (by omega : ¬ source.count ≤ 0), ← nEq,
        if_neg (by omega : ¬ n = 0)]
    have length : rb.content.length = (ceRbCanRead rb).toNat := by rw [wf.canRead_eq]; rfl
    rw [written, same]
    refine ⟨wellFormed, headEq.trans appended.head, capacityEq.trans appended.capacity,
      retvalEq.trans appended.retval, content, ?_⟩
    -- Raising the flag moves no byte, so the turn is the one behind the copies.
    rw [CeRb.turn, bufferEq, headEq, length]
    exact writeWrapped_turn wf some_ room (by omega)
  · -- Nothing is asked for, or there is no room: the source returns before it copies.
    have same : (min source.count.toNat (ceRbCanWrite rb).toNat) = 0 := by omega
    have unchanged : (ceRbWrite rb (some source.bytes) source.count).rb = rb := by
      rcases Int.lt_or_le 0 source.count with positive | stop
      · have full : ceRbCanWrite rb = 0 := by rw [ceRbCanWrite] at nEq ⊢; omega
        rw [ceRbWrite_full full]
      · rw [ceRbWrite_refused (.inr stop)]
    rw [unchanged, same, List.take_zero]
    exact .refl wf

/-- Any number of writes take in what they are offered, as far as there is room. -/
theorem afterWrites_written (wf : rb.WellFormed) (sources : List (Option RbSource)) :
    rb.Written (rb.afterWrites sources) ((offeredBytes sources).take (ceRbCanWrite rb).toNat) := by
  -- The induction is on the writes, and the ring before them stays quantified over.
  induction sources generalizing rb with
  | nil =>
    rw [offeredBytes, List.flatMap_nil, List.take_nil]
    exact .refl wf
  | cons source sources ih =>
    cases source with
    | none => simpa [CeRb.afterWrites, ceRbWrite, offeredBytes] using ih wf
    | some source =>
      have backed := source.backed
      have first := ceRbWrite_written wf source
      have later := first.trans wf (ih first.wellFormed)
      have full := wf.canWrite_eq
      have left := first.wellFormed.canWrite_eq
      rw [first.content, first.capacity, List.length_append] at left
      have width : (source.bytes.take source.count.toNat).length = source.count.toNat := by
        rw [List.length_take]
        omega
      -- What the first write is offered comes first, and takes up its share of the room.
      have shares : (source.bytes.take source.count.toNat ++ offeredBytes sources).take
          (ceRbCanWrite rb).toNat =
          source.bytes.take (min source.count.toNat (ceRbCanWrite rb).toNat) ++
            (offeredBytes sources).take
              (ceRbCanWrite (ceRbWrite rb (some source.bytes) source.count).rb).toNat := by
        rw [List.take_append, width, List.take_take, Nat.min_comm]
        congr 2
        simp only [List.length_take] at left
        omega
      rw [← shares] at later
      exact later

/-- The bytes before the head are the last ones of the turn. -/
theorem CeRb.drop_turn {n : Int} (length : rb.buffer.length = rb.capacity.toNat) (start : 0 ≤ rb.head - n)
    (positive : 0 ≤ n) (inside : rb.head < rb.capacity) :
    rb.turn.drop (rb.buffer.length - n.toNat) = bytesAt rb.buffer (rb.head - n) n := by
  -- Once round from the head, less these bytes, comes to the place where they begin.
  have turned := Cyclic.mod_cases (a := rb.head.toNat + (rb.buffer.length - n.toNat))
    (n := rb.buffer.length) (by omega)
  have place : (rb.head.toNat + (rb.buffer.length - n.toNat)) % rb.buffer.length =
      (rb.head - n).toNat := by omega
  rw [CeRb.turn, Cyclic.drop_window (Nat.le_refl _) (by omega), place,
    show rb.buffer.length - (rb.buffer.length - n.toNat) = n.toNat by omega,
    Cyclic.window_eq_take_drop _ _ _ (by omega), bytesAt]

/-- Once the bytes of a read lie before the head, writes change them only by what they lay over them. -/
theorem CeRb.Written.view_iff {next : CeRb} {bytes : Bytes} (wf : rb.WellFormed)
    (written : rb.Written next bytes) {n : Int} (positive : 0 ≤ n) (start : 0 ≤ rb.head - n)
    (free : rb.content.length + n.toNat ≤ rb.buffer.length) :
    bytesAt next.buffer (rb.head - n) n = bytesAt rb.buffer (rb.head - n) n ↔
      bytes.drop (rb.buffer.length - n.toNat - rb.content.length) <+:
        bytesAt rb.buffer (rb.head - n) n := by
  have length := wf.buffer_length
  have bound := written.wellFormed.content_length_le
  rw [written.content, written.capacity, List.length_append] at bound
  have sameLength : next.buffer.length = rb.buffer.length := by
    rw [written.wellFormed.buffer_length, written.capacity, length]
  -- The bytes of the view are the last ones of the turn, before and after the writes.
  have after := CeRb.drop_turn (n := n) (by rw [sameLength, written.capacity, length])
    (by rw [written.head]; exact start) positive
    (by rw [written.head, written.capacity]; exact wf.head_lt)
  have before := CeRb.drop_turn (n := n) length start positive wf.head_lt
  rw [written.turn, sameLength, written.head,
    Cyclic.drop_overwrite (by rw [rb.length_turn]; omega) (by omega), before] at after
  rw [← after]
  exact Cyclic.overwrite_zero_eq_self_iff

/-- Bytes that a read has left in the buffer stay as long as only the old room is written to. -/
theorem Ring.straight_stays_iff (ring : Ring) {n : Int} (held : n ≤ ceRbCanRead ring.rb)
    (straight : n < ring.rb.capacity - ring.rb.head) {after : CeRb} (wellFormed : after.WellFormed)
    (head : after.head = ring.rb.head + n) (buffer : after.buffer = ring.rb.buffer)
    (capacity : after.capacity = ring.rb.capacity)
    (content : after.content = ring.rb.content.drop n.toNat) (positive : 0 < n)
    (sources : List (Option RbSource)) :
    bytesAt (after.afterWrites sources).buffer ring.rb.head n =
        bytesAt ring.rb.buffer ring.rb.head n ↔
      ((offeredBytes sources).drop ring.room).take n.toNat <+: ring.rb.content := by
  have wf := ring.wellFormed
  have := wf.head_nonneg
  have length := wf.buffer_length
  have bound := wf.content_length_le
  have canRead := wf.canRead_eq
  have room : (ring.room : Int) = ring.rb.capacity - ring.rb.content.length :=
    ring.canWrite_eq.symm.trans wf.canWrite_eq
  have left := congrArg List.length content
  rw [List.length_drop] at left
  have free := wellFormed.canWrite_eq
  rw [capacity] at free
  have written := afterWrites_written wellFormed sources
  -- The view lies right before the new head, in what the read has given free.
  have overlaps := written.view_iff wellFormed (n := n) (by omega) (by omega)
    (by rw [buffer]; omega)
  rw [show after.head - n = ring.rb.head by omega, buffer,
    ← wf.take_content held (by omega)] at overlaps
  -- What goes beyond the old room is laid over the bytes of the read, from their start on.
  rw [show ring.rb.buffer.length - n.toNat - after.content.length = ring.room by omega,
    List.drop_take, show (ceRbCanWrite after).toNat - ring.room = n.toNat by omega,
    List.prefix_take_iff] at overlaps
  rw [← wf.take_content held (by omega), overlaps]
  apply and_iff_left
  rw [List.length_take]
  omega

/-- A read that is handed nothing designates nothing, and no write changes that. -/
theorem viewStays_of_null {rb : CeRb} {count : Int} (sources : List (Option RbSource))
    (null : (ceRbRead rb .null count).data = .null) : ViewStays rb count sources := by
  simp only [ViewStays, null, CeRb.load]

/--
Writes leave the bytes of a read as they are in exactly these cases.

It holds for every state of the ring, every count and every sequence of writes.
-/
theorem viewStays_iff (ring : Ring) (count : Int) (sources : List (Option RbSource)) :
    ViewStays ring.rb count sources ↔ ring.LeavesView count sources := by
  have wf := ring.wellFormed
  have canRead := ring.canRead_eq
  have := wf.head_nonneg
  rcases Int.lt_or_le count 0 with refused | asked
  · -- Nothing is read, so there is nothing to be overwritten.
    have none_ : ring.readable count = 0 := by rw [Ring.readable]; omega
    refine iff_of_true (viewStays_of_null sources (by rw [ceRbRead_refused refused])) (.inr ?_)
    rw [none_, List.take_zero]
    exact List.nil_prefix
  obtain ⟨n, least⟩ : ∃ n, n = min count (ceRbCanRead ring.rb) := ⟨_, rfl⟩
  -- Else as many bytes are handed over as wait and were asked for.
  have readable : (ring.readable count : Int) = n := by rw [Ring.readable]; omega
  obtain ⟨-, wellFormed, -, content, -⟩ := ceRbRead_spec wf .null asked
  rcases ceRbRead_cases ring.rb .null asked least with
    ⟨nothing, taken⟩ | ⟨some_, straight, taken⟩ | ⟨some_, wraps, taken⟩
  · -- An empty ring hands over `NULL`.
    refine iff_of_true (viewStays_of_null sources (by rw [taken])) (.inr ?_)
    rw [show ring.readable count = 0 by omega, List.take_zero]
    exact List.nil_prefix
  · -- The bytes stay in the buffer, right before the new head, and are given free for writing.
    have stays : ¬ ring.CopiesOut count := by rw [Ring.CopiesOut, readable]; omega
    have step : (ring.rb.head + n) % ring.rb.capacity = ring.rb.head + n :=
      Int.emod_eq_of_lt (by omega) straight
    rw [step] at taken
    simp only [taken] at wellFormed content
    rw [← least] at content
    rw [ViewStays, taken, Ring.LeavesView, or_iff_right stays,
      show ring.readable count = n.toNat by omega]
    exact ring.straight_stays_iff (by omega) (by omega) wellFormed rfl rfl rfl content (by omega)
      sources
  · -- The bytes were copied to `retval`, which no write touches.
    have copies : ring.CopiesOut count := by rw [Ring.CopiesOut, readable]; omega
    refine iff_of_true ?_ (.inl copies)
    have written := afterWrites_written wellFormed sources
    rw [taken] at written
    simp only [ViewStays, taken, CeRb.load, written.retval]

instance (rb : CeRb) (count : Int) (sources : List (Option RbSource)) :
    Decidable (ViewStays rb count sources) :=
  inferInstanceAs (Decidable (_ = _))

/-- A ring of four bytes that holds three. -/
def threeOfFour : Ring :=
  ((Ring.new 4 (by decide)).write { bytes := [1, 2, 3], count := 3, backed := by decide }).1

/-- Three bytes are read, and the next write lays three of its four bytes over them. -/
theorem not_viewStays_lapped :
    ¬ ViewStays threeOfFour.rb 3
      [some { bytes := [4, 5, 6, 7], count := 4, backed := by decide }] := by
  decide

end Cevent
