import Cevent.Hash.Load

/-! A rehashing comes to its end by the lookups and updates alone. -/

namespace Cevent.Hash

open Interleaving

universe u v

variable {κ : Type u} {ν : Type v} {d d' : Dict κ ν}

section Ending

/-- What a use makes of a rehashing: less entries are left in the old table, or it is over. -/
inductive Dict.Advances (d d' : Dict κ ν) : Prop where
  | left (going : dictIsRehashing d' = true) (fewer : d'.ht0.used < d.ht0.used)
      (size1 : d'.ht1.size = d.ht1.size)
  | ended (idle : dictIsRehashing d' = false) (size0 : d'.ht0.size = d.ht1.size)
  /-- It is over, and the addition that ended it has begun the next one. -/
  | again (going : dictIsRehashing d' = true) (size0 : d'.ht0.size = d.ht1.size)
      (larger : d.ht1.size < d'.ht1.size)

/-- Updating a chain after the step does not put entries back into the old table. -/
theorem Dict.Advances.putChain (advances : d.Advances d') {second : Bool} {i used : Nat}
    {chain : List (DictEntry κ ν)} (less : second = false → used ≤ d'.ht0.used) :
    d.Advances (d'.putChain second i used chain) := by
  cases advances with
  | left going fewer size1 =>
    cases second with
    | false => exact .left going (Nat.lt_of_le_of_lt (less rfl) fewer) size1
    | true => exact .left going fewer size1
  | ended idle size0 => cases second <;> exact .ended idle size0
  | again going size0 larger => cases second <;> exact .again going size0 larger

/-- A table that has become the only one may be expanded at once, and has entries then. -/
theorem advances_of_expandIfNeeded (both : d.Rehashing) (empty : d.ht0.used = 0)
    (small : dictSize d ≤ 2 ^ 30) (dictCanResize : Bool) :
    d.Advances (dictExpandIfNeeded dictCanResize d.finish).1 ∧
      (d.ht1.size < (dictExpandIfNeeded dictCanResize d.finish).1.ht1.size →
        (dictExpandIfNeeded dictCanResize d.finish).1.ht0.used ≠ 0) := by
  have idle : dictIsRehashing d.finish = false := rfl
  have laid : d.finish.ht0.Laid d.finish.type := both.second
  have positive := both.second.size_pos
  have reset : d.finish.ht1.size = 0 := rfl
  rw [dictExpandIfNeeded, if_neg (by simp [idle]), if_neg (Nat.ne_of_gt laid.size_pos)]
  split_ifs with full
  · have least : d.ht1.size ≤ d.ht1.used := full.1
    have few : d.ht1.used ≤ 2 ^ 30 := by unfold dictSize at small; omega
    have twice : d.ht1.used * 2 % 2 ^ 64 = d.ht1.used * 2 := Nat.mod_eq_of_lt (by omega)
    have slots := le_dictNextPower (show d.ht1.used * 2 ≤ 2 ^ 31 by omega)
    -- A full table has entries, and the new one has at least twice as many slots.
    have expansion : (dictExpand d.finish (d.finish.ht0.used * 2 % 2 ^ 64)).1 =
        { d.finish with ht1 := newTable (dictNextPower (d.ht1.used * 2)), rehashidx := 0 } := by
      have used : d.finish.ht0.used = d.ht1.used := rfl
      rw [used, twice]
      exact dictExpand_settled idle laid (by omega)
    rw [expansion]
    refine ⟨.again rfl rfl ?_, fun _ => ?_⟩
    · show d.ht1.size < dictNextPower (d.ht1.used * 2)
      omega
    · show d.ht1.used ≠ 0
      omega
  · refine ⟨.ended idle rfl, ?_⟩
    intro larger
    rw [reset] at larger
    exact absurd larger (Nat.not_lt_zero _)

variable (sound : d.Sound) (free : d.iterators = 0) (going : dictIsRehashing d = true)

include sound free going

/-- The step of a use moves entries while there are some in the old table, and gives it up after that. -/
theorem advances_of_step (stepped : stepIfRehashing d = some d') : d.Advances d' := by
  rcases stepIfRehashing_cases sound free stepped with ⟨idle, -⟩ | ⟨-, -, moves⟩ | ⟨-, -, rfl⟩
  · rw [going] at idle
    cases idle
  · exact .left moves.both.isRehashing moves.fewer moves.size1
  · exact .ended rfl rfl

/-- So does every lookup. -/
theorem advances_of_find {key : κ} {found : Option (Hit κ ν)}
    (looked : dictFind d key = some (d', found)) : d.Advances d' := by
  have both := sound.shape.rehashing_of going
  rcases dictFind_cases looked with ⟨none_, -⟩ | stepped
  · exact absurd none_ (Nat.ne_of_gt both.first.size_pos)
  · exact advances_of_step sound free going stepped

/-- And every deletion. -/
theorem advances_of_delete {key : κ} {ok : Bool}
    (deleted : dictGenericDelete d key = some (d', ok)) : d.Advances d' := by
  have both := sound.shape.rehashing_of going
  rcases dictGenericDelete_cases deleted with ⟨none_, -⟩ | ⟨mid, stepped, result⟩
  · exact absurd none_ (Nat.ne_of_gt both.first.size_pos)
  · have advances := advances_of_step sound free going stepped
    rcases result with rfl | ⟨second, i, chain, rfl⟩
    · exact advances
    · refine advances.putChain ?_
      rintro rfl
      exact Nat.sub_le _ _

/-- An addition adds to the newest table, which it may have begun itself with entries in the other one. -/
theorem advances_of_add (small : dictSize d ≤ 2 ^ 30) {dictCanResize : Bool} {key : κ} {val : ν}
    {ok : Bool} (added : dictAddRaw dictCanResize d key val = some (d', ok)) :
    d.Advances d' ∧ (d.ht1.size < d'.ht1.size → d'.ht0.used ≠ 0) := by
  obtain ⟨mid, stepped, -, -, result⟩ := dictAddRaw_cases sound small added
  have expanded : d.Advances (dictExpandIfNeeded dictCanResize mid).1 ∧
      (d.ht1.size < (dictExpandIfNeeded dictCanResize mid).1.ht1.size →
        (dictExpandIfNeeded dictCanResize mid).1.ht0.used ≠ 0) := by
    rcases stepIfRehashing_cases sound free stepped with ⟨idle, -⟩ | ⟨-, -, moves⟩ | ⟨-, empty, rfl⟩
    · rw [going] at idle
      cases idle
    · -- In the middle of a rehashing nothing is expanded.
      have going' := moves.both.isRehashing
      rw [dictExpandIfNeeded, if_pos going']
      refine ⟨.left going' moves.fewer moves.size1, ?_⟩
      intro larger
      rw [moves.size1] at larger
      exact absurd larger (Nat.lt_irrefl _)
    · exact advances_of_expandIfNeeded (sound.shape.rehashing_of going) empty small dictCanResize
  rcases result with rfl | ⟨full, i, chain, rfl, rfl⟩
  · exact expanded
  · obtain ⟨advances, filled⟩ := expanded
    cases newest : dictIsRehashing (dictExpandIfNeeded dictCanResize mid).1 with
    | true => exact ⟨advances.putChain (by intro old; cases old), filled⟩
    | false =>
      -- The only table is the one that the entry goes to.
      cases advances with
      | left going' | again going' =>
        rw [newest] at going'
        cases going'
      | ended idle size0 => exact ⟨.ended idle size0, fun _ => Nat.succ_ne_zero _⟩

/-- A replacement may take a second step, which may be the one that gives the old table up. -/
theorem advances_of_replace (small : dictSize d ≤ 2 ^ 30) {dictCanResize : Bool} {key : κ} {val : ν}
    {ok : Bool} (replaced : dictReplace dictCanResize d key val = some (d', ok)) : d.Advances d' := by
  obtain ⟨mid, added, ran, result⟩ := dictReplace_cases replaced
  obtain ⟨first, filled⟩ := advances_of_add sound free going small ran
  rcases result with rfl | ⟨last, found, looked, second, i, chain, rfl⟩
  · exact first
  · have few : d.entries.length ≤ 2 ^ 30 := by rwa [← sound.dictSize_eq]
    obtain ⟨sound', free'⟩ := sound_of_add sound free few ran
    -- The lookup starts from what the addition left.
    have advances : d.Advances last := by
      cases first with
      | left going' fewer size1 =>
        cases advances_of_find sound' free' going' looked with
        | left going'' fewer' size1' =>
          exact .left going'' (Nat.lt_trans fewer' fewer) (size1'.trans size1)
        | ended idle size0 => exact .ended idle (size0.trans size1)
        | again going'' size0 larger => exact .again going'' (size0.trans size1) (size1 ▸ larger)
      | ended idle size0 =>
        rcases dictFind_cases looked with ⟨-, rfl⟩ | stepped
        · exact .ended idle size0
        · rw [stepIfRehashing, if_neg (by simp [idle])] at stepped
          cases stepped
          exact .ended idle size0
      | again going' size0 larger =>
        rcases dictFind_cases looked with ⟨-, rfl⟩ | stepped
        · exact .again going' size0 larger
        · rcases stepIfRehashing_cases sound' free' stepped with
            ⟨idle, -⟩ | ⟨-, -, moves⟩ | ⟨-, empty, -⟩
          · rw [going'] at idle
            cases idle
          · exact .again moves.both.isRehashing (moves.size0.trans size0)
              (Nat.lt_of_lt_of_eq larger moves.size1.symm)
          · exact absurd empty (filled larger)
    refine advances.putChain ?_
    rintro rfl
    exact Nat.le_refl _

end Ending

/-- A call that looks an entry up, or makes or changes one. -/
def Call.IsUse : Call κ ν → Prop
  | .add _ _ | .replace _ _ | .delete _ | .find _ | .fetchValue _ => True
  | .expand _ | .resize | .rehash _ | .empty | .enableResize | .disableResize => False

variable {store store' : Store κ ν} {answers : List (Answer κ ν)}

/-- Every use advances a rehashing. -/
theorem advances_of_use {m : Cevent.Dict κ ν} (rep : Represents store m) {call : Call κ ν}
    (use : call.IsUse) (fits : call.Fits store) (going : dictIsRehashing store.dict = true)
    (taken : store.call call = some (store', answers)) : store.dict.Advances store'.dict := by
  -- Each call makes its steps in the function that it comes to.
  cases call with
  | add key val =>
    obtain ⟨⟨d', ok⟩, added, same⟩ := Option.map_eq_some_iff.mp taken
    cases same
    exact (advances_of_add rep.sound rep.free going fits added).1
  | replace key val =>
    obtain ⟨⟨d', ok⟩, replaced, same⟩ := Option.map_eq_some_iff.mp taken
    cases same
    exact advances_of_replace rep.sound rep.free going fits replaced
  | delete key =>
    obtain ⟨⟨d', ok⟩, deleted, same⟩ := Option.map_eq_some_iff.mp taken
    cases same
    exact advances_of_delete rep.sound rep.free going deleted
  | find key =>
    obtain ⟨⟨d', found⟩, looked, same⟩ := Option.map_eq_some_iff.mp taken
    cases same
    exact advances_of_find rep.sound rep.free going looked
  | fetchValue key =>
    obtain ⟨⟨d', val⟩, fetched, same⟩ := Option.map_eq_some_iff.mp taken
    obtain ⟨⟨d'', found⟩, looked, same'⟩ := Option.map_eq_some_iff.mp fetched
    cases same
    cases same'
    exact advances_of_find rep.sound rep.free going looked
  | expand size | resize | rehash n | empty | enableResize | disableResize => exact use.elim

/--
The rehashing of a dictionary is over: the new table has taken the place of the old one.

If a rehashing goes on, it is the next one, into a table that is larger still.
-/
structure Ended (store later : Store κ ν) : Prop where
  size0 : later.dict.ht0.size = store.dict.ht1.size
  next : dictIsRehashing later.dict = true → store.dict.ht1.size < later.dict.ht1.size

/-- One use more than the old table has entries is enough. -/
theorem ended_of_uses {m : Cevent.Dict κ ν} (rep : Represents store m)
    (going : dictIsRehashing store.dict = true) {uses : List (Call κ ν)}
    (use : ∀ call ∈ uses, call.IsUse)
    (fits : (tableMachine κ ν).Meets (fun store call => call.Fits store) store uses)
    (enough : store.dict.ht0.used < uses.length) :
    ∃ first later answers, first <+: uses ∧ first.length ≤ store.dict.ht0.used + 1 ∧
      (tableMachine κ ν).exec store first = some (later, answers) ∧ Ended store later := by
  -- By induction on the uses, as the entries that are left become fewer with each of them.
  induction uses generalizing store m with
  | nil => exact absurd enough (Nat.not_lt_zero _)
  | cons call rest ih =>
    obtain ⟨here, others⟩ := List.forall_mem_cons.mp use
    obtain ⟨store', taken, rep'⟩ := agrees_of_fits rep fits.1
    have once : (tableMachine κ ν).exec store [call] = some (store', (mapCall m call).2 ++ []) :=
      (tableMachine κ ν).exec_cons taken
    cases advances_of_use rep here fits.1 going taken with
    | ended idle size0 =>
      refine ⟨[call], store', _, by simp, by simp, once, size0, ?_⟩
      intro going'
      rw [idle] at going'
      cases going'
    | again going' size0 larger => exact ⟨[call], store', _, by simp, by simp, once, size0, fun _ => larger⟩
    | left going' fewer size1 =>
      -- The rest of the uses is enough for the entries that are left.
      rw [List.length_cons] at enough
      obtain ⟨first, later, answers, prefix_, short, ran, ended⟩ :=
        ih rep' going' others (fits.2 store' _ taken) (by omega)
      refine ⟨call :: first, later, (mapCall m call).2 ++ answers,
        List.cons_prefix_cons.mpr ⟨rfl, prefix_⟩, ?_, ?_, ?_⟩
      · rw [List.length_cons]
        omega
      · rw [(tableMachine κ ν).exec_cons taken, ran]
        rfl
      · exact ⟨ended.size0.trans size1, size1 ▸ ended.next⟩

/--
Whatever calls led into a rehashing, lookups and updates bring it to its end without anything else.

One more of them than there are entries in the old table is enough. Of all calls, those that add an entry
do so while there are at most `2 ^ 30`, and those that expand the table ask for at most `2 ^ 31` slots.
-/
theorem rehashing_ends {type : DictType κ} (lawful : Lawful type) {earlier uses : List (Call κ ν)}
    (fits : (tableMachine κ ν).Meets (fun store call => call.Fits store) (Store.new type) earlier)
    (ran : (tableMachine κ ν).exec (Store.new type) earlier = some (store, answers))
    (going : dictIsRehashing store.dict = true) (use : ∀ call ∈ uses, call.IsUse)
    (fits' : (tableMachine κ ν).Meets (fun store call => call.Fits store) store uses)
    (enough : store.dict.ht0.used < uses.length) :
    ∃ first later answers, first <+: uses ∧ first.length ≤ store.dict.ht0.used + 1 ∧
      (tableMachine κ ν).exec store first = some (later, answers) ∧ Ended store later := by
  obtain ⟨m, rep, -⟩ := represents_of_exec lawful fits ran
  exact ended_of_uses rep going use fits' enough

/-- A fifth entry starts a rehashing, which five lookups bring to its end. -/
theorem rehashing_ends_heapStrings : ∃ store answers first later answers',
    (tableMachine Int Nat).exec (Store.new dictTypeHeapStrings)
      [.add 1 1, .add 2 2, .add 3 3, .add 4 4, .add 5 5] = some (store, answers) ∧
    dictIsRehashing store.dict = true ∧
    first <+: [.find 1, .find 2, .find 6, .find 7, .find 3] ∧
    (tableMachine Int Nat).exec store first = some (later, answers') ∧ Ended store later := by
  have fits : (tableMachine Int Nat).Meets (fun store call => call.Fits store)
      (Store.new dictTypeHeapStrings) [.add 1 1, .add 2 2, .add 3 3, .add 4 4, .add 5 5] := by
    decide +kernel
  obtain ⟨store, m, answers, ran, -, -⟩ :=
    exec_represents (represents_new lawful_dictTypeHeapStrings) fits
  -- What the run leaves is a rehashing with four entries in the old table.
  have state : ((tableMachine Int Nat).exec (Store.new dictTypeHeapStrings)
      [.add 1 1, .add 2 2, .add 3 3, .add 4 4, .add 5 5]).map
        (fun done => (dictIsRehashing done.1.dict, done.1.dict.ht0.used)) = some (true, 4) := by
    decide +kernel
  rw [ran] at state
  obtain ⟨going, used⟩ := Prod.mk.inj (Option.some.inj state)
  let lookups : List (Call Int Nat) := [.find 1, .find 2, .find 6, .find 7, .find 3]
  have use : ∀ call ∈ lookups, call.IsUse := by simp [lookups, Call.IsUse]
  have fits' : (tableMachine Int Nat).Meets (fun store call => call.Fits store) store lookups :=
    (tableMachine Int Nat).meets_of_mem (by simp [lookups, Call.Fits]) store
  obtain ⟨first, later, answers', prefix_, -, ran', ended⟩ :=
    rehashing_ends lawful_dictTypeHeapStrings fits ran going use fits'
      (show store.dict.ht0.used < 5 from Nat.lt_of_le_of_lt (Nat.le_of_eq used) (by decide))
  exact ⟨store, answers, first, later, answers', ran, going, prefix_, ran', ended⟩

end Cevent.Hash
