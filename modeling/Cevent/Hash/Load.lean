import Cevent.Hash.Refines

/-! How full the tables get, and how long a rehashing goes on. -/

namespace Cevent.Hash

open Interleaving

universe u v

variable {κ : Type u} {ν : Type v} {d d' : Dict κ ν}

/-- The number of slots of the table that new entries go to. -/
def Dict.newestSize (d : Dict κ ν) : Nat := (d.ht (dictIsRehashing d)).size

/-- At most so many entries for each slot, and in the middle of a rehashing room for all that may come. -/
def Dict.Loaded (bound : Nat) (d : Dict κ ν) : Prop :=
  if dictIsRehashing d then dictSize d + d.ht0.used ≤ 2 * d.ht1.size
  else dictSize d ≤ bound * d.ht0.size

/-- The same with room for one more entry. -/
def Dict.Roomy (bound : Nat) (d : Dict κ ν) : Prop :=
  if dictIsRehashing d then dictSize d + 1 + d.ht0.used ≤ 2 * d.ht1.size
  else dictSize d + 1 ≤ bound * d.ht0.size

/-- The step before a lookup or an update: nothing to do, some entries moved, or the rehashing ended. -/
theorem stepIfRehashing_cases (sound : d.Sound) (free : d.iterators = 0)
    (stepped : stepIfRehashing d = some d') :
    (dictIsRehashing d = false ∧ d' = d) ∨
      (dictIsRehashing d = true ∧ d.ht0.used ≠ 0 ∧ d.Moves d') ∨
      (dictIsRehashing d = true ∧ d.ht0.used = 0 ∧ d' = d.finish) := by
  cases going : dictIsRehashing d with
  | false =>
    refine .inl ⟨rfl, ?_⟩
    simpa [stepIfRehashing, going] using stepped.symm
  | true =>
    -- With no iterator at work, one pass of the rehashing is made.
    have both := sound.shape.rehashing_of going
    rw [stepIfRehashing, if_pos going, dictRehashStep, if_pos free, dictRehash, if_pos going]
      at stepped
    by_cases empty : d.ht0.used = 0
    · rw [dictRehashLoop, if_pos empty] at stepped
      cases stepped
      exact .inr (.inr ⟨rfl, empty, rfl⟩)
    · obtain ⟨mid, moved, moves⟩ := moveBucket_spec both empty
      rw [dictRehashLoop, if_neg empty, if_neg (moves.inside both), moved] at stepped
      cases stepped
      exact .inr (.inl ⟨rfl, empty, moves⟩)

/-- Moving entries does not change how many there are. -/
theorem Dict.SameEntries.dictSize_eq (same : d.SameEntries d') (sound : d.Sound) (sound' : d'.Sound) :
    dictSize d' = dictSize d := by
  rw [sound.dictSize_eq, sound'.dictSize_eq, same.entries.length_eq]

/-- The step makes room in the middle of a rehashing, and keeps what bounds the entries after it. -/
theorem Dict.Loaded.step {bound : Nat} (loaded : d.Loaded bound) (two : 2 ≤ bound) (sound : d.Sound)
    (free : d.iterators = 0) (stepped : stepIfRehashing d = some d') :
    d'.Loaded bound ∧ (dictIsRehashing d' = true → d'.Roomy bound) := by
  obtain ⟨other, ran, steps⟩ := stepIfRehashing_spec sound
  obtain rfl : other = d' := by rw [ran] at stepped; exact Option.some.inj stepped
  have count := steps.same.dictSize_eq sound steps.sound
  unfold Dict.Loaded at loaded
  unfold Dict.Loaded Dict.Roomy
  rcases stepIfRehashing_cases sound free stepped with
    ⟨idle, rfl⟩ | ⟨going, -, moves⟩ | ⟨going, -, rfl⟩
  · simp [idle] at loaded ⊢
    exact loaded
  · -- The entries that were moved make the room.
    have fewer := moves.fewer
    rw [if_pos going] at loaded
    rw [if_pos moves.both.isRehashing, if_pos moves.both.isRehashing, moves.size1, count]
    omega
  · rw [if_pos going] at loaded
    have idle : dictIsRehashing d.finish = false := rfl
    simp only [idle, Bool.false_eq_true, if_false, false_imp_iff, and_true, count]
    -- All entries are in the table that was the new one.
    calc dictSize d ≤ 2 * d.ht1.size := by omega
      _ ≤ bound * d.ht1.size := Nat.mul_le_mul_right _ two

/-- The first expansion of all makes the first table. -/
theorem dictExpand_unused {size : Nat} (idle : dictIsRehashing d = false) (none_ : d.ht0 = dictReset) :
    (dictExpand d size).1 = { d with ht0 := newTable (dictNextPower size) } := by
  rw [dictExpand, if_neg (by simp [idle, none_, dictReset]), if_pos (by rw [none_]; rfl)]

/-- A later one that is not refused starts a rehashing. -/
theorem dictExpand_settled {size : Nat} (idle : dictIsRehashing d = false) (laid : d.ht0.Laid d.type)
    (enough : d.ht0.used ≤ size) :
    (dictExpand d size).1 = { d with ht1 := newTable (dictNextPower size), rehashidx := 0 } := by
  rw [dictExpand, if_neg (by simp [idle, enough]), if_neg (by simp [laid.isEmpty_eq_false])]

/-- A rehashing starts with no less slots than were asked for. -/
theorem le_dictNextPower {size : Nat} (small : size ≤ 2 ^ 31) : size ≤ dictNextPower size := by
  have below : size < longMax := by unfold longMax; omega
  obtain ⟨j, -, is, covers, -⟩ := dictNextPower_spec below
  rwa [is]

/-- A table is expanded before an entry is added that it has no room for. -/
theorem Dict.Sound.roomy_expandIfNeeded {bound : Nat} (sound : d.Sound)
    (small : dictSize d ≤ 2 ^ 30) (roomy : dictIsRehashing d = true → d.Roomy bound)
    (dictCanResize : Bool) (two : 2 ≤ bound)
    (most : dictCanResize = true ∨ dictForceResizeRatio + 1 ≤ bound) :
    (dictExpandIfNeeded dictCanResize d).1.Roomy bound := by
  cases going : dictIsRehashing d with
  | true =>
    rw [dictExpandIfNeeded, if_pos going]
    exact roomy going
  | false =>
    obtain ⟨second, none_, first⟩ := sound.shape.not_rehashing going
    have alone : dictSize d = d.ht0.used := by simp [dictSize, second, dictReset]
    rw [dictExpandIfNeeded, if_neg (by simp [going])]
    rcases first with unused | laid
    · -- The first table has four slots and no entries.
      rw [if_pos (by rw [unused]; rfl), dictExpand_unused going unused, Dict.Roomy]
      rw [if_neg (by simpa [dictIsRehashing] using none_)]
      show 0 + d.ht1.used + 1 ≤ bound * dictNextPower dictHtInitialSize
      have four : dictNextPower dictHtInitialSize = 4 := by decide
      rw [second, four]
      show 1 ≤ bound * 4
      omega
    · rw [if_neg (Nat.ne_of_gt laid.size_pos)]
      split_ifs with full
      · -- A full table has entries, and the new one has twice as many slots.
        have twice : d.ht0.used * 2 % 2 ^ 64 = d.ht0.used * 2 := Nat.mod_eq_of_lt (by omega)
        have slots := le_dictNextPower (show d.ht0.used * 2 ≤ 2 ^ 31 by omega)
        have positive := laid.size_pos
        rw [twice, dictExpand_settled going laid (by omega), Dict.Roomy, if_pos (by rfl)]
        show d.ht0.used + 0 + 1 + d.ht0.used ≤ 2 * dictNextPower (d.ht0.used * 2)
        omega
      · rw [Dict.Roomy, if_neg (by simp [going]), alone]
        rcases Nat.lt_or_ge d.ht0.used d.ht0.size with notFull | least
        · calc d.ht0.used + 1 ≤ 1 * d.ht0.size := by omega
            _ ≤ bound * d.ht0.size := Nat.mul_le_mul_right _ (by omega)
        · -- A full table that may not be resized has at most so many entries for each slot.
          have ratio : ¬ (dictCanResize = true ∨ dictForceResizeRatio < d.ht0.used / d.ht0.size) :=
            fun may => full ⟨least, may⟩
          obtain ⟨refused, few⟩ := not_or.mp ratio
          have below : d.ht0.used < (dictForceResizeRatio + 1) * d.ht0.size :=
            (Nat.div_lt_iff_lt_mul laid.size_pos).mp (by omega)
          calc d.ht0.used + 1 ≤ (dictForceResizeRatio + 1) * d.ht0.size := below
            _ ≤ bound * d.ht0.size := Nat.mul_le_mul_right _ (most.resolve_left refused)

/-- Another count of the entries in one table, as an update of a chain leaves it. -/
theorem Dict.Loaded.putChain {bound : Nat} (loaded : d.Loaded bound) {second : Bool} {i used : Nat}
    {chain : List (DictEntry κ ν)} (less : used ≤ (d.ht second).used) :
    (d.putChain second i used chain).Loaded bound := by
  unfold Dict.Loaded at loaded ⊢
  cases second with
  | false =>
    show if dictIsRehashing d then used + d.ht1.used + used ≤ _ else used + d.ht1.used ≤ _
    replace less : used ≤ d.ht0.used := less
    unfold dictSize at loaded
    split_ifs at loaded ⊢ <;> simp only [Dict.putChain, Dict.setHt, Dict.ht] <;> omega
  | true =>
    show if dictIsRehashing d then d.ht0.used + used + d.ht0.used ≤ _ else d.ht0.used + used ≤ _
    replace less : used ≤ d.ht1.used := less
    unfold dictSize at loaded
    split_ifs at loaded ⊢ <;> simp only [Dict.putChain, Dict.setHt, Dict.ht] <;> omega

/-- A new entry takes the room that there is in the last table. -/
theorem Dict.Roomy.putFront {bound : Nat} (roomy : d.Roomy bound) {i : Nat}
    {chain : List (DictEntry κ ν)} :
    (d.putChain (dictIsRehashing d) i ((d.ht (dictIsRehashing d)).used + 1) chain).Loaded bound := by
  unfold Dict.Roomy at roomy
  unfold Dict.Loaded
  -- The entry goes to the second table in the middle of a rehashing, and else to the only one.
  cases going : dictIsRehashing d with
  | false =>
    rw [going] at roomy
    have same : dictIsRehashing (d.putChain false i ((d.ht false).used + 1) chain) = false := going
    rw [if_neg (by simp [same])]
    show d.ht0.used + 1 + d.ht1.used ≤ bound * d.ht0.size
    simp only [Bool.false_eq_true, if_false, dictSize] at roomy
    omega
  | true =>
    rw [going] at roomy
    have same : dictIsRehashing (d.putChain true i ((d.ht true).used + 1) chain) = true := going
    rw [if_pos same]
    show d.ht0.used + (d.ht1.used + 1) + d.ht0.used ≤ 2 * d.ht1.size
    simp only [if_true, dictSize] at roomy
    omega

/-- A lookup makes its step, where there is a table. -/
theorem dictFind_cases {key : κ} {found : Option (Hit κ ν)}
    (looked : dictFind d key = some (d', found)) :
    (d.ht0.size = 0 ∧ d' = d) ∨ stepIfRehashing d = some d' := by
  rw [dictFind] at looked
  split_ifs at looked with none_
  · cases looked
    exact .inl ⟨none_, rfl⟩
  · obtain ⟨mid, stepped, walked⟩ := Option.bind_eq_some_iff.mp looked
    obtain ⟨hit, -, same⟩ := Option.map_eq_some_iff.mp walked
    cases same
    exact .inr stepped

/-- A deletion makes its step and takes at most one entry out of a chain. -/
theorem dictGenericDelete_cases {key : κ} {ok : Bool}
    (deleted : dictGenericDelete d key = some (d', ok)) :
    (d.ht0.size = 0 ∧ d' = d) ∨ ∃ mid, stepIfRehashing d = some mid ∧
      (d' = mid ∨ ∃ second i chain, d' = mid.putChain second i ((mid.ht second).used - 1) chain) := by
  rw [dictGenericDelete] at deleted
  split_ifs at deleted with none_
  · cases deleted
    exact .inl ⟨none_, rfl⟩
  · obtain ⟨mid, stepped, walked⟩ := Option.bind_eq_some_iff.mp deleted
    obtain ⟨hit, -, same⟩ := Option.map_eq_some_iff.mp walked
    refine .inr ⟨mid, stepped, ?_⟩
    -- Without an entry of the key, the step before the walk is all that was done.
    cases hit with
    | none =>
      cases same
      exact .inl rfl
    | some hit =>
      cases same
      exact .inr ⟨hit.second, hit.slot, _, rfl⟩

/-- An addition makes its step, expands the table if needed, and puts at most one entry in. -/
theorem dictAddRaw_cases (sound : d.Sound) (small : dictSize d ≤ 2 ^ 30) {dictCanResize : Bool}
    {key : κ} {val : ν} {ok : Bool} (added : dictAddRaw dictCanResize d key val = some (d', ok)) :
    ∃ mid, stepIfRehashing d = some mid ∧ mid.Sound ∧ dictSize mid ≤ 2 ^ 30 ∧
      (d' = (dictExpandIfNeeded dictCanResize mid).1 ∨
        ∃ full i chain, full = (dictExpandIfNeeded dictCanResize mid).1 ∧ d' =
          full.putChain (dictIsRehashing full) i ((full.ht (dictIsRehashing full)).used + 1) chain) := by
  obtain ⟨mid, stepped, steps⟩ := stepIfRehashing_spec sound
  have few : dictSize mid ≤ 2 ^ 30 := by rwa [steps.same.dictSize_eq sound steps.sound]
  refine ⟨mid, stepped, steps.sound, few, ?_⟩
  -- The run of the addition is known, so its result is this one.
  rw [steps.sound.dictSize_eq] at few
  obtain ⟨full, is, -, ⟨hit, -, ran⟩ | ⟨-, i, chain, -, -, ran⟩⟩ :=
    dictAddRaw_run stepped steps.sound few dictCanResize key val
  · rw [ran] at added
    cases added
    exact .inl is
  · rw [ran] at added
    cases added
    exact .inr ⟨full, i, _, is, rfl⟩

/-- A replacement is an addition, and a lookup and a value that is written when there was an entry. -/
theorem dictReplace_cases {dictCanResize : Bool} {key : κ} {val : ν} {ok : Bool}
    (replaced : dictReplace dictCanResize d key val = some (d', ok)) :
    ∃ mid added, dictAddRaw dictCanResize d key val = some (mid, added) ∧
      (d' = mid ∨ ∃ last found, dictFind mid key = some (last, found) ∧
        ∃ second i chain, d' = last.putChain second i (last.ht second).used chain) := by
  obtain ⟨⟨mid, added⟩, ran, rest⟩ := Option.bind_eq_some_iff.mp replaced
  refine ⟨mid, added, ran, ?_⟩
  dsimp only at rest
  split_ifs at rest with new
  · cases rest
    exact .inl rfl
  · obtain ⟨⟨last, found⟩, looked, written⟩ := Option.bind_eq_some_iff.mp rest
    obtain ⟨hit, -, same⟩ := Option.map_eq_some_iff.mp written
    cases same
    exact .inr ⟨last, found, looked, hit.second, hit.slot, _, rfl⟩

section Steps

variable {bound : Nat}

/-- Where there is room for one more entry, there is room for those that are there. -/
theorem Dict.Roomy.loaded (roomy : d.Roomy bound) : d.Loaded bound := by
  unfold Dict.Roomy at roomy
  unfold Dict.Loaded
  split_ifs at roomy ⊢ <;> omega

/-- A lookup leaves no more entries for each slot. -/
theorem Dict.Loaded.find (loaded : d.Loaded bound) (two : 2 ≤ bound) (sound : d.Sound)
    (free : d.iterators = 0) {key : κ} {found : Option (Hit κ ν)}
    (looked : dictFind d key = some (d', found)) : d'.Loaded bound := by
  rcases dictFind_cases looked with ⟨-, rfl⟩ | stepped
  · exact loaded
  · exact (loaded.step two sound free stepped).1

/-- And neither does a deletion. -/
theorem Dict.Loaded.delete (loaded : d.Loaded bound) (two : 2 ≤ bound) (sound : d.Sound)
    (free : d.iterators = 0) {key : κ} {ok : Bool}
    (deleted : dictGenericDelete d key = some (d', ok)) : d'.Loaded bound := by
  rcases dictGenericDelete_cases deleted with ⟨-, rfl⟩ | ⟨mid, stepped, rfl | ⟨second, i, chain, rfl⟩⟩
  · exact loaded
  · exact (loaded.step two sound free stepped).1
  · exact (loaded.step two sound free stepped).1.putChain (Nat.sub_le _ _)

/-- An addition puts its entry where there is room for it. -/
theorem Dict.Loaded.add (loaded : d.Loaded bound) (two : 2 ≤ bound) (sound : d.Sound)
    (free : d.iterators = 0) (small : dictSize d ≤ 2 ^ 30) {dictCanResize : Bool}
    (most : dictCanResize = true ∨ dictForceResizeRatio + 1 ≤ bound) {key : κ} {val : ν} {ok : Bool}
    (added : dictAddRaw dictCanResize d key val = some (d', ok)) : d'.Loaded bound := by
  obtain ⟨mid, stepped, sound', few, result⟩ := dictAddRaw_cases sound small added
  obtain ⟨-, roomy⟩ := loaded.step two sound free stepped
  have full := sound'.roomy_expandIfNeeded few roomy dictCanResize two most
  rcases result with rfl | ⟨full', i, chain, rfl, rfl⟩
  · exact full.loaded
  · exact full.putFront

/-- An addition leaves the dictionary sound, with as many iterators at work. -/
theorem sound_of_add (sound : d.Sound) (free : d.iterators = 0) (few : d.entries.length ≤ 2 ^ 30)
    {dictCanResize : Bool} {key : κ} {val : ν} {ok : Bool}
    (added : dictAddRaw dictCanResize d key val = some (d', ok)) : d'.Sound ∧ d'.iterators = 0 := by
  obtain ⟨other, ok', ran, outcome⟩ := dictAddRaw_spec sound few dictCanResize key val
  obtain rfl : other = d' := by rw [ran] at added; cases added; rfl
  rcases outcome with ⟨-, updates, -⟩ | ⟨-, updates, -⟩
  · exact ⟨updates.sound, updates.iterators.trans free⟩
  · exact ⟨updates.sound, updates.iterators.trans free⟩

/-- A replacement adds at most one entry, as an addition does. -/
theorem Dict.Loaded.replace (loaded : d.Loaded bound) (two : 2 ≤ bound) (sound : d.Sound)
    (free : d.iterators = 0) (small : dictSize d ≤ 2 ^ 30) {dictCanResize : Bool}
    (most : dictCanResize = true ∨ dictForceResizeRatio + 1 ≤ bound) {key : κ} {val : ν} {ok : Bool}
    (replaced : dictReplace dictCanResize d key val = some (d', ok)) : d'.Loaded bound := by
  obtain ⟨mid, added, ran, result⟩ := dictReplace_cases replaced
  have loaded' := loaded.add two sound free small most ran
  rcases result with rfl | ⟨last, found, looked, second, i, chain, rfl⟩
  · exact loaded'
  · -- The dictionary in between is sound as well, so the lookup makes its step from there.
    have few : d.entries.length ≤ 2 ^ 30 := by rwa [← sound.dictSize_eq]
    obtain ⟨sound', free'⟩ := sound_of_add sound free few ran
    exact (loaded'.find two sound' free' looked).putChain (Nat.le_refl _)

/-- Any number of passes of a rehashing keeps what bounds the entries. -/
theorem Dict.Loaded.rehash (loaded : d.Loaded bound) (two : 2 ≤ bound) (sound : d.Sound) {n : Nat}
    {more : Bool} (ran : dictRehash d n = some (d', more)) : d'.Loaded bound := by
  obtain ⟨other, more', is, steps⟩ := dictRehash_spec sound n
  obtain rfl : other = d' := by rw [is] at ran; cases ran; rfl
  have count := steps.same.dictSize_eq sound steps.sound
  rw [dictRehash] at ran
  -- However many passes are made, the sum of entries and of those in the old table grows with none.
  split_ifs at ran with going
  · obtain ⟨mid, more, looped, reached⟩ := dictRehashLoop_spec (sound.shape.rehashing_of going) n
    obtain rfl : mid = other := by rw [looped] at ran; cases ran; rfl
    rw [Dict.Loaded, if_pos going] at loaded
    cases reached with
    | more same both size0 size1 fewer =>
      rw [Dict.Loaded, if_pos both.isRehashing, count, size1]
      omega
    | done same first second idle size0 =>
      rw [Dict.Loaded, if_neg (by simp [dictIsRehashing, idle]), count, size0]
      calc dictSize d ≤ 2 * d.ht1.size := by omega
        _ ≤ bound * d.ht1.size := Nat.mul_le_mul_right _ two
  · cases ran
    exact loaded

/-- An expansion makes at least as many slots as there are entries. -/
theorem Dict.Loaded.expand (loaded : d.Loaded bound) (sound : d.Sound) {size : Nat}
    (small : size ≤ 2 ^ 31) : (dictExpand d size).1.Loaded bound := by
  by_cases refused : dictIsRehashing d = true ∨ size < d.ht0.used
  · rw [dictExpand, if_pos refused]
    exact loaded
  · obtain ⟨notGoing, enough⟩ := not_or.mp refused
    have idle : dictIsRehashing d = false := by simpa using notGoing
    obtain ⟨second, none_, unused | laid⟩ := sound.shape.not_rehashing idle
    · rw [dictExpand_unused idle unused, Dict.Loaded,
        if_neg (by simpa [dictIsRehashing] using none_)]
      show 0 + d.ht1.used ≤ _
      rw [second]
      exact Nat.zero_le _
    · rw [dictExpand_settled idle laid (by omega), Dict.Loaded, if_pos (by rfl)]
      show d.ht0.used + 0 + d.ht0.used ≤ 2 * dictNextPower size
      have slots := le_dictNextPower small
      omega

/-- Resizing is an expansion to the number of entries, or to four. -/
theorem Dict.Loaded.resize (loaded : d.Loaded bound) (sound : d.Sound) (small : dictSize d ≤ 2 ^ 31)
    (dictCanResize : Bool) : (dictResize dictCanResize d).1.Loaded bound := by
  rw [dictResize]
  split_ifs with refused
  · exact loaded
  · apply loaded.expand sound
    unfold dictHtInitialSize
    unfold dictSize at small
    split_ifs <;> omega

end Steps

section Runs

variable {store store' : Store κ ν} {call : Call κ ν} {answers : List (Answer κ ν)} {bound : Nat}

/-- No call leaves more entries for each slot than the bound. -/
theorem Dict.Loaded.of_call (loaded : store.dict.Loaded bound) (two : 2 ≤ bound)
    {m : Cevent.Dict κ ν} (rep : Represents store m)
    (most : store.dictCanResize = true ∨ dictForceResizeRatio + 1 ≤ bound) (fits : call.Fits store)
    (taken : store.call call = some (store', answers)) : store'.dict.Loaded bound := by
  -- An update makes a step before it, and an addition may expand the table after that.
  cases call with
  | add key val =>
    obtain ⟨⟨d', ok⟩, added, same⟩ := Option.map_eq_some_iff.mp taken
    cases same
    exact loaded.add two rep.sound rep.free fits most added
  | replace key val =>
    obtain ⟨⟨d', ok⟩, replaced, same⟩ := Option.map_eq_some_iff.mp taken
    cases same
    exact loaded.replace two rep.sound rep.free fits most replaced
  | delete key =>
    obtain ⟨⟨d', ok⟩, deleted, same⟩ := Option.map_eq_some_iff.mp taken
    cases same
    exact loaded.delete two rep.sound rep.free deleted
  | find key =>
    obtain ⟨⟨d', found⟩, looked, same⟩ := Option.map_eq_some_iff.mp taken
    cases same
    exact loaded.find two rep.sound rep.free looked
  | fetchValue key =>
    obtain ⟨⟨d', val⟩, fetched, same⟩ := Option.map_eq_some_iff.mp taken
    obtain ⟨⟨d'', found⟩, looked, same'⟩ := Option.map_eq_some_iff.mp fetched
    cases same
    cases same'
    exact loaded.find two rep.sound rep.free looked
  | expand size =>
    cases taken
    exact loaded.expand rep.sound fits
  | resize =>
    cases taken
    exact loaded.resize rep.sound fits _
  | rehash n =>
    obtain ⟨⟨d', more⟩, ran, same⟩ := Option.map_eq_some_iff.mp taken
    cases same
    exact loaded.rehash two rep.sound ran
  | empty =>
    cases taken
    exact Nat.zero_le _
  | enableResize =>
    cases taken
    exact loaded
  | disableResize =>
    cases taken
    exact loaded

/-- The entries are no more than the bound says for the slots of the newest table. -/
theorem Dict.Loaded.le_newestSize (loaded : d.Loaded bound) (two : 2 ≤ bound) :
    dictSize d ≤ bound * d.newestSize := by
  unfold Dict.Loaded at loaded
  unfold Dict.newestSize
  cases going : dictIsRehashing d with
  | false => simpa [going, Dict.ht] using loaded
  | true =>
    rw [if_pos going] at loaded
    calc dictSize d ≤ 2 * d.ht1.size := by omega
      _ ≤ bound * d.ht1.size := Nat.mul_le_mul_right _ two

/-- A call that fits leaves a table that holds the entries of some map. -/
theorem Represents.of_call {m : Cevent.Dict κ ν} (rep : Represents store m) (fits : call.Fits store)
    (taken : store.call call = some (store', answers)) : Represents store' (mapCall m call).1 := by
  obtain ⟨other, ran, rep'⟩ := agrees_of_fits rep fits
  obtain rfl : other = store' := by rw [ran] at taken; cases taken; rfl
  exact rep'

/-- Whether the tables may be resized is changed by the two calls for it only. -/
theorem dictCanResize_of_call (taken : store.call call = some (store', answers)) :
    store'.dictCanResize = true ∨ call = .disableResize ∨ store'.dictCanResize = store.dictCanResize := by
  cases call with
  | enableResize => cases taken; exact .inl rfl
  | disableResize => exact .inr (.inl rfl)
  | expand size => cases taken; exact .inr (.inr rfl)
  | resize => cases taken; exact .inr (.inr rfl)
  | empty => cases taken; exact .inr (.inr rfl)
  | add key val | replace key val | delete key | find key | fetchValue key | rehash n =>
    obtain ⟨result, -, same⟩ := Option.map_eq_some_iff.mp taken
    cases same
    exact .inr (.inr rfl)

/-- A run keeps to a bound when it never takes the table's leave to be resized, or the bound allows for it. -/
theorem loaded_of_exec {type : DictType κ} (lawful : Lawful type) {calls : List (Call κ ν)}
    (two : 2 ≤ bound)
    (fits : (tableMachine κ ν).Meets (fun store call => call.Fits store) (Store.new type) calls)
    (most : ∀ call ∈ calls, call ≠ .disableResize ∨ dictForceResizeRatio + 1 ≤ bound)
    (ran : (tableMachine κ ν).exec (Store.new type) calls = some (store, answers)) :
    store.dict.Loaded bound := by
  have meets := (tableMachine κ ν).meets_and fits
    ((tableMachine κ ν).meets_of_mem (fun call inside _ => most call inside) (Store.new type))
  refine ((tableMachine κ ν).exec_invariant_of_meets (fun store _ => (∃ m, Represents store m) ∧
    store.dict.Loaded bound ∧ (store.dictCanResize = true ∨ dictForceResizeRatio + 1 ≤ bound))
    ?_ ?_ ran meets).2.1
  · exact ⟨⟨_, represents_new lawful⟩, Nat.zero_le _, .inl rfl⟩
  · rintro store - call store' answers ⟨⟨m, rep⟩, loaded, may⟩ ⟨fits, most⟩ taken
    refine ⟨⟨_, rep.of_call fits taken⟩, loaded.of_call two rep may fits taken, ?_⟩
    -- Resizing is disabled by its own call only, which the bound has to allow for.
    rcases dictCanResize_of_call taken with on | rfl | same
    · exact .inl on
    · exact .inr (most.resolve_left fun other => other rfl)
    · rwa [same]

/--
A table never holds more than six entries for each slot that its newest table has.

It never holds more than two where resizing is not disabled. In either case the calls are to fit.
-/
theorem dictSize_le_newestSize {type : DictType κ} (lawful : Lawful type) {calls : List (Call κ ν)}
    {store : Store κ ν} {answers : List (Answer κ ν)}
    (fits : (tableMachine κ ν).Meets (fun store call => call.Fits store) (Store.new type) calls)
    (ran : (tableMachine κ ν).exec (Store.new type) calls = some (store, answers)) :
    dictSize store.dict ≤ (dictForceResizeRatio + 1) * store.dict.newestSize ∧
      (.disableResize ∉ calls → dictSize store.dict ≤ 2 * store.dict.newestSize) := by
  constructor
  · have six : 2 ≤ dictForceResizeRatio + 1 := by decide
    have loaded := loaded_of_exec lawful six fits (fun _ _ => .inr (Nat.le_refl _)) ran
    exact loaded.le_newestSize six
  · intro never
    have loaded := loaded_of_exec lawful (Nat.le_refl 2) fits
      (fun call inside => .inl fun same => never (same ▸ inside)) ran
    exact loaded.le_newestSize (Nat.le_refl 2)

/-- Four entries in four slots, and then a fifth one. -/
theorem dictSize_le_newestSize_heapStrings : ∃ store answers,
    (tableMachine Int Nat).exec (Store.new dictTypeHeapStrings)
      [.disableResize, .add 1 1, .add 2 2, .add 3 3, .add 4 4, .add 5 5] = some (store, answers) ∧
    dictSize store.dict ≤ (dictForceResizeRatio + 1) * store.dict.newestSize := by
  have fits : (tableMachine Int Nat).Meets (fun store call => call.Fits store)
      (Store.new dictTypeHeapStrings)
      [.disableResize, .add 1 1, .add 2 2, .add 3 3, .add 4 4, .add 5 5] := by decide +kernel
  obtain ⟨store, m, answers, ran, -, -⟩ :=
    exec_represents (represents_new lawful_dictTypeHeapStrings) fits
  exact ⟨store, answers, ran, (dictSize_le_newestSize lawful_dictTypeHeapStrings fits ran).1⟩

end Runs

end Cevent.Hash
