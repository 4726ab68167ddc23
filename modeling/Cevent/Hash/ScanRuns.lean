import Cevent.Hash.Scan

/-! Iterations by `dictScan`: over a dictionary that stays as it is, and over one that is used meanwhile. -/

namespace Cevent.Hash

open Interleaving ReverseCursor

universe u v

variable {κ : Type u} {ν : Type v}

/-- So many calls of `dictScan` in a row, each with the cursor that the one before it returned. -/
def dictScans (d : Dict κ ν) : Nat → BitVec 64 → Option (BitVec 64 × List (DictEntry κ ν))
  | 0, v => some (v, [])
  | n + 1, v => (dictScan d v).bind fun (v, es) =>
    (dictScans d n v).map fun (v, rest) => (v, es ++ rest)

/-- The hash of an entry as a word of the width of the cursor. -/
def hashWord (type : DictType κ) (he : DictEntry κ ν) : BitVec 64 := BitVec.ofNat 64 (hashOf type he)

/-- The hash has less bits than the word. -/
theorem toNat_hashWord (type : DictType κ) (he : DictEntry κ ν) :
    (hashWord type he).toNat = hashOf type he := by
  have small : hashOf type he < 2 ^ 32 := (type.hashFunction he.key).toNat_lt
  rw [hashWord, BitVec.toNat_ofNat, Nat.mod_eq_of_lt (by omega)]

/-- Of the classes that the counter comes to, the one that an entry is in. -/
def classOf (type : DictType κ) (k : Nat) (he : DictEntry κ ν) : Nat :=
  place (hashWord type he) / 2 ^ (64 - k)

theorem classOf_lt (type : DictType κ) {k : Nat} (fits : k ≤ 64) (he : DictEntry κ ν) :
    classOf type k he < 2 ^ k := by
  rw [classOf, Nat.div_lt_iff_lt_mul (Nat.two_pow_pos _), ← Nat.pow_add, Nat.add_sub_cancel' fits]
  exact place_lt _

variable {d : Dict κ ν} {k : Nat}

/-- A cursor that is a number of classes on reports the next one, and goes on behind it. -/
theorem dictScan_class (sound : d.Sound) (some_ : dictSize d ≠ 0) (size : d.smallSize = 2 ^ k)
    (fits : k ≤ 64) {v : BitVec 64} {a : Nat} (below : v.toNat < 2 ^ k)
    (at_ : place v = 2 ^ (64 - k) * a) :
    ∃ es, dictScan d v = some (next k v, es) ∧
      es.Perm (d.entries.filter fun he => decide (classOf d.type k he = a)) := by
  obtain ⟨k', es, most, size', ran, perm⟩ := dictScan_spec sound some_ (size ▸ below)
  obtain rfl : k' = k := Nat.pow_right_injective (Nat.le_refl 2) (size'.symm.trans size)
  refine ⟨es, ran, ?_⟩
  have same : (fun he => decide (hashOf d.type he % 2 ^ k' = v.toNat % 2 ^ k')) =
      fun he : DictEntry κ ν => decide (classOf d.type k' he = a) := by
    funext he
    rw [decide_eq_decide, ← toNat_hashWord, ← place_div_eq_iff fits, at_,
      Nat.mul_div_cancel_left _ (Nat.two_pow_pos _), classOf]
  rwa [same] at perm

/-- Calls in a row come to one class after the other. -/
theorem dictScans_classes (sound : d.Sound) (some_ : dictSize d ≠ 0) (size : d.smallSize = 2 ^ k)
    (fits : k ≤ 64) {n a : Nat} {v : BitVec 64} (below : v.toNat < 2 ^ k)
    (at_ : place v = 2 ^ (64 - k) * a) (inside : a + n ≤ 2 ^ k) :
    ∃ v' es, dictScans d n v = some (v', es) ∧ v'.toNat < 2 ^ k ∧
      place v' = 2 ^ (64 - k) * (a + n) % 2 ^ 64 ∧
      es.Perm (d.entries.filter fun he =>
        decide (a ≤ classOf d.type k he ∧ classOf d.type k he < a + n)) := by
  have whole : 2 ^ 64 = 2 ^ (64 - k) * 2 ^ k := by rw [← Nat.pow_add, Nat.sub_add_cancel fits]
  induction n generalizing v a with
  | zero =>
    refine ⟨v, [], rfl, below, ?_, ?_⟩
    · rw [Nat.add_zero, ← at_, Nat.mod_eq_of_lt (place_lt v)]
    · have none_ : (d.entries.filter fun he =>
          decide (a ≤ classOf d.type k he ∧ classOf d.type k he < a + 0)) = [] := by
        rw [List.filter_eq_nil_iff]
        intro he _
        simp only [decide_eq_true_eq]
        omega
      rw [none_]
  | succ n ih =>
    obtain ⟨es, ran, perm⟩ := dictScan_class sound some_ size fits below at_
    have split : (d.entries.filter fun he => decide (a ≤ classOf d.type k he ∧
        classOf d.type k he < a + (n + 1))).Perm
          ((d.entries.filter fun he => decide (classOf d.type k he = a)) ++
            d.entries.filter fun he => decide (a + 1 ≤ classOf d.type k he ∧
              classOf d.type k he < a + 1 + n)) := by
      apply Chained.filter_perm_append
      · intro he _
        rw [← Bool.decide_or, decide_eq_decide]
        omega
      · intro he _ here
        simp only [decide_eq_true_eq] at here
        simp only [decide_eq_false_iff_not]
        omega
    have next_ : place (next k v) = 2 ^ (64 - k) * (a + 1) % 2 ^ 64 := by
      rw [place_next fits, at_, Nat.mul_div_cancel_left _ (Nat.two_pow_pos _)]
    rcases Nat.lt_or_ge (a + 1) (2 ^ k) with more | last
    · -- The counter has not gone round, so the rest of the calls start from the next class.
      have next_ : place (next k v) = 2 ^ (64 - k) * (a + 1) := by
        rw [next_, Nat.mod_eq_of_lt]
        rw [whole]
        exact Nat.mul_lt_mul_of_pos_left more (Nat.two_pow_pos _)
      obtain ⟨v', rest, ran', below', at', perm'⟩ :=
        ih (toNat_next_lt fits v) next_ (by omega)
      refine ⟨v', es ++ rest, ?_, below', ?_, ?_⟩
      · simp only [dictScans, ran, Option.bind_some, ran', Option.map_some]
      · rw [at']
        congr 2
        omega
      · exact (perm.append perm').trans split.symm
    · -- There is no call behind the one that the counter goes round with.
      obtain rfl : n = 0 := by omega
      refine ⟨next k v, es ++ [], ?_, toNat_next_lt fits v, next_, ?_⟩
      · rw [dictScans, ran]
        rfl
      · have none_ : (d.entries.filter fun he => decide (a + 1 ≤ classOf d.type k he ∧
            classOf d.type k he < a + 1 + 0)) = [] := by
          rw [List.filter_eq_nil_iff]
          intro he _
          simp only [decide_eq_true_eq]
          omega
        rw [none_] at split
        rw [List.append_nil] at split ⊢
        exact perm.trans split.symm

/-- There is a slot where there is an entry. -/
theorem smallSize_pos (sound : d.Sound) (some_ : dictSize d ≠ 0) : 0 < d.smallSize := by
  cases sound.shape with
  | unused first second => simp [dictSize, first, second, dictReset] at some_
  | settled first second idle =>
    rw [Dict.smallSize, if_neg (by simp [dictIsRehashing, idle])]
    exact first.size_pos
  | rehashing both =>
    rw [Dict.smallSize, if_pos both.isRehashing]
    exact Nat.lt_min.mpr ⟨both.first.size_pos, both.second.size_pos⟩

/--
An iteration over a dictionary with entries, which stays as it is, reports each of them once.

The cursor comes back to zero after as many calls as the smaller table has slots, and not before. The calls
that led to the dictionary are to fit. In an empty one the first call leaves the cursor at zero.
-/
theorem dictScans_whole {type : DictType κ} (lawful : Lawful type) {calls : List (Call κ ν)}
    {store : Store κ ν} {answers : List (Answer κ ν)}
    (fits : (tableMachine κ ν).Meets (fun store call => call.Fits store) (Store.new type) calls)
    (ran : (tableMachine κ ν).exec (Store.new type) calls = some (store, answers))
    (some_ : dictSize store.dict ≠ 0) :
    (∃ es, dictScans store.dict store.dict.smallSize 0 = some (0, es) ∧
      es.Perm store.dict.entries) ∧
    ∀ n, 0 < n → n < store.dict.smallSize →
      ∃ v es, dictScans store.dict n 0 = some (v, es) ∧ v ≠ 0 := by
  obtain ⟨m, rep, -⟩ := represents_of_exec lawful fits ran
  have sound := rep.sound
  have positive : (0 : BitVec 64).toNat < store.dict.smallSize := smallSize_pos sound some_
  obtain ⟨k, -, most, size, -, -⟩ := dictScan_spec sound some_ positive
  have fits : k ≤ 64 := by omega
  have zero : place (0 : BitVec 64) = 2 ^ (64 - k) * 0 := (place_eq_zero_iff _).mpr rfl
  have whole : 2 ^ 64 = 2 ^ (64 - k) * 2 ^ k := by rw [← Nat.pow_add, Nat.sub_add_cancel fits]
  constructor
  · obtain ⟨v, es, ran, -, at_, perm⟩ :=
      dictScans_classes sound some_ size fits (size ▸ positive) zero (Nat.le_of_eq (Nat.zero_add _))
    -- The counter has gone round, and every entry is in one of the classes.
    have back : v = 0 := by
      rw [← place_eq_zero_iff v, at_, Nat.zero_add, ← whole, Nat.mod_self]
    have all : (store.dict.entries.filter fun he => decide (0 ≤ classOf store.dict.type k he ∧
        classOf store.dict.type k he < 0 + 2 ^ k)) = store.dict.entries := by
      rw [List.filter_eq_self]
      intro he _
      have := classOf_lt store.dict.type fits he
      simp only [decide_eq_true_eq]
      omega
    rw [all] at perm
    exact ⟨es, by rw [size, ran, back], perm⟩
  · intro n some_' less
    obtain ⟨v, es, ran, -, at_, -⟩ :=
      dictScans_classes sound some_ size fits (size ▸ positive) zero (by omega : 0 + n ≤ 2 ^ k)
    refine ⟨v, es, ran, ?_⟩
    intro back
    have none_ := (place_eq_zero_iff v).mpr back
    have inside : 2 ^ (64 - k) * (0 + n) < 2 ^ 64 := by
      rw [whole]
      exact Nat.mul_lt_mul_of_pos_left (by omega) (Nat.two_pow_pos _)
    rw [at_, Nat.mod_eq_of_lt inside] at none_
    have := Nat.mul_pos (Nat.two_pow_pos (64 - k)) (show 0 < 0 + n by omega)
    omega

/-- Five entries in two tables are reported in four calls. -/
theorem dictScans_whole_heapStrings : ∃ store answers,
    (tableMachine Int Nat).exec (Store.new dictTypeHeapStrings)
      [.add 1 1, .add 2 2, .add 3 3, .add 4 4, .add 5 5] = some (store, answers) ∧
    ∃ es, dictScans store.dict store.dict.smallSize 0 = some (0, es) ∧
      es.Perm store.dict.entries := by
  have fits : (tableMachine Int Nat).Meets (fun store call => call.Fits store)
      (Store.new dictTypeHeapStrings) [.add 1 1, .add 2 2, .add 3 3, .add 4 4, .add 5 5] := by
    decide +kernel
  obtain ⟨store, m, answers, ran, -, -⟩ :=
    exec_represents (represents_new lawful_dictTypeHeapStrings) fits
  have size : ((tableMachine Int Nat).exec (Store.new dictTypeHeapStrings)
      [.add 1 1, .add 2 2, .add 3 3, .add 4 4, .add 5 5]).map (fun done => dictSize done.1.dict) =
        some 5 := by decide +kernel
  rw [ran] at size
  have some_ : dictSize store.dict ≠ 0 := by
    have five : dictSize store.dict = 5 := Option.some.inj size
    omega
  exact ⟨store, answers, ran, (dictScans_whole lawful_dictTypeHeapStrings fits ran some_).1⟩

section Meanwhile

/-- An iteration by `dictScan`: the dictionary, the cursor, and whether that came back to zero. -/
structure Iteration (κ : Type u) (ν : Type v) where
  store : Store κ ν
  v : BitVec 64
  complete : Bool

/-- A call to the dictionary, or the next call of `dictScan`. -/
inductive IterationAction (κ : Type u) (ν : Type v) where
  | call (call : Call κ ν)
  | scan
  deriving DecidableEq, Repr

/-- An iteration among other calls; the trace has the entries that it reports. -/
def iterationMachine (κ : Type u) (ν : Type v) :
    Machine (Iteration κ ν) (IterationAction κ ν) (DictEntry κ ν) where
  step it
    | .call call => (it.store.call call).map fun (store, _) => ({ it with store := store }, [])
    | .scan =>
      -- The caller stops when the cursor that is returned is zero.
      if it.complete then none
      else (dictScan it.store.dict it.v).map fun (v, es) =>
        ({ it with v := v, complete := v == 0 }, es)

/-- The first call of an iteration is made with the cursor zero. -/
def Iteration.start (store : Store κ ν) : Iteration κ ν where
  store := store
  v := 0
  complete := false

/-- A call that does not ask for other tables and does not delete the entry of a key. -/
def Call.Spares (type : DictType κ) (key : κ) : Call κ ν → Prop
  | .delete other => type.keyCompare key other = false
  | .expand _ | .resize | .empty => False
  | _ => True

/-- Meanwhile there are only such calls. -/
def IterationAction.Spares (type : DictType κ) (key : κ) (it : Iteration κ ν) :
    IterationAction κ ν → Prop
  | .call made => made.Fits it.store ∧ made.Spares type key
  | .scan => True

/-- Whether a call spares a key is found out by comparing keys. -/
instance Call.decidableSpares (type : DictType κ) (key : κ) :
    (call : Call κ ν) → Decidable (call.Spares type key)
  | .delete other => inferInstanceAs (Decidable (type.keyCompare key other = false))
  | .expand _ | .resize | .empty => isFalse id
  | .add _ _ | .replace _ _ | .find _ | .fetchValue _ | .rehash _ | .enableResize | .disableResize =>
    isTrue trivial

instance IterationAction.decidableSpares (type : DictType κ) (key : κ) (it : Iteration κ ν) :
    (action : IterationAction κ ν) → Decidable (action.Spares type key it)
  | .call made => inferInstanceAs (Decidable (made.Fits it.store ∧ made.Spares type key))
  | .scan => isTrue trivial

variable {store store' : Store κ ν} {answers : List (Answer κ ν)} {d' : Dict κ ν}

/-- The step before a use does not leave a smaller table. -/
theorem smallSize_of_step (sound : d.Sound) (free : d.iterators = 0)
    (stepped : stepIfRehashing d = some d') : d.smallSize ≤ d'.smallSize := by
  rcases stepIfRehashing_cases sound free stepped with ⟨-, rfl⟩ | ⟨going, -, moves⟩ | ⟨going, -, rfl⟩
  · exact Nat.le_refl _
  · rw [Dict.smallSize, Dict.smallSize, if_pos going, if_pos moves.both.isRehashing, moves.size0,
      moves.size1]
  · rw [Dict.smallSize, if_pos going, Dict.smallSize, if_neg (by simp [dictIsRehashing, Dict.finish])]
    exact Nat.min_le_right _ _

/-- Exchanging a chain leaves the tables at their sizes. -/
@[simp] theorem Dict.smallSize_putChain (d : Dict κ ν) (second : Bool) (i used : Nat)
    (chain : List (DictEntry κ ν)) : (d.putChain second i used chain).smallSize = d.smallSize := by
  cases second <;> rfl

/-- A table that is expanded because it is full gets larger. -/
theorem smallSize_of_expandIfNeeded (sound : d.Sound) (small : dictSize d ≤ 2 ^ 30)
    (dictCanResize : Bool) :
    d.smallSize ≤ (dictExpandIfNeeded dictCanResize d).1.smallSize := by
  cases going : dictIsRehashing d with
  | true =>
    rw [dictExpandIfNeeded, if_pos going]
  | false =>
    obtain ⟨second, none_, first⟩ := sound.shape.not_rehashing going
    rw [dictExpandIfNeeded, if_neg (by simp [going])]
    rcases first with unused | laid
    · -- There was no table, of whatever size.
      rw [Dict.smallSize, if_neg (by simp [going]), unused]
      exact Nat.zero_le _
    · rw [if_neg (Nat.ne_of_gt laid.size_pos)]
      split_ifs with full
      · have alone : dictSize d = d.ht0.used := by simp [dictSize, second, dictReset]
        have twice : d.ht0.used * 2 % 2 ^ 64 = d.ht0.used * 2 := Nat.mod_eq_of_lt (by omega)
        have slots := le_dictNextPower (show d.ht0.used * 2 ≤ 2 ^ 31 by omega)
        rw [twice, dictExpand_settled going laid (by omega), Dict.smallSize,
          if_neg (by simp [going]), Dict.smallSize, if_pos (by rfl)]
        show d.ht0.size ≤ min d.ht0.size (dictNextPower (d.ht0.used * 2))
        exact Nat.le_min.mpr ⟨Nat.le_refl _, by omega⟩
      · exact Nat.le_refl _

/-- A lookup leaves no smaller table. -/
theorem smallSize_of_find (sound : d.Sound) (free : d.iterators = 0) {key : κ}
    {found : Option (Hit κ ν)} (looked : dictFind d key = some (d', found)) :
    d.smallSize ≤ d'.smallSize := by
  rcases dictFind_cases looked with ⟨-, rfl⟩ | stepped
  · exact Nat.le_refl _
  · exact smallSize_of_step sound free stepped

/-- An addition leaves no smaller table. -/
theorem smallSize_of_add (sound : d.Sound) (free : d.iterators = 0) (small : dictSize d ≤ 2 ^ 30)
    {dictCanResize : Bool} {key : κ} {val : ν} {ok : Bool}
    (added : dictAddRaw dictCanResize d key val = some (d', ok)) : d.smallSize ≤ d'.smallSize := by
  obtain ⟨mid, stepped, sound', few, result⟩ := dictAddRaw_cases sound small added
  have grown := (smallSize_of_step sound free stepped).trans
    (smallSize_of_expandIfNeeded sound' few dictCanResize)
  rcases result with rfl | ⟨full, i, chain, rfl, rfl⟩
  · exact grown
  · rwa [Dict.smallSize_putChain]

/-- A rehashing leaves no smaller table, however far it goes. -/
theorem smallSize_of_rehash (sound : d.Sound) {n : Nat} {more : Bool}
    (ran : dictRehash d n = some (d', more)) : d.smallSize ≤ d'.smallSize := by
  rw [dictRehash] at ran
  split_ifs at ran with going
  · obtain ⟨mid, more', looped, reached⟩ := dictRehashLoop_spec (sound.shape.rehashing_of going) n
    obtain rfl : mid = d' := by rw [looped] at ran; cases ran; rfl
    rw [Dict.smallSize, if_pos going]
    cases reached with
    | more same both size0 size1 fewer =>
      rw [Dict.smallSize, if_pos both.isRehashing, size0, size1]
    | done same first second idle size0 =>
      rw [Dict.smallSize, if_neg (by simp [dictIsRehashing, idle]), size0]
      exact Nat.min_le_right _ _
  · cases ran
    exact Nat.le_refl _

/-- The calls that spare a key leave no smaller table. -/
theorem smallSize_of_call {m : Cevent.Dict κ ν} (rep : Represents store m) {call : Call κ ν}
    {type : DictType κ} {key : κ} (fits : call.Fits store) (spares : call.Spares type key)
    (taken : store.call call = some (store', answers)) :
    store.dict.smallSize ≤ store'.dict.smallSize := by
  cases call with
  | add key val =>
    obtain ⟨⟨d', ok⟩, added, same⟩ := Option.map_eq_some_iff.mp taken
    cases same
    exact smallSize_of_add rep.sound rep.free fits added
  | replace key val =>
    obtain ⟨⟨d', ok⟩, replaced, same⟩ := Option.map_eq_some_iff.mp taken
    cases same
    obtain ⟨mid, added, ran, result⟩ := dictReplace_cases replaced
    have grown := smallSize_of_add rep.sound rep.free fits ran
    -- The addition may have expanded the table, so the lookup after it has its own step to make.
    rcases result with rfl | ⟨last, found, looked, second, i, chain, rfl⟩
    · exact grown
    · have few : store.dict.entries.length ≤ 2 ^ 30 := by rwa [← rep.sound.dictSize_eq]
      obtain ⟨sound', free'⟩ := sound_of_add rep.sound rep.free few ran
      rw [Dict.smallSize_putChain]
      exact grown.trans (smallSize_of_find sound' free' looked)
  | delete key =>
    obtain ⟨⟨d', ok⟩, deleted, same⟩ := Option.map_eq_some_iff.mp taken
    cases same
    rcases dictGenericDelete_cases deleted with
      ⟨-, rfl⟩ | ⟨mid, stepped, rfl | ⟨second, i, chain, rfl⟩⟩
    · exact Nat.le_refl _
    · exact smallSize_of_step rep.sound rep.free stepped
    · rw [Dict.smallSize_putChain]
      exact smallSize_of_step rep.sound rep.free stepped
  | find key =>
    obtain ⟨⟨d', found⟩, looked, same⟩ := Option.map_eq_some_iff.mp taken
    cases same
    exact smallSize_of_find rep.sound rep.free looked
  | fetchValue key =>
    obtain ⟨⟨d', val⟩, fetched, same⟩ := Option.map_eq_some_iff.mp taken
    obtain ⟨⟨d'', found⟩, looked, same'⟩ := Option.map_eq_some_iff.mp fetched
    cases same
    cases same'
    exact smallSize_of_find rep.sound rep.free looked
  | rehash n =>
    obtain ⟨⟨d', more⟩, ran, same⟩ := Option.map_eq_some_iff.mp taken
    cases same
    exact smallSize_of_rehash rep.sound ran
  | expand size | resize | empty => exact spares.elim
  | enableResize | disableResize =>
    cases taken
    exact Nat.le_refl _

/-- An addition leaves the entries that are there. -/
theorem holds_of_dictAdd {m : Cevent.Dict κ ν} {type : DictType κ} {key : κ}
    (holds : Holds type key m.entries) (other : κ) (val : ν) :
    Holds type key (Cevent.dictAdd m other val).1.entries := by
  obtain ⟨he, inside, same⟩ := holds
  rw [Cevent.dictAdd]
  split
  · exact ⟨he, inside, same⟩
  · exact ⟨he, List.mem_append_left _ inside, same⟩

/-- Calls that spare a key leave its entry there. -/
theorem holds_of_call {m : Cevent.Dict κ ν} {type : DictType κ} (lawful : Lawful type)
    (is : m.type = type) {key : κ} {call : Call κ ν} (spares : call.Spares type key)
    (holds : Holds type key m.entries) : Holds type key (mapCall m call).1.entries := by
  cases call with
  | add other val => exact holds_of_dictAdd holds other val
  | replace other val =>
    show Holds type key (mapReplace m other val).1.entries
    rw [mapReplace]
    split
    · exact holds_of_dictAdd holds other val
    · -- The entry may have another value, and has the key that it had.
      obtain ⟨he, inside, same⟩ := holds
      refine ⟨_, List.mem_map_of_mem inside, ?_⟩
      split_ifs
      · exact same
      · exact same
  | delete other =>
    show Holds type key (Cevent.dictDelete m other).1.entries
    obtain ⟨he, inside, same⟩ := holds
    rw [Cevent.dictDelete]
    split
    · exact ⟨he, inside, same⟩
    · refine ⟨he, (List.mem_eraseP_of_neg ?_).mpr inside, same⟩
      -- An entry that the deletion takes away would be of a key that is the same.
      intro matches_
      rw [Cevent.Dict.matchesKey, DictType.sameKey, Bool.and_eq_true, is] at matches_
      have equal := lawful.trans _ _ _ same (lawful.symm _ _ matches_.2)
      replace spares : type.keyCompare key other = false := spares
      rw [spares] at equal
      cases equal
  | find other | fetchValue other | rehash n | enableResize | disableResize => exact holds
  | expand size | resize | empty => exact spares.elim

/-- What an iteration keeps for a key: all that its entry could come after was passed, or it was reported. -/
structure Iterating (type : DictType κ) (key : κ) (it : Iteration κ ν)
    (reported : List (DictEntry κ ν)) : Prop where
  represents : ∃ m, Represents it.store m ∧ m.type = type ∧ Holds type key m.entries
  below : it.v.toNat < it.store.dict.smallSize
  seen : Holds type key reported ∨
    (it.complete = false ∧ place it.v ≤ place (BitVec.ofNat 64 (type.hashFunction key).toNat))

/-- An entry of the key is in the tables, with the hash of the key. -/
theorem Iterating.entry {type : DictType κ} (lawful : Lawful type) {key : κ} {it : Iteration κ ν}
    {reported : List (DictEntry κ ν)} (iterating : Iterating type key it reported) :
    it.store.dict.Sound ∧ it.store.dict.type = type ∧ ∃ he ∈ it.store.dict.entries,
      type.keyCompare key he.key = true ∧ hashOf type he = (type.hashFunction key).toNat := by
  obtain ⟨m, rep, is, he, inside, same⟩ := iterating.represents
  exact ⟨rep.sound, rep.type.symm.trans is, he, rep.entries.mem_iff.mpr inside, same, by
    rw [hashOf, lawful.hash _ _ same]⟩

/-- An iteration over a dictionary that has an entry of a key starts so. -/
theorem iterating_start {type : DictType κ} {key : κ} {m : Cevent.Dict κ ν}
    (rep : Represents store m) (is : m.type = type) (holds : Holds type key m.entries) :
    Iterating type key (Iteration.start store) [] where
  represents := ⟨m, rep, is, holds⟩
  below := by
    obtain ⟨he, inside, -⟩ := holds
    apply smallSize_pos rep.sound
    rw [rep.sound.dictSize_eq]
    exact Nat.ne_of_gt (List.length_pos_of_mem (rep.entries.mem_iff.mpr inside))
  seen := by
    refine .inr ⟨rfl, ?_⟩
    rw [show place (Iteration.start store).v = 0 from (place_eq_zero_iff _).mpr rfl]
    exact Nat.zero_le _

/-- A call of `dictScan` reports the entry of the key when it passes it. -/
theorem Iterating.scan {type : DictType κ} (lawful : Lawful type) {key : κ} {it : Iteration κ ν}
    {reported es : List (DictEntry κ ν)} {v : BitVec 64}
    (iterating : Iterating type key it reported)
    (ran : dictScan it.store.dict it.v = some (v, es)) :
    Iterating type key { it with v := v, complete := v == 0 } (reported ++ es) := by
  obtain ⟨sound, is, he, inside, same, hash⟩ := iterating.entry lawful
  have some_ : dictSize it.store.dict ≠ 0 := by
    rw [sound.dictSize_eq]
    exact Nat.ne_of_gt (List.length_pos_of_mem inside)
  obtain ⟨k, es', most, size, ran', perm⟩ := dictScan_spec sound some_ iterating.below
  obtain ⟨rfl, rfl⟩ : next k it.v = v ∧ es' = es := by
    rw [ran'] at ran
    exact Prod.mk.inj (Option.some.inj ran)
  refine ⟨iterating.represents, ?_, ?_⟩
  · show (next k it.v).toNat < it.store.dict.smallSize
    rw [size]
    exact toNat_next_lt (by omega) it.v
  · rcases iterating.seen with reported_ | ⟨-, ahead⟩
    · obtain ⟨he', inside', same'⟩ := reported_
      exact .inl ⟨he', List.mem_append_left _ inside', same'⟩
    · have toNat : (BitVec.ofNat 64 (type.hashFunction key).toNat).toNat =
          (type.hashFunction key).toNat := by
        have := (type.hashFunction key).toNat_lt
        rw [BitVec.toNat_ofNat, Nat.mod_eq_of_lt (by omega)]
      by_cases passed : next k it.v = 0 ∨
          place (BitVec.ofNat 64 (type.hashFunction key).toNat) < place (next k it.v)
      · -- The counter passes the hash with this call, so the entry is in the class of the cursor.
        rcases passed_iff (by omega) passed with before | class_
        · omega
        · refine .inl ⟨he, List.mem_append_right _ (perm.mem_iff.mpr ?_), same⟩
          rw [List.mem_filter, decide_eq_true_eq, is, hash, ← class_, toNat]
          exact ⟨inside, rfl⟩
      · obtain ⟨notZero, notPassed⟩ := not_or.mp passed
        exact .inr ⟨by simpa using notZero, Nat.le_of_not_lt notPassed⟩

/--
An iteration by `dictScan` reports every entry that is there all the time, however the dictionary is used.

Entries may be added, replaced, looked up and, of other keys, deleted meanwhile, and the tables may be
expanded for that and rehashed. The calls are to fit, those before the iteration and those meanwhile.
-/
theorem dictScan_complete {type : DictType κ} (lawful : Lawful type) {calls : List (Call κ ν)}
    {store : Store κ ν} {answers : List (Answer κ ν)}
    (fits : (tableMachine κ ν).Meets (fun store call => call.Fits store) (Store.new type) calls)
    (ran : (tableMachine κ ν).exec (Store.new type) calls = some (store, answers)) {key : κ}
    (holds : Holds type key store.dict.entries) {acts : List (IterationAction κ ν)}
    {it : Iteration κ ν} {reported : List (DictEntry κ ν)}
    (spares : (iterationMachine κ ν).Meets (IterationAction.Spares type key) (.start store) acts)
    (iterated : (iterationMachine κ ν).exec (.start store) acts = some (it, reported))
    (complete : it.complete = true) : Holds type key reported := by
  obtain ⟨m, rep, is⟩ := represents_of_exec lawful fits ran
  have holds' : Holds type key m.entries := by
    obtain ⟨he, inside, same⟩ := holds
    exact ⟨he, rep.entries.mem_iff.mp inside, same⟩
  -- The entry is reported, or the cursor has not come to its class.
  have iterating := (iterationMachine κ ν).exec_invariant_of_meets (Iterating type key)
    (iterating_start rep is holds') ?_ iterated spares
  · refine iterating.seen.resolve_right ?_
    rintro ⟨open_, -⟩
    rw [complete] at open_
    cases open_
  · intro it reported action it' events iterating meanwhile taken
    cases action with
    | scan =>
      cases open_ : it.complete with
      | true => simp [iterationMachine, open_] at taken
      | false =>
        simp only [iterationMachine, open_, Bool.false_eq_true, if_false] at taken
        obtain ⟨⟨v, es⟩, ran, same⟩ := Option.map_eq_some_iff.mp taken
        cases same
        exact iterating.scan lawful ran
    | call call =>
      obtain ⟨⟨store', answers⟩, made, same⟩ := Option.map_eq_some_iff.mp taken
      cases same
      obtain ⟨m, rep, is, holds⟩ := iterating.represents
      obtain ⟨fits, spares⟩ := meanwhile
      rw [List.append_nil]
      refine ⟨⟨_, rep.of_call fits made, ?_, holds_of_call lawful is spares holds⟩, ?_, ?_⟩
      · exact (mapCall_type m call).trans is
      · exact Nat.lt_of_lt_of_le iterating.below (smallSize_of_call rep fits spares made)
      · exact iterating.seen

/-- An entry is reported though the table is expanded and rehashed in the middle of the iteration. -/
theorem dictScan_complete_heapStrings : ∃ store answers it reported,
    (tableMachine Int Nat).exec (Store.new dictTypeHeapStrings)
      [.add 1 1, .add 2 2, .add 3 3] = some (store, answers) ∧
    (iterationMachine Int Nat).exec (.start store)
      [.scan, .call (.add 4 4), .call (.add 5 5), .scan, .scan, .scan] = some (it, reported) ∧
    Holds dictTypeHeapStrings 3 reported := by
  have fits : (tableMachine Int Nat).Meets (fun store call => call.Fits store)
      (Store.new dictTypeHeapStrings) [.add 1 1, .add 2 2, .add 3 3] := by decide +kernel
  obtain ⟨store, m, answers, ran, -, -⟩ :=
    exec_represents (represents_new lawful_dictTypeHeapStrings) fits
  -- The iteration over what the additions leave is computed.
  have state : ((tableMachine Int Nat).exec (Store.new dictTypeHeapStrings)
      [.add 1 1, .add 2 2, .add 3 3]).map (fun done =>
        let acts := [.scan, .call (.add 4 4), .call (.add 5 5), .scan, .scan, .scan]
        (done.1.dict.entries.any (fun he => dictTypeHeapStrings.keyCompare 3 he.key),
          decide ((iterationMachine Int Nat).Meets (IterationAction.Spares dictTypeHeapStrings 3)
            (.start done.1) acts),
          ((iterationMachine Int Nat).exec (.start done.1) acts).map fun last => last.1.complete)) =
      some (true, true, some true) := by decide +kernel
  rw [ran] at state
  obtain ⟨present, rest⟩ := Prod.mk.inj (Option.some.inj state)
  obtain ⟨spares, last⟩ := Prod.mk.inj rest
  obtain ⟨⟨it, reported⟩, iterated, complete⟩ := Option.map_eq_some_iff.mp last
  exact ⟨store, answers, it, reported, ran, iterated,
    dictScan_complete lawful_dictTypeHeapStrings fits ran (List.any_eq_true.mp present)
      (of_decide_eq_true spares) iterated complete⟩

end Meanwhile

end Cevent.Hash
