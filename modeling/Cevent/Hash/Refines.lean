import Cevent.Hash.Operations
import Cevent.Library.Machine

/-! The hash table of `dict.c` is a map: whatever is called, it answers as one that has no tables at all. -/

namespace Cevent.Hash

open Interleaving

universe u v

variable {κ : Type u} {ν : Type v}

/-- A call to the dictionary, or to one of the functions that set `dict_can_resize`. -/
inductive Call (κ : Type u) (ν : Type v) where
  | add (key : κ) (val : ν)
  | replace (key : κ) (val : ν)
  | delete (key : κ)
  | find (key : κ)
  | fetchValue (key : κ)
  | expand (size : Nat)
  | resize
  | rehash (n : Nat)
  | empty
  | enableResize
  | disableResize
  deriving DecidableEq, Repr

/-- What a caller gets to see of the entries. -/
inductive Answer (κ : Type u) (ν : Type v) where
  /-- Whether `dictAdd` or `dictDelete` returned `DICT_OK`, or `dictReplace` returned 1. -/
  | returned (ok : Bool)
  | entry (he : Option (DictEntry κ ν))
  | value (val : Option ν)
  deriving DecidableEq, Repr

/-- A dictionary, and the static variable of `dict.c`. -/
structure Store (κ : Type u) (ν : Type v) where
  dict : Dict κ ν
  dictCanResize : Bool

/-- Before the first call. -/
def Store.new (type : DictType κ) : Store κ ν where
  dict := dictCreate type
  dictCanResize := true

/-- A call to the hash table; nothing stands for a read or a write outside of its tables. -/
def Store.call (store : Store κ ν) : Call κ ν → Option (Store κ ν × List (Answer κ ν))
  | .add key val => (dictAdd store.dictCanResize store.dict key val).map fun (d, ok) =>
    ({ store with dict := d }, [.returned ok])
  | .replace key val => (dictReplace store.dictCanResize store.dict key val).map fun (d, ok) =>
    ({ store with dict := d }, [.returned ok])
  | .delete key => (dictDelete store.dict key).map fun (d, ok) =>
    ({ store with dict := d }, [.returned ok])
  | .find key => (dictFind store.dict key).map fun (d, found) =>
    ({ store with dict := d }, [.entry (found.map (·.he))])
  | .fetchValue key => (dictFetchValue store.dict key).map fun (d, val) =>
    ({ store with dict := d }, [.value val])
  | .expand size => some ({ store with dict := (dictExpand store.dict size).1 }, [])
  | .resize => some ({ store with dict := (dictResize store.dictCanResize store.dict).1 }, [])
  | .rehash n => (dictRehash store.dict n).map fun (d, _) => ({ store with dict := d }, [])
  | .empty => some ({ store with dict := (dictEmpty store.dict).1 }, [])
  | .enableResize => some ({ store with dictCanResize := true }, [])
  | .disableResize => some ({ store with dictCanResize := false }, [])

/-- A hash table and the calls to it. -/
def tableMachine (κ : Type u) (ν : Type v) : Machine (Store κ ν) (Call κ ν) (Answer κ ν) where
  step := Store.call

/-- Another value for a key, as a map has it. -/
def mapReplace (m : Cevent.Dict κ ν) (key : κ) (val : ν) : Cevent.Dict κ ν × Bool :=
  match Cevent.dictFind m key with
  | none => Cevent.dictAdd m key val
  | some _ =>
    let set := fun he => if m.matchesKey key he then { he with val := val } else he
    ({ m with entries := m.entries.map set }, false)

/-- A call to a map, which has no tables to expand. -/
def mapCall (m : Cevent.Dict κ ν) : Call κ ν → Cevent.Dict κ ν × List (Answer κ ν)
  | .add key val => ((Cevent.dictAdd m key val).1, [.returned (Cevent.dictAdd m key val).2])
  | .replace key val => ((mapReplace m key val).1, [.returned (mapReplace m key val).2])
  | .delete key => ((Cevent.dictDelete m key).1, [.returned (Cevent.dictDelete m key).2])
  | .find key => (m, [.entry (Cevent.dictFind m key)])
  | .fetchValue key => (m, [.value ((Cevent.dictFind m key).map (·.val))])
  | .empty => ({ m with entries := [] }, [])
  | .expand _ | .resize | .rehash _ | .enableResize | .disableResize => (m, [])

/-- A map and the calls to it. -/
def mapMachine (κ : Type u) (ν : Type v) : Machine (Cevent.Dict κ ν) (Call κ ν) (Answer κ ν) where
  step m call := some (mapCall m call)

/-- Entries are added while there are at most `2 ^ 30`, and no more than `2 ^ 31` slots are asked for. -/
def Call.Fits (store : Store κ ν) : Call κ ν → Prop
  | .add _ _ | .replace _ _ => dictSize store.dict ≤ 2 ^ 30
  | .expand size => size ≤ 2 ^ 31
  | .resize => dictSize store.dict ≤ 2 ^ 31
  | _ => True

/-- Whether a call fits is found out by looking at the counts. -/
instance Call.decidableFits (store : Store κ ν) : (call : Call κ ν) → Decidable (call.Fits store)
  | .add _ _ | .replace _ _ => inferInstanceAs (Decidable (dictSize store.dict ≤ 2 ^ 30))
  | .expand size => inferInstanceAs (Decidable (size ≤ 2 ^ 31))
  | .resize => inferInstanceAs (Decidable (dictSize store.dict ≤ 2 ^ 31))
  | .delete _ | .find _ | .fetchValue _ | .rehash _ | .empty | .enableResize | .disableResize =>
    isTrue trivial

/-- A hash table holds the entries of a map, in whatever slots. -/
structure Represents (store : Store κ ν) (m : Cevent.Dict κ ν) : Prop where
  sound : store.dict.Sound
  type : m.type = store.dict.type
  entries : store.dict.entries.Perm m.entries
  /-- None of the calls here begins to iterate. -/
  free : store.dict.iterators = 0

/-- The table and the map give the same answer to a call, and the table holds what the map is left with. -/
def Agrees (store : Store κ ν) (m : Cevent.Dict κ ν) (call : Call κ ν) : Prop :=
  ∃ store', store.call call = some (store', (mapCall m call).2) ∧ Represents store' (mapCall m call).1

/-- Resizing keeps the entries, whether it expands the table or not. -/
theorem dictResize_spec {d : Dict κ ν} (sound : d.Sound) (small : dictSize d ≤ 2 ^ 31)
    (dictCanResize : Bool) :
    (dictResize dictCanResize d).1.Sound ∧ d.SameEntries (dictResize dictCanResize d).1 := by
  rw [dictResize]
  split_ifs with refused
  · exact ⟨sound, .refl d⟩
  · have minimal : (if d.ht0.used < dictHtInitialSize then dictHtInitialSize else d.ht0.used)
        ≤ 2 ^ 31 := by
      unfold dictHtInitialSize
      unfold dictSize at small
      split_ifs <;> omega
    have spec := dictExpand_spec sound minimal
    exact ⟨spec.sound, spec.same⟩

namespace Represents

variable {store : Store κ ν} {m : Cevent.Dict κ ν} (rep : Represents store m)

include rep

/-- What lies in one slot and is equal is equal, as equal keys have equal hashes. -/
theorem matchesKey_eq (key : κ) (he : DictEntry κ ν) :
    m.matchesKey key he = store.dict.type.keyCompare key he.key := by
  rw [Cevent.Dict.matchesKey, DictType.sameKey, rep.type]
  cases same : store.dict.type.keyCompare key he.key with
  | false => simp
  | true => simp [rep.sound.lawful.hash _ _ same]

/-- The map finds the one entry of the key. -/
theorem find_eq {key : κ} {he : DictEntry κ ν} (inside : he ∈ store.dict.entries)
    (same : store.dict.type.keyCompare key he.key = true) : Cevent.dictFind m key = some he := by
  have present : (Cevent.dictFind m key).isSome := by
    rw [dictFind_isSome_iff]
    exact ⟨he, rep.entries.mem_iff.mp inside, by rw [rep.matchesKey_eq, same]⟩
  obtain ⟨other, found⟩ := Option.isSome_iff_exists.mp present
  obtain ⟨inside', same'⟩ := dictFind_some found
  rw [rep.matchesKey_eq] at same'
  rw [found, rep.sound.unique (rep.entries.mem_iff.mpr inside') inside same' same]

/-- The map finds nothing when no entry is of the key. -/
theorem find_eq_none {key : κ}
    (away : ∀ he ∈ store.dict.entries, store.dict.type.keyCompare key he.key = false) :
    Cevent.dictFind m key = none := by
  rw [Cevent.dictFind, List.find?_eq_none]
  intro he inside matches_
  rw [rep.matchesKey_eq, away he (rep.entries.mem_iff.mpr inside)] at matches_
  cases matches_

/-- The map may go on with the entries that an operation leaves in the tables. -/
theorem of_updates {d' : Dict κ ν} {old new : List (DictEntry κ ν)}
    (updates : store.dict.Updates d' old new) {entries : List (DictEntry κ ν)}
    (moves : ∀ rest, m.entries.Perm (old ++ rest) → entries.Perm (new ++ rest)) :
    Represents { store with dict := d' } { m with entries := entries } where
  sound := updates.sound
  type := by rw [rep.type]; exact updates.type.symm
  entries := by
    obtain ⟨rest, before, after⟩ := updates.entries
    exact after.trans (moves rest (rep.entries.symm.trans before)).symm
  free := updates.iterators.trans rep.free

/-- Moving entries between tables is not seen in the map. -/
theorem of_same {d' : Dict κ ν} (sound : d'.Sound) (same : store.dict.SameEntries d') :
    Represents { store with dict := d' } m :=
  rep.of_updates (same.keeps sound) fun _ perm => perm

/-- Of equal keys the map keeps the first one. -/
theorem agrees_add (key : κ) (val : ν) (small : dictSize store.dict ≤ 2 ^ 30) :
    Agrees store m (.add key val) := by
  rw [rep.sound.dictSize_eq] at small
  obtain ⟨d', ok, ran, result⟩ := dictAddRaw_spec rep.sound small store.dictCanResize key val
  have taken : store.call (.add key val) = some ({ store with dict := d' }, [.returned ok]) := by
    rw [Store.call, dictAdd, ran]
    rfl
  rcases result with ⟨rfl, updates, away⟩ | ⟨rfl, updates, he, inside, same⟩
  · have added : Cevent.dictAdd m key val =
        ({ m with entries := m.entries ++ [{ key := key, val := val }] }, true) := by
      rw [Cevent.dictAdd, rep.find_eq_none away]
    refine ⟨_, by rw [taken, mapCall, added], ?_⟩
    rw [mapCall, added]
    refine rep.of_updates updates fun rest perm => ?_
    -- The map puts a new entry behind the others.
    exact (perm.append_right _).trans List.perm_append_comm
  · have kept : Cevent.dictAdd m key val = (m, false) := by
      rw [Cevent.dictAdd, rep.find_eq inside same]
    refine ⟨_, by rw [taken, mapCall, kept], ?_⟩
    rw [mapCall, kept]
    exact rep.of_updates updates fun rest perm => perm

/-- The map takes away the entry that it would have found. -/
theorem agrees_delete (key : κ) : Agrees store m (.delete key) := by
  obtain ⟨d', ok, ran, result⟩ := dictGenericDelete_spec rep.sound key
  have taken : store.call (.delete key) = some ({ store with dict := d' }, [.returned ok]) := by
    rw [Store.call, dictDelete, ran]
    rfl
  rcases result with ⟨rfl, updates, away⟩ | ⟨he, rfl, updates, same⟩
  · have kept : Cevent.dictDelete m key = (m, false) := by
      rw [Cevent.dictDelete, rep.find_eq_none away]
    refine ⟨_, by rw [taken, mapCall, kept], ?_⟩
    rw [mapCall, kept]
    exact rep.of_updates updates fun rest perm => perm
  · obtain ⟨others, perm, -⟩ := updates.entries
    have inside : he ∈ store.dict.entries := perm.mem_iff.mpr (by simp)
    obtain ⟨before, after, split, deleted⟩ := dictDelete_found (rep.find_eq inside same)
    refine ⟨_, by rw [taken, mapCall, deleted], ?_⟩
    rw [mapCall, deleted]
    refine rep.of_updates updates fun rest whole => ?_
    -- The one entry is in front of the others, wherever it stood before.
    rw [split] at whole
    exact (List.perm_middle.symm.trans whole).cons_inv

/-- The map finds the entry that the tables lead to. -/
theorem find_map_he {d' : Dict κ ν} {key : κ} {found : Option (Hit κ ν)}
    (same : store.dict.SameEntries d')
    (none_ : found = none → ∀ he ∈ store.dict.entries, store.dict.type.keyCompare key he.key = false)
    (leads : ∀ hit, found = some hit → d'.Leads key hit) :
    found.map (·.he) = Cevent.dictFind m key := by
  cases found with
  | none => exact (rep.find_eq_none (none_ rfl)).symm
  | some hit =>
    have leads := leads hit rfl
    have equal := leads.same
    rw [same.type] at equal
    exact (rep.find_eq (same.entries.mem_iff.mp leads.mem_entries) equal).symm

/-- Looking an entry up moves at most entries between the tables. -/
theorem agrees_find (key : κ) : Agrees store m (.find key) := by
  obtain ⟨d', found, ran, sound, same, none_, leads⟩ := dictFind_spec rep.sound key
  refine ⟨{ store with dict := d' }, ?_, rep.of_same sound same⟩
  rw [Store.call, ran, mapCall, ← rep.find_map_he same none_ leads]
  rfl

/-- And so does looking a value up. -/
theorem agrees_fetchValue (key : κ) : Agrees store m (.fetchValue key) := by
  obtain ⟨d', found, ran, sound, same, none_, leads⟩ := dictFind_spec rep.sound key
  refine ⟨{ store with dict := d' }, ?_, rep.of_same sound same⟩
  rw [Store.call, dictFetchValue, ran, mapCall, ← rep.find_map_he same none_ leads]
  cases found <;> rfl

/-- The value of one entry is another one afterwards. -/
theorem agrees_replace (key : κ) (val : ν) (small : dictSize store.dict ≤ 2 ^ 30) :
    Agrees store m (.replace key val) := by
  rw [rep.sound.dictSize_eq] at small
  obtain ⟨d', ok, ran, result⟩ := dictReplace_spec rep.sound small store.dictCanResize key val
  have taken : store.call (.replace key val) = some ({ store with dict := d' }, [.returned ok]) := by
    rw [Store.call, ran]
    rfl
  rcases result with ⟨rfl, updates, away⟩ | ⟨he, rfl, updates, same⟩
  · have added : mapReplace m key val =
        ({ m with entries := m.entries ++ [{ key := key, val := val }] }, true) := by
      simp only [mapReplace, Cevent.dictAdd, rep.find_eq_none away]
    refine ⟨_, by rw [taken, mapCall, added], ?_⟩
    rw [mapCall, added]
    refine rep.of_updates updates fun rest perm => ?_
    exact (perm.append_right _).trans List.perm_append_comm
  · obtain ⟨others, perm, -⟩ := updates.entries
    have inside : he ∈ store.dict.entries := perm.mem_iff.mpr (by simp)
    have set : ∃ entries, mapReplace m key val = ({ m with entries := entries }, false) ∧
        entries = m.entries.map fun he => if m.matchesKey key he then { he with val := val } else he := by
      refine ⟨_, ?_, rfl⟩
      simp only [mapReplace, rep.find_eq inside same]
    obtain ⟨entries, set, is⟩ := set
    refine ⟨_, by rw [taken, mapCall, set], ?_⟩
    rw [mapCall, set]
    refine rep.of_updates updates fun rest whole => ?_
    rw [is]
    refine (whole.map _).trans ?_
    -- The others are of other keys, so the map leaves them as they are.
    have unchanged : rest.map (fun he => if m.matchesKey key he then { he with val := val } else he)
        = rest := by
      refine (List.map_congr_left fun other among => if_neg ?_).trans (List.map_id' rest)
      have symmetric := rep.sound.lawful.apart_symm (ν := ν)
      have distinct := ((rep.entries.trans whole).pairwise_iff
        fun {a b} => symmetric.symm a b).mp rep.sound.distinct
      have apart := (List.pairwise_cons.mp distinct).1 other among
      rw [rep.matchesKey_eq]
      intro equal
      rw [Apart, rep.sound.lawful.trans _ _ _ (rep.sound.lawful.symm _ _ same) equal] at apart
      cases apart
    rw [List.map_append, List.map_singleton, unchanged, rep.matchesKey_eq, if_pos same]

end Represents

/-- Every call that fits is answered as by the map. -/
theorem agrees_of_fits {store : Store κ ν} {m : Cevent.Dict κ ν} (rep : Represents store m)
    {call : Call κ ν} (fits : call.Fits store) : Agrees store m call := by
  cases call with
  | add key val => exact rep.agrees_add key val fits
  | replace key val => exact rep.agrees_replace key val fits
  | delete key => exact rep.agrees_delete key
  | find key => exact rep.agrees_find key
  | fetchValue key => exact rep.agrees_fetchValue key
  -- The calls for other tables have no answer, and keep the entries.
  | expand size =>
    have spec := dictExpand_spec rep.sound fits
    exact ⟨_, rfl, rep.of_same spec.sound spec.same⟩
  | resize =>
    obtain ⟨sound, same⟩ := dictResize_spec rep.sound fits store.dictCanResize
    exact ⟨_, rfl, rep.of_same sound same⟩
  | rehash n =>
    obtain ⟨d', more, ran, steps⟩ := dictRehash_spec rep.sound n
    exact ⟨{ store with dict := d' }, by rw [Store.call, ran]; rfl, rep.of_same steps.sound steps.same⟩
  | empty =>
    have sound : (dictEmpty store.dict).1.Sound := ⟨rep.sound.lawful, .unused rfl rfl rfl, .nil⟩
    exact ⟨_, rfl, sound, rep.type, .refl _, rfl⟩
  | enableResize => exact ⟨_, rfl, rep.sound, rep.type, rep.entries, rep.free⟩
  | disableResize => exact ⟨_, rfl, rep.sound, rep.type, rep.entries, rep.free⟩

/-- A new dictionary represents a new map. -/
theorem represents_new {type : DictType κ} (lawful : Lawful type) :
    Represents (Store.new type : Store κ ν) (Cevent.dictCreate type) :=
  ⟨⟨lawful, .unused rfl rfl rfl, .nil⟩, rfl, .refl _, rfl⟩

/-- The strings that an io has as its keys are lawful. -/
theorem lawful_dictTypeHeapStrings : Lawful dictTypeHeapStrings where
  refl key := by simp [dictTypeHeapStrings]
  symm key other same := by
    simp only [dictTypeHeapStrings, beq_iff_eq] at same ⊢
    exact same.symm
  trans key other third first second := by
    simp only [dictTypeHeapStrings, beq_iff_eq] at first second ⊢
    exact first.trans second
  hash key other same := by
    simp only [dictTypeHeapStrings, beq_iff_eq] at same ⊢
    rw [same]

/-- A run of calls that fit goes through, and leaves a table that holds the entries of the map. -/
theorem exec_represents {store : Store κ ν} {m : Cevent.Dict κ ν} (rep : Represents store m)
    {calls : List (Call κ ν)}
    (fits : (tableMachine κ ν).Meets (fun store call => call.Fits store) store calls) :
    ∃ store' m' answers, (tableMachine κ ν).exec store calls = some (store', answers) ∧
      (mapMachine κ ν).exec m calls = some (m', answers) ∧ Represents store' m' := by
  refine Machine.exec_simulation_of_meets ?_ rep calls fits
  intro store m call rep ok
  obtain ⟨store', taken, rep'⟩ := agrees_of_fits rep ok
  exact ⟨store', _, _, taken, rfl, rep'⟩

/-- No call gives a map another type. -/
theorem mapCall_type (m : Cevent.Dict κ ν) (call : Call κ ν) : (mapCall m call).1.type = m.type := by
  have added : ∀ key val, (Cevent.dictAdd m key val).1.type = m.type := by
    intro key val
    rw [Cevent.dictAdd]
    split <;> rfl
  -- A new map is written at additions and deletions only.
  cases call with
  | add key val => exact added key val
  | replace key val =>
    show (mapReplace m key val).1.type = m.type
    rw [mapReplace]
    split
    · exact added key val
    · rfl
  | delete key =>
    show (Cevent.dictDelete m key).1.type = m.type
    rw [Cevent.dictDelete]
    split <;> rfl
  | find key | fetchValue key | rehash n | enableResize | disableResize | expand size | resize | empty =>
    rfl

/-- What a run leaves of a new dictionary represents a map of the same type. -/
theorem represents_of_exec {type : DictType κ} (lawful : Lawful type) {calls : List (Call κ ν)}
    {store : Store κ ν} {answers : List (Answer κ ν)}
    (fits : (tableMachine κ ν).Meets (fun store call => call.Fits store) (Store.new type) calls)
    (ran : (tableMachine κ ν).exec (Store.new type) calls = some (store, answers)) :
    ∃ m, Represents store m ∧ m.type = type := by
  obtain ⟨other, m, answers', ran', map, rep⟩ := exec_represents (represents_new lawful) fits
  obtain rfl : other = store := by
    rw [ran'] at ran
    cases ran
    rfl
  refine ⟨m, rep, (mapMachine κ ν).exec_invariant (fun m' _ => m'.type = type) rfl ?_ map⟩
  intro m before call m' answers is taken
  have same : (mapCall m call).1 = m' := congrArg Prod.fst (Option.some.inj taken)
  rw [← same, mapCall_type, is]

/--
Calls to a new dictionary of any type whose equal keys have equal hashes are answered as by a map.

They are to fit: entries are added while there are at most `2 ^ 30`, and no more than `2 ^ 31` slots are
asked for. None of them reads or writes outside of the tables or fails an assertion, and the entries that
are left are those of the map.
-/
theorem tableMachine_refines {type : DictType κ} (lawful : Lawful type) (calls : List (Call κ ν))
    (fits : (tableMachine κ ν).Meets (fun store call => call.Fits store) (Store.new type) calls) :
    ∃ store m answers,
      (tableMachine κ ν).exec (Store.new type) calls = some (store, answers) ∧
      (mapMachine κ ν).exec (Cevent.dictCreate type) calls = some (m, answers) ∧
      store.dict.entries.Perm m.entries := by
  obtain ⟨store, m, answers, table, map, rep⟩ := exec_represents (represents_new lawful) fits
  exact ⟨store, m, answers, table, map, rep.entries⟩

/-- Five fds are added, the last of which starts a rehashing, and then replaced, looked up and deleted. -/
def callsAcrossRehashing : List (Call Int Nat) :=
  [.add 5 1, .add 256 2, .add 7 3, .add 8 4, .add 9 5, .replace 5 7, .find 512, .delete 256,
    .fetchValue 9, .add 10 6, .delete 7, .find 8]

/-- They are answered as by a map, in the rehashing and after it. -/
theorem tableMachine_refines_heapStrings :
    ((tableMachine Int Nat).exec (Store.new dictTypeHeapStrings) (callsAcrossRehashing.take 6)).map
      (fun done => dictIsRehashing done.1.dict) = some true ∧
    ∃ store m answers,
      (tableMachine Int Nat).exec (Store.new dictTypeHeapStrings) callsAcrossRehashing =
        some (store, answers) ∧
      (mapMachine Int Nat).exec (Cevent.dictCreate dictTypeHeapStrings) callsAcrossRehashing =
        some (m, answers) ∧
      store.dict.entries.Perm m.entries :=
  ⟨by decide +kernel, tableMachine_refines lawful_dictTypeHeapStrings _ (by decide +kernel)⟩

end Cevent.Hash
