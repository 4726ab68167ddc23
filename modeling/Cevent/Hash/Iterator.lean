import Cevent.Hash.Refines
import Mathlib.Algebra.Group.Int.Defs

/-! The safe iterator of `dict.c`, and the entries that it has still to come to. -/

namespace Cevent.Hash

universe u v

variable {κ : Type u} {ν : Type v}

/-- `dictIterator`, when it is safe; an entry is pointed to by its key, as no other entry has it. -/
structure DictIterator (κ : Type u) where
  index : Int
  /-- Whether it has come to the second table. -/
  table : Bool
  entry : Option κ
  nextEntry : Option κ
  deriving DecidableEq, Repr

/-- `dictGetSafeIterator`, with what `dictGetIterator` sets. -/
def dictGetSafeIterator : DictIterator κ where
  index := -1
  table := false
  entry := none
  nextEntry := none

/-- Whether `dictNext` was not called yet. -/
def DictIterator.unused (iter : DictIterator κ) : Bool := iter.index == -1 && !iter.table

/-- The slots behind the one of the iterator, which it has still to come to. -/
def DictIterator.behind (iter : DictIterator κ) : Nat := (iter.index + 1).toNat

/--
One pass of `dictNext`: where it leaves the dictionary and the iterator, and the chain from its entry on.

That chain is empty where the entry is `NULL`, and missing where the loop is left. Nothing stands for a
read outside of the tables or of an entry that was freed.
-/
def dictNextPass (d : Dict κ ν) (iter : DictIterator κ) :
    Option (Dict κ ν × DictIterator κ × Option (List (DictEntry κ ν))) :=
  match iter.entry with
  | none =>
    let d := if iter.unused then { d with iterators := d.iterators + 1 } else d
    let iter := { iter with index := iter.index + 1 }
    if ((d.ht iter.table).size : Int) ≤ iter.index then
      if dictIsRehashing d && !iter.table then
        d.ht1.table[0]?.map fun chain => (d, { iter with table := true, index := 0 }, some chain)
      else some (d, iter, none)
    else (d.ht iter.table).table[iter.index.toNat]?.map fun chain => (d, iter, some chain)
  | some _ =>
    match iter.nextEntry with
    | none => some (d, iter, some [])
    | some key => (d.ht iter.table).table[iter.index.toNat]?.bind fun chain =>
      (Chained.walk (fun he => d.type.keyCompare key he.key) chain).map fun (_, he, after) =>
        (d, iter, some (he :: after))

/-- The iterator with the first entry of a chain as its entry. -/
def DictIterator.moveTo (iter : DictIterator κ) : List (DictEntry κ ν) → DictIterator κ
  | [] => { iter with entry := none }
  | he :: rest => { iter with entry := some he.key, nextEntry := rest.head?.map (·.key) }

/-- The loop of `dictNext`, for at most so many passes. -/
def dictNextLoop : Nat → Dict κ ν → DictIterator κ →
    Option (Dict κ ν × DictIterator κ × Option (DictEntry κ ν))
  | 0, _, _ => none
  | passes + 1, d, iter => (dictNextPass d iter).bind fun (d, iter, entry) =>
    match entry with
    | none => some (d, iter, none)
    | some [] => dictNextLoop passes d (iter.moveTo ([] : List (DictEntry κ ν)))
    | some (he :: rest) => some (d, iter.moveTo (he :: rest), some he)

/-- `dictNext`, where nothing stands for `NULL`. -/
def dictNext (d : Dict κ ν) (iter : DictIterator κ) :
    Option (Dict κ ν × DictIterator κ × Option (DictEntry κ ν)) :=
  -- Every pass but the first and the last one comes to another slot.
  dictNextLoop (dictSlots d + 2) d iter

/-- `dictReleaseIterator`, which leaves the dictionary to other iterators. -/
def dictReleaseIterator (d : Dict κ ν) (iter : DictIterator κ) : Dict κ ν :=
  if iter.unused then d else { d with iterators := d.iterators - 1 }

/-- The entries of the chain that the iterator is in, from the next one on. -/
def Dict.inChain (d : Dict κ ν) (iter : DictIterator κ) : List (DictEntry κ ν) :=
  match iter.entry, iter.nextEntry with
  | some _, some key =>
    ((d.ht iter.table).table[iter.index.toNat]?.getD []).dropWhile
      fun he => !d.type.keyCompare key he.key
  | _, _ => []

/-- The entries in the slots behind that of the iterator. -/
def Dict.inSlots (d : Dict κ ν) (iter : DictIterator κ) : List (DictEntry κ ν) :=
  if iter.table then (d.ht1.table.drop iter.behind).flatten
  else (d.ht0.table.drop iter.behind).flatten ++ d.ht1.table.flatten

/-- The entries that the iterator has still to come to, in that order. -/
def Dict.ahead (d : Dict κ ν) (iter : DictIterator κ) : List (DictEntry κ ν) :=
  d.inChain iter ++ d.inSlots iter

/-- An iterator that stands in a dictionary, with the next entry in its chain. -/
structure Dict.At (d : Dict κ ν) (iter : DictIterator κ) : Prop where
  sound : d.Sound
  least : -1 ≤ iter.index
  iterators : d.iterators = if iter.unused then 0 else 1
  second : iter.table = true → d.Rehashing ∧ 0 ≤ iter.index
  within : iter.entry ≠ none → 0 ≤ iter.index ∧ iter.index < (d.ht iter.table).size
  next : iter.entry ≠ none → ∀ key, iter.nextEntry = some key →
    ∃ chain, (d.ht iter.table).table[iter.index.toNat]? = some chain ∧
      ∃ he ∈ chain, d.type.keyCompare key he.key = true

variable {d : Dict κ ν} {iter : DictIterator κ}

/-- A new iterator has all entries before it. -/
theorem ahead_dictGetSafeIterator (d : Dict κ ν) : d.ahead dictGetSafeIterator = d.entries := rfl

/-- It stands in every dictionary that no other one iterates over. -/
theorem at_dictGetSafeIterator (sound : d.Sound) (free : d.iterators = 0) :
    d.At dictGetSafeIterator where
  sound := sound
  least := Int.le_refl _
  iterators := free
  second table := by cases table
  within entry := absurd rfl entry
  next entry := absurd rfl entry

/-- The number of slots of the table that the iterator is in and of the next one, less those it passed. -/
def Dict.slotsLeft (d : Dict κ ν) (iter : DictIterator κ) : Nat :=
  if iter.table then d.ht1.size - iter.behind else d.ht0.size - iter.behind + d.ht1.size

/-- How many passes `dictNext` makes at most before it leaves its loop. -/
def Dict.passesLeft (d : Dict κ ν) (iter : DictIterator κ) : Nat :=
  d.slotsLeft iter + if iter.entry.isSome then 1 else 0

/-- The dictionary as `dictNext` leaves it. -/
def Dict.iterated (d : Dict κ ν) : Dict κ ν := { d with iterators := 1 }

@[simp] theorem Dict.iterated_ht (d : Dict κ ν) (second : Bool) : d.iterated.ht second = d.ht second := by
  cases second <;> rfl

@[simp] theorem Dict.iterated_ht1 (d : Dict κ ν) : d.iterated.ht1 = d.ht1 := rfl

@[simp] theorem dictIsRehashing_iterated (d : Dict κ ν) :
    dictIsRehashing d.iterated = dictIsRehashing d := rfl

/-- A dictionary that is iterated over is as sound as before. -/
theorem Dict.Sound.iterated (sound : d.Sound) : d.iterated.Sound where
  lawful := sound.lawful
  shape := by
    cases sound.shape with
    | unused first second idle => exact .unused first second idle
    | settled first second idle => exact .settled first second idle
    | rehashing both => exact .rehashing ⟨both.first, both.second, both.started, both.within, both.moved⟩
  distinct := sound.distinct

/-- A table has as many chains as slots. -/
theorem Dict.Sound.length_table (sound : d.Sound) (second : Bool) :
    (d.ht second).table.length = (d.ht second).size := by
  cases sound.shape with
  | unused first second' => cases second <;> simp [Dict.ht, first, second', dictReset]
  | settled first second' =>
    cases second with
    | false => exact first.length
    | true => simp [Dict.ht, second', dictReset]
  | rehashing both =>
    cases second with
    | false => exact both.first.length
    | true => exact both.second.length

/-- Every slot of a table has a chain. -/
theorem Dict.Sound.chain_at (sound : d.Sound) {second : Bool} {index : Int} (least : 0 ≤ index)
    (inside : index < (d.ht second).size) :
    ∃ chain, (d.ht second).table[index.toNat]? = some chain ∧
      (d.ht second).table.drop index.toNat = chain :: (d.ht second).table.drop (index + 1).toNat := by
  have within : index.toNat < (d.ht second).table.length := by
    rw [sound.length_table]
    omega
  refine ⟨_, List.getElem?_eq_getElem within, ?_⟩
  rw [show (index + 1).toNat = index.toNat + 1 by omega]
  exact List.drop_eq_getElem_cons within

/-- Two entries of one chain have different keys. -/
theorem Dict.Sound.chain_distinct (sound : d.Sound) {second : Bool} {i : Nat}
    {chain : List (DictEntry κ ν)} (found : (d.ht second).table[i]? = some chain) :
    chain.Pairwise (Apart d.type) := by
  obtain ⟨rest, perm, -⟩ := Dict.entries_putChain found
  have symmetric := sound.lawful.apart_symm (ν := ν)
  have all := (perm.pairwise_iff fun {a b} => symmetric.symm a b).mp sound.distinct
  exact (List.pairwise_append.mp all).1

/-- From the entry of a key on, a chain of distinct keys is that entry and what stands behind it. -/
theorem dropWhile_before {type : DictType κ} (lawful : Lawful type)
    {before rest : List (DictEntry κ ν)} {he : DictEntry κ ν}
    (distinct : (before ++ he :: rest).Pairwise (Apart type)) {key : κ}
    (same : type.keyCompare key he.key = true) :
    (before ++ he :: rest).dropWhile (fun he => !type.keyCompare key he.key) = he :: rest := by
  have apart := (List.pairwise_append.mp distinct).2.2
  rw [List.dropWhile_append_of_pos, List.dropWhile_cons_of_neg]
  · simp [same]
  · intro other inside
    -- An entry before it that was of the key would not be apart from it.
    have away : type.keyCompare other.key he.key = false := apart other inside he (by simp)
    cases equal : type.keyCompare key other.key with
    | false => rfl
    | true =>
      rw [lawful.trans _ _ _ (lawful.symm _ _ equal) same] at away
      cases away

/-- In the middle of a chain, the rest of it and the slots behind are before the iterator. -/
theorem Dict.Sound.moveTo (sound : d.Sound) (begun : d.iterators = 1) (least : 0 ≤ iter.index)
    (inside : iter.index < (d.ht iter.table).size) (second : iter.table = true → d.Rehashing)
    {before rest : List (DictEntry κ ν)} {he : DictEntry κ ν}
    (found : (d.ht iter.table).table[iter.index.toNat]? = some (before ++ he :: rest)) :
    d.At (iter.moveTo (he :: rest)) ∧
      d.ahead (iter.moveTo (he :: rest)) = rest ++ d.inSlots iter := by
  have distinct := sound.chain_distinct found
  have notUnused : (iter.moveTo (he :: rest)).unused = false := by
    have other : iter.index ≠ -1 := by omega
    simp [DictIterator.moveTo, DictIterator.unused, other]
  constructor
  · refine ⟨sound, ?_, ?_, fun table => ⟨second table, least⟩, fun _ => ⟨least, inside⟩, ?_⟩
    · show -1 ≤ iter.index
      omega
    · rw [begun, notUnused]
      rfl
    · intro _ key next
      obtain ⟨first, front, rfl⟩ := Option.map_eq_some_iff.mp next
      refine ⟨_, found, first, ?_, sound.lawful.refl _⟩
      have among := List.mem_of_mem_head? front
      simp [among]
  · show d.inChain (iter.moveTo (he :: rest)) ++ d.inSlots iter = _
    congr 1
    -- The rest of the chain begins with the entry whose key is kept, or is empty.
    cases next : rest.head?.map (·.key) with
    | none =>
      obtain rfl : rest = [] := by simpa using next
      rfl
    | some key =>
      obtain ⟨first, front, rfl⟩ := Option.map_eq_some_iff.mp next
      obtain ⟨others, rfl⟩ := List.head?_eq_some_iff.mp front
      rw [Dict.inChain, DictIterator.moveTo]
      simp only [next, found, Option.getD_some]
      rw [List.append_cons] at distinct ⊢
      exact dropWhile_before sound.lawful distinct (sound.lawful.refl _)

/-- Where a pass of `dictNext` leads to: out of the loop, or to a chain that is the front of what is ahead. -/
inductive Dict.Passes (d : Dict κ ν) (iter : DictIterator κ) : Prop where
  | ends (iter' : DictIterator κ) (ran : dictNextPass d iter = some (d.iterated, iter', none))
      (empty : d.ahead iter = []) (at_ : d.iterated.At iter') (stays : d.iterated.ahead iter' = [])
      (none_ : iter'.entry = none)
  | comes (iter' : DictIterator κ) (chain : List (DictEntry κ ν))
      (ran : dictNextPass d iter = some (d.iterated, iter', some chain))
      (front : d.ahead iter = chain ++ d.inSlots iter')
      (at_ : d.iterated.At (iter'.moveTo chain))
      (rest : d.iterated.ahead (iter'.moveTo chain) = chain.tail ++ d.inSlots iter')
      (fewer : chain = [] → d.iterated.passesLeft (iter'.moveTo chain) < d.passesLeft iter)

/-- The first pass counts the iterator, and the others find it counted. -/
theorem Dict.At.counted (at_ : d.At iter) :
    (if iter.unused then { d with iterators := d.iterators + 1 } else d) = d.iterated := by
  have count := at_.iterators
  unfold Dict.iterated
  split_ifs at count ⊢ with unused
  · rw [count]
    rfl
  · rw [← count]

/-- Without an entry, an iterator that was used stands anywhere in the dictionary. -/
theorem Dict.Sound.at_of_none (sound : d.Sound) (begun : d.iterators = 1) (none_ : iter.entry = none)
    (least : 0 ≤ iter.index) (second : iter.table = true → d.Rehashing) : d.At iter where
  sound := sound
  least := by omega
  iterators := by
    have other : iter.index ≠ -1 := by omega
    simp [begun, DictIterator.unused, other]
  second table := ⟨second table, least⟩
  within entry := absurd none_ entry
  next entry := absurd none_ entry

/-- What is ahead of it then lies in the slots behind. -/
theorem ahead_of_none (d : Dict κ ν) (none_ : iter.entry = none) : d.ahead iter = d.inSlots iter := by
  rw [Dict.ahead, Dict.inChain, none_]
  rfl

/-- A pass that comes to a slot has its chain before it. -/
theorem Dict.Passes.slot (sound : d.Sound) {iter' : DictIterator κ} {chain : List (DictEntry κ ν)}
    (ran : dictNextPass d iter = some (d.iterated, iter', some chain)) (least : 0 ≤ iter'.index)
    (inside : iter'.index < (d.ht iter'.table).size) (second : iter'.table = true → d.Rehashing)
    (found : (d.ht iter'.table).table[iter'.index.toNat]? = some chain)
    (front : d.ahead iter = chain ++ d.inSlots iter')
    (fewer : d.slotsLeft iter' < d.passesLeft iter) : d.Passes iter := by
  have sound := sound.iterated
  have second' : iter'.table = true → d.iterated.Rehashing := fun table =>
    sound.shape.rehashing_of (second table).isRehashing
  refine .comes iter' chain ran front ?_ ?_ ?_
  · -- In an empty chain the iterator has no entry, and in another one its first.
    cases chain with
    | nil => exact sound.at_of_none rfl rfl least second'
    | cons he rest =>
      exact (sound.moveTo rfl least inside second' (show _ = some ([] ++ he :: rest) from found)).1
  · cases chain with
    | nil => exact ahead_of_none _ rfl
    | cons he rest =>
      exact (sound.moveTo rfl least inside second' (show _ = some ([] ++ he :: rest) from found)).2
  · rintro rfl
    exact fewer

/-- An iterator that has an entry was used before, and goes on in the table where it is. -/
theorem Dict.At.begun (at_ : d.At iter) (some_ : iter.entry ≠ none) :
    d = d.iterated ∧ (iter.table = true → d.iterated.Rehashing) := by
  have least := (at_.within some_).1
  have notUnused : iter.unused = false := by
    have other : iter.index ≠ -1 := by omega
    simp [DictIterator.unused, other]
  have counted := at_.counted
  rw [notUnused, if_neg (by simp)] at counted
  exact ⟨counted, fun table =>
    at_.sound.iterated.shape.rehashing_of (at_.second table).1.isRehashing⟩

section Passes

variable {index : Int} {table : Bool} {key : κ} {nextEntry : Option κ}

/-- At the end of a chain, the slots behind it are left. -/
theorem Dict.At.passes_chain_end (at_ : d.At ⟨index, table, some key, none⟩) :
    d.Passes ⟨index, table, some key, none⟩ := by
  obtain ⟨least, -⟩ := at_.within (by simp)
  obtain ⟨counted, second⟩ := at_.begun (by simp)
  refine .comes ⟨index, table, some key, none⟩ [] ?_ rfl
    (at_.sound.iterated.at_of_none rfl rfl least second) (ahead_of_none _ rfl)
    fun _ => Nat.lt_succ_self _
  rw [← counted]
  rfl

/-- In the middle of a chain, the walk comes to the entry that was kept. -/
theorem Dict.At.passes_chain {next : κ} (at_ : d.At ⟨index, table, some key, some next⟩) :
    d.Passes ⟨index, table, some key, some next⟩ := by
  have sound := at_.sound
  obtain ⟨least, inside⟩ := at_.within (by simp)
  obtain ⟨counted, second⟩ := at_.begun (by simp)
  obtain ⟨chain, found, he, among, equal⟩ := at_.next (by simp) next rfl
  -- The walk cannot miss the next entry, which is in the chain.
  cases walked : Chained.walk (fun he => d.type.keyCompare next he.key) chain with
  | none =>
    rw [Chained.walk_eq_none_iff.mp walked he among] at equal
    cases equal
  | some found' =>
    obtain ⟨before, he', after⟩ := found'
    obtain ⟨rfl, same⟩ := Chained.walk_some walked
    have distinct := sound.chain_distinct found
    obtain ⟨at', ahead'⟩ := sound.iterated.moveTo rfl least inside second found
    refine .comes ⟨index, table, some key, some next⟩ (he' :: after) ?_ ?_ at' ahead' (by simp)
    · simp only [dictNextPass, found, Option.bind_some, walked, Option.map_some, ← counted]
    · rw [Dict.ahead, Dict.inChain]
      simp only [found, Option.getD_some]
      rw [dropWhile_before sound.lawful distinct same]

/-- Without an entry, a pass goes on to the next slot, from the last one of the first table to the second. -/
theorem Dict.At.dictNextPass_none (at_ : d.At ⟨index, table, none, nextEntry⟩) :
    dictNextPass d ⟨index, table, none, nextEntry⟩ =
      if ((d.ht table).size : Int) ≤ index + 1 then
        if dictIsRehashing d && !table then
          d.ht1.table[0]?.map fun chain => (d.iterated, ⟨0, true, none, nextEntry⟩, some chain)
        else some (d.iterated, ⟨index + 1, table, none, nextEntry⟩, none)
      else (d.ht table).table[(index + 1).toNat]?.map fun chain =>
        (d.iterated, ⟨index + 1, table, none, nextEntry⟩, some chain) := by
  have counted : (if DictIterator.unused ⟨index, table, (none : Option κ), nextEntry⟩ then
    { d with iterators := d.iterators + 1 } else d) = d.iterated := at_.counted
  simp only [dictNextPass, counted, Dict.iterated_ht, dictIsRehashing_iterated, Dict.iterated_ht1]

/-- Behind the last slot of a table there is none, nor any later. -/
theorem Dict.Sound.drop_past (sound : d.Sound) (second : Bool)
    (past : ((d.ht second).size : Int) ≤ index + 1) :
    (d.ht second).table.drop (index + 1).toNat = [] ∧
      (d.ht second).table.drop (index + 1 + 1).toNat = [] := by
  have whole := sound.length_table second
  exact ⟨List.drop_eq_nil_of_le (by omega), List.drop_eq_nil_of_le (by omega)⟩

/-- Within a table, the next slot is the front of what is ahead. -/
theorem Dict.At.passes_slot (at_ : d.At ⟨index, table, none, nextEntry⟩)
    (inside : index + 1 < ((d.ht table).size : Int)) :
    d.Passes ⟨index, table, none, nextEntry⟩ := by
  have least : 0 ≤ index + 1 := by
    have start : -1 ≤ index := at_.least
    omega
  have ran := at_.dictNextPass_none
  obtain ⟨chain, found, split⟩ := at_.sound.chain_at least inside
  rw [if_neg (Int.not_le.mpr inside), found] at ran
  refine .slot at_.sound ran least inside (fun is => (at_.second is).1) found ?_ ?_
  · cases table with
    | false =>
      show (d.ht0.table.drop (index + 1).toNat).flatten ++ _ = _
      rw [show d.ht0.table.drop (index + 1).toNat = _ from split, List.flatten_cons,
        List.append_assoc]
      rfl
    | true =>
      show (d.ht1.table.drop (index + 1).toNat).flatten = _
      rw [show d.ht1.table.drop (index + 1).toNat = _ from split, List.flatten_cons]
      rfl
  · -- One slot less is left.
    cases table with
    | false =>
      replace inside : index + 1 < (d.ht0.size : Int) := inside
      show d.ht0.size - (index + 1 + 1).toNat + d.ht1.size < d.ht0.size - (index + 1).toNat + _ + 0
      omega
    | true =>
      replace inside : index + 1 < (d.ht1.size : Int) := inside
      show d.ht1.size - (index + 1 + 1).toNat < d.ht1.size - (index + 1).toNat + 0
      omega

/-- At the end of the first table, the second one begins in the middle of a rehashing. -/
theorem Dict.At.passes_first_end (at_ : d.At ⟨index, false, none, nextEntry⟩)
    (past : ((d.ht false).size : Int) ≤ index + 1) : d.Passes ⟨index, false, none, nextEntry⟩ := by
  have sound := at_.sound
  have ran := at_.dictNextPass_none
  obtain ⟨here, later⟩ := sound.drop_past false past
  have all : d.ahead ⟨index, false, none, nextEntry⟩ = d.ht1.table.flatten := by
    show (d.ht0.table.drop (index + 1).toNat).flatten ++ d.ht1.table.flatten = _
    rw [show d.ht0.table.drop (index + 1).toNat = [] from here]
    rfl
  rw [if_pos past] at ran
  -- What is ahead is the second table, which has entries in the middle of a rehashing only.
  cases going : dictIsRehashing d with
  | true =>
    have both := sound.shape.rehashing_of going
    have inside : (0 : Int) < (d.ht true).size := Int.ofNat_lt.mpr both.second.size_pos
    obtain ⟨chain, found, split⟩ := sound.chain_at (Int.le_refl 0) inside
    replace found : d.ht1.table[0]? = some chain := found
    replace split : d.ht1.table = chain :: d.ht1.table.drop 1 := split
    rw [going, if_pos (by rfl), found] at ran
    refine .slot sound ran (Int.le_refl 0) inside (fun _ => both) found ?_ ?_
    · rw [all]
      show _ = chain ++ (d.ht1.table.drop 1).flatten
      rw [← List.flatten_cons, ← split]
    · have positive := both.second.size_pos
      show d.ht1.size - 1 < d.ht0.size - _ + d.ht1.size + 0
      omega
  | false =>
    obtain ⟨second, -, -⟩ := sound.shape.not_rehashing going
    have least : 0 ≤ index + 1 := by
      have start : -1 ≤ index := at_.least
      omega
    rw [second] at all
    rw [going, if_neg (by simp)] at ran
    refine .ends _ ran all (sound.iterated.at_of_none rfl rfl least fun table => by cases table) ?_ rfl
    show (d.ht0.table.drop (index + 1 + 1).toNat).flatten ++ d.ht1.table.flatten = []
    rw [show d.ht0.table.drop (index + 1 + 1).toNat = [] from later, second]
    rfl

/-- At the end of the second table the loop is left. -/
theorem Dict.At.passes_second_end (at_ : d.At ⟨index, true, none, nextEntry⟩)
    (past : ((d.ht true).size : Int) ≤ index + 1) : d.Passes ⟨index, true, none, nextEntry⟩ := by
  have sound := at_.sound
  have ran := at_.dictNextPass_none
  obtain ⟨here, later⟩ := sound.drop_past true past
  have least : 0 ≤ index + 1 := by
    have start : -1 ≤ index := at_.least
    omega
  rw [if_pos past, if_neg (by simp)] at ran
  refine .ends _ ran ?_ (sound.iterated.at_of_none rfl rfl least fun _ =>
    sound.iterated.shape.rehashing_of (at_.second rfl).1.isRehashing) ?_ rfl
  · show (d.ht1.table.drop (index + 1).toNat).flatten = _
    rw [show d.ht1.table.drop (index + 1).toNat = [] from here]
    rfl
  · show (d.ht1.table.drop (index + 1 + 1).toNat).flatten = []
    rw [show d.ht1.table.drop (index + 1 + 1).toNat = [] from later]
    rfl

end Passes

/-- A pass leads to the front of what the iterator has before it. -/
theorem dictNextPass_spec (at_ : d.At iter) : d.Passes iter := by
  obtain ⟨index, table, entry, nextEntry⟩ := iter
  cases entry with
  | some key =>
    cases nextEntry with
    | none => exact at_.passes_chain_end
    | some next => exact at_.passes_chain
  | none =>
    -- The iterator comes to another slot, or to the end of its table.
    rcases Int.lt_or_le (index + 1) (d.ht table).size with inside | past
    · exact at_.passes_slot inside
    · cases table with
      | false => exact at_.passes_first_end past
      | true => exact at_.passes_second_end past

/-- The loop comes to the next entry that is ahead, in as many passes as there may be. -/
theorem dictNextLoop_spec {passes : Nat} (at_ : d.At iter) (enough : d.passesLeft iter < passes) :
    ∃ iter', dictNextLoop passes d iter = some (d.iterated, iter', (d.ahead iter).head?) ∧
      d.iterated.At iter' ∧ d.iterated.ahead iter' = (d.ahead iter).tail ∧
      iter'.entry = (d.ahead iter).head?.map (·.key) := by
  induction passes generalizing d iter with
  | zero => omega
  | succ passes ih =>
    rw [dictNextLoop]
    cases dictNextPass_spec at_ with
    | ends iter' ran empty at' stays none_ =>
      rw [ran, empty]
      exact ⟨iter', rfl, at', stays, none_⟩
    | comes iter' chain ran front at' rest fewer =>
      rw [ran, front]
      cases chain with
      | nil =>
        -- The entry is `NULL`, so the loop goes on with what lies in the slots behind.
        have fewer := fewer rfl
        obtain ⟨iter'', looped, spec⟩ := ih at' (by omega)
        rw [rest] at looped spec
        exact ⟨iter'', looped, spec⟩
      | cons he rest' => exact ⟨iter'.moveTo (he :: rest'), rfl, at', rest, rfl⟩

/-- `dictNext` returns the first entry that is ahead, and leaves the others. -/
theorem dictNext_spec (at_ : d.At iter) :
    ∃ iter', dictNext d iter = some (d.iterated, iter', (d.ahead iter).head?) ∧
      d.iterated.At iter' ∧ d.iterated.ahead iter' = (d.ahead iter).tail ∧
      iter'.entry = (d.ahead iter).head?.map (·.key) := by
  apply dictNextLoop_spec at_
  unfold Dict.passesLeft Dict.slotsLeft dictSlots
  split_ifs <;> omega

end Cevent.Hash
