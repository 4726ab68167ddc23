import Cevent.Hash.Iterator
import Cevent.Hash.Load

/-! What the calls to a dictionary do to the entries that a safe iterator has still to come to. -/

namespace Cevent.Hash

universe u v

variable {κ : Type u} {ν : Type v} {d d' : Dict κ ν} {iter : DictIterator κ}

/-- The test that the iterator's chain is skipped by, up to the next entry. -/
def skips (type : DictType κ) (key : κ) (he : DictEntry κ ν) : Bool := !type.keyCompare key he.key

/-- An entry of a key has still to come. -/
def Dict.Ahead (d : Dict κ ν) (iter : DictIterator κ) (has : DictEntry κ ν → Prop) : Prop :=
  ∃ he ∈ d.ahead iter, has he

section Frozen

variable (sound : d.Sound) (busy : d.iterators = 1)

include busy

/-- While an iterator is at work, no lookup or update moves entries between the tables. -/
theorem stepIfRehashing_frozen : stepIfRehashing d = some d := by
  rw [stepIfRehashing]
  split_ifs
  · -- The step looks at the count of the iterators.
    rw [dictRehashStep, if_neg (by rw [busy]; decide)]
  · rfl

include sound

/-- So a lookup changes nothing. -/
theorem dictFind_frozen (key : κ) :
    ∃ found, dictFind d key = some (d, found) ∧
      (found = none → ∀ he ∈ d.entries, d.type.keyCompare key he.key = false) ∧
      ∀ hit, found = some hit → d.Leads key hit := by
  rw [dictFind]
  rcases sound.table_cases with ⟨empty, nothing⟩ | ⟨notEmpty, first⟩
  · rw [if_pos empty]
    exact ⟨none, rfl, by simp [nothing], by simp⟩
  · rw [if_neg notEmpty, stepIfRehashing_frozen busy, Option.bind_some]
    obtain ⟨found, walked, none_, leads⟩ := walkTables_spec sound first key
    exact ⟨found, by rw [walked]; rfl, none_, leads⟩

/-- A deletion takes an entry out of its chain, or changes nothing. -/
theorem dictGenericDelete_frozen (key : κ) :
    (dictGenericDelete d key = some (d, false) ∧
        ∀ he ∈ d.entries, d.type.keyCompare key he.key = false) ∨
      ∃ hit, d.Leads key hit ∧ dictGenericDelete d key = some (d.putChain hit.second hit.slot
        ((d.ht hit.second).used - 1) (hit.before ++ hit.after), true) := by
  rw [dictGenericDelete]
  rcases sound.table_cases with ⟨empty, nothing⟩ | ⟨notEmpty, first⟩
  · rw [if_pos empty]
    exact .inl ⟨rfl, by simp [nothing]⟩
  · rw [if_neg notEmpty, stepIfRehashing_frozen busy, Option.bind_some]
    obtain ⟨found, walked, none_, leads⟩ := walkTables_spec sound first key
    rw [walked]
    cases found with
    | none => exact .inl ⟨rfl, none_ rfl⟩
    | some hit => exact .inr ⟨hit, leads hit rfl, rfl⟩

end Frozen

section Chains

variable {second : Bool} {i used : Nat} {chain other : List (DictEntry κ ν)}

/-- The chains of a dictionary in which one was exchanged. -/
theorem Dict.getElem?_putChain (found : (d.ht second).table[i]? = some chain) (table : Bool) (j : Nat) :
    ((d.putChain second i used other).ht table).table[j]? =
      if table = second ∧ j = i then some other else (d.ht table).table[j]? := by
  obtain ⟨inside, -⟩ := List.getElem?_eq_some_iff.mp found
  have set : ((d.ht second).table.set i other)[j]? =
      if j = i then some other else (d.ht second).table[j]? := by
    by_cases same : j = i
    · rw [if_pos same, same, List.getElem?_set_self inside]
    · rw [if_neg same, List.getElem?_set_ne (Ne.symm same)]
  -- The other table is as it was.
  cases second <;> cases table
  · exact set.trans (by simp)
  · simp [putChain, setHt, ht]
  · simp [putChain, setHt, ht]
  · exact set.trans (by simp)

/-- The sizes of the tables stay. -/
theorem Dict.size_putChain (table : Bool) :
    ((d.putChain second i used other).ht table).size = (d.ht table).size := by
  cases second <;> cases table <;> rfl

/-- And so does whether entries are to move between them. -/
theorem dictIsRehashing_putChain :
    dictIsRehashing (d.putChain second i used other) = dictIsRehashing d := by
  cases second <;> rfl

/-- What the iterator needs of a chain that takes the place of another: its next entry is there. -/
def Dict.KeepsNext (d : Dict κ ν) (iter : DictIterator κ) (chain other : List (DictEntry κ ν)) : Prop :=
  iter.entry ≠ none → ∀ key, iter.nextEntry = some key →
    (∃ he ∈ chain, d.type.keyCompare key he.key = true) →
      ∃ he ∈ other, d.type.keyCompare key he.key = true

/-- The iterator stands as it did when one chain is exchanged. -/
theorem Dict.At.putChain (at_ : d.At iter) (found : (d.ht second).table[i]? = some chain)
    (next : d.KeepsNext iter chain other) (sound : (d.putChain second i used other).Sound) :
    (d.putChain second i used other).At iter where
  sound := sound
  least := at_.least
  iterators := by rw [Dict.putChain_iterators, at_.iterators]
  second table := by
    obtain ⟨both, least⟩ := at_.second table
    refine ⟨sound.shape.rehashing_of ?_, least⟩
    rw [dictIsRehashing_putChain, both.isRehashing]
  within entry := by
    rw [Dict.size_putChain]
    exact at_.within entry
  next entry key is := by
    obtain ⟨own, place, he, among, same⟩ := at_.next entry key is
    rw [Dict.putChain_type, Dict.getElem?_putChain found]
    split_ifs with here
    · -- The chain of the iterator is the one that was exchanged.
      obtain ⟨rfl, rfl⟩ := here
      obtain rfl : own = chain := by
        rw [place] at found
        exact Option.some.inj found
      exact ⟨other, rfl, next entry key is ⟨he, among, same⟩⟩
    · exact ⟨own, place, he, among, same⟩

variable {has : DictEntry κ ν → Prop}

/-- What is ahead in the slots stays there when a chain is exchanged for one with the same. -/
theorem Dict.inSlots_putChain_iff (found : (d.ht second).table[i]? = some chain)
    (same : (∃ he ∈ other, has he) ↔ ∃ he ∈ chain, has he) :
    (∃ he ∈ (d.putChain second i used other).inSlots iter, has he) ↔
      ∃ he ∈ d.inSlots iter, has he := by
  have exists_append : ∀ front back : List (DictEntry κ ν),
      (∃ he ∈ front ++ back, has he) ↔ (∃ he ∈ front, has he) ∨ ∃ he ∈ back, has he := by
    intro front back
    simp only [List.mem_append, or_and_right, exists_or]
  -- Of the two tables, one has another chain, which may lie behind the iterator or not.
  unfold Dict.inSlots
  cases second with
  | false =>
    split_ifs with table
    · rfl
    · rw [exists_append, exists_append]
      exact or_congr (Chained.exists_flatten_drop_set_iff found same _) Iff.rfl
  | true =>
    split_ifs with table
    · exact Chained.exists_flatten_drop_set_iff found same _
    · rw [exists_append, exists_append]
      exact or_congr Iff.rfl (Chained.exists_flatten_set_iff found same)

/-- What is ahead stays ahead, when the rest of the iterator's own chain keeps it as well. -/
theorem Dict.ahead_putChain_iff (found : (d.ht second).table[i]? = some chain)
    (same : (∃ he ∈ other, has he) ↔ ∃ he ∈ chain, has he)
    (rest : iter.entry ≠ none → ∀ key, iter.nextEntry = some key →
      ((∃ he ∈ other.dropWhile (skips d.type key), has he) ↔
        ∃ he ∈ chain.dropWhile (skips d.type key), has he)) :
    (d.putChain second i used other).Ahead iter has ↔ d.Ahead iter has := by
  have slots : (∃ he ∈ (d.putChain second i used other).inSlots iter, has he) ↔
      ∃ he ∈ d.inSlots iter, has he := Dict.inSlots_putChain_iff found same
  unfold Dict.Ahead Dict.ahead
  simp only [List.mem_append, or_and_right, exists_or, slots]
  -- The slots are as before, so it is the rest of the chain that is left to look at.
  refine or_congr ?_ Iff.rfl
  unfold Dict.inChain
  cases entry : iter.entry with
  | none => rfl
  | some current =>
    cases next : iter.nextEntry with
    | none => rfl
    | some key =>
      simp only [Dict.putChain_type, Dict.getElem?_putChain found]
      split_ifs with here
      · obtain ⟨rfl, rfl⟩ := here
        rw [found]
        exact rest (by simp [entry]) key next
      · rfl

end Chains

section Expansions

/-- What an expansion leaves to an iterator: its place, and the entries that are ahead of it. -/
structure Dict.Stays (d d' : Dict κ ν) (iter : DictIterator κ) : Prop where
  at_ : d'.At iter
  type : d'.type = d.type
  ahead : d'.ahead iter = d.ahead iter

/-- An iterator that stands in the second table does so in the middle of a rehashing. -/
theorem Dict.At.table_eq_false (at_ : d.At iter) (idle : dictIsRehashing d = false) :
    iter.table = false := by
  cases table : iter.table with
  | false => rfl
  | true =>
    rw [(at_.second table).1.isRehashing] at idle
    cases idle

/-- A new first table, and a new second one, have no entries that would be ahead. -/
theorem Dict.At.expand (at_ : d.At iter) {size : Nat} (small : size ≤ 2 ^ 31) :
    d.Stays (dictExpand d size).1 iter := by
  by_cases refused : dictIsRehashing d = true ∨ size < d.ht0.used
  · rw [dictExpand, if_pos refused]
    exact ⟨at_, rfl, rfl⟩
  · obtain ⟨notGoing, enough⟩ := not_or.mp refused
    have idle : dictIsRehashing d = false := by simpa using notGoing
    have spec := dictExpand_spec at_.sound small
    have first := at_.table_eq_false idle
    obtain ⟨second, -, unused | laid⟩ := at_.sound.shape.not_rehashing idle
    · -- Without a table the iterator has no entry.
      have none_ : iter.entry = none := by
        by_contra some_
        obtain ⟨least, inside⟩ := at_.within some_
        rw [first, show d.ht false = dictReset from unused] at inside
        exact absurd inside (Int.not_lt.mpr least)
      have sound := spec.sound
      rw [dictExpand_unused idle unused] at sound ⊢
      refine ⟨⟨sound, at_.least, at_.iterators, ?_, fun some_ => absurd none_ some_,
        fun some_ => absurd none_ some_⟩, rfl, ?_⟩
      · intro table
        rw [first] at table
        cases table
      · rw [ahead_of_none _ none_, ahead_of_none _ none_, Dict.inSlots, Dict.inSlots, first]
        simp [unused, newTable, dictReset]
    · have sound := spec.sound
      rw [dictExpand_settled idle laid (by omega)] at sound ⊢
      obtain ⟨index, table, entry, nextEntry⟩ := iter
      obtain rfl : table = false := first
      refine ⟨⟨sound, at_.least, at_.iterators, (by intro table; cases table), at_.within, at_.next⟩,
        rfl, ?_⟩
      -- The second table was none, and has empty chains now.
      show _ ++ (_ ++ (newTable (dictNextPower size)).table.flatten) = _ ++ (_ ++ d.ht1.table.flatten)
      rw [second, show (newTable (dictNextPower size) : Dictht κ ν).table.flatten = [] by
        simp [newTable]]
      rfl

/-- So does the expansion before an entry is added. -/
theorem Dict.At.expandIfNeeded (at_ : d.At iter) (small : d.entries.length ≤ 2 ^ 30)
    (dictCanResize : Bool) : d.Stays (dictExpandIfNeeded dictCanResize d).1 iter := by
  have used := at_.sound.used_le
  rw [dictExpandIfNeeded]
  split_ifs
  · exact ⟨at_, rfl, rfl⟩
  · exact at_.expand (by decide)
  · have twice : d.ht0.used * 2 % 2 ^ 64 = d.ht0.used * 2 := Nat.mod_eq_of_lt (by omega)
    rw [twice]
    exact at_.expand (by omega)
  · exact ⟨at_, rfl, rfl⟩

/-- And the one that is asked for by `dictResize`. -/
theorem Dict.At.resize (at_ : d.At iter) (small : dictSize d ≤ 2 ^ 31) (dictCanResize : Bool) :
    d.Stays (dictResize dictCanResize d).1 iter := by
  rw [dictResize]
  split_ifs
  · exact ⟨at_, rfl, rfl⟩
  · apply at_.expand
    unfold dictHtInitialSize
    unfold dictSize at small
    split_ifs <;> omega

end Expansions

section Updates

/-- The entries that a deletion leaves are those of other keys. -/
theorem Dict.Updates.mem_iff_of_deleted {he : DictEntry κ ν} (updates : d.Updates d' [he] [])
    (sound : d.Sound) {key : κ} (same : d.type.keyCompare key he.key = true)
    (other : DictEntry κ ν) :
    other ∈ d'.entries ↔ other ∈ d.entries ∧ d.type.keyCompare key other.key = false := by
  have lawful := sound.lawful
  have symmetric := lawful.apart_symm (ν := ν)
  obtain ⟨rest, before, after⟩ := updates.entries
  have distinct := (before.pairwise_iff fun {a b} => symmetric.symm a b).mp sound.distinct
  rw [after.mem_iff, before.mem_iff, List.nil_append, List.singleton_append, List.mem_cons]
  constructor
  · -- The entries that are left are apart from the one that is gone.
    intro inside
    have apart := (List.pairwise_cons.mp distinct).1 other inside
    refine ⟨.inr inside, ?_⟩
    cases equal : d.type.keyCompare key other.key with
    | false => rfl
    | true =>
      rw [Apart, lawful.trans _ _ _ (lawful.symm _ _ same) equal] at apart
      cases apart
  · rintro ⟨rfl | inside, apart⟩
    · rw [same] at apart
      cases apart
    · exact inside

variable (at_ : d.At iter) (begun : d.iterators = 1)

include at_ begun

/-- A deletion leaves what is ahead of another key, when the next entry is of another key. -/
theorem Dict.At.delete {key : κ}
    (lives : iter.entry ≠ none → ∀ next, iter.nextEntry = some next →
      d.type.keyCompare key next = false) :
    ∃ d' ok, dictDelete d key = some (d', ok) ∧ d'.At iter ∧ d'.type = d.type ∧
      d'.iterators = 1 ∧
      (∀ he, he ∈ d'.entries ↔ he ∈ d.entries ∧ d.type.keyCompare key he.key = false) ∧
      ∀ has : DictEntry κ ν → Prop, (∀ he, d.type.keyCompare key he.key = true → ¬has he) →
        (d'.Ahead iter has ↔ d.Ahead iter has) := by
  have sound := at_.sound
  have lawful := sound.lawful
  rcases dictGenericDelete_frozen sound begun key with ⟨ran, away⟩ | ⟨hit, leads, ran⟩
  · exact ⟨d, false, ran, at_, rfl, begun, fun he => (and_iff_left_of_imp (away he)).symm,
      fun _ _ => Iff.rfl⟩
  · obtain ⟨d', ok, ran', result⟩ := dictGenericDelete_spec sound key
    rw [ran] at ran'
    obtain ⟨rfl, rfl⟩ := Prod.mk.inj (Option.some.inj ran')
    obtain ⟨off, -, -⟩ | ⟨he, -, updates, same⟩ := result
    · cases off
    · -- An entry that is skipped on the way to the next one is taken out.
      have skipped : iter.entry ≠ none → ∀ next, iter.nextEntry = some next →
          skips d.type next hit.he = true := by
        intro some_ next is
        cases equal : d.type.keyCompare next hit.he.key with
        | false => simp [skips, equal]
        | true =>
          have other := lives some_ next is
          rw [lawful.trans _ _ _ leads.same (lawful.symm _ _ equal)] at other
          cases other
      refine ⟨_, true, ran, at_.putChain leads.chain ?_ updates.sound, updates.type,
        updates.iterators.trans begun, ?_, ?_⟩
      · rintro some_ next is ⟨he', among, equal⟩
        refine ⟨he', ?_, equal⟩
        rcases List.mem_append.mp among with before | after
        · exact List.mem_append_left _ before
        · rcases List.mem_cons.mp after with rfl | after
          · have skip := skipped some_ next is
            rw [skips, equal] at skip
            cases skip
          · exact List.mem_append_right _ after
      · exact updates.mem_iff_of_deleted sound same
      · intro has others
        have apart := others hit.he leads.same
        refine Dict.ahead_putChain_iff leads.chain ?_ ?_
        · simp [or_and_right, exists_or, apart]
        · intro some_ next is
          exact Chained.exists_dropWhile_remove_iff (skipped some_ next is) apart

/-- An addition leaves what is ahead, besides the new entry. -/
theorem Dict.At.add (small : d.entries.length ≤ 2 ^ 30) (dictCanResize : Bool) (key : κ) (val : ν) :
    ∃ d' ok, dictAdd dictCanResize d key val = some (d', ok) ∧ d'.At iter ∧ d'.type = d.type ∧
      d'.iterators = 1 ∧ (ok = false → ∃ he ∈ d'.entries, d.type.keyCompare key he.key = true) ∧
      ∀ has : DictEntry κ ν → Prop,
        ((∀ he ∈ d.entries, d.type.keyCompare key he.key = false) →
          ¬has { key := key, val := val }) → (d'.Ahead iter has ↔ d.Ahead iter has) := by
  have stays := at_.expandIfNeeded small dictCanResize
  obtain ⟨full, is, expands, ⟨hit, leads, ran⟩ | ⟨away, i, chain, place, found, ran⟩⟩ :=
    dictAddRaw_run (stepIfRehashing_frozen begun) at_.sound small dictCanResize key val
  · rw [← is] at stays
    refine ⟨full, false, ran, stays.at_, stays.type, expands.same.iterators.trans begun, ?_, ?_⟩
    · intro _
      have same := leads.same
      rw [stays.type] at same
      exact ⟨hit.he, leads.mem_entries, same⟩
    · intro has _
      rw [Dict.Ahead, Dict.Ahead, stays.ahead]
  · rw [← is] at stays
    have updates : full.Updates _ [] [{ key := key, val := val }] :=
      expands.sound.putFront (expands.first rfl) place found away
    -- The next entry is of another key, as it is there.
    have skipped : iter.entry ≠ none → ∀ next, iter.nextEntry = some next →
        skips full.type next { key := key, val := val : DictEntry κ ν } = true := by
      intro some_ next is
      obtain ⟨own, place', he, among, equal⟩ := stays.at_.next some_ next is
      obtain ⟨rest, perm, -⟩ := Dict.entries_putChain place'
      have other := away he (perm.mem_iff.mpr (List.mem_append_left _ among))
      cases same : full.type.keyCompare next key with
      | false => simp [skips, same]
      | true =>
        have lawful := expands.sound.lawful
        rw [lawful.trans _ _ _ (lawful.symm _ _ same) equal] at other
        cases other
    refine ⟨_, true, ran, stays.at_.putChain found ?_ updates.sound,
      updates.type.trans stays.type, updates.iterators.trans (expands.same.iterators.trans begun),
      (by intro off; cases off), ?_⟩
    · rintro - next - ⟨he, among, equal⟩
      exact ⟨he, List.mem_cons_of_mem _ among, equal⟩
    · intro has new
      have apart : ¬has { key := key, val := val } := by
        apply new
        intro he inside
        have other := away he (expands.same.entries.mem_iff.mpr inside)
        rwa [stays.type] at other
      have same : full.Ahead iter has ↔ d.Ahead iter has := by
        rw [Dict.Ahead, Dict.Ahead, stays.ahead]
      refine (Dict.ahead_putChain_iff found ?_ ?_).trans same
      · simp [or_and_right, exists_or, apart]
      · intro some_ next is
        rw [List.dropWhile_cons_of_pos (skipped some_ next is)]

/-- So does a replacement, where it makes no difference what value an entry has. -/
theorem Dict.At.replace (small : d.entries.length ≤ 2 ^ 30) (dictCanResize : Bool) (key : κ)
    (val : ν) :
    ∃ d' ok, dictReplace dictCanResize d key val = some (d', ok) ∧ d'.At iter ∧ d'.type = d.type ∧
      d'.iterators = 1 ∧
      ∀ has : DictEntry κ ν → Prop, (∀ he val, has { he with val := val } ↔ has he) →
        ((∀ he ∈ d.entries, d.type.keyCompare key he.key = false) →
          ¬has { key := key, val := val }) → (d'.Ahead iter has ↔ d.Ahead iter has) := by
  obtain ⟨mid, ok, added, mid_at, type, begun', there, ahead⟩ := at_.add begun small dictCanResize key val
  rw [dictReplace, added, Option.bind_some]
  cases ok with
  | true => exact ⟨mid, true, rfl, mid_at, type, begun', fun has _ new => ahead has new⟩
  | false =>
    obtain ⟨found, looked, none_, leads⟩ := dictFind_frozen mid_at.sound begun' key
    simp only [looked, Option.bind_some, Bool.false_eq_true, if_false]
    cases found with
    | none =>
      -- The key that kept the new entry out is found.
      obtain ⟨he, inside, same⟩ := there rfl
      have apart := none_ rfl he inside
      rw [type, same] at apart
      cases apart
    | some hit =>
      have leads := leads hit rfl
      have one : ∀ he ∈ [{ hit.he with val := val }], he.key = hit.he.key := by
        intro he inside
        rw [List.mem_singleton.mp inside]
      have updates := leads.putChain mid_at.sound (mid.ht hit.second).used one (by simp) (by simp)
      rw [List.append_assoc, List.singleton_append] at updates
      refine ⟨_, false, rfl, mid_at.putChain leads.chain ?_ updates.sound, updates.type.trans type,
        updates.iterators.trans begun', ?_⟩
      · rintro - next - ⟨he, among, equal⟩
        rcases List.mem_append.mp among with before | after
        · exact ⟨he, List.mem_append_left _ before, equal⟩
        · rcases List.mem_cons.mp after with rfl | after
          · exact ⟨{ hit.he with val := val }, by simp, equal⟩
          · exact ⟨he, by simp [after], equal⟩
      · intro has value new
        refine (Dict.ahead_putChain_iff leads.chain ?_ ?_).trans (ahead has new)
        · simp [or_and_right, exists_or, value]
        · intro some_ next is
          exact Chained.exists_dropWhile_replace_iff rfl (value hit.he val)

end Updates

end Cevent.Hash
