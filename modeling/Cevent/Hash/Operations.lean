import Cevent.Hash.Rehash

/-! What the lookups and updates of the hash table do to its entries. -/

namespace Cevent.Hash

universe u v

variable {κ : Type u} {ν : Type v} {d : Dict κ ν}

/-- What an operation that may replace tables leaves, and that there is a first table when it succeeds. -/
structure Dict.Expands (d d' : Dict κ ν) (ok : Bool) : Prop where
  sound : d'.Sound
  same : d.SameEntries d'
  first : ok = true → d'.ht0.Laid d'.type

/-- Expanding keeps the entries, whatever it answers. -/
theorem dictExpand_spec (sound : d.Sound) {size : Nat} (small : size ≤ 2 ^ 31) :
    d.Expands (dictExpand d size).1 (dictExpand d size).2 := by
  rw [dictExpand]
  split_ifs with refused empty
  · exact ⟨sound, .refl d, fun ok => by cases ok⟩
  · -- The first table of all takes the place of none.
    have idle : dictIsRehashing d = false := by simpa using not_or.mp refused |>.1
    obtain ⟨second, none_, first⟩ := sound.shape.not_rehashing idle
    have unused : d.ht0 = dictReset := by
      refine first.resolve_right fun laid => ?_
      rw [laid.isEmpty_eq_false] at empty
      cases empty
    have same : d.SameEntries { d with ht0 := newTable (dictNextPower size) } := by
      refine ⟨rfl, rfl, ?_⟩
      simp [Dict.entries, unused, newTable, dictReset]
    have laid : (newTable (dictNextPower size) : Dictht κ ν).Laid d.type :=
      Dictht.laid_newTable small
    exact ⟨sound.of_same same (.settled laid second none_), same, fun _ => laid⟩
  · have idle : dictIsRehashing d = false := by simpa using not_or.mp refused |>.1
    obtain ⟨second, none_, first⟩ := sound.shape.not_rehashing idle
    have laid : d.ht0.Laid d.type := by
      refine first.resolve_left fun unused => ?_
      rw [unused] at empty
      exact empty rfl
    have same : d.SameEntries
        { d with ht1 := newTable (dictNextPower size), rehashidx := 0 } := by
      refine ⟨rfl, rfl, ?_⟩
      simp [Dict.entries, second, newTable, dictReset]
    refine ⟨sound.of_same same (.rehashing ?_), same, fun _ => laid⟩
    exact {
      first := laid
      second := Dictht.laid_newTable small
      started := Int.le_refl 0
      within := by show (0 : Int) ≤ _; omega
      moved := fun i below => absurd below (Nat.not_lt_zero i) }

/-- A table that is not rehashed is expanded to any size that holds its entries. -/
theorem dictExpand_ok {size : Nat} (idle : dictIsRehashing d = false) (enough : d.ht0.used ≤ size) :
    (dictExpand d size).2 = true := by
  rw [dictExpand, if_neg (by simp [idle, enough])]
  split_ifs <;> rfl

/-- The entries of the first table are not more than those of both. -/
theorem Dict.Sound.used_le (sound : d.Sound) : d.ht0.used ≤ d.entries.length := by
  rw [Dict.entries, List.length_append]
  cases sound.shape with
  | unused first => simp [first, dictReset]
  | settled first => simp [first.used]
  | rehashing both => simp [both.first.used]

/-- Before an entry is added there is a table for it, and no entry gets lost. -/
theorem dictExpandIfNeeded_spec (sound : d.Sound) (small : d.entries.length ≤ 2 ^ 30)
    (dictCanResize : Bool) :
    (dictExpandIfNeeded dictCanResize d).2 = true ∧
      d.Expands (dictExpandIfNeeded dictCanResize d).1 true := by
  have used := sound.used_le
  rw [dictExpandIfNeeded]
  split_ifs with going none_ full
  · exact ⟨rfl, sound, .refl d, fun _ => (sound.shape.rehashing_of going).first⟩
  · -- There was no table, so there are no entries to hold.
    have idle : dictIsRehashing d = false := by simpa using going
    have enough : d.ht0.used ≤ dictHtInitialSize := by
      obtain ⟨-, -, unused | laid⟩ := sound.shape.not_rehashing idle
      · rw [unused]
        exact Nat.zero_le _
      · exact absurd none_ (Nat.ne_of_gt laid.size_pos)
    have ok := dictExpand_ok idle enough
    have spec := dictExpand_spec sound (show dictHtInitialSize ≤ 2 ^ 31 by decide)
    exact ⟨ok, spec.sound, spec.same, fun _ => spec.first ok⟩
  · have idle : dictIsRehashing d = false := by simpa using going
    -- Twice the number of entries is no number that overflows.
    have twice : d.ht0.used * 2 % 2 ^ 64 = d.ht0.used * 2 := Nat.mod_eq_of_lt (by omega)
    rw [twice]
    have ok := dictExpand_ok idle (show d.ht0.used ≤ d.ht0.used * 2 by omega)
    have spec := dictExpand_spec sound (show d.ht0.used * 2 ≤ 2 ^ 31 by omega)
    exact ⟨ok, spec.sound, spec.same, fun _ => spec.first ok⟩
  · have idle : dictIsRehashing d = false := by simpa using going
    obtain ⟨-, -, unused | laid⟩ := sound.shape.not_rehashing idle
    · rw [unused] at none_
      exact absurd rfl none_
    · exact ⟨rfl, sound, .refl d, fun _ => laid⟩

section Walking

/-- A walk led to an entry of a key. -/
structure Dict.Leads (d : Dict κ ν) (key : κ) (hit : Hit κ ν) : Prop where
  laid : (d.ht hit.second).Laid d.type
  slot : hit.slot = (d.ht hit.second).slot (d.type.hashFunction key)
  chain : (d.ht hit.second).table[hit.slot]? = some (hit.before ++ hit.he :: hit.after)
  same : d.type.keyCompare key hit.he.key = true

/-- A walk in a table that exists finds the entry of a key, or there is none in the table. -/
theorem walkTable_spec (lawful : Lawful d.type) {second : Bool} (laid : (d.ht second).Laid d.type)
    (key : κ) :
    ∃ found, walkTable d key second = some found ∧
      (found = none → ∀ he ∈ (d.ht second).table.flatten, d.type.keyCompare key he.key = false) ∧
      ∀ hit, found = some hit → d.Leads key hit := by
  obtain ⟨chain, is⟩ := laid.chain_of_slot (d.type.hashFunction key)
  refine ⟨_, by rw [walkTable, is]; rfl, ?_, ?_⟩
  · intro none_ he inside
    rw [Option.map_eq_none_iff, Chained.walk_eq_none_iff] at none_
    -- An entry of the key would be in the chain that was walked.
    cases same : d.type.keyCompare key he.key with
    | false => rfl
    | true =>
      have place := is
      rw [lawful.hash _ _ same] at place
      rw [none_ he ((laid.placed.mem_flatten_iff place).mp inside)] at same
      cases same
  · intro hit found
    obtain ⟨⟨before, he, after⟩, stopped, rfl⟩ := Option.map_eq_some_iff.mp found
    obtain ⟨rfl, same⟩ := Chained.walk_some stopped
    exact ⟨laid, rfl, is, same⟩

/-- The walks of a lookup find the entry of a key, or there is none. -/
theorem walkTables_spec (sound : d.Sound) (first : d.ht0.Laid d.type) (key : κ) :
    ∃ found, walkTables d key = some found ∧
      (found = none → ∀ he ∈ d.entries, d.type.keyCompare key he.key = false) ∧
      ∀ hit, found = some hit → d.Leads key hit := by
  obtain ⟨found, ran, none_, leads⟩ := walkTable_spec sound.lawful (show (d.ht false).Laid d.type from first) key
  rw [walkTables, ran]
  cases found with
  | some hit => exact ⟨some hit, rfl, by simp, leads⟩
  | none =>
    show ∃ found, (if dictIsRehashing d then walkTable d key true else some none) = _ ∧ _
    split_ifs with going
    · -- What is not in the first table may be in the second one.
      have both := sound.shape.rehashing_of going
      obtain ⟨found, ran', none', leads'⟩ :=
        walkTable_spec sound.lawful (show (d.ht true).Laid d.type from both.second) key
      refine ⟨found, ran', ?_, leads'⟩
      intro nothing he inside
      rcases List.mem_append.mp inside with old | new
      · exact none_ rfl he old
      · exact none' nothing he new
    · refine ⟨none, rfl, ?_, by simp⟩
      intro _ he inside
      obtain ⟨second, -, -⟩ := sound.shape.not_rehashing (by simpa using going)
      rw [Dict.entries, second, dictReset, List.flatten_nil, List.append_nil] at inside
      exact none_ rfl he inside

/-- Two entries of one key are the same entry. -/
theorem Dict.Sound.unique (sound : d.Sound) {key : κ} {he other : DictEntry κ ν}
    (inside : he ∈ d.entries) (inside' : other ∈ d.entries)
    (same : d.type.keyCompare key he.key = true)
    (same' : d.type.keyCompare key other.key = true) : he = other := by
  by_contra different
  have symmetric := sound.lawful.apart_symm (ν := ν)
  have apart : Apart d.type he other := sound.distinct.forall inside inside' different
  rw [Apart, sound.lawful.trans _ _ _ (sound.lawful.symm _ _ same) same'] at apart
  cases apart

end Walking

section Updating

/-- One of the tables may be replaced by one of the same size that is as empty where it has to be. -/
theorem Dict.Shape.setHt (shape : d.Shape) {second : Bool} {ht : Dictht κ ν}
    (old : (d.ht second).Laid d.type) (laid : ht.Laid d.type)
    (size : ht.size = (d.ht second).size)
    (kept : second = false → d.Rehashing → ∀ i < d.rehashidx.toNat, ht.table[i]? = some []) :
    (d.setHt second ht).Shape := by
  cases shape with
  | unused first second' =>
    -- There is no table to replace.
    have positive := old.size_pos
    cases second <;> simp [Dict.ht, first, second', dictReset] at positive
  | settled first second' idle =>
    cases second with
    | false => exact .settled laid second' idle
    | true =>
      have positive := old.size_pos
      simp [Dict.ht, second', dictReset] at positive
  | rehashing both =>
    refine .rehashing ?_
    cases second with
    | false => exact ⟨laid, both.second, both.started, size ▸ both.within, kept rfl both⟩
    | true => exact ⟨both.first, laid, both.started, both.within, both.moved⟩

/-- Besides those of one chain, the entries are the same whatever that chain is. -/
theorem Dict.entries_putChain {second : Bool} {i : Nat} {chain : List (DictEntry κ ν)}
    (found : (d.ht second).table[i]? = some chain) :
    ∃ rest, d.entries.Perm (chain ++ rest) ∧
      ∀ used other, (d.putChain second i used other).entries.Perm (other ++ rest) := by
  -- The rest is the chain's own table without it, and the other table.
  cases second with
  | false =>
    refine ⟨(d.ht0.table.set i []).flatten ++ d.ht1.table.flatten, ?_, ?_⟩
    · rw [← List.append_assoc]
      exact .append_right _ (Chained.flatten_perm found)
    · intro used other
      rw [← List.append_assoc]
      exact .append_right _ (Chained.flatten_set_perm found other)
  | true =>
    refine ⟨d.ht0.table.flatten ++ (d.ht1.table.set i []).flatten, ?_, ?_⟩
    · exact (List.Perm.append_left _ (Chained.flatten_perm found)).trans
        (List.perm_append_comm_assoc _ _ _)
    · intro used other
      exact (List.Perm.append_left _ (Chained.flatten_set_perm found other)).trans
        (List.perm_append_comm_assoc _ _ _)

/-- What a dictionary keeps when a chain is exchanged for another one of the same slot. -/
theorem Dict.Shape.putChain (shape : d.Shape) {second : Bool} {i used : Nat}
    {chain other : List (DictEntry κ ν)} (old : (d.ht second).Laid d.type)
    (found : (d.ht second).table[i]? = some chain)
    (all : ∀ he ∈ other, (d.ht second).slot (d.type.hashFunction he.key) = i)
    (count : used + chain.length = (d.ht second).used + other.length)
    (kept : second = false → d.Rehashing → d.rehashidx.toNat ≤ i) :
    (d.putChain second i used other).Shape := by
  refine shape.setHt old (old.set found all count) rfl ?_
  rintro rfl both j below
  -- A slot that was passed is another one, and stays empty.
  rw [List.getElem?_set_ne (by have := kept rfl both; omega)]
  exact both.moved j below

/-- A chain with entries lies in no slot that was passed. -/
theorem Dict.Rehashing.le_of_filled (both : d.Rehashing) {i : Nat} {chain : List (DictEntry κ ν)}
    (found : d.ht0.table[i]? = some chain) (filled : chain ≠ []) : d.rehashidx.toNat ≤ i := by
  rcases Nat.lt_or_ge i d.rehashidx.toNat with passed | later
  · rw [both.moved i passed] at found
    exact absurd (Option.some.inj found).symm filled
  · exact later

/-- Exchanging chains does not touch the type and the iterators. -/
@[simp] theorem Dict.putChain_type (d : Dict κ ν) (second : Bool) (i used : Nat)
    (chain : List (DictEntry κ ν)) : (d.putChain second i used chain).type = d.type := by
  cases second <;> rfl

@[simp] theorem Dict.putChain_iterators (d : Dict κ ν) (second : Bool) (i used : Nat)
    (chain : List (DictEntry κ ν)) : (d.putChain second i used chain).iterators = d.iterators := by
  cases second <;> rfl

end Updating

/-- What an operation makes of the entries, in a dictionary that stays sound. -/
structure Dict.Updates (d d' : Dict κ ν) (old new : List (DictEntry κ ν)) : Prop where
  sound : d'.Sound
  type : d'.type = d.type
  iterators : d'.iterators = d.iterators
  entries : ∃ rest, d.entries.Perm (old ++ rest) ∧ d'.entries.Perm (new ++ rest)

/-- An operation goes on from a dictionary with the same entries. -/
theorem Dict.SameEntries.updates {d d' d'' : Dict κ ν} (same : d.SameEntries d')
    {old new : List (DictEntry κ ν)} (then_ : d'.Updates d'' old new) : d.Updates d'' old new where
  sound := then_.sound
  type := then_.type.trans same.type
  iterators := then_.iterators.trans same.iterators
  entries := by
    obtain ⟨rest, before, after⟩ := then_.entries
    exact ⟨rest, same.entries.symm.trans before, after⟩

/-- Nothing changes besides the tables that the entries lie in. -/
theorem Dict.SameEntries.keeps {d d' : Dict κ ν} (same : d.SameEntries d') (sound : d'.Sound) :
    d.Updates d' [] [] where
  sound := sound
  type := same.type
  iterators := same.iterators
  entries := ⟨d.entries, .refl _, same.entries⟩

/-- Without a table there are no entries, and otherwise the first table exists. -/
theorem Dict.Sound.table_cases (sound : d.Sound) :
    (d.ht0.size = 0 ∧ d.entries = []) ∨ (d.ht0.size ≠ 0 ∧ d.ht0.Laid d.type) := by
  cases sound.shape with
  | unused first second => exact .inl (by simp [Dict.entries, first, second, dictReset])
  | settled first => exact .inr ⟨Nat.ne_of_gt first.size_pos, first⟩
  | rehashing both => exact .inr ⟨Nat.ne_of_gt both.first.size_pos, both.first⟩

/-- `dictFind` leads to the entry of the key when there is one. -/
theorem dictFind_spec (sound : d.Sound) (key : κ) :
    ∃ d' found, dictFind d key = some (d', found) ∧ d'.Sound ∧ d.SameEntries d' ∧
      (found = none → ∀ he ∈ d.entries, d.type.keyCompare key he.key = false) ∧
      ∀ hit, found = some hit → d'.Leads key hit := by
  rw [dictFind]
  rcases sound.table_cases with ⟨empty, nothing⟩ | ⟨notEmpty, first⟩
  · rw [if_pos empty]
    exact ⟨d, none, rfl, sound, .refl d, by simp [nothing], by simp⟩
  · rw [if_neg notEmpty]
    obtain ⟨d', stepped, steps⟩ := stepIfRehashing_spec sound
    obtain ⟨found, walked, none_, leads⟩ := walkTables_spec steps.sound (steps.first first) key
    refine ⟨d', found, by rw [stepped, Option.bind_some, walked]; rfl, steps.sound, steps.same, ?_,
      leads⟩
    intro nothing he inside
    have apart := none_ nothing he (steps.same.entries.mem_iff.mpr inside)
    rwa [steps.same.type] at apart

/-- An entry that a walk led to is one of the entries. -/
theorem Dict.Leads.mem_entries {key : κ} {hit : Hit κ ν} (leads : d.Leads key hit) :
    hit.he ∈ d.entries := by
  obtain ⟨rest, perm, -⟩ := Dict.entries_putChain leads.chain
  exact perm.mem_iff.mpr (by simp)

/-- A chain that was walked may be exchanged for one with entries of keys that were there. -/
theorem Dict.Leads.putChain {key : κ} {hit : Hit κ ν} (leads : d.Leads key hit) (sound : d.Sound)
    (used : Nat) {middle : List (DictEntry κ ν)} (all : ∀ he ∈ middle, he.key = hit.he.key)
    (short : middle.length ≤ 1) (count : used + 1 = (d.ht hit.second).used + middle.length) :
    d.Updates (d.putChain hit.second hit.slot used (hit.before ++ middle ++ hit.after))
      [hit.he] middle := by
  obtain ⟨rest, perm, others⟩ := Dict.entries_putChain leads.chain
  have now := others used (hit.before ++ middle ++ hit.after)
  -- The entry and what stands in its place are beside the same other entries.
  have old : d.entries.Perm ([hit.he] ++ (hit.before ++ hit.after ++ rest)) := by
    refine perm.trans ?_
    rw [List.append_assoc, List.append_assoc, List.cons_append]
    exact List.perm_middle
  have new : (d.putChain hit.second hit.slot used (hit.before ++ middle ++ hit.after)).entries.Perm
      (middle ++ (hit.before ++ hit.after ++ rest)) := by
    refine now.trans ?_
    rw [List.append_assoc, List.append_assoc, List.append_assoc]
    exact List.perm_append_comm_assoc _ _ _
  have chain := leads.chain
  refine ⟨⟨?_, ?_, ?_⟩, by simp, by simp, _, old, new⟩
  · simpa using sound.lawful
  · refine sound.shape.putChain leads.laid leads.chain ?_ ?_ ?_
    · -- All of them have the slot that the entry had.
      intro he inside
      have place := leads.laid.placed _ _ leads.chain
      rcases List.mem_append.mp inside with first | last
      · rcases List.mem_append.mp first with before | between
        · exact place he (by simp [before])
        · rw [all he between]
          exact place hit.he (by simp)
      · exact place he (by simp [last])
    · simp only [List.length_append, List.length_cons]
      omega
    · rintro isFirst both
      rw [isFirst] at chain
      exact both.le_of_filled chain (by simp)
  · -- A key that is put back is as far apart from the others as it was.
    rw [Dict.putChain_type]
    have symmetric := sound.lawful.apart_symm (ν := ν)
    have before := (old.pairwise_iff fun {a b} => symmetric.symm a b).mp sound.distinct
    refine (new.pairwise_iff fun {a b} => symmetric.symm a b).mpr ?_
    obtain ⟨away, distinct⟩ := List.pairwise_cons.mp before
    match middle, all, short with
    | [], _, _ => exact distinct
    | [he], all, _ =>
      refine List.pairwise_cons.mpr ⟨?_, distinct⟩
      intro other inside
      have apart := away other inside
      rwa [Apart, ← all he (by simp)] at apart
    | _ :: _ :: _, _, short => simp at short

/-- `dictDelete` takes the entry of the key away when there is one, and nothing else. -/
theorem dictGenericDelete_spec (sound : d.Sound) (key : κ) :
    ∃ d' ok, dictGenericDelete d key = some (d', ok) ∧
      ((ok = false ∧ d.Updates d' [] [] ∧ ∀ he ∈ d.entries, d.type.keyCompare key he.key = false) ∨
        ∃ he, ok = true ∧ d.Updates d' [he] [] ∧ d.type.keyCompare key he.key = true) := by
  rw [dictGenericDelete]
  rcases sound.table_cases with ⟨empty, nothing⟩ | ⟨notEmpty, first⟩
  · rw [if_pos empty]
    exact ⟨d, false, rfl, .inl ⟨rfl, (Dict.SameEntries.refl d).keeps sound, by simp [nothing]⟩⟩
  · rw [if_neg notEmpty]
    obtain ⟨d', stepped, steps⟩ := stepIfRehashing_spec sound
    obtain ⟨found, walked, none_, leads⟩ := walkTables_spec steps.sound (steps.first first) key
    rw [stepped, Option.bind_some, walked]
    cases found with
    | none =>
      refine ⟨d', false, rfl, .inl ⟨rfl, steps.same.keeps steps.sound, ?_⟩⟩
      intro he inside
      have apart := none_ rfl he (steps.same.entries.mem_iff.mpr inside)
      rwa [steps.same.type] at apart
    | some hit =>
      have leads := leads hit rfl
      -- There is an entry to take away, so the count is not zero.
      have positive : 0 < (d'.ht hit.second).used := by
        have old := (Chained.flatten_perm leads.chain).length_eq
        rw [leads.laid.used, old]
        simp only [List.length_append, List.length_cons]
        omega
      have none_ : ∀ he ∈ ([] : List (DictEntry κ ν)), he.key = hit.he.key := by simp
      have updated := leads.putChain steps.sound ((d'.ht hit.second).used - 1) none_ (by simp)
        (by simp; omega)
      rw [List.append_nil] at updated
      refine ⟨_, true, rfl, .inr ⟨hit.he, rfl, steps.same.updates updated, ?_⟩⟩
      have same := leads.same
      rwa [steps.same.type] at same

/-- The table that new entries go to exists. -/
theorem Dict.Sound.laid_last (sound : d.Sound) (first : d.ht0.Laid d.type) :
    (d.ht (dictIsRehashing d)).Laid d.type := by
  cases going : dictIsRehashing d with
  | false => exact first
  | true => exact (sound.shape.rehashing_of going).second

/-- A new entry of a key that is not there may be put in front of the chain of its slot. -/
theorem Dict.Sound.putFront (sound : d.Sound) (first : d.ht0.Laid d.type)
    {new : DictEntry κ ν} {chain : List (DictEntry κ ν)} {i : Nat}
    (place : i = (d.ht (dictIsRehashing d)).slot (d.type.hashFunction new.key))
    (found : (d.ht (dictIsRehashing d)).table[i]? = some chain)
    (away : ∀ he ∈ d.entries, d.type.keyCompare new.key he.key = false) :
    d.Updates
      (d.putChain (dictIsRehashing d) i ((d.ht (dictIsRehashing d)).used + 1) (new :: chain))
      [] [new] := by
  have laid := sound.laid_last first
  obtain ⟨rest, perm, others⟩ := Dict.entries_putChain found
  have now := others ((d.ht (dictIsRehashing d)).used + 1) (new :: chain)
  refine ⟨⟨?_, ?_, ?_⟩, by simp, by simp, _, perm, now⟩
  · simpa using sound.lawful
  · refine sound.shape.putChain laid found ?_ ?_ ?_
    · intro he inside
      rcases List.mem_cons.mp inside with rfl | old
      · exact place.symm
      · exact laid.placed _ _ found he old
    · simp only [List.length_cons]
      omega
    · -- In the middle of a rehashing, new entries go to the second table.
      intro isFirst both
      rw [both.isRehashing] at isFirst
      cases isFirst
  · rw [Dict.putChain_type]
    have symmetric := sound.lawful.apart_symm (ν := ν)
    refine (now.pairwise_iff fun {a b} => symmetric.symm a b).mpr ?_
    refine List.pairwise_cons.mpr ⟨?_, ?_⟩
    · intro he inside
      exact away he (perm.mem_iff.mpr inside)
    · exact (perm.pairwise_iff fun {a b} => symmetric.symm a b).mp sound.distinct

/--
After its step, `dictAddRaw` expands the table if needed.

Then it finds the key there, or puts a new entry in front of the chain of its slot in the newest table.
-/
theorem dictAddRaw_run {mid : Dict κ ν} (stepped : stepIfRehashing d = some mid) (sound : mid.Sound)
    (small : mid.entries.length ≤ 2 ^ 30) (dictCanResize : Bool) (key : κ) (val : ν) :
    ∃ full, full = (dictExpandIfNeeded dictCanResize mid).1 ∧ mid.Expands full true ∧
      ((∃ hit, full.Leads key hit ∧ dictAddRaw dictCanResize d key val = some (full, false)) ∨
        (∀ he ∈ full.entries, full.type.keyCompare key he.key = false) ∧ ∃ i chain,
          i = (full.ht (dictIsRehashing full)).slot (full.type.hashFunction key) ∧
          (full.ht (dictIsRehashing full)).table[i]? = some chain ∧
          dictAddRaw dictCanResize d key val = some (full.putChain (dictIsRehashing full) i
            ((full.ht (dictIsRehashing full)).used + 1) ({ key := key, val := val } :: chain), true)) := by
  obtain ⟨full, ok, expanded⟩ : ∃ full ok, dictExpandIfNeeded dictCanResize mid = (full, ok) :=
    ⟨_, _, rfl⟩
  obtain ⟨rfl, expands⟩ : ok = true ∧ mid.Expands full true := by
    have spec := dictExpandIfNeeded_spec sound small dictCanResize
    rwa [expanded] at spec
  have first := expands.first rfl
  obtain ⟨found, walked, none_, leads⟩ := walkTables_spec expands.sound first key
  refine ⟨full, by rw [expanded], expands, ?_⟩
  rw [dictAddRaw, stepped, Option.bind_some, dictKeyIndex, expanded]
  simp only [walked, Option.map_some, Option.bind_some]
  cases found with
  | some hit =>
    -- The key is there, and the answer is -1.
    exact .inl ⟨hit, leads hit rfl, rfl⟩
  | none =>
    have laid := expands.sound.laid_last first
    obtain ⟨chain, is⟩ := laid.chain_of_slot (full.type.hashFunction key)
    refine .inr ⟨none_ rfl, _, chain, rfl, is, ?_⟩
    -- The index is below the size of a table, so it is the same as an `int`.
    rw [wrapInt_of_le (Int.natCast_nonneg _) (laid.slot_le_intMax _)]
    dsimp only
    rw [if_neg (by omega), if_neg (by omega), Int.toNat_natCast, is]
    rfl

/-- `dictAddRaw` puts a new entry in when there is none of its key, and nothing else. -/
theorem dictAddRaw_spec (sound : d.Sound) (small : d.entries.length ≤ 2 ^ 30) (dictCanResize : Bool)
    (key : κ) (val : ν) :
    ∃ d' ok, dictAddRaw dictCanResize d key val = some (d', ok) ∧
      ((ok = true ∧ d.Updates d' [] [{ key := key, val := val }] ∧
          ∀ he ∈ d.entries, d.type.keyCompare key he.key = false) ∨
        (ok = false ∧ d.Updates d' [] [] ∧ ∃ he ∈ d.entries, d.type.keyCompare key he.key = true)) := by
  obtain ⟨mid, stepped, steps⟩ := stepIfRehashing_spec sound
  have few : mid.entries.length ≤ 2 ^ 30 := by rwa [steps.same.entries.length_eq]
  obtain ⟨full, -, expands, result⟩ :=
    dictAddRaw_run stepped steps.sound few dictCanResize key val
  have same := steps.same.trans expands.same
  -- The step and the expansion before it change no entry.
  rcases result with ⟨hit, leads, ran⟩ | ⟨away, i, chain, place, is, ran⟩
  · refine ⟨full, false, ran, .inr ⟨rfl, same.keeps expands.sound, hit.he, ?_, ?_⟩⟩
    · exact same.entries.mem_iff.mp leads.mem_entries
    · have found := leads.same
      rwa [same.type] at found
  · have updated : full.Updates _ [] [{ key := key, val := val }] :=
      expands.sound.putFront (expands.first rfl) place is away
    refine ⟨_, true, ran, .inl ⟨rfl, same.updates updated, ?_⟩⟩
    intro he inside
    have apart := away he (same.entries.mem_iff.mpr inside)
    rwa [same.type] at apart

/-- `dictReplace` puts a new entry in, or another value in the entry that is there. -/
theorem dictReplace_spec (sound : d.Sound) (small : d.entries.length ≤ 2 ^ 30) (dictCanResize : Bool)
    (key : κ) (val : ν) :
    ∃ d' ok, dictReplace dictCanResize d key val = some (d', ok) ∧
      ((ok = true ∧ d.Updates d' [] [{ key := key, val := val }] ∧
          ∀ he ∈ d.entries, d.type.keyCompare key he.key = false) ∨
        ∃ he, ok = false ∧ d.Updates d' [he] [{ he with val := val }] ∧
          d.type.keyCompare key he.key = true) := by
  obtain ⟨mid, ok, added, result⟩ := dictAddRaw_spec sound small dictCanResize key val
  rw [dictReplace, dictAdd, added, Option.bind_some]
  rcases result with ⟨rfl, updates, away⟩ | ⟨rfl, updates, other, inside, same⟩
  · exact ⟨mid, true, rfl, .inl ⟨rfl, updates, away⟩⟩
  · -- The entry that kept the new one out is found by the lookup.
    obtain ⟨rest, before, after⟩ := updates.entries
    have perm : mid.entries.Perm d.entries := after.trans before.symm
    obtain ⟨d', found, looked, sound', same', none_, leads⟩ := dictFind_spec updates.sound key
    simp only [looked, Option.bind_some, Bool.false_eq_true, if_false]
    cases found with
    | none =>
      have apart := none_ rfl other (perm.mem_iff.mpr inside)
      rw [updates.type, same] at apart
      cases apart
    | some hit =>
      have leads := leads hit rfl
      have one : ∀ he ∈ [{ hit.he with val := val }], he.key = hit.he.key := by
        intro he inside
        rw [List.mem_singleton.mp inside]
      have updated := leads.putChain sound' (d'.ht hit.second).used one (by simp) (by simp)
      rw [List.append_assoc, List.singleton_append] at updated
      have whole : d.SameEntries d' :=
        ⟨same'.type.trans updates.type, same'.iterators.trans updates.iterators,
          same'.entries.trans perm⟩
      refine ⟨_, false, rfl, .inr ⟨hit.he, rfl, whole.updates updated, ?_⟩⟩
      have same := leads.same
      rwa [whole.type] at same

end Cevent.Hash
