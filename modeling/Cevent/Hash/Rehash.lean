import Cevent.Hash.Laws

/-! Incremental rehashing: every pass moves one chain, and nothing gets lost on the way. -/

namespace Cevent.Hash

universe u v

variable {κ : Type u} {ν : Type v} {d : Dict κ ν}

/-- What one pass of a rehashing does. -/
structure Dict.Moves (d d' : Dict κ ν) : Prop where
  same : d.SameEntries d'
  both : d'.Rehashing
  size0 : d'.ht0.size = d.ht0.size
  size1 : d'.ht1.size = d.ht1.size
  passed : d.rehashidx < d'.rehashidx
  fewer : d'.ht0.used < d.ht0.used

/-- An entry that is moved is added to the new table and counted off the old one. -/
theorem moveEntry_spec (laid : d.ht1.Laid d.type) (de : DictEntry κ ν) :
    ∃ ht1, moveEntry d de =
        some { d with ht0 := { d.ht0 with used := d.ht0.used - 1 }, ht1 := ht1 } ∧
      ht1.Laid d.type ∧ ht1.size = d.ht1.size ∧
      ht1.table.flatten.Perm (de :: d.ht1.table.flatten) := by
  obtain ⟨chain, found⟩ := laid.chain_of_slot (d.type.hashFunction de.key)
  refine ⟨_, by rw [moveEntry, found]; rfl, laid.set found ?_ ?_, rfl, ?_⟩
  · -- The entry goes where its hash says, and the others are there already.
    intro he inside
    rcases List.mem_cons.mp inside with rfl | old
    · rfl
    · exact laid.placed _ _ found he old
  · simp only [List.length_cons]
    omega
  · have old := Chained.flatten_perm found
    have new := Chained.flatten_set_perm found (de :: chain)
    exact new.trans (.cons de old.symm)

/-- A whole chain is moved entry by entry. -/
theorem foldlM_moveEntry (laid : d.ht1.Laid d.type) (chain : List (DictEntry κ ν)) :
    ∃ ht1, chain.foldlM moveEntry d =
        some { d with ht0 := { d.ht0 with used := d.ht0.used - chain.length }, ht1 := ht1 } ∧
      ht1.Laid d.type ∧ ht1.size = d.ht1.size ∧
      ht1.table.flatten.Perm (chain ++ d.ht1.table.flatten) := by
  induction chain generalizing d with
  | nil => exact ⟨d.ht1, rfl, laid, rfl, .refl _⟩
  | cons de nextde ih =>
    obtain ⟨mid, moved, laidMid, sizeMid, permMid⟩ := moveEntry_spec laid de
    -- The rest of the chain is moved from the state that the first entry leaves.
    obtain ⟨last, rest, laidLast, sizeLast, permLast⟩ :=
      ih (d := { d with ht0 := { d.ht0 with used := d.ht0.used - 1 }, ht1 := mid }) laidMid
    refine ⟨last, ?_, laidLast, sizeLast.trans sizeMid, ?_⟩
    · rw [List.foldlM_cons, moved]
      show nextde.foldlM moveEntry _ = _
      rw [rest, List.length_cons, Nat.sub_sub, Nat.add_comm 1]
    · calc last.table.flatten.Perm (nextde ++ mid.table.flatten) := permLast
        _ |>.Perm (nextde ++ (de :: d.ht1.table.flatten)) := .append_left _ permMid
        _ |>.Perm (de :: nextde ++ d.ht1.table.flatten) := List.perm_middle

/-- Where there are entries, the next slot that has any is found. -/
theorem skipEmpty_spec {rest : List (List (DictEntry κ ν))} (idx : Nat) (some_ : rest.flatten ≠ []) :
    ∃ i chain, skipEmpty rest idx = some (idx + i, chain) ∧ rest[i]? = some chain ∧ chain ≠ [] ∧
      ∀ j < i, rest[j]? = some [] := by
  induction rest generalizing idx with
  | nil => exact absurd rfl some_
  | cons first rest ih =>
    cases first with
    | cons de nextde =>
      exact ⟨0, de :: nextde, rfl, rfl, List.cons_ne_nil _ _, fun j below => absurd below (Nat.not_lt_zero j)⟩
    | nil =>
      -- The entries are behind the first slot.
      obtain ⟨i, chain, found, is, filled, empty⟩ := ih (idx + 1) some_
      refine ⟨i + 1, chain, ?_, is, filled, ?_⟩
      · rw [skipEmpty, found]
        congr 2
        omega
      · intro j below
        cases j with
        | zero => rfl
        | succ j => exact empty j (by omega)

/-- The entries of the old table are behind the slots that were passed. -/
theorem Dict.Rehashing.flatten_drop (both : d.Rehashing) :
    (d.ht0.table.drop d.rehashidx.toNat).flatten = d.ht0.table.flatten := by
  have none_ : (d.ht0.table.take d.rehashidx.toNat).flatten = [] := by
    rw [List.flatten_eq_nil_iff]
    intro chain among
    obtain ⟨i, is⟩ := List.mem_iff_getElem?.mp among
    rw [List.getElem?_take] at is
    split_ifs at is with below
    rw [both.moved i below] at is
    exact (Option.some.inj is).symm
  conv_rhs => rw [← List.take_append_drop d.rehashidx.toNat d.ht0.table]
  rw [List.flatten_append, none_, List.nil_append]

/-- A pass over an old table with entries moves a chain of it. -/
theorem moveBucket_spec (both : d.Rehashing) (filled : d.ht0.used ≠ 0) :
    ∃ d', moveBucket d = some d' ∧ d.Moves d' := by
  -- As there are entries, there is a slot to come with some.
  have some_ : (d.ht0.table.drop d.rehashidx.toNat).flatten ≠ [] := by
    rw [both.flatten_drop]
    intro none_
    rw [both.first.used, none_] at filled
    exact filled rfl
  obtain ⟨i, chain, found, is, notEmpty, empty⟩ := skipEmpty_spec d.rehashidx.toNat some_
  rw [List.getElem?_drop] at is
  obtain ⟨ht1, folded, laid, size1, perm⟩ := foldlM_moveEntry both.second chain
  have old := Chained.flatten_perm is
  have count := old.length_eq
  rw [List.length_append] at count
  have started := both.started
  have positive := List.length_pos_iff.mpr notEmpty
  have used := both.first.used
  -- The slot is cleared when all its entries are in the new table.
  have cleared : Dictht.Laid d.type { d.ht0 with
      table := d.ht0.table.set (d.rehashidx.toNat + i) [], used := d.ht0.used - chain.length } :=
    both.first.set is (fun _ none_ => absurd none_ List.not_mem_nil) (by simp; omega)
  refine ⟨_, by simp only [moveBucket, found, folded, Option.map_some]; rfl, ?_⟩
  exact {
    same := {
      type := rfl
      iterators := rfl
      entries := by
        calc ((d.ht0.table.set (d.rehashidx.toNat + i) []).flatten ++ ht1.table.flatten).Perm
              ((d.ht0.table.set (d.rehashidx.toNat + i) []).flatten ++ (chain ++ d.ht1.table.flatten)) :=
                .append_left _ perm
          _ |>.Perm (chain ++ (d.ht0.table.set (d.rehashidx.toNat + i) []).flatten
                ++ d.ht1.table.flatten) := by
                  rw [List.append_assoc]
                  exact List.perm_append_comm_assoc _ _ _
          _ |>.Perm (d.ht0.table.flatten ++ d.ht1.table.flatten) := .append_right _ old.symm }
    both := {
      first := cleared
      second := laid
      started := by show (0 : Int) ≤ _ + 1; omega
      within := by
        obtain ⟨inside, -⟩ := List.getElem?_eq_some_iff.mp is
        rw [both.first.length] at inside
        show ((d.rehashidx.toNat + i : Nat) : Int) + 1 ≤ d.ht0.size
        omega
      moved := by
        intro j below
        show (d.ht0.table.set _ _)[j]? = _
        rw [List.getElem?_set]
        replace below : j < (((d.rehashidx.toNat + i : Nat) : Int) + 1).toNat := below
        split_ifs with same inside
        · rfl
        · -- The slot that was cleared is one of the table.
          exact absurd (List.getElem?_eq_some_iff.mp is).1 (by omega)
        · rcases Nat.lt_or_ge j d.rehashidx.toNat with early | late
          · exact both.moved j early
          · have between := empty (j - d.rehashidx.toNat) (by omega)
            rwa [List.getElem?_drop, Nat.add_sub_cancel' late] at between }
    size0 := rfl
    size1 := size1
    passed := by show _ < ((d.rehashidx.toNat + i : Nat) : Int) + 1; omega
    fewer := by show d.ht0.used - chain.length < d.ht0.used; omega }

/-- A pass starts from a position of the table, as there is an entry in or behind its slot. -/
theorem Dict.Moves.inside {d' : Dict κ ν} (moves : d.Moves d') (both : d.Rehashing) :
    ¬ d.ht0.size ≤ d.rehashidx.toNat := by
  have started := both.started
  have passed := moves.passed
  have within := moves.both.within
  rw [moves.size0] at within
  omega

/-- The old table is given up for the new one. -/
def Dict.finish (d : Dict κ ν) : Dict κ ν := { d with ht0 := d.ht1, ht1 := dictReset, rehashidx := -1 }

/-- An old table without entries is given up without loss. -/
theorem Dict.Rehashing.finish (both : d.Rehashing) (empty : d.ht0.used = 0) :
    d.SameEntries d.finish := by
  refine ⟨rfl, rfl, ?_⟩
  -- A table whose count is zero has nothing in its chains.
  have none_ : d.ht0.table.flatten = [] := List.length_eq_zero_iff.mp (both.first.used ▸ empty)
  show (d.ht1.table.flatten ++ []).Perm (d.ht0.table.flatten ++ d.ht1.table.flatten)
  rw [none_, List.append_nil, List.nil_append]

/-- What some passes of a rehashing lead to: each of them has moved entries, or it is over. -/
inductive Dict.Rehashed (d : Dict κ ν) (n : Nat) : Dict κ ν → Bool → Prop where
  | more {d' : Dict κ ν} (same : d.SameEntries d') (both : d'.Rehashing)
      (size0 : d'.ht0.size = d.ht0.size) (size1 : d'.ht1.size = d.ht1.size)
      (fewer : d'.ht0.used + n ≤ d.ht0.used) : Dict.Rehashed d n d' true
  | done {d' : Dict κ ν} (same : d.SameEntries d') (first : d'.ht0.Laid d'.type)
      (second : d'.ht1 = dictReset) (idle : d'.rehashidx = -1) (size0 : d'.ht0.size = d.ht1.size) :
      Dict.Rehashed d n d' false

/-- A number of passes never fails, and moves as many entries or ends the rehashing. -/
theorem dictRehashLoop_spec (both : d.Rehashing) (n : Nat) :
    ∃ d' more, dictRehashLoop n d = some (d', more) ∧ d.Rehashed n d' more := by
  -- By induction on the passes, each of which moves one bucket or finds the old table empty.
  induction n generalizing d with
  | zero => exact ⟨d, true, rfl, .more (.refl d) both rfl rfl (by simp)⟩
  | succ n ih =>
    rw [dictRehashLoop]
    by_cases empty : d.ht0.used = 0
    · exact ⟨d.finish, false, by rw [if_pos empty]; rfl,
        .done (both.finish empty) both.second rfl rfl rfl⟩
    · obtain ⟨mid, moved, moves⟩ := moveBucket_spec both empty
      obtain ⟨last, more, rest, reached⟩ := ih moves.both
      refine ⟨last, more, ?_, ?_⟩
      · rw [if_neg empty, if_neg (moves.inside both), moved]
        exact rest
      · have fewer := moves.fewer
        cases reached with
        | more same both' size0 size1 later =>
          exact .more (moves.same.trans same) both' (size0.trans moves.size0)
            (size1.trans moves.size1) (by omega)
        | done same first second idle size0 =>
          exact .done (moves.same.trans same) first second idle (size0.trans moves.size1)

/-- What an operation leaves that only moves entries, and the first table when there was one. -/
structure Dict.Steps (d d' : Dict κ ν) : Prop where
  sound : d'.Sound
  same : d.SameEntries d'
  first : d.ht0.Laid d.type → d'.ht0.Laid d'.type

/-- Any number of passes keeps the dictionary sound and its entries the same. -/
theorem dictRehash_spec (sound : d.Sound) (n : Nat) :
    ∃ d' more, dictRehash d n = some (d', more) ∧ d.Steps d' := by
  rw [dictRehash]
  split_ifs with going
  · obtain ⟨d', more, ran, reached⟩ := dictRehashLoop_spec (sound.shape.rehashing_of going) n
    refine ⟨d', more, ran, ?_⟩
    cases reached with
    | more same both => exact ⟨sound.of_same same (.rehashing both), same, fun _ => both.first⟩
    | done same first second idle =>
      exact ⟨sound.of_same same (.settled first second idle), same, fun _ => first⟩
  · exact ⟨d, false, rfl, sound, .refl d, id⟩

/-- The step before a lookup or an update keeps the dictionary sound and its entries the same. -/
theorem stepIfRehashing_spec (sound : d.Sound) :
    ∃ d', stepIfRehashing d = some d' ∧ d.Steps d' := by
  rw [stepIfRehashing, dictRehashStep]
  split_ifs with going free
  · obtain ⟨d', more, ran, steps⟩ := dictRehash_spec sound 1
    exact ⟨d', by rw [ran]; rfl, steps⟩
  · exact ⟨d, rfl, sound, .refl d, id⟩
  · exact ⟨d, rfl, sound, .refl d, id⟩

end Cevent.Hash
