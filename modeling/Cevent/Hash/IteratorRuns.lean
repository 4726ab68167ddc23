import Cevent.Hash.IteratorCalls
import Mathlib.Data.List.Flatten
import Mathlib.Data.List.TakeWhile

/-! Whole iterations by a safe iterator: the loop that may delete what it visits, and other calls between. -/

namespace Cevent.Hash

open Interleaving

universe u v

variable {κ : Type u} {ν : Type v} {d : Dict κ ν} {iter : DictIterator κ}

/-- The entry that `dictNext` will follow a pointer to is ahead. -/
theorem Dict.At.next_mem_ahead (at_ : d.At iter) (some_ : iter.entry ≠ none) {next : κ}
    (is : iter.nextEntry = some next) :
    ∃ he ∈ d.ahead iter, d.type.keyCompare next he.key = true := by
  obtain ⟨chain, found, he, among, same⟩ := at_.next some_ next is
  refine ⟨he, List.mem_append_left _ ?_, same⟩
  obtain ⟨current, entry⟩ := Option.ne_none_iff_exists'.mp some_
  rw [Dict.inChain, entry, is]
  simp only [found, Option.getD_some]
  -- It is not among those that are skipped.
  rw [← List.takeWhile_append_dropWhile (p := fun he => !d.type.keyCompare next he.key) (l := chain),
    List.mem_append] at among
  refine among.resolve_left fun skipped => ?_
  have other := List.mem_takeWhile_imp skipped
  rw [same] at other
  cases other

/-- What is ahead of the iterator are entries of the dictionary, in the order of its tables. -/
theorem Dict.At.ahead_sublist (at_ : d.At iter) : (d.ahead iter).Sublist d.entries := by
  -- The rest of the chain and the slots behind it are the table from that slot on.
  have own : ∃ n, (d.inChain iter ++ ((d.ht iter.table).table.drop iter.behind).flatten).Sublist
      ((d.ht iter.table).table.drop n).flatten := by
    by_cases some_ : iter.entry = none
    · refine ⟨iter.behind, ?_⟩
      rw [Dict.inChain, some_, List.nil_append]
    · obtain ⟨least, inside⟩ := at_.within some_
      obtain ⟨chain, found, split⟩ := at_.sound.chain_at least inside
      refine ⟨iter.index.toNat, ?_⟩
      rw [split, List.flatten_cons]
      refine List.Sublist.append ?_ (List.Sublist.refl _)
      unfold Dict.inChain
      split
      · rw [found]
        exact List.dropWhile_sublist _
      · exact List.nil_sublist _
  obtain ⟨n, own⟩ := own
  have whole := own.trans (List.drop_sublist n _).flatten
  rw [Dict.ahead, Dict.inSlots, Dict.entries]
  cases table : iter.table with
  | false =>
    rw [table] at whole
    rw [if_neg (by simp), ← List.append_assoc]
    exact whole.append (List.Sublist.refl _)
  | true =>
    rw [table] at whole
    rw [if_pos rfl]
    exact List.sublist_append_of_sublist_right whole

/-- No two of them are of one key. -/
theorem Dict.At.ahead_distinct (at_ : d.At iter) : (d.ahead iter).Pairwise (Apart d.type) :=
  at_.sound.distinct.sublist at_.ahead_sublist

/-- Entries that are apart from each other are different. -/
theorem nodup_of_apart {type : DictType κ} (lawful : Lawful type) {es : List (DictEntry κ ν)}
    (distinct : es.Pairwise (Apart type)) : es.Nodup := by
  refine distinct.imp ?_
  rintro he _ apart rfl
  rw [Apart, lawful.refl] at apart
  cases apart

/-- What `dictNext` returns, and where it leaves the iterator and the dictionary. -/
theorem dictNext_cases (at_ : d.At iter) :
    (∃ iter', dictNext d iter = some (d.iterated, iter', none) ∧ d.ahead iter = [] ∧
      d.iterated.At iter' ∧ d.iterated.ahead iter' = []) ∨
    ∃ iter' he rest, dictNext d iter = some (d.iterated, iter', some he) ∧
      d.ahead iter = he :: rest ∧ d.iterated.At iter' ∧ d.iterated.ahead iter' = rest ∧
      iter'.entry = some he.key := by
  obtain ⟨iter', ran, at', ahead', entry⟩ := dictNext_spec at_
  cases ahead : d.ahead iter with
  | nil =>
    rw [ahead] at ran ahead'
    exact .inl ⟨iter', ran, rfl, at', ahead'⟩
  | cons he rest =>
    rw [ahead] at ran ahead' entry
    exact .inr ⟨iter', he, rest, ran, rfl, at', ahead', entry⟩

section Loop

/--
The loop `while (dictNext(iter))`, whose body deletes some of the entries it comes to, for at most so
many turns; with the entries that it comes to.
-/
def visitLoop (deletes : DictEntry κ ν → Bool) :
    Nat → Dict κ ν → DictIterator κ → Option (Dict κ ν × DictIterator κ × List (DictEntry κ ν))
  | 0, _, _ => none
  | turns + 1, d, iter => (dictNext d iter).bind fun (d, iter, he) =>
    match he with
    | none => some (d, iter, [])
    | some he =>
      (if deletes he then (dictDelete d he.key).map (·.1) else some d).bind fun d =>
        (visitLoop deletes turns d iter).map fun (d, iter, es) => (d, iter, he :: es)

/-- Deleting the entry that the iterator has come to leaves the same ones ahead. -/
theorem dictDelete_visited (at_ : d.At iter) (begun : d.iterators = 1) {he : DictEntry κ ν}
    (inside : he ∈ d.entries) (apart : ∀ other ∈ d.ahead iter, Apart d.type he other) :
    ∃ d', (dictDelete d he.key).map (·.1) = some d' ∧ d'.At iter ∧ d'.iterators = 1 ∧
      (d'.ahead iter).Perm (d.ahead iter) ∧
      ∀ other, other ∈ d'.entries ↔ other ∈ d.entries ∧ other ≠ he := by
  have lawful := at_.sound.lawful
  have lives : iter.entry ≠ none → ∀ next, iter.nextEntry = some next →
      d.type.keyCompare he.key next = false := by
    intro some_ next is
    obtain ⟨other, among, same⟩ := at_.next_mem_ahead some_ is
    have away := apart other among
    cases equal : d.type.keyCompare he.key next with
    | false => rfl
    | true =>
      rw [Apart, lawful.trans _ _ _ equal same] at away
      cases away
  obtain ⟨d', ok, ran, at', type, begun', left, ahead⟩ := at_.delete begun lives
  refine ⟨d', by rw [ran]; rfl, at', begun', ?_, ?_⟩
  · -- Both have the same entries, and each of them once.
    have nodup := nodup_of_apart lawful at_.ahead_distinct
    have nodup' := nodup_of_apart (type ▸ lawful) at'.ahead_distinct
    refine (List.perm_ext_iff_of_nodup nodup' nodup).mpr fun other => ?_
    have is := ahead (· = other)
    simp only [Dict.Ahead, exists_eq_right] at is
    cases same : d.type.keyCompare he.key other.key with
    | false =>
      refine is ?_
      rintro _ equal rfl
      rw [same] at equal
      cases equal
    | true =>
      refine iff_of_false ?_ ?_
      · intro among
        have away := ((left other).mp (at'.ahead_sublist.subset among)).2
        rw [same] at away
        cases away
      · intro among
        have away := apart other among
        rw [Apart, same] at away
        cases away
  · intro other
    rw [left]
    refine and_congr_right fun inside' => ?_
    constructor
    · rintro away rfl
      rw [lawful.refl] at away
      cases away
    · intro different
      cases same : d.type.keyCompare he.key other.key with
      | false => rfl
      | true => exact absurd (at_.sound.unique inside' inside same (lawful.refl _)) different

/-- The loop comes to all that is ahead, and leaves what it does not delete. -/
theorem visitLoop_spec (deletes : DictEntry κ ν → Bool) {turns : Nat} (at_ : d.At iter)
    (enough : (d.ahead iter).length < turns) :
    ∃ d' iter' es, visitLoop deletes turns d iter = some (d', iter', es) ∧
      es.Perm (d.ahead iter) ∧ d'.At iter' ∧ d'.iterators = 1 ∧
      ∀ he, he ∈ d'.entries ↔ he ∈ d.entries ∧ ¬(he ∈ d.ahead iter ∧ deletes he = true) := by
  -- By induction on the turns, as each of them leaves one entry less ahead.
  induction turns generalizing d iter with
  | zero => exact absurd enough (Nat.not_lt_zero _)
  | succ turns ih =>
    rw [visitLoop]
    rcases dictNext_cases at_ with ⟨iter', ran, empty, at', -⟩ |
      ⟨iter', he, rest, ran, ahead, at', ahead', -⟩
    · rw [ran, empty]
      exact ⟨d.iterated, iter', [], rfl, .refl _, at', rfl, by simp [Dict.iterated, Dict.entries]⟩
    · have distinct := at_.ahead_distinct
      rw [ahead] at distinct enough
      obtain ⟨away, -⟩ := List.pairwise_cons.mp distinct
      have inside : he ∈ d.iterated.entries := at_.ahead_sublist.subset (by simp [ahead])
      have apart : ∀ other ∈ d.iterated.ahead iter', Apart d.iterated.type he other := by
        rw [ahead']
        exact away
      have same : ∀ other, other ∈ d.iterated.entries ↔ other ∈ d.entries := fun _ => Iff.rfl
      rw [ran, ahead]
      simp only [Option.bind_some]
      cases gone : deletes he with
      | false =>
        obtain ⟨d', iter'', es, looped, perm, at'', begun, left⟩ :=
          ih at' (by rw [ahead']; exact Nat.lt_of_succ_lt_succ enough)
        rw [ahead'] at perm left
        refine ⟨d', iter'', he :: es, ?_, perm.cons he, at'', begun, ?_⟩
        · simp only [Bool.false_eq_true, if_false, Option.bind_some, looped, Option.map_some]
        · intro other
          rw [left, same, List.mem_cons]
          refine and_congr_right fun _ => not_congr ?_
          constructor
          · rintro ⟨among, deleted⟩
            exact ⟨.inr among, deleted⟩
          · rintro ⟨rfl | among, deleted⟩
            · rw [gone] at deleted
              cases deleted
            · exact ⟨among, deleted⟩
      | true =>
        obtain ⟨mid, deleted, mid_at, mid_begun, mid_ahead, mid_left⟩ :=
          dictDelete_visited at' rfl inside apart
        rw [ahead'] at mid_ahead
        obtain ⟨d', iter'', es, looped, perm, at'', begun, left⟩ :=
          ih mid_at (by rw [mid_ahead.length_eq]; exact Nat.lt_of_succ_lt_succ enough)
        refine ⟨d', iter'', he :: es, ?_, (perm.trans mid_ahead).cons he, at'', begun, ?_⟩
        · simp only [if_true, deleted, Option.bind_some, looped, Option.map_some]
        · intro other
          rw [left, mid_left, same, mid_ahead.mem_iff, List.mem_cons, and_assoc]
          refine and_congr_right fun _ => ?_
          by_cases visited : other = he
          · simp [visited, gone]
          · simp [visited]

/-- An iterator that has begun is counted, and its release gives the dictionary free. -/
theorem dictReleaseIterator_spec (at_ : d.At iter) (begun : d.iterators = 1) :
    dictReleaseIterator d iter = { d with iterators := 0 } := by
  have used : iter.unused = false := by
    cases unused : iter.unused with
    | false => rfl
    | true =>
      have count := at_.iterators
      rw [begun, unused] at count
      cases count
  rw [dictReleaseIterator, if_neg (by simp [used]), begun]
  rfl

/-- From a new iterator, the loop comes to every entry once, and leaves those that it does not delete. -/
theorem visitLoop_entries (sound : d.Sound) (free : d.iterators = 0)
    (deletes : DictEntry κ ν → Bool) :
    ∃ d' iter es, visitLoop deletes (dictSize d + 1) d dictGetSafeIterator = some (d', iter, es) ∧
      es.Perm d.entries ∧ (dictReleaseIterator d' iter).iterators = 0 ∧
      (dictReleaseIterator d' iter).entries.Perm (d.entries.filter fun he => !deletes he) := by
  have at_ : d.At dictGetSafeIterator := at_dictGetSafeIterator sound free
  have enough : (d.ahead dictGetSafeIterator).length < dictSize d + 1 := by
    rw [ahead_dictGetSafeIterator, sound.dictSize_eq]
    exact Nat.lt_succ_self _
  obtain ⟨d', iter, es, looped, perm, at', begun, left⟩ := visitLoop_spec deletes at_ enough
  rw [ahead_dictGetSafeIterator] at left
  refine ⟨d', iter, es, looped, perm, ?_, ?_⟩
  · rw [dictReleaseIterator_spec at' begun]
  · rw [dictReleaseIterator_spec at' begun]
    -- No entry is there twice, so it is enough that the same ones are there.
    have nodup := nodup_of_apart sound.lawful sound.distinct
    have nodup' := nodup_of_apart at'.sound.lawful at'.sound.distinct
    refine (List.perm_ext_iff_of_nodup nodup' (nodup.filter _)).mpr fun he => ?_
    refine (left he).trans ?_
    rw [List.mem_filter]
    refine and_congr_right fun inside => ?_
    simp [inside]

/--
After calls that fit, the loop ends with the turn behind the last entry, and comes to every entry once.

It may delete any of the entries that it comes to. What is left are the others, also when the loop falls
into the middle of a rehashing.
-/
theorem visitLoop_whole {type : DictType κ} (lawful : Lawful type) {calls : List (Call κ ν)}
    {store : Store κ ν} {answers : List (Answer κ ν)}
    (fits : (tableMachine κ ν).Meets (fun store call => call.Fits store) (Store.new type) calls)
    (ran : (tableMachine κ ν).exec (Store.new type) calls = some (store, answers))
    (deletes : DictEntry κ ν → Bool) :
    ∃ d iter es, visitLoop deletes (dictSize store.dict + 1) store.dict dictGetSafeIterator =
        some (d, iter, es) ∧
      es.Perm store.dict.entries ∧ (dictReleaseIterator d iter).iterators = 0 ∧
      (dictReleaseIterator d iter).entries.Perm
        (store.dict.entries.filter fun he => !deletes he) := by
  obtain ⟨m, rep, -⟩ := represents_of_exec lawful fits ran
  exact visitLoop_entries rep.sound rep.free deletes

/-- Two of five entries are deleted while the loop goes through both tables of a rehashing. -/
theorem visitLoop_whole_heapStrings : ∃ store answers d iter es,
    (tableMachine Int Nat).exec (Store.new dictTypeHeapStrings)
      [.add 1 1, .add 2 2, .add 3 3, .add 4 4, .add 5 5] = some (store, answers) ∧
    dictIsRehashing store.dict = true ∧
    visitLoop (fun he => he.val % 2 == 0) (dictSize store.dict + 1) store.dict dictGetSafeIterator =
      some (d, iter, es) ∧
    es.Perm store.dict.entries ∧ (dictReleaseIterator d iter).iterators = 0 ∧
    (dictReleaseIterator d iter).entries.Perm
      (store.dict.entries.filter fun he => !(he.val % 2 == 0)) := by
  have fits : (tableMachine Int Nat).Meets (fun store call => call.Fits store)
      (Store.new dictTypeHeapStrings) [.add 1 1, .add 2 2, .add 3 3, .add 4 4, .add 5 5] := by
    decide +kernel
  obtain ⟨store, m, answers, ran, -, -⟩ :=
    exec_represents (represents_new lawful_dictTypeHeapStrings) fits
  -- What the additions leave is a rehashing.
  have state : ((tableMachine Int Nat).exec (Store.new dictTypeHeapStrings)
      [.add 1 1, .add 2 2, .add 3 3, .add 4 4, .add 5 5]).map
        (fun done => dictIsRehashing done.1.dict) = some true := by decide +kernel
  rw [ran] at state
  obtain ⟨d, iter, es, looped, perm, free, left⟩ :=
    visitLoop_whole lawful_dictTypeHeapStrings fits ran (fun he => he.val % 2 == 0)
  exact ⟨store, answers, d, iter, es, ran, Option.some.inj state, looped, perm, free, left⟩

end Loop

section Between

/-- A dictionary that a safe iterator goes through while it is used. -/
structure SafeIteration (κ : Type u) (ν : Type v) where
  store : Store κ ν
  iter : DictIterator κ
  /-- The entries that `dictNext` has returned. -/
  returned : List (DictEntry κ ν)
  /-- Whether `dictNext` has returned `NULL`. -/
  ended : Bool

/-- Before the first call of `dictNext`. -/
def SafeIteration.start (store : Store κ ν) : SafeIteration κ ν where
  store := store
  iter := dictGetSafeIterator
  returned := []
  ended := false

/-- A call of `dictNext`, or another call to the dictionary. -/
inductive SafeAction (κ : Type u) (ν : Type v) where
  | next
  | call (made : Call κ ν)
  deriving DecidableEq, Repr

/-- A safe iterator among other calls. -/
def safeMachine (κ : Type u) (ν : Type v) :
    Machine (SafeIteration κ ν) (SafeAction κ ν) (Answer κ ν) where
  step it
    | .next => (dictNext it.store.dict it.iter).map fun (d, iter, he) =>
      ({ store := { it.store with dict := d }
         iter := iter
         returned := it.returned ++ he.toList
         ended := it.ended || he.isNone }, [.entry he])
    | .call made => (it.store.call made).map fun (store, answers) =>
      ({ it with store := store }, answers)

/-- The step of a call of `dictNext`. -/
theorem safeMachine_next {it : SafeIteration κ ν} {he : Option (DictEntry κ ν)}
    (ran : dictNext it.store.dict it.iter = some (d, iter, he)) :
    (safeMachine κ ν).step it .next = some
      ({ store := { it.store with dict := d }
         iter := iter
         returned := it.returned ++ he.toList
         ended := it.ended || he.isNone }, [.entry he]) := by
  simp only [safeMachine, ran, Option.map_some]

/-- The entry that `dictNext` will follow a pointer to. -/
def DictIterator.awaited (iter : DictIterator κ) : Option κ :=
  if iter.entry.isSome then iter.nextEntry else none

/--
A call that a safe iteration allows for, and that leaves the entry of a key to it.

The entry that `nextEntry` points to stays, and the one of the key until it was returned. It is not put
back once it is gone. `dictRehash` and `dictEmpty` are not called, as they do not look for iterators.
-/
def Call.Leaves (type : DictType κ) (key : κ) (it : SafeIteration κ ν) : Call κ ν → Prop
  | .add other _ | .replace other _ =>
    type.keyCompare key other = true → Holds type key it.store.dict.entries
  | .delete other => (∀ next ∈ it.iter.awaited, type.keyCompare other next = false) ∧
    (type.keyCompare key other = true → Holds type key it.returned)
  | .rehash _ | .empty => False
  | _ => True

/-- Calls come after the first one of `dictNext`, fit, and leave the entry of a key to the iteration. -/
def SafeAction.Leaves (type : DictType κ) (key : κ) (it : SafeIteration κ ν) :
    SafeAction κ ν → Prop
  | .next => True
  | .call made => it.iter.unused = false ∧ made.Fits it.store ∧ made.Leaves type key it

/-- Whether a call leaves an entry is found out by comparing keys. -/
instance Call.decidableLeaves (type : DictType κ) (key : κ) (it : SafeIteration κ ν) :
    (call : Call κ ν) → Decidable (call.Leaves type key it)
  | .add other _ | .replace other _ => inferInstanceAs (Decidable
    (type.keyCompare key other = true →
      ∃ he ∈ it.store.dict.entries, type.keyCompare key he.key = true))
  | .delete other => inferInstanceAs (Decidable
    ((∀ next ∈ it.iter.awaited, type.keyCompare other next = false) ∧
      (type.keyCompare key other = true →
        ∃ he ∈ it.returned, type.keyCompare key he.key = true)))
  | .rehash _ | .empty => isFalse id
  | .find _ | .fetchValue _ | .expand _ | .resize | .enableResize | .disableResize => isTrue trivial

instance SafeAction.decidableLeaves (type : DictType κ) (key : κ) (it : SafeIteration κ ν) :
    (action : SafeAction κ ν) → Decidable (action.Leaves type key it)
  | .next => isTrue trivial
  | .call made => inferInstanceAs (Decidable
    (it.iter.unused = false ∧ made.Fits it.store ∧ made.Leaves type key it))

/-- How often the entry of a key was returned. -/
def SafeIteration.times (type : DictType κ) (key : κ) (it : SafeIteration κ ν) : Nat :=
  it.returned.countP fun he => type.keyCompare key he.key

/-- The entry of a key is ahead and was not returned, or it was returned once and will not be again. -/
structure Visiting (type : DictType κ) (key : κ) (it : SafeIteration κ ν) : Prop where
  at_ : it.store.dict.At it.iter
  is : it.store.dict.type = type
  once : (it.times type key = 0 ∧ it.ended = false ∧
      it.store.dict.Ahead it.iter fun he => type.keyCompare key he.key = true) ∨
    (it.times type key = 1 ∧
      ¬it.store.dict.Ahead it.iter fun he => type.keyCompare key he.key = true)

namespace Visiting

variable {type : DictType κ} {key : κ} {it : SafeIteration κ ν}

/-- A call of `dictNext` takes the front of what is ahead. -/
theorem next (visiting : Visiting type key it) :
    ∃ it' answers, (safeMachine κ ν).step it .next = some (it', answers) ∧
      Visiting type key it' := by
  obtain ⟨at_, is, once⟩ := visiting
  rcases dictNext_cases at_ with ⟨iter', ran, empty, at', ahead'⟩ |
    ⟨iter', he, rest, ran, ahead, at', ahead', -⟩
  · -- With nothing ahead, the entry was returned before.
    refine ⟨_, _, safeMachine_next ran, at', is, .inr ?_⟩
    rcases once with ⟨-, -, he, among, -⟩ | ⟨one, -⟩
    · rw [empty] at among
      cases among
    · refine ⟨?_, ?_⟩
      · simpa [SafeIteration.times] using one
      · rintro ⟨he, among, -⟩
        rw [ahead'] at among
        cases among
  · refine ⟨_, _, safeMachine_next ran, at', is, ?_⟩
    have distinct := at_.ahead_distinct
    rw [ahead, is] at distinct
    obtain ⟨away, -⟩ := List.pairwise_cons.mp distinct
    have lawful : Lawful type := is ▸ at_.sound.lawful
    have grown : (it.returned ++ [he]).countP (fun he => type.keyCompare key he.key) =
        it.times type key + if type.keyCompare key he.key then 1 else 0 := by
      rw [List.countP_append, SafeIteration.times, List.countP_singleton]
    cases same : type.keyCompare key he.key with
    | true =>
      -- It is the one that is returned, and no other one is of the key.
      refine .inr ⟨?_, ?_⟩
      · rcases once with ⟨zero, -, -⟩ | ⟨-, gone⟩
        · show (it.returned ++ [he]).countP _ = 1
          rw [grown, zero, same]
          rfl
        · exact absurd ⟨he, by simp [ahead], same⟩ gone
      · rintro ⟨other, among, equal⟩
        have apart := away other (ahead' ▸ among)
        rw [Apart, lawful.trans _ _ _ (lawful.symm _ _ same) equal] at apart
        cases apart
    | false =>
      have count : (it.returned ++ [he]).countP (fun he => type.keyCompare key he.key) =
          it.times type key := by
        rw [grown, same]
        rfl
      have moved : (it.store.dict.iterated.Ahead iter' fun he => type.keyCompare key he.key = true) ↔
          it.store.dict.Ahead it.iter fun he => type.keyCompare key he.key = true := by
        simp [Dict.Ahead, ahead, ahead', same]
      rcases once with ⟨zero, open_, there⟩ | ⟨one, gone⟩
      · exact .inl ⟨count.trans zero, by simp [open_], moved.mpr there⟩
      · exact .inr ⟨count.trans one, fun there => gone (moved.mp there)⟩

/-- A call that leaves the same ahead, of the key, changes nothing for the iteration. -/
theorem keeps (visiting : Visiting type key it) {store : Store κ ν} (at_ : store.dict.At it.iter)
    (is : store.dict.type = it.store.dict.type)
    (same : (store.dict.Ahead it.iter fun he => type.keyCompare key he.key = true) ↔
      it.store.dict.Ahead it.iter fun he => type.keyCompare key he.key = true) :
    Visiting type key { it with store := store } where
  at_ := at_
  is := is.trans visiting.is
  once := visiting.once.imp (fun ⟨zero, open_, there⟩ => ⟨zero, open_, same.mpr there⟩)
    fun ⟨one, gone⟩ => ⟨one, fun there => gone (same.mp there)⟩

/-- Nothing of the key is ahead once it was returned and no entry of it is left. -/
theorem gone (visiting : Visiting type key it) {store : Store κ ν} (at_ : store.dict.At it.iter)
    (is : store.dict.type = it.store.dict.type) (returned : Holds type key it.returned)
    (left : ∀ he ∈ store.dict.entries, type.keyCompare key he.key = false) :
    Visiting type key { it with store := store } where
  at_ := at_
  is := is.trans visiting.is
  once := by
    rcases visiting.once with ⟨zero, -, -⟩ | ⟨one, -⟩
    · have some_ : 0 < it.times type key := List.countP_pos_iff.mpr returned
      rw [zero] at some_
      exact absurd some_ (Nat.lt_irrefl 0)
    · refine .inr ⟨one, ?_⟩
      rintro ⟨he, among, same⟩
      rw [left he (at_.ahead_sublist.subset among)] at same
      cases same

/-- The new entry of an addition is not of the key, where the key has an entry. -/
theorem not_new (visiting : Visiting type key it) {other : κ} {val : ν}
    (leaves : type.keyCompare key other = true → Holds type key it.store.dict.entries)
    (new : ∀ he ∈ it.store.dict.entries, it.store.dict.type.keyCompare other he.key = false) :
    ¬type.keyCompare key ({ key := other, val := val } : DictEntry κ ν).key = true := by
  intro same
  have lawful : Lawful type := visiting.is ▸ visiting.at_.sound.lawful
  obtain ⟨he, inside, equal⟩ := leaves same
  have away := new he inside
  rw [visiting.is, lawful.trans _ _ _ (lawful.symm _ _ same) equal] at away
  cases away

/-- The calls between leave the entry of the key to the iteration. -/
theorem call (visiting : Visiting type key it) {made : Call κ ν} (used : it.iter.unused = false)
    (fits : made.Fits it.store) (leaves : made.Leaves type key it) :
    ∃ store answers, it.store.call made = some (store, answers) ∧
      Visiting type key { it with store := store } := by
  have at_ := visiting.at_
  have lawful : Lawful type := visiting.is ▸ at_.sound.lawful
  have begun : it.store.dict.iterators = 1 := by
    rw [at_.iterators, used]
    rfl
  cases made with
  | add other val =>
    have small : it.store.dict.entries.length ≤ 2 ^ 30 := at_.sound.dictSize_eq ▸ fits
    obtain ⟨d, ok, ran, at', is, -, -, ahead⟩ :=
      at_.add begun small it.store.dictCanResize other val
    exact ⟨_, _, by rw [Store.call, ran]; rfl,
      visiting.keeps at' is (ahead _ (visiting.not_new leaves))⟩
  | replace other val =>
    have small : it.store.dict.entries.length ≤ 2 ^ 30 := at_.sound.dictSize_eq ▸ fits
    obtain ⟨d, ok, ran, at', is, -, ahead⟩ :=
      at_.replace begun small it.store.dictCanResize other val
    exact ⟨_, _, by rw [Store.call, ran]; rfl,
      visiting.keeps at' is (ahead _ (fun _ _ => Iff.rfl) (visiting.not_new leaves))⟩
  | delete other =>
    obtain ⟨lives, after⟩ := leaves
    have others : it.iter.entry ≠ none → ∀ next, it.iter.nextEntry = some next →
        it.store.dict.type.keyCompare other next = false := by
      intro some_ next next_is
      obtain ⟨current, entry⟩ := Option.ne_none_iff_exists'.mp some_
      rw [visiting.is]
      exact lives next (by simp [DictIterator.awaited, entry, next_is])
    obtain ⟨d, ok, ran, at', is, -, left, ahead⟩ := at_.delete begun others
    refine ⟨_, _, by rw [Store.call, ran]; rfl, ?_⟩
    rw [visiting.is] at left ahead
    cases same : type.keyCompare key other with
    | true =>
      -- The entry of the key goes, as it was returned.
      refine visiting.gone at' is (after same) fun he inside => ?_
      have away := ((left he).mp inside).2
      cases equal : type.keyCompare key he.key with
      | false => rfl
      | true =>
        rw [lawful.trans _ _ _ (lawful.symm _ _ same) equal] at away
        cases away
    | false =>
      refine visiting.keeps at' is (ahead _ fun he deleted equal => ?_)
      rw [lawful.trans _ _ _ equal (lawful.symm _ _ deleted)] at same
      cases same
  | find other =>
    obtain ⟨found, ran, -⟩ := dictFind_frozen at_.sound begun other
    exact ⟨_, _, by rw [Store.call, ran]; rfl, visiting.keeps at_ rfl Iff.rfl⟩
  | fetchValue other =>
    obtain ⟨found, ran, -⟩ := dictFind_frozen at_.sound begun other
    exact ⟨_, _, by rw [Store.call, dictFetchValue, ran]; rfl, visiting.keeps at_ rfl Iff.rfl⟩
  | expand size =>
    have stays := at_.expand fits
    exact ⟨_, _, rfl, visiting.keeps stays.at_ stays.type (by rw [Dict.Ahead, Dict.Ahead, stays.ahead])⟩
  | resize =>
    have stays := at_.resize fits it.store.dictCanResize
    exact ⟨_, _, rfl, visiting.keeps stays.at_ stays.type (by rw [Dict.Ahead, Dict.Ahead, stays.ahead])⟩
  | enableResize | disableResize => exact ⟨_, _, rfl, visiting.keeps at_ rfl Iff.rfl⟩
  | rehash n | empty => exact leaves.elim

end Visiting

end Between

end Cevent.Hash
