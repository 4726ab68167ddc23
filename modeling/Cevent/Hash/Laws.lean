import Cevent.Hash.Table
import Mathlib.Algebra.Group.Nat.Defs
import Mathlib.Data.List.Pairwise

/-! What every operation of the hash table keeps: the tables, where the entries lie, and which there are. -/

namespace Cevent.Hash

universe u v

variable {κ : Type u} {ν : Type v}

/-- The keys that a type calls equal are an equivalence, and equal keys have equal hashes. -/
structure Lawful (type : DictType κ) : Prop where
  refl : ∀ key, type.keyCompare key key = true
  symm : ∀ key other, type.keyCompare key other = true → type.keyCompare other key = true
  trans : ∀ key other third, type.keyCompare key other = true →
    type.keyCompare other third = true → type.keyCompare key third = true
  hash : ∀ key other, type.keyCompare key other = true →
    type.hashFunction key = type.hashFunction other

/-- Two entries have keys that are not equal. -/
def Apart (type : DictType κ) (a b : DictEntry κ ν) : Prop := type.keyCompare a.key b.key = false

/-- There is an entry of a key. -/
def Holds (type : DictType κ) (key : κ) (entries : List (DictEntry κ ν)) : Prop :=
  ∃ he ∈ entries, type.keyCompare key he.key = true

/-- Keys are told apart in either order. -/
theorem Lawful.apart_symm {type : DictType κ} (lawful : Lawful type) :
    Std.Symm (Apart type : DictEntry κ ν → DictEntry κ ν → Prop) where
  symm a b apart := by
    cases back : type.keyCompare b.key a.key with
    | false => exact back
    | true =>
      rw [Apart, lawful.symm _ _ back] at apart
      cases apart

/-- A table of a size that `_dictNextPower` gives, with its entries in the slots of their hashes. -/
structure Dictht.Laid (type : DictType κ) (ht : Dictht κ ν) : Prop where
  size : ∃ k, 2 ≤ k ∧ k ≤ 31 ∧ ht.size = 2 ^ k
  mask : ht.sizemask = ht.size - 1
  length : ht.table.length = ht.size
  placed : Chained.Placed (fun he => ht.slot (type.hashFunction he.key)) ht.table
  used : ht.used = ht.table.flatten.length

/-- Two tables, of which the first has no entries left in the slots that were passed. -/
structure Dict.Rehashing (d : Dict κ ν) : Prop where
  first : d.ht0.Laid d.type
  second : d.ht1.Laid d.type
  started : 0 ≤ d.rehashidx
  within : d.rehashidx ≤ d.ht0.size
  moved : ∀ i < d.rehashidx.toNat, d.ht0.table[i]? = some []

/-- The tables that a dictionary has: none at all, one, or two while entries go from one to the other. -/
inductive Dict.Shape (d : Dict κ ν) : Prop where
  | unused (first : d.ht0 = dictReset) (second : d.ht1 = dictReset) (idle : d.rehashidx = -1)
  | settled (first : d.ht0.Laid d.type) (second : d.ht1 = dictReset) (idle : d.rehashidx = -1)
  | rehashing (both : d.Rehashing)

/-- The entries of both tables. -/
def Dict.entries (d : Dict κ ν) : List (DictEntry κ ν) := d.ht0.table.flatten ++ d.ht1.table.flatten

/-- A dictionary in one of its shapes, with no two entries of the same key. -/
structure Dict.Sound (d : Dict κ ν) : Prop where
  lawful : Lawful d.type
  shape : d.Shape
  distinct : d.entries.Pairwise (Apart d.type)

/-- The same entries, in tables that may be others. -/
structure Dict.SameEntries (d d' : Dict κ ν) : Prop where
  type : d'.type = d.type
  iterators : d'.iterators = d.iterators
  entries : d'.entries.Perm d.entries

theorem Dict.SameEntries.refl (d : Dict κ ν) : d.SameEntries d := ⟨rfl, rfl, .refl _⟩

theorem Dict.SameEntries.trans {d d' d'' : Dict κ ν} (first : d.SameEntries d')
    (second : d'.SameEntries d'') : d.SameEntries d'' where
  type := second.type.trans first.type
  iterators := second.iterators.trans first.iterators
  entries := second.entries.trans first.entries

section Sizes

/-- The doubling comes to the least power of two that is as large as asked for. -/
theorem dictNextPowerLoop_spec {size passes k : Nat} (enough : size ≤ 2 ^ (k + passes)) :
    ∃ j, k ≤ j ∧ dictNextPowerLoop size passes (2 ^ k) = 2 ^ j ∧ size ≤ 2 ^ j ∧
      ∀ j', k ≤ j' → size ≤ 2 ^ j' → j ≤ j' := by
  induction passes generalizing k with
  | zero => exact ⟨k, Nat.le_refl k, rfl, enough, fun j' above _ => above⟩
  | succ passes ih =>
    rw [dictNextPowerLoop]
    split_ifs with here
    · exact ⟨k, Nat.le_refl k, rfl, here, fun j' above _ => above⟩
    · -- The next pass starts from the double, which is the next power.
      rw [← Nat.pow_succ]
      obtain ⟨j, above, is, covers, least⟩ := ih (k := k + 1) (by rwa [Nat.succ_add_eq_add_succ])
      refine ⟨j, by omega, is, covers, ?_⟩
      intro j' above' covers'
      -- The power that was passed by is too small.
      have other : j' ≠ k := by
        rintro rfl
        exact here covers'
      exact least j' (by omega) covers'

/-- `_dictNextPower` gives the least power of two from 4 on that is as large as asked for. -/
theorem dictNextPower_spec {size : Nat} (small : size < longMax) :
    ∃ j, 2 ≤ j ∧ dictNextPower size = 2 ^ j ∧ size ≤ 2 ^ j ∧
      ∀ j', 2 ≤ j' → size ≤ 2 ^ j' → j ≤ j' := by
  rw [dictNextPower, if_neg (Nat.not_le.mpr small)]
  apply dictNextPowerLoop_spec (k := 2)
  unfold longMax at small
  omega

end Sizes

namespace Dictht

variable {type : DictType κ} {ht : Dictht κ ν}

/-- The slot of a hash in a table is the rest of its division by the size. -/
theorem Laid.slot_eq (laid : ht.Laid type) (h : UInt32) : ht.slot h = h.toNat % ht.size := by
  obtain ⟨k, -, -, size⟩ := laid.size
  rw [slot, laid.mask, size, Nat.and_two_pow_sub_one_eq_mod]

/-- Every hash has a slot in the table. -/
theorem Laid.chain_of_slot (laid : ht.Laid type) (h : UInt32) :
    ∃ chain, ht.table[ht.slot h]? = some chain := by
  obtain ⟨k, -, -, size⟩ := laid.size
  have inside : ht.slot h < ht.table.length := by
    rw [laid.slot_eq, laid.length, size]
    exact Nat.mod_lt _ (Nat.two_pow_pos k)
  exact ⟨_, List.getElem?_eq_getElem inside⟩

/-- The slots are numbered by values of an `int`. -/
theorem Laid.slot_le_intMax (laid : ht.Laid type) (h : UInt32) : (ht.slot h : Int) ≤ intMax := by
  obtain ⟨k, -, most, size⟩ := laid.size
  have inside : ht.slot h < 2 ^ 31 := by
    rw [laid.slot_eq, size]
    exact Nat.lt_of_lt_of_le (Nat.mod_lt _ (Nat.two_pow_pos k)) (Nat.pow_le_pow_right (by decide) most)
  unfold intMax
  omega

theorem Laid.size_pos (laid : ht.Laid type) : 0 < ht.size := by
  obtain ⟨k, -, -, size⟩ := laid.size
  rw [size]
  exact Nat.two_pow_pos k

/-- A table that exists has slots. -/
theorem Laid.isEmpty_eq_false (laid : ht.Laid type) : ht.table.isEmpty = false := by
  have positive := laid.size_pos
  rw [← laid.length] at positive
  rw [List.isEmpty_eq_false_iff]
  exact List.ne_nil_of_length_pos positive

/-- A new table is one. -/
theorem laid_newTable {size : Nat} (small : size ≤ 2 ^ 31) :
    (newTable (dictNextPower size) : Dictht κ ν).Laid type := by
  have below : size < longMax := by unfold longMax; omega
  obtain ⟨j, least, is, -, bound⟩ := dictNextPower_spec below
  exact {
    size := ⟨j, least, bound 31 (by decide) small, is⟩
    mask := rfl
    length := List.length_replicate
    placed := Chained.placed_replicate _
    used := by simp [newTable] }

/-- A chain may be replaced by entries of its slot, when the count goes along. -/
theorem Laid.set (laid : ht.Laid type) {i used : Nat} {chain other : List (DictEntry κ ν)}
    (found : ht.table[i]? = some chain)
    (all : ∀ he ∈ other, ht.slot (type.hashFunction he.key) = i)
    (count : used + chain.length = ht.used + other.length) :
    Laid type { ht with table := ht.table.set i other, used := used } where
  size := laid.size
  mask := laid.mask
  length := List.length_set.trans laid.length
  placed := laid.placed.set all
  used := by
    have old := (Chained.flatten_perm found).length_eq
    have new := (Chained.flatten_set_perm found other).length_eq
    have before := laid.used
    rw [List.length_append] at old new
    show used = (ht.table.set i other).flatten.length
    omega

end Dictht

/-- A dictionary with two tables is in the middle of a rehashing. -/
theorem Dict.Rehashing.isRehashing {d : Dict κ ν} (both : d.Rehashing) : dictIsRehashing d = true := by
  have started := both.started
  simp only [dictIsRehashing, bne_iff_ne, ne_eq]
  omega

/-- The shape of a dictionary that is not in the middle of a rehashing. -/
theorem Dict.Shape.not_rehashing {d : Dict κ ν} (shape : d.Shape) (idle : dictIsRehashing d = false) :
    d.ht1 = dictReset ∧ d.rehashidx = -1 ∧ (d.ht0 = dictReset ∨ d.ht0.Laid d.type) := by
  cases shape with
  | unused first second idle => exact ⟨second, idle, .inl first⟩
  | settled first second idle => exact ⟨second, idle, .inr first⟩
  | rehashing both =>
    rw [both.isRehashing] at idle
    cases idle

/-- A dictionary that is in the middle of a rehashing has two tables. -/
theorem Dict.Shape.rehashing_of {d : Dict κ ν} (shape : d.Shape) (going : dictIsRehashing d = true) :
    d.Rehashing := by
  cases shape with
  | unused first second idle => simp [dictIsRehashing, idle] at going
  | settled first second idle => simp [dictIsRehashing, idle] at going
  | rehashing both => exact both

/-- Entries that are the same ones have the same distinct keys. -/
theorem Dict.Sound.of_same {d d' : Dict κ ν} (sound : d.Sound) (same : d.SameEntries d')
    (shape : d'.Shape) : d'.Sound where
  lawful := by
    rw [same.type]
    exact sound.lawful
  shape := shape
  distinct := by
    rw [same.type]
    have symmetric := sound.lawful.apart_symm (ν := ν)
    exact (same.entries.pairwise_iff fun {a b} => symmetric.symm a b).mpr sound.distinct

/-- The count of the entries is their number. -/
theorem Dict.Sound.dictSize_eq {d : Dict κ ν} (sound : d.Sound) : dictSize d = d.entries.length := by
  rw [dictSize, Dict.entries, List.length_append]
  cases sound.shape with
  | unused first second => simp [first, second, dictReset]
  | settled first second => simp [first.used, second, dictReset]
  | rehashing both => rw [both.first.used, both.second.used]

end Cevent.Hash
