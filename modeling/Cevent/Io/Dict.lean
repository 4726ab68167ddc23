import Mathlib.Algebra.Group.Int.Defs
import Mathlib.Data.List.Basic

/-! The dictionary of `dict.c` as its callers rely on it: a map up to what its type calls equal keys. -/

namespace Cevent

universe u v

/-- The two functions of a `dictType` that decide which keys are the same. -/
structure DictType (κ : Type u) where
  hashFunction : κ → UInt32
  keyCompare : κ → κ → Bool

/-- Two keys that land in one slot and compare as equal. -/
def DictType.sameKey {κ : Type u} (type : DictType κ) (key other : κ) : Bool :=
  type.hashFunction key == type.hashFunction other && type.keyCompare key other

/-- `dictEntry`. -/
structure DictEntry (κ : Type u) (ν : Type v) where
  key : κ
  val : ν
  deriving DecidableEq, Repr

/-- `dict`, as the entries it holds. -/
structure Dict (κ : Type u) (ν : Type v) where
  type : DictType κ
  entries : List (DictEntry κ ν)

variable {κ : Type u} {ν : Type v}

/-- `dictCreate`. -/
def dictCreate (type : DictType κ) : Dict κ ν where
  type := type
  entries := []

/-- The entry is the one that a key stands for. -/
def Dict.matchesKey (d : Dict κ ν) (key : κ) (he : DictEntry κ ν) : Bool :=
  d.type.sameKey key he.key

/-- `dictFind`, where nothing stands for `NULL`. -/
def dictFind (d : Dict κ ν) (key : κ) : Option (DictEntry κ ν) :=
  d.entries.find? (d.matchesKey key)

/-- `dictAdd`, with whether it returns `DICT_OK`. -/
def dictAdd (d : Dict κ ν) (key : κ) (val : ν) : Dict κ ν × Bool :=
  match dictFind d key with
  | some _ => (d, false)
  -- The order of the entries is not what the callers rely on.
  | none => ({ d with entries := d.entries ++ [{ key, val }] }, true)

/-- `dictDelete`, with whether it returns `DICT_OK`. -/
def dictDelete (d : Dict κ ν) (key : κ) : Dict κ ν × Bool :=
  match dictFind d key with
  | none => (d, false)
  | some _ => ({ d with entries := d.entries.eraseP (d.matchesKey key) }, true)

/-- The memory of an `int` in the order of its bytes, on a little-endian machine. -/
def intBytes (key : Int) : List UInt8 :=
  [key, key / 256, key / 256 ^ 2, key / 256 ^ 3].map fun digits => UInt8.ofNat (digits % 256).toNat

/-- The C string that starts where an `int` is stored, when the `int` holds a zero byte. -/
def stringAt (key : Int) : List UInt8 := (intBytes key).takeWhile (· ≠ 0)

/-- Four bytes read as a `uint32_t`. -/
def uint32At (first second third fourth : UInt8) : UInt32 :=
  first.toUInt32 ||| second.toUInt32 <<< 8 ||| third.toUInt32 <<< 16 ||| fourth.toUInt32 <<< 24

/-- The part of `dictGenHashFunction` that goes through its input. -/
def dictGenHashMix (h : UInt32) : List UInt8 → UInt32
  | first :: second :: third :: fourth :: rest =>
    let k := uint32At first second third fourth * 0x5bd1e995
    let k := (k ^^^ k >>> 24) * 0x5bd1e995
    dictGenHashMix (h * 0x5bd1e995 ^^^ k) rest
  | [first, second, third] =>
    (h ^^^ third.toUInt32 <<< 16 ^^^ second.toUInt32 <<< 8 ^^^ first.toUInt32) * 0x5bd1e995
  | [first, second] => (h ^^^ second.toUInt32 <<< 8 ^^^ first.toUInt32) * 0x5bd1e995
  | [first] => (h ^^^ first.toUInt32) * 0x5bd1e995
  | [] => h

/-- `dictGenHashFunction`. -/
def dictGenHashFunction (key : List UInt8) : UInt32 :=
  -- The seed is the one that `dict.c` starts with.
  let h := dictGenHashMix (5381 ^^^ UInt32.ofNat key.length) key
  let h := (h ^^^ h >>> 13) * 0x5bd1e995
  h ^^^ h >>> 15

/-- `dictTypeHeapStrings`, for keys that are addresses of an `int`. -/
def dictTypeHeapStrings : DictType Int where
  hashFunction key := dictGenHashFunction (stringAt key)
  keyCompare key other := stringAt key == stringAt other

/-- A type whose equal keys are the equal integers. -/
def dictTypeInt : DictType Int where
  hashFunction key := UInt32.ofNat (key % 2 ^ 32).toNat
  -- This is what a caller with integer keys would pass, and the repository does not.
  keyCompare key other := key == other

/-- Addresses of integers are the same C string when the bytes before the first zero agree. -/
theorem dictTypeHeapStrings_sameKey (key other : Int) :
    dictTypeHeapStrings.sameKey key other = true ↔ stringAt key = stringAt other := by
  simp only [DictType.sameKey, dictTypeHeapStrings, Bool.and_eq_true, beq_iff_eq]
  constructor
  · intro same
    exact same.2
  · -- Equal strings are equal in the hash as well.
    intro same
    rw [same]
    exact ⟨rfl, rfl⟩

/-- An address of an integer is the same key as itself. -/
theorem dictTypeHeapStrings_refl (key : Int) : dictTypeHeapStrings.sameKey key key = true :=
  (dictTypeHeapStrings_sameKey key key).mpr rfl

/-- What is found is one of the entries, under a key that is the same. -/
theorem dictFind_some {d : Dict κ ν} {key : κ} {entry : DictEntry κ ν}
    (found : dictFind d key = some entry) :
    entry ∈ d.entries ∧ d.matchesKey key entry = true :=
  ⟨List.mem_of_find?_eq_some found, List.find?_some found⟩

/-- Something is found when some entry has a key that is the same. -/
theorem dictFind_isSome_iff (d : Dict κ ν) (key : κ) :
    (dictFind d key).isSome ↔ ∃ entry ∈ d.entries, d.matchesKey key entry = true := by
  rw [dictFind, List.find?_isSome]

/-- Deleting takes away the entry that would have been found, and no other. -/
theorem dictDelete_found {d : Dict κ ν} {key : κ} {entry : DictEntry κ ν}
    (found : dictFind d key = some entry) :
    ∃ before after, d.entries = before ++ entry :: after ∧
      dictDelete d key = ({ d with entries := before ++ after }, true) := by
  -- The search and the deletion stop at the same entry.
  obtain ⟨same, before, after, split, none_⟩ := List.find?_eq_some_iff_append.mp found
  refine ⟨before, after, split, ?_⟩
  -- The entries before it have other keys, so the deletion goes past them.
  have passed : ∀ he ∈ before, ¬ d.matchesKey key he = true := by
    intro he inside
    simpa using none_ he inside
  rw [dictDelete, found]
  simp only [split]
  rw [List.eraseP_append_right _ passed, List.eraseP_cons_of_pos same]

end Cevent
