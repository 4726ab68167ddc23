import Cevent.Io.Dict
import Cevent.Library.Chains
import Cevent.MachineInt

/-! The hash table of `dict.c`: two tables of chains, and the steps that move the entries to the new one. -/

namespace Cevent.Hash

universe u v

/-- `DICT_HT_INITIAL_SIZE`. -/
def dictHtInitialSize : Nat := 4

/-- `dict_force_resize_ratio`. -/
def dictForceResizeRatio : Nat := 5

/-- `LONG_MAX`. -/
def longMax : Nat := 2 ^ 63 - 1

/-- `dictht`. -/
structure Dictht (κ : Type u) (ν : Type v) where
  /-- The chains of the slots; a table that is `NULL` has no slots. -/
  table : List (List (DictEntry κ ν))
  size : Nat
  sizemask : Nat
  used : Nat
  deriving DecidableEq, Repr

/-- `dict`. -/
structure Dict (κ : Type u) (ν : Type v) where
  type : DictType κ
  ht0 : Dictht κ ν
  ht1 : Dictht κ ν
  rehashidx : Int
  iterators : Int

variable {κ : Type u} {ν : Type v}

/-- The first or the second of the two tables. -/
def Dict.ht (d : Dict κ ν) : Bool → Dictht κ ν
  | false => d.ht0
  | true => d.ht1

/-- The dictionary with another table in the place of the first or the second one. -/
def Dict.setHt (d : Dict κ ν) : Bool → Dictht κ ν → Dict κ ν
  | false, ht => { d with ht0 := ht }
  | true, ht => { d with ht1 := ht }

/-- The dictionary with another chain in one slot of a table, and another count of its entries. -/
def Dict.putChain (d : Dict κ ν) (second : Bool) (i used : Nat) (chain : List (DictEntry κ ν)) :
    Dict κ ν :=
  let ht := d.ht second
  d.setHt second { ht with table := ht.table.set i chain, used := used }

/-- The slot that a hash has in a table. -/
def Dictht.slot (ht : Dictht κ ν) (h : UInt32) : Nat := h.toNat &&& ht.sizemask

/-- `_dictReset`. -/
def dictReset : Dictht κ ν where
  table := []
  size := 0
  sizemask := 0
  used := 0

/-- `dictCreate`, with what `_dictInit` sets. -/
def dictCreate (type : DictType κ) : Dict κ ν where
  type := type
  ht0 := dictReset
  ht1 := dictReset
  rehashidx := -1
  iterators := 0

/-- `dictIsRehashing`. -/
def dictIsRehashing (d : Dict κ ν) : Bool := d.rehashidx != -1

/-- `dictSize`. -/
def dictSize (d : Dict κ ν) : Nat := d.ht0.used + d.ht1.used

/-- `dictSlots`. -/
def dictSlots (d : Dict κ ν) : Nat := d.ht0.size + d.ht1.size

/-- The loop of `_dictNextPower`, for at most so many passes. -/
def dictNextPowerLoop (size : Nat) : Nat → Nat → Nat
  | 0, i => i
  | passes + 1, i => if size ≤ i then i else dictNextPowerLoop size passes (i * 2)

/-- `_dictNextPower`. -/
def dictNextPower (size : Nat) : Nat :=
  if longMax ≤ size then longMax
  -- The doubling comes to `2 ^ 63` after so many passes, which is above every other size.
  else dictNextPowerLoop size 61 dictHtInitialSize

/-- A new table of `dictExpand`. -/
def newTable (realsize : Nat) : Dictht κ ν where
  table := List.replicate realsize []
  size := realsize
  sizemask := realsize - 1
  used := 0

/-- `dictExpand`, with whether it returns `DICT_OK`. -/
def dictExpand (d : Dict κ ν) (size : Nat) : Dict κ ν × Bool :=
  let realsize := dictNextPower size
  if dictIsRehashing d ∨ size < d.ht0.used then (d, false)
  -- The first table of all is not rehashed into.
  else if d.ht0.table.isEmpty then ({ d with ht0 := newTable realsize }, true)
  else ({ d with ht1 := newTable realsize, rehashidx := 0 }, true)

/-- `dictResize`, with whether it returns `DICT_OK`. -/
def dictResize (dictCanResize : Bool) (d : Dict κ ν) : Dict κ ν × Bool :=
  if !dictCanResize ∨ dictIsRehashing d then (d, false)
  else
    let minimal := d.ht0.used
    let minimal := if minimal < dictHtInitialSize then dictHtInitialSize else minimal
    dictExpand d minimal

/-- `_dictExpandIfNeeded`, with whether it returns `DICT_OK`. -/
def dictExpandIfNeeded (dictCanResize : Bool) (d : Dict κ ν) : Dict κ ν × Bool :=
  if dictIsRehashing d then (d, true)
  else if d.ht0.size = 0 then dictExpand d dictHtInitialSize
  else if d.ht0.size ≤ d.ht0.used ∧
      (dictCanResize ∨ dictForceResizeRatio < d.ht0.used / d.ht0.size) then
    dictExpand d (d.ht0.used * 2 % 2 ^ 64)
  else (d, true)

/-- The first slot with entries among those from a position on; nothing when the table ends before. -/
def skipEmpty : List (List (DictEntry κ ν)) → Nat → Option (Nat × List (DictEntry κ ν))
  | [], _ => none
  | [] :: rest, rehashidx => skipEmpty rest (rehashidx + 1)
  | (de :: nextde) :: _, rehashidx => some (rehashidx, de :: nextde)

/-- An entry goes from the old table to the front of its chain in the new one. -/
def moveEntry (d : Dict κ ν) (de : DictEntry κ ν) : Option (Dict κ ν) :=
  let h := d.ht1.slot (d.type.hashFunction de.key)
  d.ht1.table[h]?.map fun chain =>
    { d with
      ht0 := { d.ht0 with used := d.ht0.used - 1 }
      ht1 := { d.ht1 with table := d.ht1.table.set h (de :: chain), used := d.ht1.used + 1 } }

/-- The old table without the chain of a slot that was moved, and the next slot to come to. -/
def Dict.passSlot (d : Dict κ ν) (idx : Nat) : Dict κ ν :=
  { d with ht0 := { d.ht0 with table := d.ht0.table.set idx [] }, rehashidx := idx + 1 }

/-- One pass of `dictRehash` through an old table that has entries left. -/
def moveBucket (d : Dict κ ν) : Option (Dict κ ν) :=
  match skipEmpty (d.ht0.table.drop d.rehashidx.toNat) d.rehashidx.toNat with
  | none => none
  | some (idx, chain) => (chain.foldlM moveEntry d).map fun moved => moved.passSlot idx

/-- The loop of `dictRehash`; nothing stands for a failed assertion or a read behind the table. -/
def dictRehashLoop : Nat → Dict κ ν → Option (Dict κ ν × Bool)
  | 0, d => some (d, true)
  | n + 1, d =>
    if d.ht0.used = 0 then
      some ({ d with ht0 := d.ht1, ht1 := dictReset, rehashidx := -1 }, false)
    else if d.ht0.size ≤ d.rehashidx.toNat then none
    else (moveBucket d).bind (dictRehashLoop n)

/-- `dictRehash`, with whether it returns 1. -/
def dictRehash (d : Dict κ ν) (n : Nat) : Option (Dict κ ν × Bool) :=
  if dictIsRehashing d then dictRehashLoop n d else some (d, false)

/-- `_dictRehashStep`. -/
def dictRehashStep (d : Dict κ ν) : Option (Dict κ ν) :=
  if d.iterators = 0 then (dictRehash d 1).map (·.1) else some d

/-- The step that every lookup and update begins with. -/
def stepIfRehashing (d : Dict κ ν) : Option (Dict κ ν) :=
  if dictIsRehashing d then dictRehashStep d else some d

/-- An entry as a walk finds it: its table and its slot, and the entries before and after it there. -/
structure Hit (κ : Type u) (ν : Type v) where
  second : Bool
  slot : Nat
  before : List (DictEntry κ ν)
  he : DictEntry κ ν
  after : List (DictEntry κ ν)

/-- The walk along the chain of a key in one of the tables; nothing stands for a slot that is not there. -/
def walkTable (d : Dict κ ν) (key : κ) (second : Bool) : Option (Option (Hit κ ν)) :=
  let idx := (d.ht second).slot (d.type.hashFunction key)
  (d.ht second).table[idx]?.map fun chain =>
    (Chained.walk (fun he => d.type.keyCompare key he.key) chain).map fun (before, he, after) =>
      { second := second, slot := idx, before := before, he := he, after := after }

/-- The walks that a lookup makes: the second table is searched in the middle of a rehashing only. -/
def walkTables (d : Dict κ ν) (key : κ) : Option (Option (Hit κ ν)) :=
  match walkTable d key false with
  | some none => if dictIsRehashing d then walkTable d key true else some none
  | found => found

/-- `dictFind`, which leads to the entry. -/
def dictFind (d : Dict κ ν) (key : κ) : Option (Dict κ ν × Option (Hit κ ν)) :=
  if d.ht0.size = 0 then some (d, none)
  else (stepIfRehashing d).bind fun d => (walkTables d key).map fun found => (d, found)

/-- `dictFetchValue`. -/
def dictFetchValue (d : Dict κ ν) (key : κ) : Option (Dict κ ν × Option ν) :=
  (dictFind d key).map fun (d, found) => (d, found.map fun hit => hit.he.val)

/-- `_dictKeyIndex`, which expands the table when it is full. -/
def dictKeyIndex (dictCanResize : Bool) (d : Dict κ ν) (key : κ) : Option (Dict κ ν × Int) :=
  match dictExpandIfNeeded dictCanResize d with
  | (d, false) => some (d, -1)
  | (d, true) => (walkTables d key).map fun found =>
    match found with
    | some _ => (d, -1)
    -- The `unsigned int` index of the last table is returned as an `int`.
    | none => (d, wrapInt ((d.ht (dictIsRehashing d)).slot (d.type.hashFunction key)))

/-- `dictAddRaw`, with the value that the caller stores in the entry, and whether there is a new entry. -/
def dictAddRaw (dictCanResize : Bool) (d : Dict κ ν) (key : κ) (val : ν) :
    Option (Dict κ ν × Bool) :=
  (stepIfRehashing d).bind fun d =>
    (dictKeyIndex dictCanResize d key).bind fun (d, index) =>
      if index = -1 then some (d, false)
      -- A negative index lies before the table.
      else if index < 0 then none
      else
        let second := dictIsRehashing d
        let ht := d.ht second
        ht.table[index.toNat]?.map fun chain =>
          (d.putChain second index.toNat (ht.used + 1) ({ key := key, val := val } :: chain), true)

/-- `dictAdd`, with whether it returns `DICT_OK`. -/
def dictAdd (dictCanResize : Bool) (d : Dict κ ν) (key : κ) (val : ν) : Option (Dict κ ν × Bool) :=
  dictAddRaw dictCanResize d key val

/-- `dictReplace`, with whether it returns 1. -/
def dictReplace (dictCanResize : Bool) (d : Dict κ ν) (key : κ) (val : ν) :
    Option (Dict κ ν × Bool) :=
  (dictAdd dictCanResize d key val).bind fun (d, added) =>
    if added then some (d, true)
    else (dictFind d key).bind fun (d, found) =>
      -- The entry that `dictFind` leads to is written through without a test for `NULL`.
      found.map fun hit =>
        let chain := hit.before ++ { hit.he with val := val } :: hit.after
        (d.putChain hit.second hit.slot (d.ht hit.second).used chain, false)

/-- `dictGenericDelete`, with whether it returns `DICT_OK`. -/
def dictGenericDelete (d : Dict κ ν) (key : κ) : Option (Dict κ ν × Bool) :=
  if d.ht0.size = 0 then some (d, false)
  else (stepIfRehashing d).bind fun d =>
    (walkTables d key).map fun found =>
      match found with
      | none => (d, false)
      | some hit =>
        let used := (d.ht hit.second).used
        (d.putChain hit.second hit.slot (used - 1) (hit.before ++ hit.after), true)

/-- `dictDelete`. -/
def dictDelete (d : Dict κ ν) (key : κ) : Option (Dict κ ν × Bool) := dictGenericDelete d key

/-- The loop of `_dictClear`: the entries it frees, in order, while the table has any. -/
def dictClearLoop : List (List (DictEntry κ ν)) → Nat → List (DictEntry κ ν)
  | [], _ => []
  | chain :: rest, used =>
    if used = 0 then [] else chain ++ dictClearLoop rest (used - chain.length)

/-- `_dictClear`, with the entries that it frees. -/
def dictClear (ht : Dictht κ ν) : Dictht κ ν × List (DictEntry κ ν) :=
  (dictReset, dictClearLoop ht.table ht.used)

/-- `dictEmpty`, with the entries that it frees. -/
def dictEmpty (d : Dict κ ν) : Dict κ ν × List (DictEntry κ ν) :=
  ({ d with ht0 := (dictClear d.ht0).1, ht1 := (dictClear d.ht1).1, rehashidx := -1, iterators := 0 },
    (dictClear d.ht0).2 ++ (dictClear d.ht1).2)

end Cevent.Hash
