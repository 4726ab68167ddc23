import Cevent.Hash.Load
import Cevent.Library.ReverseCursor

/-! `dictScan`: a cursor that counts its highest bits first, and what each call of it reports. -/

namespace Cevent.Hash

open ReverseCursor

universe u v

/-- The loop of `rev`, for at most so many passes. -/
def revLoop : Nat → Nat → BitVec 64 → BitVec 64 → BitVec 64
  | 0, _, _, v => v
  | passes + 1, s, mask, v =>
    let s := s >>> 1
    if s = 0 then v
    else
      let mask := mask ^^^ (mask <<< s)
      revLoop passes s mask ((v >>> s &&& mask) ||| (v <<< s &&& ~~~mask))

/-- `rev`. -/
def rev (v : BitVec 64) : BitVec 64 := revLoop 7 64 (BitVec.allOnes 64) v

variable {κ : Type u} {ν : Type v}

/-- The loop of `dictScan` over the larger table, for at most so many passes. -/
def scanLoop (t1 : Dictht κ ν) (m0 m1 : BitVec 64) :
    Nat → BitVec 64 → Option (BitVec 64 × List (DictEntry κ ν))
  | 0, _ => none
  | passes + 1, v =>
    t1.table[(v &&& m1).toNat]?.bind fun de =>
      let v := (((v ||| m0) + 1) &&& ~~~m0) ||| (v &&& m0)
      if v &&& (m0 ^^^ m1) = 0 then some (v, de)
      else (scanLoop t1 m0 m1 passes v).map fun (v, rest) => (v, de ++ rest)

/-- The next cursor of `dictScan`. -/
def scanCursor (m0 v : BitVec 64) : BitVec 64 := rev (rev (v ||| ~~~m0) + 1)

/-- The part of `dictScan` for two tables, of which the first is not the larger one. -/
def scanTables (t0 t1 : Dictht κ ν) (v : BitVec 64) : Option (BitVec 64 × List (DictEntry κ ν)) :=
  let m0 := BitVec.ofNat 64 t0.sizemask
  let m1 := BitVec.ofNat 64 t1.sizemask
  t0.table[(v &&& m0).toNat]?.bind fun de =>
    -- There are no more passes than the larger table has slots.
    (scanLoop t1 m0 m1 t1.size v).map fun (v, rest) => (scanCursor m0 v, de ++ rest)

/-- `dictScan`, with the entries that it calls `fn` with, in order. -/
def dictScan (d : Dict κ ν) (v : BitVec 64) : Option (BitVec 64 × List (DictEntry κ ν)) :=
  if dictSize d = 0 then some (0, [])
  else if !dictIsRehashing d then
    let m0 := BitVec.ofNat 64 d.ht0.sizemask
    d.ht0.table[(v &&& m0).toNat]?.map fun de => (scanCursor m0 v, de)
  else if d.ht1.size < d.ht0.size then scanTables d.ht1 d.ht0 v
  else scanTables d.ht0 d.ht1 v

section Reversing

/-- One pass of `rev`, which exchanges neighbouring groups of bits. -/
def swapBits (s : Nat) (mask v : BitVec 64) : BitVec 64 :=
  (v >>> s &&& mask) ||| (v <<< s &&& ~~~mask)

/-- A mask picks the lower one of each two groups of `s` bits. -/
def PicksLower (s : Nat) (mask : BitVec 64) : Prop :=
  ∀ i < 64, if mask.getLsbD i then s + i = i ^^^ s ∧ i ^^^ s < 64 else s ≤ i ∧ i - s = i ^^^ s

instance (s : Nat) (mask : BitVec 64) : Decidable (PicksLower s mask) := by
  unfold PicksLower
  infer_instance

/-- Every bit goes to the other group. -/
theorem getLsbD_swapBits {s : Nat} {mask : BitVec 64} (picks : PicksLower s mask) (v : BitVec 64)
    {i : Nat} (inside : i < 64) : (swapBits s mask v).getLsbD i = v.getLsbD (i ^^^ s) := by
  have other := picks i inside
  rw [swapBits, BitVec.getLsbD_or, BitVec.getLsbD_and, BitVec.getLsbD_and, BitVec.getLsbD_not,
    BitVec.getLsbD_ushiftRight, BitVec.getLsbD_shiftLeft]
  cases lower : mask.getLsbD i with
  | true =>
    rw [if_pos lower] at other
    simp [other.1]
  | false =>
    rw [if_neg (by simp [lower])] at other
    simp [inside, other.2, Nat.not_lt.mpr other.1]

/-- `rev` turns the order of the bits round. -/
theorem rev_eq_reverse (v : BitVec 64) : rev v = v.reverse := by
  have passes : rev v = swapBits 1 0x5555555555555555 (swapBits 2 0x3333333333333333
      (swapBits 4 0x0f0f0f0f0f0f0f0f (swapBits 8 0x00ff00ff00ff00ff
      (swapBits 16 0x0000ffff0000ffff (swapBits 32 0x00000000ffffffff v))))) := rfl
  apply BitVec.eq_of_getLsbD_eq
  intro i inside
  -- Each pass turns round one bit of the number of a bit.
  have xor : ∀ {a : Nat}, a < 64 → ∀ s < 64, a ^^^ s < 64 :=
    fun below s small => Nat.xor_lt_two_pow (n := 6) below small
  have one := xor inside 1 (by decide)
  have two := xor one 2 (by decide)
  have four := xor two 4 (by decide)
  have eight := xor four 8 (by decide)
  have sixteen := xor eight 16 (by decide)
  rw [passes, getLsbD_swapBits (by decide) _ inside, getLsbD_swapBits (by decide) _ one,
    getLsbD_swapBits (by decide) _ two, getLsbD_swapBits (by decide) _ four,
    getLsbD_swapBits (by decide) _ eight, getLsbD_swapBits (by decide) _ sixteen,
    BitVec.getLsbD_reverse, BitVec.getMsbD_eq_getLsbD]
  have all : ∀ i < 64, i ^^^ 1 ^^^ 2 ^^^ 4 ^^^ 8 ^^^ 16 ^^^ 32 = 64 - 1 - i := by decide
  rw [all i inside]
  simp [inside]

end Reversing

/-- The number of slots of the smaller table. -/
def Dict.smallSize (d : Dict κ ν) : Nat :=
  if dictIsRehashing d then min d.ht0.size d.ht1.size else d.ht0.size

/-- The hash of the key of an entry. -/
def hashOf (type : DictType κ) (he : DictEntry κ ν) : Nat := (type.hashFunction he.key).toNat

/-- The entries of a class of hashes, as far as they do not come before a cursor in their table. -/
def reportedOf (type : DictType κ) (small large : Nat) (v : BitVec 64) (he : DictEntry κ ν) : Bool :=
  decide (hashOf type he % small = v.toNat % small ∧ v.toNat % large ≤ hashOf type he % large)

variable {type : DictType κ} {t0 t1 : Dictht κ ν} {k j : Nat}

/-- The mask of a table is made of the lowest bits. -/
theorem Dictht.Laid.mask_eq (laid : t0.Laid type) (size : t0.size = 2 ^ k) :
    BitVec.ofNat 64 t0.sizemask = lowMask 64 k := by
  rw [laid.mask, size, lowMask]

/-- The exponent of the size of a table is small. -/
theorem Dictht.Laid.exponent (laid : t0.Laid type) : ∃ k ≤ 31, t0.size = 2 ^ k := by
  obtain ⟨k, -, most, size⟩ := laid.size
  exact ⟨k, most, size⟩

/-- The chain that a number leads to has just the entries whose hashes leave the same rest. -/
theorem Dictht.Laid.chain_at (laid : t0.Laid type) (n : Nat) :
    ∃ chain, t0.table[n % t0.size]? = some chain ∧
      t0.table.flatten.filter (fun he => decide (hashOf type he % t0.size = n % t0.size)) = chain := by
  have inside : n % t0.size < t0.table.length := by
    rw [laid.length]
    exact Nat.mod_lt _ laid.size_pos
  refine ⟨_, List.getElem?_eq_getElem inside, ?_⟩
  have filtered := laid.placed.filter_flatten (List.getElem?_eq_getElem inside)
  simp only [laid.slot_eq] at filtered
  exact filtered

/-- Entries of one class that do not come before a slot are in it, or do not come before the next one. -/
theorem reported_split (le : k ≤ j) {x y : Nat} (same : x % 2 ^ k = y % 2 ^ k) :
    y % 2 ^ j ≤ x % 2 ^ j ↔ x % 2 ^ j = y % 2 ^ j ∨ y % 2 ^ j + 2 ^ k ≤ x % 2 ^ j := by
  constructor
  · intro least
    rcases Nat.eq_or_lt_of_le least with equal | less
    · exact .inl equal.symm
    · -- The two rests leave the same rest once more, so they are a multiple apart.
      have divides : 2 ^ k ∣ 2 ^ j := Nat.pow_dvd_pow 2 le
      have rest : (x % 2 ^ j) % 2 ^ k = (y % 2 ^ j) % 2 ^ k := by
        rw [Nat.mod_mod_of_dvd _ divides, Nat.mod_mod_of_dvd _ divides, same]
      generalize x % 2 ^ j = a at *
      generalize y % 2 ^ j = b at *
      have wholeA := Nat.div_add_mod a (2 ^ k)
      have wholeB := Nat.div_add_mod b (2 ^ k)
      have step : 2 ^ k * (b / 2 ^ k + 1) ≤ 2 ^ k * (a / 2 ^ k) := by
        apply Nat.mul_le_mul_left
        by_contra notLess
        have few : 2 ^ k * (a / 2 ^ k) ≤ 2 ^ k * (b / 2 ^ k) := Nat.mul_le_mul_left _ (by omega)
        omega
      rw [Nat.mul_succ] at step
      exact .inr (by omega)
  · rintro (equal | later)
    · omega
    · omega

/-- The entries of the class that come behind the slot of a cursor. -/
def behindOf (type : DictType κ) (small large : Nat) (v : BitVec 64) (he : DictEntry κ ν) : Bool :=
  decide (hashOf type he % small = v.toNat % small ∧
    v.toNat % large + small ≤ hashOf type he % large)

/-- What is to be reported is the chain of the cursor, and what comes behind it. -/
theorem filter_reportedOf (laid : t1.Laid type) (size : t1.size = 2 ^ j) (le : k ≤ j)
    (v : BitVec 64) :
    ∃ chain, t1.table[v.toNat % 2 ^ j]? = some chain ∧
      (t1.table.flatten.filter (reportedOf type (2 ^ k) (2 ^ j) v)).Perm
        (chain ++ t1.table.flatten.filter (behindOf type (2 ^ k) (2 ^ j) v)) := by
  obtain ⟨chain, found, filtered⟩ := laid.chain_at v.toNat
  rw [size] at found filtered
  refine ⟨chain, found, ?_⟩
  rw [← filtered]
  apply Chained.filter_perm_append
  · intro he _
    simp only [reportedOf, behindOf, ← Bool.decide_or, decide_eq_decide]
    constructor
    · rintro ⟨class_, least⟩
      rcases (reported_split le class_).mp least with here | later
      · exact .inl here
      · exact .inr ⟨class_, later⟩
    · rintro (here | ⟨class_, later⟩)
      · -- Hashes in one slot are of one class.
        have divides : 2 ^ k ∣ 2 ^ j := Nat.pow_dvd_pow 2 le
        have class_ := congrArg (· % 2 ^ k) here
        simp only [Nat.mod_mod_of_dvd _ divides] at class_
        exact ⟨class_, by omega⟩
      · exact ⟨class_, by omega⟩
  · intro he _ here
    simp only [decide_eq_true_eq] at here
    simp only [behindOf, decide_eq_false_iff_not, not_and]
    intro _
    have positive := Nat.two_pow_pos k
    omega

/-- How the cursor goes on by one slot of the smaller table. -/
structure Steps (k j : Nat) (v v' : BitVec 64) : Prop where
  low : v'.toNat % 2 ^ k = v.toNat % 2 ^ k
  within : v.toNat % 2 ^ j + 2 ^ k < 2 ^ j → v'.toNat % 2 ^ j = v.toNat % 2 ^ j + 2 ^ k
  last : v' &&& (lowMask 64 k ^^^ lowMask 64 j) = 0 ↔ 2 ^ j ≤ v.toNat % 2 ^ j + 2 ^ k

/-- The cursor of the loop goes on so. -/
theorem steps_cursor (le : k ≤ j) (most : j ≤ 64) (v : BitVec 64) :
    Steps k j v ((((v ||| lowMask 64 k) + 1) &&& ~~~lowMask 64 k) ||| (v &&& lowMask 64 k)) := by
  obtain ⟨v', is⟩ : ∃ v', (((v ||| lowMask 64 k) + 1) &&& ~~~lowMask 64 k) ||| (v &&& lowMask 64 k)
      = v' := ⟨_, rfl⟩
  have sum : v'.toNat = (v.toNat + 2 ^ k) % 2 ^ 64 := by
    rw [← is, toNat_succ_above (by omega)]
  have low : v'.toNat % 2 ^ k = v.toNat % 2 ^ k := by
    rw [sum, Nat.mod_mod_of_dvd _ (Nat.pow_dvd_pow 2 (by omega : k ≤ 64)), Nat.add_mod_right]
  have high : v'.toNat % 2 ^ j = (v.toNat % 2 ^ j + 2 ^ k) % 2 ^ j := by
    rw [sum, Nat.mod_mod_of_dvd _ (Nat.pow_dvd_pow 2 most), Nat.mod_add_mod]
  have below := Nat.mod_lt v.toNat (Nat.two_pow_pos j)
  have lowBelow := Nat.mod_lt v.toNat (Nat.two_pow_pos k)
  have within : v.toNat % 2 ^ j + 2 ^ k < 2 ^ j → v'.toNat % 2 ^ j = v.toNat % 2 ^ j + 2 ^ k := by
    intro less
    rw [high, Nat.mod_eq_of_lt less]
  rw [is]
  refine ⟨low, within, ?_⟩
  rw [and_between_eq_zero_iff (show k ≤ 64 by omega) most v']
  constructor
  · intro round
    by_contra notPast
    rw [within (by omega), low] at round
    omega
  · -- A cursor that went round has a rest below the smaller size.
    intro past
    have stride : 2 ^ k ≤ 2 ^ j := Nat.pow_le_pow_right (by decide) le
    have once : v.toNat % 2 ^ j + 2 ^ k - 2 ^ j < 2 ^ k := by omega
    have rest : v'.toNat % 2 ^ j = v.toNat % 2 ^ j + 2 ^ k - 2 ^ j := by
      rw [high, Nat.mod_eq_sub_mod (by omega), Nat.mod_eq_of_lt (by omega)]
    have divides : 2 ^ k ∣ 2 ^ j := Nat.pow_dvd_pow 2 le
    rw [← Nat.mod_mod_of_dvd v'.toNat divides, rest, Nat.mod_eq_of_lt once]

/-- The loop reports the entries of the class that do not come before the cursor, and keeps its low bits. -/
theorem scanLoop_spec (laid : t1.Laid type) (size : t1.size = 2 ^ j) (le : k ≤ j) (most : j ≤ 31)
    {passes : Nat} {v : BitVec 64} (enough : 2 ^ j ≤ v.toNat % 2 ^ j + passes * 2 ^ k) :
    ∃ v' es, scanLoop t1 (lowMask 64 k) (lowMask 64 j) passes v = some (v', es) ∧
      v'.toNat % 2 ^ k = v.toNat % 2 ^ k ∧
      es.Perm (t1.table.flatten.filter (reportedOf type (2 ^ k) (2 ^ j) v)) := by
  induction passes generalizing v with
  | zero =>
    have below := Nat.mod_lt v.toNat (Nat.two_pow_pos j)
    omega
  | succ passes ih =>
    obtain ⟨chain, found, split⟩ := filter_reportedOf laid size le v
    have read : t1.table[(v &&& lowMask 64 j).toNat]? = some chain := by
      rw [toNat_and_lowMask v (by omega), found]
    have steps := steps_cursor le (show j ≤ 64 by omega) v
    simp only [scanLoop, read, Option.bind_some]
    generalize (((v ||| lowMask 64 k) + 1) &&& ~~~lowMask 64 k) ||| (v &&& lowMask 64 k) = v' at *
    split_ifs with round
    · -- The cursor went round, so there are no slots behind this one.
      have past := steps.last.mp round
      refine ⟨v', chain, rfl, steps.low, ?_⟩
      have none_ : t1.table.flatten.filter (behindOf type (2 ^ k) (2 ^ j) v) = [] := by
        rw [List.filter_eq_nil_iff]
        intro he _
        have := Nat.mod_lt (hashOf type he) (Nat.two_pow_pos j)
        simp only [behindOf, decide_eq_true_eq]
        omega
      rw [none_, List.append_nil] at split
      exact split.symm
    · have within := mt steps.last.mpr round
      have next_ := steps.within (by omega)
      rw [Nat.succ_mul] at enough
      obtain ⟨v'', es, ran, low, perm⟩ := ih (v := v') (by omega)
      refine ⟨v'', chain ++ es, by rw [ran]; rfl, low.trans steps.low, ?_⟩
      -- From the next slot on, the loop reports what comes behind this one.
      have same : reportedOf type (2 ^ k) (2 ^ j) v' =
          (behindOf type (2 ^ k) (2 ^ j) v : DictEntry κ ν → Bool) := by
        funext he
        rw [reportedOf, behindOf, steps.low, next_]
      rw [same] at perm
      exact (perm.append_left chain).trans split.symm

/-- The next cursor is the one that counts the highest bits of the smaller table first. -/
theorem scanCursor_eq (k : Nat) (v : BitVec 64) : scanCursor (lowMask 64 k) v = next k v := by
  rw [scanCursor, rev_eq_reverse, rev_eq_reverse, next]

/-- The entries of a class of hashes. -/
def classedOf (type : DictType κ) (small : Nat) (v : BitVec 64) (he : DictEntry κ ν) : Bool :=
  decide (hashOf type he % small = v.toNat % small)

/-- Two tables are reported together: the class of the cursor, but for what comes before it in the larger one. -/
theorem scanTables_spec (first : t0.Laid type) (second : t1.Laid type) (le : t0.size ≤ t1.size)
    (v : BitVec 64) (size : t0.size = 2 ^ k) :
    ∃ es, scanTables t0 t1 v = some (next k v, es) ∧
      es.Perm (t0.table.flatten.filter (classedOf type t0.size v) ++
        t1.table.flatten.filter (reportedOf type t0.size t1.size v)) := by
  obtain ⟨j, most, size1⟩ := second.exponent
  have exponents : k ≤ j := by
    rw [size, size1] at le
    exact (Nat.pow_le_pow_iff_right (by decide)).mp le
  obtain ⟨chain, found, filtered⟩ := first.chain_at v.toNat
  have enough : 2 ^ j ≤ v.toNat % 2 ^ j + t1.size * 2 ^ k := by
    rw [size1]
    have := Nat.le_mul_of_pos_right (2 ^ j) (Nat.two_pow_pos k)
    omega
  obtain ⟨v', es, ran, low, perm⟩ := scanLoop_spec second size1 exponents most enough
  refine ⟨chain ++ es, ?_, ?_⟩
  · have read : t0.table[(v &&& lowMask 64 k).toNat]? = some chain := by
      rw [toNat_and_lowMask v (by omega), ← size, found]
    rw [scanTables, first.mask_eq size, second.mask_eq size1]
    simp only [read, Option.bind_some, ran, Option.map_some, scanCursor_eq]
    -- The loop has changed none of the bits that the next cursor depends on.
    rw [next_congr (by omega) low]
  · rw [← size, ← size1] at perm
    show (chain ++ es).Perm (t0.table.flatten.filter _ ++ _)
    rw [← filtered]
    exact perm.append_left _

/-- The smaller and the larger one of the two tables, or the only one twice. -/
def Dict.ordered (d : Dict κ ν) : Dictht κ ν × Dictht κ ν :=
  if !dictIsRehashing d then (d.ht0, d.ht0)
  else if d.ht1.size < d.ht0.size then (d.ht1, d.ht0)
  else (d.ht0, d.ht1)

/-- What a call of `dictScan` reports at a cursor. -/
def Dict.reportedAt (d : Dict κ ν) (v : BitVec 64) : List (DictEntry κ ν) :=
  let t0 := d.ordered.1
  let t1 := d.ordered.2
  t0.table.flatten.filter (classedOf d.type t0.size v) ++
    if dictIsRehashing d then t1.table.flatten.filter (reportedOf d.type t0.size t1.size v) else []

/-- A call of `dictScan` reports just that at any cursor, and counts the bits of the smaller table. -/
theorem dictScan_reportedAt {d : Dict κ ν} (sound : d.Sound) (some_ : dictSize d ≠ 0)
    (v : BitVec 64) :
    ∃ k es, k ≤ 31 ∧ d.ordered.1.size = 2 ^ k ∧ dictScan d v = some (next k v, es) ∧
      es.Perm (d.reportedAt v) := by
  rw [dictScan, if_neg some_]
  cases sound.shape with
  | unused first second => simp [dictSize, first, second, dictReset] at some_
  | settled first second idle =>
    have notGoing : dictIsRehashing d = false := by simp [dictIsRehashing, idle]
    have order : d.ordered = (d.ht0, d.ht0) := by rw [Dict.ordered, if_pos (by simp [notGoing])]
    obtain ⟨k, most, size⟩ := first.exponent
    obtain ⟨chain, found, filtered⟩ := first.chain_at v.toNat
    refine ⟨k, chain, most, by rw [order, size], ?_, ?_⟩
    · have read : d.ht0.table[(v &&& lowMask 64 k).toNat]? = some chain := by
        rw [toNat_and_lowMask v (by omega), ← size, found]
      rw [if_pos (by simp [notGoing]), first.mask_eq size]
      simp only [read, Option.map_some, scanCursor_eq]
    · simp only [Dict.reportedAt, order, notGoing, Bool.false_eq_true, if_false, List.append_nil]
      show chain.Perm (d.ht0.table.flatten.filter _)
      rw [← filtered]
      exact .refl _
  | rehashing both =>
    have going := both.isRehashing
    rw [if_neg (by simp [going])]
    split_ifs with shrinking
    · -- The second table is the smaller one.
      have order : d.ordered = (d.ht1, d.ht0) := by
        rw [Dict.ordered, if_neg (by simp [going]), if_pos shrinking]
      obtain ⟨k, most, size⟩ := both.second.exponent
      obtain ⟨es, ran, perm⟩ :=
        scanTables_spec both.second both.first (Nat.le_of_lt shrinking) v size
      refine ⟨k, es, most, by rw [order, size], ran, ?_⟩
      simp only [Dict.reportedAt, order, going, if_true]
      exact perm
    · have order : d.ordered = (d.ht0, d.ht1) := by
        rw [Dict.ordered, if_neg (by simp [going]), if_neg shrinking]
      obtain ⟨k, most, size⟩ := both.first.exponent
      obtain ⟨es, ran, perm⟩ := scanTables_spec both.first both.second (by omega) v size
      refine ⟨k, es, most, by rw [order, size], ran, ?_⟩
      simp only [Dict.reportedAt, order, going, if_true]
      exact perm

/-- The number of slots of the smaller table. -/
theorem Dict.smallSize_eq (d : Dict κ ν) : d.smallSize = d.ordered.1.size := by
  unfold Dict.smallSize Dict.ordered
  cases dictIsRehashing d with
  | false => rfl
  | true =>
    simp only [if_true, Bool.not_true, Bool.false_eq_true, if_false]
    split_ifs with shrinking
    · exact Nat.min_eq_right (Nat.le_of_lt shrinking)
    · exact Nat.min_eq_left (by omega)

/-- In the larger table nothing of the class comes before a cursor that has the bits of the smaller one only. -/
theorem reportedOf_eq_classedOf {small large : Nat} (divides : small ∣ large) (positive : 0 < large)
    {v : BitVec 64} (below : v.toNat < small) :
    (reportedOf type small large v : DictEntry κ ν → Bool) = classedOf type small v := by
  funext he
  rw [reportedOf, classedOf, decide_eq_decide]
  constructor
  · exact And.left
  · intro class_
    refine ⟨class_, ?_⟩
    have stride := Nat.le_of_dvd positive divides
    calc v.toNat % large = v.toNat % small := by
          rw [Nat.mod_eq_of_lt (by omega), Nat.mod_eq_of_lt below]
      _ = hashOf type he % small := class_.symm
      _ = hashOf type he % large % small := (Nat.mod_mod_of_dvd _ divides).symm
      _ ≤ hashOf type he % large := Nat.mod_le _ _

/-- At such a cursor a call reports the whole class. -/
theorem Dict.reportedAt_perm {d : Dict κ ν} (sound : d.Sound) {v : BitVec 64}
    (below : v.toNat < d.smallSize) :
    (d.reportedAt v).Perm (d.entries.filter (classedOf d.type d.smallSize v)) := by
  rw [d.smallSize_eq] at below ⊢
  unfold Dict.reportedAt Dict.entries
  rw [List.filter_append]
  cases going : dictIsRehashing d with
  | false =>
    obtain ⟨second, -, -⟩ := sound.shape.not_rehashing going
    simp [Dict.ordered, going, second, dictReset]
  | true =>
    have both := sound.shape.rehashing_of going
    obtain ⟨k0, -, size0⟩ := both.first.exponent
    obtain ⟨k1, -, size1⟩ := both.second.exponent
    -- Of two powers of two, the smaller one divides the larger one.
    by_cases shrinking : d.ht1.size < d.ht0.size
    · have order : d.ordered = (d.ht1, d.ht0) := by
        rw [Dict.ordered, if_neg (by simp [going]), if_pos shrinking]
      have divides : d.ht1.size ∣ d.ht0.size := by
        rw [size0, size1] at shrinking ⊢
        exact Nat.pow_dvd_pow 2 (Nat.le_of_lt ((Nat.pow_lt_pow_iff_right (by decide)).mp shrinking))
      rw [order] at below ⊢
      simp only [if_true, reportedOf_eq_classedOf divides both.first.size_pos below]
      exact List.perm_append_comm
    · have order : d.ordered = (d.ht0, d.ht1) := by
        rw [Dict.ordered, if_neg (by simp [going]), if_neg shrinking]
      have divides : d.ht0.size ∣ d.ht1.size := by
        rw [size0, size1] at shrinking ⊢
        refine Nat.pow_dvd_pow 2 ((Nat.pow_le_pow_iff_right (show 1 < 2 by decide)).mp ?_)
        omega
      rw [order] at below ⊢
      simp only [if_true, reportedOf_eq_classedOf divides both.second.size_pos below]
      exact .refl _

/-- What a call of `dictScan` reports there: the entries whose hashes agree with the cursor. -/
theorem dictScan_spec {d : Dict κ ν} (sound : d.Sound) (some_ : dictSize d ≠ 0) {v : BitVec 64}
    (below : v.toNat < d.smallSize) :
    ∃ k es, k ≤ 31 ∧ d.smallSize = 2 ^ k ∧ dictScan d v = some (next k v, es) ∧
      es.Perm (d.entries.filter fun he =>
        decide (hashOf d.type he % 2 ^ k = v.toNat % 2 ^ k)) := by
  obtain ⟨k, es, most, size, ran, perm⟩ := dictScan_reportedAt sound some_ v
  rw [← d.smallSize_eq] at size
  refine ⟨k, es, most, size, ran, ?_⟩
  have whole := perm.trans (d.reportedAt_perm sound below)
  rw [size] at whole
  exact whole

end Cevent.Hash
