import Cevent.MachineInt
import Mathlib.Data.List.GetD

/-! `ce_crypt_aes` over any implementation of AES: the length it computes, and what it reads. -/

namespace Cevent

/-- The functions of the AES library that the code calls, over its key schedules. -/
structure AesLibrary (κ : Type*) where
  setEncryptKey : List UInt8 → κ
  setDecryptKey : List UInt8 → κ
  /-- The output and the vector that are left, of an input, a schedule, a vector and a direction. -/
  cbcEncrypt : List UInt8 → κ → List UInt8 → Bool → List UInt8 × List UInt8

/-- `AES_BLOCK_SIZE`. -/
def aesBlockSize : Int := 16

/-- What the library promises of inputs of whole blocks. -/
structure AesLibrary.Lawful {κ : Type*} (aes : AesLibrary κ) : Prop where
  length : ∀ input key vec enc, 0 < input.length → aesBlockSize ∣ (input.length : Int) →
    (aes.cbcEncrypt input key vec enc).1.length = input.length
  inverse : ∀ input key vec, 0 < input.length → aesBlockSize ∣ (input.length : Int) →
    (aes.cbcEncrypt (aes.cbcEncrypt input (aes.setEncryptKey key) vec true).1
      (aes.setDecryptKey key) vec false).1 = input
  /-- Blocks are chained from the first one on, so later ones do not matter to earlier ones. -/
  chained : ∀ input more key vec enc, 0 < input.length → aesBlockSize ∣ (input.length : Int) →
    aesBlockSize ∣ (more.length : Int) →
    (aes.cbcEncrypt (input ++ more) key vec enc).1.take input.length =
      (aes.cbcEncrypt input key vec enc).1

/-- What is decrypted from an encrypted input and more is the input first. -/
theorem AesLibrary.Lawful.front {κ : Type*} {aes : AesLibrary κ} (lawful : aes.Lawful)
    {input : List UInt8} (more key vec : List UInt8) (nonempty : 0 < input.length)
    (whole : aesBlockSize ∣ (input.length : Int)) (rest : aesBlockSize ∣ (more.length : Int)) :
    (aes.cbcEncrypt ((aes.cbcEncrypt input (aes.setEncryptKey key) vec true).1 ++ more)
      (aes.setDecryptKey key) vec false).1.take input.length = input := by
  have length := lawful.length input (aes.setEncryptKey key) vec true nonempty whole
  have chained := lawful.chained (aes.cbcEncrypt input (aes.setEncryptKey key) vec true).1 more
    (aes.setDecryptKey key) vec false (by omega) (by rwa [length]) rest
  -- The blocks in front are decrypted as if nothing followed them.
  rw [length] at chained
  rw [chained]
  exact lawful.inverse input key vec nonempty whole

/-- `ce_malloc`, which finds memory or not when the size is positive. -/
def ceMalloc (found : Bool) (size : Int) : Bool :=
  if size ≤ 0 then false else found

/-- The length that `ce_crypt_aes` works on, in both directions. -/
def aesLen (inSize : Int) : Int :=
  if (wrapInt (inSize + 1)).tmod aesBlockSize = 0 then wrapInt (inSize + 1)
  else wrapInt (((wrapInt (inSize + 1)).tdiv aesBlockSize + 1) * aesBlockSize)

/-- What a call of `ce_crypt_aes` leaves behind. -/
structure AesCall where
  /-- The buffer that is returned, or `NULL`. -/
  out : Option (List UInt8)
  outLen : Int
  vec : List UInt8
  /-- How many bytes from `in` on were read. -/
  read : Nat
  deriving DecidableEq, Repr

/-- `ce_crypt_aes`, where `input` is the memory from `in` on. -/
def ceCryptAes {κ : Type*} (aes : AesLibrary κ) (found : Bool) (input : Nat → UInt8) (inSize : Int)
    (key vec : List UInt8) (enc : Bool) : AesCall :=
  let len := aesLen inSize
  let schedule := if enc then aes.setEncryptKey key else aes.setDecryptKey key
  if ceMalloc found len then
    -- The library reads as many bytes as it writes, whatever `in_size` is.
    let made := aes.cbcEncrypt ((List.range len.toNat).map input) schedule vec enc
    { out := some made.1, outLen := len, vec := made.2, read := len.toNat }
  else { out := none, outLen := 0, vec := vec, read := 0 }

/-- The memory from a buffer on, with what lies behind the buffer. -/
def memoryFrom (buffer : List UInt8) (behind : Nat → UInt8) (offset : Nat) : UInt8 :=
  buffer.getD offset (behind offset)

section Length

variable {inSize : Int}

/-- Where nothing overflows, the length is the next multiple of a block above `in_size`. -/
theorem aesLen_eq (positive : 0 ≤ inSize) (small : inSize + aesBlockSize ≤ intMax) :
    aesLen inSize = (inSize / aesBlockSize + 1) * aesBlockSize := by
  have fits : wrapInt (inSize + 1) = inSize + 1 := by
    apply wrapInt_of_le <;> simp only [aesBlockSize] at * <;> omega
  unfold aesLen
  rw [fits, Int.tmod_eq_emod_of_nonneg (by omega), Int.tdiv_eq_ediv_of_nonneg (by omega)]
  have block : aesBlockSize = 16 := rfl
  -- Both branches come to the next whole block behind `in_size`.
  by_cases whole : (inSize + 1) % aesBlockSize = 0
  · rw [if_pos whole]
    rw [block] at whole ⊢
    omega
  · rw [if_neg whole]
    rw [block] at whole small ⊢
    rw [wrapInt_of_le] <;> omega

/-- It is more than `in_size`. -/
theorem lt_aesLen (positive : 0 ≤ inSize) (small : inSize + aesBlockSize ≤ intMax) :
    inSize < aesLen inSize := by
  rw [aesLen_eq positive small]
  simp only [aesBlockSize]
  omega

/-- It is a number of whole blocks. -/
theorem aesBlockSize_dvd_aesLen (positive : 0 ≤ inSize) (small : inSize + aesBlockSize ≤ intMax) :
    aesBlockSize ∣ aesLen inSize := by
  rw [aesLen_eq positive small]
  exact Int.dvd_mul_left ..

end Length

/-- What is read from a buffer on is the buffer first. -/
theorem map_memoryFrom (buffer : List UInt8) (behind : Nat → UInt8) {count : Nat}
    (enough : buffer.length ≤ count) : ∃ more : List UInt8,
    (List.range count).map (memoryFrom buffer behind) = buffer ++ more ∧
      more.length = count - buffer.length := by
  -- What is more is the rest of the bytes that are read, whatever they are.
  refine ⟨((List.range count).map (memoryFrom buffer behind)).drop buffer.length, ?_, by simp⟩
  have front : ((List.range count).map (memoryFrom buffer behind)).take buffer.length = buffer := by
    apply List.ext_getElem
    · simp [enough]
    · intro offset inside within
      simp [memoryFrom, within]
  exact (List.take_append_drop ..).symm.trans (congrArg (· ++ _) front)

section Call

variable {κ : Type*} {aes : AesLibrary κ} {input : Nat → UInt8} {inSize : Int}
  {key vec : List UInt8} {enc : Bool}

/-- A call that finds memory reads and writes as many bytes as the length says. -/
theorem ceCryptAes_found (positive : 0 ≤ inSize) (small : inSize + aesBlockSize ≤ intMax) :
    let call := ceCryptAes aes true input inSize key vec enc
    call.out = some (aes.cbcEncrypt ((List.range (aesLen inSize).toNat).map input)
      (if enc then aes.setEncryptKey key else aes.setDecryptKey key) vec enc).1 ∧
    call.outLen = aesLen inSize ∧ call.read = aesLen inSize := by
  have beyond := lt_aesLen positive small
  have memory : ceMalloc true (aesLen inSize) = true := by
    rw [ceMalloc, if_neg (by omega)]
  simp only [ceCryptAes, memory, ↓reduceIte, true_and]
  omega

/-- A call on a buffer that finds memory works on the buffer with what lies behind it. -/
theorem ceCryptAes_buffer (aes : AesLibrary κ) (key vec : List UInt8) (enc : Bool)
    (buffer : List UInt8) (behind : Nat → UInt8)
    (small : (buffer.length : Int) + aesBlockSize ≤ intMax) : ∃ more : List UInt8,
    let call := ceCryptAes aes true (memoryFrom buffer behind) buffer.length key vec enc
    ((buffer ++ more).length : Int) = aesLen buffer.length ∧
      call.out = some (aes.cbcEncrypt (buffer ++ more)
        (if enc then aes.setEncryptKey key else aes.setDecryptKey key) vec enc).1 ∧
      call.outLen = aesLen buffer.length := by
  have positive := Int.natCast_nonneg buffer.length
  have beyond := lt_aesLen positive small
  obtain ⟨more, reads, length⟩ := map_memoryFrom buffer behind
    (show buffer.length ≤ (aesLen buffer.length).toNat by omega)
  refine ⟨more, ?_, ?_, (ceCryptAes_found positive small).2.1⟩
  · rw [List.length_append]
    omega
  · rw [← reads]
    exact (ceCryptAes_found positive small).1

/-- A call returns `NULL`, or it has read behind its input. -/
theorem ceCryptAes_cases (found : Bool) (positive : 0 ≤ inSize)
    (small : inSize + aesBlockSize ≤ intMax) :
    let call := ceCryptAes aes found input inSize key vec enc
    (call.out = none ∧ call.outLen = 0) ∨ inSize < call.read := by
  -- Only without memory does a call leave its input alone.
  cases found with
  | false =>
    have memory : ceMalloc false (aesLen inSize) = false := by simp [ceMalloc]
    simp [ceCryptAes, memory]
  | true =>
    have read : (ceCryptAes aes true input inSize key vec enc).read = aesLen inSize :=
      (ceCryptAes_found positive small).2.2
    have beyond := lt_aesLen positive small
    right
    omega

end Call

/-- `ce_crypt_aes` on a text and then on its whole output, with what lies behind the two buffers. -/
structure AesRoundTrip (κ : Type*) where
  aes : AesLibrary κ
  plain : List UInt8
  key : List UInt8
  vec : List UInt8
  /-- Whether `ce_malloc` finds memory in the first call and in the second one. -/
  found : Bool × Bool
  behind : (Nat → UInt8) × (Nat → UInt8)

namespace AesRoundTrip

variable {κ : Type*} (trip : AesRoundTrip κ)

/-- The call that encrypts. -/
def first : AesCall :=
  ceCryptAes trip.aes trip.found.1 (memoryFrom trip.plain trip.behind.1) trip.plain.length trip.key
    trip.vec true

/-- The call that decrypts, with a fresh copy of the vector. -/
def second : AesCall :=
  ceCryptAes trip.aes trip.found.2 (memoryFrom (trip.first.out.getD []) trip.behind.2)
    trip.first.outLen trip.key trip.vec false

/-- Decryption undoes encryption, and neither call reads behind its input. -/
structure Undone : Prop where
  outLen : trip.second.outLen = trip.first.outLen
  front : ∃ out, trip.second.out = some out ∧ out.take trip.plain.length = trip.plain
  firstRead : trip.first.read ≤ trip.plain.length
  secondRead : trip.second.read ≤ trip.first.outLen

/-- A length that is a number of whole blocks grows by a block. -/
theorem aesLen_aesLen {size : Int} (positive : 0 ≤ size)
    (small : size + 2 * aesBlockSize ≤ intMax) :
    aesLen (aesLen size) = aesLen size + aesBlockSize ∧ aesLen size + aesBlockSize ≤ intMax := by
  have block : aesBlockSize = 16 := rfl
  rw [block] at small ⊢
  have once := aesLen_eq positive (by rw [block]; omega)
  rw [block] at once
  -- A whole number of blocks is not a block more than itself, so the formula adds one.
  have room : aesLen size + 16 ≤ intMax := by omega
  have twice := aesLen_eq (show 0 ≤ aesLen size by omega) room
  rw [block] at twice
  exact ⟨by omega, room⟩

/--
The text does come back, in front of a block that the second call has read behind the output.

It takes a library that keeps its promises, and memory for both calls.
-/
theorem front_of_lawful (lawful : trip.aes.Lawful) (found : trip.found = (true, true))
    (small : trip.plain.length + 2 * aesBlockSize ≤ intMax) :
    trip.second.outLen = trip.first.outLen + aesBlockSize ∧
      ∃ out, trip.second.out = some out ∧ out.take trip.plain.length = trip.plain := by
  have block : aesBlockSize = 16 := rfl
  have positive := Int.natCast_nonneg trip.plain.length
  obtain ⟨grown, room⟩ := aesLen_aesLen positive small
  have fits : trip.plain.length + aesBlockSize ≤ intMax := by omega
  have beyond := lt_aesLen positive fits
  have whole := aesBlockSize_dvd_aesLen positive fits
  -- The first call encrypts the text with what lies behind it.
  obtain ⟨behind, length, out, outLen⟩ := ceCryptAes_buffer trip.aes trip.key trip.vec true
    trip.plain trip.behind.1 fits
  have encrypted : trip.first.out = some (trip.aes.cbcEncrypt (trip.plain ++ behind)
      (trip.aes.setEncryptKey trip.key) trip.vec true).1 := by
    rw [first, found]
    exact out
  have firstLen : trip.first.outLen = aesLen trip.plain.length := by
    rw [first, found]
    exact outLen
  have cipherLength := lawful.length (trip.plain ++ behind) (trip.aes.setEncryptKey trip.key)
    trip.vec true (by omega) (length ▸ whole)
  have front (rest : List UInt8) := lawful.front rest trip.key trip.vec
    (show 0 < (trip.plain ++ behind).length by omega) (length ▸ whole)
  generalize (trip.aes.cbcEncrypt (trip.plain ++ behind) (trip.aes.setEncryptKey trip.key)
    trip.vec true).1 = cipher at *
  have same : aesLen trip.plain.length = cipher.length := by omega
  -- The second one decrypts the output with what lies behind that.
  rw [same] at firstLen room grown
  obtain ⟨rest, length', out', outLen'⟩ := ceCryptAes_buffer trip.aes trip.key trip.vec false
    cipher trip.behind.2 room
  rw [second, found, firstLen, encrypted, ← grown]
  refine ⟨outLen', _, out', ?_⟩
  have decrypted := front rest (by rw [List.length_append] at length'; rw [block]; omega)
  calc _ = (((trip.aes.cbcEncrypt (cipher ++ rest) (trip.aes.setDecryptKey trip.key) trip.vec
            false).1.take (trip.plain ++ behind).length).take trip.plain.length) := by
        rw [List.take_take, Nat.min_eq_left (by simp)]
        rfl
    _ = (trip.plain ++ behind).take trip.plain.length := by rw [decrypted]
    _ = trip.plain := List.take_left

end AesRoundTrip

/--
Decryption never undoes encryption: a call that finds memory reads behind its input.

It is so for every text and key, every library, and whatever memory the calls find.
-/
theorem aes_never_undone {κ : Type*} (trip : AesRoundTrip κ)
    (small : trip.plain.length + aesBlockSize ≤ intMax) : ¬ trip.Undone := by
  intro undone
  rcases ceCryptAes_cases trip.found.1 (Int.natCast_nonneg _) small with ⟨-, empty⟩ | beyond
  · have none_ : trip.first.outLen = 0 := empty
    have room : trip.first.outLen + aesBlockSize ≤ intMax := by rw [none_]; decide
    -- Even the second call, on no input at all, would read a block.
    rcases ceCryptAes_cases trip.found.2 (Int.le_of_eq none_.symm) room with ⟨absent, -⟩ | beyond
    · obtain ⟨out, made, -⟩ := undone.front
      exact absurd (absent.symm.trans made) (by simp)
    · exact absurd undone.secondRead (Int.not_le.mpr beyond)
  · exact absurd undone.firstRead (Nat.not_le.mpr (Int.ofNat_lt.mp beyond))

/-- Two blocks of text. -/
def samplePlain : List UInt8 × List UInt8 :=
  ([0x6b, 0xc1, 0xbe, 0xe2, 0x2e, 0x40, 0x9f, 0x96,
    0xe9, 0x3d, 0x7e, 0x11, 0x73, 0x93, 0x17, 0x2a],
   [0xae, 0x2d, 0x8a, 0x57, 0x1e, 0x03, 0xac, 0x9c,
    0x9e, 0xb7, 0x6f, 0xac, 0x45, 0xaf, 0x8e, 0x51])

/-- What AES makes of them, one behind the other, under the key and the vector of `sampleTrip`. -/
def sampleCipher : List UInt8 × List UInt8 :=
  ([0x76, 0x49, 0xab, 0xac, 0x81, 0x19, 0xb2, 0x46,
    0xce, 0xe9, 0x8e, 0x9b, 0x12, 0xe9, 0x19, 0x7d],
   [0x50, 0x86, 0xcb, 0x9b, 0x50, 0x72, 0x19, 0xee,
    0x95, 0xdb, 0x11, 0x3a, 0x91, 0x76, 0x78, 0xb2])

/-- The library on these blocks. -/
def sampleLibrary : AesLibrary (List UInt8) where
  setEncryptKey key := key
  setDecryptKey key := key
  cbcEncrypt input _ vec enc :=
    if enc ∧ input = samplePlain.1 then (sampleCipher.1, sampleCipher.1)
    else if ¬ enc ∧ input = sampleCipher.1 ++ sampleCipher.2 then
      (samplePlain.1 ++ samplePlain.2, sampleCipher.2)
    else (input, vec)

/-- The first block without its last byte, which lies behind it as the second lies behind the output. -/
def sampleTrip : AesRoundTrip (List UInt8) where
  aes := sampleLibrary
  plain := samplePlain.1.take 15
  key := [0x2b, 0x7e, 0x15, 0x16, 0x28, 0xae, 0xd2, 0xa6,
    0xab, 0xf7, 0x15, 0x88, 0x09, 0xcf, 0x4f, 0x3c]
  vec := [0, 1, 2, 3, 4, 5, 6, 7, 8, 9, 10, 11, 12, 13, 14, 15]
  found := (true, true)
  behind := (fun _ => 0x2a, fun offset => sampleCipher.2.getD (offset - 16) 0)

/-- A text of 15 bytes is among those. -/
theorem aes_never_undone_fifteen : ¬ sampleTrip.Undone :=
  aes_never_undone sampleTrip (by decide)

/-- Its 16 bytes of output come back as 32, of which the call has read 16 behind the output. -/
theorem not_aes_undone_fifteen : sampleTrip.first.outLen = 16 ∧ sampleTrip.first.read = 16 ∧
    sampleTrip.second.outLen = 32 ∧ sampleTrip.second.read = 32 ∧ ¬ sampleTrip.Undone := by
  refine ⟨by decide, by decide, by decide, by decide, ?_⟩
  -- The length that is returned is wrong already.
  intro undone
  exact absurd undone.outLen (by decide)

end Cevent
