import Cevent.Io.Calls
import Cevent.Library.History
import Cevent.Library.Machine
import Mathlib.Data.List.Nodup

/-! When the registry of connections, keyed by C strings, answers like a set of fd numbers. -/

namespace Cevent

open Interleaving

/-- An fd number that the event loop watches. -/
structure LiveFd where
  fd : Int
  positive : 0 < fd
  below : fd < aeSetSize

/-- A call that looks an fd up in the registry. -/
inductive RegistryCall where
  | add (fd : LiveFd)
  | del (fd : LiveFd)
  | enqueue (fd : LiveFd) (arg : PacketArg)
  | push (pushType : CePushType) (fd : LiveFd) (arg : PacketArg)

namespace RegistryCall

/-- The fd that a call is about. -/
def fd : RegistryCall → LiveFd
  | .add fd | .del fd | .enqueue fd _ | .push _ fd _ => fd

/-- The call on the io. -/
def api : RegistryCall → IoApi
  | .add fd => .add fd.fd
  | .del fd => .del fd.fd
  | .enqueue fd arg => .enqueue fd.fd arg
  | .push pushType fd arg => .push pushType fd.fd arg

end RegistryCall

/-- What a call tells about the registry. -/
inductive RegistryAnswer where
  | added (fd : Int) (succeeded : Bool)
  | deleted (fd : Int) (succeeded : Bool)
  | looked (fd : Int) (found : Bool)
  deriving DecidableEq, Repr

/-- What a call that returns so tells about the registry of the io it is made on. -/
def registryAnswer (io : CeIo) (result : Bool) : RegistryCall → RegistryAnswer
  | .add fd => .added fd.fd result
  | .del fd => .deleted fd.fd result
  | .enqueue fd _ | .push _ fd _ => .looked fd.fd (dictFind io.ioDict fd.fd).isSome

/-- The registry of the source, one call at a time. -/
def registryMachine : Machine CeIo RegistryCall RegistryAnswer where
  step io call :=
    let (next, result) := ioCall io call.api
    some (next, [registryAnswer io result call])

/-- The set of fd numbers after an answer. -/
def RegistryAnswer.apply (registered : Int → Bool) : RegistryAnswer → Int → Bool
  | .added fd true => Function.update registered fd true
  | .deleted fd true => Function.update registered fd false
  | _ => registered

/-- The fd numbers that are registered after some answers. -/
def registeredAfter (answers : List RegistryAnswer) : Int → Bool :=
  answers.foldl RegistryAnswer.apply fun _ => false

/-- The answer that a set of fd numbers gives. -/
def RegistryAnswer.Agrees (registered : Int → Bool) : RegistryAnswer → Prop
  | .added fd succeeded => succeeded = !registered fd
  | .deleted fd succeeded => succeeded = registered fd
  | .looked fd found => found = registered fd

/-- Every answer is the one that the set of fd numbers registered by then gives. -/
def RegistryFaithful (answers : List RegistryAnswer) : Prop :=
  ∀ before answer after, answers = before ++ answer :: after →
    answer.Agrees (registeredAfter before)

/-- The fd of a call is no multiple of 256, or no other multiple of 256 is registered. -/
def ApartFromOthers (io : CeIo) (call : RegistryCall) : Prop :=
  256 ∣ call.fd.fd → ∀ entry ∈ io.ioDict.entries, 256 ∣ entry.key → entry.key = call.fd.fd

/-- The bytes of an fd are its two digits to base 256, and two zeros. -/
theorem intBytes_of_live {key : Int} (positive : 0 < key) (below : key < aeSetSize) :
    intBytes key = [UInt8.ofNat (key % 256).toNat, UInt8.ofNat (key / 256).toNat, 0, 0] := by
  -- An fd below the size of the event loop has two digits to base 256.
  have high : key / 256 % 256 = key / 256 := by
    rw [aeSetSize] at below
    omega
  have third : key / 256 ^ 2 = 0 := by
    rw [aeSetSize] at below
    omega
  have fourth : key / 256 ^ 3 = 0 := by
    rw [aeSetSize] at below
    omega
  simp only [intBytes, List.map_cons, List.map_nil, high, third, fourth]
  rfl

/-- A digit to base 256 is stored as zero only when it is zero. -/
theorem ofNat_eq_zero_iff {digit : Int} (nonneg : 0 ≤ digit) (small : digit < 256) :
    UInt8.ofNat digit.toNat = 0 ↔ digit = 0 := by
  -- A digit is below the modulus of a byte, so nothing is cut off.
  rw [← UInt8.toNat_inj, UInt8.toNat_ofNat']
  simp only [UInt8.toNat_zero]
  omega

/-- Digits to base 256 that are stored as the same byte are equal. -/
theorem ofNat_inj_of_digits {digit other : Int} (nonneg : 0 ≤ digit) (small : digit < 256)
    (nonneg' : 0 ≤ other) (small' : other < 256)
    (same : UInt8.ofNat digit.toNat = UInt8.ofNat other.toNat) : digit = other := by
  have bytes := congrArg UInt8.toNat same
  rw [UInt8.toNat_ofNat', UInt8.toNat_ofNat'] at bytes
  omega

/-- The string at an fd: empty when its low digit is zero, and else as long as the fd has digits. -/
theorem stringAt_of_live {key : Int} (positive : 0 < key) (below : key < aeSetSize) :
    stringAt key =
      if key % 256 = 0 then []
      else if key / 256 = 0 then [UInt8.ofNat (key % 256).toNat]
      else [UInt8.ofNat (key % 256).toNat, UInt8.ofNat (key / 256).toNat] := by
  have low : UInt8.ofNat (key % 256).toNat = 0 ↔ key % 256 = 0 :=
    ofNat_eq_zero_iff (by omega) (by omega)
  have high : UInt8.ofNat (key / 256).toNat = 0 ↔ key / 256 = 0 :=
    ofNat_eq_zero_iff (by omega) (by rw [aeSetSize] at below; omega)
  rw [stringAt, intBytes_of_live positive below]
  -- The string ends at the first digit that is zero, and at the two zero bytes at the latest.
  split_ifs with lowZero highZero
  · simp [low.mpr lowZero]
  · simp [mt low.mp lowZero, high.mpr highZero]
  · simp [mt low.mp lowZero, mt high.mp highZero]

/-- Two fds are the same key when they are equal, and also when both are multiples of 256. -/
theorem stringAt_eq_iff {key other : Int} (positive : 0 < key) (below : key < aeSetSize)
    (positive' : 0 < other) (below' : other < aeSetSize) :
    stringAt key = stringAt other ↔ key = other ∨ (256 ∣ key ∧ 256 ∣ other) := by
  have small : key / 256 < 256 := by rw [aeSetSize] at below; omega
  have small' : other / 256 < 256 := by rw [aeSetSize] at below'; omega
  constructor
  · intro same
    rw [stringAt_of_live positive below, stringAt_of_live positive' below'] at same
    -- Strings of one length are compared digit by digit.
    split_ifs at same <;>
      simp only [List.cons.injEq, reduceCtorEq, and_true, and_false] at same
    · -- Both strings are empty, whatever the high digits are.
      exact .inr ⟨by omega, by omega⟩
    · have digit := ofNat_inj_of_digits (by omega) (by omega) (by omega) (by omega) same
      exact .inl (by omega)
    · have digit := ofNat_inj_of_digits (by omega) (by omega) (by omega) (by omega) same.1
      have digit' := ofNat_inj_of_digits (by omega) small (by omega) small' same.2
      exact .inl (by omega)
  · rintro (rfl | ⟨low, low'⟩)
    · rfl
    · rw [stringAt_of_live positive below, stringAt_of_live positive' below',
        if_pos (by omega), if_pos (by omega)]

/-- The fd numbers under which the registry holds an entry. -/
def CeIo.HasFd (io : CeIo) (fd : Int) : Prop := ∃ entry ∈ io.ioDict.entries, entry.key = fd

/-- What every sequence of calls keeps of the registry, and what it means while the answers agree. -/
structure RegistryInv (io : CeIo) (answers : List RegistryAnswer) : Prop where
  running : io.stop = false
  type : io.ioDict.type = dictTypeHeapStrings
  live : ∀ entry ∈ io.ioDict.entries, 0 < entry.key ∧ entry.key < aeSetSize
  distinct : (io.ioDict.entries.map fun entry => stringAt entry.key).Nodup
  registered : RegistryFaithful answers → ∀ fd, registeredAfter answers fd = true ↔ io.HasFd fd

/-- The new io is empty, and nothing was answered yet. -/
theorem RegistryInv.new (host : ByteOrder) (conf : CeConf) :
    RegistryInv (ceIoNew host dictTypeHeapStrings conf) [] where
  running := rfl
  type := rfl
  live := by simp [ceIoNew, dictCreate]
  distinct := .nil
  registered := by simp [registeredAfter, CeIo.HasFd, ceIoNew, dictCreate]

@[simp] theorem registeredAfter_snoc (answers : List RegistryAnswer) (answer : RegistryAnswer) :
    registeredAfter (answers ++ [answer]) = answer.apply (registeredAfter answers) := by
  simp [registeredAfter]

/-- One more answer is right when the earlier ones are and it agrees with the set after them. -/
theorem registryFaithful_snoc (answers : List RegistryAnswer) (answer : RegistryAnswer) :
    RegistryFaithful (answers ++ [answer]) ↔
      RegistryFaithful answers ∧ answer.Agrees (registeredAfter answers) :=
  @eachFits_snoc RegistryAnswer (fun before answer => answer.Agrees (registeredAfter before))
    answers answer

namespace RegistryInv

variable {io : CeIo} {answers : List RegistryAnswer} (inv : RegistryInv io answers)

include inv

/-- An fd is found when some entry's key is the same string. -/
theorem find_isSome_iff (fd : Int) : (dictFind io.ioDict fd).isSome ↔
    ∃ entry ∈ io.ioDict.entries, stringAt fd = stringAt entry.key := by
  -- The hash adds nothing, since equal strings have equal hashes.
  simp only [dictFind_isSome_iff, Dict.matchesKey, inv.type, dictTypeHeapStrings_sameKey]

/-- The registry finds an fd just when it is registered, if and only if it is apart from the others. -/
theorem found_iff_hasFd (call : RegistryCall) :
    ((dictFind io.ioDict call.fd.fd).isSome ↔ io.HasFd call.fd.fd) ↔ ApartFromOthers io call := by
  obtain ⟨positive, below⟩ := And.intro call.fd.positive call.fd.below
  rw [inv.find_isSome_iff]
  constructor
  · intro exact_ multiple entry inside multiple'
    -- Another multiple of 256 is found in the place of this one, so this one is registered too.
    have live := inv.live entry inside
    have same := (stringAt_eq_iff positive below live.1 live.2).mpr (.inr ⟨multiple, multiple'⟩)
    obtain ⟨own, insideOwn, key⟩ := exact_.mp ⟨entry, inside, same⟩
    have equal : own = entry :=
      List.inj_on_of_nodup_map inv.distinct insideOwn inside (by rw [key, same])
    rw [← equal, key]
  · intro apart
    constructor
    · -- What is found under this string is this fd, as no other multiple is there.
      rintro ⟨entry, inside, same⟩
      have live := inv.live entry inside
      rcases (stringAt_eq_iff positive below live.1 live.2).mp same with equal | ⟨multiple, multiple'⟩
      · exact ⟨entry, inside, equal.symm⟩
      · exact ⟨entry, inside, apart multiple entry inside multiple'⟩
    · rintro ⟨entry, inside, key⟩
      exact ⟨entry, inside, by rw [key]⟩

/-- While the answers agree, the next one does when the search finds exactly what is registered. -/
theorem agrees_iff (faithful : RegistryFaithful answers) (call : RegistryCall) :
    (registryAnswer io (ioCall io call.api).2 call).Agrees (registeredAfter answers) ↔
      ((dictFind io.ioDict call.fd.fd).isSome ↔ io.HasFd call.fd.fd) := by
  have known := inv.registered faithful call.fd.fd
  have running := inv.running
  -- A call tells what its search finds: `ce_io_add` the opposite, the others the same.
  cases call with
  | add fd =>
    have result : (ceIoAdd io fd.fd).2 = !(dictFind io.ioDict fd.fd).isSome := by
      rcases ceIoAdd_cases io fd.fd with ⟨stopped | found, refused⟩ | ⟨-, absent, added⟩
      · simp [running] at stopped
      · simp [refused, found]
      · simp [added, absent]
    simp only [RegistryCall.api, RegistryCall.fd, ioCall, registryAnswer, RegistryAnswer.Agrees,
      result, Bool.not_inj_iff] at known ⊢
    rw [← known, Bool.eq_iff_iff]
  | del fd =>
    have result : (ceIoDel io fd.fd).2 = (dictFind io.ioDict fd.fd).isSome := by
      rcases ceIoDel_cases io fd.fd with ⟨negative | stopped | absent, refused⟩ |
        ⟨-, -, entry, before, after, found, -, deleted⟩
      · exact absurd fd.positive (by omega)
      · simp [running] at stopped
      · simp [refused, absent]
      · simp [deleted, found]
    simp only [RegistryCall.api, RegistryCall.fd, ioCall, registryAnswer, RegistryAnswer.Agrees,
      result] at known ⊢
    rw [← known, Bool.eq_iff_iff]
  | enqueue fd arg | push pushType fd arg =>
    simp only [RegistryCall.fd, registryAnswer, RegistryAnswer.Agrees] at known ⊢
    rw [← known, Bool.eq_iff_iff]

/-- A refused call, and any call that only looks an fd up, leaves the set as it is. -/
theorem unchanged {next : CeIo} {answer : RegistryAnswer} (running : next.stop = false)
    (same : next.ioDict = io.ioDict)
    (idle : answer.apply (registeredAfter answers) = registeredAfter answers) :
    RegistryInv next (answers ++ [answer]) where
  running := running
  type := by rw [same, inv.type]
  live := by rw [same]; exact inv.live
  distinct := by rw [same]; exact inv.distinct
  registered := by
    -- Neither the registry nor the set of numbers changes.
    intro faithful fd
    rw [registeredAfter_snoc, idle, CeIo.HasFd, same]
    exact inv.registered ((registryFaithful_snoc ..).mp faithful).1 fd

/-- An fd that was taken in is registered. -/
theorem added (fd : LiveFd) (absent : dictFind io.ioDict fd.fd = none) :
    RegistryInv (io.withAdded fd.fd) (answers ++ [.added fd.fd true]) where
  running := inv.running
  type := inv.type
  live := by
    intro entry inside
    rcases List.mem_append.mp inside with old | new
    · exact inv.live entry old
    · rw [List.mem_singleton.mp new]
      exact ⟨fd.positive, fd.below⟩
  distinct := by
    -- The search has found no entry with this string, so the new key is distinct.
    have unseen : ¬ ∃ entry ∈ io.ioDict.entries, stringAt fd.fd = stringAt entry.key := by
      rw [← inv.find_isSome_iff, absent]
      simp
    simp only [CeIo.withAdded, CeIo.setRecord, List.map_append, List.map_cons, List.map_nil]
    apply inv.distinct.append (List.nodup_singleton _)
    intro string inside new
    obtain ⟨entry, old, key⟩ := List.mem_map.mp inside
    exact unseen ⟨entry, old, (List.mem_singleton.mp new).symm.trans key.symm⟩
  registered := by
    intro faithful other
    have known := inv.registered ((registryFaithful_snoc ..).mp faithful).1 other
    rw [registeredAfter_snoc, RegistryAnswer.apply]
    -- The new number is registered, and every other one is as before.
    by_cases same : other = fd.fd
    · simp [same, CeIo.HasFd, CeIo.withAdded]
    · simp [same, known, CeIo.HasFd, CeIo.withAdded, Ne.symm same]

/-- An fd that was found and taken out is no longer registered, and the others still are. -/
theorem deleted (fd : LiveFd) {entry : DictEntry Int RecordId}
    {before after : List (DictEntry Int RecordId)}
    (found : dictFind io.ioDict fd.fd = some entry)
    (split : io.ioDict.entries = before ++ entry :: after) :
    RegistryInv (io.withDeleted entry (before ++ after)) (answers ++ [.deleted fd.fd true]) := by
  -- Taking an entry out keeps what holds of each entry.
  have fewer : (before ++ after).Sublist io.ioDict.entries := by
    rw [split]
    exact (List.append_sublist_append_left before).mpr (List.sublist_cons_self entry after)
  refine ⟨inv.running, inv.type, fun other inside => inv.live other (fewer.subset inside),
    inv.distinct.sublist (fewer.map _), ?_⟩
  intro faithful other
  obtain ⟨early, agrees⟩ := (registryFaithful_snoc ..).mp faithful
  have known := inv.registered early
  -- The answer is right, so the fd has an entry of its own, and that is the one taken out.
  obtain ⟨own, insideOwn, keyOwn⟩ := (known fd.fd).mp agrees.symm
  obtain ⟨inside, same⟩ := dictFind_some found
  rw [Dict.matchesKey, inv.type, dictTypeHeapStrings_sameKey] at same
  have equal : own = entry :=
    List.inj_on_of_nodup_map inv.distinct insideOwn inside (by rw [keyOwn, same])
  have key : entry.key = fd.fd := equal ▸ keyOwn
  -- The strings are distinct, so the entry stood there once.
  have gone : entry ∉ before ++ after := by
    have nodup := inv.distinct.of_map
    rw [split, List.nodup_middle] at nodup
    exact (List.nodup_cons.mp nodup).1
  rw [registeredAfter_snoc, RegistryAnswer.apply]
  by_cases asked : other = fd.fd
  · -- An entry left under this number would be the one that was taken out.
    rw [asked, Function.update_self]
    apply iff_of_false (by simp)
    rintro ⟨left, insideLeft, keyLeft⟩
    have twin : left = entry := List.inj_on_of_nodup_map inv.distinct (fewer.subset insideLeft)
      inside (by rw [keyLeft, key])
    exact gone (twin ▸ insideLeft)
  · rw [Function.update_of_ne asked, known other]
    constructor
    · rintro ⟨kept, insideKept, keyKept⟩
      -- An entry with another number is not the one that was taken out.
      have apart : kept ≠ entry := by
        intro twin
        exact asked (by rw [← keyKept, twin, key])
      rw [split, List.mem_append, List.mem_cons, or_left_comm, or_iff_right apart] at insideKept
      exact ⟨kept, List.mem_append.mpr insideKept, keyKept⟩
    · rintro ⟨kept, insideKept, keyKept⟩
      exact ⟨kept, fewer.subset insideKept, keyKept⟩

/-- Every call keeps what the registry keeps. -/
theorem call (call : RegistryCall) :
    RegistryInv (ioCall io call.api).1
      (answers ++ [registryAnswer io (ioCall io call.api).2 call]) := by
  cases call with
  | add fd =>
    simp only [RegistryCall.api, ioCall, registryAnswer]
    rcases ceIoAdd_cases io fd.fd with ⟨-, refused⟩ | ⟨-, absent, added⟩
    · -- A call that was refused has changed nothing.
      rw [refused]
      exact inv.unchanged inv.running rfl rfl
    · rw [added]
      exact inv.added fd absent
  | del fd =>
    simp only [RegistryCall.api, ioCall, registryAnswer]
    rcases ceIoDel_cases io fd.fd with ⟨-, refused⟩ | ⟨-, -, entry, before, after, found, split, gone⟩
    · rw [refused]
      exact inv.unchanged inv.running rfl rfl
    · rw [gone]
      exact inv.deleted fd found split
  | enqueue fd arg =>
    -- A write keeps the registry, and its answer changes no number.
    have writes := ceIoEnqueue_writes io fd.fd arg
    exact inv.unchanged (writes.stop.trans inv.running) writes.ioDict rfl
  | push pushType fd arg =>
    have writes := ceIoPush_writes io pushType fd.fd arg
    exact inv.unchanged (writes.stop.trans inv.running) writes.ioDict rfl

end RegistryInv

/--
The registry answers like the set of registered fd numbers just when no two multiples of 256 meet in it.

Each call must be about an fd that is no multiple of 256, or find no other multiple of 256 registered.
-/
theorem registryFaithful_iff (host : ByteOrder) (conf : CeConf) (calls : List RegistryCall)
    (io : CeIo) (answers : List RegistryAnswer)
    (ran : registryMachine.exec (ceIoNew host dictTypeHeapStrings conf) calls = some (io, answers)) :
    RegistryFaithful answers ↔
      registryMachine.Meets ApartFromOthers (ceIoNew host dictTypeHeapStrings conf) calls := by
  refine registryMachine.exec_property_iff_meets RegistryInv (.new host conf) ?_ ?_ ?_ ?_ ran
  · -- There is no answer yet that could be wrong.
    intro before answer after split
    simp at split
  · intro io before call next answers inv taken
    obtain ⟨rfl, rfl⟩ : _ ∧ _ := by simpa [registryMachine] using taken
    exact inv.call call
  · -- An answer that was wrong stays in the list.
    intro before answers faithful early answer after split
    exact faithful early answer (after ++ answers) (by simp [split])
  · intro io before call next answers inv faithful taken
    obtain ⟨rfl, rfl⟩ : _ ∧ _ := by simpa [registryMachine] using taken
    -- The next answer is right just when the search finds what is registered.
    rw [registryFaithful_snoc, and_iff_right faithful, inv.agrees_iff faithful call,
      inv.found_iff_hasFd call]

/-- One fd is added, taken out and added again beside a multiple of 256. -/
theorem registryFaithful_iff_readded :
    let calls : List RegistryCall := [.add ⟨7, by decide, by decide⟩, .add ⟨256, by decide, by decide⟩,
      .del ⟨7, by decide, by decide⟩, .add ⟨7, by decide, by decide⟩]
    let answers : List RegistryAnswer := [.added 7 true, .added 256 true, .deleted 7 true, .added 7 true]
    RegistryFaithful answers ↔ registryMachine.Meets ApartFromOthers
      (ceIoNew .little dictTypeHeapStrings smallConf) calls :=
  registryFaithful_iff .little smallConf _ _ _ rfl

/-- Two multiples of 256 hide each other: the second one cannot be added. -/
theorem not_registryFaithful_two_multiples :
    ∃ io answers, registryMachine.exec (ceIoNew .little dictTypeHeapStrings smallConf)
      [.add ⟨256, by decide, by decide⟩, .add ⟨512, by decide, by decide⟩] = some (io, answers) ∧
      ¬ RegistryFaithful answers := by
  refine ⟨_, [.added 256 true, .added 512 false], rfl, ?_⟩
  intro faithful
  have agrees := faithful [.added 256 true] (.added 512 false) [] rfl
  simp [RegistryAnswer.Agrees, registeredAfter, RegistryAnswer.apply] at agrees

end Cevent
