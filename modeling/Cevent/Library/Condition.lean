import Mathlib.Data.Finset.Card
import Mathlib.Data.Fintype.Basic

/-! A condition variable: who sleeps on it, who was roused and has not gone on yet, and how many. -/

namespace Interleaving

universe u

/-- How a party stands to a condition. -/
inductive Rest where
  /-- It does not wait. -/
  | away
  /-- It is blocked in the wait, and nothing has woken it. -/
  | asleep
  /-- Its wait has ended, and it has not gone on yet. -/
  | roused
  deriving DecidableEq, Repr

/-- A condition, as what each of the parties does with it. -/
abbrev Condition (θ : Type u) := θ → Rest

namespace Condition

variable {θ : Type u}

/-- Nobody waits. -/
def idle : Condition θ := fun _ => .away

/-- The waits of all parties end. -/
def broadcast (c : Condition θ) : Condition θ :=
  fun party => if c party = .asleep then .roused else c party

/-- A broadcast rouses whoever waits. -/
theorem broadcast_eq_roused {c : Condition θ} {party : θ} (waits : c party ≠ .away) :
    c.broadcast party = .roused := by
  unfold broadcast
  cases rest : c party with
  | away => exact absurd rest waits
  | asleep => simp
  | roused => simp

variable [Fintype θ]

/-- The parties that are asleep. -/
def sleepers (c : Condition θ) : Finset θ := Finset.univ.filter fun party => c party = .asleep

/-- The parties that were roused and have not gone on. -/
def stirred (c : Condition θ) : Finset θ := Finset.univ.filter fun party => c party = .roused

@[simp] theorem mem_sleepers {c : Condition θ} {party : θ} :
    party ∈ c.sleepers ↔ c party = .asleep := by
  simp [sleepers]

@[simp] theorem mem_stirred {c : Condition θ} {party : θ} :
    party ∈ c.stirred ↔ c party = .roused := by
  simp [stirred]

/-- A signal rouses some of those who are asleep, and at least one when there is one. -/
structure Signals (c : Condition θ) (who : Finset θ) : Prop where
  within : who ⊆ c.sleepers
  someone : c.sleepers.Nonempty → who.Nonempty

variable [DecidableEq θ]

instance (c : Condition θ) (who : Finset θ) : Decidable (c.Signals who) :=
  decidable_of_iff (who ⊆ c.sleepers ∧ (c.sleepers.Nonempty → who.Nonempty))
    ⟨fun both => ⟨both.1, both.2⟩, fun signals => ⟨signals.within, signals.someone⟩⟩

/-- A party falls asleep. -/
def sleep (c : Condition θ) (party : θ) : Condition θ := Function.update c party .asleep

/-- A party goes on, or has no wait to end. -/
def leave (c : Condition θ) (party : θ) : Condition θ := Function.update c party .away

/-- The waits of some parties end. -/
def rouse (c : Condition θ) (who : Finset θ) : Condition θ :=
  fun party => if party ∈ who then .roused else c party

/-- Rousing sleepers makes no party wait, and ends no wait for good. -/
theorem rouse_eq_away {c : Condition θ} {who : Finset θ} (within : who ⊆ c.sleepers) {party : θ} :
    c.rouse who party = .away ↔ c party = .away := by
  unfold rouse
  split
  · rename_i inside
    -- Whoever is roused has slept, so it was not away either.
    have asleep := mem_sleepers.mp (within inside)
    simp [asleep]
  · rfl

/-- Those who are roused are no longer asleep. -/
theorem sleepers_rouse (c : Condition θ) (who : Finset θ) :
    (c.rouse who).sleepers = c.sleepers \ who := by
  ext party
  by_cases inside : party ∈ who
  · simp [rouse, inside]
  · simp [rouse, inside]

/-- Whoever is left asleep was asleep before. -/
theorem nonempty_of_rouse {c : Condition θ} {who : Finset θ}
    (asleep : (c.rouse who).sleepers.Nonempty) : c.sleepers.Nonempty := by
  rw [sleepers_rouse] at asleep
  exact asleep.mono Finset.sdiff_subset

/-- They are stirred instead. -/
theorem stirred_rouse (c : Condition θ) (who : Finset θ) :
    (c.rouse who).stirred = who ∪ c.stirred := by
  ext party
  by_cases inside : party ∈ who
  · simp [rouse, inside]
  · simp [rouse, inside]

/-- Rousing sleepers takes as many of them away as are roused. -/
theorem card_sleepers_rouse {c : Condition θ} {who : Finset θ} (within : who ⊆ c.sleepers) :
    (c.rouse who).sleepers.card + who.card = c.sleepers.card := by
  rw [sleepers_rouse]
  -- They were all asleep, so each of them is one fewer.
  exact Finset.card_sdiff_add_card_eq_card within

/-- It stirs as many more. -/
theorem card_stirred_rouse {c : Condition θ} {who : Finset θ} (within : who ⊆ c.sleepers) :
    (c.rouse who).stirred.card = who.card + c.stirred.card := by
  rw [stirred_rouse]
  refine Finset.card_union_of_disjoint (Finset.disjoint_left.mpr ?_)
  -- Nobody is asleep and stirred at once.
  intro party roused stirred
  have asleep := mem_sleepers.mp (within roused)
  rw [mem_stirred.mp stirred] at asleep
  cases asleep

/-- A party that goes on was not asleep, and leaves those who are. -/
theorem sleepers_leave {c : Condition θ} {party : θ} (awake : c party ≠ .asleep) :
    (c.leave party).sleepers = c.sleepers := by
  ext other
  by_cases same : other = party
  · simp [leave, same, awake]
  · simp [leave, same]

/-- A party that goes on is no longer stirred. -/
theorem stirred_leave (c : Condition θ) (party : θ) :
    (c.leave party).stirred = c.stirred.erase party := by
  ext other
  by_cases same : other = party
  · simp [leave, same]
  · simp [leave, same]

end Condition

end Interleaving
