import Mathlib.Algebra.BigOperators.Group.Finset.Piecewise
import Mathlib.Data.Fintype.Basic

/-! How many of finitely many parties hold a thing. -/

namespace Interleaving

universe u v

variable {ι : Type u} {ρ : Type v} [Fintype ι] [DecidableEq ρ]

/-- The number of parties that hold an item, when each holds one item or none. -/
def holders (held : ι → Option ρ) (item : ρ) : Nat :=
  ∑ party, if held party = some item then 1 else 0

/-- No party holds an item just when each holds another one or none. -/
theorem holders_eq_zero_iff {held : ι → Option ρ} {item : ρ} :
    holders held item = 0 ↔ ∀ party, held party ≠ some item := by
  -- Every party that does not hold the item adds nothing to the sum.
  simp [holders]

/-- A party that lets go of one item and takes another moves the count of both. -/
theorem holders_update [DecidableEq ι] (held : ι → Option ρ) (party : ι) (now : Option ρ) (item : ρ) :
    holders (Function.update held party now) item + (if held party = some item then 1 else 0) =
      holders held item + if now = some item then 1 else 0 := by
  -- What the parties add changes at the one party only.
  have point : (fun other => if Function.update held party now other = some item then 1 else 0) =
      Function.update (fun other => if held other = some item then 1 else 0) party
        (if now = some item then 1 else 0) := by
    funext other
    by_cases same : other = party
    · rw [same, Function.update_self, Function.update_self]
    · rw [Function.update_of_ne same, Function.update_of_ne same]
  -- So the sums differ in the term of that party.
  have split := Finset.sum_erase_add Finset.univ
    (fun other => if held other = some item then 1 else 0) (Finset.mem_univ party)
  rw [holders, point, Finset.sum_update_of_mem (Finset.mem_univ party),
    Finset.sdiff_singleton_eq_erase, holders, ← split]
  omega

end Interleaving
