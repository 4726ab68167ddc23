import Mathlib.Data.List.Basic

/-! Lists that entries of one width are laid out in, and what an entry that is cut short does to them. -/

namespace Entries

universe u v

variable {α : Type u} {β : Type v} {encode : α → List β} {width : Nat}

/-- Entries take up their width each. -/
theorem length_flatMap (fixed : ∀ a, (encode a).length = width) (entries : List α) :
    (entries.flatMap encode).length = width * entries.length := by
  induction entries with
  | nil => rfl
  | cons a rest ih =>
    rw [List.flatMap_cons, List.length_append, ih, fixed, List.length_cons, Nat.mul_succ,
      Nat.add_comm]

/-- A width that is not missing is that of the first entry. -/
theorem take_flatMap (fixed : ∀ a, (encode a).length = width) (positive : 0 < width)
    {entries : List α} (enough : width ≤ (entries.flatMap encode).length) :
    ∃ a, entries.head? = some a ∧ (entries.flatMap encode).take width = encode a := by
  cases entries with
  | nil => exact absurd enough (Nat.not_le.mpr positive)
  | cons a rest =>
    refine ⟨a, rfl, ?_⟩
    rw [List.flatMap_cons]
    exact List.take_left' (fixed a)

/-- Behind it come the other entries. -/
theorem drop_flatMap (fixed : ∀ a, (encode a).length = width) (entries : List α) :
    (entries.flatMap encode).drop width = entries.tail.flatMap encode := by
  cases entries with
  | nil => exact List.drop_nil
  | cons a rest =>
    rw [List.flatMap_cons]
    exact List.drop_left' (fixed a)

/-- The front of an entry makes whole entries with those before it just when it is all of it or nothing. -/
theorem append_take_iff (fixed : ∀ a, (encode a).length = width) (entries : List α) (a : α)
    (n : Nat) :
    entries.flatMap encode ++ (encode a).take n =
        (if width ≤ n then entries ++ [a] else entries).flatMap encode ↔
      n = 0 ∨ width ≤ n := by
  by_cases all : width ≤ n
  · rw [if_pos all, List.flatMap_append, List.flatMap_singleton,
      List.take_of_length_le (by rw [fixed]; exact all)]
    exact iff_of_true rfl (.inr all)
  · rw [if_neg all, List.append_right_eq_self, List.take_eq_nil_iff]
    constructor
    · rintro (none_ | empty)
      · exact .inl none_
      · -- An entry without a width fits anywhere.
        have zero : width = 0 := by rw [← fixed a, empty, List.length_nil]
        exact .inr (by omega)
    · rintro (none_ | all')
      · exact .inl none_
      · exact absurd all' all

end Entries
