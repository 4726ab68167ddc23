import Mathlib.Data.List.Basic
import Mathlib.Data.List.Perm.Basic

/-! Tables of chains in which every item lies in the chain that its place names. -/

namespace Chained

universe u

variable {α : Type u} {place : α → Nat} {table : List (List α)} {i : Nat} {chain : List α}

/-- Every item of the table lies in the chain of its place. -/
def Placed (place : α → Nat) (table : List (List α)) : Prop :=
  ∀ i chain, table[i]? = some chain → ∀ a ∈ chain, place a = i

/-- A table is what stands before a chain, the chain, and what stands behind it. -/
theorem split_at (found : table[i]? = some chain) :
    table = table.take i ++ chain :: table.drop (i + 1) := by
  obtain ⟨inside, rfl⟩ := List.getElem?_eq_some_iff.mp found
  rw [List.getElem_cons_drop, List.take_append_drop]

/-- With another chain at one place, the other chains stay as they were. -/
theorem set_split_at (found : table[i]? = some chain) (other : List α) :
    table.set i other = table.take i ++ other :: table.drop (i + 1) := by
  obtain ⟨inside, -⟩ := List.getElem?_eq_some_iff.mp found
  exact List.set_eq_take_append_cons_drop.trans (if_pos inside)

/-- A table of empty chains has its items placed. -/
theorem placed_replicate (n : Nat) : Placed place (List.replicate n []) := by
  intro i chain found a inside
  rw [List.getElem?_replicate] at found
  split_ifs at found
  cases found
  exact absurd inside List.not_mem_nil

/-- A chain whose items are all of one place may stand there. -/
theorem Placed.set (placed : Placed place table) {other : List α}
    (all : ∀ a ∈ other, place a = i) : Placed place (table.set i other) := by
  intro j found is a inside
  rw [List.getElem?_set] at is
  split_ifs at is with same within
  · -- The chain that was put there.
    cases is
    exact same ▸ all a inside
  · -- A chain that was there before.
    exact placed j found is a inside

/-- An item of the table is found in the chain of its place. -/
theorem Placed.mem_flatten_iff (placed : Placed place table) {a : α}
    (found : table[place a]? = some chain) : a ∈ table.flatten ↔ a ∈ chain := by
  constructor
  · intro inside
    obtain ⟨other, among, within⟩ := List.mem_flatten.mp inside
    obtain ⟨j, is⟩ := List.mem_iff_getElem?.mp among
    -- The chain it lies in is the one of its place.
    have same := placed j other is a within
    rw [same, is] at found
    cases found
    exact within
  · intro within
    exact List.mem_flatten.mpr ⟨chain, List.mem_of_getElem? found, within⟩

/-- The items of one place are those of the chain there. -/
theorem Placed.filter_flatten (placed : Placed place table) (found : table[i]? = some chain) :
    table.flatten.filter (fun a => decide (place a = i)) = chain := by
  -- No chain before or behind has items of that place.
  have before : (table.take i).flatten.filter (fun a => decide (place a = i)) = [] := by
    rw [List.filter_eq_nil_iff]
    intro a inside
    obtain ⟨other, among, within⟩ := List.mem_flatten.mp inside
    obtain ⟨j, is⟩ := List.mem_iff_getElem?.mp among
    rw [List.getElem?_take] at is
    split_ifs at is with earlier
    have here := placed j other is a within
    simp only [decide_eq_true_eq]
    omega
  have behind : (table.drop (i + 1)).flatten.filter (fun a => decide (place a = i)) = [] := by
    rw [List.filter_eq_nil_iff]
    intro a inside
    obtain ⟨other, among, within⟩ := List.mem_flatten.mp inside
    obtain ⟨j, is⟩ := List.mem_iff_getElem?.mp among
    rw [List.getElem?_drop] at is
    have here := placed (i + 1 + j) other is a within
    simp only [decide_eq_true_eq]
    omega
  have all : chain.filter (fun a => decide (place a = i)) = chain := by
    rw [List.filter_eq_self]
    intro a inside
    simp [placed i chain found a inside]
  conv_lhs => rw [split_at found]
  rw [List.flatten_append, List.flatten_cons, List.filter_append, List.filter_append, before, all,
    behind, List.nil_append, List.append_nil]

/-- Up to order, a table is one of its chains and the table without it. -/
theorem flatten_perm (found : table[i]? = some chain) :
    table.flatten.Perm (chain ++ (table.set i []).flatten) := by
  rw [set_split_at found]
  conv_lhs => rw [split_at found]
  simp only [List.flatten_append, List.flatten_cons, List.nil_append]
  exact List.perm_append_comm_assoc _ _ _

/-- Up to order, a table with another chain at one place is that chain and the table without any there. -/
theorem flatten_set_perm (found : table[i]? = some chain) (other : List α) :
    (table.set i other).flatten.Perm (other ++ (table.set i []).flatten) := by
  have is : (table.set i other)[i]? = some other := by
    obtain ⟨inside, -⟩ := List.getElem?_eq_some_iff.mp found
    rw [List.getElem?_set_self inside]
  have perm := flatten_perm is
  rwa [List.set_set] at perm

/-- A filter by one of two tests that exclude each other gives what both give. -/
theorem filter_perm_append (l : List α) {p q r : α → Bool}
    (either : ∀ a ∈ l, r a = (p a || q a)) (apart : ∀ a ∈ l, p a = true → q a = false) :
    (l.filter r).Perm (l.filter p ++ l.filter q) := by
  induction l with
  | nil => exact .refl _
  | cons a rest ih =>
    obtain ⟨here, later⟩ := List.forall_mem_cons.mp either
    obtain ⟨here', later'⟩ := List.forall_mem_cons.mp apart
    have perm := ih later later'
    cases first : p a with
    | true =>
      -- What passes the first test does not pass the second one.
      simp only [List.filter_cons, here, first, here' first, Bool.true_or, if_true, Bool.false_eq_true,
        if_false, List.cons_append]
      exact perm.cons a
    | false =>
      cases second : q a with
      | true =>
        simp only [List.filter_cons, here, first, second, Bool.or_true, if_true, Bool.false_eq_true,
          if_false]
        exact (perm.cons a).trans List.perm_middle.symm
      | false =>
        simp only [List.filter_cons, here, first, second, Bool.or_false, Bool.false_eq_true, if_false]
        exact perm

section Changed

variable {has : α → Prop} {other : List α}

/-- Exchanging a chain for one that has an item as well leaves the item in the table or out of it. -/
theorem exists_flatten_set_iff (found : table[i]? = some chain)
    (same : (∃ a ∈ other, has a) ↔ ∃ a ∈ chain, has a) :
    (∃ a ∈ (table.set i other).flatten, has a) ↔ ∃ a ∈ table.flatten, has a := by
  have new : (∃ a ∈ (table.set i other).flatten, has a) ↔
      (∃ a ∈ other, has a) ∨ ∃ a ∈ (table.set i []).flatten, has a := by
    simp only [(flatten_set_perm found other).mem_iff, List.mem_append, or_and_right, exists_or]
  have old : (∃ a ∈ table.flatten, has a) ↔
      (∃ a ∈ chain, has a) ∨ ∃ a ∈ (table.set i []).flatten, has a := by
    simp only [(flatten_perm found).mem_iff, List.mem_append, or_and_right, exists_or]
  rw [new, old, same]

/-- And in the chains from a place on or out of them. -/
theorem exists_flatten_drop_set_iff (found : table[i]? = some chain)
    (same : (∃ a ∈ other, has a) ↔ ∃ a ∈ chain, has a) (n : Nat) :
    (∃ a ∈ ((table.set i other).drop n).flatten, has a) ↔ ∃ a ∈ (table.drop n).flatten, has a := by
  rw [List.drop_set]
  split_ifs with passed
  · rfl
  · apply exists_flatten_set_iff _ same
    rw [List.getElem?_drop, Nat.add_sub_cancel' (by omega), found]

variable {skip : α → Bool} {a : α} {before after : List α}

/-- Taking out an item that is skipped takes no other one out of what is left behind the skipped ones. -/
theorem exists_dropWhile_remove_iff (skipped : skip a = true) (other : ¬has a) :
    (∃ b ∈ (before ++ after).dropWhile skip, has b) ↔
      ∃ b ∈ (before ++ a :: after).dropWhile skip, has b := by
  induction before with
  | nil => rw [List.nil_append, List.nil_append, List.dropWhile_cons_of_pos skipped]
  | cons first rest ih =>
    cases passes : skip first with
    | true => rwa [List.cons_append, List.cons_append, List.dropWhile_cons_of_pos passes,
        List.dropWhile_cons_of_pos passes]
    | false =>
      -- Nothing is skipped here, so both chains are left whole.
      rw [List.cons_append, List.cons_append, List.dropWhile_cons_of_neg (by simp [passes]),
        List.dropWhile_cons_of_neg (by simp [passes])]
      simp [or_and_right, exists_or, other]

/-- Nor does it matter to put an item in its place that is skipped just when it is. -/
theorem exists_dropWhile_replace_iff {b : α} (skipped : skip b = skip a) (same : has b ↔ has a) :
    (∃ c ∈ (before ++ b :: after).dropWhile skip, has c) ↔
      ∃ c ∈ (before ++ a :: after).dropWhile skip, has c := by
  induction before with
  | nil =>
    simp only [List.nil_append, List.dropWhile_cons, skipped]
    split_ifs
    · rfl
    · simp [same]
  | cons first rest ih =>
    cases passes : skip first with
    | true => rwa [List.cons_append, List.cons_append, List.dropWhile_cons_of_pos passes,
        List.dropWhile_cons_of_pos passes]
    | false =>
      rw [List.cons_append, List.cons_append, List.dropWhile_cons_of_neg (by simp [passes]),
        List.dropWhile_cons_of_neg (by simp [passes])]
      simp [or_and_right, exists_or, same]

end Changed

section Walk

variable {p : α → Bool}

/-- The walk along a chain to the first item that passes a test: what is before it, the item, and the rest. -/
def walk (p : α → Bool) : List α → Option (List α × α × List α)
  | [] => none
  | a :: rest =>
    if p a then some ([], a, rest) else (walk p rest).map fun found => (a :: found.1, found.2)

/-- A walk that stops does so at an item of the chain that passes. -/
theorem walk_some {before after : List α} {a : α} (found : walk p chain = some (before, a, after)) :
    chain = before ++ a :: after ∧ p a = true := by
  induction chain generalizing before with
  | nil => cases found
  | cons first rest ih =>
    rw [walk] at found
    split_ifs at found with passes
    · cases found
      exact ⟨rfl, passes⟩
    · -- The walk goes on past the first item.
      obtain ⟨⟨before', a', after'⟩, later, same⟩ := Option.map_eq_some_iff.mp found
      cases same
      obtain ⟨rfl, passes'⟩ := ih later
      exact ⟨rfl, passes'⟩

/-- A walk comes to the end of the chain when no item passes. -/
theorem walk_eq_none_iff : walk p chain = none ↔ ∀ a ∈ chain, p a = false := by
  induction chain with
  | nil => simp [walk]
  | cons first rest ih =>
    by_cases passes : p first = true <;> simp [walk, passes, ih]

end Walk

end Chained
