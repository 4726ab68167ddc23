import Mathlib.Data.List.Rotate

/-! Reading and overwriting a fixed list of cells that is met again from its end on. -/

namespace Cyclic

universe u

variable {α : Type u}

/-- The cells met from `start` on, going round the end of the list at most once. -/
def window (cells : List α) (start len : Nat) : List α := (cells.rotate start).take len

/-- The cells with a run of new values laid over the old ones from one position on. -/
def overwrite (cells : List α) (place : Nat) (values : List α) : List α :=
  cells.take place ++ values ++ cells.drop (place + values.length)

/-- A position below two rounds is its own remainder, or lies one round beyond it. -/
theorem mod_cases {a n : Nat} (below : a < 2 * n) :
    (a < n ∧ a % n = a) ∨ (n ≤ a ∧ a % n = a - n) := by
  rcases Nat.lt_or_ge a n with inside | beyond
  · exact .inl ⟨inside, Nat.mod_eq_of_lt inside⟩
  · refine .inr ⟨beyond, ?_⟩
    rw [Nat.mod_eq_sub_mod beyond, Nat.mod_eq_of_lt (by omega)]

/-- A window no longer than one round has exactly the length asked for. -/
theorem length_window {cells : List α} {start len : Nat} (fits : len ≤ cells.length) :
    (window cells start len).length = len := by
  simp [window, fits]

/-- A window of no cells is empty. -/
@[simp] theorem window_zero (cells : List α) (start : Nat) : window cells start 0 = [] := by
  simp [window]

/-- Each position of a window reads the cell that many places after its start. -/
theorem getElem?_window {cells : List α} {start len i : Nat} (fits : len ≤ cells.length)
    (within : i < len) :
    (window cells start len)[i]? = cells[(i + start) % cells.length]? := by
  -- The window is the front of the rotated list, whose cells are counted round the end.
  rw [window, List.getElem?_take_of_lt within, List.getElem?_rotate (by omega)]

/-- The first part of a window is a shorter window from the same start. -/
theorem take_window (cells : List α) (start len k : Nat) :
    (window cells start len).take k = window cells start (min k len) := by
  simp [window, List.take_take]

/-- What is left of a window after its first cells is a window that starts after them. -/
theorem drop_window {cells : List α} {start len k : Nat} (fits : len ≤ cells.length)
    (inside : k ≤ len) :
    (window cells start len).drop k = window cells ((start + k) % cells.length) (len - k) := by
  apply List.ext_getElem?
  intro i
  rw [List.getElem?_drop]
  -- Both sides read the cell `k + i` places after the old start, while there is one.
  rcases Nat.lt_or_ge i (len - k) with within | past
  · -- Counting round the end once or in two parts comes to the same cell.
    rw [getElem?_window fits (by omega), getElem?_window (by omega) within, Nat.add_mod_mod]
    congr 2
    omega
  · -- Behind the last cell both sides are empty.
    rw [List.getElem?_eq_none (by rw [length_window fits]; omega),
      List.getElem?_eq_none (by rw [length_window (by omega)]; exact past)]

/-- A window that ends before the last cell is a plain stretch of the list. -/
theorem window_eq_take_drop (cells : List α) (start len : Nat)
    (straight : start + len ≤ cells.length) :
    window cells start len = (cells.drop start).take len := by
  -- Rotating moves the first cells behind the end, which such a window does not reach.
  rw [window, List.rotate_eq_drop_append_take (by omega), List.take_append_of_le_length]
  rw [List.length_drop]
  omega

/-- A window is its first cells followed by the window that starts after them. -/
theorem window_split (cells : List α) (start len k : Nat) (fits : len ≤ cells.length)
    (inside : k ≤ len) :
    window cells start len =
      window cells start k ++ window cells ((start + k) % cells.length) (len - k) := by
  -- The two parts are what taking and dropping the first cells leave.
  rw [← drop_window fits inside, ← Nat.min_eq_left inside, ← take_window, Nat.min_eq_left inside,
    List.take_append_drop]

/-- Laying values over cells that exist keeps the number of cells. -/
theorem length_overwrite {cells : List α} {place : Nat} {values : List α}
    (fits : place + values.length ≤ cells.length) :
    (overwrite cells place values).length = cells.length := by
  simp only [overwrite, List.length_append, List.length_take, List.length_drop]
  omega

/-- Cells up to the end of the overwritten stretch are the old ones and then the values. -/
theorem take_overwrite (cells : List α) (place : Nat) (values : List α)
    (inside : place ≤ cells.length) :
    (overwrite cells place values).take (place + values.length) = cells.take place ++ values := by
  rw [overwrite, List.take_append_of_le_length (by simp; omega), List.take_of_length_le]
  simp [inside]

/-- Inside the overwritten stretch the new values are read. -/
theorem getElem?_overwrite_inside {cells : List α} {place i : Nat} {values : List α}
    (fits : place + values.length ≤ cells.length) (after : place ≤ i)
    (before : i < place + values.length) :
    (overwrite cells place values)[i]? = values[i - place]? := by
  -- The old cells in front take up just the places before the stretch.
  have width : (cells.take place).length = place := by rw [List.length_take]; omega
  rw [overwrite, List.getElem?_append_left (by rw [List.length_append, width]; exact before),
    List.getElem?_append_right (by rw [width]; exact after), width]

/-- Outside the overwritten stretch the old cells are read. -/
theorem getElem?_overwrite_outside {cells : List α} {place i : Nat} {values : List α}
    (fits : place + values.length ≤ cells.length)
    (outside : i < place ∨ place + values.length ≤ i) :
    (overwrite cells place values)[i]? = cells[i]? := by
  have width : (cells.take place).length = place := by rw [List.length_take]; omega
  rcases outside with before | after
  · -- Before the stretch, the cell is one of those in front of the values.
    rw [overwrite, List.append_assoc, List.getElem?_append_left (by rw [width]; exact before),
      List.getElem?_take_of_lt before]
  · -- Behind the stretch, it is one of those that come after them.
    rw [overwrite, List.getElem?_append_right (by rw [List.length_append, width]; exact after),
      List.getElem?_drop, List.length_append, width]
    congr 1
    omega

/-- Values laid over a stretch and then right behind it are laid over both at once. -/
theorem overwrite_append {cells : List α} {place : Nat} (first second : List α)
    (inside : place ≤ cells.length) :
    overwrite (overwrite cells place first) (place + first.length) second =
      overwrite cells place (first ++ second) := by
  -- The first stretch ends where the second one starts.
  have width : (cells.take place ++ first).length = place + first.length := by simp [inside]
  -- Behind the second stretch, the first one has left the cells as they were.
  have behind : (overwrite cells place first).drop (place + first.length + second.length) =
      cells.drop (place + first.length + second.length) := by
    rw [overwrite, List.drop_append, width, List.drop_eq_nil_of_le (by omega), List.nil_append,
      List.drop_drop]
    congr 1
    omega
  rw [overwrite, take_overwrite cells place first inside, behind, overwrite, List.length_append,
    Nat.add_assoc, List.append_assoc _ first]

/-- What is left behind some cells is overwritten by the values that reach over them. -/
theorem drop_overwrite {cells values : List α} {place k : Nat}
    (fits : place + values.length ≤ cells.length) (before : place ≤ k) :
    (overwrite cells place values).drop k = overwrite (cells.drop k) 0 (values.drop (k - place)) := by
  -- The cells in front of the values go whole, with the values that lie before `k`.
  have width : (cells.take place).length = place := by simp; omega
  rw [overwrite, List.append_assoc, List.drop_append, width, List.drop_append, List.drop_drop,
    List.drop_eq_nil_of_le (by omega : (cells.take place).length ≤ k)]
  simp only [overwrite, List.take_zero, List.nil_append, List.drop_drop, List.length_drop]
  congr 2
  omega

/-- Values laid over the first cells change nothing just when they stood there before. -/
theorem overwrite_zero_eq_self_iff {cells values : List α} :
    overwrite cells 0 values = cells ↔ values <+: cells := by
  simp only [overwrite, List.take_zero, List.nil_append, Nat.zero_add]
  constructor
  · -- The cells are then the values and what comes behind them.
    intro same
    exact ⟨_, same⟩
  · rintro ⟨rest, rfl⟩
    rw [List.drop_left]

/-- Seen once round from `start`, values are laid over the cells as far on as in the list. -/
theorem window_overwrite {cells values : List α} {start len : Nat} (head : start < cells.length)
    (room : len + values.length ≤ cells.length)
    (fits : (start + len) % cells.length + values.length ≤ cells.length) :
    window (overwrite cells ((start + len) % cells.length) values) start cells.length =
      overwrite (window cells start cells.length) len values := by
  -- The two sides are compared cell by cell, and the length of the list stays.
  have same := length_overwrite fits
  have round : (window cells start cells.length).length = cells.length := length_window (Nat.le_refl _)
  apply List.ext_getElem?
  intro i
  rcases Nat.lt_or_ge i cells.length with within | past
  · -- Neither the end of the window nor the position goes round more than once.
    have ends := mod_cases (a := start + len) (n := cells.length) (by omega)
    have here := mod_cases (a := i + start) (n := cells.length) (by omega)
    rw [getElem?_window (by omega) within, same]
    -- A position is among the new values in the list just when it is so in the window.
    by_cases new : len ≤ i ∧ i < len + values.length
    · rw [getElem?_overwrite_inside fits (by omega) (by omega),
        getElem?_overwrite_inside (by omega) new.1 new.2]
      congr 1
      omega
    · rw [getElem?_overwrite_outside fits (by omega),
        getElem?_overwrite_outside (by omega) (by omega), getElem?_window (Nat.le_refl _) within]
  · rw [List.getElem?_eq_none (by rw [length_window (by omega)]; exact past),
      List.getElem?_eq_none (by rw [length_overwrite (by omega), round]; exact past)]

/-- Values laid over the cells right after a window are appended to it. -/
theorem window_overwrite_append {cells values : List α} {start len place : Nat}
    (head : start < cells.length) (room : len + values.length ≤ cells.length)
    (next : place = (start + len) % cells.length)
    (fits : place + values.length ≤ cells.length) :
    window (overwrite cells place values) start (len + values.length) =
      window cells start len ++ values := by
  -- Both windows are the first part of the one that goes once round.
  have short : ∀ (others : List α) {k : Nat}, k ≤ cells.length →
      window others start k = (window others start cells.length).take k := by
    intro others k fits
    rw [take_window, Nat.min_eq_left fits]
  -- Once round, the values are laid right behind the first `len` cells.
  subst next
  rw [short _ room, window_overwrite head room fits,
    take_overwrite _ _ _ (by rw [length_window (Nat.le_refl _)]; omega), ← short _ (by omega)]

end Cyclic
