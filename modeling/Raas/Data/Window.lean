import Mathlib.Data.List.Basic

namespace Raas.Data

/-! Half-open windows of a list.

`window values start stop` is what a positional reader of `values` owes for the
interval `[start, stop)`: positions past the end contribute nothing, and a
reversed interval is empty.
-/

def window (values : List α) (start stop : Nat) : List α :=
  (values.drop start).take (stop - start)

theorem getElem?_window (values : List α) (start stop index : Nat) :
    (window values start stop)[index]? =
      if start + index < stop then values[start + index]? else none := by
  unfold window
  by_cases inside : start + index < stop
  · rw [if_pos inside, List.getElem?_take_of_lt (by omega), List.getElem?_drop]
  · rw [if_neg inside]
    exact List.getElem?_take_eq_none (by omega)

theorem window_length (values : List α) (start stop : Nat) :
    (window values start stop).length = min stop values.length - start := by
  simp only [window, List.length_take, List.length_drop]
  omega

theorem window_length_of_le {values : List α} (start : Nat) {stop : Nat} (fits : stop ≤ values.length) :
    (window values start stop).length = stop - start := by
  rw [window_length, Nat.min_eq_left fits]

@[simp] theorem window_self (values : List α) (position : Nat) :
    window values position position = [] := by
  simp [window]

theorem window_of_le {values : List α} {start stop : Nat} (reversed : stop ≤ start) :
    window values start stop = [] := by
  simp [window, Nat.sub_eq_zero_of_le reversed]

theorem window_all (values : List α) : window values 0 values.length = values := by
  simp [window]

theorem window_append {values : List α} {start middle stop : Nat}
    (lower : start ≤ middle) (upper : middle ≤ stop) :
    window values start middle ++ window values middle stop = window values start stop := by
  unfold window
  have shifted : values.drop middle = (values.drop start).drop (middle - start) := by
    rw [List.drop_drop, Nat.add_sub_cancel' lower]
  have total : stop - start = (middle - start) + (stop - middle) := by omega
  rw [shifted, total, List.take_add]

theorem window_clip (values : List α) (start stop : Nat) :
    window values (min start values.length) (min stop values.length) =
      window values start stop := by
  apply List.ext_getElem?
  intro index
  rw [getElem?_window, getElem?_window]
  by_cases past : values.length ≤ start
  · rw [Nat.min_eq_right past]
    have outside : values[start + index]? = none := List.getElem?_eq_none (by omega)
    rw [if_neg (by omega), outside]
    split <;> rfl
  · rw [Nat.min_eq_left (by omega)]
    by_cases inside : start + index < values.length
    · simp only [Nat.lt_min, inside, and_true]
    · rw [List.getElem?_eq_none (by omega)]
      split <;> split <;> rfl

/-- A window that stays inside the middle one of three pieces. -/
theorem window_middle (front piece back : List α) (first last : Nat)
    (inside : last ≤ piece.length) :
    window (front ++ piece ++ back) (front.length + first) (front.length + last) =
      window piece first last := by
  unfold window
  have width : front.length + last - (front.length + first) = last - first := by omega
  rw [List.append_assoc, ← List.drop_drop, List.drop_left, width]
  by_cases past : last ≤ first
  · simp [Nat.sub_eq_zero_of_le past]
  · rw [List.drop_append_of_le_length (by omega)]
    exact List.take_append_of_le_length (by simp only [List.length_drop]; omega)

end Raas.Data
