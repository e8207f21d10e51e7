import Mathlib.Data.List.DropRight

namespace Raas.Data

/-! Trimming blanks off both ends of a list, and cutting it at its first separator. -/

variable {blank : α → Bool} {items front back : List α} {item : α}

def trimmed (blank : α → Bool) (items : List α) : List α := (items.dropWhile blank).rdropWhile blank

theorem rdropWhile_cons : (item :: items).rdropWhile blank =
    if (items.rdropWhile blank).isEmpty && blank item then [] else item :: items.rdropWhile blank := by
  unfold List.rdropWhile
  rw [List.reverse_cons, List.dropWhile_append, List.isEmpty_reverse]
  cases rest : (items.reverse.dropWhile blank).isEmpty with
  | true =>
      have empty := List.isEmpty_iff.mp rest
      cases here : blank item with
      | true => simp [here]
      | false => simp [here, empty]
  | false => simp

theorem dropWhile_rdropWhile :
    (items.rdropWhile blank).dropWhile blank = (items.dropWhile blank).rdropWhile blank := by
  induction items with
  | nil => simp
  | cons item items ih =>
      rw [rdropWhile_cons, List.dropWhile_cons]
      cases here : blank item with
      | true =>
          cases rest : (items.rdropWhile blank).isEmpty with
          | true =>
              rw [List.isEmpty_iff.mp rest] at ih
              simpa using ih
          | false => simpa [here] using ih
      | false => simp [here, rdropWhile_cons]

theorem trimmed_dropWhile : trimmed blank (items.dropWhile blank) = trimmed blank items := by
  unfold trimmed
  rw [List.dropWhile_idempotent]

theorem trimmed_rdropWhile : trimmed blank (items.rdropWhile blank) = trimmed blank items := by
  unfold trimmed
  rw [dropWhile_rdropWhile, List.rdropWhile_idempotent]

theorem trimmed_trimmed : trimmed blank (trimmed blank items) = trimmed blank items := by
  have inner : trimmed blank ((items.dropWhile blank).rdropWhile blank) = trimmed blank items := by
    rw [trimmed_rdropWhile, trimmed_dropWhile]
  exact inner

theorem dropWhile_before (solid : blank item = false) :
    (front ++ item :: back).dropWhile blank = front.dropWhile blank ++ item :: back := by
  induction front with
  | nil => simp [solid]
  | cons first front ih =>
      rw [List.cons_append, List.dropWhile_cons, List.dropWhile_cons, ih]
      cases blank first <;> rfl

theorem rdropWhile_behind (solid : blank item = false) :
    (front ++ item :: back).rdropWhile blank = front ++ item :: back.rdropWhile blank := by
  induction front with
  | nil => rw [List.nil_append, List.nil_append, rdropWhile_cons, solid, Bool.and_false, if_neg Bool.false_ne_true]
  | cons first front ih =>
      have present : (front ++ item :: back.rdropWhile blank).isEmpty = false := by simp
      rw [List.cons_append, rdropWhile_cons, ih, present, Bool.false_and, if_neg Bool.false_ne_true, List.cons_append]

/-- Nothing is trimmed off on the inner sides of an item that is no blank. -/
theorem trimmed_between (solid : blank item = false) :
    trimmed blank (front ++ item :: back) = front.dropWhile blank ++ item :: back.rdropWhile blank := by
  rw [trimmed, dropWhile_before solid, rdropWhile_behind solid]

/-- What is trimmed off is blank. -/
theorem trimmed_split (blank : α → Bool) (items : List α) : ∃ before after,
    items = before ++ (trimmed blank items ++ after) ∧ (∀ item ∈ before, blank item = true) ∧
      ∀ item ∈ after, blank item = true :=
  ⟨items.takeWhile blank, (items.dropWhile blank).rtakeWhile blank, by
    rw [trimmed, List.rdropWhile_append_rtakeWhile, List.takeWhile_append_dropWhile],
    fun _ => List.mem_takeWhile_imp, fun _ => List.mem_rtakeWhile_imp⟩

theorem mem_of_mem_trimmed (member : item ∈ trimmed blank items) : item ∈ items := by
  obtain ⟨before, after, whole, _, _⟩ := trimmed_split blank items
  rw [whole]
  exact List.mem_append_right _ (List.mem_append_left _ member)

theorem trimmed_padded {before after : List α} (left : ∀ item ∈ before, blank item = true)
    (solid : ∀ item ∈ items, blank item = false) (right : ∀ item ∈ after, blank item = true) :
    trimmed blank (before ++ (items ++ after)) = items := by
  have trailing : after.rdropWhile blank = [] := List.rdropWhile_eq_nil_iff.mpr right
  rw [trimmed, List.dropWhile_append_of_pos left]
  cases items with
  | nil => rw [List.nil_append, List.dropWhile_eq_nil_iff.mpr right, List.rdropWhile_nil]
  | cons first rest =>
      have start : blank first = false := solid first List.mem_cons_self
      rw [List.cons_append, List.dropWhile_cons_of_neg (by rw [start]; exact Bool.false_ne_true)]
      have last := (first :: rest).dropLast_append_getLast (List.cons_ne_nil first rest)
      have ending := solid _ (List.getLast_mem (List.cons_ne_nil first rest))
      rw [← List.cons_append, ← last, List.append_assoc]
      simp only [List.singleton_append]
      rw [rdropWhile_behind ending, trailing]

/-! The front and the back of a list, cut at its first separator. -/

variable {separator : α → Bool}

theorem takeWhile_before (clean : ∀ item ∈ front, separator item = true) (stops : separator item = false) :
    (front ++ item :: back).takeWhile separator = front := by
  rw [List.takeWhile_append_of_pos clean, List.takeWhile_cons_of_neg (by rw [stops]; exact Bool.false_ne_true),
    List.append_nil]

theorem dropWhile_stops (stopped : items.dropWhile separator = item :: back) : separator item = false := by
  have failing := List.head_dropWhile_not separator (l := items) (by rw [stopped]; exact List.cons_ne_nil _ _)
  simpa [stopped] using failing

end Raas.Data
