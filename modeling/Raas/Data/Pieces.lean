import Mathlib.Data.List.Basic

namespace Raas.Data

/-! The pieces of a list between the occurrences of a mark. -/

section Pieces

variable [BEq α] [LawfulBEq α] {mark : α} {items : List α} {pieces : List (List α)}

theorem not_mem_piece : ∀ piece ∈ items.splitOn mark, mark ∉ piece := by
  induction items with
  | nil => simp
  | cons item items ih =>
      rw [List.splitOn_cons_eq_if_modifyHead]
      by_cases marked : item = mark
      · rw [if_pos (beq_iff_eq.mpr marked), List.forall_mem_cons]
        exact ⟨List.not_mem_nil, ih⟩
      · rw [if_neg (by simpa using marked)]
        cases split : items.splitOn mark with
        | nil => simp
        | cons first others =>
            rw [split, List.forall_mem_cons] at ih
            rw [List.modifyHead_cons, List.forall_mem_cons]
            refine ⟨?_, ih.2⟩
            rw [List.mem_cons, not_or]
            exact ⟨fun same => marked same.symm, ih.1⟩

/-- Joining and cutting again leaves the pieces of the pieces. -/
theorem splitOn_intercalate_flatMap (nonempty : pieces ≠ []) :
    (List.intercalate [mark] pieces).splitOn mark = pieces.flatMap fun piece => piece.splitOn mark := by
  induction pieces with
  | nil => exact absurd rfl nonempty
  | cons first rest ih =>
      cases rest with
      | nil => simp
      | cons second rest =>
          rw [List.intercalate_cons_cons, List.append_assoc, List.singleton_append, List.splitOn_append_cons_self,
            ih (List.cons_ne_nil _ _)]
          exact List.flatMap_cons.symm

end Pieces

theorem splitOn_map [BEq α] [LawfulBEq α] [BEq β] [LawfulBEq β] {change : α → β} {mark : α} {target : β}
    {items : List α} (marks : ∀ item ∈ items, change item = target ↔ item = mark) :
    (items.map change).splitOn target = (items.splitOn mark).map (List.map change) := by
  induction items with
  | nil => rfl
  | cons item items ih =>
      rw [List.forall_mem_cons] at marks
      rw [List.map_cons, List.splitOn_cons_eq_if_modifyHead, List.splitOn_cons_eq_if_modifyHead, ih marks.2]
      by_cases marked : item = mark
      · rw [if_pos (beq_iff_eq.mpr (marks.1.mpr marked)), if_pos (beq_iff_eq.mpr marked)]
        rfl
      · have kept : ¬ (change item == target) = true := by simpa [marks.1] using marked
        rw [if_neg kept, if_neg (by simpa using marked)]
        cases items.splitOn mark with
        | nil => rfl
        | cons first others => rfl

theorem map_intercalate (change : α → β) (mark : α) (pieces : List (List α)) :
    (List.intercalate [mark] pieces).map change = List.intercalate [change mark] (pieces.map (List.map change)) := by
  induction pieces with
  | nil => rfl
  | cons first rest ih =>
      cases rest with
      | nil => simp
      | cons second rest =>
          rw [List.map_cons, List.map_cons, List.intercalate_cons_cons, List.intercalate_cons_cons, ← List.map_cons,
            ← ih, List.map_append, List.map_append, List.map_singleton]

theorem mem_intercalate {mark item : α} {pieces : List (List α)} (member : item ∈ List.intercalate [mark] pieces) :
    item = mark ∨ ∃ piece ∈ pieces, item ∈ piece := by
  induction pieces with
  | nil => simp at member
  | cons first rest ih =>
      cases rest with
      | nil => exact .inr ⟨first, List.mem_cons_self, by simpa using member⟩
      | cons second rest =>
          rw [List.intercalate_cons_cons, List.mem_append, List.mem_append, List.mem_singleton] at member
          rcases member with (here | same) | later
          · exact .inr ⟨first, List.mem_cons_self, here⟩
          · exact .inl same
          · rcases ih later with same | ⟨piece, inside, found⟩
            · exact .inl same
            · exact .inr ⟨piece, List.mem_cons_of_mem _ inside, found⟩

theorem intercalate_join {mark : α} {front back : List (List α)} (before : front ≠ []) (behind : back ≠ []) :
    List.intercalate [mark] (front ++ back) = List.intercalate [mark] front ++ mark :: List.intercalate [mark] back := by
  induction front with
  | nil => exact absurd rfl before
  | cons first front ih =>
      cases front with
      | nil =>
          rw [List.singleton_append, List.intercalate_cons_of_ne_nil behind, List.intercalate_singleton,
            List.append_assoc, List.singleton_append]
      | cons second front =>
          rw [List.cons_append, List.intercalate_cons_of_ne_nil (by simp), ih (List.cons_ne_nil _ _),
            List.intercalate_cons_cons]
          simp

/-- A list goes on behind a mark exactly if its pieces go on. -/
theorem marked_prefix_iff [BEq α] [LawfulBEq α] {mark : α} {items other : List α} :
    items ++ [mark] <+: other ↔ ∃ more, more ≠ [] ∧ other.splitOn mark = items.splitOn mark ++ more := by
  constructor
  · intro extended
    obtain ⟨rest, rfl⟩ := extended
    refine ⟨rest.splitOn mark, List.splitOn_ne_nil _ _, ?_⟩
    rw [List.append_assoc, List.singleton_append, List.splitOn_append_cons_self]
  · intro extended
    obtain ⟨more, nonempty, pieces⟩ := extended
    have joined : other = List.intercalate [mark] (items.splitOn mark ++ more) := by
      rw [← pieces, List.intercalate_splitOn]
    rw [joined, intercalate_join (List.splitOn_ne_nil _ _) nonempty, List.intercalate_splitOn]
    exact ⟨List.intercalate [mark] more, by simp⟩

end Raas.Data
