import Mathlib.Data.List.Basic
import Mathlib.Data.List.Nodup

namespace Raas.Data

/-! Lists in which everything below an item stands in one block right behind it. -/

def Blocked (below : α → α → Prop) (items : List α) : Prop :=
  ∀ front item back, items = front ++ item :: back →
    ∃ block rest, back = block ++ rest ∧ (∀ other ∈ block, below item other) ∧ ∀ other ∈ front ++ rest, ¬ below item other

namespace Blocked

variable {below : α → α → Prop} {left right items : List α} {top item : α}

theorem nil : Blocked below [] := by
  intro front item back split
  simp at split

theorem cons (blocked : Blocked below items) (inside : ∀ other ∈ items, below top other)
    (above : ∀ other ∈ items, ¬ below other top) : Blocked below (top :: items) := by
  intro front item back split
  cases front with
  | nil =>
      rw [List.nil_append, List.cons.injEq] at split
      obtain ⟨rfl, rfl⟩ := split
      exact ⟨items, [], (List.append_nil _).symm, inside, by simp⟩
  | cons first front =>
      rw [List.cons_append, List.cons.injEq] at split
      obtain ⟨rfl, split⟩ := split
      obtain ⟨block, rest, cut, within, outside⟩ := blocked front item back split
      have member : item ∈ items := by simp [split]
      refine ⟨block, rest, cut, within, ?_⟩
      rw [List.cons_append, List.forall_mem_cons]
      exact ⟨above item member, outside⟩

theorem append (before : Blocked below left) (behind : Blocked below right)
    (apart : ∀ one ∈ left, ∀ other ∈ right, ¬ below one other ∧ ¬ below other one) : Blocked below (left ++ right) := by
  intro front item back split
  have later (skipped : List α) (place : front = left ++ skipped) (whole : right = skipped ++ item :: back) :
      ∃ block rest, back = block ++ rest ∧ (∀ other ∈ block, below item other) ∧
        ∀ other ∈ front ++ rest, ¬ below item other := by
    obtain ⟨block, rest, cut, within, outside⟩ := behind skipped item back whole
    have member : item ∈ right := by simp [whole]
    refine ⟨block, rest, cut, within, ?_⟩
    rw [place, List.append_assoc, List.forall_mem_append]
    exact ⟨fun other here => (apart other here item member).2, outside⟩
  rcases List.append_eq_append_iff.mp split with ⟨skipped, place, whole⟩ | ⟨kept, place, whole⟩
  · exact later skipped place whole
  · cases kept with
    | nil =>
        rw [List.append_nil] at place
        exact later [] (by rw [List.append_nil, place]) whole.symm
    | cons first kept =>
        rw [List.cons_append, List.cons.injEq] at whole
        obtain ⟨rfl, whole⟩ := whole
        obtain ⟨block, rest, cut, within, outside⟩ := before front item kept place
        have member : item ∈ left := by simp [place]
        refine ⟨block, rest ++ right, by rw [whole, cut, List.append_assoc], within, ?_⟩
        rw [← List.append_assoc, List.forall_mem_append]
        exact ⟨outside, fun other there => (apart item member other there).1⟩

theorem map {under : β → β → Prop} {image : α → β} (blocked : Blocked below items)
    (same : ∀ one ∈ items, ∀ other ∈ items, under (image one) (image other) ↔ below one other) :
    Blocked under (items.map image) := by
  intro front item back split
  obtain ⟨before, behind, rfl, rfl, whole⟩ := List.map_eq_append_iff.mp split
  obtain ⟨origin, after, rfl, rfl, rfl⟩ := List.map_eq_cons_iff.mp whole
  obtain ⟨block, rest, rfl, within, outside⟩ := blocked before origin after rfl
  refine ⟨block.map image, rest.map image, List.map_append, ?_, ?_⟩
  · rw [List.forall_mem_map]
    intro other member
    exact (same origin (by simp) other (by simp [member])).mpr (within other member)
  · rw [← List.map_append, List.forall_mem_map]
    intro other member under
    have listed : other ∈ before ++ origin :: (block ++ rest) := by
      rcases List.mem_append.mp member with first | last
      · simp [first]
      · simp [last]
    exact outside other member ((same origin (by simp) other listed).mp under)

/-- What is below an item comes after it. -/
theorem mem_front (blocked : Blocked below items) (distinct : items.Nodup) (member : top ∈ items)
    (under : below top item) (other : item ≠ top) {front back : List α} (split : items = front ++ item :: back) :
    top ∈ front := by
  obtain ⟨before, behind, whole⟩ := List.append_of_mem member
  obtain ⟨block, rest, cut, _, outside⟩ := blocked before top behind whole
  have listed : item ∈ before ++ top :: (block ++ rest) := by
    rw [← cut, ← whole, split]
    simp
  have inside : item ∈ block := by
    rcases List.mem_append.mp listed with first | last
    · exact absurd under (outside item (List.mem_append_left _ first))
    · rcases List.mem_cons.mp last with same | last
      · exact absurd same other
      · rcases List.mem_append.mp last with here | there
        · exact here
        · exact absurd under (outside item (List.mem_append_right _ there))
  obtain ⟨between, further, place⟩ := List.append_of_mem inside
  have again : items = (before ++ top :: between) ++ item :: (further ++ rest) := by
    rw [whole, cut, place]
    simp
  rw [split] at distinct again
  obtain ⟨_, fresh, apart⟩ := List.nodup_append.mp distinct
  have once : item ∉ front := fun found => apart item found item List.mem_cons_self rfl
  obtain ⟨same, _⟩ := (List.append_cons_inj_of_notMem once (List.nodup_cons.mp fresh).1).mp again
  rw [same]
  simp

end Blocked

end Raas.Data
