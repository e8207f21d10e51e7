import Mathlib.Algebra.Ring.Nat
import Mathlib.Data.List.Forall2
import Mathlib.Data.List.TakeWhile
import Raas.Data.Window

namespace Raas.Data

/-! Items laid end to end.

`Tiles start span base items stop` says that the items record their own start
positions, that the first starts at `base`, that each one starts where the one
before it ends, that none is empty, and that the last ends at `stop`.
-/

/-- The index of the first item that fails `test`, for a list that `test` splits
into a satisfying front and a failing back. -/
def partitionPoint (test : α → Bool) (items : List α) : Nat :=
  (items.takeWhile test).length

theorem partitionPoint_holds {test : α → Bool} {items : List α} {index : Nat} {item : α}
    (before : index < partitionPoint test items) (found : items[index]? = some item) : test item = true := by
  have split : items.takeWhile test ++ items.dropWhile test = items := List.takeWhile_append_dropWhile
  have front : (items.takeWhile test)[index]? = some item := by
    rw [← found]
    exact (List.getElem?_append_left before).symm.trans (congrArg (·[index]?) split)
  exact List.mem_takeWhile_imp (List.mem_of_getElem? front)

inductive Tiles (start span : α → Nat) : Nat → List α → Nat → Prop
  | nil {base : Nat} : Tiles start span base [] base
  | cons {base stop : Nat} {item : α} {rest : List α}
      (starts : start item = base) (nonempty : 0 < span item)
      (tail : Tiles start span (base + span item) rest stop) :
      Tiles start span base (item :: rest) stop

variable {start span : α → Nat} {base middle stop position : Nat} {items rest : List α}

theorem Tiles.append (left : Tiles start span base items middle)
    (right : Tiles start span middle rest stop) :
    Tiles start span base (items ++ rest) stop := by
  induction left with
  | nil => exact right
  | cons starts nonempty _ ih => exact .cons starts nonempty (ih right)

theorem Tiles.single {item : α} (starts : start item = base) (nonempty : 0 < span item) :
    Tiles start span base [item] (base + span item) :=
  .cons starts nonempty .nil

theorem Tiles.base_le (tiles : Tiles start span base items stop) : base ≤ stop := by
  induction tiles with
  | nil => exact Nat.le_refl _
  | cons _ _ _ ih => omega

theorem Tiles.mul_length_le {width : Nat} (tiles : Tiles start span base items stop)
    (wide : ∀ item ∈ items, width ≤ span item) : base + width * items.length ≤ stop := by
  induction tiles with
  | nil => exact Nat.le_refl _
  | @cons base stop item rest starts nonempty tail ih =>
      have here := wide item (by simp)
      have later := ih fun other member => wide other (by simp [member])
      rw [List.length_cons, Nat.mul_succ]
      omega

theorem Tiles.length_le (tiles : Tiles start span base items stop) : base + items.length ≤ stop := by
  induction tiles with
  | nil => exact Nat.le_refl _
  | cons _ _ _ ih => simp only [List.length_cons]; omega

theorem Tiles.stop_eq (tiles : Tiles start span base items stop) :
    stop = base + (items.map span).sum := by
  induction tiles with
  | nil => simp
  | cons _ _ _ ih => simp only [List.map_cons, List.sum_cons]; omega

theorem Tiles.nonempty (tiles : Tiles start span base items stop) : ∀ item ∈ items, 0 < span item := by
  induction tiles with
  | nil => simp
  | cons _ nonempty _ ih => exact List.forall_mem_cons.mpr ⟨nonempty, ih⟩

theorem Tiles.base_le_start (tiles : Tiles start span base items stop) :
    ∀ item ∈ items, base ≤ start item ∧ start item + span item ≤ stop := by
  induction tiles with
  | nil => simp
  | cons starts nonempty tail ih =>
      intro item member
      have ordered := tail.base_le
      rcases List.mem_cons.mp member with rfl | member
      · omega
      · have bounds := ih item member
        omega

/-- Each item of a tiling ends where the next one starts, and the last at the end of the tiling. -/
theorem Tiles.next (tiles : Tiles start span base items stop) {index : Nat} {item : α}
    (found : items[index]? = some item) : start item + span item = (items[index + 1]?).elim stop start := by
  induction tiles generalizing index with
  | nil => simp at found
  | @cons base stop head rest starts nonempty tail ih =>
      rw [List.getElem?_cons_succ]
      cases index with
      | zero =>
          simp only [List.getElem?_cons_zero, Option.some.injEq] at found
          subst found
          rw [starts]
          cases tail with
          | nil => rfl
          | cons nextStarts _ _ => exact nextStarts.symm
      | succ index =>
          simp only [List.getElem?_cons_succ] at found
          exact ih found

theorem forall₂_mem_right {related : α → β → Prop} {images : List β} {image : β}
    (paired : List.Forall₂ related items images) (member : image ∈ images) :
    ∃ item ∈ items, related item image := by
  induction paired with
  | nil => simp at member
  | cons here _ ih =>
      rcases List.mem_cons.mp member with rfl | member
      · exact ⟨_, List.mem_cons_self, here⟩
      · obtain ⟨item, inside, there⟩ := ih member
        exact ⟨item, List.mem_cons_of_mem _ inside, there⟩

theorem forall₂_imp_mem {related weaker : α → β → Prop} {images : List β}
    (paired : List.Forall₂ related items images)
    (implies : ∀ item ∈ items, ∀ image ∈ images, related item image → weaker item image) :
    List.Forall₂ weaker items images := by
  induction paired with
  | nil => exact .nil
  | cons here _ ih =>
      refine .cons (implies _ List.mem_cons_self _ List.mem_cons_self here) (ih fun item inside image imaged => ?_)
      exact implies item (List.mem_cons_of_mem _ inside) image (List.mem_cons_of_mem _ imaged)

theorem forall₂_meet {related told : α → β → Prop} {images : List β} {item : α}
    (paired : List.Forall₂ related items images) (others : List.Forall₂ told items images) (member : item ∈ items) :
    ∃ image ∈ images, related item image ∧ told item image := by
  induction paired with
  | nil => cases member
  | cons here _ ih =>
      cases others with
      | cons there others =>
          rcases List.mem_cons.mp member with rfl | member
          · exact ⟨_, List.mem_cons_self, here, there⟩
          · obtain ⟨image, inside, both⟩ := ih others member
            exact ⟨image, List.mem_cons_of_mem _ inside, both⟩

theorem forall₂_iff_left {related told : α → β → Prop} {holds : α → Prop} {images : List β}
    (paired : List.Forall₂ related items images) (matters : ∀ item image, related item image → (told item image ↔ holds item)) :
    List.Forall₂ told items images ↔ ∀ item ∈ items, holds item := by
  induction paired with
  | nil => simp
  | cons here _ ih => rw [List.forall₂_cons, matters _ _ here, ih, List.forall_mem_cons]

theorem Tiles.transfer {start' span' : β → Nat} {images : List β}
    (paired : List.Forall₂ (fun item image => start' image = start item ∧ span' image = span item) items images)
    (tiles : Tiles start span base items stop) : Tiles start' span' base images stop := by
  induction tiles generalizing images with
  | nil => cases paired; exact .nil
  | @cons base stop item rest starts nonempty tail ih =>
      cases paired with
      | @cons _ image _ images same paired =>
          have later := ih paired
          rw [← same.2] at later nonempty
          exact .cons (same.1.trans starts) nonempty later

/-- A tiling covers its whole extent. The covering item is the one just before
the partition point of the test `start ≤ position`. -/
theorem Tiles.locate (tiles : Tiles start span base items stop)
    (lower : base ≤ position) (upper : position < stop) :
    ∃ index item, items[index]? = some item ∧
      partitionPoint (fun item => decide (start item ≤ position)) items = index + 1 ∧
      start item ≤ position ∧ position < start item + span item := by
  induction tiles with
  | nil => omega
  | @cons base stop item rest starts nonempty tail ih =>
      by_cases here : position < base + span item
      · refine ⟨0, item, rfl, ?_, by omega, by omega⟩
        have later : partitionPoint (fun item => decide (start item ≤ position)) rest = 0 := by
          cases tail with
          | nil => rfl
          | cons nextStarts _ _ =>
              rw [partitionPoint, List.takeWhile_cons_of_neg (by simp; omega), List.length_nil]
        rw [partitionPoint] at later ⊢
        rw [List.takeWhile_cons_of_pos (by simp; omega), List.length_cons, later]
      · obtain ⟨index, found, lookup, point, bounds⟩ := ih (by omega) upper
        refine ⟨index + 1, found, by simpa using lookup, ?_, bounds⟩
        rw [partitionPoint] at point ⊢
        rw [List.takeWhile_cons_of_pos (by simp; omega), List.length_cons, point]

theorem Tiles.partitionPoint_past (tiles : Tiles start span base items stop)
    (past : stop ≤ position) :
    partitionPoint (fun item => decide (start item ≤ position)) items = items.length := by
  have every : ∀ item ∈ items, decide (start item ≤ position) = true := by
    intro item member
    have bounds := tiles.base_le_start item member
    simp only [decide_eq_true_eq]
    omega
  rw [partitionPoint, List.takeWhile_eq_self_iff.mpr every]

theorem Tiles.unique (tiles : Tiles start span base items stop) :
    ∀ {first second : Nat} {left right : α}, items[first]? = some left →
      items[second]? = some right →
      start left ≤ position → position < start left + span left →
      start right ≤ position → position < start right + span right → first = second := by
  induction tiles with
  | nil => intro first second left right found; simp at found
  | @cons base stop item rest starts nonempty tail ih =>
      intro first second left right foundLeft foundRight leftLow leftHigh rightLow rightHigh
      have later : ∀ {index : Nat} {other : α}, rest[index]? = some other →
          base + span item ≤ start other := fun found =>
        (tail.base_le_start _ (List.mem_of_getElem? found)).1
      cases first with
      | zero =>
          cases second with
          | zero => rfl
          | succ second =>
              simp only [List.getElem?_cons_zero, Option.some.injEq,
                List.getElem?_cons_succ] at foundLeft foundRight
              subst foundLeft
              have := later foundRight
              omega
      | succ first =>
          cases second with
          | zero =>
              simp only [List.getElem?_cons_zero, Option.some.injEq,
                List.getElem?_cons_succ] at foundLeft foundRight
              subst foundRight
              have := later foundLeft
              omega
          | succ second =>
              simp only [List.getElem?_cons_succ] at foundLeft foundRight
              rw [ih foundLeft foundRight leftLow leftHigh rightLow rightHigh]

/-- The bytes of a tiling are found at the recorded positions. -/
theorem Tiles.window_item {content : α → List β} (tiles : Tiles start span base items stop)
    (widths : ∀ item ∈ items, (content item).length = span item) :
    ∀ {index : Nat} {item : α}, items[index]? = some item → ∀ first last : Nat, last ≤ span item →
      window (items.flatMap content) (start item - base + first) (start item - base + last) =
        window (content item) first last := by
  induction tiles with
  | nil => intro index item found; simp at found
  | @cons base stop head rest starts nonempty tail ih =>
      intro index item found first last inside
      cases index with
      | zero =>
          simp only [List.getElem?_cons_zero, Option.some.injEq] at found
          subst found
          have width := widths head (by simp)
          have placed := window_middle [] (content head) (rest.flatMap content) first last (by omega)
          simpa only [starts, Nat.sub_self, List.flatMap_cons, List.nil_append, List.length_nil] using placed
      | succ index =>
          simp only [List.getElem?_cons_succ] at found
          have later := (tail.base_le_start item (List.mem_of_getElem? found)).1
          have width := widths head (by simp)
          have inner := ih (fun other member => widths other (by simp [member])) found first last inside
          rw [← inner, List.flatMap_cons]
          have firstAt : start item - base + first =
              (content head).length + (start item - (base + span head) + first) := by omega
          have lastAt : start item - base + last =
              (content head).length + (start item - (base + span head) + last) := by omega
          unfold window
          rw [firstAt, lastAt, ← List.drop_drop, List.drop_left, Nat.add_sub_add_left]

theorem Tiles.drop_item {content : α → List β} (tiles : Tiles start span base items stop)
    (widths : ∀ item ∈ items, (content item).length = span item) {item : α} (member : item ∈ items) :
    ∃ rest, (items.flatMap content).drop (start item - base) = content item ++ rest := by
  induction tiles with
  | nil => simp at member
  | @cons base stop head rest starts nonempty tail ih =>
      have width := widths head (by simp)
      rcases List.mem_cons.mp member with rfl | later
      · exact ⟨rest.flatMap content, by rw [starts, Nat.sub_self, List.drop_zero, List.flatMap_cons]⟩
      · obtain ⟨back, found⟩ := ih (fun other inside => widths other (by simp [inside])) later
        have lower := (tail.base_le_start item later).1
        refine ⟨back, ?_⟩
        rw [List.flatMap_cons, show start item - base = (content head).length +
          (start item - (base + span head)) by omega, ← List.drop_drop, List.drop_left]
        exact found

theorem Tiles.length_flatMap (content : α → List β) (tiles : Tiles start span base items stop)
    (widths : ∀ item ∈ items, (content item).length = span item) :
    base + (items.flatMap content).length = stop := by
  induction tiles with
  | nil => rfl
  | @cons base stop head rest starts nonempty tail ih =>
      have inner := ih (fun other member => widths other (by simp [member]))
      rw [List.flatMap_cons, List.length_append, widths head (by simp)]
      omega

end Raas.Data
