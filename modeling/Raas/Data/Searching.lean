import Raas.Data.Tiling

namespace Raas.Data

/-! Partition-point searches.

A search is told a test and a list in which everything that passes the test stands
before everything that fails it. What it answers for other lists is left open.
-/

/-- The first `point` items pass `test` and the others fail it. -/
structure SplitAt (test : α → Bool) (items : List α) (point : Nat) : Prop where
  inside : point ≤ items.length
  passes : ∀ {index : Nat} {item : α}, items[index]? = some item → (test item = true ↔ index < point)

/-- The contract of `partition_point`. -/
def PartitionSearch (search : (α → Bool) → List α → Nat) : Prop :=
  ∀ (test : α → Bool) (items : List α) (point : Nat), SplitAt test items point → search test items = point

variable {test : α → Bool} {items : List α} {point : Nat}

/-- Where nothing passes after a failure, the takeWhile front is what splits the list. -/
theorem SplitAt.of_pairwise (ordered : items.Pairwise fun earlier later => test later = true → test earlier = true) :
    SplitAt test items (partitionPoint test items) := by
  induction items with
  | nil => exact ⟨Nat.le_refl _, fun found => by simp at found⟩
  | cons head rest ih =>
      obtain ⟨here, later⟩ := List.pairwise_cons.mp ordered
      obtain ⟨inside, passes⟩ := ih later
      rw [partitionPoint] at inside passes ⊢
      cases passed : test head with
      | true =>
          rw [List.takeWhile_cons_of_pos passed, List.length_cons]
          refine ⟨Nat.succ_le_succ inside, ?_⟩
          intro index item found
          cases index with
          | zero =>
              simp only [List.getElem?_cons_zero, Option.some.injEq] at found
              subst found
              simp only [passed, Nat.succ_pos]
          | succ index =>
              simp only [List.getElem?_cons_succ] at found
              rw [passes found, Nat.succ_lt_succ_iff]
      | false =>
          rw [List.takeWhile_cons_of_neg (by simp [passed]), List.length_nil]
          refine ⟨Nat.zero_le _, ?_⟩
          intro index item found
          have fails : test item = false := by
            rcases List.mem_cons.mp (List.mem_of_getElem? found) with rfl | member
            · exact passed
            · exact Bool.eq_false_iff.mpr fun passes => by simp [here item member passes] at passed
          simp only [fails, Bool.false_eq_true, Nat.not_lt_zero]

/-- Two points cannot both split a list. -/
theorem SplitAt.unique {other : Nat} (first : SplitAt test items point) (second : SplitAt test items other) :
    point = other := by
  have ordered : ∀ {left right : Nat}, SplitAt test items left → SplitAt test items right → left ≤ right := by
    intro left right first second
    by_contra apart
    have bound : right < items.length := by
      have inside := first.inside
      omega
    have found := List.getElem?_eq_getElem bound
    have passes := (first.passes found).mpr (by omega)
    exact Nat.lt_irrefl _ ((second.passes found).mp passes)
  exact Nat.le_antisymm (ordered first second) (ordered second first)

theorem SplitAt.pairwise (split : SplitAt test items point) :
    items.Pairwise fun earlier later => test later = true → test earlier = true := by
  rw [List.pairwise_iff_getElem]
  intro first second firstBound secondBound before passed
  have place := (split.passes (List.getElem?_eq_getElem secondBound)).mp passed
  exact (split.passes (List.getElem?_eq_getElem firstBound)).mpr (Nat.lt_trans before place)

theorem partitionPoint_searches : PartitionSearch (partitionPoint (α := α)) :=
  fun _ _ _ split => (SplitAt.of_pairwise split.pairwise).unique split

/-- The loop of a halving search: of the items from `base` on, `size` are in question. -/
def halve (test : α → Bool) (items : List α) (base size : Nat) : Nat :=
  if 1 < size then
    let half := size / 2
    halve test items (if (items[base + half]?).any test then base + half else base) (size - half)
  else base
termination_by size
decreasing_by omega

def halvingPoint (test : α → Bool) (items : List α) : Nat :=
  let base := halve test items 0 items.length
  if (items[base]?).any test then base + 1 else base

theorem SplitAt.any (split : SplitAt test items point) {index : Nat} (bound : index < items.length) :
    (items[index]?).any test = true ↔ index < point := by
  rw [List.getElem?_eq_getElem bound, Option.any_some]
  exact split.passes (List.getElem?_eq_getElem bound)

/-- What stays true of the items in question: the point is among them or just past
them, and `base` is the first item of all or one that passes. -/
theorem SplitAt.halve_ends (split : SplitAt test items point) (base size : Nat) (some : 0 < size)
    (inside : base + size ≤ items.length) (lower : base = 0 ∨ base < point) (upper : point ≤ base + size) :
    let last := halve test items base size
    (last = 0 ∨ last < point) ∧ point ≤ last + 1 ∧ last < items.length := by
  induction base, size using halve.induct test items with
  | case1 base size large half ih =>
      have narrows : halve test items base size =
          halve test items (if (items[base + half]?).any test then base + half else base) (size - half) := by
        rw [halve, if_pos large]
      have told := split.any (show base + half < items.length by omega)
      rw [narrows]
      by_cases passes : (items[base + half]?).any test = true
      · have before := told.mp passes
        rw [dif_pos passes] at ih
        rw [if_pos passes]
        exact ih (by omega) (by omega) (.inr before) (by omega)
      · have after : ¬ base + half < point := fun before => passes (told.mpr before)
        rw [dif_neg passes] at ih
        rw [if_neg passes]
        exact ih (by omega) (by omega) lower (by omega)
  | case2 base size small =>
      rw [halve, if_neg small]
      exact ⟨lower, by omega, by omega⟩

theorem halvingPoint_searches : PartitionSearch (halvingPoint (α := α)) := by
  intro test items point split
  unfold halvingPoint
  cases items with
  | nil =>
      have inside := split.inside
      simp only [List.length_nil, Nat.le_zero] at inside
      simp [halve, inside]
  | cons head rest =>
      have ends := split.halve_ends 0 (head :: rest).length (Nat.succ_pos _) (by omega) (.inl rfl)
        (by rw [Nat.zero_add]; exact split.inside)
      generalize halve test (head :: rest) 0 (head :: rest).length = last at ends
      obtain ⟨lower, upper, inside⟩ := ends
      have told := split.any inside
      by_cases passes : ((head :: rest)[last]?).any test = true
      · have before := told.mp passes
        simp only [if_pos passes]
        omega
      · have after : ¬ last < point := fun before => passes (told.mpr before)
        simp only [if_neg passes]
        omega

/-! Tables whose items record where they start. -/

variable {start span : α → Nat} {base stop : Nat}

theorem Tiles.increasing (tiles : Tiles start span base items stop) :
    items.Pairwise fun earlier later => start earlier < start later := by
  induction tiles with
  | nil => exact .nil
  | cons starts nonempty tail ih =>
      refine .cons (fun later member => ?_) ih
      have bounds := tail.base_le_start later member
      omega

/-- On a tiling every search finds the same point. -/
theorem Tiles.search_eq (tiles : Tiles start span base items stop) {search : (α → Bool) → List α → Nat}
    (searches : PartitionSearch search) (position : Nat) :
    search (fun item => decide (start item ≤ position)) items =
      partitionPoint (fun item => decide (start item ≤ position)) items := by
  apply searches
  apply SplitAt.of_pairwise
  exact tiles.increasing.imp fun before passed =>
    decide_eq_true (Nat.le_trans (Nat.le_of_lt before) (of_decide_eq_true passed))

end Raas.Data
