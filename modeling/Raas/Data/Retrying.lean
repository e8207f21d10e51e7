import Raas.Data.Positional

namespace Raas.Data

/-! A caller who goes on reading after an error. -/

variable {α ε ρ : Type _}

/-- The answers to one call for each buffer, errors among them, and the reader left behind. -/
def attempts (read : ρ → Nat → Except ε (List α) × ρ) : ρ → List Nat → List (Except ε (List α)) × ρ
  | reader, [] => ([], reader)
  | reader, capacity :: capacities =>
      let (answer, after) := read reader capacity
      let (answers, last) := attempts read after capacities
      (answer :: answers, last)

/-- What the calls have handed over that did not fail. -/
def received (answers : List (Except ε (List α))) : List α := answers.flatMap fun answer => answer.toOption.getD []

section Attempts

variable {read : ρ → Nat → Except ε (List α) × ρ} {reader : ρ} {capacity : Nat} {capacities : List Nat}
  {answer : Except ε (List α)} {answers : List (Except ε (List α))}

theorem received_cons : received (answer :: answers) = answer.toOption.getD [] ++ received answers :=
  List.flatMap_cons

theorem attempts_cons : attempts read reader (capacity :: capacities) =
    ((read reader capacity).1 :: (attempts read (read reader capacity).2 capacities).1,
      (attempts read (read reader capacity).2 capacities).2) := rfl

/-- A reader that stays where it is when it fails, and hands over what is at its
position when it does not, has handed over the interval that it has passed. -/
theorem attempts_pass (Inv : ρ → Nat → Prop) {Fails : ε → Prop} {Usable : Nat → Prop}
    (nonempty : ∀ capacity, Usable capacity → 0 < capacity) {reference : List α} {limit : Nat}
    (inside : limit ≤ reference.length)
    (responds : ∀ reader position capacity, Inv reader position → Usable capacity →
      Responds Inv Fails reference limit position capacity (read reader capacity))
    (usable : ∀ capacity ∈ capacities, Usable capacity) {position : Nat} (invariant : Inv reader position) :
    ∃ next, Inv (attempts read reader capacities).2 next ∧ position ≤ next ∧ next ≤ max position limit ∧
      received (attempts read reader capacities).1 = window reference position next ∧
      next = position + (received (attempts read reader capacities).1).length ∧
      (.ok [] ∈ (attempts read reader capacities).1 → limit ≤ next) := by
  induction capacities generalizing reader position with
  | nil => exact ⟨position, invariant, Nat.le_refl _, Nat.le_max_left _ _, (window_self _ _).symm, rfl, nofun⟩
  | cons capacity rest ih =>
      have positive := nonempty capacity (usable capacity List.mem_cons_self)
      have response := responds reader position capacity invariant (usable capacity List.mem_cons_self)
      have others : ∀ other ∈ rest, Usable other := fun other member => usable other (List.mem_cons_of_mem _ member)
      rw [attempts_cons]
      rcases called : read reader capacity with ⟨answer, after⟩
      rw [called] at response
      cases answer with
      | error reason =>
          obtain ⟨next, kept, ahead, bounded, content, counted, ended⟩ := ih others response.2
          refine ⟨next, kept, ahead, bounded, content, counted, ?_⟩
          intro member
          rcases List.mem_cons.mp member with same | member
          · exact nomatch same
          · exact ended member
      | ok bytes =>
          obtain ⟨piece, kept⟩ := response
          have width := congrArg List.length piece
          rw [window_length] at width
          obtain ⟨next, keptLast, ahead, bounded, content, counted, ended⟩ := ih others kept
          have front : bytes = window reference position (position + bytes.length) := by
            by_cases before : position < limit
            · rw [show position + bytes.length = min limit (position + capacity) by omega]
              exact piece
            · rw [piece, window_of_le (by omega), List.length_nil, Nat.add_zero, window_self]
          refine ⟨next, keptLast, by omega, by omega, ?_, ?_, ?_⟩
          · rw [received_cons, content]
            exact (congrArg (· ++ _) front).trans (window_append (by omega) ahead)
          · rw [received_cons]
            simp only [Except.toOption, Option.getD_some, List.length_append]
            omega
          · intro member
            rcases List.mem_cons.mp member with same | member
            · have empty := congrArg List.length (Except.ok.inj same)
              rw [List.length_nil] at empty
              omega
            · exact ended member

/-- A caller who repeats failed calls gets `range`, in order and without a gap, whatever
calls fail and whenever. `place` is where the reader stands. -/
structure Resumes (read : ρ → Nat → Except ε (List α) × ρ) (place : ρ → Nat) (Fails : ε → Prop) (Usable : Nat → Prop)
    (range : List α) (reader : ρ) : Prop where
  front : ∀ capacities, (∀ capacity ∈ capacities, Usable capacity) →
    received (attempts read reader capacities).1 <+: range
  whole : ∀ capacities, (∀ capacity ∈ capacities, Usable capacity) → .ok [] ∈ (attempts read reader capacities).1 →
    received (attempts read reader capacities).1 = range
  stands : ∀ capacities, (∀ capacity ∈ capacities, Usable capacity) →
    place (attempts read reader capacities).2 = place reader + (received (attempts read reader capacities).1).length
  stays : ∀ capacities, (∀ capacity ∈ capacities, Usable capacity) → ∀ capacity reason after, Usable capacity →
    read (attempts read reader capacities).2 capacity = (.error reason, after) →
      place after = place (attempts read reader capacities).2 ∧ Fails reason

theorem Resumes.of_responds (Inv : ρ → Nat → Prop) {place : ρ → Nat} {Fails : ε → Prop} {Usable : Nat → Prop}
    (placed : ∀ reader position, Inv reader position → place reader = position)
    (nonempty : ∀ capacity, Usable capacity → 0 < capacity) {reference : List α} {limit : Nat}
    (inside : limit ≤ reference.length)
    (responds : ∀ reader position capacity, Inv reader position → Usable capacity →
      Responds Inv Fails reference limit position capacity (read reader capacity))
    {start : Nat} (invariant : Inv reader start) :
    Resumes read place Fails Usable (window reference start limit) reader where
  front capacities usable := by
    obtain ⟨next, _, ahead, bounded, content, _⟩ := attempts_pass Inv nonempty inside responds usable invariant
    rw [content]
    by_cases before : start ≤ limit
    · rw [← window_append ahead (by omega : next ≤ limit)]
      exact List.prefix_append _ _
    · rw [show next = start by omega, window_self]
      exact List.nil_prefix
  whole capacities usable ended := by
    obtain ⟨next, _, ahead, bounded, content, _, reached⟩ := attempts_pass Inv nonempty inside responds usable invariant
    have last := reached ended
    rw [content]
    by_cases before : start ≤ limit
    · rw [show next = limit by omega]
    · rw [show next = start by omega, window_self, window_of_le (by omega)]
  stands capacities usable := by
    obtain ⟨next, kept, _, _, _, counted, _⟩ := attempts_pass Inv nonempty inside responds usable invariant
    rw [placed _ _ kept, placed _ _ invariant]
    exact counted
  stays capacities usable := by
    intro capacity reason after suits called
    obtain ⟨next, kept, _⟩ := attempts_pass Inv nonempty inside responds usable invariant
    have response := responds _ next capacity kept suits
    rw [called] at response
    rw [placed _ _ kept]
    exact ⟨placed _ _ response.2, response.1⟩

end Attempts

end Raas.Data
