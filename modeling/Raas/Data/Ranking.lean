import Raas.Data.Runs

namespace Raas.Data

/-! Runs by their events, and how long they can get.

A rank that every step lowers bounds the number of steps. It is a relation, so that a
state need not tell its rank.
-/

variable {State Event : Type} {step : State → Event → State → Prop}

/-- A run with the events of its steps, the first one first. -/
inductive Trail (step : State → Event → State → Prop) (start : State) : List Event → State → Prop
  | start : Trail step start [] start
  | next {events : List Event} {before after : State} {event : Event} (trail : Trail step start events before)
      (taken : step before event after) : Trail step start (events ++ [event]) after

variable {start state : State} {events : List Event}

theorem Trail.reaches (trail : Trail step start events state) : Reaches step (fun _ _ => True) start state := by
  induction trail with
  | start => exact .start
  | next _ taken ih => exact ih.next trivial taken

/-- What is left of the rank and the steps of a kind that lower it stay within the rank at
the start, whatever other steps come between. -/
theorem Trail.bounded_own {Ranks : State → Nat → Prop} {own : Event → Bool}
    (lowers : ∀ before event after rank, Ranks before rank → step before event after →
      ∃ lower, lower + (if own event then 1 else 0) ≤ rank ∧ Ranks after lower)
    (trail : Trail step start events state) {rank : Nat} (ranks : Ranks start rank) :
    ∃ left, Ranks state left ∧ events.countP own + left ≤ rank := by
  induction trail with
  | start => exact ⟨rank, ranks, by simp⟩
  | next _ taken ih =>
      obtain ⟨left, held, counted⟩ := ih
      obtain ⟨lower, less, after⟩ := lowers _ _ _ left held taken
      refine ⟨lower, after, ?_⟩
      rw [List.countP_append, List.countP_singleton]
      omega

theorem Trail.bounded {Ranks : State → Nat → Prop}
    (lowers : ∀ before event after rank, Ranks before rank → step before event after →
      ∃ lower, lower < rank ∧ Ranks after lower)
    (trail : Trail step start events state) {rank : Nat} (ranks : Ranks start rank) :
    ∃ left, Ranks state left ∧ events.length + left ≤ rank := by
  have every : events.countP (fun _ => true) = events.length := List.countP_eq_length.mpr fun _ _ => rfl
  rw [← every]
  have lowersAll : ∀ before event after rank, Ranks before rank → step before event after →
      ∃ lower, lower + (if (fun _ : Event => true) event then 1 else 0) ≤ rank ∧ Ranks after lower := lowers
  exact trail.bounded_own lowersAll ranks

end Raas.Data
