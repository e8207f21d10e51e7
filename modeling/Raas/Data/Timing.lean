import Raas.Data.Runs

namespace Raas.Data

/-! Runs of a system with a clock. -/

variable {State Event : Type} {step : State → Event → State → Prop} {condition : State → Event → Prop}
  {start state : State}

/-- A phase that is only left for its goal, and in which the clock cannot pass an instant:
whenever it is later than that, the goal has been reached. -/
theorem Reaches.over_by {now : State → Nat} {phase goal : State → Prop} {limit : Nat}
    (reached : Reaches step condition start state) (first : phase start)
    (kept : ∀ before event after, phase before → condition before event → step before event after →
      phase after ∨ goal after)
    (stays : ∀ before event after, goal before → condition before event → step before event after → goal after)
    (within : ∀ state, phase state → now state ≤ limit) (late : limit < now state) : goal state := by
  have either : phase state ∨ goal state := by
    apply reached.invariant (.inl first)
    intro before event after held met taken
    rcases held with held | held
    · exact kept before event after held met taken
    · exact .inr (stays before event after held met taken)
  rcases either with held | held
  · exact absurd late (Nat.not_lt.mpr (within state held))
  · exact held

end Raas.Data
