import Mathlib.Data.List.Basic

namespace Raas.Data

/-! Runs of a system whose steps are labelled with events. -/

variable {State Event : Type} {step : State → Event → State → Prop} {condition weaker : State → Event → Prop}
  {start state : State}

/-- The states of the runs from `start` in which every event meets the condition when it happens. -/
inductive Reaches (step : State → Event → State → Prop) (condition : State → Event → Prop) (start : State) :
    State → Prop
  | start : Reaches step condition start start
  | next {before after : State} {event : Event} (reached : Reaches step condition start before)
      (met : condition before event) (taken : step before event after) : Reaches step condition start after

namespace Reaches

/-- What holds at the start and outlives every such step holds throughout. -/
theorem invariant {holds : State → Prop} (reached : Reaches step condition start state) (first : holds start)
    (kept : ∀ before event after, holds before → condition before event → step before event after → holds after) :
    holds state := by
  induction reached with
  | start => exact first
  | next _ met taken ih => exact kept _ _ _ ih met taken

theorem single {event : Event} {after : State} (met : condition start event) (taken : step start event after) :
    Reaches step condition start after :=
  .next .start met taken

theorem trans {middle : State} (first : Reaches step condition start middle)
    (second : Reaches step condition middle state) : Reaches step condition start state := by
  induction second with
  | start => exact first
  | next _ met taken ih => exact ih.next met taken

theorem weaken (reached : Reaches step condition start state)
    (weakens : ∀ before event, condition before event → weaker before event) : Reaches step weaker start state := by
  induction reached with
  | start => exact .start
  | next _ met taken ih => exact ih.next (weakens _ _ met) taken

/-- Where every step is a run of another system, so is a run. -/
theorem simulates {Other Label : Type} {move : Other → Label → Other → Prop} {allowed : Other → Label → Prop}
    (view : State → Other) (holds : State → Prop) (reached : Reaches step condition start state) (first : holds start)
    (follows : ∀ before event after, holds before → condition before event → step before event after →
      holds after ∧ Reaches move allowed (view before) (view after)) :
    holds state ∧ Reaches move allowed (view start) (view state) := by
  induction reached with
  | start => exact ⟨first, .start⟩
  | next _ met taken ih =>
      obtain ⟨held, reached⟩ := ih
      obtain ⟨holds, more⟩ := follows _ _ _ held met taken
      exact ⟨holds, reached.trans more⟩

end Reaches

end Raas.Data
