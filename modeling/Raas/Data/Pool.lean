import Raas.Data.Runs

namespace Raas.Data

/-! Parties that work at the same time and share a state.

`acts` says what one party does by itself. In a pool one party acts at a time, in any
order: `Step.keeps` lifts what every act preserves to the pool, and `of_alone`
finds the undisturbed work of a party among the runs of the pool.
-/

structure Pool (Party Shared : Type) where
  parties : List Party
  shared : Shared

namespace Pool

variable {Party Shared Event : Type} {enters : Event → Party → Prop}
  {acts : Party × Shared → Event → Party × Shared → Prop}

inductive Step (enters : Event → Party → Prop) (acts : Party × Shared → Event → Party × Shared → Prop) :
    Pool Party Shared → Event → Pool Party Shared → Prop
  | enter {pool : Pool Party Shared} {event : Event} (party : Party) (entered : enters event party) :
      Step enters acts pool event { pool with parties := pool.parties ++ [party] }
  | act (front back : List Party) (party next : Party) {shared after : Shared} {event : Event}
      (acted : acts (party, shared) event (next, after)) :
      Step enters acts ⟨front ++ party :: back, shared⟩ event ⟨front ++ next :: back, after⟩

/-- Every party is well on its way, and the shared state is as it should be. -/
structure Holds (Own : Party → Prop) (Common : Shared → Prop) (pool : Pool Party Shared) : Prop where
  parties : ∀ party ∈ pool.parties, Own party
  shared : Common pool.shared

variable {Own : Party → Prop} {Common : Shared → Prop} {Marks : Event → Prop} {before after : Pool Party Shared}
  {event : Event}

/-- What every entrance and every act keep, the pool keeps; what they say of their events
is true of the pool's. -/
theorem Step.keeps (taken : Step enters acts before event after) (holds : before.Holds Own Common)
    (entering : ∀ party, enters event party → Own party ∧ Marks event)
    (acting : ∀ party next later, Own party → Common before.shared →
      acts (party, before.shared) event (next, later) → (Own next ∧ Common later) ∧ Marks event) :
    after.Holds Own Common ∧ Marks event := by
  cases taken with
  | enter party entered =>
      obtain ⟨owned, marked⟩ := entering party entered
      refine ⟨⟨?_, holds.shared⟩, marked⟩
      intro other member
      rcases List.mem_append.mp member with member | member
      · exact holds.parties other member
      · rw [List.mem_singleton.mp member]
        exact owned
  | act front back party next acted =>
      have owned := holds.parties party (List.mem_append_right _ List.mem_cons_self)
      obtain ⟨⟨own, common⟩, marked⟩ := acting party next _ owned holds.shared acted
      refine ⟨⟨?_, common⟩, marked⟩
      intro other member
      rcases List.mem_append.mp member with member | member
      · exact holds.parties other (List.mem_append_left _ member)
      · rcases List.mem_cons.mp member with rfl | member
        · exact own
        · exact holds.parties other (List.mem_append_right _ (List.mem_cons_of_mem _ member))

/-- The shared state only changes by an act. -/
theorem Step.shared_moves (taken : Step enters acts before event after) (Moves : Shared → Shared → Prop)
    (still : Moves before.shared before.shared)
    (moves : ∀ party next later, acts (party, before.shared) event (next, later) → Moves before.shared later) :
    Moves before.shared after.shared := by
  cases taken with
  | enter => exact still
  | act _ _ party next acted => exact moves party next _ acted

/-- A party that nobody disturbs works in the pool as it does by itself. -/
theorem of_alone (condition : Shared → Event → Prop) (front back : List Party) {start state : Party × Shared}
    (alone : Reaches acts (fun state event => condition state.2 event) start state) :
    Reaches (Step enters acts) (fun pool event => condition pool.shared event)
      ⟨front ++ start.1 :: back, start.2⟩ ⟨front ++ state.1 :: back, state.2⟩ := by
  induction alone with
  | start => exact .start
  | next _ met acted ih => exact ih.next met (.act front back _ _ acted)

end Pool

end Raas.Data
