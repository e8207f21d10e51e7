import Raas.Data.Settling

namespace Raas.Data

/-! Loops whose steps may hand over nothing. -/

variable {α ε σ : Type _}

/-- The state after `turns` turns at one position, if every one of them handed over nothing. -/
def idle (iterate : σ → Nat → Nat → Except ε (List α) × σ) (position room : Nat) : Nat → σ → Option σ
  | 0, state => some state
  | turns + 1, state =>
      match iterate state position room with
      | (.ok [], after) => idle iterate position room turns after
      | _ => none

def Stalls (iterate : σ → Nat → Nat → Except ε (List α) × σ) (position room : Nat) (state : σ) : Prop :=
  ∀ turns, (idle iterate position room turns state).isSome = true

/-- The loop comes from `start` at `first` to a state, a position and a count of items written. -/
inductive Comes (iterate : σ → Nat → Nat → Except ε (List α) × σ) (capacity stop total : Nat) (start : σ)
    (first : Nat) : σ → Nat → Nat → Prop
  | start : Comes iterate capacity stop total start first start first 0
  | turn {state after : σ} {position written : Nat} {piece : List α}
      (comes : Comes iterate capacity stop total start first state position written)
      (running : written < capacity ∧ position < stop ∧ position < total)
      (handed : iterate state position (capacity - written) = (.ok piece, after)) :
      Comes iterate capacity stop total start first after (position + piece.length) (written + piece.length)

section Stalling

variable {iterate : σ → Nat → Nat → Except ε (List α) × σ} {exhausted : ε} {capacity stop total first position : Nat}
  {start state after : σ}

theorem Comes.first_le {count : Nat} (comes : Comes iterate capacity stop total start first state position count) :
    first ≤ position := by
  induction comes with
  | start => exact Nat.le_refl first
  | turn _ _ _ ih => exact Nat.le_trans ih (Nat.le_add_right _ _)

theorem Stalls.turn {room : Nat} (stalls : Stalls iterate position room state) :
    ∃ after, iterate state position room = (.ok [], after) ∧ Stalls iterate position room after := by
  rcases answer : iterate state position room with ⟨result, after⟩
  have again := stalls 1
  cases result with
  | error reason => simp [idle, answer] at again
  | ok piece =>
      cases piece with
      | cons first rest => simp [idle, answer] at again
      | nil =>
          refine ⟨after, rfl, ?_⟩
          intro turns
          have later := stalls (turns + 1)
          simpa only [idle, answer] using later

theorem fill_stalls {written : List α} (running : written.length < capacity ∧ position < stop ∧ position < total)
    (stalls : Stalls iterate position (capacity - written.length) state) (fuel : Nat) :
    (fill iterate exhausted capacity stop total fuel state position written).1 = .error exhausted := by
  induction fuel generalizing state with
  | zero => rfl
  | succ fuel ih =>
      obtain ⟨after, answer, further⟩ := stalls.turn
      rw [fill, if_pos running, answer]
      simp only [List.length_nil, Nat.add_zero, List.append_nil]
      exact ih further

/-- A loop that comes to a state in which it stands still never ends. -/
theorem Comes.exhausts {count : Nat} (comes : Comes iterate capacity stop total start first state position count)
    (never : ∀ (written : List α) (fuel : Nat), written.length = count →
      (fill iterate exhausted capacity stop total fuel state position written).1 = .error exhausted) (fuel : Nat) :
    (fill iterate exhausted capacity stop total fuel start first []).1 = .error exhausted := by
  induction comes with
  | start => exact never [] fuel rfl
  | @turn state after position count piece _ running handed ih =>
      apply ih
      intro written fuel length
      subst length
      cases fuel with
      | zero => rfl
      | succ fuel =>
          rw [fill, if_pos running, handed]
          exact never (written ++ piece) fuel List.length_append

theorem Stalls.exhausts {count : Nat} (stalls : Stalls iterate position (capacity - count) state)
    (comes : Comes iterate capacity stop total start first state position count)
    (running : count < capacity ∧ position < stop ∧ position < total) (fuel : Nat) :
    (fill iterate exhausted capacity stop total fuel start first []).1 = .error exhausted := by
  apply comes.exhausts
  intro written fuel length
  subst length
  exact fill_stalls running stalls fuel

/-- What a turn that may hand over nothing owes. -/
def Gives (Fails : ε → Prop) (stop position room : Nat) : Except ε (List α) × σ → Prop
  | (.error reason, _) => Fails reason
  | (.ok piece, _) => piece.length ≤ room ∧ position + piece.length ≤ stop

theorem free_evolution : Evolution (fun (_ _ : σ) => True) (fun (_ : σ) (_ : Nat) (_ : α) => True) where
  refl _ := trivial
  trans _ _ := trivial
  keeps _ _ := trivial

theorem idle_moves {Fails : ε → Prop} {count turns : Nat}
    (gives : ∀ state position room, position < stop → position < total → 0 < room → room ≤ capacity →
      Gives Fails stop position room (iterate state position room))
    (running : count < capacity ∧ position < stop ∧ position < total)
    (comes : Comes iterate capacity stop total start first state position count)
    (ends : idle iterate position (capacity - count) turns state = none) :
    Moves (fun _ => iterate) (fun _ _ => True) (fun _ _ _ => True) Fails
      (Comes iterate capacity stop total start first) stop position count (capacity - count) state := by
  induction turns generalizing state with
  | zero => simp [idle] at ends
  | succ turns ih =>
      have given := gives state position (capacity - count) running.2.1 running.2.2 (Nat.sub_pos_of_lt running.1)
        (Nat.sub_le _ _)
      rcases answer : iterate state position (capacity - count) with ⟨result, after⟩
      rw [answer] at given
      cases result with
      | error reason =>
          have turn : Settles (fun _ => iterate state position (capacity - count)) (.error reason, after) :=
            answer ▸ .const _
          refine .hands turn ⟨given, trivial⟩ ?_
          intro _ _ given
          cases given
      | ok piece =>
          have turn : Settles (fun _ => iterate state position (capacity - count)) (.ok piece, after) :=
            answer ▸ .const _
          have next := comes.turn running answer
          cases piece with
          | nil =>
              simp only [idle, answer] at ends
              exact .waits turn trivial (ih next ends)
          | cons head rest =>
              refine .hands turn ⟨trivial, Nat.succ_pos _, given.1, given.2, fun _ _ _ => trivial⟩ ?_
              intro _ _ given
              cases given
              exact next

/-- A loop settles unless it comes to a state in which it stands still. -/
theorem fill_settles_unless {Fails : ε → Prop}
    (gives : ∀ state position room, position < stop → position < total → 0 < room → room ≤ capacity →
      Gives Fails stop position room (iterate state position room))
    (never : ∀ state position count, Comes iterate capacity stop total start first state position count →
      count < capacity → position < stop → position < total → ¬ Stalls iterate position (capacity - count) state)
    (bounded : first ≤ stop) :
    ∃ outcome, FillSettles (fun _ => iterate) exhausted capacity stop total start first [] outcome ∧
      Collects (fun _ _ => True) (fun _ _ _ => True) Fails capacity stop total first [] start outcome := by
  apply fill_settles free_evolution ?_ Comes.start bounded
  intro state position count comes room before present
  have moving := never state position count comes room before present
  simp only [Stalls, not_forall, Bool.not_eq_true, Option.isSome_eq_false_iff, Option.isNone_iff_eq_none] at moving
  obtain ⟨turns, ends⟩ := moving
  exact idle_moves gives ⟨room, before, present⟩ comes ends

end Stalling

end Raas.Data
