import Raas.Data.Tracing

namespace Raas.Data

/-! A loop that may stand still, against a reader that never does. -/

variable {α ε δ σ ρ τ : Type _}

/-- Readers that answer every call with the same interval are drained alike. -/
theorem drain_agrees {read other : ρ → Nat → Except ε (List α) × ρ} {Inv Same : ρ → Nat → Prop} {Usable : Nat → Prop}
    {reference : List α} {limit first : Nat}
    (answers : ∀ reader position capacity, Inv reader position → first ≤ position → Usable capacity →
      Answers Inv reference limit position capacity (read reader capacity))
    (others : ∀ reader position capacity, Same reader position → Usable capacity →
      Answers Same reference limit position capacity (other reader capacity))
    {capacities : List Nat} (usable : ∀ capacity ∈ capacities, Usable capacity) {reader twin : ρ} {position : Nat}
    (ahead : first ≤ position) (invariant : Inv reader position) (same : Same twin position) :
    (drain read reader capacities).1 = (drain other twin capacities).1 := by
  induction capacities generalizing reader twin position with
  | nil => rfl
  | cons capacity capacities ih =>
      have suits := usable capacity List.mem_cons_self
      have answer := answers reader position capacity invariant ahead suits
      have second := others twin position capacity same suits
      rw [drain, drain]
      rcases called : read reader capacity with ⟨result, after⟩
      rcases calledOther : other twin capacity with ⟨resultOther, afterOther⟩
      rw [called] at answer
      rw [calledOther] at second
      cases result with
      | error reason => exact answer.elim
      | ok bytes =>
          cases resultOther with
          | error reason => exact second.elim
          | ok bytesOther =>
              obtain rfl : bytes = bytesOther := answer.1.trans second.1.symm
              cases bytes with
              | nil => rfl
              | cons head bytes =>
                  have later := ih (fun other member => usable other (List.mem_cons_of_mem _ member))
                    (Nat.le_add_right_of_le ahead) answer.2 second.2
                  exact congrArg (Drained.prepend (head :: bytes)) later

section Members

variable {iterate : σ → Nat → Nat → Except ε (List α) × σ} {capacity stop total fuel : Nat} {turn : Turn σ}

theorem turns_room {state : σ} {position written : Nat}
    (taken : turn ∈ turns iterate capacity stop total fuel state position written) : turn.room ≤ capacity := by
  induction fuel generalizing state position written with
  | zero => exact absurd taken List.not_mem_nil
  | succ fuel ih =>
      rw [turns] at taken
      split at taken
      · split at taken
        · rw [List.mem_singleton.mp taken]
          exact Nat.sub_le _ _
        · rcases List.mem_cons.mp taken with rfl | later
          · exact Nat.sub_le _ _
          · exact ih later
      · exact absurd taken List.not_mem_nil

theorem mem_trace {calls : ρ → Nat → List τ} {read : ρ → Nat → Except δ (List α) × ρ} {reader : ρ}
    {capacities : List Nat} {item : τ} (member : item ∈ trace calls read reader capacities) :
    ∃ caller, ∃ capacity ∈ capacities, item ∈ calls caller capacity := by
  induction capacities generalizing reader with
  | nil => exact absurd member List.not_mem_nil
  | cons capacity capacities ih =>
      rw [trace] at member
      rcases List.mem_append.mp member with here | later
      · exact ⟨reader, capacity, List.mem_cons_self, here⟩
      · split at later
        · obtain ⟨caller, other, among, found⟩ := ih later
          exact ⟨caller, other, List.mem_cons_of_mem _ among, found⟩
        · exact absurd later List.not_mem_nil

end Members

section Agreement

variable {read wide : ρ → Nat → Except δ (List α) × ρ} {iterate : Nat → σ → Nat → Nat → Except ε (List α) × σ}
  {exhausted : ε} {fuel total stop : Nat} {progress : ρ → σ} {place bound : ρ → Nat} {Usable : Nat → Prop}
  {reader : ρ}

/-- What draining with buffers of one item shows of a place that the loop comes to. -/
theorem Looping.visits (looping : Looping read iterate exhausted fuel total progress place bound)
    (fits : ∀ state position room piece after, iterate stop state position room = (.ok piece, after) →
      piece.length ≤ room)
    (ends : bound reader = stop) {calls here : Nat} (ahead : place reader ≤ here)
    (answered : ∀ bytes reason, (drain read reader (List.replicate calls 1)).1 ≠ .failed bytes reason)
    (past : here < place reader + (drain read reader (List.replicate calls 1)).1.bytes.length) :
    ∃ state room piece after, iterate stop state here room = (.ok piece, after) ∧ 0 < piece.length := by
  -- every turn is one of the loop's and no longer than its room, which is one item
  let Inv : List (Turn σ) → σ → Nat → Prop := fun taken _ position =>
    Covers taken (place reader) position ∧ ∀ turn ∈ taken, ∃ piece after,
      iterate stop turn.state turn.position turn.room = (.ok piece, after) ∧ piece.length = turn.count
  have step : ∀ taken state position room piece after, Inv taken state position → position < stop →
      position < total → 0 < room → iterate stop state position room = (.ok piece, after) →
      Inv (taken ++ [{ state, position, room, count := piece.length }]) after (position + piece.length) := by
    intro taken state position room piece after kept _ _ _ handed
    refine ⟨kept.1.next rfl, ?_⟩
    intro turn member
    rcases List.mem_append.mp member with member | member
    · exact kept.2 turn member
    · rw [List.mem_singleton.mp member]
      exact ⟨piece, after, handed, rfl⟩
  have start : Inv [] (progress reader) (place reader) := ⟨fun _ lower upper => by omega, nofun⟩
  have usable : ∀ capacity ∈ List.replicate calls 1, 0 < capacity :=
    List.forall_mem_replicate.mpr (.inr Nat.one_pos)
  obtain ⟨⟨covers, taken⟩, _⟩ := looping.drained step ends start usable answered
  obtain ⟨turn, member, starts, stops⟩ := covers here ahead past
  obtain ⟨piece, after, handed, counted⟩ := taken turn member
  obtain ⟨caller, capacity, among, called⟩ := mem_trace member
  have narrow : turn.room ≤ 1 := by
    rw [← List.eq_of_mem_replicate among]
    unfold callTurns at called
    split at called
    · exact absurd called List.not_mem_nil
    · exact turns_room called
  have short := fits _ _ _ _ _ handed
  obtain rfl : turn.position = here := by omega
  exact ⟨turn.state, turn.room, piece, after, handed, by omega⟩

/-- A reader that is drained as one that never stands still does not stand still. -/
theorem Looping.unstuck (looping : Looping read iterate exhausted fuel total progress place bound)
    (ends : bound reader = stop) {Inv : ρ → Nat → Prop} {reference : List α}
    (nonempty : ∀ capacity, Usable capacity → 0 < capacity) (one : Usable 1)
    (inside : min stop total ≤ reference.length)
    (answers : ∀ caller position capacity, Inv caller position → Usable capacity →
      Answers Inv reference (min stop total) position capacity (wide caller capacity))
    (fits : ∀ state position room piece after, iterate stop state position room = (.ok piece, after) →
      piece.length ≤ room)
    (invariant : Inv reader (place reader))
    (same : ∀ capacities, (∀ capacity ∈ capacities, Usable capacity) →
      (drain read reader capacities).1 = (drain wide reader capacities).1)
    {here : Nat} (ahead : place reader ≤ here) (before : here < min stop total) :
    ∃ state room piece after, iterate stop state here room = (.ok piece, after) ∧ 0 < piece.length := by
  have usable : ∀ capacity ∈ List.replicate (here - place reader + 1) 1, Usable capacity :=
    List.forall_mem_replicate.mpr (.inr one)
  have yield := (drain_yields Inv Usable nonempty inside answers usable invariant).1
  rw [← same _ usable, List.length_replicate] at yield
  have answered : ∀ bytes reason,
      (drain read reader (List.replicate (here - place reader + 1) 1)).1 ≠ .failed bytes reason := by
    intro bytes reason failed
    rw [failed] at yield
    exact yield
  have past : here < place reader + (drain read reader (List.replicate (here - place reader + 1) 1)).1.bytes.length := by
    revert yield
    cases (drain read reader (List.replicate (here - place reader + 1) 1)).1 with
    | ended bytes =>
        intro same
        subst same
        rw [Drained.bytes, window_length_of_le _ inside]
        omega
    | starved bytes =>
        intro yield
        have enough := yield.2
        rw [Drained.bytes]
        omega
    | failed bytes reason => exact False.elim
  exact looping.visits fits ends ahead answered past

/-- A reader that stands still nowhere goes ahead with every turn, and is drained as one
that never does. -/
theorem Looping.agrees (looping : Looping read iterate exhausted fuel total progress place bound)
    (Kept : σ → Prop) (ends : bound reader = stop) {Inv : ρ → Nat → Prop} {reference : List α}
    (nonempty : ∀ capacity, Usable capacity → 0 < capacity) (inside : min stop total ≤ reference.length)
    (answers : ∀ caller position capacity, Inv caller position → Usable capacity →
      Answers Inv reference (min stop total) position capacity (wide caller capacity))
    (unhindered : ∀ caller position capacity, Inv caller position → place reader ≤ position → Usable capacity →
      Answers Inv reference (min stop total) position capacity (read caller capacity))
    (moves : ∀ state here room piece after, Kept state → place reader ≤ here → here < min stop total → 0 < room →
      iterate stop state here room = (.ok piece, after) → 0 < piece.length ∧ Kept after)
    (kept : Kept (progress reader)) (invariant : Inv reader (place reader)) {capacities : List Nat}
    (usable : ∀ capacity ∈ capacities, Usable capacity) :
    (∀ turn ∈ trace (callTurns iterate fuel total progress place bound) read reader capacities, 0 < turn.count) ∧
      (drain read reader capacities).1 = (drain wide reader capacities).1 := by
  have same := drain_agrees unhindered answers usable (Nat.le_refl _) invariant invariant
  have answered : ∀ bytes reason, (drain read reader capacities).1 ≠ .failed bytes reason := by
    intro bytes reason failed
    have yield := (drain_yields Inv Usable nonempty inside answers usable invariant).1
    rw [← same, failed] at yield
    exact yield
  let Goes : List (Turn σ) → σ → Nat → Prop := fun taken state position =>
    (∀ turn ∈ taken, 0 < turn.count) ∧ Kept state ∧ place reader ≤ position
  have step : ∀ taken state position room piece after, Goes taken state position → position < stop →
      position < total → 0 < room → iterate stop state position room = (.ok piece, after) →
      Goes (taken ++ [{ state, position, room, count := piece.length }]) after (position + piece.length) := by
    intro taken state position room piece after here before present positive handed
    obtain ⟨going, kept, ahead⟩ := here
    obtain ⟨counted, keptAfter⟩ :=
      moves state position room piece after kept ahead (Nat.lt_min.mpr ⟨before, present⟩) positive handed
    refine ⟨?_, keptAfter, Nat.le_add_right_of_le ahead⟩
    intro turn member
    rcases List.mem_append.mp member with member | member
    · exact going turn member
    · rw [List.mem_singleton.mp member]
      exact counted
  have start : Goes [] (progress reader) (place reader) := ⟨nofun, kept, Nat.le_refl _⟩
  obtain ⟨⟨going, _⟩, _⟩ := looping.drained step ends start (fun capacity member => nonempty _ (usable _ member)) answered
  exact ⟨going, same⟩

end Agreement

end Raas.Data
