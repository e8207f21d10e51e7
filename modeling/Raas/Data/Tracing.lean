import Raas.Data.Positional

namespace Raas.Data

/-! The turns that a loop takes.

An invariant of the turns taken so far, the state and the position is carried
through one call by `fill_traces` and through all of a caller's calls by
`drain_traces`; `Covers` is one that every loop has.
-/

variable {α ε δ σ ρ τ : Type _}

/-- The state and the position that a turn begins with, the room in the buffer, and
the number of items that the turn hands over. -/
structure Turn (σ : Type _) where
  state : σ
  position : Nat
  room : Nat
  count : Nat

/-- The turns of `fill` with the same arguments, a failed one among them. -/
def turns (iterate : σ → Nat → Nat → Except ε (List α) × σ) (capacity stop total : Nat) :
    Nat → σ → Nat → Nat → List (Turn σ)
  | 0, _, _, _ => []
  | fuel + 1, state, position, written =>
      if written < capacity ∧ position < stop ∧ position < total then
        match iterate state position (capacity - written) with
        | (.error _, _) => [{ state, position, room := capacity - written, count := 0 }]
        | (.ok piece, after) =>
            { state, position, room := capacity - written, count := piece.length } ::
              turns iterate capacity stop total fuel after (position + piece.length) (written + piece.length)
      else []

/-- What the calls of a caller do, in order, up to the first empty answer or the first error. -/
def trace (calls : ρ → Nat → List τ) (read : ρ → Nat → Except ε (List α) × ρ) : ρ → List Nat → List τ
  | _, [] => []
  | reader, capacity :: capacities =>
      calls reader capacity ++
        match read reader capacity with
        | (.ok (_ :: _), after) => trace calls read after capacities
        | _ => []

section Turns

variable {iterate : σ → Nat → Nat → Except ε (List α) × σ} {exhausted : ε} {capacity stop total fuel : Nat}
  {Inv : List (Turn σ) → σ → Nat → Prop} {past : List (Turn σ)} {state after : σ} {position next : Nat}
  {written bytes : List α}

theorem fill_traces
    (step : ∀ past state position room piece after, Inv past state position → position < stop → position < total →
      0 < room → iterate state position room = (.ok piece, after) →
      Inv (past ++ [{ state, position, room, count := piece.length }]) after (position + piece.length))
    (invariant : Inv past state position)
    (filled : fill iterate exhausted capacity stop total fuel state position written = (.ok (bytes, next), after)) :
    Inv (past ++ turns iterate capacity stop total fuel state position written.length) after next ∧
      next + written.length = position + bytes.length ∧ (bytes.length < capacity → min stop total ≤ next) := by
  induction fuel generalizing past state position written with
  | zero => cases filled
  | succ fuel ih =>
      rw [fill] at filled
      rw [turns]
      by_cases running : written.length < capacity ∧ position < stop ∧ position < total
      · rw [if_pos running] at filled ⊢
        rcases handed : iterate state position (capacity - written.length) with ⟨result, later⟩
        rw [handed] at filled
        cases result with
        | error reason => cases filled
        | ok piece =>
            have kept := step past state position _ piece later invariant running.2.1 running.2.2
              (Nat.sub_pos_of_lt running.1) handed
            obtain ⟨traced, counted, reached⟩ := ih kept filled
            rw [List.append_assoc, List.length_append] at traced
            refine ⟨traced, ?_, reached⟩
            rw [List.length_append] at counted
            omega
      · rw [if_neg running] at filled ⊢
        obtain ⟨⟨rfl, rfl⟩, rfl⟩ : (written = bytes ∧ position = next) ∧ state = after := by
          simpa only [Prod.mk.injEq, Except.ok.injEq] using filled
        rw [List.append_nil]
        exact ⟨invariant, rfl, fun room => by omega⟩

/-- A loop whose turns keep to the room keeps to the buffer. -/
theorem fill_length
    (fits : ∀ state position room piece after, iterate state position room = (.ok piece, after) → piece.length ≤ room)
    (short : written.length ≤ capacity)
    (filled : fill iterate exhausted capacity stop total fuel state position written = (.ok (bytes, next), after)) :
    bytes.length ≤ capacity := by
  induction fuel generalizing state position written with
  | zero => cases filled
  | succ fuel ih =>
      rw [fill] at filled
      split at filled
      · rcases handed : iterate state position (capacity - written.length) with ⟨result, later⟩
        rw [handed] at filled
        cases result with
        | error reason => cases filled
        | ok piece =>
            have small := fits _ _ _ _ _ handed
            refine ih ?_ filled
            rw [List.length_append]
            omega
      · cases filled
        exact short

end Turns

/-- Two readers that answer alike are drained alike. -/
theorem drain_embed {read : ρ → Nat → Except ε (List α) × ρ} {other : τ → Nat → Except ε (List α) × τ} {embed : ρ → τ}
    (alike : ∀ reader capacity, other (embed reader) capacity = ((read reader capacity).1, embed (read reader capacity).2))
    (reader : ρ) (capacities : List Nat) :
    drain other (embed reader) capacities = ((drain read reader capacities).1, embed (drain read reader capacities).2) := by
  induction capacities generalizing reader with
  | nil => rfl
  | cons capacity capacities ih =>
      rw [drain, drain, alike]
      rcases read reader capacity with ⟨result, after⟩
      cases result with
      | error reason => rfl
      | ok bytes =>
          cases bytes with
          | nil => rfl
          | cons first bytes =>
              dsimp only
              rw [ih]

namespace Drained

variable {front whole : List α} {drained : Drained ε α}

theorem prepend_bytes : (drained.prepend front).bytes = front ++ drained.bytes := by
  cases drained <;> rfl

theorem of_prepend_ended (ended : drained.prepend front = .ended whole) :
    ∃ rest, drained = .ended rest ∧ whole = front ++ rest := by
  cases drained with
  | ended rest => exact ⟨rest, rfl, (Drained.ended.inj ended).symm⟩
  | starved rest => cases ended
  | failed rest reason => cases ended

theorem prepend_mapError (rewrite : ε → δ) : (drained.prepend front).mapError rewrite = (drained.mapError rewrite).prepend front := by
  cases drained <;> rfl

end Drained

section Traces

variable {calls : ρ → Nat → List τ} {read : ρ → Nat → Except ε (List α) × ρ} {Inv : List τ → ρ → Nat → Prop}
  {Usable : Nat → Prop} {limit : Nat}

theorem drain_traces
    (call : ∀ past reader position capacity bytes after, Inv past reader position → Usable capacity →
      read reader capacity = (.ok bytes, after) →
      Inv (past ++ calls reader capacity) after (position + bytes.length) ∧ (bytes = [] → limit ≤ position))
    {capacities : List Nat} (usable : ∀ capacity ∈ capacities, Usable capacity) {past : List τ} {reader : ρ}
    {position : Nat} (invariant : Inv past reader position)
    (answered : ∀ bytes reason, (drain read reader capacities).1 ≠ .failed bytes reason) :
    Inv (past ++ trace calls read reader capacities) (drain read reader capacities).2
        (position + (drain read reader capacities).1.bytes.length) ∧
      ∀ bytes, (drain read reader capacities).1 = .ended bytes → limit ≤ position + bytes.length := by
  induction capacities generalizing past reader position with
  | nil =>
      rw [trace, List.append_nil]
      exact ⟨invariant, nofun⟩
  | cons capacity capacities ih =>
      have suits := usable capacity List.mem_cons_self
      rw [drain] at answered ⊢
      rw [trace]
      rcases called : read reader capacity with ⟨result, after⟩
      rw [called] at answered
      cases result with
      | error reason => exact absurd rfl (answered [] reason)
      | ok bytes =>
          obtain ⟨kept, ending⟩ := call past reader position capacity bytes after invariant suits called
          cases bytes with
          | nil =>
              rw [List.append_nil]
              refine ⟨kept, ?_⟩
              intro _ ended
              cases ended
              exact Nat.le_add_right_of_le (ending rfl)
          | cons first bytes =>
              dsimp only at answered ⊢
              have later := ih (fun other member => usable other (List.mem_cons_of_mem _ member)) kept ?_
              · rw [← List.append_assoc, Drained.prepend_bytes, List.length_append, ← Nat.add_assoc]
                refine ⟨later.1, ?_⟩
                intro whole ended
                obtain ⟨rest, inner, rfl⟩ := Drained.of_prepend_ended ended
                rw [List.length_append, ← Nat.add_assoc]
                exact later.2 rest inner
              · intro rest reason failed
                rw [failed] at answered
                exact answered _ reason rfl

end Traces

/-- How a reader comes by its answers: it is finished, or it runs the loop from where it
stands and is then where the loop has ended. -/
structure Looping (read : ρ → Nat → Except δ (List α) × ρ) (iterate : Nat → σ → Nat → Nat → Except ε (List α) × σ)
    (exhausted : ε) (fuel total : Nat) (progress : ρ → σ) (place stop : ρ → Nat) : Prop where
  finished : ∀ reader capacity, stop reader ≤ place reader ∨ total ≤ place reader →
    read reader capacity = (.ok [], reader)
  running : ∀ reader capacity bytes after, ¬ (stop reader ≤ place reader ∨ total ≤ place reader) →
    read reader capacity = (.ok bytes, after) → stop after = stop reader ∧
      fill (iterate (stop reader)) exhausted capacity (stop reader) total fuel (progress reader) (place reader) [] =
        (.ok (bytes, place after), progress after)

/-- The turns that one call of such a reader takes. -/
def callTurns (iterate : Nat → σ → Nat → Nat → Except ε (List α) × σ) (fuel total : Nat) (progress : ρ → σ)
    (place stop : ρ → Nat) (reader : ρ) (capacity : Nat) : List (Turn σ) :=
  if stop reader ≤ place reader ∨ total ≤ place reader then []
  else turns (iterate (stop reader)) capacity (stop reader) total fuel (progress reader) (place reader) 0

section Calls

variable {read : ρ → Nat → Except δ (List α) × ρ} {iterate : Nat → σ → Nat → Nat → Except ε (List α) × σ}
  {exhausted : ε} {fuel total limit capacity : Nat} {progress : ρ → σ} {place stop : ρ → Nat}
  {Inv : List (Turn σ) → σ → Nat → Prop} {past : List (Turn σ)} {reader after : ρ} {bytes : List α}

theorem Looping.call (looping : Looping read iterate exhausted fuel total progress place stop)
    (step : ∀ past state position room piece after, Inv past state position → position < limit → position < total →
      0 < room → iterate limit state position room = (.ok piece, after) →
      Inv (past ++ [{ state, position, room, count := piece.length }]) after (position + piece.length))
    (ends : stop reader = limit) (invariant : Inv past (progress reader) (place reader)) (positive : 0 < capacity)
    (answered : read reader capacity = (.ok bytes, after)) :
    (stop after = limit ∧ place after = place reader + bytes.length ∧
      Inv (past ++ callTurns iterate fuel total progress place stop reader capacity) (progress after) (place after)) ∧
      (bytes = [] → min limit total ≤ place reader) := by
  subst ends
  rw [callTurns]
  by_cases finished : stop reader ≤ place reader ∨ total ≤ place reader
  · rw [looping.finished reader capacity finished, Prod.mk.injEq, Except.ok.injEq] at answered
    obtain ⟨rfl, rfl⟩ := answered
    rw [if_pos finished, List.append_nil]
    refine ⟨⟨rfl, rfl, invariant⟩, ?_⟩
    intro _
    omega
  · obtain ⟨same, filled⟩ := looping.running reader capacity bytes after finished answered
    obtain ⟨kept, counted, reached⟩ := fill_traces step invariant filled
    rw [List.length_nil] at counted kept
    rw [if_neg finished]
    refine ⟨⟨same, by omega, kept⟩, ?_⟩
    intro same
    subst same
    have ended := reached positive
    rw [List.length_nil] at counted
    omega

/-- What a call answers fits into its buffer. -/
theorem Looping.fits (looping : Looping read iterate exhausted fuel total progress place stop)
    (small : ∀ state position room piece after, iterate (stop reader) state position room = (.ok piece, after) →
      piece.length ≤ room)
    (answered : read reader capacity = (.ok bytes, after)) : bytes.length ≤ capacity := by
  by_cases finished : stop reader ≤ place reader ∨ total ≤ place reader
  · rw [looping.finished reader capacity finished] at answered
    cases answered
    exact Nat.zero_le capacity
  · have empty : ([] : List α).length ≤ capacity := Nat.zero_le capacity
    exact fill_length small empty (looping.running reader capacity bytes after finished answered).2

/-- A drained reader has taken turns of which everything holds that each turn preserves. -/
theorem Looping.drained (looping : Looping read iterate exhausted fuel total progress place stop)
    (step : ∀ past state position room piece after, Inv past state position → position < limit → position < total →
      0 < room → iterate limit state position room = (.ok piece, after) →
      Inv (past ++ [{ state, position, room, count := piece.length }]) after (position + piece.length))
    (ends : stop reader = limit) (invariant : Inv past (progress reader) (place reader)) {capacities : List Nat}
    (usable : ∀ capacity ∈ capacities, 0 < capacity)
    (answered : ∀ bytes reason, (drain read reader capacities).1 ≠ .failed bytes reason) :
    Inv (past ++ trace (callTurns iterate fuel total progress place stop) read reader capacities)
        (progress (drain read reader capacities).2)
        (place reader + (drain read reader capacities).1.bytes.length) ∧
      ∀ bytes, (drain read reader capacities).1 = .ended bytes → min limit total ≤ place reader + bytes.length := by
  have call : ∀ past reader position capacity bytes after,
      (stop reader = limit ∧ place reader = position ∧ Inv past (progress reader) position) → 0 < capacity →
      read reader capacity = (.ok bytes, after) →
      (stop after = limit ∧ place after = position + bytes.length ∧
        Inv (past ++ callTurns iterate fuel total progress place stop reader capacity) (progress after)
          (position + bytes.length)) ∧ (bytes = [] → min limit total ≤ position) := by
    intro past reader _ capacity bytes after standing positive answered
    obtain ⟨ends, rfl, invariant⟩ := standing
    obtain ⟨⟨same, moved, kept⟩, ending⟩ := looping.call step ends invariant positive answered
    rw [moved] at kept
    exact ⟨⟨same, moved, kept⟩, ending⟩
  obtain ⟨⟨_, _, kept⟩, ending⟩ := drain_traces call usable ⟨ends, rfl, invariant⟩ answered
  exact ⟨kept, ending⟩

/-- The same for what does not depend on the turns before. -/
theorem Looping.keeps {Kept : σ → Nat → Prop} (looping : Looping read iterate exhausted fuel total progress place stop)
    (step : ∀ state position room piece after, Kept state position →
      iterate limit state position room = (.ok piece, after) → Kept after (position + piece.length))
    (ends : stop reader = limit) (kept : Kept (progress reader) (place reader)) {capacities : List Nat}
    (usable : ∀ capacity ∈ capacities, 0 < capacity) (ended : (drain read reader capacities).1 = .ended bytes) :
    Kept (progress (drain read reader capacities).2) (place reader + bytes.length) ∧
      min limit total ≤ place reader + bytes.length := by
  obtain ⟨preserved, ending⟩ := @Looping.drained _ _ _ _ _ _ _ _ _ _ _ _ _ _ (fun _ => Kept) [] _
    looping (fun _ state position room piece after kept _ _ _ handed => step state position room piece after kept handed)
    ends kept _ usable fun _ _ failed => by rw [ended] at failed; cases failed
  rw [ended] at preserved
  exact ⟨preserved, ending bytes ended⟩

end Calls

/-- Every position from `first` to `last` lies in a piece that one of the turns handed over. -/
def Covers (taken : List (Turn σ)) (first last : Nat) : Prop :=
  ∀ place, first ≤ place → place < last → ∃ turn ∈ taken, turn.position ≤ place ∧ place < turn.position + turn.count

theorem Covers.next {taken : List (Turn σ)} {first last : Nat} {turn : Turn σ} (covers : Covers taken first last)
    (here : turn.position = last) : Covers (taken ++ [turn]) first (last + turn.count) := by
  intro place lower upper
  by_cases before : place < last
  · obtain ⟨earlier, member, spans⟩ := covers place lower before
    exact ⟨earlier, List.mem_append_left _ member, spans⟩
  · exact ⟨turn, List.mem_append_right _ List.mem_cons_self, by omega, by omega⟩

end Raas.Data
