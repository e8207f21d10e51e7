import Raas.Data.Window

namespace Raas.Data

/-! Reading a byte string by position.

A positional reader remembers how far it has come and fills its caller's buffer
by repeating one step that hands over some bytes found at the current position.
`Delivers` is what one step owes, `fill` is the loop, and `drain` is a caller who
keeps reading until the reader answers with no bytes at all.
-/

variable {α ε σ ρ : Type _}

/-- `while written < capacity && position < stop && position < total`, with the
step `iterate` as its body. The step is given the room left in the buffer. -/
def fill (iterate : σ → Nat → Nat → Except ε (List α) × σ) (exhausted : ε)
    (capacity stop total : Nat) : Nat → σ → Nat → List α → Except ε (List α × Nat) × σ
  | 0, state, _, _ => (.error exhausted, state)
  | fuel + 1, state, position, written =>
      if written.length < capacity ∧ position < stop ∧ position < total then
        match iterate state position (capacity - written.length) with
        | (.error reason, after) => (.error reason, after)
        | (.ok piece, after) =>
            fill iterate exhausted capacity stop total fuel after (position + piece.length) (written ++ piece)
      else (.ok (written, position), state)

/-- The outcome of one step at `position`: a failure that `Fails` admits, or a
non-empty piece of `reference` that neither overfills the room nor crosses `limit`. -/
def Delivers (Inv : σ → Prop) (Fails : ε → Prop) (reference : List α) (limit position room : Nat) :
    Except ε (List α) × σ → Prop
  | (.error reason, after) => Fails reason ∧ Inv after
  | (.ok piece, after) => Inv after ∧ 0 < piece.length ∧ piece.length ≤ room ∧
      position + piece.length ≤ limit ∧ piece = window reference position (position + piece.length)

theorem Delivers.of_window {Inv : σ → Prop} {Fails : ε → Prop} {reference piece : List α}
    {limit position room count : Nat} {after : σ} (kept : Inv after) (positive : 0 < count) (fits : count ≤ room)
    (inside : position + count ≤ limit) (bounded : limit ≤ reference.length)
    (content : piece = window reference position (position + count)) :
    Delivers Inv Fails reference limit position room (.ok piece, after) := by
  have length := window_length_of_le position (Nat.le_trans inside bounded)
  rw [← content, Nat.add_sub_cancel_left] at length
  exact ⟨kept, by omega, by omega, by omega, by rw [length]; exact content⟩

theorem Delivers.of_slice {Inv : σ → Prop} {Fails : ε → Prop} {reference : List α} {limit offset want : Nat} {after : σ}
    (kept : Inv after) (positive : 0 < want) (inside : offset + want ≤ limit) (bounded : limit ≤ reference.length) :
    Delivers Inv Fails reference limit offset want (.ok ((reference.drop offset).take want), after) :=
  .of_window kept positive (Nat.le_refl _) inside bounded (by rw [window, Nat.add_sub_cancel_left])

/-- A piece of a part is a piece of the whole at the part's place. -/
theorem Delivers.of_part {Inv : σ → Prop} {Fails : ε → Prop} {part whole : List α}
    {width limit offset position want room : Nat} {outcome : Except ε (List α) × σ}
    (delivers : Delivers Inv Fails part width offset want outcome)
    (placed : ∀ count, offset + count ≤ width →
      window part offset (offset + count) = window whole position (position + count))
    (fits : want ≤ room) (inside : position + want ≤ limit) :
    Delivers Inv Fails whole limit position room outcome :=
  match outcome, delivers with
  | (.error _, _), failed => failed
  | (.ok piece, _), ⟨kept, positive, counted, within, content⟩ =>
      ⟨kept, positive, by omega, by omega, content.trans (placed piece.length within)⟩

def Fills (Inv : σ → Prop) (Fails : ε → Prop) (reference : List α)
    (limit capacity position : Nat) (written : List α) : Except ε (List α × Nat) × σ → Prop
  | (.error reason, after) => Fails reason ∧ Inv after
  | (.ok (bytes, next), after) => Inv after ∧
      next = min limit (position + (capacity - written.length)) ∧
      bytes = written ++ window reference position next

theorem fill_fills {iterate : σ → Nat → Nat → Except ε (List α) × σ} {exhausted : ε}
    {Inv : σ → Prop} {Fails : ε → Prop} {reference : List α} {capacity stop total fuel first : Nat}
    (step : ∀ state position room, Inv state → first ≤ position → position < min stop total → 0 < room →
      Delivers Inv Fails reference (min stop total) position room (iterate state position room))
    {state : σ} {position : Nat} {written : List α}
    (invariant : Inv state) (ahead : first ≤ position) (bounded : position ≤ min stop total)
    (enough : capacity - written.length < fuel) :
    Fills Inv Fails reference (min stop total) capacity position written
      (fill iterate exhausted capacity stop total fuel state position written) := by
  induction fuel generalizing state position written with
  | zero => omega
  | succ fuel ih =>
      rw [fill]
      split
      · rename_i running
        have delivered := step state position (capacity - written.length) invariant
          ahead (Nat.lt_min.mpr running.2) (by omega)
        cases outcome : iterate state position (capacity - written.length) with
        | mk result after =>
            rw [outcome] at delivered
            cases result with
            | error reason => exact delivered
            | ok piece =>
                obtain ⟨kept, positive, fits, inside, content⟩ := delivered
                have room : (written ++ piece).length = written.length + piece.length := List.length_append
                have remaining : capacity - (written ++ piece).length < fuel := by omega
                have later := ih kept (Nat.le_add_right_of_le ahead) inside remaining
                dsimp only
                revert later
                generalize fill iterate exhausted capacity stop total fuel after
                  (position + piece.length) (written ++ piece) = finished
                match finished with
                | (.error reason, final) => exact id
                | (.ok (bytes, next), final) =>
                    intro filled
                    obtain ⟨keptFinal, reached, collected⟩ := filled
                    have further : position + piece.length ≤ next := by omega
                    refine ⟨keptFinal, by omega, ?_⟩
                    rw [collected, List.append_assoc,
                      ← window_append (Nat.le_add_right position piece.length) further, ← content]
      · rename_i stopped
        have reached : position = min (min stop total) (position + (capacity - written.length)) := by
          omega
        exact ⟨invariant, reached, by rw [window_self, List.append_nil]⟩

/-- What a caller has collected who calls `read` once for each of its buffers,
up to the first empty answer or the first error. -/
inductive Drained (ε α : Type _) where
  | ended (bytes : List α)
  | starved (bytes : List α)
  | failed (bytes : List α) (reason : ε)
deriving DecidableEq

namespace Drained

def prepend (front : List α) : Drained ε α → Drained ε α
  | .ended bytes => .ended (front ++ bytes)
  | .starved bytes => .starved (front ++ bytes)
  | .failed bytes reason => .failed (front ++ bytes) reason

def mapError (rewrite : ε → δ) : Drained ε α → Drained δ α
  | .ended bytes => .ended bytes
  | .starved bytes => .starved bytes
  | .failed bytes reason => .failed bytes (rewrite reason)

def bytes : Drained ε α → List α
  | .ended bytes => bytes
  | .starved bytes => bytes
  | .failed bytes _ => bytes

/-- No error; everything once ended; and before that a front part of `target`,
at least one byte for each of the `calls`. -/
def Yields (target : List α) (calls : Nat) : Drained ε α → Prop
  | .ended bytes => bytes = target
  | .starved bytes => bytes <+: target ∧ calls ≤ bytes.length
  | .failed _ _ => False

theorem Yields.ended {target : List α} {calls : Nat} {drained : Drained ε α}
    (yields : drained.Yields target calls) (enough : target.length < calls) :
    drained = .ended target := by
  cases drained with
  | ended bytes => exact congrArg _ yields
  | starved bytes =>
      have front := yields.1.length_le
      have progress := yields.2
      omega
  | failed bytes reason => exact yields.elim

theorem Yields.prepend {front target : List α} {calls : Nat} {drained : Drained ε α}
    (yields : drained.Yields target calls) (progress : 0 < front.length) :
    (drained.prepend front).Yields (front ++ target) (calls + 1) := by
  cases drained with
  | ended bytes => exact congrArg (front ++ ·) yields
  | starved bytes =>
      obtain ⟨isFront, counted⟩ := yields
      refine ⟨(List.prefix_append_right_inj _).mpr isFront, ?_⟩
      rw [List.length_append]
      omega
  | failed bytes reason => exact yields.elim

theorem Yields.mapError {target : List α} {calls : Nat} {drained : Drained ε α} (rewrite : ε → δ)
    (yields : drained.Yields target calls) : (drained.mapError rewrite).Yields target calls := by
  cases drained with
  | ended bytes => exact yields
  | starved bytes => exact yields
  | failed bytes reason => exact yields.elim

end Drained

def drain (read : ρ → Nat → Except ε (List α) × ρ) : ρ → List Nat → Drained ε α × ρ
  | reader, [] => (.starved [], reader)
  | reader, capacity :: capacities =>
      match read reader capacity with
      | (.error reason, after) => (.failed [] reason, after)
      | (.ok [], after) => (.ended [], after)
      | (.ok (first :: bytes), after) =>
          ((drain read after capacities).1.prepend (first :: bytes), (drain read after capacities).2)

def Answers (Inv : ρ → Nat → Prop) (reference : List α) (limit position capacity : Nat) :
    Except ε (List α) × ρ → Prop
  | (.error _, _) => False
  | (.ok bytes, after) =>
      bytes = window reference position (min limit (position + capacity)) ∧
        Inv after (position + bytes.length)

/-- The same of a reader that may fail, and is then where it was. -/
def Responds (Inv : ρ → Nat → Prop) (Fails : ε → Prop) (reference : List α) (limit position capacity : Nat) :
    Except ε (List α) × ρ → Prop
  | (.error reason, after) => Fails reason ∧ Inv after position
  | (.ok bytes, after) =>
      bytes = window reference position (min limit (position + capacity)) ∧
        Inv after (position + bytes.length)

theorem Responds.imp {Inv : ρ → Nat → Prop} {Fails Admits : ε → Prop} {reference : List α}
    {limit position capacity : Nat} {outcome : Except ε (List α) × ρ}
    (responds : Responds Inv Fails reference limit position capacity outcome)
    (admits : ∀ reason, Fails reason → Admits reason) :
    Responds Inv Admits reference limit position capacity outcome :=
  match outcome, responds with
  | (.error reason, _), failed => ⟨admits reason failed.1, failed.2⟩
  | (.ok _, _), answered => answered

theorem Responds.answers {Inv : ρ → Nat → Prop} {Fails : ε → Prop} {reference : List α}
    {limit position capacity : Nat} {outcome : Except ε (List α) × ρ}
    (responds : Responds Inv Fails reference limit position capacity outcome) (never : ∀ reason, ¬ Fails reason) :
    Answers Inv reference limit position capacity outcome :=
  match outcome, responds with
  | (.error reason, _), failed => never reason failed.1
  | (.ok _, _), answered => answered

/-- A reader that answers every call delivers its interval, whatever the buffers are. -/
theorem drain_yields {read : ρ → Nat → Except ε (List α) × ρ} (Inv : ρ → Nat → Prop)
    (Usable : Nat → Prop) (nonempty : ∀ capacity, Usable capacity → 0 < capacity)
    {reference : List α} {limit : Nat} (inside : limit ≤ reference.length)
    (answers : ∀ reader position capacity, Inv reader position → Usable capacity →
      Answers Inv reference limit position capacity (read reader capacity))
    {capacities : List Nat} (usable : ∀ capacity ∈ capacities, Usable capacity)
    {reader : ρ} {position : Nat} (invariant : Inv reader position) :
    (drain read reader capacities).1.Yields (window reference position limit) capacities.length ∧
      ∃ final, Inv (drain read reader capacities).2 final := by
  induction capacities generalizing reader position with
  | nil => exact ⟨⟨List.nil_prefix, Nat.le_refl _⟩, position, invariant⟩
  | cons capacity rest ih =>
      have positive := nonempty capacity (usable capacity (by simp))
      have answer := answers reader position capacity invariant (usable capacity (by simp))
      rw [drain]
      revert answer
      generalize read reader capacity = outcome
      match outcome with
      | (.error reason, after) => exact False.elim
      | (.ok [], after) =>
          intro answered
          obtain ⟨content, kept⟩ := answered
          have empty := congrArg List.length content
          rw [window_length, List.length_nil] at empty
          refine ⟨?_, position + 0, kept⟩
          exact (window_of_le (by omega)).symm
      | (.ok (first :: bytes), after) =>
          intro answered
          obtain ⟨content, kept⟩ := answered
          have width := congrArg List.length content
          rw [window_length] at width
          obtain ⟨later, final, keptFinal⟩ := ih (fun other member => usable other (by simp [member])) kept
          have next : position + (first :: bytes).length = min limit (position + capacity) := by
            rw [width]
            have counted : 0 < (first :: bytes).length := Nat.succ_pos _
            omega
          have joined : window reference position limit =
              (first :: bytes) ++ window reference (position + (first :: bytes).length) limit := by
            rw [next, content]
            exact (window_append (by omega) (Nat.min_le_left _ _)).symm
          refine ⟨?_, final, keptFinal⟩
          dsimp only
          rw [joined]
          exact later.prepend (Nat.succ_pos _)

end Raas.Data
