import Raas.Data.Positional

namespace Raas.Data

/-! Reading from a source that promises nothing.

`run fuel` is the answer of a computation that may take `fuel` turns. It settles
on a value when every large enough amount of fuel gives that value. The loop
`fill` and the caller `drain` settle as soon as their steps do and each step
moves ahead, whatever the steps hand over and wherever they fail.
-/

variable {α β γ ε σ ρ : Type _}

def Settles (run : Nat → β) (value : β) : Prop :=
  ∃ enough, ∀ fuel, enough ≤ fuel → run fuel = value

namespace Settles

variable {run : Nat → β} {value : β}

theorem const (value : β) : Settles (fun _ => value) value :=
  ⟨0, fun _ _ => rfl⟩

theorem reaches (settles : Settles run value) : ∃ fuel, run fuel = value :=
  settles.imp fun enough answers => answers enough (Nat.le_refl enough)

theorem bind {next : Nat → β → γ} {result : γ} (first : Settles run value)
    (second : Settles (fun fuel => next fuel value) result) : Settles (fun fuel => next fuel (run fuel)) result := by
  obtain ⟨enough, answers⟩ := first
  obtain ⟨more, continues⟩ := second
  refine ⟨max enough more, ?_⟩
  intro fuel large
  dsimp only
  rw [answers fuel (by omega)]
  exact continues fuel (by omega)

theorem map (change : β → γ) (settles : Settles run value) : Settles (fun fuel => change (run fuel)) (change value) :=
  settles.bind (.const _)

theorem follow {whole : Nat → γ} {result : γ} (settles : Settles run value)
    (next : ∀ fuel, run fuel = value → whole fuel = result) : Settles whole result := by
  obtain ⟨enough, answers⟩ := settles
  exact ⟨enough, fun fuel large => next fuel (answers fuel large)⟩

theorem of_succ {later : Nat → β} (turn : ∀ fuel, run (fuel + 1) = later fuel) (settles : Settles later value) :
    Settles run value := by
  obtain ⟨enough, answers⟩ := settles
  refine ⟨enough + 1, ?_⟩
  intro fuel large
  cases fuel with
  | zero => omega
  | succ fuel => rw [turn, answers fuel (by omega)]

end Settles

/-- How the state behind a reader may change, and what is owed at each position:
what was owed once stays owed. -/
structure Evolution (Later : σ → σ → Prop) (Owes : σ → Nat → α → Prop) : Prop where
  refl : ∀ state, Later state state
  trans : ∀ {before between after}, Later before between → Later between after → Later before after
  keeps : ∀ {before after position item}, Later before after → Owes before position item → Owes after position item

def Pays (Owes : σ → Nat → α → Prop) (state : σ) (position : Nat) (items : List α) : Prop :=
  ∀ index item, items[index]? = some item → Owes state (position + index) item

section Payments

variable {Later : σ → σ → Prop} {Owes : σ → Nat → α → Prop} {state before after : σ} {position : Nat}
  {items front back : List α}

theorem Pays.nil : Pays Owes state position [] := by
  intro index item found
  simp at found

theorem Pays.later (evolution : Evolution Later Owes) (later : Later before after)
    (pays : Pays Owes before position items) : Pays Owes after position items :=
  fun index item found => evolution.keeps later (pays index item found)

theorem Pays.append (first : Pays Owes state position front)
    (second : Pays Owes state (position + front.length) back) : Pays Owes state position (front ++ back) := by
  intro index item found
  by_cases inside : index < front.length
  · rw [List.getElem?_append_left inside] at found
    exact first index item found
  · rw [List.getElem?_append_right (by omega)] at found
    have owed := second (index - front.length) item found
    rwa [Nat.add_assoc, Nat.add_sub_cancel' (by omega)] at owed

end Payments

/-- The outcome of one step: a failure that `Fails` admits, or a non-empty piece
that neither overfills the room nor crosses `stop`, each item as it is owed. -/
def Hands (Later : σ → σ → Prop) (Owes : σ → Nat → α → Prop) (Fails : ε → Prop) (stop position room : Nat)
    (state : σ) : Except ε (List α) × σ → Prop
  | (.error reason, after) => Fails reason ∧ Later state after
  | (.ok piece, after) => Later state after ∧ 0 < piece.length ∧ piece.length ≤ room ∧
      position + piece.length ≤ stop ∧ Pays Owes after position piece

def Collects (Later : σ → σ → Prop) (Owes : σ → Nat → α → Prop) (Fails : ε → Prop)
    (capacity stop total position : Nat) (written : List α) (state : σ) : Except ε (List α × Nat) × σ → Prop
  | (.error reason, after) => Fails reason ∧ Later state after
  | (.ok (bytes, next), after) => Later state after ∧ (bytes.length < capacity → min stop total ≤ next) ∧
      ∃ more, bytes = written ++ more ∧ next = position + more.length ∧ next ≤ stop ∧ Pays Owes after position more

section Collecting

variable {Later : σ → σ → Prop} {Owes : σ → Nat → α → Prop} {Fails : ε → Prop} {capacity stop total position : Nat}
  {written piece : List α} {state after : σ} {outcome : Except ε (List α × Nat) × σ}

theorem Collects.later (evolution : Evolution Later Owes) (later : Later state after)
    (collects : Collects Later Owes Fails capacity stop total position written after outcome) :
    Collects Later Owes Fails capacity stop total position written state outcome := by
  obtain ⟨result, last⟩ := outcome
  cases result with
  | error reason => exact ⟨collects.1, evolution.trans later collects.2⟩
  | ok collected => exact ⟨evolution.trans later collects.1, collects.2⟩

theorem Collects.prepend (evolution : Evolution Later Owes) (later : Later state after)
    (pays : Pays Owes after position piece)
    (collects : Collects Later Owes Fails capacity stop total (position + piece.length) (written ++ piece) after
      outcome) : Collects Later Owes Fails capacity stop total position written state outcome := by
  obtain ⟨result, last⟩ := outcome
  cases result with
  | error reason => exact ⟨collects.1, evolution.trans later collects.2⟩
  | ok collected =>
      obtain ⟨bytes, next⟩ := collected
      obtain ⟨moved, reached, rest, joined, ends, within, paid⟩ := collects
      refine ⟨evolution.trans later moved, reached, piece ++ rest, ?_, ?_, within, ?_⟩
      · rw [joined, List.append_assoc]
      · rw [ends, List.length_append, Nat.add_assoc]
      · exact (pays.later evolution moved).append paid

end Collecting

/-- The loop gets on from `state`: after some turns that hand over nothing there is
one that fails or hands something over. -/
inductive Moves (iterate : Nat → σ → Nat → Nat → Except ε (List α) × σ) (Later : σ → σ → Prop)
    (Owes : σ → Nat → α → Prop) (Fails : ε → Prop) (Inv : σ → Nat → Nat → Prop) (stop position written room : Nat) :
    σ → Prop
  | hands {state : σ} {outcome : Except ε (List α) × σ}
      (turn : Settles (fun fuel => iterate fuel state position room) outcome)
      (handed : Hands Later Owes Fails stop position room state outcome)
      (kept : ∀ piece after, outcome = (.ok piece, after) → Inv after (position + piece.length) (written + piece.length)) :
      Moves iterate Later Owes Fails Inv stop position written room state
  | waits {state after : σ} (turn : Settles (fun fuel => iterate fuel state position room) (.ok [], after))
      (later : Later state after) (rest : Moves iterate Later Owes Fails Inv stop position written room after) :
      Moves iterate Later Owes Fails Inv stop position written room state

/-- The loop and its step settle together, however much fuel each of them is given. -/
def FillSettles (iterate : Nat → σ → Nat → Nat → Except ε (List α) × σ) (exhausted : ε)
    (capacity stop total : Nat) (state : σ) (position : Nat) (written : List α)
    (outcome : Except ε (List α × Nat) × σ) : Prop :=
  ∃ enough, ∀ inner fuel, enough ≤ inner → enough ≤ fuel →
    fill (iterate inner) exhausted capacity stop total fuel state position written = outcome

section Filling

variable {iterate : Nat → σ → Nat → Nat → Except ε (List α) × σ} {exhausted : ε} {capacity stop total : Nat}
  {state after : σ} {position : Nat} {written piece : List α} {outcome : Except ε (List α × Nat) × σ}

theorem FillSettles.turn (running : written.length < capacity ∧ position < stop ∧ position < total)
    (turn : Settles (fun fuel => iterate fuel state position (capacity - written.length)) (.ok piece, after))
    (rest : FillSettles iterate exhausted capacity stop total after (position + piece.length) (written ++ piece)
      outcome) : FillSettles iterate exhausted capacity stop total state position written outcome := by
  obtain ⟨enough, answers⟩ := turn
  obtain ⟨more, continues⟩ := rest
  refine ⟨max enough more + 1, ?_⟩
  intro inner fuel large size
  have answer : iterate inner state position (capacity - written.length) = (.ok piece, after) :=
    answers inner (by omega)
  obtain ⟨fuel, rfl⟩ := Nat.exists_eq_add_of_lt size
  rw [fill, if_pos running, answer]
  exact continues inner _ (by omega) (by omega)

theorem FillSettles.fails {reason : ε} (running : written.length < capacity ∧ position < stop ∧ position < total)
    (turn : Settles (fun fuel => iterate fuel state position (capacity - written.length)) (.error reason, after)) :
    FillSettles iterate exhausted capacity stop total state position written (.error reason, after) := by
  obtain ⟨enough, answers⟩ := turn
  refine ⟨enough + 1, ?_⟩
  intro inner fuel large size
  have answer : iterate inner state position (capacity - written.length) = (.error reason, after) :=
    answers inner (by omega)
  obtain ⟨fuel, rfl⟩ := Nat.exists_eq_add_of_lt size
  rw [fill, if_pos running, answer]

theorem FillSettles.stopped (stopped : ¬ (written.length < capacity ∧ position < stop ∧ position < total)) :
    FillSettles iterate exhausted capacity stop total state position written (.ok (written, position), state) := by
  refine ⟨1, ?_⟩
  intro inner fuel _ size
  obtain ⟨fuel, rfl⟩ := Nat.exists_eq_add_of_lt size
  rw [fill, if_neg stopped]

/-- A loop that gets on wherever it comes to settles. -/
theorem fill_settles {Later : σ → σ → Prop} {Owes : σ → Nat → α → Prop} {Fails : ε → Prop}
    (evolution : Evolution Later Owes) {Inv : σ → Nat → Nat → Prop}
    (step : ∀ state position written, Inv state position written → written < capacity → position < stop →
      position < total → Moves iterate Later Owes Fails Inv stop position written (capacity - written) state)
    (invariant : Inv state position written.length) (bounded : position ≤ stop) :
    ∃ outcome, FillSettles iterate exhausted capacity stop total state position written outcome ∧
      Collects Later Owes Fails capacity stop total position written state outcome := by
  -- on the room left, and at one position on the turns that hand over nothing
  generalize room : capacity - written.length = remaining
  induction remaining using Nat.strongRecOn generalizing state position written with
  | ind remaining ih =>
      by_cases running : written.length < capacity ∧ position < stop ∧ position < total
      · have moves := step state position written.length invariant running.1 running.2.1 running.2.2
        clear invariant
        induction moves with
        | @waits state after turn later rest getsOn =>
            obtain ⟨outcome, settles, collects⟩ := getsOn
            refine ⟨outcome, .turn running turn ?_, collects.later evolution later⟩
            rw [List.append_nil]
            exact settles
        | @hands state outcome turn handed kept =>
            obtain ⟨result, after⟩ := outcome
            cases result with
            | error reason => exact ⟨(.error reason, after), .fails running turn, handed⟩
            | ok piece =>
                obtain ⟨later, positive, fits, inside, pays⟩ := handed
                have length : (written ++ piece).length = written.length + piece.length := List.length_append
                have smaller : capacity - (written ++ piece).length < remaining := by omega
                have next : Inv after (position + piece.length) (written ++ piece).length := by
                  rw [length]
                  exact kept piece after rfl
                obtain ⟨outcome, settles, collects⟩ := ih _ smaller next inside rfl
                exact ⟨outcome, .turn running turn settles, collects.prepend evolution later pays⟩
      · refine ⟨(.ok (written, position), state), .stopped running, evolution.refl state, ?_, [], ?_, rfl, bounded, .nil⟩
        · intro room
          omega
        · rw [List.append_nil]

end Filling

/-- What one call of a reader owes: it fails and stays where it is, or it goes ahead,
or there is nothing left before `stop` and `total`. -/
def Replies (Inv : ρ → Nat → Prop) (Later : ρ → ρ → Prop) (Owes : ρ → Nat → α → Prop) (Fails : ε → Prop)
    (stop total position : Nat) (reader : ρ) : Except ε (List α) × ρ → Prop
  | (.error reason, after) => Fails reason ∧ Later reader after ∧ Inv after position
  | (.ok bytes, after) => Later reader after ∧ Inv after (position + bytes.length) ∧
      position + bytes.length ≤ max position stop ∧ (bytes = [] → min stop total ≤ position) ∧
      Pays Owes after position bytes

/-- What a body of `width` items owes: all of them, or an error behind some of them. -/
def Body (Later : ρ → ρ → Prop) (Owes : ρ → Nat → α → Prop) (Fails : ε → Prop) (width position calls : Nat)
    (reader : ρ) (body : Drained ε α × ρ) : Prop :=
  Later reader body.2 ∧ Pays Owes body.2 position body.1.bytes ∧
    match body.1 with
    | .ended bytes => bytes.length = width
    | .starved bytes => bytes.length ≤ width ∧ calls ≤ bytes.length
    | .failed bytes reason => bytes.length ≤ width ∧ Fails reason

def drainNext (rest : ρ → Drained ε α × ρ) : Except ε (List α) × ρ → Drained ε α × ρ
  | (.error reason, after) => (.failed [] reason, after)
  | (.ok [], after) => (.ended [], after)
  | (.ok (first :: bytes), after) => ((rest after).1.prepend (first :: bytes), (rest after).2)

theorem drain_cons (read : ρ → Nat → Except ε (List α) × ρ) (reader : ρ) (capacity : Nat) (capacities : List Nat) :
    drain read reader (capacity :: capacities) =
      drainNext (fun after => drain read after capacities) (read reader capacity) := by
  rw [drain]
  rcases read reader capacity with ⟨reason | _ | _, after⟩ <;> rfl

theorem Body.prepend {Later : ρ → ρ → Prop} {Owes : ρ → Nat → α → Prop} {Fails : ε → Prop}
    (evolution : Evolution Later Owes) {width position calls : Nat} {reader after : ρ} {front : List α}
    {body : Drained ε α × ρ} (later : Later reader after) (pays : Pays Owes after position front)
    (positive : 0 < front.length)
    (rest : Body Later Owes Fails width (position + front.length) calls after body) :
    Body Later Owes Fails (front.length + width) position (calls + 1) reader (body.1.prepend front, body.2) := by
  obtain ⟨drained, final⟩ := body
  obtain ⟨moved, paid, outcome⟩ := rest
  have first := pays.later evolution moved
  cases drained with
  | ended bytes =>
      refine ⟨evolution.trans later moved, first.append paid, ?_⟩
      exact List.length_append.trans (congrArg (front.length + ·) outcome)
  | starved bytes =>
      have length : (front ++ bytes).length = front.length + bytes.length := List.length_append
      refine ⟨evolution.trans later moved, first.append paid, ?_, ?_⟩ <;> omega
  | failed bytes reason =>
      have length : (front ++ bytes).length = front.length + bytes.length := List.length_append
      refine ⟨evolution.trans later moved, first.append paid, ?_, outcome.2⟩
      have bounded := outcome.1
      omega

theorem drain_settles {read : Nat → ρ → Nat → Except ε (List α) × ρ} {Inv : ρ → Nat → Prop}
    {Later : ρ → ρ → Prop} {Owes : ρ → Nat → α → Prop} {Fails : ε → Prop} (evolution : Evolution Later Owes)
    {Usable : Nat → Prop} {stop total : Nat} (inside : stop ≤ total)
    (call : ∀ reader position capacity, Inv reader position → Usable capacity →
      ∃ outcome, Settles (fun fuel => read fuel reader capacity) outcome ∧
        Replies Inv Later Owes Fails stop total position reader outcome)
    {capacities : List Nat} (usable : ∀ capacity ∈ capacities, Usable capacity)
    {reader : ρ} {position : Nat} (invariant : Inv reader position) (bounded : position ≤ stop) :
    ∃ body, Settles (fun fuel => drain (read fuel) reader capacities) body ∧
      Body Later Owes Fails (stop - position) position capacities.length reader body := by
  induction capacities generalizing reader position with
  | nil => exact ⟨_, .const _, evolution.refl reader, .nil, Nat.zero_le _, Nat.le_refl _⟩
  | cons capacity capacities ih =>
      obtain ⟨⟨result, after⟩, settles, replies⟩ :=
        call reader position capacity invariant (usable capacity (by simp))
      simp only [drain_cons]
      cases result with
      | error reason =>
          exact ⟨(.failed [] reason, after), settles.bind (.const _), replies.2.1, .nil, Nat.zero_le _, replies.1⟩
      | ok bytes =>
          obtain ⟨later, kept, within, ending, pays⟩ := replies
          cases bytes with
          | nil =>
              refine ⟨(.ended [], after), settles.bind (.const _), later, .nil, ?_⟩
              have reached := ending rfl
              simp only [List.length_nil]
              omega
          | cons first bytes =>
              obtain ⟨body, continues, rest⟩ :=
                ih (fun other member => usable other (by simp [member])) kept (by omega)
              refine ⟨(body.1.prepend (first :: bytes), body.2), settles.bind ?_, ?_⟩
              · exact continues.map fun body => (body.1.prepend (first :: bytes), body.2)
              · have whole := rest.prepend evolution later pays (Nat.succ_pos _)
                rwa [show (first :: bytes).length + (stop - (position + (first :: bytes).length)) =
                  stop - position by omega] at whole

end Raas.Data
