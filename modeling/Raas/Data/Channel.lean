import Raas.Data.Ranking

namespace Raas.Data

/-! A producer that hands items to a consumer through a channel of bounded capacity.

`produce` is the producer by itself, and `makes` what it makes in its first turns. In
whatever order the two take their steps, the consumer receives a front part of that in
the same order, and all of it once the channel is over. A consumer that leaves closes the
channel, and the producer learns of it when it sends.
-/

/-- What a producer makes next. -/
inductive Production (σ ι : Type) where
  | item (item : ι) (next : σ)
  /-- An item after which the producer returns. -/
  | last (item : ι)
  | nothing
  /-- It never gets so far. -/
  | stuck

inductive Producer (σ ι : Type) where
  | making (state : σ)
  /-- It waits until the channel takes the item, and goes on from `next`. -/
  | sending (item : ι) (next : Option σ)
  | returned

structure Channel (σ ι : Type) where
  producer : Producer σ ι
  queue : List ι
  received : List ι
  closed : Bool

variable {σ ι : Type}

/-- The items of the first turns, and where the producer is then. -/
def makes (produce : σ → Production σ ι) : Nat → σ → List ι × Option σ
  | 0, state => ([], some state)
  | turns + 1, state =>
      match produce state with
      | .item item next => (item :: (makes produce turns next).1, (makes produce turns next).2)
      | .last item => ([item], none)
      | .nothing => ([], none)
      | .stuck => ([], some state)

def Production.made : Production σ ι → List ι
  | .item value _ | .last value => [value]
  | .nothing | .stuck => []

def Producer.held : Producer σ ι → List ι
  | .sending item _ => [item]
  | _ => []

def Producer.rest : Producer σ ι → Option σ
  | .making state => some state
  | .sending _ next => next
  | .returned => none

def Producer.goOn : Option σ → Producer σ ι
  | some state => .making state
  | none => .returned

/-- The steps that a producer can still take part in, if it returns by itself: it makes an
item, sends it, and the consumer receives it. -/
def Producer.Ends (produce : σ → Production σ ι) : Producer σ ι → Nat → Prop
  | .making state, steps => ∃ turns, steps = 3 * turns ∧ (makes produce turns state).2 = none
  | .sending _ (some state), steps => ∃ turns, steps = 3 * turns + 2 ∧ (makes produce turns state).2 = none
  | .sending _ none, steps => steps = 2
  | .returned, steps => steps = 0

namespace Channel

inductive Event where
  | make
  | send
  | refuse
  | receive
  | close
deriving DecidableEq, Repr

def start (state : σ) : Channel σ ι where
  producer := .making state
  queue := []
  received := []
  closed := false

inductive Step (produce : σ → Production σ ι) (capacity : Nat) : Channel σ ι → Event → Channel σ ι → Prop
  | make {channel : Channel σ ι} {state next : σ} {item : ι} (here : channel.producer = .making state)
      (produced : produce state = .item item next) :
      Step produce capacity channel .make { channel with producer := .sending item (some next) }
  | makeLast {channel : Channel σ ι} {state : σ} {item : ι} (here : channel.producer = .making state)
      (produced : produce state = .last item) :
      Step produce capacity channel .make { channel with producer := .sending item none }
  | makeNothing {channel : Channel σ ι} {state : σ} (here : channel.producer = .making state)
      (produced : produce state = .nothing) : Step produce capacity channel .make { channel with producer := .returned }
  | send {channel : Channel σ ι} {item : ι} {next : Option σ} (here : channel.producer = .sending item next)
      (opened : channel.closed = false) (room : channel.queue.length < capacity) :
      Step produce capacity channel .send
        { channel with producer := .goOn next, queue := channel.queue ++ [item] }
  | refuse {channel : Channel σ ι} {item : ι} {next : Option σ} (here : channel.producer = .sending item next)
      (gone : channel.closed = true) : Step produce capacity channel .refuse { channel with producer := .returned }
  | receive {channel : Channel σ ι} {item : ι} {queue : List ι} (there : channel.queue = item :: queue)
      (opened : channel.closed = false) :
      Step produce capacity channel .receive { channel with queue, received := channel.received ++ [item] }
  | close {channel : Channel σ ι} (opened : channel.closed = false) :
      Step produce capacity channel .close { channel with queue := [], closed := true }

/-- The consumer is told that no more will come. -/
def Over (channel : Channel σ ι) : Prop :=
  channel.producer = .returned ∧ channel.queue = [] ∧ channel.closed = false

end Channel

/-! What the producer makes by itself. -/

section Producing

variable {produce : σ → Production σ ι} {start state : σ} {turns : Nat} {items : List ι}

/-- One turn more. -/
theorem makes_succ (produce : σ → Production σ ι) (turns : Nat) (start : σ) :
    makes produce (turns + 1) start =
      match (makes produce turns start).2 with
      | none => makes produce turns start
      | some state => ((makes produce turns start).1 ++ (makes produce 1 state).1, (makes produce 1 state).2) := by
  induction turns generalizing start with
  | zero => rfl
  | succ turns ih =>
      rw [makes]
      conv => rhs; rw [makes]
      cases produced : produce start with
      | item item next =>
          dsimp only
          rw [ih]
          cases ended : (makes produce turns next).2 with
          | none =>
              dsimp only
              rw [ended]
          | some state => rfl
      | last item => rfl
      | nothing => rfl
      | stuck =>
          dsimp only
          rw [makes, produced]
          rfl

theorem makes_next {more : List ι} {rest : Option σ} (made : makes produce turns start = (items, some state))
    (turn : makes produce 1 state = (more, rest)) : makes produce (turns + 1) start = (items ++ more, rest) := by
  rw [makes_succ, made]
  dsimp only
  rw [turn]

/-- Every item takes a turn of its own. -/
theorem makes_take (front : items <+: (makes produce turns start).1) :
    (makes produce items.length start).1 = items := by
  induction items generalizing turns start with
  | nil => rfl
  | cons item items ih =>
      cases turns with
      | zero => exact absurd front.length_le (by simp [makes])
      | succ turns =>
          rw [makes] at front
          rw [List.length_cons, makes]
          cases produced : produce start with
          | item first next =>
              rw [produced] at front
              obtain ⟨rfl, later⟩ := List.cons_prefix_cons.mp front
              dsimp only
              rw [ih later]
          | last last =>
              rw [produced] at front
              obtain ⟨rfl, later⟩ := List.cons_prefix_cons.mp front
              rw [List.prefix_nil.mp later]
          | nothing =>
              rw [produced] at front
              exact absurd front.length_le (by simp)
          | stuck =>
              rw [produced] at front
              exact absurd front.length_le (by simp)

/-- A producer that has returned makes no more, however many turns it is given. -/
theorem makes_ended (made : makes produce turns start = (items, none)) {more : Nat} (enough : items.length < more) :
    makes produce more start = (items, none) := by
  induction turns generalizing start items more with
  | zero => cases made
  | succ turns ih =>
      cases more with
      | zero => omega
      | succ more =>
          rw [makes] at made ⊢
          cases produced : produce start with
          | item first next =>
              rw [produced] at made
              obtain ⟨rfl, ended⟩ := Prod.mk.inj made
              have later : (makes produce turns next).1.length < more := Nat.lt_of_succ_lt_succ enough
              dsimp only
              rw [ih (Prod.ext rfl ended) later]
          | last last =>
              rw [produced] at made
              exact made
          | nothing =>
              rw [produced] at made
              exact made
          | stuck =>
              rw [produced] at made
              cases made

end Producing

namespace Channel

section Runs

variable {produce : σ → Production σ ι} {capacity : Nat} {origin state : σ} {channel before after : Channel σ ι}
  {event : Event} {events : List Event}

/-- Nothing is lost between the producer and the consumer, nothing comes twice and nothing
overtakes, and the channel holds no more than it may. -/
structure Flows (produce : σ → Production σ ι) (capacity : Nat) (origin : σ) (channel : Channel σ ι) : Prop where
  conserved : channel.closed = false → ∃ turns, makes produce turns origin =
    (channel.received ++ channel.queue ++ channel.producer.held, channel.producer.rest)
  front : ∃ turns, channel.received <+: (makes produce turns origin).1
  bounded : channel.queue.length ≤ capacity
  emptied : channel.closed = true → channel.queue = []

theorem Flows.start (produce : σ → Production σ ι) (capacity : Nat) (state : σ) :
    Flows produce capacity state (.start state) where
  conserved := fun _ => ⟨0, rfl⟩
  front := ⟨0, List.nil_prefix⟩
  bounded := Nat.zero_le _
  emptied := fun _ => rfl

/-- The producer has taken a turn. -/
theorem Flows.turn (flows : Flows produce capacity origin channel) (here : channel.producer = .making state)
    {producer : Producer σ ι} (turn : makes produce 1 state = (producer.held, producer.rest)) :
    Flows produce capacity origin { channel with producer } where
  conserved := by
    intro opened
    obtain ⟨turns, made⟩ := flows.conserved opened
    rw [here] at made
    refine ⟨turns + 1, ?_⟩
    rw [makes_next made turn]
    simp [Producer.held]
  front := flows.front
  bounded := flows.bounded
  emptied := flows.emptied

theorem Flows.step (flows : Flows produce capacity origin before) (taken : Step produce capacity before event after) :
    Flows produce capacity origin after := by
  cases taken with
  | make here produced => exact flows.turn here (by rw [makes, produced]; rfl)
  | makeLast here produced => exact flows.turn here (by rw [makes, produced]; rfl)
  | makeNothing here produced => exact flows.turn here (by rw [makes, produced]; rfl)
  | @send item next here opened room =>
      refine ⟨?_, flows.front, ?_, fun closed => absurd (opened.symm.trans closed) Bool.false_ne_true⟩
      · intro _
        obtain ⟨turns, made⟩ := flows.conserved opened
        rw [here] at made
        refine ⟨turns, made.trans ?_⟩
        cases next <;> simp [Producer.held, Producer.rest, Producer.goOn]
      · rw [List.length_append, List.length_singleton]
        exact room
  | refuse here gone =>
      exact ⟨fun opened => absurd (opened.symm.trans gone) Bool.false_ne_true, flows.front, flows.bounded, flows.emptied⟩
  | @receive item queue there opened =>
      obtain ⟨turns, made⟩ := flows.conserved opened
      rw [there] at made
      have bounded := flows.bounded
      rw [there, List.length_cons] at bounded
      refine ⟨fun _ => ⟨turns, ?_⟩, ⟨turns, ?_⟩, Nat.le_of_succ_le bounded,
        fun closed => absurd (opened.symm.trans closed) Bool.false_ne_true⟩
      · rw [made]
        simp
      · rw [made]
        exact ⟨queue ++ before.producer.held, by simp⟩
  | close opened => exact ⟨fun opened' => absurd opened' (by simp), flows.front, Nat.zero_le _, fun _ => rfl⟩

theorem Flows.reached {condition : Channel σ ι → Event → Prop}
    (reached : Reaches (Step produce capacity) condition (.start origin) channel) :
    Flows produce capacity origin channel := by
  apply reached.invariant (.start produce capacity origin)
  intro before event after flows _ taken
  exact flows.step taken

/-- What the consumer has is what the producer makes in as many turns. -/
theorem Flows.received (flows : Flows produce capacity origin channel) :
    (makes produce channel.received.length origin).1 = channel.received := by
  obtain ⟨turns, front⟩ := flows.front
  exact makes_take front

/-- When the channel is over, the consumer has everything. -/
theorem Flows.complete (flows : Flows produce capacity origin channel) (finished : channel.Over) {turns : Nat}
    (enough : channel.received.length < turns) : makes produce turns origin = (channel.received, none) := by
  obtain ⟨returned, empty, opened⟩ := finished
  obtain ⟨made, conserved⟩ := flows.conserved opened
  rw [returned, empty] at conserved
  have all : channel.received ++ [] ++ Producer.held (.returned : Producer σ ι) = channel.received := by
    simp [Producer.held]
  rw [all] at conserved
  exact makes_ended conserved enough

/-- What holds of all that is made holds of all that is under way. -/
theorem Step.items {Fine : ι → Prop} (fine : ∀ state, ∀ item ∈ (produce state).made, Fine item)
    (earlier : ∀ item ∈ before.queue ++ before.producer.held, Fine item)
    (taken : Step produce capacity before event after) : ∀ item ∈ after.queue ++ after.producer.held, Fine item := by
  rw [List.forall_mem_append] at earlier ⊢
  cases taken with
  | @make state _ item here produced =>
      have made := fine state
      rw [produced] at made
      exact ⟨earlier.1, made⟩
  | @makeLast state item here produced =>
      have made := fine state
      rw [produced] at made
      exact ⟨earlier.1, made⟩
  | makeNothing here produced => exact ⟨earlier.1, List.forall_mem_nil _⟩
  | @send item next here opened room =>
      have held := earlier.2
      rw [here] at held
      refine ⟨List.forall_mem_append.mpr ⟨earlier.1, held⟩, ?_⟩
      cases next <;> exact List.forall_mem_nil _
  | refuse here gone => exact ⟨earlier.1, List.forall_mem_nil _⟩
  | receive there opened =>
      have queued := earlier.1
      rw [there, List.forall_mem_cons] at queued
      exact ⟨queued.2, earlier.2⟩
  | close opened => exact ⟨List.forall_mem_nil _, earlier.2⟩

/-- Nobody waits for ever: until the channel is over or closed and left, somebody can go on. -/
theorem progress (positive : 0 < capacity)
    (unstuck : ∀ state, channel.producer = .making state → produce state ≠ .stuck)
    (going : ¬ channel.Over ∧ ¬ (channel.closed = true ∧ channel.producer = .returned)) :
    ∃ event after, event ≠ .close ∧ Step produce capacity channel event after := by
  cases producing : channel.producer with
  | making state =>
      cases produced : produce state with
      | item item next => exact ⟨.make, _, nofun, .make producing produced⟩
      | last item => exact ⟨.make, _, nofun, .makeLast producing produced⟩
      | nothing => exact ⟨.make, _, nofun, .makeNothing producing produced⟩
      | stuck => exact absurd produced (unstuck state producing)
  | sending item next =>
      cases closed : channel.closed with
      | true => exact ⟨.refuse, _, nofun, .refuse producing closed⟩
      | false =>
          by_cases room : channel.queue.length < capacity
          · exact ⟨.send, _, nofun, .send producing closed room⟩
          · cases held : channel.queue with
            | nil =>
                rw [held, List.length_nil] at room
                exact absurd positive room
            | cons first queue => exact ⟨.receive, _, nofun, .receive held closed⟩
  | returned =>
      cases closed : channel.closed with
      | true => exact absurd ⟨closed, producing⟩ going.2
      | false =>
          cases held : channel.queue with
          | nil => exact absurd ⟨producing, held, closed⟩ going.1
          | cons first queue => exact ⟨.receive, _, nofun, .receive held closed⟩

/-- One step for each item in the channel, and the one that closes it. -/
def load (channel : Channel σ ι) : Nat := channel.queue.length + if channel.closed then 0 else 1

/-- The steps that are left, those of the producer among them. -/
def Ranks (produce : σ → Production σ ι) (channel : Channel σ ι) (rank : Nat) : Prop :=
  ∃ steps, channel.producer.Ends produce steps ∧ rank = steps + channel.load

theorem makes_positive {turns : Nat} (ended : (makes produce turns state).2 = none) : ∃ fewer, turns = fewer + 1 := by
  cases turns with
  | zero => cases ended
  | succ fewer => exact ⟨fewer, rfl⟩

theorem Ranks.lowers {rank : Nat} (ranks : Ranks produce before rank) (taken : Step produce capacity before event after) :
    ∃ lower, lower < rank ∧ Ranks produce after lower := by
  obtain ⟨steps, ends, rfl⟩ := ranks
  cases taken with
  | @make state next item here produced =>
      rw [here] at ends
      obtain ⟨turns, rfl, ended⟩ := ends
      obtain ⟨fewer, rfl⟩ := makes_positive ended
      rw [makes, produced] at ended
      exact ⟨_, Nat.add_lt_add_right (by omega) _, 3 * fewer + 2, ⟨fewer, rfl, ended⟩, rfl⟩
  | makeLast here produced =>
      rw [here] at ends
      obtain ⟨turns, rfl, ended⟩ := ends
      obtain ⟨fewer, rfl⟩ := makes_positive ended
      exact ⟨_, Nat.add_lt_add_right (by omega) _, 2, rfl, rfl⟩
  | makeNothing here produced =>
      rw [here] at ends
      obtain ⟨turns, rfl, ended⟩ := ends
      obtain ⟨fewer, rfl⟩ := makes_positive ended
      exact ⟨_, Nat.add_lt_add_right (by omega) _, 0, rfl, rfl⟩
  | @send item next here opened room =>
      rw [here] at ends
      have longer : load { before with producer := .goOn next, queue := before.queue ++ [item] } = before.load + 1 := by
        simp only [load, opened, List.length_append, List.length_singleton]
        omega
      cases next with
      | none => exact ⟨_, by rw [ends, longer]; omega, 0, rfl, rfl⟩
      | some state =>
          obtain ⟨turns, rfl, ended⟩ := ends
          exact ⟨_, by rw [longer]; omega, 3 * turns, ⟨turns, rfl, ended⟩, rfl⟩
  | @refuse item next here gone =>
      rw [here] at ends
      have positive : 0 < steps := by
        cases next with
        | none => exact ends ▸ Nat.zero_lt_two
        | some state =>
            obtain ⟨turns, rfl, _⟩ := ends
            omega
      exact ⟨_, Nat.add_lt_add_right (by omega) _, 0, rfl, rfl⟩
  | receive there opened =>
      refine ⟨_, ?_, steps, ends, rfl⟩
      simp only [load, there, List.length_cons]
      omega
  | close opened =>
      refine ⟨_, ?_, steps, ends, rfl⟩
      simp only [load, opened, List.length_nil, Bool.false_eq_true, if_false, if_true]
      omega

/-- If the producer by itself returns within some turns, no run takes more than three steps
for each of them, and the producer is never stuck. -/
theorem finite {turns : Nat} (ended : (makes produce turns origin).2 = none)
    (trail : Trail (Step produce capacity) (.start origin) events channel) :
    events.length ≤ 3 * turns + 1 ∧ ∀ state, channel.producer = .making state → produce state ≠ .stuck := by
  have ranks : Ranks produce (.start origin : Channel σ ι) (3 * turns + 1) := ⟨3 * turns, ⟨turns, rfl, ended⟩, rfl⟩
  obtain ⟨left, ⟨steps, ends, _⟩, counted⟩ := trail.bounded (fun _ _ _ _ ranks taken => Ranks.lowers ranks taken) ranks
  refine ⟨by omega, ?_⟩
  intro state here stuck
  rw [here] at ends
  obtain ⟨others, _, returns⟩ := ends
  obtain ⟨fewer, rfl⟩ := makes_positive returns
  rw [makes, stuck] at returns
  cases returns

/-- Where a producer has come since the channel was closed. -/
inductive Leaving (before : Channel σ ι) : List Event → Channel σ ι → Prop
  | stayed : Leaving before [] before
  | made {producer : Producer σ ι} (idle : ∀ state, producer ≠ .making state) :
      Leaving before [.make] { before with producer }
  | refused : Leaving before [.refuse] { before with producer := .returned }
  | gaveUp : Leaving before [.make, .refuse] { before with producer := .returned }

theorem Leaving.step (leaving : Leaving before events channel) (gone : before.closed = true) (empty : before.queue = [])
    (taken : Step produce capacity channel event after) : Leaving before (events ++ [event]) after := by
  have shut : channel.closed = true ∧ channel.queue = [] := by cases leaving <;> exact ⟨gone, empty⟩
  cases taken with
  | send here opened room => exact absurd (opened.symm.trans shut.1) Bool.false_ne_true
  | receive there opened => exact absurd (opened.symm.trans shut.1) Bool.false_ne_true
  | close opened => exact absurd (opened.symm.trans shut.1) Bool.false_ne_true
  | make here produced =>
      cases leaving with
      | stayed => exact .made nofun
      | made idle => exact absurd here (idle _)
      | refused => cases here
      | gaveUp => cases here
  | makeLast here produced =>
      cases leaving with
      | stayed => exact .made nofun
      | made idle => exact absurd here (idle _)
      | refused => cases here
      | gaveUp => cases here
  | makeNothing here produced =>
      cases leaving with
      | stayed => exact .made nofun
      | made idle => exact absurd here (idle _)
      | refused => cases here
      | gaveUp => cases here
  | refuse here _ =>
      cases leaving with
      | stayed => exact .refused
      | made idle => exact .gaveUp
      | refused => cases here
      | gaveUp => cases here

/-- When the consumer has left, the producer makes one more item at most, cannot send it and
returns. -/
theorem Flows.leaving (flows : Flows produce capacity origin before) (gone : before.closed = true)
    (trail : Trail (Step produce capacity) before events after) : Leaving before events after := by
  induction trail with
  | start => exact .stayed
  | next _ taken ih => exact ih.step gone (flows.emptied gone) taken

end Runs

end Channel

end Raas.Data
