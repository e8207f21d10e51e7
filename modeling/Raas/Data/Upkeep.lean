import Mathlib.Data.List.Basic

namespace Raas.Data

/-! A store of values that were computed from a world. The world changes, and for every
change there is a notice of what it concerns. A value may have gone bad only while such a
notice is still to be dealt with. -/

section Upkeep

variable {σ κ ν ρ : Type} {Good : σ → κ → ν → Prop} {Concerns : ρ → κ → Prop} {world later : σ}
  {store after : κ → Option ν} {outstanding remaining : List ρ} {key : κ} {value : ν}

/-- Every value in the store is good, or a notice that concerns it is outstanding. -/
def Upheld (Good : σ → κ → ν → Prop) (Concerns : ρ → κ → Prop) (world : σ) (store : κ → Option ν)
    (outstanding : List ρ) : Prop :=
  ∀ key value, store key = some value → Good world key value ∨ ∃ notice ∈ outstanding, Concerns notice key

theorem Upheld.good (upheld : Upheld Good Concerns world store outstanding) (held : store key = some value)
    (quiet : ∀ notice ∈ outstanding, ¬ Concerns notice key) : Good world key value := by
  rcases upheld key value held with good | concerned
  · exact good
  · obtain ⟨notice, member, concerns⟩ := concerned
    exact absurd concerns (quiet notice member)

/-- The world changes: what it makes bad, a notice concerns. -/
theorem Upheld.change (upheld : Upheld Good Concerns world store outstanding) (sent : List ρ)
    (told : ∀ key value, store key = some value → Good world key value →
      Good later key value ∨ ∃ notice ∈ outstanding ++ sent, Concerns notice key) :
    Upheld Good Concerns later store (outstanding ++ sent) := by
  intro key value held
  rcases upheld key value held with good | concerned
  · exact told key value held good
  · obtain ⟨notice, member, concerns⟩ := concerned
    exact .inr ⟨notice, List.mem_append_left _ member, concerns⟩

/-- Values are dropped, and with them the notices that concern none of those that stay. -/
theorem Upheld.settle (upheld : Upheld Good Concerns world store outstanding)
    (stays : ∀ key value, after key = some value → store key = some value)
    (settled : ∀ key value, after key = some value → ∀ notice ∈ outstanding, Concerns notice key →
      ∃ other ∈ remaining, Concerns other key) :
    Upheld Good Concerns world after remaining := by
  intro key value held
  rcases upheld key value (stays key value held) with good | concerned
  · exact .inl good
  · obtain ⟨notice, member, concerns⟩ := concerned
    exact .inr (settled key value held notice member concerns)

/-- One value is put into the store. -/
theorem Upheld.put (upheld : Upheld Good Concerns world store outstanding)
    (others : ∀ other, other ≠ key → after other = store other)
    (own : ∀ value, after key = some value → Good world key value ∨ ∃ notice ∈ outstanding, Concerns notice key) :
    Upheld Good Concerns world after outstanding := by
  intro other value held
  by_cases same : other = key
  · subst same
    exact own value held
  · rw [others other same] at held
    exact upheld other value held

end Upkeep

end Raas.Data
