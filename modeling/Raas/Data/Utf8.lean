import Mathlib.Data.List.Basic
import Mathlib.Data.List.Forall2
import Raas.Data.Pieces

namespace Raas.Data.Utf8

/-! UTF-8 over raw bytes.

A byte string is cut from the front into characters and maximal invalid chunks;
both the position of the first error and the lossy decoding follow that cut.
-/

def isTail (byte : UInt8) : Bool := 0x80 ≤ byte && byte ≤ 0xBF

/-- Counts the bytes of a character of which `owed` continuation bytes are still to come. -/
def tails : Nat → Nat → List UInt8 → Bool × Nat
  | 0, seen, _ => (true, seen)
  | _ + 1, seen, [] => (false, seen)
  | owed + 1, seen, byte :: rest => if isTail byte then tails owed (seen + 1) rest else (false, seen)

/-- After a leading byte: the second byte has a range of its own. -/
def second (low high : UInt8) (owed : Nat) : List UInt8 → Bool × Nat
  | [] => (false, 1)
  | byte :: rest => if low ≤ byte && byte ≤ high then tails owed 2 rest else (false, 1)

/-- For a byte that leads a longer character: the range of the second byte, and
how many bytes follow it. -/
def lead (first : UInt8) : Option (UInt8 × UInt8 × Nat) :=
  if 0xC2 ≤ first && first ≤ 0xDF then some (0x80, 0xBF, 0)
  else if first == 0xE0 then some (0xA0, 0xBF, 1)
  else if 0xE1 ≤ first && first ≤ 0xEC then some (0x80, 0xBF, 1)
  else if first == 0xED then some (0x80, 0x9F, 1)
  else if 0xEE ≤ first && first ≤ 0xEF then some (0x80, 0xBF, 1)
  else if first == 0xF0 then some (0x90, 0xBF, 2)
  else if 0xF1 ≤ first && first ≤ 0xF3 then some (0x80, 0xBF, 2)
  else if first == 0xF4 then some (0x80, 0x8F, 2)
  else none

/-- Whether the front of a non-empty byte string is a character, and the number
of bytes that the character or the invalid chunk takes. -/
def front : List UInt8 → Bool × Nat
  | [] => (true, 0)
  | first :: rest =>
      if first < 0x80 then (true, 1)
      else
        match lead first with
        | some (low, high, owed) => second low high owed rest
        | none => (false, 1)

def cutFrom : Nat → List UInt8 → List (Bool × List UInt8)
  | 0, _ => []
  | _ + 1, [] => []
  | fuel + 1, first :: rest =>
      let found := front (first :: rest)
      (found.1, (first :: rest).take found.2) :: cutFrom fuel ((first :: rest).drop found.2)

/-- The characters and the maximal invalid chunks of a byte string, in order. -/
def cut (bytes : List UInt8) : List (Bool × List UInt8) := cutFrom bytes.length bytes

/-- The length of the longest valid front, `Utf8Error::valid_up_to`. -/
def validUpTo (bytes : List UInt8) : Nat := (((cut bytes).takeWhile Prod.fst).flatMap Prod.snd).length

def Valid (bytes : List UInt8) : Prop := ∀ piece ∈ cut bytes, piece.1 = true

instance (bytes : List UInt8) : Decidable (Valid bytes) :=
  inferInstanceAs (Decidable (∀ piece ∈ cut bytes, piece.1 = true))

/-- U+FFFD. -/
def replacement : List UInt8 := [0xEF, 0xBF, 0xBD]

/-- Every maximal invalid chunk becomes one replacement character,
`String::from_utf8_lossy`. -/
def lossy (bytes : List UInt8) : List UInt8 :=
  (cut bytes).flatMap fun piece => if piece.1 then piece.2 else replacement

/-! The cut. -/

section Cut

variable {owed seen width : Nat} {first low high next : UInt8} {bytes rest : List UInt8}

theorem tails_bounds (owed seen : Nat) (bytes : List UInt8) :
    seen ≤ (tails owed seen bytes).2 ∧ (tails owed seen bytes).2 ≤ seen + bytes.length := by
  induction owed generalizing seen bytes with
  | zero => simp [tails]
  | succ owed ih =>
      cases bytes with
      | nil => simp [tails]
      | cons byte rest =>
          rw [tails, List.length_cons]
          split
          · have inner := ih (seen + 1) rest
            omega
          · simp

theorem tails_append (ends : isTail next = false) (owed seen : Nat) (bytes rest : List UInt8) :
    tails owed seen (bytes ++ next :: rest) = tails owed seen bytes := by
  induction owed generalizing seen bytes with
  | zero => rfl
  | succ owed ih =>
      cases bytes with
      | nil => simp [tails, ends]
      | cons byte bytes =>
          rw [List.cons_append, tails, tails, ih]

theorem tails_take (complete : tails owed seen bytes = (true, width)) (rest : List UInt8) :
    width = seen + owed ∧ owed ≤ bytes.length ∧ tails owed seen (bytes.take owed ++ rest) = (true, width) := by
  induction owed generalizing seen bytes with
  | zero =>
      simp only [tails, Prod.mk.injEq, true_and] at complete
      subst complete
      exact ⟨rfl, Nat.zero_le _, rfl⟩
  | succ owed ih =>
      cases bytes with
      | nil => simp [tails] at complete
      | cons byte bytes =>
          rw [tails] at complete
          split at complete
          · rename_i tail
            obtain ⟨total, inside, again⟩ := ih complete
            refine ⟨by omega, by simpa using inside, ?_⟩
            rw [List.take_succ_cons, List.cons_append, tails, if_pos tail]
            exact again
          · simp at complete

theorem isTail_of_ascii (ascii : next < 0x80) : isTail next = false := by
  have before : ¬ (0x80 : UInt8) ≤ next := UInt8.not_le.mpr ascii
  simp [isTail, before]

theorem second_append (ascii : next < 0x80) (above : 0x80 ≤ low) (bytes rest : List UInt8) :
    second low high owed (bytes ++ next :: rest) = second low high owed bytes := by
  cases bytes with
  | nil =>
      have before : ¬ low ≤ next := UInt8.not_le.mpr (UInt8.lt_of_lt_of_le ascii above)
      simp [second, before]
  | cons byte bytes =>
      rw [List.cons_append, second, second, tails_append (isTail_of_ascii ascii)]

theorem second_bounds (low high : UInt8) (owed : Nat) (bytes : List UInt8) :
    1 ≤ (second low high owed bytes).2 ∧ (second low high owed bytes).2 ≤ bytes.length + 1 := by
  cases bytes with
  | nil => simp [second]
  | cons byte bytes =>
      rw [second, List.length_cons]
      split
      · have inner := tails_bounds owed 2 bytes
        omega
      · simp

theorem second_take (complete : second low high owed bytes = (true, width)) (rest : List UInt8) :
    width = owed + 2 ∧ owed + 1 ≤ bytes.length ∧
      second low high owed (bytes.take (owed + 1) ++ rest) = (true, width) := by
  cases bytes with
  | nil => simp [second] at complete
  | cons byte bytes =>
      rw [second] at complete
      split at complete
      · rename_i ranged
        obtain ⟨total, inside, again⟩ := tails_take complete rest
        refine ⟨by omega, by simpa using inside, ?_⟩
        rw [List.take_succ_cons, List.cons_append, second, if_pos ranged]
        exact again
      · simp at complete

theorem lead_low {first : UInt8} (leads : lead first = some (low, high, owed)) : 0x80 ≤ low := by
  unfold lead at leads
  repeat' split at leads
  all_goals simp only [Option.some.injEq, Prod.mk.injEq, reduceCtorEq] at leads
  all_goals
    obtain ⟨rfl, _, _⟩ := leads
    decide

theorem lead_owed {first : UInt8} (leads : lead first = some (low, high, owed)) : owed ≤ 2 := by
  unfold lead at leads
  repeat' split at leads
  all_goals simp only [Option.some.injEq, Prod.mk.injEq, reduceCtorEq] at leads
  all_goals
    obtain ⟨_, _, rfl⟩ := leads
    decide

theorem front_append (ascii : next < 0x80) (first : UInt8) (bytes rest : List UInt8) :
    front (first :: bytes ++ next :: rest) = front (first :: bytes) := by
  rw [List.cons_append, front, front]
  cases leads : lead first with
  | none => rfl
  | some range =>
      obtain ⟨low, high, owed⟩ := range
      dsimp only
      rw [second_append ascii (lead_low leads)]

theorem front_bounds (first : UInt8) (bytes : List UInt8) :
    1 ≤ (front (first :: bytes)).2 ∧ (front (first :: bytes)).2 ≤ (first :: bytes).length := by
  rw [front, List.length_cons]
  split
  · simp
  · cases lead first with
    | none => simp
    | some range =>
        obtain ⟨low, high, owed⟩ := range
        exact second_bounds low high owed bytes

theorem front_take (complete : front (first :: bytes) = (true, width)) (rest : List UInt8) :
    front ((first :: bytes).take width ++ rest) = (true, width) := by
  rw [front] at complete
  split at complete
  · rename_i ascii
    simp only [Prod.mk.injEq, true_and] at complete
    subst complete
    rw [List.take_succ_cons, List.cons_append, front, if_pos ascii]
  · rename_i long
    cases leads : lead first with
    | none => simp [leads] at complete
    | some range =>
        obtain ⟨low, high, owed⟩ := range
        rw [leads] at complete
        obtain ⟨total, _, again⟩ := second_take complete rest
        rw [total, List.take_succ_cons, List.cons_append, front, if_neg long, leads]
        rw [total] at again
        exact again

end Cut

section Pieces

variable {next : UInt8} {bytes rest : List UInt8}

theorem cutFrom_enough {fuel : Nat} (enough : bytes.length ≤ fuel) : cutFrom fuel bytes = cut bytes := by
  induction fuel using Nat.strongRecOn generalizing bytes with
  | ind fuel ih =>
      cases bytes with
      | nil => cases fuel <;> rfl
      | cons first rest =>
          cases fuel with
          | zero => simp at enough
          | succ fuel =>
              have bounds := front_bounds first rest
              have shorter : ((first :: rest).drop (front (first :: rest)).2).length ≤ rest.length := by
                rw [List.length_drop, List.length_cons]
                omega
              rw [List.length_cons] at enough
              rw [cut, List.length_cons, cutFrom, cutFrom, ih fuel (by omega) (by omega),
                ih rest.length (by omega) shorter]

theorem cut_cons (first : UInt8) (bytes : List UInt8) :
    cut (first :: bytes) =
      ((front (first :: bytes)).1, (first :: bytes).take (front (first :: bytes)).2) ::
        cut ((first :: bytes).drop (front (first :: bytes)).2) := by
  have bounds := front_bounds first bytes
  have shorter : ((first :: bytes).drop (front (first :: bytes)).2).length ≤ bytes.length := by
    rw [List.length_drop, List.length_cons]
    omega
  rw [cut, List.length_cons, cutFrom, cutFrom_enough shorter]

theorem cut_induction {holds : List UInt8 → Prop} (nil : holds [])
    (cons : ∀ first rest, holds ((first :: rest).drop (front (first :: rest)).2) → holds (first :: rest))
    (bytes : List UInt8) : holds bytes := by
  induction length : bytes.length using Nat.strongRecOn generalizing bytes with
  | ind length ih =>
      cases bytes with
      | nil => exact nil
      | cons first rest =>
          have bounds := front_bounds first rest
          refine cons first rest (ih _ ?_ _ rfl)
          rw [List.length_drop]
          omega

theorem cut_flatten (bytes : List UInt8) : (cut bytes).flatMap Prod.snd = bytes := by
  induction bytes using cut_induction with
  | nil => rfl
  | cons first rest ih => rw [cut_cons, List.flatMap_cons, ih, List.take_append_drop]

/-- An ASCII character is a piece of its own, whatever stands before it. -/
theorem cut_append (ascii : next < 0x80) (bytes rest : List UInt8) :
    cut (bytes ++ next :: rest) = cut bytes ++ (true, [next]) :: cut rest := by
  induction bytes using cut_induction with
  | nil =>
      have single : front (next :: rest) = (true, 1) := by rw [front, if_pos ascii]
      rw [List.nil_append, cut_cons, single]
      rfl
  | cons first bytes ih =>
      have bounds := (front_bounds first bytes).2
      rw [List.cons_append, cut_cons, ← List.cons_append, front_append ascii, List.take_append_of_le_length bounds,
        List.drop_append_of_le_length bounds, ih, cut_cons first bytes, List.cons_append]

theorem lossy_append (ascii : next < 0x80) (bytes rest : List UInt8) :
    lossy (bytes ++ next :: rest) = lossy bytes ++ next :: lossy rest := by
  rw [lossy, cut_append ascii, List.flatMap_append, List.flatMap_cons]
  rfl

theorem valid_append (ascii : next < 0x80) : Valid (bytes ++ next :: rest) ↔ Valid bytes ∧ Valid rest := by
  simp only [Valid, cut_append ascii, List.mem_append, List.mem_cons]
  constructor
  · intro valid
    exact ⟨fun piece member => valid piece (.inl member), fun piece member => valid piece (.inr (.inr member))⟩
  · rintro ⟨left, right⟩ piece (member | rfl | member)
    · exact left piece member
    · rfl
    · exact right piece member

theorem cut_piece {piece : List UInt8} (nonempty : piece ≠ [])
    (complete : front (piece ++ rest) = (true, piece.length)) : cut (piece ++ rest) = (true, piece) :: cut rest := by
  cases piece with
  | nil => exact absurd rfl nonempty
  | cons first piece =>
      rw [List.cons_append] at complete ⊢
      rw [cut_cons, complete, ← List.cons_append]
      simp only [List.take_left, List.drop_left]

theorem cut_lossy (bytes : List UInt8) :
    cut (lossy bytes) = (cut bytes).map fun piece => (true, if piece.1 then piece.2 else replacement) := by
  induction bytes using cut_induction with
  | nil => rfl
  | cons first rest ih =>
      have bounds := front_bounds first rest
      have step : lossy (first :: rest) =
          (if (front (first :: rest)).1 then (first :: rest).take (front (first :: rest)).2 else replacement) ++
            lossy ((first :: rest).drop (front (first :: rest)).2) := by
        rw [lossy, cut_cons, List.flatMap_cons]
        rfl
      rw [step, cut_cons, List.map_cons, ← ih]
      cases found : front (first :: rest) with
      | mk complete width =>
          rw [found] at bounds
          cases complete with
          | true =>
              simp only [if_true]
              have length : ((first :: rest).take width).length = width := by
                rw [List.length_take]
                omega
              have whole := front_take found (lossy ((first :: rest).drop width))
              rw [← length] at whole
              refine cut_piece ?_ (by simpa only [length] using whole)
              intro empty
              rw [empty] at length
              simp only [List.length_nil] at length
              omega
          | false =>
              simp only [Bool.false_eq_true, if_false]
              exact cut_piece (by decide) rfl

/-! The longest valid front of a front. -/

theorem front_width (complete : front (first :: bytes) = (true, width)) : width ≤ 4 := by
  rw [front] at complete
  split at complete
  · simp only [Prod.mk.injEq, true_and] at complete
    omega
  · cases leads : lead first with
    | none => simp [leads] at complete
    | some range =>
        obtain ⟨low, high, owed⟩ := range
        rw [leads] at complete
        have total := (second_take complete []).1
        have few := lead_owed leads
        omega

theorem validUpTo_cons (complete : front (first :: bytes) = (true, width)) :
    validUpTo (first :: bytes) = width + validUpTo ((first :: bytes).drop width) := by
  have bounds := front_bounds first bytes
  rw [complete] at bounds
  have length : ((first :: bytes).take width).length = width := by
    rw [List.length_take]
    omega
  rw [validUpTo, cut_cons, complete, List.takeWhile_cons_of_pos rfl, List.flatMap_cons, List.length_append, length]
  rfl

/-- The front of valid bytes is valid but for at most the three bytes of a cut character. -/
theorem validUpTo_take (valid : Valid bytes) {count : Nat} (inside : count ≤ bytes.length) :
    count < validUpTo (bytes.take count) + 4 := by
  induction bytes using cut_induction generalizing count with
  | nil =>
      rw [List.length_nil] at inside
      omega
  | cons first rest ih =>
      rcases taken : front (first :: rest) with ⟨complete, width⟩
      have bounds := front_bounds first rest
      rw [taken] at bounds ih
      have head : complete = true := by
        rw [Valid, cut_cons, taken] at valid
        exact valid (complete, _) List.mem_cons_self
      subst head
      have narrow := front_width taken
      by_cases short : count < width
      · omega
      · have later : Valid ((first :: rest).drop width) := by
          intro piece member
          rw [Valid, cut_cons, taken] at valid
          exact valid piece (List.mem_cons_of_mem _ member)
        have fits : count - width ≤ ((first :: rest).drop width).length := by
          rw [List.length_drop]
          omega
        have deeper := ih later fits
        cases count with
        | zero => omega
        | succ count =>
            have again : front (first :: rest.take count) = (true, width) := by
              have same := front_take taken (((first :: rest).drop width).take (count + 1 - width))
              have joined : (first :: rest).take width ++ ((first :: rest).drop width).take (count + 1 - width) =
                  first :: rest.take count := by
                rw [← List.take_add, Nat.add_sub_cancel' (by omega), List.take_succ_cons]
              rwa [joined] at same
            have cutOff : (first :: rest.take count).drop width =
                ((first :: rest).drop width).take (count + 1 - width) := by
              rw [← List.take_succ_cons, List.drop_take]
            rw [List.take_succ_cons, validUpTo_cons again, cutOff]
            dsimp only at deeper
            omega

theorem lossy_valid (bytes : List UInt8) : Valid (lossy bytes) := by
  intro piece member
  rw [cut_lossy, List.mem_map] at member
  obtain ⟨_, _, rfl⟩ := member
  rfl

theorem lossy_eq_nil : lossy bytes = [] ↔ bytes = [] := by
  cases bytes with
  | nil => simp [lossy, cut, cutFrom]
  | cons first rest =>
      have bounds := front_bounds first rest
      have piece : (if (front (first :: rest)).1 then (first :: rest).take (front (first :: rest)).2
          else replacement) ≠ [] := by
        split
        · rw [← List.length_pos_iff, List.length_take]
          omega
        · decide
      rw [lossy, cut_cons, List.flatMap_cons, List.append_eq_nil_iff]
      simp [piece]

theorem lossy_eq_self : lossy bytes = bytes ↔ Valid bytes := by
  constructor
  · intro same
    rw [← same]
    exact lossy_valid bytes
  · intro valid
    have pieces : ∀ piece ∈ cut bytes, (if piece.1 then piece.2 else replacement) = piece.2 :=
      fun piece member => if_pos (valid piece member)
    rw [lossy, List.flatMap_congr pieces, cut_flatten]

theorem mem_lossy {byte : UInt8} (member : byte ∈ lossy bytes) : byte ∈ bytes ∨ byte ∈ replacement := by
  obtain ⟨piece, inside, found⟩ := List.mem_flatMap.mp member
  split at found
  · left
    rw [← cut_flatten bytes]
    exact List.mem_flatMap.mpr ⟨piece, inside, found⟩
  · exact .inr found

/-- Only what is valid is decoded to ASCII. -/
theorem valid_of_lossy_ascii (ascii : ∀ byte ∈ lossy bytes, byte < 0x80) : Valid bytes := by
  intro piece inside
  by_contra invalid
  have shown : (0xEF : UInt8) ∈ lossy bytes :=
    List.mem_flatMap.mpr ⟨piece, inside, by rw [if_neg invalid]; exact List.mem_cons_self⟩
  exact absurd (ascii _ shown) (by decide)

theorem lossy_eq_ascii {plain : List UInt8} (ascii : ∀ byte ∈ plain, byte < 0x80) (valid : Valid plain) :
    lossy bytes = plain ↔ bytes = plain := by
  constructor
  · intro same
    have whole := valid_of_lossy_ascii (by rw [same]; exact ascii)
    rw [← same, lossy_eq_self.mpr whole]
  · intro same
    subst same
    exact lossy_eq_self.mpr valid

theorem lossy_intercalate (ascii : next < 0x80) (pieces : List (List UInt8)) :
    lossy (List.intercalate [next] pieces) = List.intercalate [next] (pieces.map lossy) := by
  induction pieces with
  | nil => rfl
  | cons first rest ih =>
      cases rest with
      | nil => simp
      | cons second rest =>
          rw [List.map_cons, List.map_cons, List.intercalate_cons_cons, List.intercalate_cons_cons, ← List.map_cons,
            ← ih, List.append_assoc, List.append_assoc, List.singleton_append, List.singleton_append,
            lossy_append ascii]

theorem splitOn_lossy (ascii : next < 0x80) (bytes : List UInt8) :
    (lossy bytes).splitOn next = (bytes.splitOn next).map lossy := by
  have joined : lossy bytes = List.intercalate [next] ((bytes.splitOn next).map lossy) := by
    rw [← lossy_intercalate ascii, List.intercalate_splitOn]
  rw [joined, List.splitOn_intercalate]
  · intro piece member clash
    obtain ⟨original, inside, rfl⟩ := List.mem_map.mp member
    rcases mem_lossy clash with before | shown
    · exact not_mem_piece original inside before
    · simp only [replacement, List.mem_cons, List.not_mem_nil, or_false] at shown
      rcases shown with rfl | rfl | rfl <;> exact absurd ascii (by decide)
  · rw [ne_eq, List.map_eq_nil_iff]
    exact List.splitOn_ne_nil next bytes

/-- The piece of a cut reads as a replacement character. -/
def Replaced (piece : Bool × List UInt8) : Prop := piece.1 = false ∨ piece.2 = replacement

def Alike (one other : Bool × List UInt8) : Prop := one = other ∨ Replaced one ∧ Replaced other

instance (one other : Bool × List UInt8) : Decidable (Alike one other) :=
  inferInstanceAs (Decidable (_ ∨ (_ ∨ _) ∧ (_ ∨ _)))

/-- The same characters, every invalid chunk being one. -/
def Lookalike (bytes other : List UInt8) : Prop := List.Forall₂ Alike (cut bytes) (cut other)

instance (bytes other : List UInt8) : Decidable (Lookalike bytes other) :=
  inferInstanceAs (Decidable (List.Forall₂ _ _ _))

theorem alike_iff {one other : Bool × List UInt8} : Alike one other ↔
    ((true, if one.1 then one.2 else replacement) : Bool × List UInt8) =
      (true, if other.1 then other.2 else replacement) := by
  obtain ⟨valid, chunk⟩ := one
  obtain ⟨valid', chunk'⟩ := other
  cases valid <;> cases valid'
  · simp [Alike, Replaced]
  · simp [Alike, Replaced, eq_comm]
  · simp [Alike, Replaced]
  · simp only [Alike, Replaced, if_true, Prod.mk.injEq, true_and, Bool.true_eq_false, false_or]
    constructor
    · intro either
      rcases either with same | ⟨shown, shown'⟩
      · exact same
      · exact shown.trans shown'.symm
    · exact .inl

theorem lossy_eq_iff {other : List UInt8} : lossy bytes = lossy other ↔ Lookalike bytes other := by
  have cuts : lossy bytes = lossy other ↔ cut (lossy bytes) = cut (lossy other) := by
    constructor
    · exact congrArg cut
    · intro same
      rw [← cut_flatten (lossy bytes), same, cut_flatten]
  rw [cuts, cut_lossy, cut_lossy, ← List.forall₂_eq_eq_eq, List.forall₂_map_left_iff, List.forall₂_map_right_iff]
  simp only [← alike_iff]
  rfl

end Pieces

/-! Replacing ASCII characters by ASCII characters. -/

section Replacing

variable {change : UInt8 → UInt8}

/-- `change` moves ASCII characters only, and only to ASCII characters. -/
structure Replaces (change : UInt8 → UInt8) : Prop where
  ascii : ∀ byte, byte < 0x80 → change byte < 0x80
  other : ∀ byte, 0x80 ≤ byte → change byte = byte

theorem Replaces.ranged (replaces : Replaces change) {low : UInt8} (above : 0x80 ≤ low) (high byte : UInt8) :
    (low ≤ change byte && change byte ≤ high) = (low ≤ byte && byte ≤ high) := by
  rcases UInt8.lt_or_le byte 0x80 with ascii | other
  · have before : ¬ low ≤ byte := UInt8.not_le.mpr (UInt8.lt_of_lt_of_le ascii above)
    have after : ¬ low ≤ change byte := UInt8.not_le.mpr (UInt8.lt_of_lt_of_le (replaces.ascii byte ascii) above)
    simp [before, after]
  · rw [replaces.other byte other]

theorem Replaces.tails (replaces : Replaces change) (owed seen : Nat) (bytes : List UInt8) :
    tails owed seen (bytes.map change) = tails owed seen bytes := by
  induction owed generalizing seen bytes with
  | zero => rfl
  | succ owed ih =>
      cases bytes with
      | nil => rfl
      | cons byte bytes =>
          have kept : isTail (change byte) = isTail byte := replaces.ranged (by decide) 0xBF byte
          rw [List.map_cons, Utf8.tails, Utf8.tails, kept, ih]

theorem Replaces.front (replaces : Replaces change) (bytes : List UInt8) :
    front (bytes.map change) = front bytes := by
  cases bytes with
  | nil => rfl
  | cons first rest =>
      rw [List.map_cons, Utf8.front, Utf8.front]
      rcases UInt8.lt_or_le first 0x80 with ascii | other
      · rw [if_pos (replaces.ascii first ascii), if_pos ascii]
      · rw [replaces.other first other]
        cases leads : lead first with
        | none => rfl
        | some range =>
            obtain ⟨low, high, owed⟩ := range
            cases rest with
            | nil => rfl
            | cons byte rest =>
                have kept := replaces.ranged (lead_low leads) high byte
                simp only [List.map_cons, second, kept, replaces.tails]

theorem Replaces.cut (replaces : Replaces change) (bytes : List UInt8) :
    cut (bytes.map change) = (cut bytes).map fun piece => (piece.1, piece.2.map change) := by
  induction bytes using cut_induction with
  | nil => rfl
  | cons first rest ih =>
      have same := replaces.front (first :: rest)
      rw [List.map_cons] at same
      rw [List.map_cons, cut_cons, same, ← List.map_cons, ← List.map_take, ← List.map_drop, ih, cut_cons first rest,
        List.map_cons]

theorem Replaces.valid (replaces : Replaces change) {bytes : List UInt8} (valid : Valid bytes) :
    Valid (bytes.map change) := by
  intro piece member
  rw [replaces.cut, List.mem_map] at member
  obtain ⟨original, inside, rfl⟩ := member
  exact valid original inside

theorem Replaces.lossy (replaces : Replaces change) (bytes : List UInt8) :
    lossy (bytes.map change) = (lossy bytes).map change := by
  have kept : replacement.map change = replacement := by
    simp only [replacement, List.map_cons, List.map_nil, replaces.other _ (show (0x80 : UInt8) ≤ 0xEF by decide),
      replaces.other _ (show (0x80 : UInt8) ≤ 0xBF by decide), replaces.other _ (show (0x80 : UInt8) ≤ 0xBD by decide)]
  rw [Utf8.lossy, replaces.cut, List.flatMap_map, Utf8.lossy, List.map_flatMap]
  refine List.flatMap_congr fun piece _ => ?_
  dsimp only
  cases piece.1 with
  | true => rfl
  | false => exact kept.symm

end Replacing

end Raas.Data.Utf8
