import Raas.Data.Trimming
import Raas.Server.Range

namespace Raas.Server

open Data

/-! The numbers of a `Range` header, and its parser brought into one line. -/

theorem le_ofDigitChars (chars : List Char) (acc : Nat) : acc ≤ Nat.ofDigitChars 10 chars acc := by
  have positive : 0 < 10 ^ chars.length := Nat.pow_pos (by decide)
  rw [Nat.ofDigitChars_eq_ofDigitChars_zero]
  exact Nat.le_trans (Nat.le_mul_of_pos_left acc positive) (Nat.le_add_right _ _)

theorem parseDigits_iff {chars : List Char} {acc value : Nat} (fits : acc < u64Size) :
    parseDigits acc chars = some value ↔
      (∀ char ∈ chars, char.isDigit = true) ∧ Nat.ofDigitChars 10 chars acc = value ∧ value < u64Size := by
  induction chars generalizing acc with
  | nil =>
      rw [parseDigits, Nat.ofDigitChars_nil, Option.some.injEq]
      constructor
      · intro same
        subst same
        exact ⟨fun _ member => absurd member List.not_mem_nil, rfl, fits⟩
      · exact fun told => told.2.1
  | cons char chars ih =>
      have next : 10 * acc + (char.toNat - '0'.toNat) = acc * 10 + (char.toNat - '0'.toNat) := by
        rw [Nat.mul_comm]
      rw [parseDigits, Nat.ofDigitChars_cons, next, List.forall_mem_cons]
      cases digit : char.isDigit with
      | false => simp
      | true =>
          rw [if_pos rfl]
          dsimp only
          by_cases small : acc * 10 + (char.toNat - '0'.toNat) < u64Size
          · rw [if_pos small, ih small]
            simp only [true_and]
          · have grows := le_ofDigitChars chars (acc * 10 + (char.toNat - '0'.toNat))
            rw [if_neg small]
            constructor
            · exact fun found => by cases found
            · intro accepted
              obtain ⟨_, rfl, bounded⟩ := accepted
              omega

/-- The digits of a number that may have one `+` before them. -/
def unsigned : List Char → List Char
  | '+' :: digits => digits
  | digits => digits

theorem unsigned_cons {char : Char} {digits : List Char} (plain : char ≠ '+') :
    unsigned (char :: digits) = char :: digits := by
  unfold unsigned
  split
  · rename_i signed
    cases signed
    exact absurd rfl plain
  · rfl

/-- What `u64` reads from a string: digits behind at most one `+`, and no more than fit. -/
structure Reads (chars : List Char) (value : Nat) : Prop where
  present : unsigned chars ≠ []
  digits : ∀ char ∈ unsigned chars, char.isDigit = true
  number : Nat.ofDigitChars 10 (unsigned chars) 0 = value
  fits : value < u64Size

theorem parseU64_eq (chars : List Char) :
    parseU64 chars = if unsigned chars = [] then none else parseDigits 0 (unsigned chars) := by
  cases chars with
  | nil => rfl
  | cons char digits =>
      by_cases plus : char = '+'
      · subst plus
        cases digits with
        | nil => rfl
        | cons first rest => rfl
      · have same : unsigned (char :: digits) = char :: digits := unsigned_cons plus
        rw [same, if_neg (List.cons_ne_nil char digits)]
        unfold parseU64
        split
        · rename_i empty
          cases empty
        · rename_i single
          cases single
          exact absurd rfl plus
        · rename_i signed
          cases signed
          exact absurd rfl plus
        · rfl

theorem parseU64_iff {chars : List Char} {value : Nat} : parseU64 chars = some value ↔ Reads chars value := by
  have digits := @parseDigits_iff (unsigned chars) 0 value (by decide)
  rw [parseU64_eq]
  by_cases empty : unsigned chars = []
  · rw [if_pos empty]
    constructor
    · exact fun found => by cases found
    · exact fun reads => absurd empty reads.present
  · rw [if_neg empty, digits]
    constructor
    · exact fun told => ⟨empty, told.1, told.2.1, told.2.2⟩
    · exact fun reads => ⟨reads.digits, reads.number, reads.fits⟩

theorem splitDash_iff {chars front back : List Char} :
    splitDash chars = some (front, back) ↔ chars = front ++ '-' :: back ∧ ∀ char ∈ front, char ≠ '-' := by
  have split : chars = chars.takeWhile (· != '-') ++ chars.dropWhile (· != '-') :=
    List.takeWhile_append_dropWhile.symm
  unfold splitDash
  cases rest : chars.dropWhile (· != '-') with
  | nil =>
      constructor
      · exact fun found => by cases found
      · intro matched
        obtain ⟨rfl, _⟩ := matched
        have none := List.dropWhile_eq_nil_iff.mp rest '-' (by simp)
        simp at none
  | cons dash tail =>
      have stops : dash = '-' := by simpa using dropWhile_stops rest
      subst stops
      rw [rest] at split
      simp only [Option.some.injEq, Prod.mk.injEq]
      constructor
      · intro matched
        obtain ⟨rfl, rfl⟩ := matched
        exact ⟨split, fun char member => by simpa using List.mem_takeWhile_imp member⟩
      · intro read
        obtain ⟨whole, clean⟩ := read
        have front_eq : chars.takeWhile (· != '-') = front := by
          rw [whole]
          exact takeWhile_before (fun char member => by simpa using clean char member) (by simp)
        refine ⟨front_eq, ?_⟩
        rw [front_eq, whole] at split
        exact (List.cons.inj (List.append_cancel_left split)).2.symm

theorem splitDash_none_iff {chars : List Char} : splitDash chars = none ↔ ∀ char ∈ chars, char ≠ '-' := by
  have all : chars.dropWhile (· != '-') = [] ↔ ∀ char ∈ chars, char ≠ '-' := by
    rw [List.dropWhile_eq_nil_iff]
    exact forall₂_congr fun char _ => by simp
  rw [← all, splitDash]
  cases chars.dropWhile (· != '-') with
  | nil => simp
  | cons dash tail => simp

theorem splitDash_trim (chars : List Char) : splitDash (trim chars) =
    (splitDash chars).map fun parts => (parts.1.dropWhile isWhitespace, parts.2.rdropWhile isWhitespace) := by
  cases cut : splitDash chars with
  | none =>
      have clean := splitDash_none_iff.mp cut
      rw [Option.map_none, splitDash_none_iff]
      exact fun char member => clean char (mem_of_mem_trimmed member)
  | some parts =>
      obtain ⟨front, back⟩ := parts
      obtain ⟨rfl, clean⟩ := splitDash_iff.mp cut
      have kept : trim (front ++ '-' :: back) =
          front.dropWhile isWhitespace ++ '-' :: back.rdropWhile isWhitespace := trimmed_between (by decide)
      rw [kept, Option.map_some]
      exact splitDash_iff.mpr ⟨rfl, fun char member => clean char ((List.dropWhile_suffix _).subset member)⟩

/-- The text up to the first comma. -/
def firstSpec (rest : List Char) : List Char := rest.takeWhile (· != ',')

theorem trim_firstSpec (rest : List Char) : trim (firstSpec (trim rest)) = trim (firstSpec rest) := by
  unfold firstSpec
  have split : rest.takeWhile (· != ',') ++ rest.dropWhile (· != ',') = rest := List.takeWhile_append_dropWhile
  have clean : ∀ char ∈ rest.takeWhile (· != ','), (char != ',') = true := fun _ => List.mem_takeWhile_imp
  cases tail : rest.dropWhile (· != ',') with
  | nil =>
      have whole : rest.takeWhile (· != ',') = rest := by rw [tail, List.append_nil] at split; exact split
      rw [whole] at clean ⊢
      have kept : (trim rest).takeWhile (· != ',') = trim rest :=
        List.takeWhile_eq_self_iff.mpr fun char member => clean char (mem_of_mem_trimmed member)
      rw [kept]
      exact trimmed_trimmed
  | cons comma more =>
      have stops : comma = ',' := by simpa using dropWhile_stops tail
      subst stops
      rw [tail] at split
      have kept : trim rest = (rest.takeWhile (· != ',')).dropWhile isWhitespace ++
          ',' :: more.rdropWhile isWhitespace := by
        have between := @trimmed_between _ isWhitespace (rest.takeWhile (· != ',')) more ',' (by decide)
        rw [split] at between
        exact between
      have front : (trim rest).takeWhile (· != ',') = (rest.takeWhile (· != ',')).dropWhile isWhitespace := by
        rw [kept]
        exact takeWhile_before (fun char member => clean char ((List.dropWhile_suffix _).subset member)) (by simp)
      rw [front]
      exact trimmed_dropWhile

/-- What is done with the two sides of the dash, blanks removed. -/
def parseSpec (startStr endStr : List Char) (totalSize : Nat) : Except RangeParseError (Option (Nat × Nat)) :=
  match startStr.isEmpty, endStr.isEmpty with
  | true, false => parseSuffix endStr totalSize
  | false, true => parseOpen startStr totalSize
  | false, false => parseClosed startStr endStr totalSize
  | true, true => .error .malformed

/-- Trimming the whole header and then the first range changes nothing: the two sides
of the dash are trimmed once more. -/
theorem parseRangeHeader_eq {rangeStr rest : List Char} {totalSize : Nat} (positive : totalSize ≠ 0)
    (stripped : stripBytes rangeStr = some rest) :
    parseRangeHeader rangeStr totalSize =
      match splitDash (firstSpec rest) with
      | none => .error .malformed
      | some (front, back) => parseSpec (trim front) (trim back) totalSize := by
  have cut := splitDash_trim (firstSpec rest)
  rw [← trim_firstSpec] at cut
  simp only [parseRangeHeader, stripped, if_neg positive]
  cases blank : (trim rest).isEmpty with
  | true =>
      have none : splitDash (firstSpec rest) = none := by
        rw [List.isEmpty_iff.mp blank] at cut
        exact Option.map_eq_none_iff.mp cut.symm
      rw [if_pos rfl, none]
  | false =>
      rw [if_neg Bool.false_ne_true]
      rw [firstSpec] at cut
      rw [cut]
      cases splitDash (firstSpec rest) with
      | none => rfl
      | some parts =>
          obtain ⟨front, back⟩ := parts
          have left : trim (front.dropWhile isWhitespace) = trim front := trimmed_dropWhile
          have right : trim (back.rdropWhile isWhitespace) = trim back := trimmed_rdropWhile
          simp only [Option.map_some, left, right]
          rfl

/-- A non-empty string of ASCII digits, of any length. -/
structure Digits where
  chars : List Char
  present : chars ≠ []
  digits : ∀ char ∈ chars, char.isDigit = true

def Digits.number (digits : Digits) : Nat := Nat.ofDigitChars 10 digits.chars 0

theorem digit_bounds {char : Char} (digit : char.isDigit = true) : 48 ≤ char.toNat ∧ char.toNat ≤ 57 := by
  simp only [Char.isDigit, Bool.and_eq_true, decide_eq_true_eq, ge_iff_le, UInt32.le_iff_toNat_le] at digit
  exact digit

theorem digit_not_whitespace {char : Char} (digit : char.isDigit = true) : isWhitespace char = false := by
  have bounds := digit_bounds digit
  simp only [isWhitespace, Bool.or_eq_false_iff, decide_eq_false_iff_not, beq_eq_false_iff_ne]
  omega

theorem digit_ne {char other : Char} (digit : char.isDigit = true) (plain : other.isDigit = false) : char ≠ other := by
  intro same
  subst same
  rw [digit] at plain
  cases plain

theorem trim_solid {chars : List Char} (solid : ∀ char ∈ chars, isWhitespace char = false) : trim chars = chars := by
  have none : ∀ char ∈ ([] : List Char), isWhitespace char = true := fun _ member => absurd member List.not_mem_nil
  have padded := trimmed_padded none solid none
  rw [List.nil_append, List.append_nil] at padded
  exact padded

namespace Digits

theorem unsigned_chars (digits : Digits) : unsigned digits.chars = digits.chars := by
  cases chars : digits.chars with
  | nil => rfl
  | cons first rest =>
      have digit := digits.digits first (by rw [chars]; exact List.mem_cons_self)
      exact unsigned_cons (digit_ne digit (by decide))

theorem parseBound_chars (digits : Digits) :
    parseBound digits.chars = if digits.number < u64Size then .ok digits.number else .error .malformed := by
  unfold parseBound
  by_cases fits : digits.number < u64Size
  · have read : parseU64 digits.chars = some digits.number := parseU64_iff.mpr
      { present := by rw [digits.unsigned_chars]; exact digits.present
        digits := by rw [digits.unsigned_chars]; exact digits.digits
        number := by rw [digits.unsigned_chars]; rfl
        fits }
    rw [read, if_pos fits]
  · have unread : parseU64 digits.chars = none := by
      rw [Option.eq_none_iff_forall_ne_some]
      intro value found
      have reads := parseU64_iff.mp found
      have number := reads.number
      have small := reads.fits
      rw [digits.unsigned_chars] at number
      rw [← number] at small
      exact fits small
    rw [unread, if_neg fits]

end Digits

def bytesPrefix : List Char := ['b', 'y', 't', 'e', 's', '=']

/-- A header without blanks or commas and with digits or nothing on either side of its dash. -/
theorem parseRangeHeader_plain {first last : List Char} {totalSize : Nat} (positive : 0 < totalSize)
    (firstDigits : ∀ char ∈ first, char.isDigit = true) (lastDigits : ∀ char ∈ last, char.isDigit = true) :
    parseRangeHeader (bytesPrefix ++ (first ++ '-' :: last)) totalSize = parseSpec first last totalSize := by
  have stripped : stripBytes (bytesPrefix ++ (first ++ '-' :: last)) = some (first ++ '-' :: last) := rfl
  have whole : firstSpec (first ++ '-' :: last) = first ++ '-' :: last := by
    refine List.takeWhile_eq_self_iff.mpr fun char member => ?_
    rw [bne_iff_ne]
    rcases List.mem_append.mp member with left | right
    · exact digit_ne (firstDigits char left) (by decide)
    · rcases List.mem_cons.mp right with rfl | right
      · decide
      · exact digit_ne (lastDigits char right) (by decide)
  have cut : splitDash (first ++ '-' :: last) = some (first, last) :=
    splitDash_iff.mpr ⟨rfl, fun char member => digit_ne (firstDigits char member) (by decide)⟩
  rw [parseRangeHeader_eq (Nat.ne_of_gt positive) stripped, whole, cut]
  dsimp only
  rw [trim_solid fun char member => digit_not_whitespace (firstDigits char member),
    trim_solid fun char member => digit_not_whitespace (lastDigits char member)]

/-! The ranges that the three forms stand for, whatever the size of their numbers. -/

def closedRange (first last totalSize : Nat) : Except RangeParseError (Option (Nat × Nat)) :=
  if last < first then .error .malformed
  else if totalSize ≤ first then .error .unsatisfiable
  else .ok (some (first, min last (totalSize - 1)))

def openRange (first totalSize : Nat) : Except RangeParseError (Option (Nat × Nat)) :=
  if totalSize ≤ first then .error .unsatisfiable else .ok (some (first, totalSize - 1))

def suffixRange (suffix totalSize : Nat) : Except RangeParseError (Option (Nat × Nat)) :=
  if suffix = 0 then .error .unsatisfiable
  else .ok (some (totalSize - min suffix totalSize, totalSize - 1))

theorem closedRange_iff (first last : Digits) {totalSize : Nat} :
    parseClosed first.chars last.chars totalSize = closedRange first.number last.number totalSize ↔
      (first.number < u64Size ∧ last.number < u64Size) ∨ last.number < first.number := by
  rw [parseClosed, first.parseBound_chars, last.parseBound_chars, closedRange]
  by_cases firstFits : first.number < u64Size
  · by_cases lastFits : last.number < u64Size
    · simp only [firstFits, lastFits, if_true, and_self, true_or]
    · have apart : ¬ last.number < first.number := by omega
      simp only [firstFits, lastFits, apart, if_true, if_false, and_false, or_self, iff_false]
      split <;> exact fun same => by cases same
  · by_cases reversed : last.number < first.number
    · simp only [firstFits, reversed, if_true, if_false, or_true]
    · simp only [firstFits, reversed, if_false, false_and, or_self, iff_false]
      split <;> exact fun same => by cases same

theorem openRange_iff (first : Digits) {totalSize : Nat} :
    parseOpen first.chars totalSize = openRange first.number totalSize ↔ first.number < u64Size := by
  rw [parseOpen, first.parseBound_chars, openRange]
  by_cases fits : first.number < u64Size
  · simp only [fits, if_true]
  · simp only [fits, if_false, iff_false]
    split <;> exact fun same => by cases same

theorem suffixRange_iff (suffix : Digits) {totalSize : Nat} :
    parseSuffix suffix.chars totalSize = suffixRange suffix.number totalSize ↔ suffix.number < u64Size := by
  rw [parseSuffix, suffix.parseBound_chars, suffixRange]
  by_cases fits : suffix.number < u64Size
  · simp only [fits, if_true]
  · simp only [fits, if_false, iff_false]
    split <;> exact fun same => by cases same

/-- The three forms mean what they say as long as their numbers fit 64 bits; a longer one makes
the header malformed, which is right only if it has to be ignored anyway. -/
theorem range_values_iff {totalSize : Nat} (positive : 0 < totalSize) (a b : Digits) :
    (parseRangeHeader (bytesPrefix ++ (a.chars ++ '-' :: b.chars)) totalSize =
        closedRange a.number b.number totalSize ↔
      (a.number < u64Size ∧ b.number < u64Size) ∨ b.number < a.number) ∧
    (parseRangeHeader (bytesPrefix ++ (a.chars ++ ['-'])) totalSize = openRange a.number totalSize ↔
      a.number < u64Size) ∧
    (parseRangeHeader (bytesPrefix ++ '-' :: b.chars) totalSize = suffixRange b.number totalSize ↔
      b.number < u64Size) := by
  have none : ∀ char ∈ ([] : List Char), char.isDigit = true := fun _ member => absurd member List.not_mem_nil
  have first := List.isEmpty_eq_false_iff.mpr a.present
  have last := List.isEmpty_eq_false_iff.mpr b.present
  have closed := parseRangeHeader_plain positive a.digits b.digits
  have opened := parseRangeHeader_plain positive a.digits none
  have suffix := parseRangeHeader_plain positive none b.digits
  rw [List.nil_append] at suffix
  rw [parseSpec, first, last] at closed
  rw [parseSpec, first, List.isEmpty_nil] at opened
  rw [parseSpec, last, List.isEmpty_nil] at suffix
  rw [closed, opened, suffix]
  exact ⟨closedRange_iff a b, openRange_iff a, suffixRange_iff b⟩

def five : Digits where
  chars := ['0', '5']
  present := List.cons_ne_nil _ _
  digits := List.all_eq_true.mp (by decide)

def seven : Digits where
  chars := ['7']
  present := List.cons_ne_nil _ _
  digits := List.all_eq_true.mp (by decide)

theorem range_values_small :
    parseRangeHeader ['b', 'y', 't', 'e', 's', '=', '0', '5', '-', '7'] 7 = .ok (some (5, 6)) :=
  (range_values_iff (by decide) five seven).1.mpr (.inl ⟨by decide, by decide⟩)

/-- `18446744073709551616`, one more than 64 bits hold -/
def tooLong : Digits where
  chars := ['1', '8', '4', '4', '6', '7', '4', '4', '0', '7', '3', '7', '0', '9', '5', '5', '1', '6', '1', '6']
  present := List.cons_ne_nil _ _
  digits := List.all_eq_true.mp (by decide)

/-- A last position too long for 64 bits is not clipped. -/
theorem long_number_is_malformed :
    parseRangeHeader (bytesPrefix ++ (five.chars ++ '-' :: tooLong.chars)) 7 = .error .malformed ∧
      parseRangeHeader (bytesPrefix ++ (five.chars ++ '-' :: tooLong.chars)) 7 ≠
        closedRange five.number tooLong.number 7 := by
  decide

end Raas.Server
