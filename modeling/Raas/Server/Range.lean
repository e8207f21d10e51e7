import Mathlib.Data.List.DropRight
import Raas.Machine

namespace Raas.Server

/-! The `Range` header. A `str` is the list of its characters here. -/

inductive RangeParseError where
  | malformed
  | unsatisfiable
deriving DecidableEq, Repr

/-- `char::is_whitespace`, the Unicode property `White_Space`. -/
def isWhitespace (char : Char) : Bool :=
  let code := char.toNat
  decide (9 ≤ code ∧ code ≤ 13) || code == 0x20 || code == 0x85 || code == 0xA0 || code == 0x1680 ||
    decide (0x2000 ≤ code ∧ code ≤ 0x200A) || code == 0x2028 || code == 0x2029 || code == 0x202F ||
    code == 0x205F || code == 0x3000

def trim (chars : List Char) : List Char := (chars.dropWhile isWhitespace).rdropWhile isWhitespace

/-- The digits behind `acc`, unless one is no digit or the number leaves `u64`. -/
def parseDigits : Nat → List Char → Option Nat
  | acc, [] => some acc
  | acc, char :: rest =>
      if char.isDigit then
        let value := acc * 10 + (char.toNat - '0'.toNat)
        if value < u64Size then parseDigits value rest else none
      else none

/-- `str::parse::<u64>`: one leading `+` is allowed before the digits. -/
def parseU64 : List Char → Option Nat
  | [] => none
  | ['+'] => none
  | '+' :: digits => parseDigits 0 digits
  | digits => parseDigits 0 digits

/-- `strip_prefix("bytes=")` -/
def stripBytes : List Char → Option (List Char)
  | 'b' :: 'y' :: 't' :: 'e' :: 's' :: '=' :: rest => some rest
  | _ => none

/-- `split_once('-')` -/
def splitDash (chars : List Char) : Option (List Char × List Char) :=
  match chars.dropWhile (· != '-') with
  | [] => none
  | _ :: back => some (chars.takeWhile (· != '-'), back)

def parseBound (chars : List Char) : Except RangeParseError Nat :=
  match parseU64 chars with
  | some value => .ok value
  | none => .error .malformed

def parseSuffix (endStr : List Char) (totalSize : Nat) : Except RangeParseError (Option (Nat × Nat)) :=
  match parseBound endStr with
  | .error reason => .error reason
  | .ok suffix =>
      if suffix = 0 then .error .unsatisfiable
      else .ok (some (totalSize - min suffix totalSize, totalSize - 1))

def parseOpen (startStr : List Char) (totalSize : Nat) : Except RangeParseError (Option (Nat × Nat)) :=
  match parseBound startStr with
  | .error reason => .error reason
  | .ok start => if totalSize ≤ start then .error .unsatisfiable else .ok (some (start, totalSize - 1))

def parseClosed (startStr endStr : List Char) (totalSize : Nat) :
    Except RangeParseError (Option (Nat × Nat)) :=
  match parseBound startStr with
  | .error reason => .error reason
  | .ok start =>
      match parseBound endStr with
      | .error reason => .error reason
      | .ok last =>
          if last < start then .error .malformed
          else if totalSize ≤ start then .error .unsatisfiable
          else .ok (some (start, min last (totalSize - 1)))

/-- The first range of a `Range` header as a closed interval, clipped to the archive. -/
def parseRangeHeader (rangeStr : List Char) (totalSize : Nat) :
    Except RangeParseError (Option (Nat × Nat)) :=
  match stripBytes rangeStr with
  | none => .error .malformed
  | some rest =>
      let specs := trim rest
      if specs.isEmpty then .error .malformed
      else if totalSize = 0 then .error .unsatisfiable
      else
        match splitDash (trim (specs.takeWhile (· != ','))) with
        | none => .error .malformed
        | some (startStr, endStr) =>
            let startStr := trim startStr
            let endStr := trim endStr
            match startStr.isEmpty, endStr.isEmpty with
            | true, false => parseSuffix endStr totalSize
            | false, true => parseOpen startStr totalSize
            | false, false => parseClosed startStr endStr totalSize
            | true, true => .error .malformed

section Bounds

variable {startStr endStr : List Char} {totalSize start last : Nat}

theorem parseSuffix_bounds (positive : totalSize ≠ 0)
    (accepted : parseSuffix endStr totalSize = .ok (some (start, last))) : start ≤ last ∧ last < totalSize := by
  unfold parseSuffix at accepted
  cases bound : parseBound endStr with
  | error reason => simp [bound] at accepted
  | ok suffix =>
      simp only [bound] at accepted
      split at accepted
      · simp at accepted
      · simp only [Except.ok.injEq, Option.some.injEq, Prod.mk.injEq] at accepted
        omega

theorem parseOpen_bounds (accepted : parseOpen startStr totalSize = .ok (some (start, last))) :
    start ≤ last ∧ last < totalSize := by
  unfold parseOpen at accepted
  cases bound : parseBound startStr with
  | error reason => simp [bound] at accepted
  | ok first =>
      simp only [bound] at accepted
      split at accepted
      · simp at accepted
      · simp only [Except.ok.injEq, Option.some.injEq, Prod.mk.injEq] at accepted
        omega

theorem parseClosed_bounds (accepted : parseClosed startStr endStr totalSize = .ok (some (start, last))) :
    start ≤ last ∧ last < totalSize := by
  unfold parseClosed at accepted
  cases firstBound : parseBound startStr with
  | error reason => simp [firstBound] at accepted
  | ok first =>
      cases lastBound : parseBound endStr with
      | error reason => simp [firstBound, lastBound] at accepted
      | ok final =>
          simp only [firstBound, lastBound] at accepted
          split at accepted
          · simp at accepted
          split at accepted
          · simp at accepted
          · simp only [Except.ok.injEq, Option.some.injEq, Prod.mk.injEq] at accepted
            omega

end Bounds

theorem parseRangeHeader_bounds {rangeStr : List Char} {totalSize start last : Nat}
    (accepted : parseRangeHeader rangeStr totalSize = .ok (some (start, last))) :
    start ≤ last ∧ last < totalSize := by
  unfold parseRangeHeader at accepted
  cases stripped : stripBytes rangeStr with
  | none => simp [stripped] at accepted
  | some rest =>
      simp only [stripped] at accepted
      split at accepted
      · simp at accepted
      split at accepted
      · simp at accepted
      rename_i nonempty positive
      split at accepted
      · simp at accepted
      rename_i startStr endStr _
      split at accepted
      · exact parseSuffix_bounds positive accepted
      · exact parseOpen_bounds accepted
      · exact parseClosed_bounds accepted
      · simp at accepted

end Raas.Server
