import Mathlib.Data.Bool.AllAny
import Raas.Data.Parameters
import Raas.Server.Disposition

namespace Raas.Server

open Data

/-! The file name in `Content-Disposition`. -/

/-- Unreserved characters and triples of `%` and two hexadecimal digits. -/
inductive PercentEncoded : Bytes → Prop
  | nil : PercentEncoded []
  | plain {byte : UInt8} {rest : Bytes} (unreserved : isUnreserved byte = true) (encoded : PercentEncoded rest) :
      PercentEncoded (byte :: rest)
  | triple {high low : UInt8} {rest : Bytes} (first : (Field.hexValue high).isSome)
      (second : (Field.hexValue low).isSome) (encoded : PercentEncoded rest) :
      PercentEncoded (37 :: high :: low :: rest)

theorem hexValue_hexDigit {value : Nat} (small : value < 16) : Field.hexValue (hexDigit value) = some value := by
  revert value
  decide

theorem isAttribute_of_unreserved {byte : UInt8} (unreserved : isUnreserved byte = true) :
    byte ≠ 37 ∧ Field.isAttribute byte = true := by
  constructor
  · intro same
    subst same
    exact absurd unreserved (by decide)
  · unfold isUnreserved at unreserved
    simp only [Bool.or_eq_true _ (_ == _), beq_iff_eq] at unreserved
    rw [Field.isAttribute, Field.isAlphanumeric]
    rcases unreserved with (((alphanumeric | rfl) | rfl) | rfl) | rfl
    · rw [alphanumeric, Bool.true_or]
    all_goals decide

theorem percentEncodeUtf8_cons (byte : UInt8) (rest : Bytes) : percentEncodeUtf8 (byte :: rest) =
    (if isUnreserved byte then [byte] else [37, hexDigit (byte.toNat / 16), hexDigit (byte.toNat % 16)]) ++
      percentEncodeUtf8 rest :=
  List.flatMap_cons

theorem percentEncoded (value : Bytes) : PercentEncoded (percentEncodeUtf8 value) := by
  induction value with
  | nil => exact .nil
  | cons byte rest ih =>
      have small : byte.toNat < 256 := byte.toNat_lt
      rw [percentEncodeUtf8_cons]
      split
      · rename_i unreserved
        exact .plain unreserved ih
      · refine .triple ?_ ?_ ih
        · rw [hexValue_hexDigit (by omega)]
          rfl
        · rw [hexValue_hexDigit (by omega)]
          rfl

theorem percentDecode_encoded (value : Bytes) : Field.percentDecode (percentEncodeUtf8 value) = some value := by
  induction value with
  | nil => rfl
  | cons byte rest ih =>
      have small : byte.toNat < 256 := byte.toNat_lt
      rw [percentEncodeUtf8_cons]
      split
      · rename_i unreserved
        obtain ⟨different, stands⟩ := isAttribute_of_unreserved unreserved
        rw [List.singleton_append, Field.percentDecode.eq_def]
        simp only [if_neg different, stands, if_true, ih, Option.map_some]
      · have whole : byte.toNat / 16 * 16 + byte.toNat % 16 = byte.toNat := by omega
        rw [List.cons_append, List.cons_append, List.singleton_append, Field.percentDecode.eq_def]
        simp only [if_true, hexValue_hexDigit (show byte.toNat / 16 < 16 by omega),
          hexValue_hexDigit (show byte.toNat % 16 < 16 by omega), ih, Option.map_some, whole, UInt8.ofNat_toNat]

theorem encoded_byte {value : Bytes} {byte : UInt8} (member : byte ∈ percentEncodeUtf8 value) :
    isUnreserved byte = true ∨ byte = 37 := by
  obtain ⟨original, _, written⟩ := List.mem_flatMap.mp member
  have small : original.toNat < 256 := original.toNat_lt
  have digit : ∀ {number : Nat}, number < 16 → isUnreserved (hexDigit number) = true := by
    intro number below
    revert number
    decide
  split at written
  · rename_i unreserved
    rw [List.mem_singleton.mp written]
    exact .inl unreserved
  · simp only [List.mem_cons, List.not_mem_nil, or_false] at written
    rcases written with rfl | rfl | rfl
    · exact .inr rfl
    · exact .inl (digit (by omega))
    · exact .inl (digit (by omega))

/-- Bytes that no part of an encoded name can be. -/
def isSyntax (byte : UInt8) : Bool := [9, 10, 13, 32, 34, 39, 59].contains byte

theorem encoded_plain {value : Bytes} : ∀ byte ∈ percentEncodeUtf8 value, isSyntax byte = false := by
  intro byte member
  rw [← Bool.not_eq_true, isSyntax, List.contains_iff_mem]
  intro listed
  simp only [List.mem_cons, List.not_mem_nil, or_false] at listed
  rcases encoded_byte member with unreserved | rfl
  · rcases listed with rfl | rfl | rfl | rfl | rfl | rfl | rfl <;> exact absurd unreserved (by decide)
  · revert listed
    decide

theorem safe_byte {fileName : Bytes} (safe : isAsciiSafe fileName = true) :
    ∀ byte ∈ fileName, byte < 128 ∧ byte ≠ 34 ∧ byte ≠ 92 ∧ byte ≠ 13 ∧ byte ≠ 10 := by
  intro byte member
  have holds := List.all_eq_true.mp safe byte member
  simp only [Bool.and_eq_true, decide_eq_true_eq, bne_iff_ne] at holds
  exact ⟨holds.1.1.1.1, holds.1.1.1.2, holds.1.1.2, holds.1.2, holds.2⟩

/-- ` filename*=UTF-8''` and the encoded name. -/
def extendedPart (fileName : Bytes) : Bytes := ascii " filename*=UTF-8''" ++ percentEncodeUtf8 fileName

theorem extendedPart_eq (fileName : Bytes) :
    extendedPart fileName =
      [32] ++ (ascii "filename*" ++ 61 :: (ascii "UTF-8" ++ 39 :: ([] ++ 39 :: percentEncodeUtf8 fileName))) := by
  have name : ascii " filename*=UTF-8''" = [32] ++ (ascii "filename*" ++ 61 :: (ascii "UTF-8" ++ 39 :: [39])) := by
    decide
  rw [extendedPart, name]
  simp

theorem buildContentDisposition_eq (fileName : Bytes) :
    buildContentDisposition fileName =
      ascii "attachment" ++ 59 ::
        (if isAsciiSafe fileName then
          ascii " filename=" ++ 34 :: (fileName ++ 34 :: 59 :: extendedPart fileName)
        else extendedPart fileName) := by
  have quoted : ascii "attachment; filename=\"" = ascii "attachment" ++ 59 :: (ascii " filename=" ++ [34]) := by
    decide
  have closing : ascii "\"; filename*=UTF-8''" = 34 :: 59 :: ascii " filename*=UTF-8''" := by
    decide
  have plain : ascii "attachment; filename*=UTF-8''" = ascii "attachment" ++ 59 :: ascii " filename*=UTF-8''" := by
    decide
  rw [buildContentDisposition, extendedPart]
  split
  · rw [quoted, closing]
    simp
  · rw [plain]
    simp

theorem parts_extended (fileName : Bytes) : Field.parts .outside (extendedPart fileName) = [extendedPart fileName] := by
  apply Field.parts_last
  intro byte member
  have front : ∀ byte ∈ ascii " filename*=UTF-8''", byte ≠ 59 ∧ byte ≠ 34 :=
    List.all_iff_forall_prop.mp (by decide)
  rcases List.mem_append.mp member with fixed | encoded
  · exact front byte fixed
  · have plain := encoded_plain byte encoded
    constructor <;> rintro rfl <;> exact absurd plain (by decide)

theorem parse_extended (fileName : Bytes) :
    Field.parseParameter (extendedPart fileName) =
      some (.extended (ascii "filename*") (ascii "UTF-8") [] fileName) := by
  have solid : ∀ byte ∈ 39 :: 39 :: percentEncodeUtf8 fileName, Field.isBlank byte = false := by
    intro byte member
    rcases List.mem_cons.mp member with rfl | member
    · decide
    rcases List.mem_cons.mp member with rfl | member
    · decide
    · rw [← Bool.not_eq_true, Field.isBlank, Bool.or_eq_true, beq_iff_eq, beq_iff_eq]
      have plain := encoded_plain byte member
      rintro (rfl | rfl) <;> exact absurd plain (by decide)
  -- the part ends with the encoded name, or with an apostrophe if that is empty
  obtain ⟨back, last, split⟩ :=
    (List.eq_nil_or_concat' (39 :: 39 :: percentEncodeUtf8 fileName)).resolve_left (List.cons_ne_nil _ _)
  have ends : Field.isBlank last = false := by
    apply solid
    rw [split]
    exact List.mem_append_right _ List.mem_cons_self
  have whole : ascii "filename*" ++ 61 :: (ascii "UTF-8" ++ 39 :: ([] ++ 39 :: percentEncodeUtf8 fileName)) =
      (ascii "filename*" ++ 61 :: (ascii "UTF-8" ++ back)) ++ [last] := by
    rw [List.nil_append, split]
    simp
  rw [extendedPart_eq, Field.parseParameter_named (List.forall_mem_singleton.mpr rfl) (by decide) ends whole,
    if_pos (by decide)]
  exact Field.parseExtended_value _ (by decide) List.not_mem_nil (percentDecode_encoded fileName)

theorem parse_plain {fileName : Bytes} (safe : isAsciiSafe fileName = true) :
    Field.parseParameter (ascii " filename=" ++ 34 :: (fileName ++ [34])) =
      some (.plain (ascii "filename") fileName) := by
  have name : ascii " filename=" ++ 34 :: (fileName ++ [34]) =
      [32] ++ (ascii "filename" ++ 61 :: 34 :: (fileName ++ [34])) := by
    have front : ascii " filename=" = [32] ++ (ascii "filename" ++ [61]) := by decide
    rw [front]
    simp
  have whole : ascii "filename" ++ 61 :: 34 :: (fileName ++ [34]) =
      (ascii "filename" ++ 61 :: 34 :: fileName) ++ [34] := by simp
  rw [name, Field.parseParameter_named (List.forall_mem_singleton.mpr rfl) (by decide) (by decide) whole,
    if_neg (by decide)]
  exact Field.parsePlain_quoted _ fun byte member =>
    ⟨(safe_byte safe byte member).2.1, (safe_byte safe byte member).2.2.1⟩

theorem disposition_line {fileName : Bytes} : ∀ byte ∈ buildContentDisposition fileName, byte ≠ 13 ∧ byte ≠ 10 := by
  have extended : ∀ byte ∈ extendedPart fileName, byte ≠ 13 ∧ byte ≠ 10 := by
    intro byte member
    have front : ∀ byte ∈ ascii " filename*=UTF-8''", byte ≠ 13 ∧ byte ≠ 10 :=
      List.all_iff_forall_prop.mp (by decide)
    rcases List.mem_append.mp member with fixed | encoded
    · exact front byte fixed
    · have plain := encoded_plain byte encoded
      constructor <;> rintro rfl <;> exact absurd plain (by decide)
  have word : ∀ byte ∈ ascii "attachment", byte ≠ 13 ∧ byte ≠ 10 := List.all_iff_forall_prop.mp (by decide)
  have plain : ∀ byte ∈ ascii " filename=", byte ≠ 13 ∧ byte ≠ 10 := List.all_iff_forall_prop.mp (by decide)
  intro byte member
  rw [buildContentDisposition_eq, List.mem_append, List.mem_cons] at member
  rcases member with fixed | rfl | member
  · exact word byte fixed
  · decide
  · split at member
    · rename_i safe
      rw [List.mem_append, List.mem_cons, List.mem_append, List.mem_cons, List.mem_cons] at member
      rcases member with fixed | rfl | named | rfl | rfl | member
      · exact plain byte fixed
      · decide
      · exact (safe_byte safe byte named).2.2.2
      · decide
      · decide
      · exact extended byte member
    · exact extended byte member

/-- The header gives the file name back. It reads as a field with the parameter
`filename*`, which holds the name percent-encoded in UTF-8, and before it perhaps
`filename` with the same name in quotes; no name ends the quotes early, adds a
parameter or breaks the line. -/
theorem file_name_survives (fileName : Bytes) :
    Field.parse (buildContentDisposition fileName) =
        some
          { word := ascii "attachment"
            parameters :=
              (if isAsciiSafe fileName then [.plain (ascii "filename") fileName] else []) ++
                [.extended (ascii "filename*") (ascii "UTF-8") [] fileName] } ∧
      (∃ front, buildContentDisposition fileName =
        front ++ ascii "; filename*=UTF-8''" ++ percentEncodeUtf8 fileName) ∧
      PercentEncoded (percentEncodeUtf8 fileName) ∧
      ∀ byte ∈ buildContentDisposition fileName, byte ≠ 13 ∧ byte ≠ 10 := by
  refine ⟨?_, ?_, percentEncoded fileName, disposition_line⟩
  · have line : ¬ (13 ∈ buildContentDisposition fileName ∨ 10 ∈ buildContentDisposition fileName) := by
      intro either
      rcases either with member | member
      · exact (disposition_line 13 member).1 rfl
      · exact (disposition_line 10 member).2 rfl
    have word : trimmed Field.isBlank (ascii "attachment") = ascii "attachment" := by decide
    have token : Field.isToken (ascii "attachment") = true := by decide
    rw [Field.parse, if_neg line, buildContentDisposition_eq, Field.parts_first (List.all_iff_forall_prop.mp (by decide))]
    cases safe : isAsciiSafe fileName with
    | false =>
        simp only [Bool.false_eq_true, if_false, parts_extended, word, token, if_true, List.mapM_cons, List.mapM_nil,
          parse_extended]
        rfl
    | true =>
        have quoted := fun byte member => And.intro (safe_byte safe byte member).2.1 (safe_byte safe byte member).2.2.1
        have front : ∀ byte ∈ ascii " filename=", byte ≠ 59 ∧ byte ≠ 34 := List.all_iff_forall_prop.mp (by decide)
        simp only [if_true, Field.parts_quoted front quoted,
          parts_extended, word, token, List.mapM_cons, List.mapM_nil, parse_plain safe, parse_extended]
        rfl
  · have mark : ascii "; filename*=UTF-8''" = 59 :: ascii " filename*=UTF-8''" := by decide
    rw [buildContentDisposition_eq, mark, extendedPart]
    split
    · exact ⟨ascii "attachment" ++ 59 :: (ascii " filename=" ++ 34 :: (fileName ++ [34])), by simp⟩
    · exact ⟨ascii "attachment", by simp⟩

end Raas.Server
