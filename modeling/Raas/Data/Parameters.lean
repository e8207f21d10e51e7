import Raas.Data.Trimming

namespace Raas.Data

/-! Header fields: a word, and parameters behind semicolons.

A parameter is `name=value` with a token or a quoted string, or `name*=value` with a
charset, a language and percent-encoded bytes between apostrophes. -/

inductive Parameter where
  | plain (name value : List UInt8)
  | extended (name charset language value : List UInt8)
deriving DecidableEq, Repr

structure Field where
  word : List UInt8
  parameters : List Parameter
deriving DecidableEq, Repr

namespace Field

def isBlank (byte : UInt8) : Bool := byte == 32 || byte == 9

def isAlphanumeric (byte : UInt8) : Bool :=
  (48 ≤ byte && byte ≤ 57) || (65 ≤ byte && byte ≤ 90) || (97 ≤ byte && byte ≤ 122)

/-- What may stand for itself in an extended value: letters, digits and ``!#$&+-.^_`|~``. -/
def isAttribute (byte : UInt8) : Bool :=
  isAlphanumeric byte || [33, 35, 36, 38, 43, 45, 46, 94, 95, 96, 124, 126].contains byte

/-- The characters of tokens: those, and `%`, `'` and `*`. -/
def isTokenByte (byte : UInt8) : Bool := isAttribute byte || byte == 37 || byte == 39 || byte == 42

def isToken (bytes : List UInt8) : Bool := !bytes.isEmpty && bytes.all isTokenByte

/-- Where a byte stands with respect to quoted strings. -/
inductive Quote where
  | outside
  | inside
  | escaped
deriving DecidableEq

def Quote.next : Quote → UInt8 → Quote
  | .outside, byte => if byte = 34 then .inside else .outside
  | .inside, byte => if byte = 34 then .outside else if byte = 92 then .escaped else .inside
  | .escaped, _ => .inside

/-- The parts between the semicolons outside quoted strings. -/
def parts : Quote → List UInt8 → List (List UInt8)
  | _, [] => [[]]
  | quote, byte :: rest =>
      if quote = .outside ∧ byte = 59 then [] :: parts .outside rest
      else (parts (quote.next byte) rest).modifyHead (byte :: ·)

/-- A quoted string behind its opening quote: the next quote ends it, and a backslash
takes the next byte as it is. -/
def unquote : List UInt8 → Option (List UInt8)
  | [] => none
  | byte :: rest =>
      if byte = 34 then if rest = [] then some [] else none
      else if byte = 92 then
        match rest with
        | [] => none
        | taken :: rest => (unquote rest).map (taken :: ·)
      else (unquote rest).map (byte :: ·)

def hexValue (byte : UInt8) : Option Nat :=
  if 48 ≤ byte ∧ byte ≤ 57 then some (byte.toNat - 48)
  else if 65 ≤ byte ∧ byte ≤ 70 then some (byte.toNat - 55)
  else if 97 ≤ byte ∧ byte ≤ 102 then some (byte.toNat - 87)
  else none

def percentDecode : List UInt8 → Option (List UInt8)
  | [] => some []
  | byte :: rest =>
      if byte = 37 then
        match rest with
        | high :: low :: rest =>
            match hexValue high, hexValue low with
            | some high, some low => (percentDecode rest).map (UInt8.ofNat (high * 16 + low) :: ·)
            | _, _ => none
        | _ => none
      else if isAttribute byte then (percentDecode rest).map (byte :: ·)
      else none

def parseExtended (name value : List UInt8) : Option Parameter :=
  match value.dropWhile (· != 39) with
  | [] => none
  | _ :: behind =>
      match behind.dropWhile (· != 39) with
      | [] => none
      | _ :: encoded =>
          (percentDecode encoded).map fun decoded =>
            .extended name (value.takeWhile (· != 39)) (behind.takeWhile (· != 39)) decoded

def parsePlain (name value : List UInt8) : Option Parameter :=
  match value with
  | [] => none
  | first :: rest =>
      if first = 34 then (unquote rest).map (.plain name)
      else if isToken value then some (.plain name value)
      else none

def parseParameter (part : List UInt8) : Option Parameter :=
  let part := trimmed isBlank part
  let name := part.takeWhile (· != 61)
  match part.dropWhile (· != 61) with
  | [] => none
  | _ :: value =>
      if !isToken name then none
      else if name.getLast? = some 42 then parseExtended name value
      else parsePlain name value

/-- A field on one line. -/
def parse (bytes : List UInt8) : Option Field :=
  if 13 ∈ bytes ∨ 10 ∈ bytes then none
  else
    match parts .outside bytes with
    | [] => none
    | word :: rest =>
        let word := trimmed isBlank word
        if isToken word then (rest.mapM parseParameter).map fun parameters => { word, parameters } else none

variable {front body rest name charset language encoded decoded : List UInt8}

theorem parts_plain (plain : ∀ byte ∈ front, byte ≠ 59 ∧ byte ≠ 34) (rest : List UInt8) :
    parts .outside (front ++ rest) = (parts .outside rest).modifyHead (front ++ ·) := by
  induction front with
  | nil =>
      rw [List.nil_append]
      cases parts .outside rest <;> rfl
  | cons byte front ih =>
      rw [List.forall_mem_cons] at plain
      rw [List.cons_append, parts, if_neg fun marked => plain.1.1 marked.2, Quote.next, if_neg plain.1.2, ih plain.2,
        List.modifyHead_modifyHead]
      rfl

theorem parts_last (plain : ∀ byte ∈ front, byte ≠ 59 ∧ byte ≠ 34) : parts .outside front = [front] := by
  have whole := parts_plain plain []
  rw [List.append_nil] at whole
  rw [whole, parts, List.modifyHead_cons, List.append_nil]

theorem parts_first (plain : ∀ byte ∈ front, byte ≠ 59 ∧ byte ≠ 34) (rest : List UInt8) :
    parts .outside (front ++ 59 :: rest) = front :: parts .outside rest := by
  rw [parts_plain plain, parts, if_pos ⟨rfl, rfl⟩, List.modifyHead_cons, List.append_nil]

theorem parts_inside (body : List UInt8) (safe : ∀ byte ∈ body, byte ≠ 34 ∧ byte ≠ 92) (rest : List UInt8) :
    parts .inside (body ++ 34 :: rest) = (parts .outside rest).modifyHead (body ++ 34 :: ·) := by
  induction body with
  | nil =>
      rw [List.nil_append, parts, if_neg (by simp), Quote.next, if_pos rfl]
      rfl
  | cons byte body ih =>
      rw [List.forall_mem_cons] at safe
      rw [List.cons_append, parts, if_neg (by simp), Quote.next, if_neg safe.1.1, if_neg safe.1.2, ih safe.2,
        List.modifyHead_modifyHead]
      rfl

/-- A part that ends with a quoted string. -/
theorem parts_quoted (plain : ∀ byte ∈ front, byte ≠ 59 ∧ byte ≠ 34) (safe : ∀ byte ∈ body, byte ≠ 34 ∧ byte ≠ 92)
    (rest : List UInt8) :
    parts .outside (front ++ 34 :: (body ++ 34 :: 59 :: rest)) =
      (front ++ 34 :: (body ++ [34])) :: parts .outside rest := by
  rw [parts_plain plain, parts, if_neg (by simp), Quote.next, if_pos rfl, parts_inside body safe, parts,
    if_pos ⟨rfl, rfl⟩, List.modifyHead_cons, List.modifyHead_cons, List.modifyHead_cons]

theorem unquote_body (safe : ∀ byte ∈ body, byte ≠ 34 ∧ byte ≠ 92) : unquote (body ++ [34]) = some body := by
  induction body with
  | nil => rfl
  | cons byte body ih =>
      rw [List.forall_mem_cons] at safe
      rw [List.cons_append, unquote.eq_def]
      simp only [if_neg safe.1.1, if_neg safe.1.2, ih safe.2, Option.map_some]

/-- Nothing is trimmed off between a byte that is no blank and another one. -/
theorem trimmed_solid {first last : UInt8} (starts : isBlank first = false) (ends : isBlank last = false)
    (blanks : ∀ byte ∈ front, isBlank byte = true) (whole : first :: body = rest ++ [last]) :
    trimmed isBlank (front ++ first :: body) = first :: body := by
  rw [trimmed, List.dropWhile_append_of_pos blanks,
    List.dropWhile_cons_of_neg (by rw [starts]; exact Bool.false_ne_true), whole, rdropWhile_behind ends]
  rfl

theorem parseParameter_named {last : UInt8} (blanks : ∀ byte ∈ front, isBlank byte = true) (token : isToken name = true)
    (ends : isBlank last = false) {value : List UInt8} (whole : name ++ 61 :: value = rest ++ [last]) :
    parseParameter (front ++ (name ++ 61 :: value)) =
      if name.getLast? = some 42 then parseExtended name value else parsePlain name value := by
  have solid : ∀ byte ∈ name, isTokenByte byte = true := by
    rw [isToken, Bool.and_eq_true, List.all_eq_true] at token
    exact token.2
  have apart : ∀ byte ∈ name, (byte != 61) = true := by
    intro byte member
    rw [bne_iff_ne]
    intro same
    subst same
    exact absurd (solid 61 member) (by decide)
  have part : trimmed isBlank (front ++ (name ++ 61 :: value)) = name ++ 61 :: value := by
    cases name with
    | nil => exact absurd token (by decide)
    | cons first others =>
        have starts : isBlank first = false := by
          rw [← Bool.not_eq_true, isBlank, Bool.or_eq_true, beq_iff_eq, beq_iff_eq]
          intro same
          rcases same with rfl | rfl
          · exact absurd (solid 32 List.mem_cons_self) (by decide)
          · exact absurd (solid 9 List.mem_cons_self) (by decide)
        exact trimmed_solid starts ends blanks whole
  have before : (name ++ 61 :: value).takeWhile (· != 61) = name := takeWhile_before apart (by decide)
  have behind : (name ++ 61 :: value).dropWhile (· != 61) = 61 :: value := by
    rw [List.dropWhile_append_of_pos apart, List.dropWhile_cons_of_neg (by decide)]
  simp only [parseParameter, part, before, behind, token, Bool.not_true, Bool.false_eq_true, if_false]

theorem parseExtended_value (name : List UInt8) (charsetFree : 39 ∉ charset) (languageFree : 39 ∉ language)
    (decodes : percentDecode encoded = some decoded) :
    parseExtended name (charset ++ 39 :: (language ++ 39 :: encoded)) =
      some (.extended name charset language decoded) := by
  have free : ∀ {bytes : List UInt8}, 39 ∉ bytes → ∀ byte ∈ bytes, (byte != 39) = true := by
    intro bytes absent byte member
    rw [bne_iff_ne]
    intro same
    subst same
    exact absent member
  have first : (charset ++ 39 :: (language ++ 39 :: encoded)).dropWhile (· != 39) = 39 :: (language ++ 39 :: encoded) := by
    rw [List.dropWhile_append_of_pos (free charsetFree), List.dropWhile_cons_of_neg (by decide)]
  have second : (language ++ 39 :: encoded).dropWhile (· != 39) = 39 :: encoded := by
    rw [List.dropWhile_append_of_pos (free languageFree), List.dropWhile_cons_of_neg (by decide)]
  simp only [parseExtended, first, second, decodes, Option.map_some,
    takeWhile_before (free charsetFree) (by decide : (39 != (39 : UInt8)) = false),
    takeWhile_before (free languageFree) (by decide : (39 != (39 : UInt8)) = false)]

theorem parsePlain_quoted (name : List UInt8) (safe : ∀ byte ∈ body, byte ≠ 34 ∧ byte ≠ 92) :
    parsePlain name (34 :: (body ++ [34])) = some (.plain name body) := by
  rw [parsePlain, if_pos rfl, unquote_body safe, Option.map_some]

end Field

end Raas.Data
